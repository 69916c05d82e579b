import ChocoRv.Text.Basic

/-!
# Marks of emphasis

Runs of asterisks or underscores open and close emphasis in pairs: each run that can close takes
marks from the nearest one before it that can open, two at a time where both have them. Marks that
are not taken are text.
-/

namespace ChocoRv.Markdown

structure Run where
  mark : UInt8
  /-- The number of marks as written. -/
  written : Nat
  /-- The number of marks that are not taken. -/
  length : Nat
  canOpen : Bool
  canClose : Bool
deriving DecidableEq, Repr

namespace Run

/-- A run between two characters, of which is known whether they are white space or punctuation. -/
def ofNeighbours (mark : UInt8) (length : Nat)
    (whiteBefore punctBefore whiteAfter punctAfter : Bool) : Run :=
  let left := !whiteAfter && (!punctAfter || whiteBefore || punctBefore)
  let right := !whiteBefore && (!punctBefore || whiteAfter || punctAfter)
  let inWord := mark == '_'.toUInt8
  { mark, written := length, length
    canOpen := left && (!inWord || !right || punctBefore)
    canClose := right && (!inWord || !left || punctAfter) }

def canPair (opener closer : Run) : Bool := opener.canOpen && opener.mark == closer.mark

/-- The number of marks that a pair takes from each run. Runs that could do both do not pair if
their lengths add up to a multiple of three, unless both are such multiples. -/
def taken (opener closer : Run) : Nat :=
  if (opener.canClose || closer.canOpen) && (opener.written + closer.written) % 3 == 0 &&
      closer.written % 3 != 0 then 0
  else if 2 ≤ opener.length && 2 ≤ closer.length then 2
  else 1

def take (r : Run) (n : Nat) : Run := { r with length := r.length - n }

end Run

/-- Runs that may still open emphasis, the nearest first, with their numbers, and the marks left of
those that are done. -/
structure Pairing where
  waiting : List (Nat × Run) := []
  done : List (Nat × Nat) := []

namespace Pairing

/-- The runs after the nearest that pairs with a closing one, that run, and those before it. -/
def opener? (closer : Run) :
    List (Nat × Run) → Option (List (Nat × Run) × (Nat × Run) × List (Nat × Run))
  | [] => none
  | r :: rest =>
    if r.2.canPair closer && 0 < r.2.taken closer then some ([], r, rest)
    else (opener? closer rest).map fun (between, found, outer) => (r :: between, found, outer)

def finish (p : Pairing) (runs : List (Nat × Run)) : Pairing :=
  { p with done := runs.map (fun (i, r) => (i, r.length)) ++ p.done }

/-- Adds a run to those that wait, or to those that are done if it has no marks left. -/
def keep (p : Pairing) (i : Nat) (r : Run) : Pairing :=
  if r.length = 0 then p.finish [(i, r)] else { p with waiting := (i, r) :: p.waiting }

/-- Takes up the next run, which pairs at most `n` times. -/
def add : Nat → Pairing → Nat → Run → Pairing
  | 0, p, i, r => p.keep i r
  | n + 1, p, i, r =>
    if !r.canClose then p.keep i r
    else match opener? r p.waiting with
      | some (between, (j, o), outer) =>
        let k := o.taken r
        let p := ({ p with waiting := outer }.finish between).keep j (o.take k)
        if r.length ≤ k then p.finish [(i, r.take k)] else add n p i (r.take k)
      | none =>
        if r.canOpen || p.waiting.any (·.2.canPair r) then p.keep i r else p.finish [(i, r)]

end Pairing

/-- The number of marks that are left of each run. -/
def unpaired (runs : List Run) : List Nat :=
  let p := runs.zipIdx.foldl (fun (p : Pairing) (r, i) => p.add r.length i r) {}
  let left := (p.finish p.waiting).done
  runs.zipIdx.map fun (r, i) => (left.lookup i).getD r.length

end ChocoRv.Markdown
