import ChocoRv.Token.Basic
import ChocoRv.Ty.Basic

/-!
# Type slots

Every expression has a place and a slot for its entry. A slot is written once.
-/

namespace ChocoRv

/-- What is offered to a slot. A signature or a list type in which a type is missing is
incomplete: it has no text of its own. -/
inductive Offer where
  | nothing
  | incomplete
  | entry (e : Entry)
deriving DecidableEq, Repr

namespace Offer

/-- Why an incomplete entry has no text. -/
def fault : Bytes := txt "runtime error: invalid memory address or nil pointer dereference"

def text : Offer → Bytes
  | nothing => []
  | incomplete => txt "%!s(PANIC=String method: " ++ fault ++ txt ")"
  | entry e => e.text

def ofOption : Option Entry → Offer
  | none => nothing
  | some e => entry e

end Offer

/-- A slot written without an entry, for the first time with an incomplete one, or a second
time. -/
inductive SlotError where
  | missing (loc : Loc)
  | incomplete
  | twice (loc : Loc) (first : Entry) (second : Offer)
deriving DecidableEq, Repr

def SlotError.message : SlotError → Bytes
  | missing loc => txt "ast: nil inferred type at " ++ loc.text
  | incomplete => Offer.fault
  | twice loc first second =>
    txt "ast: inferred type at " ++ loc.text ++ txt " written twice (" ++ first.text ++
      txt ", then " ++ second.text ++ txt ")"

/-- The place of an expression and its slot. -/
structure Mark where
  loc : Loc
  entry? : Option Entry := none
deriving DecidableEq, Repr

namespace Mark

def write (m : Mark) (e : Entry) : Except SlotError Mark :=
  match m.entry? with
  | none => .ok { m with entry? := some e }
  | some first => .error (.twice m.loc first (.entry e))

/-- Writes what is offered, which must be an entry. -/
def accept (m : Mark) : Offer → Except SlotError Mark
  | .nothing => .error (.missing m.loc)
  | .incomplete =>
    match m.entry? with
    | none => .error .incomplete
    | some first => .error (.twice m.loc first .incomplete)
  | .entry e => m.write e

/-- The value type in the slot, if it holds one. -/
def type? (m : Mark) : Option Ty := m.entry?.bind Entry.value?

end Mark

end ChocoRv
