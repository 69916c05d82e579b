import ChocoRv.Parser.Expr
import ChocoRv.Proofs.Grouping

/-!
# Climbing over a slice

The operators of a chain can be folded in place: a slice holds the terms, what is folded so far is
written over the last term it reaches, and each call returns the index it has come to. Such a run
keeps to its slice, ends, and returns what `build` does.

The invariant is `Standing`: the slice holds the tree at the index, and behind it the terms that are
still to come, whatever the run has left in front of it. The tree of a chain is given without an
algorithm, too: `layered` splits it at the last operator of the lowest priority.
-/

namespace ChocoRv.Precedence

variable {α ω : Type}

/-! ### Folding in place -/

/-- Code over a slice of terms: `none` if it never ends, otherwise an index out of range, or a
result and the slice it leaves. -/
abbrev OnSlice (α β : Type) : Type := StateT (List α) (ExceptT Nat Option) β

namespace OnSlice

def read (i : Nat) : OnSlice α α := do
  match (← get)[i]? with
  | some t => return t
  | none => throw i

def write (i : Nat) (t : α) : OnSlice α Unit := do
  if i < (← get).length then modify fun slice => slice.set i t else throw i

/-- The run from `slice` ends with `b` and leaves `after`. -/
def Ends {β : Type} (run : OnSlice α β) (slice : List α) (b : β) (after : List α) : Prop :=
  StateT.run run slice = some (.ok (b, after))

variable {β γ : Type} {slice mid after : List α}

theorem Ends.pure (b : β) (slice : List α) : Ends (Pure.pure b) slice b slice := rfl

theorem Ends.bind {x : OnSlice α β} {f : β → OnSlice α γ} {b : β} {c : γ} (hx : Ends x slice b mid)
    (hf : Ends (f b) mid c after) : Ends (x >>= f) slice c after := by
  rw [Ends, StateT.run_bind]
  show ExceptT.bindCont _ =<< StateT.run x slice = _
  rw [hx]
  exact hf

theorem ends_read {i : Nat} {t : α} {behind : List α} (h : slice.drop i = t :: behind) :
    Ends (read i) slice t slice := by
  have hi : slice[i]? = some t := by rw [← List.head?_drop, h]; rfl
  show StateT.run (match slice[i]? with | some t => Pure.pure t | none => throw i) slice = _
  rw [hi]
  rfl

theorem ends_write {i : Nat} (t : α) (h : i < slice.length) :
    Ends (write i t) slice () (slice.set i t) := by
  show StateT.run
    (if i < slice.length then modify fun ts : List α => ts.set i t else throw i) slice = _
  rw [if_pos h]
  rfl

end OnSlice

/-- The operators between the terms of a slice, with what they bind and what they build. -/
structure Chain (α ω : Type) where
  priority : ω → Nat
  node : α → ω → α → α
  ops : List ω

namespace Chain

mutual

/-- Folds the term at `loc` with the operators of priority `floor` or more behind it. -/
def foldFrom (c : Chain α ω) (loc floor : Nat) : OnSlice α (α × Nat) := do
  let lhs ← OnSlice.read loc
  c |>.foldWhile floor lhs loc
partial_fixpoint

/-- The loop over the operators of priority `floor` or more. -/
def foldWhile (c : Chain α ω) (floor : Nat) (lhs : α) (i : Nat) : OnSlice α (α × Nat) :=
  match c.ops[i]? with
  | some op =>
    if floor ≤ c.priority op then do
      let term ← OnSlice.read (i + 1)
      let (rhs, j) ← c |>.foldRight op term (i + 1)
      OnSlice.write j (c.node lhs op rhs)
      c |>.foldWhile floor (c.node lhs op rhs) j
    else return (lhs, i)
  | none => return (lhs, i)
partial_fixpoint

/-- The loop over the operators that bind the term behind `op` more tightly than `op` does. It
reads that term from the slice again, where the call before has written what it folded. -/
def foldRight (c : Chain α ω) (op : ω) (rhs : α) (j : Nat) : OnSlice α (α × Nat) :=
  match c.ops[j]? with
  | some next =>
    if c.priority op < c.priority next then do
      let (rhs, j) ← c |>.foldFrom j (c.priority next)
      c |>.foldRight op rhs j
    else return (rhs, j)
  | none => return (rhs, j)
partial_fixpoint

end

end Chain

/-- The tree of the terms in a slice. -/
def buildSlice (priority : ω → Nat) (node : α → ω → α → α) (ops : List ω) : OnSlice α α := do
  let chain : Chain α ω := ⟨priority, node, ops⟩
  return (← chain.foldFrom 0 0).1

/-! ### The invariant -/

/-- At index `i` of the slice stands the tree folded so far, with the operators and terms `rest`
behind it as they were at first. -/
structure Standing (ops : List ω) (slice : List α) (i : Nat) (lhs : α) (rest : List (ω × α)) :
    Prop where
  ops : ops.drop i = rest.map Prod.fst
  terms : slice.drop i = lhs :: rest.map Prod.snd

namespace Standing

variable {ops : List ω} {slice : List α} {i : Nat} {lhs next : α} {op : ω} {rest : List (ω × α)}

theorem next? (h : Standing ops slice i lhs rest) : ops[i]? = rest.head?.map Prod.fst := by
  rw [← List.head?_drop, h.ops, List.head?_map]

theorem lt (h : Standing ops slice i lhs rest) : i < slice.length := by
  refine Nat.lt_of_not_le fun hle => ?_
  have hterms := h.terms
  rw [List.drop_eq_nil_of_le hle] at hterms
  cases hterms

/-- The term behind the next operator stands at the next index. -/
theorem tail (h : Standing ops slice i lhs ((op, next) :: rest)) :
    Standing ops slice (i + 1) next rest := by
  refine ⟨?_, ?_⟩
  · rw [← List.tail_drop, h.ops]; rfl
  · rw [← List.tail_drop, h.terms]; rfl

/-- A tree may be written over the one that stands there. -/
theorem set (h : Standing ops slice i lhs rest) (tree : α) :
    Standing ops (slice.set i tree) i tree rest := by
  refine ⟨h.ops, ?_⟩
  rw [List.drop_set, if_neg (Nat.lt_irrefl i), h.terms, Nat.sub_self, List.set_cons_zero]

end Standing

section Climbed

variable {priority : ω → Nat} {node : α → ω → α → α}

/-- Climbing at `p` stops in front of an operator of lower priority. -/
theorem below_climbed (p : Nat) : ∀ (lhs : α) (rest : List (ω × α)),
    Below priority p (climbed priority node p lhs rest).2
  | lhs, [] => by
    rw [climbed_nil]
    rintro x ⟨⟩
  | lhs, (op, term) :: rest => by
    rcases Nat.lt_or_ge (priority op) p with h | h
    · rw [climbed_of_lt h]
      rintro x ⟨⟩
      exact h
    · rw [climbed_of_le h]
      exact below_climbed p _ _
termination_by _ rest => rest.length
decreasing_by exact Nat.lt_succ_of_le (length_climbed_le _ _ _)

/-- Climbing can first collect what binds more tightly, by any amount. -/
theorem climbed_climbed_of_le {p q : Nat} (hpq : p ≤ q) (lhs : α) (rest : List (ω × α)) :
    climbed priority node p (climbed priority node q lhs rest).1
      (climbed priority node q lhs rest).2 = climbed priority node p lhs rest := by
  induction hpq generalizing lhs rest with
  | refl => rw [climbed_of_below (below_climbed p lhs rest)]
  | @step q _ ih => rw [← ih, climbed_climbed, ih]

/-- Climbing at the priority of the first operator takes that operator. -/
theorem length_climbed_lt (lhs : α) (op : ω) (term : α) (rest : List (ω × α)) :
    (climbed priority node (priority op) lhs ((op, term) :: rest)).2.length <
      ((op, term) :: rest).length := by
  rw [climbed_of_le (Nat.le_refl _)]
  exact Nat.lt_succ_of_le (Nat.le_trans (length_climbed_le _ _ _) (length_climbed_le _ _ _))

end Climbed

/-! ### The run -/

section Run

variable {priority : ω → Nat} {node : α → ω → α → α} {ops : List ω}

/-- The run from `slice` ends at an index where what it returns stands before what is left. -/
def Folds (ops : List ω) (run : OnSlice α (α × Nat)) (slice : List α)
    (result : α × List (ω × α)) : Prop :=
  ∃ i after, OnSlice.Ends run slice (result.1, i) after ∧ Standing ops after i result.1 result.2

theorem Standing.folds {slice : List α} {i : Nat} {lhs : α} {rest : List (ω × α)}
    (h : Standing ops slice i lhs rest) : Folds ops (pure (lhs, i)) slice (lhs, rest) :=
  ⟨i, slice, OnSlice.Ends.pure _ _, h⟩

mutual

theorem foldFrom_folds (floor : Nat) {slice : List α} {i : Nat} {lhs : α} (rest : List (ω × α))
    (h : Standing ops slice i lhs rest) :
    Folds ops (Chain.foldFrom ⟨priority, node, ops⟩ i floor) slice
      (climbed priority node floor lhs rest) := by
  obtain ⟨j, after, hrun, hafter⟩ := foldWhile_folds floor rest h
  rw [Chain.foldFrom]
  exact ⟨j, after, (OnSlice.ends_read h.terms).bind hrun, hafter⟩
termination_by (rest.length, 1)

theorem foldWhile_folds (floor : Nat) {slice : List α} {i : Nat} {lhs : α} (rest : List (ω × α))
    (h : Standing ops slice i lhs rest) :
    Folds ops (Chain.foldWhile ⟨priority, node, ops⟩ floor lhs i) slice
      (climbed priority node floor lhs rest) := by
  rw [Chain.foldWhile, h.next?]
  match rest with
  | [] =>
    rw [climbed_nil]
    exact h.folds
  | (op, next) :: rest =>
    show Folds ops (if floor ≤ priority op then _ else _) slice _
    split
    · next hle =>
      rw [climbed_of_le hle]
      obtain ⟨j, mid, hright, hmid⟩ := foldRight_folds op rest h.tail
      have hwritten := hmid.set (node lhs op (climbed priority node (priority op + 1) next rest).1)
      have hshort : (climbed priority node (priority op + 1) next rest).2.length ≤ rest.length :=
        length_climbed_le _ _ _
      obtain ⟨k, after, hrun, hafter⟩ := foldWhile_folds floor _ hwritten
      refine ⟨k, after, ?_, hafter⟩
      exact (OnSlice.ends_read h.tail.terms).bind
        (hright.bind ((OnSlice.ends_write _ hmid.lt).bind hrun))
    · next hlt =>
      rw [climbed_of_lt (Nat.lt_of_not_le hlt)]
      exact h.folds
termination_by (rest.length, 0)

theorem foldRight_folds (op : ω) {slice : List α} {i : Nat} {rhs : α} (rest : List (ω × α))
    (h : Standing ops slice i rhs rest) :
    Folds ops (Chain.foldRight ⟨priority, node, ops⟩ op rhs i) slice
      (climbed priority node (priority op + 1) rhs rest) := by
  rw [Chain.foldRight, h.next?]
  match rest with
  | [] =>
    rw [climbed_nil]
    exact h.folds
  | (next, term) :: rest =>
    show Folds ops (if priority op < priority next then _ else _) slice _
    split
    · next hlt =>
      -- the call takes `next` itself, so the loop goes on with a shorter chain
      have hshort : (climbed priority node (priority next) rhs ((next, term) :: rest)).2.length <
          ((next, term) :: rest).length := length_climbed_lt rhs next term rest
      obtain ⟨j, mid, hcall, hmid⟩ := foldFrom_folds (priority next) _ h
      obtain ⟨k, after, hrun, hafter⟩ := foldRight_folds op _ hmid
      rw [climbed_climbed_of_le hlt] at hrun hafter
      exact ⟨k, after, hcall.bind hrun, hafter⟩
    · next hle =>
      rw [climbed_of_lt (Nat.lt_succ_of_le (Nat.le_of_not_lt hle))]
      exact h.folds
termination_by (rest.length, 2)

end

/-- A slice of one term more than there are operators holds the tree of the chain in the end. -/
theorem buildSlice_ends {first : α} {others : List α} (hlen : others.length = ops.length) :
    ∃ after, OnSlice.Ends (buildSlice priority node ops) (first :: others)
      (build priority node first (ops.zip others)) after := by
  have hstart : Standing ops (first :: others) 0 first (ops.zip others) := by
    refine ⟨?_, ?_⟩
    · rw [List.map_fst_zip (Nat.le_of_eq hlen.symm), List.drop_zero]
    · rw [List.map_snd_zip (Nat.le_of_eq hlen), List.drop_zero]
  have hfolds : Folds ops (Chain.foldFrom ⟨priority, node, ops⟩ 0 0) (first :: others)
      (climbed priority node 0 first (ops.zip others)) := foldFrom_folds 0 _ hstart
  obtain ⟨_, after, hrun, -⟩ := hfolds
  exact ⟨after, hrun.bind (OnSlice.Ends.pure _ _)⟩

end Run

/-! ### Layers -/

/-- The tree of a chain: its terms, with operators between them. -/
inductive Tree (α ω : Type) where
  | term (t : α)
  | node (l : Tree α ω) (op : ω) (r : Tree α ω)
deriving Repr, DecidableEq

/-- The terms and operators of a chain from left to right. -/
def inline (first : α) (rest : List (ω × α)) : List (α ⊕ ω) :=
  .inl first :: rest.flatMap fun x => [.inr x.1, .inl x.2]

namespace Tree

/-- The first term. -/
def leftmost : Tree α ω → α
  | term t => t
  | node l _ _ => l.leftmost

def terms : Tree α ω → List α
  | term t => [t]
  | node l _ r => l.terms ++ r.terms

/-- Terms and operators from left to right. -/
def inorder : Tree α ω → List (α ⊕ ω)
  | term t => [.inl t]
  | node l op r => l.inorder ++ .inr op :: r.inorder

/-- The tree itself and those below it. -/
def subtrees : Tree α ω → List (Tree α ω)
  | term t => [term t]
  | node l op r => node l op r :: (l.subtrees ++ r.subtrees)

/-- What is built of the terms of a tree. -/
def eval (f : α → ω → α → α) : Tree α ω → α
  | term t => t
  | node l op r => f (l.eval f) op (r.eval f)

end Tree

section Layered

variable {priority : ω → Nat} {node : α → ω → α → α}

/-- The last operator of priority `p` and its term, with what stands before and behind them. -/
def splitLast (priority : ω → Nat) (p : Nat) :
    List (ω × α) → Option (List (ω × α) × (ω × α) × List (ω × α))
  | [] => none
  | x :: rest =>
    match splitLast priority p rest with
    | some (before, last, behind) => some (x :: before, last, behind)
    | none => if priority x.1 = p then some ([], x, rest) else none

theorem splitLast_eq_none {p : Nat} {rest : List (ω × α)} :
    splitLast priority p rest = none ↔ ∀ y ∈ rest, priority y.1 ≠ p := by
  induction rest with
  | nil => simp [splitLast]
  | cons x rest ih =>
    rw [splitLast, List.forall_mem_cons, ← ih]
    cases splitLast priority p rest <;> simp

theorem splitLast_eq_some {p : Nat} {rest before behind : List (ω × α)} {x : ω × α} :
    splitLast priority p rest = some (before, x, behind) ↔
      rest = before ++ x :: behind ∧ priority x.1 = p ∧ ∀ y ∈ behind, priority y.1 ≠ p := by
  induction rest generalizing before with
  | nil => simp [splitLast]
  | cons y rest ih =>
    rw [splitLast]
    cases hrest : splitLast priority p rest with
    | none =>
      rw [splitLast_eq_none] at hrest
      cases before with
      | nil => grind
      | cons z before => grind
    | some s =>
      rw [hrest] at ih
      cases before with
      | nil => grind [splitLast_eq_none]
      | cons z before => grind

/-- The tree of a chain by its layers, given by the priorities of their operators: the first layer
is split at its last operator, whose right operand belongs to the layers below. -/
def layered (priority : ω → Nat) (layers : List Nat) (first : α) (rest : List (ω × α)) : Tree α ω :=
  match layers with
  | [] => .term first
  | p :: below =>
    match _h : splitLast priority p rest with
    | some (before, (op, next), behind) =>
      .node (layered priority (p :: below) first before) op (layered priority below next behind)
    | none => layered priority below first rest
termination_by (layers.length, rest.length)
decreasing_by
  · have hlen := congrArg List.length (splitLast_eq_some.1 ‹_›).1
    rw [List.length_append, List.length_cons] at hlen
    exact Prod.Lex.right _ (by omega)
  all_goals exact Prod.Lex.left _ _ (Nat.lt_succ_self _)

theorem layered_of_split {p : Nat} {below : List Nat} {rest before behind : List (ω × α)} {op : ω}
    {next : α} (h : splitLast priority p rest = some (before, (op, next), behind)) (first : α) :
    layered priority (p :: below) first rest =
      .node (layered priority (p :: below) first before) op
        (layered priority below next behind) := by
  rw [layered]
  split
  · next hsome =>
    cases h.symm.trans hsome
    rfl
  · next hnone => cases h.symm.trans hnone

theorem layered_of_ne {p : Nat} {below : List Nat} {rest : List (ω × α)}
    (h : ∀ y ∈ rest, priority y.1 ≠ p) (first : α) :
    layered priority (p :: below) first rest = layered priority below first rest := by
  rw [layered]
  split
  · next hsome => cases (splitLast_eq_none.2 h).symm.trans hsome
  · rfl

/-- A chain whose operators all belong to a layer keeps its order in the tree. -/
theorem inorder_layered {layers : List Nat} {first : α} {rest : List (ω × α)}
    (h : ∀ x ∈ rest, priority x.1 ∈ layers) :
    (layered priority layers first rest).inorder = inline first rest := by
  induction layers, first, rest using layered.induct priority with
  | case1 first rest =>
    cases rest with
    | nil => rw [layered]; rfl
    | cons x rest => exact absurd (h x List.mem_cons_self) List.not_mem_nil
  | case2 p below first rest before op next behind hsplit ihl ihr =>
    obtain ⟨hrest, hop, hbehind⟩ := splitLast_eq_some.1 hsplit
    rw [layered_of_split hsplit]
    subst hrest
    have hl := ihl fun x hx => h x (List.mem_append_left _ hx)
    have hr := ihr fun x hx => (List.mem_cons.1 (h x (List.mem_append_right _
      (List.mem_cons_of_mem _ hx)))).resolve_left (hbehind x hx)
    rw [Tree.inorder, hl, hr]
    simp [inline]
  | case3 p below first rest hnone ih =>
    have hne := splitLast_eq_none.1 hnone
    rw [layered_of_ne hne]
    exact ih fun x hx => (List.mem_cons.1 (h x hx)).resolve_left (hne x hx)

/-- The layers of consecutive priorities make up the tree of a group. -/
theorem grouped_layered {layers : List Nat} {p : Nat} {first : α} {rest : List (ω × α)}
    (hlayers : layers = List.range' p layers.length) (h : ∀ x ∈ rest, priority x.1 ∈ layers) :
    Grouped priority node p first rest ((layered priority layers first rest).eval node) := by
  induction layers, first, rest using layered.induct priority generalizing p with
  | case1 first rest =>
    cases rest with
    | nil => rw [layered]; exact .single p first
    | cons x rest => exact absurd (h x List.mem_cons_self) List.not_mem_nil
  | case2 q below first rest before op next behind hsplit ihl ihr =>
    obtain ⟨rfl, hbelow⟩ := List.cons.inj hlayers
    obtain ⟨rfl, rfl, hbehind⟩ := splitLast_eq_some.1 hsplit
    rw [layered_of_split hsplit]
    refine .op (ihl hlayers fun x hx => h x (List.mem_append_left _ hx)) ?_
    refine ihr hbelow fun x hx => ?_
    have hmem := h x (List.mem_append_right _ (List.mem_cons_of_mem _ hx))
    exact (List.mem_cons.1 hmem).resolve_left (hbehind x hx)
  | case3 q below first rest hnone ih =>
    obtain ⟨rfl, hbelow⟩ := List.cons.inj hlayers
    have hne := splitLast_eq_none.1 hnone
    rw [layered_of_ne hne]
    exact .higher (ih hbelow fun x hx => (List.mem_cons.1 (h x hx)).resolve_left (hne x hx))

/-- An operator that is alone in the first layer splits the chain wherever it stands. -/
theorem layered_of_alone {p : Nat} {below : List Nat} {before behind : List (ω × α)} {op : ω}
    (hop : priority op = p) (hbefore : ∀ y ∈ before, priority y.1 ≠ p)
    (hbehind : ∀ y ∈ behind, priority y.1 ≠ p) (first next : α) :
    layered priority (p :: below) first (before ++ (op, next) :: behind) =
      .node (layered priority below first before) op (layered priority below next behind) := by
  rw [layered_of_split (splitLast_eq_some.2 ⟨rfl, hop, hbehind⟩), layered_of_ne hbefore]

/-- A comparison that is the only one of its chain has the sums before and behind it as operands. -/
theorem layered_comparison {first next : α} {op : ω} {before behind : List (ω × α)}
    (hop : priority op = 1)
    (hone : ((before ++ (op, next) :: behind).map Prod.fst).countP (priority · = 1) ≤ 1) :
    layered priority [1, 2, 3] first (before ++ (op, next) :: behind) =
      .node (layered priority [2, 3] first before) op (layered priority [2, 3] next behind) := by
  rw [List.map_append, List.map_cons, List.countP_append,
    List.countP_cons_of_pos (by simpa using hop)]
    at hone
  have hbefore : (before.map Prod.fst).countP (priority · = 1) = 0 := by omega
  have hbehind : (behind.map Prod.fst).countP (priority · = 1) = 0 := by omega
  rw [List.countP_eq_zero] at hbefore hbehind
  refine layered_of_alone hop (fun y hy => ?_) (fun y hy => ?_) first next
  · simpa using hbefore y.1 (List.mem_map_of_mem hy)
  · simpa using hbehind y.1 (List.mem_map_of_mem hy)

end Layered

theorem inline_cons (first : α) (x : ω × α) (rest : List (ω × α)) :
    inline first (x :: rest) = .inl first :: .inr x.1 :: inline x.2 rest := rfl

theorem filterMap_inline (first : α) (rest : List (ω × α)) :
    (inline first rest).filterMap Sum.getLeft? = first :: rest.map Prod.snd := by
  induction rest generalizing first with
  | nil => rfl
  | cons x rest ih =>
    rw [inline_cons, List.filterMap_cons, List.filterMap_cons]
    exact congrArg _ (ih x.2)

namespace Tree

theorem terms_eq_inorder (t : Tree α ω) : t.terms = t.inorder.filterMap Sum.getLeft? := by
  induction t with
  | term t => rfl
  | node l op r ihl ihr =>
    rw [terms, inorder, List.filterMap_append, List.filterMap_cons_none rfl, ihl, ihr]

end Tree

/-! ### Expressions -/

section Expressions

variable (operator : ω → BinOp)

/-- An operator between two expressions, as a chain of `ω` gives it. -/
def joining (left : Expr) (op : ω) (right : Expr) : Expr := left.joined (operator op) right

/-- The expression of a tree stands where its first term does. -/
theorem loc_eval (t : Tree Expr ω) : (t.eval (joining operator)).loc = t.leftmost.loc := by
  induction t with
  | term t => rfl
  | node l op r ihl ihr => exact ihl

/-- Folding a chain of expressions in place ends inside the slice with the tree of the layers:
comparisons, of which there is at most one, then sums, then products. So does `build`. The tree has
the terms and operators of the chain in their order, and each binary expression in it stands where
its first term does. -/
theorem buildSlice_layered (priority : ω → Nat) (ops : List ω) (first : Expr) (others : List Expr)
    (hlen : others.length = ops.length) (hpriority : ∀ op ∈ ops, priority op ∈ [1, 2, 3])
    (hone : ops.countP (priority · = 1) ≤ 1) :
    ∃ tree : Tree Expr ω, tree = layered priority [1, 2, 3] first (ops.zip others) ∧
      (∃ after, (buildSlice priority (joining operator) ops).Ends (first :: others)
        (tree.eval (joining operator)) after) ∧
      build priority (joining operator) first (ops.zip others) = tree.eval (joining operator) ∧
      (∀ before op next behind, ops.zip others = before ++ (op, next) :: behind → priority op = 1 →
        tree = .node (layered priority [2, 3] first before) op
          (layered priority [2, 3] next behind)) ∧
      tree.inorder = inline first (ops.zip others) ∧ tree.terms = first :: others ∧
      ∀ l op r, .node l op r ∈ tree.subtrees →
        (Tree.node l op r).eval (joining operator) =
          .binary ⟨l.leftmost.loc, none⟩ (l.eval (joining operator)) (operator op)
            (r.eval (joining operator)) := by
  have hops : (ops.zip others).map Prod.fst = ops := List.map_fst_zip (Nat.le_of_eq hlen.symm)
  have hothers : (ops.zip others).map Prod.snd = others := List.map_snd_zip (Nat.le_of_eq hlen)
  have hlayers : ∀ x ∈ ops.zip others, priority x.1 ∈ [1, 2, 3] := fun x hx =>
    hpriority x.1 (hops ▸ List.mem_map_of_mem hx)
  have hgrouped : Grouped priority (joining operator) 1 first (ops.zip others)
      ((layered priority [1, 2, 3] first (ops.zip others)).eval (joining operator)) :=
    grouped_layered rfl hlayers
  have hbuild := hgrouped.higher.build_eq
  have hinorder : (layered priority [1, 2, 3] first (ops.zip others)).inorder =
      inline first (ops.zip others) := inorder_layered hlayers
  refine ⟨_, rfl, ?_, hbuild, ?_, hinorder, ?_, ?_⟩
  · rw [← hbuild]
    exact buildSlice_ends hlen
  · intro before op next behind hsplit hop
    rw [hsplit] at hops ⊢
    exact layered_comparison hop (hops.symm ▸ hone)
  · rw [Tree.terms_eq_inorder, hinorder, filterMap_inline, hothers]
  · intro l op r _
    rw [← loc_eval operator l]
    rfl

/-- `1 + 2 * 3 < 4`: of the three foldings, the second writes over the first. -/
theorem buildSlice_sum_less :
    let literal (k : Nat) : Expr := .lit ⟨⟨⟨1, k⟩, none⟩, .int k⟩
    ∃ after, (buildSlice BinOp.priority (joining id) [.add, .mul, .lt]).Ends
      [literal 1, literal 2, literal 3, literal 4]
      (((literal 1).joined .add ((literal 2).joined .mul (literal 3))).joined .lt (literal 4))
      after := by
  intro literal
  obtain ⟨tree, htree, hrun, -⟩ := buildSlice_layered id BinOp.priority [.add, .mul, .lt]
    (literal 1) [literal 2, literal 3, literal 4] rfl (by decide) (by decide)
  have hsum : tree = .node (.node (.term (literal 1)) .add (.node (.term (literal 2)) .mul
      (.term (literal 3)))) .lt (.term (literal 4)) := by
    rw [htree]
    simp [layered, splitLast, BinOp.priority]
  rwa [hsum] at hrun

end Expressions

end ChocoRv.Precedence
