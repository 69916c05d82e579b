import ChocoRv.Proofs.Grammar
import ChocoRv.Proofs.Grouping

/-!
# Chains of terms

The parser reads a comparison as one flat chain of terms and operators and groups it afterwards;
the grammar has one layer for each priority. Here the two views are related: a group of a chain is
a sum or product of the grammar, and the layers of the grammar are groups.
-/

namespace ChocoRv

open Precedence (Grouped)

/-! ### Operators -/

/-- The operator of a token is in one of the tables, which gives its priority. -/
theorem mem_ops_of_ofKind? {k : Token.Kind} {op : BinOp} (h : BinOp.ofKind? k = some op) :
    ((k, op) ∈ comparisonOps ∧ op.priority = 1) ∨ ((k, op) ∈ sumOps ∧ op.priority = 2) ∨
      ((k, op) ∈ productOps ∧ op.priority = 3) := by
  unfold BinOp.ofKind? at h
  split at h <;> cases h <;> decide

theorem ofKind?_of_mem_comparisonOps : ∀ x ∈ comparisonOps,
    BinOp.ofKind? x.1 = some x.2 ∧ x.2.priority = 1 := by decide

theorem ofKind?_of_mem_sumOps : ∀ x ∈ sumOps,
    BinOp.ofKind? x.1 = some x.2 ∧ x.2.priority = 2 := by decide

theorem ofKind?_of_mem_productOps : ∀ x ∈ productOps,
    BinOp.ofKind? x.1 = some x.2 ∧ x.2.priority = 3 := by decide

theorem BinOp.priority_le (op : BinOp) : op.priority ≤ 3 := by cases op <;> decide

theorem BinOp.isComparison_iff {op : BinOp} : op.isComparison = true ↔ op.priority = 1 :=
  beq_iff_eq

/-! ### Terms -/

/-- The tokens of the operators and terms after the first term of a chain, where `U` relates a
term to its tokens. -/
inductive Terms (U : Expr → List Token → Prop) : List (BinOp × Expr) → List Token → Prop
  | nil : Terms U [] []
  | cons {k : Token.Kind} {op : BinOp} {e : Expr} {xs : List (BinOp × Expr)} {w w' : List Token}
      (p : Loc) (hop : BinOp.ofKind? k = some op) (he : U e w) (rest : Terms U xs w') :
      Terms U ((op, e) :: xs) (⟨k, p⟩ :: (w ++ w'))

namespace Terms

variable {U : Expr → List Token → Prop} {xs ys : List (BinOp × Expr)} {w w' : List Token}

theorem append (hxs : Terms U xs w) (hys : Terms U ys w') : Terms U (xs ++ ys) (w ++ w') := by
  induction hxs with
  | nil => exact hys
  | cons p hop he _ ih =>
    rw [List.cons_append, List.cons_append, List.append_assoc]
    exact .cons p hop he ih

theorem split (h : Terms U (xs ++ ys) w) :
    ∃ w₁ w₂, w = w₁ ++ w₂ ∧ Terms U xs w₁ ∧ Terms U ys w₂ := by
  induction xs generalizing w with
  | nil => exact ⟨[], w, rfl, .nil, h⟩
  | cons x xs ih =>
    cases h with
    | @cons k op e _ w w' p hop he hrest =>
      obtain ⟨w₁, w₂, rfl, h₁, h₂⟩ := ih hrest
      exact ⟨⟨k, p⟩ :: (w ++ w₁), w₂, by simp, .cons p hop he h₁, h₂⟩

theorem length_le (h : Terms U xs w) : xs.length ≤ w.length := by
  induction h with
  | nil => simp
  | cons p hop he _ ih =>
    rw [List.length_cons, List.length_cons, List.length_append]
    omega

theorem priority_pos (h : Terms U xs w) : ∀ x ∈ xs, x.1.priority ≠ 0 := by
  induction h with
  | nil => simp
  | cons p hop he _ ih =>
    refine List.forall_mem_cons.2 ⟨?_, ih⟩
    rcases mem_ops_of_ofKind? hop with ⟨-, h⟩ | ⟨-, h⟩ | ⟨-, h⟩ <;> simp [h]

end Terms

/-! ### Groups in the grammar -/

open ExprPhrase

/-- The category of a group. -/
def groupPhrase : Nat → Expr → ExprPhrase
  | 2 => sum
  | 3 => product
  | _ => negation

theorem group_derives {p : Nat} (hp : 2 ≤ p) {first e : Expr} {rest : List (BinOp × Expr)}
    (h : Grouped BinOp.priority Expr.joined p first rest e) : ∀ {w w' : List Token},
    (negation first).Derives w → Terms (fun e => (negation e).Derives) rest w' →
    (groupPhrase p e).Derives (w ++ w') := by
  induction h with
  | single p first =>
    intro w w' hfirst hrest
    cases hrest
    rw [List.append_nil]
    match p, hp with
    | 2, _ => exact .sum (.product hfirst)
    | 3, _ => exact .product hfirst
    | p + 4, _ => exact hfirst
  | @higher p first e rest h ih =>
    intro w w' hfirst hrest
    have hhigher := ih (Nat.le_succ_of_le hp) hfirst hrest
    match p, hp with
    | 2, _ => exact .sum hhigher
    | 3, _ => exact .product hhigher
    | p + 4, _ => exact hhigher
  | @op first term l r op rest rest' hl hr ihl ihr =>
    intro w w' hfirst hterms
    obtain ⟨w₁, w₂, rfl, hrest, hterms⟩ := hterms.split
    cases hterms with
    | @cons k _ _ _ v v' q hop hterm hrest' =>
      have hleft := ihl hp hfirst hrest
      have hright := ihr (Nat.le_succ_of_le hp) hterm hrest'
      rw [← List.append_assoc]
      rcases mem_ops_of_ofKind? hop with ⟨-, h₁⟩ | ⟨hmem, h₂⟩ | ⟨hmem, h₃⟩
      · omega
      · rw [h₂] at hleft hright ⊢
        exact .add q hmem hleft hright
      · rw [h₃] at hleft hright ⊢
        exact .mul q hmem hleft hright

/-- A chain with one comparison at most is a comparison of the grammar. -/
theorem comparison_derives {first e : Expr} {rest : List (BinOp × Expr)} {w w' : List Token}
    (h : Grouped BinOp.priority Expr.joined 0 first rest e) (hfirst : (negation first).Derives w)
    (hrest : Terms (fun e => (negation e).Derives) rest w')
    (hone : rest.countP (·.1.isComparison) ≤ 1) : (comparison e).Derives (w ++ w') := by
  have h := h.raise hrest.priority_pos
  generalize hp : 0 + 1 = p at h
  cases h with
  | single => exact .comparison (group_derives (Nat.le_refl 2) (.single 2 first) hfirst hrest)
  | higher h => subst hp; exact .comparison (group_derives (Nat.le_refl 2) h hfirst hrest)
  | @op _ term l r op rest rest' hl hr =>
    obtain ⟨w₁, w₂, rfl, hbefore, hterms⟩ := hrest.split
    cases hterms with
    | @cons k _ _ _ v v' q hop hterm hafter =>
      have hop' : op.isComparison = true := BinOp.isComparison_iff.2 hp.symm
      -- the operands hold no other comparison
      rw [List.countP_append, List.countP_cons_of_pos (by exact hop')] at hone
      have hnone : ∀ x ∈ rest, x.1.priority ≠ op.priority := by
        intro x hx heq
        have hx' := List.countP_eq_zero.1 (show rest.countP (·.1.isComparison) = 0 by omega) x hx
        exact hx' (BinOp.isComparison_iff.2 (heq.trans hp.symm))
      have hl := hl.raise hnone
      rw [← hp] at hl hr
      have hleft := group_derives (Nat.le_refl 2) hl hfirst hbefore
      have hright := group_derives (Nat.le_refl 2) hr hterm hafter
      rcases mem_ops_of_ofKind? hop with ⟨hmem, -⟩ | ⟨-, h₂⟩ | ⟨-, h₃⟩
      · rw [← List.append_assoc]
        exact .compare q hmem hleft hright
      · omega
      · omega

/-! ### Layers of the grammar as chains -/

/-- A group of priority `p` or more with its tokens. -/
def Chain (U : Expr → List Token → Prop) (p : Nat) (e : Expr) (w : List Token) : Prop :=
  ∃ first rest w₁ w₂, w = w₁ ++ w₂ ∧ U first w₁ ∧ Terms U rest w₂ ∧
    Grouped BinOp.priority Expr.joined p first rest e

namespace Chain

variable {U : Expr → List Token → Prop} {e l r : Expr} {w w' : List Token} {p : Nat}

theorem single (h : U e w) : Chain U p e w :=
  ⟨e, [], w, [], (List.append_nil w).symm, h, .nil, .single p e⟩

theorem higher (h : Chain U (p + 1) e w) : Chain U p e w := by
  obtain ⟨first, rest, w₁, w₂, hw, hfirst, hrest, hgroup⟩ := h
  exact ⟨first, rest, w₁, w₂, hw, hfirst, hrest, .higher hgroup⟩

theorem op {k : Token.Kind} {op : BinOp} (q : Loc) (hop : BinOp.ofKind? k = some op)
    (hp : op.priority = p) (hl : Chain U p l w) (hr : Chain U (p + 1) r w') :
    Chain U p (l.joined op r) (w ++ ⟨k, q⟩ :: w') := by
  subst hp
  obtain ⟨first, rest, w₁, w₂, rfl, hfirst, hrest, hgroup⟩ := hl
  obtain ⟨term, rest', w₃, w₄, rfl, hterm, hrest', hgroup'⟩ := hr
  refine ⟨first, _, w₁, w₂ ++ ⟨k, q⟩ :: (w₃ ++ w₄), by simp, hfirst, ?_, .op hgroup hgroup'⟩
  exact hrest.append (.cons q hop hterm hrest')

end Chain

/-- There is no comparison in a sum. -/
theorem countP_isComparison {first e : Expr} {rest : List (BinOp × Expr)}
    (h : Grouped BinOp.priority Expr.joined 2 first rest e) :
    rest.countP (·.1.isComparison) = 0 := by
  refine List.countP_eq_zero.2 fun x hx hcmp => ?_
  have hle := h.le_priority x hx
  rw [BinOp.isComparison_iff.1 hcmp] at hle
  omega

/-- Two sums and a comparison make up a chain with one comparison. -/
theorem compare_groups {U : Expr → List Token → Prop} {l r : Expr} {w w' : List Token}
    {k : Token.Kind} {op : BinOp} (q : Loc) (hop : BinOp.ofKind? k = some op)
    (hp : op.priority = 1) (hl : Chain U 2 l w) (hr : Chain U 2 r w') :
    ∃ first rest w₁ w₂, w ++ ⟨k, q⟩ :: w' = w₁ ++ w₂ ∧ U first w₁ ∧ Terms U rest w₂ ∧
      Grouped BinOp.priority Expr.joined 0 first rest (l.joined op r) ∧
      rest.countP (·.1.isComparison) ≤ 1 := by
  obtain ⟨first, rest, w₁, w₂, rfl, hfirst, hrest, hgroup⟩ := hl
  obtain ⟨term, rest', w₃, w₄, rfl, hterm, hrest', hgroup'⟩ := hr
  have hjoined : Grouped BinOp.priority Expr.joined op.priority first
      (rest ++ (op, term) :: rest') (l.joined op r) := by
    refine .op ?_ ?_
    · rw [hp]
      exact .higher hgroup
    · rw [hp]
      exact hgroup'
  rw [hp] at hjoined
  refine ⟨first, _, w₁, w₂ ++ ⟨k, q⟩ :: (w₃ ++ w₄), by simp, hfirst,
    hrest.append (.cons q hop hterm hrest'), .higher hjoined, ?_⟩
  rw [List.countP_append, List.countP_cons, countP_isComparison hgroup,
    countP_isComparison hgroup']
  split <;> omega

end ChocoRv
