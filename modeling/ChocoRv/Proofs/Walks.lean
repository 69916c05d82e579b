import ChocoRv.Proofs.Inheritance
import Mathlib.Data.List.Perm.Subperm

/-!
# Walks without a bound

The walks along superclasses are bounded by the number of classes. Here they are loops with no bound
and no guard against cycles: `none` is the result of a loop that never ends. Where every class has a
line to a root, all of them end, with the results of the bounded walks.
-/

namespace ChocoRv

namespace Hierarchy

/-- Whether `parent` stands above `name`, asked of one superclass after the other. -/
def climb? (h : Hierarchy) (parent name : Name) : Option Bool :=
  match h.super? name with
  | some (some super) =>
    if super = parent then some true else h |>.climb? parent super
  | _ => some false
partial_fixpoint

/-- The class and those above it, collected one after the other. -/
def chain? (h : Hierarchy) (name : Name) : Option (List Name) :=
  match h.super? name with
  | some (some super) => do return name :: (← h |>.chain? super)
  | _ => some [name]
partial_fixpoint

/-- The chain of a known class, root first. -/
def classChain? (h : Hierarchy) (name : Name) : Option (Option (List Name)) :=
  if h.knows name then do return some (← h.chain? name).reverse else some none

def isAncestor? (h : Hierarchy) (parent child : Ty) : Option Bool :=
  if parent == child || (parent == .object && child.isPermissive) then some true
  else match parent.name?, child.name? with
    | some p, some c => h.climb? p c
    | _, _ => some false

def isCompatible? (h : Hierarchy) : Ty → Ty → Option Bool
  | .list elem, value => do
    if ← h.isAncestor? (.list elem) value then return true
    match value with
    | .noneType => return true
    | .emptyList => return !elem.isList
    | .list v => if v == .noneType then h.isCompatible? elem .noneType else return false
    | .cls _ => return false
  | target, value => do
    if ← h.isAncestor? target value then return true
    return !target.isSpecial && value == .noneType

/-- The type of the two that accepts the other. -/
def byAssignment? (h : Hierarchy) (a b : Ty) : Option Ty := do
  if ← h.isCompatible? a b then return a
  if ← h.isCompatible? b a then return b
  return .object

def commonAncestor? (h : Hierarchy) (a b : Ty) : Option Ty :=
  if a = b then some a
  else match a.name?, b.name? with
    | some c, some d => do
      let cs? ← h.classChain? c
      let ds? ← h.classChain? d
      match cs?, ds? with
      | some cs, some ds => return .ofName (lastShared (txt "object") cs ds)
      | _, _ => h.byAssignment? a b
    | _, _ => h.byAssignment? a b

/-! ### Lines -/

variable {h h' : Hierarchy} {x y : Name} {ks : List Name}

/-- A line stays when classes are added. -/
theorem Line.mono (hsuper : ∀ x s, h.super? x = some s → h'.super? x = some s) (hl : h.Line x ks) :
    h'.Line x ks := by
  induction hl with
  | root hx => exact .root (hsuper _ _ hx)
  | step hx _ ih => exact .step (hsuper _ _ hx) ih

theorem Line.head (hl : h.Line x ks) : ∃ above, ks = x :: above := by
  cases hl with
  | root _ => exact ⟨[], rfl⟩
  | step _ _ => exact ⟨_, rfl⟩

/-- The line of a class above is the rest of the line from there. -/
theorem Line.of_mem {k : Name} (hl : h.Line x ks) (hk : k ∈ ks) :
    ∃ below above, ks = below ++ above ∧ h.Line k above := by
  induction hl with
  | root hx =>
    rw [List.mem_singleton.1 hk]
    exact ⟨[], _, rfl, .root hx⟩
  | @step x y ks hx hy ih =>
    rcases List.mem_cons.1 hk with rfl | hk
    · exact ⟨[], _, rfl, .step hx hy⟩
    · obtain ⟨below, above, rfl, hline⟩ := ih hk
      exact ⟨x :: below, above, rfl, hline⟩

/-- A line that ends repeats no class: the second time it would go on as it did the first. -/
theorem Line.nodup (hl : h.Line x ks) : ks.Nodup := by
  induction hl with
  | root _ => exact List.nodup_singleton _
  | @step x y ks hx hy ih =>
    refine List.nodup_cons.2 ⟨fun hmem => ?_, ih⟩
    obtain ⟨below, above, rfl, hline⟩ := hy.of_mem hmem
    have hlen := congrArg List.length (hline.unique (.step hx hy))
    rw [List.length_cons, List.length_append] at hlen
    omega

/-- A line ends at a class without superclass. -/
theorem Line.last (hl : h.Line x ks) : ∃ root, ks.getLast? = some root ∧ h.super? root = some none := by
  induction hl with
  | root hx => exact ⟨_, rfl, hx⟩
  | @step x y ks hx hy ih =>
    obtain ⟨root, hlast, hroot⟩ := ih
    exact ⟨root, by rw [List.getLast?_cons, hlast]; rfl, hroot⟩

theorem mem_classes_of_knows (hx : h.knows x = true) : x ∈ h.classes.map Prod.fst := by
  rw [knows, super?] at hx
  exact Bindings.declares_iff.1 hx

/-- A line is no longer than the hierarchy has classes. -/
theorem Line.length_le (hl : h.Line x ks) : ks.length ≤ h.classes.length := by
  have hsubset : ks ⊆ h.classes.map Prod.fst := fun k hk =>
    mem_classes_of_knows (hl.knows_of_mem hk)
  simpa using (List.subperm_of_subset hl.nodup hsubset).length_le

theorem Line.lineage (hl : h.Line x ks) (hx : x ≠ []) : h.lineage x = ks :=
  hl.lineage_eq (Nat.le_succ_of_le hl.length_le) hx

theorem Line.ancestors (hl : h.Line x ks) : h.ancestors x = ks.tail := by
  rw [Hierarchy.ancestors, hl.ascend, List.take_of_length_le (Nat.le_succ_of_le hl.length_le)]

/-! ### The walks end -/

theorem Line.climb? (hl : h.Line x ks) (parent : Name) :
    h.climb? parent x = some (ks.tail.contains parent) := by
  induction hl with
  | root hx => rw [Hierarchy.climb?, hx]; rfl
  | @step x y ks hx hy ih =>
    obtain ⟨above, rfl⟩ := hy.head
    rw [Hierarchy.climb?, hx]
    by_cases hp : y = parent
    · simp [hp]
    · simp only [if_neg hp, ih, List.tail_cons, List.contains_cons,
        beq_eq_false_iff_ne.2 (Ne.symm hp), Bool.false_or]

theorem Line.chain? (hl : h.Line x ks) : h.chain? x = some ks := by
  induction hl with
  | root hx => rw [Hierarchy.chain?, hx]
  | step hx _ ih =>
    rw [Hierarchy.chain?, hx]
    simp only [ih]
    rfl

/-- Every class has a name and a line to a root. -/
structure Rooted (h : Hierarchy) : Prop where
  ne_nil : ∀ x, h.knows x = true → x ≠ []
  line : ∀ x, h.knows x = true → ∃ ks, h.Line x ks

namespace Rooted

/-- The lineage of a class is its line. -/
theorem lineage (hr : h.Rooted) (hx : h.knows x = true) : h.Line x (h.lineage x) := by
  obtain ⟨ks, hks⟩ := hr.line x hx
  rwa [hks.lineage (hr.ne_nil x hx)]

theorem climb?_eq (hr : h.Rooted) (parent name : Name) :
    h.climb? parent name = some ((h.ancestors name).contains parent) := by
  cases hx : h.super? name with
  | none =>
    rw [Hierarchy.climb?, ancestors, ascend]
    simp only [hx]
    rfl
  | some super =>
    obtain ⟨ks, hks⟩ := hr.line name (by rw [knows, hx]; rfl)
    rw [hks.climb?, hks.ancestors]

theorem classChain?_eq (hr : h.Rooted) (x : Name) :
    h.classChain? x = some (if h.knows x then some (h.lineage x).reverse else none) := by
  rw [classChain?]
  split
  · next hx =>
    rw [(hr.lineage hx).chain?]
    rfl
  · rfl

theorem isAncestor?_eq (hr : h.Rooted) (parent child : Ty) :
    h.isAncestor? parent child = some (h.isAncestor parent child) := by
  rw [isAncestor?, isAncestor]
  split
  · next hcond => simp [hcond]
  · next hcond =>
    rw [Bool.not_eq_true] at hcond
    rw [hcond, Bool.false_or]
    cases parent.name? with
    | none => rfl
    | some p =>
      cases child.name? with
      | none => rfl
      | some c => exact hr.climb?_eq p c

theorem isCompatible?_eq (hr : h.Rooted) (target value : Ty) :
    h.isCompatible? target value = some (h.isCompatible target value) := by
  induction target generalizing value with
  | list elem ih =>
    cases hanc : h.isAncestor (.list elem) value with
    | true => simp [isCompatible?, isCompatible, hr.isAncestor?_eq, hanc]
    | false =>
      cases value with
      | list v =>
        cases hv : v == Ty.noneType <;>
          simp [isCompatible?, isCompatible, hr.isAncestor?_eq, hanc, hv, ih]
      | _ => simp [isCompatible?, isCompatible, hr.isAncestor?_eq, hanc, Ty.isSpecial, Ty.int, Ty.str,
          Ty.bool]
  | _ =>
    simp only [isCompatible?, isCompatible, hr.isAncestor?_eq, Option.pure_def, Option.bind_eq_bind,
      Option.bind_some, Bool.or_false]
    split <;> simp_all

theorem byAssignment?_eq (hr : h.Rooted) (a b : Ty) : h.byAssignment? a b =
    some (if h.isCompatible a b then a else if h.isCompatible b a then b else .object) := by
  simp only [byAssignment?, hr.isCompatible?_eq, Option.bind_eq_bind, Option.bind_some]
  split
  · rfl
  · split <;> rfl

theorem commonAncestor?_eq (hr : h.Rooted) (a b : Ty) :
    h.commonAncestor? a b = some (h.commonAncestor a b) := by
  rw [commonAncestor?, commonAncestor]
  split
  · rfl
  · cases a.name? with
    | none => exact hr.byAssignment?_eq a b
    | some c =>
      cases b.name? with
      | none => exact hr.byAssignment?_eq a b
      | some d =>
        simp only [hr.classChain?_eq, Option.bind_eq_bind, Option.bind_some]
        cases hc : h.knows c with
        | false => exact hr.byAssignment?_eq a b
        | true =>
          cases hd : h.knows d with
          | false => exact hr.byAssignment?_eq a b
          | true => rfl

end Rooted

/-! ### The order of the classes -/

theorem isAncestor_refl (h : Hierarchy) (a : Ty) : h.isAncestor a a = true := by
  simp [isAncestor]

namespace Rooted

variable {z : Name}

theorem isAncestor_iff (hr : h.Rooted) (hx : h.knows x = true) :
    h.isAncestor (.cls y) (.cls x) = true ↔ y ∈ h.lineage x :=
  isAncestor_cls (hr.ne_nil x hx)

theorem isAncestor_trans (hr : h.Rooted) (hx : h.knows x = true)
    (hxy : h.isAncestor (.cls y) (.cls x) = true) (hyz : h.isAncestor (.cls z) (.cls y) = true) :
    h.isAncestor (.cls z) (.cls x) = true := by
  rw [hr.isAncestor_iff hx] at hxy ⊢
  obtain ⟨below, above, hsplit, hline⟩ := (hr.lineage hx).of_mem hxy
  rw [hr.isAncestor_iff hline.knows, hline.lineage (hr.ne_nil y hline.knows)] at hyz
  rw [hsplit]
  exact List.mem_append_right _ hyz

/-- Two classes above each other have lines of the same length, so neither is strictly above. -/
theorem isAncestor_antisymm (hr : h.Rooted) (hx : h.knows x = true) (hy : h.knows y = true)
    (hxy : h.isAncestor (.cls y) (.cls x) = true) (hyx : h.isAncestor (.cls x) (.cls y) = true) :
    x = y := by
  rw [hr.isAncestor_iff hx] at hxy
  rw [hr.isAncestor_iff hy] at hyx
  obtain ⟨below, above, hsplit, hline⟩ := (hr.lineage hx).of_mem hxy
  obtain ⟨below', above', hsplit', hline'⟩ := (hr.lineage hy).of_mem hyx
  obtain rfl := hline.unique (hr.lineage hy)
  obtain rfl := hline'.unique (hr.lineage hx)
  have hlen := congrArg List.length hsplit
  have hlen' := congrArg List.length hsplit'
  rw [List.length_append] at hlen hlen'
  have hnil : below = [] := List.length_eq_zero_iff.1 (by omega)
  rw [hnil, List.nil_append] at hsplit
  obtain ⟨above, hcons⟩ := (hr.lineage hx).head
  obtain ⟨above', hcons'⟩ := (hr.lineage hy).head
  exact (List.cons.inj (hcons.symm.trans (hsplit.trans hcons'))).1

end Rooted

end Hierarchy

end ChocoRv
