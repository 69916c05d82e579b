import ChocoRv.Proofs.ClassTree
import ChocoRv.Proofs.Labels

/-!
# Assignability

What may be assigned to what, as a relation with one rule for each way to assign. It is an order but
for one gap: `<Empty>` fits into `[<None>]` and `[<None>]` into a list of lists, yet `<Empty>` does not
fit into a list of lists. Of two types that a type other than `object` accepts, one accepts the other
unless both are classes.
-/

namespace ChocoRv

open Hierarchy

/-! ### The names of the classes -/

/-- The classes that the scope binds have names of their own, so none is named like the type of `None`
or of the empty list. -/
def Scope.ValidClasses (g : Scope) : Prop := ∀ x c, (x, Entry.cls c) ∈ g.entries → ValidName x

theorem Bindings.mem_add {α : Type} {t : Bindings α} {x : Name} {a : α} {b : Name × α}
    (h : b ∈ t.add x a) : b ∈ t ∨ b = (x, a) := by
  cases hx : t.declares x with
  | true =>
    rw [add_of_declares a hx] at h
    exact .inl h
  | false =>
    rw [add_of_new a hx] at h
    simpa using h

namespace Scope.ValidClasses

variable {g : Scope} {x : Name} {e : Entry}

theorem bind (h : g.ValidClasses) (he : ∀ c, e = .cls c → ValidName x) :
    (g.bind x e).ValidClasses := by
  intro y c hy
  rcases Bindings.mem_add hy with hy | heq
  · exact h y c hy
  · obtain ⟨rfl, hc⟩ := Prod.mk.inj heq
    exact he c hc.symm

theorem validName (h : g.ValidClasses) (hx : g.hierarchy.knows x = true) : ValidName x := by
  obtain ⟨⟨y, s⟩, hmem, rfl⟩ := List.mem_map.1 (mem_classes_of_knows hx)
  obtain ⟨⟨z, e⟩, he, heq⟩ := List.mem_filterMap.1 hmem
  cases e with
  | cls c => cases heq; exact h _ c he
  | value t => cases heq
  | func f => cases heq

end Scope.ValidClasses

theorem Scope.validClasses_builtins : builtins.ValidClasses := by
  have hnames : ∀ b ∈ builtins.entries, ∀ c ∈ b.2.class?, b.1 ∈ txt "object" :: specialClasses := by
    decide
  have hvalid : ∀ x ∈ txt "object" :: specialClasses, ValidName x := by
    simp only [specialClasses, List.forall_mem_cons, List.not_mem_nil, false_imp_iff, implies_true,
      and_true]
    refine ⟨⟨⟨_, _, rfl, ?_, ?_⟩, ?_⟩, ⟨⟨_, _, rfl, ?_, ?_⟩, ?_⟩, ⟨⟨_, _, rfl, ?_, ?_⟩, ?_⟩,
      ⟨⟨_, _, rfl, ?_, ?_⟩, ?_⟩⟩
    all_goals decide +kernel
  exact fun x c hx => hvalid x (hnames _ hx c rfl)

namespace Declarations

open Scope

variable {g g' : Scope}

theorem newClass?_validClasses {c : ClassDef} (hc : ValidName c.name) (hg : g.ValidClasses)
    (h : (newClass? g c).value = some g') : g'.ValidClasses := by
  rw [newClass?, Reporting.value_bind] at h
  cases hsuper : (superClass? g c.super).value with
  | none =>
    rw [hsuper] at h
    cases h
  | some super =>
    simp only [hsuper, Reporting.value_bind, isNew_value] at h
    cases hnew : g.entries.declares c.ident.name with
    | true =>
      rw [hnew] at h
      cases h
    | false =>
      rw [hnew] at h
      cases h
      exact hg.bind fun _ _ => hc

theorem classes_validClasses : ∀ {cs : List ClassDef} {g : Scope}, (∀ c ∈ cs, ValidName c.name) →
    g.ValidClasses → (classes g cs).value.1.ValidClasses
  | [], _, _, hg => hg
  | c :: cs, g, h, hg => by
    obtain ⟨hc, hcs⟩ := List.forall_mem_cons.1 h
    rw [classes, Reporting.value_bind]
    cases hnew : (newClass? g c).value with
    | none => exact classes_validClasses hcs hg
    | some g' => exact classes_validClasses hcs (newClass?_validClasses hc hg hnew)

theorem globalVars_validClasses : ∀ (ds : List VarDef) {g : Scope}, g.ValidClasses →
    (globalVars g ds).value.ValidClasses
  | [], _, hg => hg
  | d :: ds, g, hg => by
    rw [globalVars, Reporting.value_bind]
    cases (resolve g.entries d.var.typeExpr).value with
    | none => exact globalVars_validClasses ds hg
    | some t =>
      simp only [Reporting.value_bind, isNew_value]
      cases g.entries.declares d.var.name.name with
      | true => exact globalVars_validClasses ds hg
      | false => exact globalVars_validClasses ds (hg.bind (by simp))

theorem classBodies_validClasses : ∀ (cs : List ClassDef) {g : Scope}, g.ValidClasses →
    (classBodies g cs).value.ValidClasses
  | [], _, hg => hg
  | _ :: cs, g, hg => classBodies_validClasses cs (g := g.setChild _ _) hg

theorem globalFuncs_validClasses : ∀ (fs : List FuncDef) {g : Scope}, g.ValidClasses →
    (globalFuncs g fs).value.ValidClasses
  | [], _, hg => hg
  | f :: fs, g, hg => by
    simp only [globalFuncs, Reporting.value_bind, isNew_value]
    cases g.entries.declares f.ident.name with
    | true => exact globalFuncs_validClasses fs hg
    | false => exact globalFuncs_validClasses fs (hg.bind (by simp))

end Declarations

open Declarations in
theorem Program.declare_validClasses {p : Program} (h : p.Valid) :
    p.declare.value.ValidClasses := by
  rw [Program.declare]
  simp only [Reporting.value_bind]
  exact globalFuncs_validClasses _ (classBodies_validClasses _ (globalVars_validClasses _
    (classes_validClasses (h.kept_classes _) Scope.validClasses_builtins)))

/-! ### Trees of classes -/

/-- The names of the pseudo types start with a byte that is in no name. -/
theorem ValidName.not_pseudo {x : Name} (h : ValidName x) : ¬ txt "<" <+: x := fun hpseudo =>
  h.notMem (b := 60) (by decide) (by decide) (hpseudo.subset (by decide))

theorem ValidName.ofName_eq {x : Name} (h : ValidName x) : Ty.ofName x = .cls x := by
  rw [Ty.ofName, if_neg (by rintro rfl; exact h.not_pseudo (by decide)),
    if_neg (by rintro rfl; exact h.not_pseudo (by decide))]

theorem Ty.isSpecial_cls {x : Name} : (Ty.cls x).isSpecial = true ↔ x ∈ specialClasses := by
  simp [Ty.isSpecial, specialClasses, Ty.int, Ty.str, Ty.bool, or_comm, or_left_comm]

theorem Ty.exists_of_isSpecial {t : Ty} (h : t.isSpecial = true) : ∃ x, t = .cls x := by
  cases t with
  | cls x => exact ⟨x, rfl⟩
  | _ => cases h

theorem Ty.name?_eq_some {t : Ty} {x : Name} (h : t.name? = some x) :
    t = .cls x ∨ txt "<" <+: x := by
  cases t with
  | cls y => exact .inl (congrArg Ty.cls (Option.some.inj h))
  | noneType => exact .inr (Option.some.inj h ▸ by decide)
  | emptyList => exact .inr (Option.some.inj h ▸ by decide)
  | list elem => cases h

namespace Hierarchy

/-- The classes have names of their own and form a tree below `object`, in which the special classes
stand right below `object` and have no subclass. -/
structure Tree (h : Hierarchy) : Prop where
  rooted : h.Rooted
  validName : ∀ x, h.knows x = true → ValidName x
  object : h.super? (txt "object") = some none
  above : ∀ x, h.knows x = true → txt "object" ∈ h.lineage x
  special : ∀ x ∈ specialClasses, h.super? x = some (some (txt "object"))
  final : ∀ x, h.knows x = true → ∀ y ∈ specialClasses, y ∈ h.lineage x → y = x

/-- A value type over the classes of the hierarchy. -/
def Known (h : Hierarchy) : Ty → Prop
  | .cls x => h.knows x = true
  | .list elem => h.Known elem
  | .noneType | .emptyList => True

def decidableKnown (h : Hierarchy) : (t : Ty) → Decidable (h.Known t)
  | .cls x => inferInstanceAs (Decidable (h.knows x = true))
  | .list elem => h.decidableKnown elem
  | .noneType | .emptyList => .isTrue trivial

instance (h : Hierarchy) : DecidablePred h.Known := h.decidableKnown

/-- A place of the first type admits a value of the second. -/
inductive Admits (h : Hierarchy) : Ty → Ty → Prop
  | refl (t : Ty) : Admits h t t
  | above {x y : Name} (hy : y ∈ h.lineage x) : Admits h (.cls y) (.cls x)
  | top {t : Ty} (ht : t.isPermissive = true) : Admits h .object t
  | none {t : Ty} (ht : t.isSpecial = false) : Admits h t .noneType
  | empty {elem : Ty} (helem : elem.isList = false) : Admits h (.list elem) .emptyList
  | nones {elem : Ty} (helem : elem.isSpecial = false) : Admits h (.list elem) (.list .noneType)

/-- The one step that assignments do not take though others lead there: an empty list into a list
of lists. -/
def Gap (target value : Ty) : Prop := value = .emptyList ∧ ∃ elem, target = .list (.list elem)

variable {h : Hierarchy} {x y z : Name} {a b c t : Ty}

/-! ### The rules of assignment -/

theorem ancestors_of_unknown (hx : h.knows x = false) : h.ancestors x = [] := by
  have hnone : h.super? x = none := by simpa [knows] using hx
  rw [ancestors, ascend, hnone]
  rfl

/-- Below a type that is no class stand itself, `[<None>]`, `<Empty>` and `<None>`. -/
theorem Admits.of_isPermissive (hadmits : h.Admits t a) (hperm : t.isPermissive = true) :
    a = t ∨ a = .list .noneType ∨ a = .emptyList ∨ a = .noneType := by
  cases hadmits with
  | refl => exact .inl rfl
  | above _ => cases hperm
  | top _ => cases hperm
  | none _ => exact .inr (.inr (.inr rfl))
  | empty _ => exact .inr (.inr (.inl rfl))
  | nones _ => exact .inr (.inl rfl)

theorem Gap.not_admits (hgap : Gap t a) : ¬ h.Admits t a := by
  obtain ⟨rfl, elem, rfl⟩ := hgap
  intro hadmits
  cases hadmits with
  | empty helem => cases helem

namespace Tree

theorem line (ht : h.Tree) (hx : h.knows x = true) : h.Line x (h.lineage x) := ht.rooted.lineage hx

theorem knows_object (ht : h.Tree) : h.knows (txt "object") = true := by
  rw [knows, ht.object]
  rfl

theorem mem_self (ht : h.Tree) (hx : h.knows x = true) : x ∈ h.lineage x := by
  obtain ⟨above, heq⟩ := (ht.line hx).head
  rw [heq]
  exact List.mem_cons_self

theorem lineage_object (ht : h.Tree) : h.lineage (txt "object") = [txt "object"] :=
  (Line.root ht.object).lineage (by decide)

theorem lineage_special (ht : h.Tree) (hx : x ∈ specialClasses) :
    h.lineage x = [x, txt "object"] :=
  (Line.step (ht.special x hx) (.root ht.object)).lineage (by rintro rfl; revert hx; decide)

theorem knows_of_mem (ht : h.Tree) (hx : h.knows x = true) (hy : y ∈ h.lineage x) :
    h.knows y = true :=
  (ht.line hx).knows_of_mem hy

theorem mem_trans (ht : h.Tree) (hx : h.knows x = true) (hy : y ∈ h.lineage x)
    (hz : z ∈ h.lineage y) : z ∈ h.lineage x :=
  (ht.rooted.isAncestor_iff hx).1 (ht.rooted.isAncestor_trans hx ((ht.rooted.isAncestor_iff hx).2 hy)
    ((ht.rooted.isAncestor_iff (ht.knows_of_mem hx hy)).2 hz))

theorem mem_antisymm (ht : h.Tree) (hx : h.knows x = true) (hyx : y ∈ h.lineage x)
    (hxy : x ∈ h.lineage y) : x = y :=
  have hy := ht.knows_of_mem hx hyx
  ht.rooted.isAncestor_antisymm hx hy ((ht.rooted.isAncestor_iff hx).2 hyx)
    ((ht.rooted.isAncestor_iff hy).2 hxy)

/-- The names of the pseudo types stand in no lineage. -/
theorem ancestors_pseudo (ht : h.Tree) (hn : txt "<" <+: x) : h.ancestors x = [] :=
  ancestors_of_unknown (Bool.eq_false_iff.2 fun hx => (ht.validName x hx).not_pseudo hn)

theorem notMem_ancestors (ht : h.Tree) (hn : txt "<" <+: y) : y ∉ h.ancestors x := by
  intro hy
  cases hx : h.knows x with
  | false =>
    rw [ancestors_of_unknown hx] at hy
    cases hy
  | true =>
    rw [(ht.line hx).ancestors] at hy
    have hknows := (ht.line hx).knows_of_mem (List.mem_of_mem_tail hy)
    exact (ht.validName y hknows).not_pseudo hn

theorem cls_of_name? (ht : h.Tree) (hname : a.name? = some x) (hx : h.knows x = true) :
    a = .cls x :=
  (Ty.name?_eq_some hname).resolve_right (ht.validName x hx).not_pseudo

/-- The ancestors of a type: itself, `object` where the type is no class, and the classes on its
lineage. -/
theorem isAncestor_iff (ht : h.Tree) (hb : h.Known b) : h.isAncestor a b = true ↔
    a = b ∨ (a = .object ∧ b.isPermissive = true) ∨
      ∃ y x, a = .cls y ∧ b = .cls x ∧ y ∈ h.lineage x := by
  constructor
  · intro hanc
    simp only [isAncestor, Bool.or_eq_true, Bool.and_eq_true, beq_iff_eq] at hanc
    rcases hanc with (heq | htop) | hname
    · exact .inl heq
    · exact .inr (.inl htop)
    · split at hname
      · next p c hp hc =>
        have hmem : p ∈ h.ancestors c := by simpa using hname
        rcases Ty.name?_eq_some hp with rfl | hpseudo
        · rcases Ty.name?_eq_some hc with rfl | hpseudo
          · have hne := ht.rooted.ne_nil c hb
            exact .inr (.inr ⟨p, c, rfl, rfl, by simp [lineage, hne, hmem]⟩)
          · rw [ht.ancestors_pseudo hpseudo] at hmem
            cases hmem
        · exact absurd hmem (ht.notMem_ancestors hpseudo)
      · cases hname
  · rintro (rfl | ⟨rfl, hperm⟩ | ⟨y, x, rfl, rfl, hy⟩)
    · exact isAncestor_refl h _
    · simp [isAncestor, hperm]
    · exact (ht.rooted.isAncestor_iff hb).2 hy

theorem isCompatible_none (ht : h.Tree) : h.isCompatible a .noneType = true ↔ a.isSpecial = false := by
  refine ⟨fun hcompat => Bool.eq_false_iff.2 fun hspecial => ?_, fun hspecial => ?_⟩
  · obtain ⟨x, rfl⟩ := Ty.exists_of_isSpecial hspecial
    simp only [isCompatible.eq_def, hspecial, Bool.not_true, Bool.false_and, Bool.or_false] at hcompat
    rw [ht.isAncestor_iff (b := .noneType) trivial] at hcompat
    rcases hcompat with heq | ⟨heq, -⟩ | ⟨_, _, -, heq, -⟩
    · cases heq
    · cases heq
      revert hspecial
      decide
    · cases heq
  · rw [isCompatible.eq_def, hspecial]
    simp

/-- The check of assignments follows the rules. -/
theorem isCompatible_iff (ht : h.Tree) (hb : h.Known b) :
    h.isCompatible a b = true ↔ h.Admits a b := by
  constructor
  · intro hcompat
    rw [isCompatible.eq_def, Bool.or_eq_true, Bool.or_eq_true, ht.isAncestor_iff hb] at hcompat
    rcases hcompat with ((rfl | ⟨rfl, hperm⟩ | ⟨y, x, rfl, rfl, hy⟩) | hnone) | hlist
    · exact .refl _
    · exact .top hperm
    · exact .above hy
    · obtain ⟨hspecial, rfl⟩ : a.isSpecial = false ∧ b = .noneType := by simpa using hnone
      exact .none hspecial
    · cases a with
      | list elem =>
        cases b with
        | emptyList => exact .empty (by simpa using hlist)
        | list v =>
          obtain ⟨rfl, helem⟩ : v = .noneType ∧ h.isCompatible elem .noneType = true := by
            simpa using hlist
          exact .nones (ht.isCompatible_none.1 helem)
        | _ => cases hlist
      | _ => cases hlist
  · intro hadmits
    cases hadmits with
    | refl => simp [isCompatible.eq_def, isAncestor_refl]
    | above hy => simp [isCompatible.eq_def, (ht.rooted.isAncestor_iff hb).2 hy]
    | top hperm => simp [isCompatible.eq_def, isAncestor, hperm]
    | none hspecial => exact ht.isCompatible_none.2 hspecial
    | empty helem => simp [isCompatible.eq_def, helem]
    | nones helem =>
      rw [isCompatible.eq_def]
      simp [ht.isCompatible_none.2 helem]

/-! ### The order of the types -/

theorem admits_object (ht : h.Tree) (ha : h.Known a) : h.Admits .object a := by
  cases a with
  | cls x => exact .above (ht.above x ha)
  | _ => exact .top rfl

/-- A class is accepted by the classes of its lineage only. -/
theorem admits_cls (ht : h.Tree) (hx : h.knows x = true) (hadmits : h.Admits t (.cls x)) :
    ∃ y, t = .cls y ∧ y ∈ h.lineage x := by
  cases hadmits with
  | refl => exact ⟨x, rfl, ht.mem_self hx⟩
  | above hy => exact ⟨_, rfl, hy⟩
  | top hperm => cases hperm

/-- Types that accept each other are the same. -/
theorem admits_antisymm (ht : h.Tree) (hb : h.Known b) (hab : h.Admits a b)
    (hba : h.Admits b a) : a = b := by
  cases hab with
  | refl => rfl
  | above hy =>
    cases hba with
    | refl => rfl
    | above hx => rw [ht.mem_antisymm hb hy hx]
    | top hperm => cases hperm
  | top hperm =>
    cases b with
    | cls x => cases hperm
    | _ => cases hba
  | none hspecial =>
    cases hba with
    | refl => rfl
    | none _ => rfl
  | empty helem => cases hba
  | nones helem =>
    cases hba with
    | refl => rfl
    | nones _ => rfl

/-- Assignments compose, except from an empty list by way of `[<None>]` to a list of lists. -/
theorem admits_trans (ht : h.Tree) (ha : h.Known a) (hb : h.Known b) (hcb : h.Admits c b)
    (hba : h.Admits b a) : h.Admits c a ∨ Gap c a ∧ b = .list .noneType := by
  cases hcb with
  | refl => exact .inl hba
  | @above y z hz =>
    left
    cases hba with
    | refl => exact .above hz
    | above hy => exact .above (ht.mem_trans ha hy hz)
    | top hperm =>
      rw [ht.lineage_object, List.mem_singleton] at hz
      exact hz ▸ .top hperm
    | none hspecial =>
      refine .none (Bool.eq_false_iff.2 fun hz' => ?_)
      have heq := ht.final y hb z (Ty.isSpecial_cls.1 hz') hz
      rw [heq, hspecial] at hz'
      cases hz'
  | top _ => exact .inl (ht.admits_object ha)
  | none hspecial =>
    cases hba with
    | refl => exact .inl (.none hspecial)
    | none _ => exact .inl (.none hspecial)
  | empty helem =>
    cases hba with
    | refl => exact .inl (.empty helem)
    | none _ => exact .inl (.none rfl)
  | @nones elem helem =>
    cases hba with
    | refl => exact .inl (.nones helem)
    | none _ => exact .inl (.none rfl)
    | nones _ => exact .inl (.nones helem)
    | empty _ =>
      cases elem with
      | list inner => exact .inr ⟨⟨rfl, inner, rfl⟩, rfl⟩
      | _ => exact .inl (.empty rfl)

/-- Below a class other than `object` stand the classes that descend from it and, unless it is
special, `<None>`. -/
theorem of_admits_cls (ht : h.Tree) (ha : h.Known a) (hadmits : h.Admits (.cls z) a)
    (hobject : Ty.cls z ≠ .object) :
    (∃ x, a = .cls x ∧ z ∈ h.lineage x) ∨ a = .noneType ∧ z ∉ specialClasses := by
  cases hadmits with
  | refl => exact .inl ⟨z, rfl, ht.mem_self ha⟩
  | above hz => exact .inl ⟨_, rfl, hz⟩
  | top _ => exact absurd rfl hobject
  | none hspecial =>
    exact .inr ⟨rfl, fun hz => Bool.eq_false_iff.1 hspecial (Ty.isSpecial_cls.2 hz)⟩

/-- A class below one that accepts `None` accepts it too, unless that one is `object`. -/
theorem admits_none (ht : h.Tree) (hz : z ∈ h.lineage x) (hobject : Ty.cls z ≠ .object)
    (hspecial : z ∉ specialClasses) : h.Admits (.cls x) .noneType := by
  refine .none (Bool.eq_false_iff.2 fun hx => ?_)
  have hx := Ty.isSpecial_cls.1 hx
  rw [ht.lineage_special hx, List.mem_pair] at hz
  rcases hz with rfl | rfl
  · exact hspecial hx
  · exact hobject rfl

theorem knows_special (ht : h.Tree) (hx : x ∈ specialClasses) : h.knows x = true := by
  rw [knows, ht.special x hx]
  rfl

/-- A place for raw words admits its own type only. -/
theorem eq_of_isUnboxed (ht : h.Tree) (ha : h.Known a) (hadmits : h.Admits t a)
    (hunboxed : t.isUnboxed = true) : a = t := by
  have hspecial : t.isSpecial = true := by
    rw [Ty.isUnboxed, Bool.or_eq_true, beq_iff_eq, beq_iff_eq] at hunboxed
    rcases hunboxed with rfl | rfl <;> decide
  cases hadmits with
  | refl => rfl
  | above hz => rw [ht.final _ ha _ (Ty.isSpecial_cls.1 hspecial) hz]
  | top _ => exact absurd hspecial (by decide)
  | none hnot =>
    rw [hspecial] at hnot
    cases hnot
  | empty _ => cases hspecial
  | nones _ => cases hspecial

/-- Of two types that a third accepts, one accepts the other, unless both are classes or only
`object` accepts both. -/
theorem comparable (ht : h.Tree) (ha : h.Known a) (hb : h.Known b) (hta : h.Admits t a)
    (htb : h.Admits t b) (hobject : t ≠ .object) (hcls : ¬ ∃ x y, a = .cls x ∧ b = .cls y) :
    h.Admits a b ∨ h.Admits b a := by
  cases hperm : t.isPermissive with
  | false =>
    obtain ⟨z, rfl⟩ : ∃ z, t = .cls z := by
      cases t with
      | cls z => exact ⟨z, rfl⟩
      | _ => cases hperm
    rcases ht.of_admits_cls ha hta hobject with ⟨x, rfl, hx⟩ | ⟨rfl, hspecial⟩
    · rcases ht.of_admits_cls hb htb hobject with ⟨y, rfl, -⟩ | ⟨rfl, hspecial⟩
      · exact absurd ⟨x, y, rfl, rfl⟩ hcls
      · exact .inl (ht.admits_none hx hobject hspecial)
    · rcases ht.of_admits_cls hb htb hobject with ⟨y, rfl, hy⟩ | ⟨rfl, -⟩
      · exact .inr (ht.admits_none hy hobject hspecial)
      · exact .inl (.refl _)
  | true =>
    rcases hta.of_isPermissive hperm with rfl | ha'
    · exact .inl htb
    rcases htb.of_isPermissive hperm with rfl | hb'
    · exact .inr hta
    -- the types that remain form a chain
    · rcases ha' with rfl | rfl | rfl <;> rcases hb' with rfl | rfl | rfl
      exacts [.inl (.refl _), .inl (.empty rfl), .inl (.none rfl), .inr (.empty rfl), .inl (.refl _),
        .inl (.none rfl), .inr (.none rfl), .inr (.none rfl), .inl (.refl _)]

end Tree

end Hierarchy

/-! ### The classes of a program -/

theorem Scope.Classes.tree {g : Scope} (h : g.Classes) (hvalid : g.ValidClasses) :
    g.hierarchy.Tree where
  rooted := h.rooted
  validName x hx := hvalid.validName hx
  object := h.super?_object
  above x hx := List.mem_of_getLast? (h.getLast?_line (h.rooted.lineage hx))
  special x hx := h.super?_of_get? (h.special x hx)
  final x hx y hy hmem := by
    have hline := h.rooted.lineage hx
    obtain ⟨above, heq⟩ := hline.head
    have hnot := h.notMem_tail hline hy
    rw [heq] at hnot hmem
    exact (List.mem_cons.1 hmem).resolve_right hnot

theorem Program.declare_tree {source : Bytes} {p : Program} (h : parse source = .ok p) :
    p.declare.value.hierarchy.Tree :=
  (declare_classes (parse_valid h)).tree (declare_validClasses (parse_valid h))

theorem Accepts.tree {source : Bytes} {globals : Scope} {p : Program}
    (h : Accepts source globals p) : globals.hierarchy.Tree := by
  obtain ⟨hvalid, hdeclare, -⟩ := h.analyzed
  have htree := (Program.declare_classes hvalid).tree (Program.declare_validClasses hvalid)
  rwa [hdeclare] at htree

end ChocoRv
