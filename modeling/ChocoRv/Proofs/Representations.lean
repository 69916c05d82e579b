import ChocoRv.Proofs.Joins

/-!
# Representations

A value of `int` or `bool` is a raw word and every other value the address of an object, and the
elements of a list follow the type of the list. Assignments and joins lead from one type to another
only where this can be made up for: a place for raw words takes values of its own type only, and no
list of raw words becomes a list of objects or the other way round.
-/

namespace ChocoRv

/-- Values of the first type go into places of the second: into places for raw words those of the
same type only, and lists into places for lists with the same representation of elements. -/
structure Ty.GoesInto (v t : Ty) : Prop where
  raw : t.isUnboxed = true → v = t
  elems : ∀ a b, v = .list a → t = .list b → (a = .int ↔ b = .int) ∧ (a = .bool ↔ b = .bool)

/-- Steps that can be chained: besides, from a class they lead to a class and from a list to a list
or a class. -/
structure Ty.Widens (v t : Ty) : Prop extends v.GoesInto t where
  cls : v.isPermissive = false → t.isPermissive = false
  list : v.isList = true → t.isList = true ∨ t.isPermissive = false

namespace Ty

variable {v t u : Ty}

theorem isUnboxed_iff : t.isUnboxed = true ↔ t = .int ∨ t = .bool := by
  rw [isUnboxed, Bool.or_eq_true, beq_iff_eq, beq_iff_eq]

theorem exists_of_isList (h : t.isList = true) : ∃ a, t = .list a := by
  cases t with
  | list a => exact ⟨a, rfl⟩
  | _ => cases h

theorem isUnboxed_cls {x : Name} (h : (Ty.cls x).isUnboxed = true) : x ∈ specialClasses := by
  rcases isUnboxed_iff.1 h with h | h <;> cases h <;> decide

namespace Widens

theorem refl (t : Ty) : t.Widens t where
  raw _ := rfl
  elems a b ha hb := by
    cases ha.symm.trans hb
    exact ⟨Iff.rfl, Iff.rfl⟩
  cls := id
  list := .inl

theorem trans (h : v.Widens t) (h' : t.Widens u) : v.Widens u where
  raw hu := by
    obtain rfl := h'.raw hu
    exact h.raw hu
  elems a b := by
    rintro rfl rfl
    rcases h.list rfl with hlist | hcls
    · obtain ⟨c, rfl⟩ := exists_of_isList hlist
      obtain ⟨hint, hbool⟩ := h.elems a c rfl rfl
      obtain ⟨hint', hbool'⟩ := h'.elems c b rfl rfl
      exact ⟨hint.trans hint', hbool.trans hbool'⟩
    · cases h'.cls hcls
  cls hv := h'.cls (h.cls hv)
  list hv := (h.list hv).elim h'.list fun hcls => .inr (h'.cls hcls)

/-- A class is as wide as any other type, if raw words stay where they are. -/
theorem to_cls {z : Name} (h : z ∈ specialClasses → v = .cls z) : v.Widens (.cls z) where
  raw hz := h (isUnboxed_cls hz)
  elems a b _ hb := by cases hb
  cls _ := rfl
  list _ := .inr rfl

/-- Among types that are no classes only the elements of lists count. -/
theorem of_permissive (hv : v.isPermissive = true) (ht : t.isPermissive = true)
    (h : ∀ a, v = .list a → ∃ b, t = .list b ∧ (a = .int ↔ b = .int) ∧ (a = .bool ↔ b = .bool)) :
    v.Widens t where
  raw hraw := by
    rcases isUnboxed_iff.1 hraw with rfl | rfl <;> cases ht
  elems a b ha hb := by
    obtain ⟨c, hc, helems⟩ := h a ha
    cases hb.symm.trans hc
    exact helems
  cls hcls := by
    rw [hv] at hcls
    cases hcls
  list hlist := by
    obtain ⟨a, ha⟩ := exists_of_isList hlist
    obtain ⟨b, rfl, -⟩ := h a ha
    exact .inl rfl

end Widens

end Ty

namespace Hierarchy

/-- What a join leads to: a class, which is special only if both types are that class, or the one of
them that accepts the other. -/
inductive LeadsTo (h : Hierarchy) (a b : Ty) : Ty → Prop
  | cls {z : Name} (hz : z ∈ specialClasses → a = .cls z ∧ b = .cls z) : LeadsTo h a b (.cls z)
  | left (hab : h.isCompatible a b = true) : LeadsTo h a b a
  | right (hba : h.isCompatible b a = true) : LeadsTo h a b b

namespace Tree

variable {h : Hierarchy} {t v a b : Ty}

/-- The special classes are above themselves only. -/
theorem eq_of_isAncestor_special (ht : h.Tree) {x : Name} (hx : x ∈ specialClasses)
    (hanc : h.isAncestor (.cls x) v = true) : v = .cls x := by
  have hobject : txt "object" ∉ specialClasses := by decide
  simp only [isAncestor, Bool.or_eq_true, Bool.and_eq_true, beq_iff_eq] at hanc
  rcases hanc with (heq | ⟨heq, -⟩) | hname
  · exact heq.symm
  · cases heq
    exact absurd hx hobject
  · split at hname
    · next p c hp hc =>
      obtain rfl : x = p := Option.some.inj hp
      have hmem : x ∈ h.ancestors c := by simpa using hname
      cases hknows : h.knows c with
      | false =>
        rw [ancestors_of_unknown hknows] at hmem
        cases hmem
      | true =>
        rw [(ht.line hknows).ancestors] at hmem
        obtain rfl := ht.final c hknows x hx (List.mem_of_mem_tail hmem)
        rw [ht.lineage_special hx, List.tail_cons, List.mem_singleton] at hmem
        exact absurd hx (hmem ▸ hobject)
    · cases hname

/-- Above a class stand classes only. -/
theorem cls_of_isAncestor (ht : h.Tree) {x : Name} (hanc : h.isAncestor t (.cls x) = true) :
    ∃ y, t = .cls y := by
  simp only [isAncestor, Bool.or_eq_true, Bool.and_eq_true, beq_iff_eq] at hanc
  rcases hanc with (heq | ⟨-, hperm⟩) | hname
  · exact ⟨x, heq⟩
  · cases hperm
  · split at hname
    · next p c hp hc =>
      have hmem : p ∈ h.ancestors c := by simpa using hname
      rcases Ty.name?_eq_some hp with rfl | hpseudo
      · exact ⟨p, rfl⟩
      · exact absurd hmem (ht.notMem_ancestors hpseudo)
    · cases hname

/-- Above a list stand the same list and `object`. -/
theorem of_isAncestor_list {elem : Ty} (hanc : h.isAncestor t (.list elem) = true) :
    t = .list elem ∨ t = .object := by
  simp only [isAncestor, Bool.or_eq_true, Bool.and_eq_true, beq_iff_eq] at hanc
  rcases hanc with (heq | ⟨heq, -⟩) | hname
  · exact .inl heq
  · exact .inr heq
  · split at hname
    · next hc => cases hc
    · cases hname

theorem widens_of_isCompatible (ht : h.Tree) (hcompat : h.isCompatible t v = true) :
    v.Widens t := by
  rw [isCompatible.eq_def, Bool.or_eq_true, Bool.or_eq_true] at hcompat
  cases hperm : t.isPermissive with
  | false =>
    obtain ⟨x, rfl⟩ : ∃ x, t = .cls x := by
      cases t with
      | cls x => exact ⟨x, rfl⟩
      | _ => cases hperm
    refine .to_cls fun hx => ?_
    rcases hcompat with (hanc | hnone) | hlist
    · exact ht.eq_of_isAncestor_special hx hanc
    · rw [Ty.isSpecial_cls.2 hx] at hnone
      cases hnone
    · cases hlist
  | true =>
    refine .of_permissive ?_ hperm fun a ha => ?_
    · cases v with
      | cls x =>
        rcases hcompat with (hanc | hnone) | hlist
        · obtain ⟨y, rfl⟩ := ht.cls_of_isAncestor hanc
          cases hperm
        · simp at hnone
        · cases t <;> cases hlist
      | _ => rfl
    · obtain rfl := ha
      rcases hcompat with (hanc | hnone) | hlist
      · rcases of_isAncestor_list hanc with rfl | rfl
        · exact ⟨a, rfl, Iff.rfl, Iff.rfl⟩
        · cases hperm
      · simp at hnone
      · cases t with
        | list b =>
          obtain ⟨rfl, hb⟩ : a = .noneType ∧ h.isCompatible b .noneType = true := by
            simpa using hlist
          -- an element that may be `None` is no raw word
          have hspecial := ht.isCompatible_none.1 hb
          refine ⟨b, rfl, ⟨by rintro ⟨⟩, ?_⟩, by rintro ⟨⟩, ?_⟩ <;>
            (rintro rfl; cases hspecial)
        | _ => cases hlist

theorem leadsTo_commonAncestor (ht : h.Tree) (a b : Ty) : h.LeadsTo a b (h.commonAncestor a b) := by
  have hassign : h.LeadsTo a b
      (if h.isCompatible a b then a else if h.isCompatible b a then b else .object) := by
    split_ifs with hab hba
    · exact .left hab
    · exact .right hba
    · exact .cls fun hspecial => absurd hspecial (by decide)
  by_cases hcls : ∃ x y, a = .cls x ∧ b = .cls y
  · obtain ⟨x, y, rfl, rfl⟩ := hcls
    cases hknows : h.knows x && h.knows y with
    | true =>
      rw [Bool.and_eq_true] at hknows
      obtain ⟨z, hz, hdeepest⟩ := ht.commonAncestor_cls hknows.1 hknows.2
      rw [hz]
      refine .cls fun hspecial => ?_
      obtain rfl := ht.final x hknows.1 z hspecial hdeepest.left
      obtain rfl := ht.final y hknows.2 z hspecial hdeepest.right
      exact ⟨rfl, rfl⟩
    | false =>
      by_cases hxy : Ty.cls x = .cls y
      · cases hxy
        rw [commonAncestor, if_pos rfl]
        exact .left (by simp [isCompatible.eq_def, isAncestor_refl])
      · rw [commonAncestor, if_neg hxy]
        simpa only [Ty.name?, Ty.text, hknows, Bool.false_eq_true, if_false] using hassign
  · rw [ht.commonAncestor_of_not_cls hcls]
    exact hassign

theorem widens_leadsTo (ht : h.Tree) {j : Ty} (hj : h.LeadsTo a b j) : a.Widens j ∧ b.Widens j := by
  cases hj with
  | cls hz => exact ⟨.to_cls fun hspecial => (hz hspecial).1, .to_cls fun hspecial => (hz hspecial).2⟩
  | left hab => exact ⟨.refl _, ht.widens_of_isCompatible hab⟩
  | right hba => exact ⟨ht.widens_of_isCompatible hba, .refl _⟩

theorem widens_commonAncestor (ht : h.Tree) (a b : Ty) :
    a.Widens (h.commonAncestor a b) ∧ b.Widens (h.commonAncestor a b) :=
  ht.widens_leadsTo (ht.leadsTo_commonAncestor a b)

/-- The join of many types, from left to right. -/
theorem widens_foldl (ht : h.Tree) (ts : List Ty) (t : Ty) :
    ∃ elem, ts.foldl (fun a t => h.join? a (some t)) (some t) = some elem ∧ t.Widens elem ∧
      ∀ u ∈ ts, u.Widens elem := by
  induction ts generalizing t with
  | nil => exact ⟨t, rfl, .refl t, by simp⟩
  | cons u ts ih =>
    obtain ⟨elem, hfold, hjoin, hrest⟩ := ih (h.commonAncestor t u)
    obtain ⟨ht', hu⟩ := ht.widens_commonAncestor t u
    exact ⟨elem, hfold, ht'.trans hjoin, List.forall_mem_cons.2 ⟨hu.trans hjoin, hrest⟩⟩

/-- The elements of a list display go into places of its element type. -/
theorem goesInto_display (ht : h.Tree) {ts : List Ty} (hne : ts ≠ []) :
    ∃ elem, Typing.displayType h ts = .list elem ∧ ∀ t ∈ ts, t.GoesInto elem := by
  cases ts with
  | nil => exact absurd rfl hne
  | cons t ts =>
    obtain ⟨elem, hfold, hfirst, hrest⟩ := ht.widens_foldl ts t
    refine ⟨elem, ?_, List.forall_mem_cons.2 ⟨hfirst.toGoesInto, fun u hu => (hrest u hu).toGoesInto⟩⟩
    have hstart : h.join? none (some t) = some t := rfl
    rw [Typing.displayType, List.foldl_cons, hstart, hfold]

/-- A list of raw words is concatenated with lists of the same type and empty ones. -/
theorem raw_of_join? (ht : h.Tree) {a b : Ty} (ha : a.isListLike = true) (hb : b.isListLike = true)
    {r : Ty} (hjoin : h.join? a.elem? b.elem? = some r) (hraw : r.isUnboxed = true) :
    (a = .emptyList ∨ a = .list r) ∧ (b = .emptyList ∨ b = .list r) := by
  cases a with
  | cls | noneType => cases ha
  | emptyList =>
    refine ⟨.inl rfl, ?_⟩
    cases b with
    | cls | noneType => cases hb
    | emptyList => cases hjoin
    | list u =>
      cases hjoin
      exact .inr rfl
  | list t =>
    cases b with
    | cls | noneType => cases hb
    | emptyList =>
      cases hjoin
      exact ⟨.inr rfl, .inl rfl⟩
    | list u =>
      obtain rfl : h.commonAncestor t u = r := Option.some.inj hjoin
      obtain ⟨hleft, hright⟩ := ht.widens_commonAncestor t u
      exact ⟨.inr (congrArg _ (hleft.raw hraw)), .inr (congrArg _ (hright.raw hraw))⟩

end Tree

end Hierarchy

end ChocoRv
