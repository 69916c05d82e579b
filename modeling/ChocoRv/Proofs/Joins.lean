import ChocoRv.Proofs.Assignability

/-!
# Joins

The join of two types is their least upper bound with respect to assignability: of two classes the
deepest on both lineages, of two other types the one that accepts the other, and `object` where only
`object` accepts both. A join of many types is taken from left to right. Since assignments do not
always compose, it may miss an empty list that came before; it misses nothing else.
-/

namespace ChocoRv

namespace Hierarchy

variable {h : Hierarchy} {x y z : Name} {a b t : Ty}

/-! ### Two types -/

/-- The longest common prefix of two lists ends at the element that they share last. -/
theorem lastShared_spec (last : Name) (as bs : List Name) : ∃ shared, shared <+: as ∧ shared <+: bs ∧
    (∀ ks, ks <+: as → ks <+: bs → ks <+: shared) ∧
      lastShared last as bs = shared.getLastD last := by
  induction as generalizing bs last with
  | nil => exact ⟨[], List.nil_prefix, List.nil_prefix, fun ks hks _ => hks, by cases bs <;> rfl⟩
  | cons a as ih =>
    cases bs with
    | nil => exact ⟨[], List.nil_prefix, List.nil_prefix, fun ks _ hks => hks, rfl⟩
    | cons b bs =>
      rw [lastShared]
      by_cases hab : a = b
      · subst hab
        obtain ⟨shared, has, hbs, hmax, hlast⟩ := ih a bs
        refine ⟨a :: shared, (List.prefix_cons_inj a).2 has, (List.prefix_cons_inj a).2 hbs,
          fun ks hka hkb => ?_, ?_⟩
        · cases ks with
          | nil => exact List.nil_prefix
          | cons k ks =>
            obtain ⟨rfl, hka'⟩ := List.cons_prefix_cons.1 hka
            exact (List.prefix_cons_inj k).2 (hmax ks hka' (List.cons_prefix_cons.1 hkb).2)
        · rw [if_pos rfl, hlast, List.getLastD_cons]
      · refine ⟨[], List.nil_prefix, List.nil_prefix, fun ks hka hkb => ?_, by rw [if_neg hab]; rfl⟩
        cases ks with
        | nil => exact List.nil_prefix
        | cons k ks =>
          exact absurd ((List.cons_prefix_cons.1 hka).1.symm.trans (List.cons_prefix_cons.1 hkb).1) hab

/-- From a class on a line upwards the line is that of this class. -/
theorem Line.of_append {below above : List Name} (hl : h.Line x (below ++ z :: above)) :
    h.Line z (z :: above) := by
  induction below generalizing x with
  | nil =>
    cases hl with
    | root hx => exact .root hx
    | step hx hy => exact .step hx hy
  | cons k below ih =>
    rw [List.cons_append] at hl
    generalize hks : below ++ z :: above = ks at hl
    cases hl with
    | root _ => simp at hks
    | step _ hy => exact ih (hks ▸ hy)

/-- The class stands on both lineages, and whatever stands on both stands on its own. -/
structure Deepest (h : Hierarchy) (x y z : Name) : Prop where
  left : z ∈ h.lineage x
  right : z ∈ h.lineage y
  above : ∀ k ∈ h.lineage x, k ∈ h.lineage y → k ∈ h.lineage z

/-- How the join of two types comes about. -/
inductive Joined (h : Hierarchy) : Ty → Ty → Ty → Prop
  | cls {x y z : Name} (hz : h.Deepest x y z) : Joined h (.cls x) (.cls y) (.cls z)
  | left {a b : Ty} (hab : h.Admits a b) : Joined h a b a
  | right {a b : Ty} (hba : h.Admits b a) : Joined h a b b
  | object {a b : Ty} (hcls : ¬ ∃ x y, a = .cls x ∧ b = .cls y) (hab : ¬ h.Admits a b)
      (hba : ¬ h.Admits b a) : Joined h a b .object

/-- The type `j` is the least that both types may be assigned to. -/
structure IsJoin (h : Hierarchy) (a b j : Ty) : Prop where
  left : h.Admits j a
  right : h.Admits j b
  least : ∀ t, h.Admits t a → h.Admits t b → h.Admits t j

namespace Tree

theorem suffix_of_mem (ht : h.Tree) (hx : h.knows x = true) (hy : y ∈ h.lineage x) :
    h.lineage y <:+ h.lineage x := by
  obtain ⟨below, above, heq, hline⟩ := (ht.line hx).of_mem hy
  rw [(ht.line hline.knows).unique hline, heq]
  exact List.suffix_append _ _

/-- The class that the lineages of two classes share last is the deepest on both. -/
theorem lastShared_deepest (ht : h.Tree) (hx : h.knows x = true) (hy : h.knows y = true) :
    h.Deepest x y (lastShared (txt "object") (h.lineage x).reverse (h.lineage y).reverse) := by
  obtain ⟨shared, hsx, hsy, hmax, hlast⟩ :=
    lastShared_spec (txt "object") (h.lineage x).reverse (h.lineage y).reverse
  have hshared : ∀ k ∈ h.lineage x, k ∈ h.lineage y → k ∈ shared := by
    intro k hkx hky
    have hprefix := hmax _ (List.reverse_prefix.2 (ht.suffix_of_mem hx hkx))
      (List.reverse_prefix.2 (ht.suffix_of_mem hy hky))
    exact hprefix.subset (List.mem_reverse.2 (ht.mem_self (ht.knows_of_mem hx hkx)))
  obtain ⟨upper, z, rfl⟩ : ∃ upper z, shared = upper ++ [z] := by
    have hobject := hshared _ (ht.above x hx) (ht.above y hy)
    rcases List.eq_nil_or_concat shared with rfl | ⟨upper, z, rfl⟩
    · cases hobject
    · exact ⟨upper, z, List.concat_eq_append⟩
  -- the shared classes, read upwards, are the lineage of the last
  have hz : h.lineage z = z :: upper.reverse := by
    have hsuffix : (upper ++ [z]).reverse <:+ h.lineage x :=
      List.reverse_prefix.1 (by rwa [List.reverse_reverse])
    obtain ⟨below, heq⟩ := hsuffix
    rw [List.reverse_append, List.reverse_singleton, List.singleton_append] at heq
    have hline := ht.line hx
    rw [← heq] at hline
    exact (ht.line hline.of_append.knows).unique hline.of_append
  rw [hlast, List.getLastD_concat]
  refine ⟨?_, ?_, fun k hkx hky => ?_⟩
  · exact List.mem_reverse.1 (hsx.subset (by simp))
  · exact List.mem_reverse.1 (hsy.subset (by simp))
  · rw [hz]
    simpa [or_comm] using hshared k hkx hky

/-- The join of two classes is the deepest class on both lineages. -/
theorem commonAncestor_cls (ht : h.Tree) (hx : h.knows x = true) (hy : h.knows y = true) :
    ∃ z, h.commonAncestor (.cls x) (.cls y) = .cls z ∧ h.Deepest x y z := by
  by_cases hxy : Ty.cls x = .cls y
  · cases hxy
    exact ⟨x, by rw [commonAncestor, if_pos rfl], ht.mem_self hx, ht.mem_self hx, fun _ hk _ => hk⟩
  · have hdeepest := ht.lastShared_deepest hx hy
    refine ⟨_, ?_, hdeepest⟩
    rw [commonAncestor, if_neg hxy]
    simp only [Ty.name?, Ty.text, hx, hy, Bool.and_true, if_true]
    exact (ht.validName _ (ht.knows_of_mem hx hdeepest.left)).ofName_eq

/-- The join of two types that are not both classes is the one that accepts the other. -/
theorem commonAncestor_of_not_cls (ht : h.Tree) (hcls : ¬ ∃ x y, a = .cls x ∧ b = .cls y) :
    h.commonAncestor a b =
      if h.isCompatible a b then a else if h.isCompatible b a then b else .object := by
  rw [commonAncestor]
  split
  · next heq => simp [heq, isCompatible.eq_def, isAncestor_refl]
  · split
    · next c d hc hd =>
      split
      · next hknows =>
        rw [Bool.and_eq_true] at hknows
        exact absurd ⟨c, d, ht.cls_of_name? hc hknows.1, ht.cls_of_name? hd hknows.2⟩ hcls
      · rfl
    · rfl

theorem joined (ht : h.Tree) (ha : h.Known a) (hb : h.Known b) :
    h.Joined a b (h.commonAncestor a b) := by
  by_cases hcls : ∃ x y, a = .cls x ∧ b = .cls y
  · obtain ⟨x, y, rfl, rfl⟩ := hcls
    obtain ⟨z, hz, hdeepest⟩ := ht.commonAncestor_cls ha hb
    exact hz ▸ .cls hdeepest
  · rw [ht.commonAncestor_of_not_cls hcls]
    split
    · next hab => exact .left ((ht.isCompatible_iff hb).1 hab)
    · next hab =>
      split
      · next hba => exact .right ((ht.isCompatible_iff ha).1 hba)
      · next hba =>
        rw [ht.isCompatible_iff hb] at hab
        rw [ht.isCompatible_iff ha] at hba
        exact .object hcls hab hba

end Tree

namespace Joined

variable {j : Ty}

theorem known (hj : h.Joined a b j) (ht : h.Tree) (ha : h.Known a) (hb : h.Known b) : h.Known j := by
  cases hj with
  | cls hz => exact ht.knows_of_mem ha hz.left
  | left _ => exact ha
  | right _ => exact hb
  | object _ _ _ => exact ht.knows_object

/-- A join that is a list type is one of the two types. -/
theorem of_isList (hj : h.Joined a b j) (hlist : j.isList = true) : j = a ∨ j = b := by
  cases hj with
  | cls _ => cases hlist
  | left _ => exact .inl rfl
  | right _ => exact .inr rfl
  | object _ _ _ => cases hlist

theorem isJoin (hj : h.Joined a b j) (ht : h.Tree) (ha : h.Known a) (hb : h.Known b) :
    h.IsJoin a b j := by
  cases hj with
  | cls hz =>
    refine ⟨.above hz.left, .above hz.right, fun t htx hty => ?_⟩
    obtain ⟨k, rfl, hkx⟩ := ht.admits_cls ha htx
    obtain ⟨_, heq, hky⟩ := ht.admits_cls hb hty
    cases heq
    exact .above (hz.above k hkx hky)
  | left hab => exact ⟨.refl a, hab, fun t hta _ => hta⟩
  | right hba => exact ⟨hba, .refl b, fun t _ htb => htb⟩
  | object hcls hab hba =>
    refine ⟨ht.admits_object ha, ht.admits_object hb, fun t hta htb => ?_⟩
    by_cases hobject : t = .object
    · exact hobject ▸ .refl _
    · exact absurd (ht.comparable ha hb hta htb hobject hcls) (not_or.2 ⟨hab, hba⟩)

end Joined

namespace Tree

theorem isJoin_commonAncestor (ht : h.Tree) (ha : h.Known a) (hb : h.Known b) :
    h.IsJoin a b (h.commonAncestor a b) := (ht.joined ha hb).isJoin ht ha hb

theorem known_commonAncestor (ht : h.Tree) (ha : h.Known a) (hb : h.Known b) :
    h.Known (h.commonAncestor a b) := (ht.joined ha hb).known ht ha hb

/-- Two types have one join. -/
theorem isJoin_unique (ht : h.Tree) {j j' : Ty} (hknown : h.Known j') (hj : h.IsJoin a b j)
    (hj' : h.IsJoin a b j') : j = j' :=
  ht.admits_antisymm hknown (hj'.least j hj.left hj.right) (hj.least j' hj'.left hj'.right)

theorem commonAncestor_comm (ht : h.Tree) (ha : h.Known a) (hb : h.Known b) :
    h.commonAncestor a b = h.commonAncestor b a :=
  have hba := ht.isJoin_commonAncestor hb ha
  ht.isJoin_unique (ht.known_commonAncestor hb ha) (ht.isJoin_commonAncestor ha hb)
    ⟨hba.right, hba.left, fun t hta htb => hba.least t htb hta⟩

end Tree

/-! ### Many types -/

/-- The type accepts all the others, but for an empty list that came with `[<None>]`. -/
structure Bounds (h : Hierarchy) (elem : Ty) (ts : List Ty) : Prop where
  known : h.Known elem
  accepts : ∀ t ∈ ts, h.Admits elem t ∨ Gap elem t ∧ .list .noneType ∈ ts
  mem : elem.isList = true → elem ∈ ts

theorem Gap.of_admits {t' : Ty} (hgap : Gap t a) (hadmits : h.Admits t' t) :
    h.Admits t' a ∨ Gap t' a := by
  obtain ⟨rfl, elem, rfl⟩ := hgap
  cases hadmits with
  | refl => exact .inr ⟨rfl, elem, rfl⟩
  | top _ => exact .inl (.top rfl)

namespace Tree

variable {elem : Ty} {ts : List Ty}

theorem bounds_singleton (ha : h.Known a) : h.Bounds a [a] where
  known := ha
  accepts t hmem := by
    rw [List.mem_singleton.1 hmem]
    exact .inl (.refl a)
  mem _ := List.mem_singleton_self a

/-- A further join keeps the bound. -/
theorem bounds_join (ht : h.Tree) (hbounds : h.Bounds elem ts) (hts : ∀ t ∈ ts, h.Known t)
    (hb : h.Known b) : h.Bounds (h.commonAncestor elem b) (ts ++ [b]) := by
  have hjoin := ht.isJoin_commonAncestor hbounds.known hb
  refine ⟨ht.known_commonAncestor hbounds.known hb, fun t hmem => ?_, fun hlist => ?_⟩
  · rcases List.mem_append.1 hmem with hmem | hmem
    · rcases hbounds.accepts t hmem with hadmits | ⟨hgap, hnones⟩
      · rcases ht.admits_trans (hts t hmem) hbounds.known hjoin.left hadmits with h' | ⟨hgap, rfl⟩
        · exact .inl h'
        · exact .inr ⟨hgap, List.mem_append_left _ (hbounds.mem rfl)⟩
      · exact (hgap.of_admits hjoin.left).imp_right fun hgap' =>
          ⟨hgap', List.mem_append_left _ hnones⟩
    · exact .inl (List.mem_singleton.1 hmem ▸ hjoin.right)
  · rcases (ht.joined hbounds.known hb).of_isList hlist with heq | heq
    · rw [heq] at hlist ⊢
      exact List.mem_append_left _ (hbounds.mem hlist)
    · rw [heq]
      exact List.mem_append_right _ (List.mem_singleton_self b)

theorem bounds_foldl (ht : h.Tree) (more : List Ty) (hbounds : h.Bounds elem ts)
    (hts : ∀ t ∈ ts, h.Known t) (hmore : ∀ t ∈ more, h.Known t) :
    ∃ last, more.foldl (fun a t => h.join? a (some t)) (some elem) = some last ∧
      h.Bounds last (ts ++ more) := by
  induction more generalizing elem ts with
  | nil => exact ⟨elem, rfl, by rwa [List.append_nil]⟩
  | cons t more ih =>
    obtain ⟨hknown, hmore⟩ := List.forall_mem_cons.1 hmore
    have hts' : ∀ t' ∈ ts ++ [t], h.Known t' :=
      List.forall_mem_append.2 ⟨hts, by simpa using hknown⟩
    obtain ⟨last, hfold, hlast⟩ := ih (ht.bounds_join hbounds hts hknown) hts' hmore
    rw [List.append_assoc] at hlast
    exact ⟨last, hfold, hlast⟩

/-- The join of the types of a list, from left to right. -/
theorem exists_bounds (ht : h.Tree) (hne : ts ≠ []) (hts : ∀ t ∈ ts, h.Known t) :
    ∃ elem, ts.foldl (fun a t => h.join? a (some t)) none = some elem ∧ h.Bounds elem ts := by
  cases ts with
  | nil => exact absurd rfl hne
  | cons t more =>
    obtain ⟨hknown, hmore⟩ := List.forall_mem_cons.1 hts
    exact ht.bounds_foldl more (bounds_singleton hknown) (by simpa using hknown) hmore

end Tree

end Hierarchy

/-! ### The joins of a program -/

open Hierarchy

/-- The join of two types is their least upper bound with respect to assignability. -/
structure Hierarchy.LeastUpperBounds (h : Hierarchy) : Prop where
  known : ∀ a b, h.Known a → h.Known b → h.Known (h.commonAncestor a b)
  comm : ∀ a b, h.Known a → h.Known b → h.commonAncestor a b = h.commonAncestor b a
  left : ∀ a b, h.Known a → h.Known b → h.isCompatible (h.commonAncestor a b) a = true
  right : ∀ a b, h.Known a → h.Known b → h.isCompatible (h.commonAncestor a b) b = true
  least : ∀ a b t, h.Known a → h.Known b → h.isCompatible t a = true → h.isCompatible t b = true →
    h.isCompatible t (h.commonAncestor a b) = true
  /-- Of two classes it is the deepest class on both lineages. -/
  deepest : ∀ x y, h.knows x = true → h.knows y = true →
    ∃ z, h.commonAncestor (.cls x) (.cls y) = .cls z ∧ h.Deepest x y z

theorem Program.declare_leastUpperBounds {source : Bytes} {p : Program}
    (h : parse source = .ok p) : p.declare.value.hierarchy.LeastUpperBounds := by
  have ht := Program.declare_tree h
  have hjoin := fun a b ha hb => ht.isJoin_commonAncestor (a := a) (b := b) ha hb
  exact
    { known := fun a b ha hb => ht.known_commonAncestor ha hb
      comm := fun a b ha hb => ht.commonAncestor_comm ha hb
      left := fun a b ha hb => (ht.isCompatible_iff ha).2 (hjoin a b ha hb).left
      right := fun a b ha hb => (ht.isCompatible_iff hb).2 (hjoin a b ha hb).right
      least := fun a b t ha hb hta htb =>
        (ht.isCompatible_iff (ht.known_commonAncestor ha hb)).2 ((hjoin a b ha hb).least t
          ((ht.isCompatible_iff ha).1 hta) ((ht.isCompatible_iff hb).1 htb))
      deepest := fun x y hx hy => ht.commonAncestor_cls hx hy }

/-- Two siblings, then a repeated class and one without superclass; both of these are dropped. -/
def siblings : Bytes :=
  txt "class A(object):\n  pass\nclass B(A):\n  pass\nclass C(A):\n  pass\n" ++
    txt "class C(B):\n  pass\nclass D(E):\n  pass\n"

theorem siblings_leastUpperBounds : ∃ p : Program, parse siblings = .ok p ∧
    p.declare.diagnostics.length = 2 ∧
    p.declare.value.hierarchy.commonAncestor (.cls (txt "B")) (.cls (txt "C")) = .cls (txt "A") ∧
    p.declare.value.hierarchy.LeastUpperBounds := by
  have hrun : (parse siblings).toOption.any (fun p =>
      decide (p.declare.diagnostics.length = 2 ∧
        p.declare.value.hierarchy.commonAncestor (.cls (txt "B")) (.cls (txt "C")) =
          .cls (txt "A"))) = true := by
    decide +kernel
  obtain ⟨p, hparse, htest⟩ := ok_of_any hrun
  obtain ⟨hdiagnostics, hjoin⟩ := of_decide_eq_true htest
  exact ⟨p, hparse, hdiagnostics, hjoin, Program.declare_leastUpperBounds hparse⟩

/-- The element type of a list display accepts the types of all elements. The only exception is the
type of the empty list where the elements are lists of lists, among them a list of `None`. -/
theorem Program.join_accepts {source : Bytes} {p : Program} (h : parse source = .ok p)
    {ts : List Ty} (hne : ts ≠ []) (hts : ∀ t ∈ ts, p.declare.value.hierarchy.Known t) :
    ∃ elem, ts.foldl (fun a t => p.declare.value.hierarchy.join? a (some t)) none = some elem ∧
      ∀ t ∈ ts, (p.declare.value.hierarchy.isCompatible elem t = true ↔ ¬ Gap elem t) ∧
        (Gap elem t → elem ∈ ts ∧ .list .noneType ∈ ts) := by
  have ht := Program.declare_tree h
  obtain ⟨elem, hfold, hbounds⟩ := ht.exists_bounds hne hts
  refine ⟨elem, hfold, fun t hmem => ?_⟩
  rw [ht.isCompatible_iff (hts t hmem)]
  rcases hbounds.accepts t hmem with hadmits | ⟨hgap, hnones⟩
  · have hno : ¬ Gap elem t := fun hgap => hgap.not_admits hadmits
    exact ⟨⟨fun _ => hno, fun _ => hadmits⟩, fun hgap => absurd hgap hno⟩
  · exact ⟨⟨fun hadmits => absurd hadmits hgap.not_admits, fun hno => absurd hgap hno⟩,
      fun _ => ⟨hbounds.mem (by obtain ⟨-, _, rfl⟩ := hgap; rfl), hnones⟩⟩

def siblingTypes : List Ty := [.cls (txt "B"), .noneType, .cls (txt "C")]

theorem siblings_join_accepts : ∃ p : Program, parse siblings = .ok p ∧ siblingTypes ≠ [] ∧
    (∀ t ∈ siblingTypes, p.declare.value.hierarchy.Known t) ∧
    ∃ elem, siblingTypes.foldl (fun a t => p.declare.value.hierarchy.join? a (some t)) none =
        some elem ∧
      ∀ t ∈ siblingTypes, (p.declare.value.hierarchy.isCompatible elem t = true ↔ ¬ Gap elem t) ∧
        (Gap elem t → elem ∈ siblingTypes ∧ .list .noneType ∈ siblingTypes) := by
  have hrun : (parse siblings).toOption.any (fun p =>
      decide (∀ t ∈ siblingTypes, p.declare.value.hierarchy.Known t)) = true := by
    decide +kernel
  obtain ⟨p, hparse, htest⟩ := ok_of_any hrun
  have hknown := of_decide_eq_true htest
  exact ⟨p, hparse, List.cons_ne_nil _ _, hknown,
    Program.join_accepts hparse (List.cons_ne_nil _ _) hknown⟩

/-- The types of the elements of `[[], [None], [[1]]]`. -/
def nestedTypes : List Ty := [.emptyList, .list .noneType, .list (.list .int)]

/-- The join of these types is the last, which does not accept the first. -/
theorem nestedTypes_join_rejects : ¬ ∀ (source : Bytes) (p : Program) (ts : List Ty) (elem : Ty),
    parse source = .ok p → ts ≠ [] → (∀ t ∈ ts, p.declare.value.hierarchy.Known t) →
      ts.foldl (fun a t => p.declare.value.hierarchy.join? a (some t)) none = some elem →
        ∀ t ∈ ts, p.declare.value.hierarchy.isCompatible elem t = true := by
  intro hall
  have hrun : (parse (txt "[[], [None], [[1]]]\n")).toOption.any (fun p => decide
      ((∀ t ∈ nestedTypes, p.declare.value.hierarchy.Known t) ∧
        nestedTypes.foldl (fun a t => p.declare.value.hierarchy.join? a (some t)) none =
          some (.list (.list .int)) ∧
        p.declare.value.hierarchy.isCompatible (.list (.list .int)) .emptyList = false)) = true := by
    decide +kernel
  obtain ⟨p, hparse, htest⟩ := ok_of_any hrun
  obtain ⟨hknown, hfold, hrejects⟩ := of_decide_eq_true htest
  have haccepts := hall _ p nestedTypes _ hparse (List.cons_ne_nil _ _) hknown hfold .emptyList
    List.mem_cons_self
  cases hrejects.symm.trans haccepts

end ChocoRv
