import ChocoRv.Codegen.ClassLayout
import ChocoRv.Proofs.Labels

/-!
# Layouts of the classes of a program

A superclass stands before its subclasses, so each layout starts from that of the superclass and
holds every attribute and every method that a lookup along the superclasses finds. The methods of a
layout are functions of the program, or the constructor of `object`.
-/

namespace ChocoRv

open Asm

variable {globals : Scope} {p : Program}

namespace ClassLayout

def attrNames (l : ClassLayout) : List Name := l.attrs.map Attribute.name

def methodNames (l : ClassLayout) : List Name := l.methods.map Method.name

/-- The label in the slot of a method. -/
def slot? (l : ClassLayout) (x : Name) : Option Label :=
  (l.methods.find? (·.name == x)).map Method.label

theorem attrOffset_ok {l : ClassLayout} {x : Name} (h : x ∈ l.attrNames) :
    ∃ o, l.attrOffset x = .ok o := by
  obtain ⟨a, ha, rfl⟩ := List.mem_map.1 h
  obtain ⟨i, hi⟩ := Option.isSome_iff_exists.1
    ((List.findIdx?_isSome (p := (·.name == a.name))).trans (List.any_eq_true.2 ⟨a, ha, beq_self_eq_true _⟩))
  exact ⟨_, by rw [attrOffset, hi]⟩

theorem methodOffset_ok {l : ClassLayout} {x : Name} (h : x ∈ l.methodNames) :
    ∃ o, l.methodOffset x = .ok o := by
  obtain ⟨m, hm, rfl⟩ := List.mem_map.1 h
  obtain ⟨i, hi⟩ := Option.isSome_iff_exists.1
    ((List.findIdx?_isSome (p := (·.name == m.name))).trans (List.any_eq_true.2 ⟨m, hm, beq_self_eq_true _⟩))
  exact ⟨_, by rw [methodOffset, hi]⟩

theorem find?_ok {layouts : List ClassLayout} {x : Name} (h : x ∈ layouts.map name) :
    ∃ l, find? layouts x = some l ∧ l ∈ layouts ∧ l.name = x := by
  obtain ⟨l, hl, rfl⟩ := List.mem_map.1 h
  have hsome : (find? layouts l.name).isSome := by
    rw [find?, List.find?_isSome]
    exact ⟨l, List.mem_reverse.2 hl, beq_self_eq_true _⟩
  obtain ⟨l', hl'⟩ := Option.isSome_iff_exists.1 hsome
  have hname := List.find?_some (p := fun k : ClassLayout => k.name == l.name) hl'
  exact ⟨l', hl', List.mem_reverse.1 (List.mem_of_find?_eq_some hl'), beq_iff_eq.1 hname⟩

theorem find?_eq_none {layouts : List ClassLayout} {x : Name} (h : x ∉ layouts.map name) :
    find? layouts x = none := by
  rw [find?, List.find?_eq_none]
  intro l hl heq
  exact h (List.mem_map.2 ⟨l, List.mem_reverse.1 hl, beq_iff_eq.1 heq⟩)

@[simp] theorem name_addMethod (l : ClassLayout) (m : Method) : (l.addMethod m).name = l.name := by
  unfold addMethod
  split_ifs <;> rfl

@[simp] theorem tag_addMethod (l : ClassLayout) (m : Method) : (l.addMethod m).tag = l.tag := by
  unfold addMethod
  split_ifs <;> rfl

@[simp] theorem attrs_addMethod (l : ClassLayout) (m : Method) :
    (l.addMethod m).attrs = l.attrs := by
  unfold addMethod
  split_ifs <;> rfl

/-- An overriding method takes a place that is there, a new one comes at the end. -/
theorem methodNames_addMethod_eq (l : ClassLayout) (m : Method) : (l.addMethod m).methodNames =
    if m.name ∈ l.methodNames then l.methodNames else l.methodNames ++ [m.name] := by
  have hany : l.methods.any (·.name == m.name) = true ↔ m.name ∈ l.methodNames := by
    simp [methodNames]
  unfold addMethod
  split_ifs with h h' h'
  · show (l.methods.map fun old => if old.name == m.name then m else old).map Method.name = _
    rw [List.map_map]
    refine List.map_congr_left fun old _ => ?_
    rw [Function.comp_apply]
    split_ifs with heq
    · exact (beq_iff_eq.1 heq).symm
    · rfl
  · exact absurd (hany.1 h) h'
  · exact absurd (hany.2 h') h
  · simp [methodNames]

theorem methodNames_addMethod (l : ClassLayout) (m : Method) (x : Name) :
    x ∈ (l.addMethod m).methodNames ↔ x ∈ l.methodNames ∨ x = m.name := by
  rw [methodNames_addMethod_eq]
  split_ifs with h
  · exact ⟨.inl, fun hx => hx.elim id fun hx => hx ▸ h⟩
  · simp

theorem mem_addMethod {l : ClassLayout} {m m' : Method} (h : m' ∈ (l.addMethod m).methods) :
    m' ∈ l.methods ∨ m' = m := by
  unfold addMethod at h
  split_ifs at h
  · obtain ⟨old, hold, heq⟩ := List.mem_map.1 h
    split_ifs at heq
    · exact .inr heq.symm
    · exact .inl (heq ▸ hold)
  · simpa using h

theorem find?_override (m : Method) (x : Name) : ∀ ms : List Method,
    (ms.map fun old => if old.name == m.name then m else old).find? (·.name == x) =
      if x = m.name then (ms.find? (·.name == x)).map fun _ => m else ms.find? (·.name == x)
  | [] => by simp
  | old :: ms => by
    rw [List.map_cons, List.find?_cons, List.find?_cons, find?_override m x ms]
    by_cases hold : old.name = m.name
    · by_cases hx : x = m.name
      · simp [hold, hx]
      · have hne : (m.name == x) = false := beq_eq_false_iff_ne.2 (Ne.symm hx)
        simp [hold, hx, hne]
    · by_cases hx : x = m.name
      · have hne : (old.name == m.name) = false := beq_eq_false_iff_ne.2 hold
        simp [hx, hne]
      · simp [hold, hx]

theorem slot?_addMethod (l : ClassLayout) (m : Method) (x : Name) :
    (l.addMethod m).slot? x = if x = m.name then some m.label else l.slot? x := by
  unfold addMethod slot?
  split_ifs with hany hx hx
  · have hsome : (l.methods.find? (·.name == x)).isSome := by
      rw [List.find?_isSome, hx]
      exact List.any_eq_true.1 hany
    obtain ⟨old, hold⟩ := Option.isSome_iff_exists.1 hsome
    rw [find?_override, if_pos hx, hold]
    rfl
  · rw [find?_override, if_neg hx]
  · have hnone : l.methods.find? (·.name == x) = none := by
      rw [List.find?_eq_none]
      intro old hold heq
      exact hany (List.any_eq_true.2 ⟨old, hold, hx ▸ heq⟩)
    rw [List.find?_append, hnone, hx]
    simp
  · have hne : (m.name == x) = false := beq_eq_false_iff_ne.2 (Ne.symm hx)
    simp [List.find?_append, hne]

/-! ### The members of one class -/

/-- The attribute that a member adds. -/
def memberAttr? : Member → Option Attribute
  | .attr d => some ⟨d.name, d.ty, d.value.value⟩
  | .method _ => none

theorem mem_memberAttrs {ms : List Member} {a : Attribute} :
    a ∈ ms.filterMap memberAttr? ↔ ∃ d, .attr d ∈ ms ∧ a = ⟨d.name, d.ty, d.value.value⟩ := by
  rw [List.mem_filterMap]
  constructor
  · rintro ⟨m, hm, ha⟩
    cases m with
    | attr d => exact ⟨d, hm, (Option.some.inj ha).symm⟩
    | method f => cases ha
  · rintro ⟨d, hd, rfl⟩
    exact ⟨_, hd, rfl⟩

/-- What the members of a class add to a layout. -/
structure Extends (ms : List Member) (l l' : ClassLayout) : Prop where
  name : l'.name = l.name
  tag : l'.tag = l.tag
  attrs : l'.attrs = l.attrs ++ ms.filterMap memberAttr?
  methodNames : ∀ x, x ∈ l'.methodNames ↔ x ∈ l.methodNames ∨ ∃ f, .method f ∈ ms ∧ f.name = x
  methods : ∀ m ∈ l'.methods, m ∈ l.methods ∨
    ∃ f, .method f ∈ ms ∧ m.label = txt "$" ++ l.name ++ txt "." ++ f.name
  methods_kept : l.methodNames <+: l'.methodNames
  own : ∀ f, .method f ∈ ms → l'.slot? f.name = some (txt "$" ++ l.name ++ txt "." ++ f.name)
  inherited : ∀ x, (∀ f, .method f ∈ ms → f.name ≠ x) → l'.slot? x = l.slot? x

theorem Extends.attrs_kept {ms : List Member} {l l' : ClassLayout} (h : Extends ms l l') :
    l.attrNames <+: l'.attrNames := by
  rw [ClassLayout.attrNames, ClassLayout.attrNames, h.attrs, List.map_append]
  exact List.prefix_append _ _

theorem Extends.attrNames {ms : List Member} {l l' : ClassLayout} (h : Extends ms l l') (x : Name) :
    x ∈ l'.attrNames ↔ x ∈ l.attrNames ∨ ∃ d, .attr d ∈ ms ∧ d.name = x := by
  rw [ClassLayout.attrNames, ClassLayout.attrNames, h.attrs, List.map_append, List.mem_append]
  refine or_congr_right ⟨fun hx => ?_, fun hx => ?_⟩
  · obtain ⟨a, ha, rfl⟩ := List.mem_map.1 hx
    obtain ⟨d, hd, rfl⟩ := mem_memberAttrs.1 ha
    exact ⟨d, hd, rfl⟩
  · obtain ⟨d, hd, rfl⟩ := hx
    exact List.mem_map.2 ⟨_, mem_memberAttrs.2 ⟨d, hd, rfl⟩, rfl⟩

theorem addMember_ok {scope : Scope} {l : ClassLayout} {m : Member}
    (h : ∀ d, m = .attr d → scope.entries.get? d.name = some (.value d.ty)) :
    ∃ l', addMember scope l m = .ok l' ∧ Extends [m] l l' := by
  cases m with
  | attr d =>
    have hget : scope.entries.lookup d.name = some (.value d.ty) := h d rfl
    refine ⟨l.addAttr ⟨d.name, d.ty, d.value.value⟩, by rw [addMember, hget], rfl, rfl, rfl,
      fun x => ?_, fun m hm => .inl hm, List.prefix_refl _, by simp, fun _ _ => rfl⟩
    simp [ClassLayout.methodNames, addAttr]
  | method f =>
    refine ⟨l.addMethod ⟨f.name, txt "$" ++ l.name ++ txt "." ++ f.name⟩, rfl,
      name_addMethod .., tag_addMethod .., ?_, fun x => ?_, fun m hm => ?_, ?_, fun g hg => ?_,
      fun x hx => ?_⟩
    · rw [attrs_addMethod]
      exact (List.append_nil _).symm
    · rw [methodNames_addMethod]
      simp [eq_comm]
    · refine (mem_addMethod hm).imp id ?_
      rintro rfl
      exact ⟨f, List.mem_singleton_self _, rfl⟩
    · rw [methodNames_addMethod_eq]
      split_ifs
      · exact List.prefix_refl _
      · exact List.prefix_append _ _
    · cases List.mem_singleton.1 hg
      rw [slot?_addMethod, if_pos rfl]
    · rw [slot?_addMethod, if_neg (Ne.symm (hx f (List.mem_singleton_self _)))]

theorem Extends.trans {ms ms' : List Member} {l l' l'' : ClassLayout} (h : Extends ms l l')
    (h' : Extends ms' l' l'') : Extends (ms ++ ms') l l'' := by
  refine ⟨h'.name.trans h.name, h'.tag.trans h.tag, ?_, fun x => ?_, fun m hm => ?_,
    h.methods_kept.trans h'.methods_kept, fun f hf => ?_, fun x hx => ?_⟩
  · rw [h'.attrs, h.attrs, List.filterMap_append, List.append_assoc]
  · rw [h'.methodNames, h.methodNames]
    simp only [List.mem_append]
    constructor
    · rintro ((hx | ⟨f, hf, rfl⟩) | ⟨f, hf, rfl⟩)
      exacts [.inl hx, .inr ⟨f, .inl hf, rfl⟩, .inr ⟨f, .inr hf, rfl⟩]
    · rintro (hx | ⟨f, hf | hf, rfl⟩)
      exacts [.inl (.inl hx), .inl (.inr ⟨f, hf, rfl⟩), .inr ⟨f, hf, rfl⟩]
  · rcases h'.methods m hm with hm | ⟨f, hf, hlabel⟩
    · refine (h.methods m hm).imp id ?_
      rintro ⟨f, hf, hlabel⟩
      exact ⟨f, List.mem_append_left _ hf, hlabel⟩
    · exact .inr ⟨f, List.mem_append_right _ hf, by rw [hlabel, h.name]⟩
  · -- a later method of the same name has the same label
    by_cases hlater : ∃ g, .method g ∈ ms' ∧ g.name = f.name
    · obtain ⟨g, hg, hname⟩ := hlater
      rw [← hname, h'.own g hg, h.name]
    · rw [h'.inherited f.name fun g hg hname => hlater ⟨g, hg, hname⟩]
      refine h.own f ((List.mem_append.1 hf).resolve_right fun hf' => hlater ⟨f, hf', rfl⟩)
  · rw [h'.inherited x fun f hf => hx f (List.mem_append_right _ hf),
      h.inherited x fun f hf => hx f (List.mem_append_left _ hf)]

theorem foldlM_addMember_ok {scope : Scope} : ∀ {ms : List Member} {l : ClassLayout},
    (∀ d, .attr d ∈ ms → scope.entries.get? d.name = some (.value d.ty)) →
    ∃ l', ms.foldlM (addMember scope) l = .ok l' ∧ Extends ms l l'
  | [], l, _ => ⟨l, rfl, rfl, rfl, (List.append_nil _).symm, by simp, fun m hm => .inl hm,
      List.prefix_refl _, by simp, fun _ _ => rfl⟩
  | m :: ms, l, h => by
    obtain ⟨l₁, hm, hext⟩ := addMember_ok (l := l) fun d hd => h d (hd ▸ List.mem_cons_self ..)
    obtain ⟨l₂, hms, hext'⟩ := foldlM_addMember_ok (l := l₁) fun d hd =>
      h d (List.mem_cons_of_mem _ hd)
    exact ⟨l₂, by rw [List.foldlM_cons, hm]; exact hms, hext.trans hext'⟩

end ClassLayout

/-! ### The hierarchy of a program -/

theorem lookup_classes {t : Bindings Entry} (hnd : (t.map Prod.fst).Nodup) (x : Name) :
    (t.filterMap fun (name, entry) => entry.class?.map (name, ·.super?)).lookup x =
      ((t.get? x).bind Entry.class?).map ClassTy.super? := by
  induction t with
  | nil => rfl
  | cons b t ih =>
    obtain ⟨y, e⟩ := b
    obtain ⟨hy, ht⟩ := List.nodup_cons.1 hnd
    have hrest := ih ht
    rw [Bindings.get?_cons, List.filterMap_cons]
    by_cases hx : x = y
    · subst hx
      rw [if_pos rfl]
      cases hc : e.class? with
      | none =>
        have hnone : Bindings.get? t x = none := Bindings.get?_eq_none_iff.2 hy
        rw [hnone] at hrest
        simpa only [hc, Option.map_none, Option.bind_some, Option.bind_none] using hrest
      | some c => simp [hc]
    · rw [if_neg hx, ← hrest]
      cases hc : e.class? with
      | none => simp [hc]
      | some c => simp [hc, List.lookup_cons, beq_eq_false_iff_ne.2 hx]

namespace Program.Declared

/-- The superclass that a class is declared with. -/
theorem super? (h : p.Declared globals) (x : Name) : globals.hierarchy.super? x =
    ((globals.entries.get? x).bind Entry.class?).map ClassTy.super? :=
  lookup_classes h.names_nodup x

theorem get?_class (h : p.Declared globals) {c : ClassDef} (hc : .cls c ∈ p.decls) :
    globals.entries.get? c.name = some c.binding.2 := by
  rw [h.get?_iff]
  simp only [Program.table, List.mem_append, List.mem_map, List.mem_filterMap,
    TopDecl.class?_eq_some, exists_eq_right]
  exact .inl (.inl (.inr ⟨c, hc, rfl⟩))

theorem get?_builtin (h : p.Declared globals) {x : Name} {e : Entry}
    (hx : (x, e) ∈ Scope.builtins.entries) : globals.entries.get? x = some e := by
  rw [h.get?_iff]
  simp only [Program.table, List.mem_append]
  exact .inl (.inl (.inl hx))

/-- The scope of a built-in class is not replaced. -/
theorem child?_builtin (h : p.Declared globals) {x : Name}
    (hx : Scope.builtins.declares x = true) : globals.child? x = Scope.builtins.child? x := by
  refine h.builtin x fun hmem => ?_
  obtain ⟨d, hd, rfl⟩ := List.mem_map.1 hmem
  cases hx.symm.trans (h.fresh d hd)

end Program.Declared

/-- The label of the code of a method. -/
theorem Program.method_label (p : Program) (c : ClassDef) (f : FuncDef) :
    (p.topSite [c.name, f.name] (some c.name) f).frame.label =
      txt "$" ++ c.name ++ txt "." ++ f.name := by
  rw [Frame.label_eq (by simp [topSite, Frame.ofFunc])]
  simp [marked, dotted_cons_cons, dotted_singleton, txt, dollar, dot, Program.topSite, Frame.ofFunc]

namespace ClassLayout

/-- Every attribute and method of the classes from a class upwards has a place in the layout. -/
def Covers (globals : Scope) (l : ClassLayout) : Prop :=
  ∀ n, ∀ k ∈ globals.hierarchy.ascend n l.name, ∀ scope, globals.child? k = some scope →
    ∀ x e, scope.entries.get? x = some e →
      (∀ t, e = .value t → x ∈ l.attrNames) ∧ ∀ f, e = .func f → x ∈ l.methodNames

/-- What code generation relies on in a layout. -/
structure Sound (globals : Scope) (p : Program) (l : ClassLayout) : Prop where
  covers : l.Covers globals
  tag : -2147483648 ≤ l.tag ∧ l.tag ≤ 2147483647
  attrs : ∀ a ∈ l.attrs, ValidName a.name ∧ a.value.Valid
  methods : ∀ m ∈ l.methods,
    m.label = txt "$object.__init__" ∨ ∃ t ∈ p.frames, m.label = t.frame.label

theorem exists_of_member? {cls x : Name} {e : Entry} (h : globals.member? cls x = some e) :
    ∃ k ∈ globals.hierarchy.ascend (globals.hierarchy.classes.length + 1) cls,
      ∃ scope, globals.child? k = some scope ∧ scope.entries.get? x = some e := by
  obtain ⟨table, htable, hget⟩ := List.exists_of_findSome?_eq_some h
  obtain ⟨k, hk, hscope⟩ := List.mem_filterMap.1 htable
  obtain ⟨scope, hchild, rfl⟩ := Option.map_eq_some_iff.1 hscope
  refine ⟨k, ?_, scope, hchild, hget⟩
  unfold Hierarchy.lineage Hierarchy.ancestors at hk
  split_ifs at hk
  · cases hk
  · rw [Hierarchy.ascend] at hk ⊢
    exact hk

theorem Covers.attr {l : ClassLayout} (h : l.Covers globals) {x : Name} {t : Ty}
    (hx : globals.member? l.name x = some (.value t)) : x ∈ l.attrNames := by
  obtain ⟨k, hk, scope, hscope, hget⟩ := exists_of_member? hx
  exact (h _ k hk scope hscope x _ hget).1 t rfl

theorem Covers.method {l : ClassLayout} (h : l.Covers globals) {x : Name} {f : FuncTy}
    (hx : globals.member? l.name x = some (.func f)) : x ∈ l.methodNames := by
  obtain ⟨k, hk, scope, hscope, hget⟩ := exists_of_member? hx
  exact (h _ k hk scope hscope x _ hget).2 f rfl

/-- The layout of a subclass covers what that of its superclass covers and its own members. -/
theorem Covers.extend {l super : ClassLayout} (h : super.Covers globals)
    (hsuper : globals.hierarchy.super? l.name = some (some super.name))
    (hattrs : ∀ x ∈ super.attrNames, x ∈ l.attrNames)
    (hmethods : ∀ x ∈ super.methodNames, x ∈ l.methodNames)
    (hown : ∀ scope, globals.child? l.name = some scope → ∀ x e, scope.entries.get? x = some e →
      (∀ t, e = .value t → x ∈ l.attrNames) ∧ ∀ f, e = .func f → x ∈ l.methodNames) :
    l.Covers globals := by
  intro n k hk scope hscope x e hget
  cases n with
  | zero => cases hk
  | succ n =>
    rw [Hierarchy.ascend, hsuper] at hk
    rcases List.mem_cons.1 hk with rfl | hk
    · exact hown scope hscope x e hget
    · obtain ⟨hvalue, hfunc⟩ := h n k hk scope hscope x e hget
      exact ⟨fun t ht => hattrs x (hvalue t ht), fun f hf => hmethods x (hfunc f hf)⟩

/-! ### Built-in classes -/

theorem covers_object (hp : p.Declared globals) : object.Covers globals := by
  intro n k hk scope hscope x e hget
  have hsuper : globals.hierarchy.super? object.name = some none := by
    rw [hp.super?, hp.get?_builtin (e := .cls ⟨txt "object", none, false⟩) (by decide)]
    rfl
  have hk' : k = object.name := by
    cases n with
    | zero => cases hk
    | succ n =>
      rw [Hierarchy.ascend, hsuper] at hk
      exact List.mem_singleton.1 hk
  rw [hk', hp.child?_builtin (by decide)] at hscope
  cases hscope
  have hmem := Bindings.mem_of_get? hget
  have hentries : (x, e) ∈ [(initName, Entry.func ⟨[.object], .noneType⟩)] := hmem
  cases List.mem_singleton.1 hentries
  exact ⟨by simp, fun _ _ => by decide⟩

/-- The built-in classes below `object` have no members of their own. -/
theorem covers_special (hp : p.Declared globals) {l : ClassLayout}
    (hattrs : l.attrs = object.attrs) (hmethods : l.methods = object.methods)
    (hget : (l.name, .cls ⟨l.name, some (txt "object"), true⟩) ∈ Scope.builtins.entries)
    (hchild : Scope.builtins.child? l.name = some .empty) : l.Covers globals := by
  have hdeclared : Scope.builtins.declares l.name = true :=
    Bindings.declares_iff.2 (List.mem_map_of_mem hget)
  refine (covers_object hp).extend ?_ ?_ ?_ fun scope hscope x e hx => ?_
  · rw [hp.super?, hp.get?_builtin hget]
    rfl
  · rw [attrNames, attrNames, hattrs]
    exact fun x hx => hx
  · rw [methodNames, methodNames, hmethods]
    exact fun x hx => hx
  · rw [hp.child?_builtin hdeclared, hchild] at hscope
    cases hscope
    cases hx

theorem builtins_sound (hp : p.Declared globals) : ∀ l ∈ builtins, l.Sound globals p := by
  have hrest : ∀ l : ClassLayout, l.attrs = [] → l.methods = object.methods → 0 ≤ l.tag →
      l.tag ≤ 3 → l.Covers globals → l.Sound globals p := by
    intro l hattrs hmethods htag htag' hcovers
    refine ⟨hcovers, by omega, by simp [hattrs], ?_⟩
    rw [hmethods]
    exact List.forall_mem_singleton.2 (.inl rfl)
  simp only [builtins, List.forall_mem_cons, List.not_mem_nil, false_imp_iff, implies_true, and_true]
  refine ⟨hrest _ rfl rfl (by decide) (by decide) (covers_object hp),
    hrest _ rfl rfl (by decide) (by decide) (covers_special hp rfl rfl ?_ rfl),
    hrest _ rfl rfl (by decide) (by decide) (covers_special hp rfl rfl ?_ rfl),
    hrest _ rfl rfl (by decide) (by decide) (covers_special hp rfl rfl ?_ rfl)⟩
  all_goals decide

/-! ### The classes of a program -/

theorem int32_range (n : Int) : -2147483648 ≤ int32 n ∧ int32 n ≤ 2147483647 := by
  have hlower := Int.le_bmod (x := n) (m := 4294967296) (by decide)
  have hupper := Int.bmod_lt (x := n) (m := 4294967296) (by decide)
  unfold int32
  omega

theorem member_get? (hp : p.Declared globals) {c : ClassDef} (hc : .cls c ∈ p.decls) {x : Name}
    {e : Entry} : (c.scope globals.entries.value?).entries.get? x = some e ↔
      (x, e) = c.binding ∨ ∃ m ∈ c.members, m.binding = (x, e) := by
  obtain ⟨-, hdecl⟩ := hp.cls c hc
  have hnames : (c.members.map Member.binding).map Prod.fst = c.members.map (·.ident.name) := by
    rw [List.map_map]
    exact List.map_congr_left fun m _ => Declarations.Member.binding_name m
  have hnodup : ((c.binding :: c.members.map Member.binding).map Prod.fst).Nodup := by
    rw [List.map_cons, hnames, List.nodup_cons]
    refine ⟨fun hmem => ?_, hdecl.nodup⟩
    obtain ⟨m, hm, heq⟩ := List.mem_map.1 hmem
    have hnot := hdecl.notClass m hm
    have hname : m.ident.name = c.name := heq
    rw [hname, Bindings.bindsClass, hp.get?_class hc] at hnot
    cases hnot
  refine (Bindings.get?_eq_some_iff hnodup).trans ?_
  rw [List.mem_cons, List.mem_map]

/-- The layout of a class is that of its superclass with the members of the class added. -/
theorem ofClass_extends (hp : p.Declared globals) {layouts : List ClassLayout} {c : ClassDef}
    (tag : Int) (hc : .cls c ∈ p.decls) (hsuper : c.super.name ∈ layouts.map name) :
    ∃ super ∈ layouts, super.name = c.super.name ∧
      ∃ l, ofClass globals layouts tag c = .ok l ∧
        Extends c.members { super with name := c.name, tag } l := by
  obtain ⟨super, hfind, hmem, hname⟩ := find?_ok hsuper
  have hattr : ∀ d, .attr d ∈ c.members →
      (c.scope globals.entries.value?).entries.get? d.name = some (.value d.ty) := fun d hd =>
    (member_get? hp hc).2 (.inr ⟨_, hd, rfl⟩)
  obtain ⟨l, hfold, hext⟩ :=
    foldlM_addMember_ok (l := { super with name := c.name, tag }) hattr
  refine ⟨super, hmem, hname, l, ?_, hext⟩
  rw [ofClass, hfind, (hp.cls c hc).1]
  exact hfold

theorem ofClass_ok (hp : p.Accepted globals) {layouts : List ClassLayout} {tag : Int} {c : ClassDef}
    (hc : .cls c ∈ p.decls) (hsound : ∀ l ∈ layouts, l.Sound globals p)
    (hsuper : c.super.name ∈ layouts.map name)
    (htag : -2147483648 ≤ tag ∧ tag ≤ 2147483647) :
    ∃ l, ofClass globals layouts tag c = .ok l ∧ l.name = c.name ∧ l.Sound globals p := by
  obtain ⟨super, hmem, hname, l, hl, hext⟩ := ofClass_extends hp.declared tag hc hsuper
  have hchild := (hp.declared.cls c hc).1
  have hlname : l.name = c.name := hext.name
  have hvalid : c.Valid := hp.valid.1 _ hc
  refine ⟨l, hl, hlname, ?_, hext.tag ▸ htag, fun a ha => ?_, fun m hm => ?_⟩
  · refine (hsound super hmem).covers.extend ?_ ?_ ?_ fun scope hscope x e hget => ?_
    · rw [hlname, hp.declared.super?, hp.declared.get?_class hc, hname]
      rfl
    · exact fun x hx => (hext.attrNames x).2 (.inl hx)
    · exact fun x hx => (hext.methodNames x).2 (.inl hx)
    · rw [hlname, hchild] at hscope
      cases hscope
      rcases (member_get? hp.declared hc).1 hget with heq | ⟨m, hm, heq⟩
      · cases heq
        exact ⟨by simp, by simp⟩
      · cases m with
        | attr d =>
          cases heq
          exact ⟨fun _ _ => (hext.attrNames _).2 (.inr ⟨d, hm, rfl⟩), by simp⟩
        | method f =>
          cases heq
          exact ⟨by simp, fun _ _ => (hext.methodNames _).2 (.inr ⟨f, hm, rfl⟩)⟩
  · rw [hext.attrs] at ha
    rcases List.mem_append.1 ha with ha | ha
    · exact (hsound super hmem).attrs a ha
    · obtain ⟨d, hd, rfl⟩ := mem_memberAttrs.1 ha
      exact hvalid.2.2 _ hd
  · rcases hext.methods m hm with hm | ⟨f, hf, hlabel⟩
    · exact (hsound super hmem).methods m hm
    · have ht : p.topSite [c.name, f.name] (some c.name) f ∈ p.frames :=
        (Program.mem_frames_iff globals).2 ⟨_, _, .method hc hf⟩
      refine .inr ⟨_, ht, ?_⟩
      rw [hlabel, p.method_label]

/-- With every class that is bound comes its layout. -/
theorem known_bind {table : Bindings Entry} {layouts : List ClassLayout} {c : ClassDef}
    {l : ClassLayout} (hknown : ∀ x cls, table.get? x = some (.cls cls) → x ∈ layouts.map name)
    (hname : l.name = c.name) (x : Name) (cls : ClassTy)
    (hx : Bindings.get? (table ++ [c.binding]) x = some (.cls cls)) :
    x ∈ (layouts ++ [l]).map name := by
  rw [Bindings.get?_append] at hx
  rw [List.map_append, List.mem_append]
  cases hold : table.get? x with
  | some e =>
    rw [hold] at hx
    cases Option.some.inj hx
    exact .inl (hknown x cls hold)
  | none =>
    rw [hold, Option.none_or] at hx
    cases List.mem_singleton.1 (Bindings.mem_of_get? hx)
    exact .inr (by simp [hname])

theorem builtins_known (x : Name) (cls : ClassTy)
    (hx : Scope.builtins.entries.get? x = some (.cls cls)) : x ∈ builtins.map name := by
  have hbuiltin : ∀ b ∈ Scope.builtins.entries, b.2.class?.isSome → b.1 ∈ builtins.map name := by
    decide
  exact hbuiltin _ (Bindings.mem_of_get? hx) rfl

/-- The classes of a program are laid out in order. -/
theorem extend_ok (hp : p.Accepted globals) : ∀ {cs : List ClassDef} {table : Bindings Entry}
    {layouts : List ClassLayout} {tag : Int}, (∀ c ∈ cs, .cls c ∈ p.decls) →
    Declarations.SupersBound table cs →
    (∀ x cls, table.get? x = some (.cls cls) → x ∈ layouts.map name) →
    (∀ l ∈ layouts, l.Sound globals p) → (-2147483648 ≤ tag ∧ tag ≤ 2147483647) →
    ∃ out, extend globals layouts tag cs = .ok out ∧
      out.map name = layouts.map name ++ cs.map ClassDef.name ∧ ∀ l ∈ out, l.Sound globals p
  | [], table, layouts, tag, _, _, _, hsound, _ => ⟨layouts, rfl, by simp, hsound⟩
  | c :: cs, table, layouts, tag, hcs, hsupers, hknown, hsound, htag => by
    obtain ⟨hc, hrest⟩ := List.forall_mem_cons.1 hcs
    obtain ⟨⟨super, hsuper, -⟩, hsupers⟩ := hsupers
    obtain ⟨l, hl, hname, hlsound⟩ := ofClass_ok hp hc hsound (hknown _ _ hsuper) htag
    obtain ⟨out, hout, hnames, hall⟩ := extend_ok hp hrest hsupers (known_bind hknown hname)
      (List.forall_mem_append.2 ⟨hsound, List.forall_mem_singleton.2 hlsound⟩) (int32_range _)
    refine ⟨out, by rw [extend, hl]; exact hout, ?_, hall⟩
    rw [hnames]
    simp [hname]

end ClassLayout

/-- Every class of an accepted program has a layout. -/
theorem Program.Accepted.layouts (hp : p.Accepted globals) :
    ∃ layouts, p.layouts globals = .ok layouts ∧
      layouts.map ClassLayout.name =
        ClassLayout.builtins.map ClassLayout.name ++ p.classes.map ClassDef.name ∧
      ∀ l ∈ layouts, l.Sound globals p := by
  refine ClassLayout.extend_ok hp (fun c hc => ?_) hp.declared.supers ClassLayout.builtins_known
    (ClassLayout.builtins_sound hp.declared) (by decide)
  obtain ⟨d, hd, hdc⟩ := List.mem_filterMap.1 hc
  cases TopDecl.class?_eq_some.1 hdc
  exact hd

end ChocoRv
