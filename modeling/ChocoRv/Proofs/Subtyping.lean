import ChocoRv.Codegen.Program
import ChocoRv.Proofs.Overriding

/-!
# Layouts and subtyping

The layout of a class is that of its superclass with the members of the class added: inherited
names keep their places, new names come after them, and an overriding method only changes the label
in its slot. So every offset of a class holds in the classes below it, and a slot runs the method of
the nearest class that declares it.
-/

namespace ChocoRv

open Asm

variable {globals : Scope} {p : Program}

namespace ClassLayout

/-! ### Places of names -/

theorem attrOffset_eq {l : ClassLayout} {x : Name} {o : Int} : l.attrOffset x = .ok o ↔
    ∃ i, l.attrNames.findIdx? (· == x) = some i ∧ (wordSize * (headerWords + i) : Int) = o := by
  rw [attrOffset, attrNames, List.findIdx?_map]
  cases h : l.attrs.findIdx? (·.name == x) with
  | none => simp [Function.comp_def, h]
  | some i => simp [Function.comp_def, h]

theorem methodOffset_eq {l : ClassLayout} {x : Name} {o : Int} : l.methodOffset x = .ok o ↔
    ∃ i, l.methodNames.findIdx? (· == x) = some i ∧ (wordSize * i : Int) = o := by
  rw [methodOffset, methodNames, List.findIdx?_map]
  cases h : l.methods.findIdx? (·.name == x) with
  | none => simp [Function.comp_def, h]
  | some i => simp [Function.comp_def, h]

theorem mem_of_findIdx? {xs : List Name} {x : Name} {i : Nat}
    (h : xs.findIdx? (· == x) = some i) : xs[i]? = some x := by
  obtain ⟨hi, heq, -⟩ := List.findIdx?_eq_some_iff_getElem.1 h
  rw [List.getElem?_eq_getElem hi, beq_iff_eq.1 heq]

theorem exists_attrOffset {l : ClassLayout} {x : Name} :
    (∃ o, l.attrOffset x = .ok o) ↔ x ∈ l.attrNames := by
  refine ⟨fun ⟨o, ho⟩ => ?_, attrOffset_ok⟩
  obtain ⟨i, hi, -⟩ := attrOffset_eq.1 ho
  exact List.mem_of_getElem? (mem_of_findIdx? hi)

theorem exists_methodOffset {l : ClassLayout} {x : Name} :
    (∃ o, l.methodOffset x = .ok o) ↔ x ∈ l.methodNames := by
  refine ⟨fun ⟨o, ho⟩ => ?_, methodOffset_ok⟩
  obtain ⟨i, hi, -⟩ := methodOffset_eq.1 ho
  exact List.mem_of_getElem? (mem_of_findIdx? hi)

theorem attrOffset_inj {l : ClassLayout} {x y : Name} {o : Int} (hx : l.attrOffset x = .ok o)
    (hy : l.attrOffset y = .ok o) : x = y := by
  obtain ⟨i, hi, hio⟩ := attrOffset_eq.1 hx
  obtain ⟨j, hj, hjo⟩ := attrOffset_eq.1 hy
  obtain rfl : i = j := by
    simp only [wordSize, headerWords] at hio hjo
    omega
  exact Option.some.inj ((mem_of_findIdx? hi).symm.trans (mem_of_findIdx? hj))

theorem methodOffset_inj {l : ClassLayout} {x y : Name} {o : Int} (hx : l.methodOffset x = .ok o)
    (hy : l.methodOffset y = .ok o) : x = y := by
  obtain ⟨i, hi, hio⟩ := methodOffset_eq.1 hx
  obtain ⟨j, hj, hjo⟩ := methodOffset_eq.1 hy
  obtain rfl : i = j := by
    simp only [wordSize] at hio hjo
    omega
  exact Option.some.inj ((mem_of_findIdx? hi).symm.trans (mem_of_findIdx? hj))

theorem findIdx?_of_isPrefix {xs ys : List Name} {x : Name} {i : Nat} (hpre : xs <+: ys)
    (h : xs.findIdx? (· == x) = some i) : ys.findIdx? (· == x) = some i := by
  obtain ⟨more, rfl⟩ := hpre
  rw [List.findIdx?_append, h]
  rfl

theorem attrOffset_of_isPrefix {l l' : ClassLayout} {x : Name} {o : Int}
    (hpre : l.attrNames <+: l'.attrNames) (h : l.attrOffset x = .ok o) :
    l'.attrOffset x = .ok o := by
  obtain ⟨i, hi, hio⟩ := attrOffset_eq.1 h
  exact attrOffset_eq.2 ⟨i, findIdx?_of_isPrefix hpre hi, hio⟩

theorem methodOffset_of_isPrefix {l l' : ClassLayout} {x : Name} {o : Int}
    (hpre : l.methodNames <+: l'.methodNames) (h : l.methodOffset x = .ok o) :
    l'.methodOffset x = .ok o := by
  obtain ⟨i, hi, hio⟩ := methodOffset_eq.1 h
  exact methodOffset_eq.2 ⟨i, findIdx?_of_isPrefix hpre hi, hio⟩

/-! ### Slots -/

/-- The word at the offset of a method, after the label of the dispatch table, is its slot. -/
theorem dispatchTable_slot {l : ClassLayout} {x : Name} {o : Int} (h : l.methodOffset x = .ok o) :
    ∃ (i : Nat) (label : Label), (wordSize * i : Int) = o ∧ l.slot? x = some label ∧
      (Codegen.dispatchTable l)[i + 1]? = some (.wordAddress label []) := by
  obtain ⟨i, hi, hio⟩ := methodOffset_eq.1 h
  rw [methodNames, List.findIdx?_map] at hi
  have hfind : l.methods.findIdx? (·.name == x) = some i := hi
  obtain ⟨hlt, hname, hbefore⟩ := List.findIdx?_eq_some_iff_getElem.1 hfind
  refine ⟨i, l.methods[i].label, hio, ?_, ?_⟩
  · have hget : l.methods.find? (·.name == x) = some l.methods[i] :=
      List.find?_eq_some_iff_getElem.2 ⟨hname, i, hlt, rfl, fun j hj => by simpa using hbefore j hj⟩
    rw [slot?, hget]
    rfl
  · rw [Codegen.dispatchTable, List.getElem?_cons_succ, List.getElem?_map,
      List.getElem?_eq_getElem hlt]
    rfl

/-! ### Layouts of classes and superclasses -/

theorem builtins_names : ∀ l ∈ builtins, l.name = txt "object" ∨ l.name ∈ specialClasses := by
  decide

theorem builtins_bare : ∀ l ∈ builtins, l.attrs = [] ∧ l.methods = object.methods := by
  decide

/-- No layout is touched once it is there. -/
theorem extend_kept : ∀ {cs : List ClassDef} {layouts out : List ClassLayout} {tag : Int},
    extend globals layouts tag cs = .ok out → layouts <+: out
  | [], _, _, _, h => by
    cases h
    exact List.prefix_refl _
  | c :: cs, layouts, out, tag, h => by
    rw [extend] at h
    cases hl : ofClass globals layouts tag c with
    | error e => rw [hl] at h; cases h
    | ok l =>
      rw [hl] at h
      exact (List.prefix_append _ _).trans (extend_kept h)

/-- The layout of a class is made from that of its superclass, which is among those built before,
and is added to them. -/
theorem extend_split (hp : p.Declared globals) : ∀ {before : List ClassDef} {c : ClassDef}
    {after : List ClassDef} {table : Bindings Entry} {layouts out : List ClassLayout} {tag : Int},
    (∀ k ∈ before ++ c :: after, .cls k ∈ p.decls) →
    Declarations.SupersBound table (before ++ c :: after) →
    (∀ x cls, table.get? x = some (.cls cls) → x ∈ layouts.map name) →
    extend globals layouts tag (before ++ c :: after) = .ok out →
    ∃ built l, extend globals layouts tag before = .ok built ∧
      extend globals layouts tag (before ++ [c]) = .ok (built ++ [l]) ∧ built ++ [l] <+: out ∧
      ∃ super ∈ built, super.name = c.super.name ∧
        ∃ tag, Extends c.members { super with name := c.name, tag } l
  | [], c, after, table, layouts, out, tag, hcs, hsupers, hknown, h => by
    obtain ⟨⟨cls, hcls, -⟩, -⟩ := hsupers
    obtain ⟨super, hsuper, hname, l, hl, hext⟩ :=
      ofClass_extends hp tag (hcs c (List.mem_cons_self ..)) (hknown _ _ hcls)
    rw [List.nil_append, extend, hl] at h
    refine ⟨layouts, l, rfl, ?_, extend_kept h, super, hsuper, hname, tag, hext⟩
    rw [List.nil_append, extend, hl]
    rfl
  | b :: before, c, after, table, layouts, out, tag, hcs, hsupers, hknown, h => by
    obtain ⟨hb, hcs⟩ := List.forall_mem_cons.1 hcs
    obtain ⟨⟨cls, hcls, -⟩, hsupers⟩ := hsupers
    obtain ⟨super, -, -, l, hl, hext⟩ := ofClass_extends hp tag hb (hknown _ _ hcls)
    rw [List.cons_append, extend, hl] at h
    obtain ⟨built, l', hbuilt, hadded, hrest⟩ :=
      extend_split hp hcs hsupers (known_bind hknown hext.name) h
    refine ⟨built, l', ?_, ?_, hrest⟩
    · rw [extend, hl]
      exact hbuilt
    · rw [List.cons_append, extend, hl]
      exact hadded

end ClassLayout

namespace Program.Accepted

variable {layouts : List ClassLayout}

theorem layouts_split (hp : p.Accepted globals) (h : p.layouts globals = .ok layouts)
    {before : List ClassDef} {c : ClassDef} {after : List ClassDef}
    (hc : p.classes = before ++ c :: after) : ∃ built l,
      ClassLayout.extend globals ClassLayout.builtins ClassLayout.firstUserTag before = .ok built ∧
      ClassLayout.extend globals ClassLayout.builtins ClassLayout.firstUserTag (before ++ [c]) =
        .ok (built ++ [l]) ∧ built ++ [l] <+: layouts ∧
      ∃ super ∈ built, super.name = c.super.name ∧
        ∃ tag, ClassLayout.Extends c.members { super with name := c.name, tag } l := by
  have hsupers : Declarations.SupersBound Scope.builtins.entries p.classes := hp.declared.supers
  rw [Program.layouts, hc] at h
  rw [hc] at hsupers
  refine ClassLayout.extend_split hp.declared (fun k hk => ?_) hsupers ClassLayout.builtins_known h
  rw [← hc] at hk
  exact Program.Declared.mem_classes.1 hk

/-- The layouts of a program as their construction leaves them. -/
theorem layouts_extend (hp : p.Accepted globals) (h : p.layouts globals = .ok layouts) :
    ClassLayout.builtins <+: layouts ∧ ∀ c, .cls c ∈ p.decls → ∃ super ∈ layouts, ∃ l ∈ layouts,
      ∃ tag, super.name = c.super.name ∧
        ClassLayout.Extends c.members { super with name := c.name, tag } l := by
  refine ⟨ClassLayout.extend_kept h, fun c hc => ?_⟩
  obtain ⟨before, after, hsplit⟩ := List.append_of_mem (Program.Declared.mem_classes.2 hc)
  obtain ⟨built, l, -, -, hkept, super, hsuper, hname, tag, hext⟩ := hp.layouts_split h hsplit
  exact ⟨super, hkept.subset (List.mem_append_left _ hsuper), l, hkept.subset (by simp), tag, hname,
    hext⟩

theorem layouts_names (hp : p.Accepted globals) (h : p.layouts globals = .ok layouts) :
    layouts.map ClassLayout.name =
      ClassLayout.builtins.map ClassLayout.name ++ p.classes.map ClassDef.name := by
  obtain ⟨layouts', h', hnames, -⟩ := hp.layouts
  cases h.symm.trans h'
  exact hnames

theorem layouts_nodup (hp : p.Accepted globals) (h : p.layouts globals = .ok layouts) :
    (layouts.map ClassLayout.name).Nodup := by
  rw [hp.layouts_names h, List.nodup_append]
  refine ⟨by decide, TopDecl.classes_nodup hp.declared.nodup, ?_⟩
  rintro x hx y hy rfl
  obtain ⟨c, hc, rfl⟩ := List.mem_map.1 hy
  have hbuiltin : ∀ x ∈ ClassLayout.builtins.map ClassLayout.name,
      Scope.builtins.declares x = true := by decide
  cases (hbuiltin _ hx).symm.trans (hp.declared.fresh _ (Program.Declared.mem_classes.1 hc))

theorem layout_unique (hp : p.Accepted globals) (h : p.layouts globals = .ok layouts)
    {l l' : ClassLayout} (hl : l ∈ layouts) (hl' : l' ∈ layouts) (hname : l.name = l'.name) :
    l = l' :=
  List.inj_on_of_nodup_map (hp.layouts_nodup h) hl hl' hname

theorem layout_knows (hp : p.Accepted globals) (h : p.layouts globals = .ok layouts)
    {l : ClassLayout} (hl : l ∈ layouts) : globals.hierarchy.knows l.name = true := by
  have hmem : l.name ∈ layouts.map ClassLayout.name := List.mem_map_of_mem hl
  rw [hp.layouts_names h] at hmem
  rcases List.mem_append.1 hmem with hmem | hmem
  · have hbuiltin : ∀ x ∈ ClassLayout.builtins.map ClassLayout.name,
        x = txt "object" ∨ x ∈ specialClasses := by decide
    rcases hbuiltin _ hmem with hx | hx
    · rw [hx]
      exact hp.knows_object
    · exact hp.knows_special hx
  · obtain ⟨c, hc, hname⟩ := List.mem_map.1 hmem
    rw [← hname]
    exact hp.knows_class (Program.Declared.mem_classes.1 hc)

/-- What holds of the built-in layouts and passes to the layouts made from one holds of all. -/
theorem layout_induction (hp : p.Accepted globals) (h : p.layouts globals = .ok layouts)
    {motive : ClassLayout → Prop} (builtin : ∀ l ∈ ClassLayout.builtins, motive l)
    (step : ∀ c super l tag, .cls c ∈ p.decls → super ∈ layouts → l ∈ layouts →
      super.name = c.super.name →
      ClassLayout.Extends c.members { super with name := c.name, tag } l → motive super → motive l)
    {l : ClassLayout} (hl : l ∈ layouts) : motive l := by
  obtain ⟨hkept, hextends⟩ := hp.layouts_extend h
  have hmem : ∀ b ∈ ClassLayout.builtins, b ∈ layouts := fun b hb => hkept.subset hb
  suffices hall : ∀ x, globals.hierarchy.knows x = true → ∀ l ∈ layouts, l.name = x → motive l from
    hall _ (hp.layout_knows h hl) l hl rfl
  intro x hx
  refine hp.class_induction (motive := fun x => ∀ l ∈ layouts, l.name = x → motive l) ?_ ?_ ?_ hx
  · intro l hl hname
    cases hp.layout_unique h hl (hmem _ (List.mem_cons_self ..)) hname
    exact builtin _ (List.mem_cons_self ..)
  · intro y hy l hl hname
    have hbuiltin : ∀ y ∈ specialClasses, ∃ b ∈ ClassLayout.builtins, b.name = y := by decide
    obtain ⟨b, hb, rfl⟩ := hbuiltin y hy
    cases hp.layout_unique h hl (hmem b hb) hname
    exact builtin _ hb
  · intro c hc _ ih l hl hname
    obtain ⟨super, hsuper, l', hl', tag, hsname, hext⟩ := hextends c hc
    cases hp.layout_unique h hl hl' (hname.trans hext.name.symm)
    exact step c super l tag hc hsuper hl hsname hext (ih super hsuper hsname)

theorem member?_builtin (hp : p.Accepted globals) {l : ClassLayout}
    (hl : l ∈ ClassLayout.builtins) (x : Name) : globals.member? l.name x =
      Bindings.get? [(initName, .func ⟨[.object], .noneType⟩)] x := by
  rcases ClassLayout.builtins_names l hl with hname | hname
  · rw [hname, hp.member?_object]
  · rw [hp.member?_special hname, hp.member?_object]

/-- The names of a class keep their places in the classes below it. -/
theorem layout_kept (hp : p.Accepted globals) (h : p.layouts globals = .ok layouts)
    {d c : ClassLayout} (hd : d ∈ layouts) (hc : c ∈ layouts)
    (hanc : d.name ∈ globals.hierarchy.lineage c.name) :
    d.attrNames <+: c.attrNames ∧ d.methodNames <+: c.methodNames := by
  have hself : ∀ l ∈ layouts, d.name = l.name →
      d.attrNames <+: l.attrNames ∧ d.methodNames <+: l.methodNames := by
    intro l hl hname
    cases hp.layout_unique h hd hl hname
    exact ⟨List.prefix_refl _, List.prefix_refl _⟩
  have hmem : ∀ b ∈ ClassLayout.builtins, b ∈ layouts := fun b hb => (hp.layouts_extend h).1.subset hb
  refine hp.layout_induction h (motive := fun c => d.name ∈ globals.hierarchy.lineage c.name →
    d.attrNames <+: c.attrNames ∧ d.methodNames <+: c.methodNames) ?_ ?_ hc hanc
  · intro l hl hanc
    rcases ClassLayout.builtins_names l hl with hname | hname
    · rw [hname, hp.lineage_object, List.mem_singleton, ← hname] at hanc
      exact hself l (hmem l hl) hanc
    · rw [hp.lineage_special hname] at hanc
      rcases List.mem_cons.1 hanc with hanc | hanc
      · exact hself l (hmem l hl) hanc
      · cases hp.layout_unique h hd (hmem .object (List.mem_cons_self ..)) (List.mem_singleton.1 hanc)
        obtain ⟨hattrs, hmethods⟩ := ClassLayout.builtins_bare l hl
        rw [ClassLayout.attrNames, ClassLayout.attrNames, ClassLayout.methodNames,
          ClassLayout.methodNames, hattrs, hmethods]
        exact ⟨List.prefix_refl _, List.prefix_refl _⟩
  · intro c super l tag hc hsuper hl hsname hext ih hanc
    have hname : l.name = c.name := hext.name
    rw [hname, hp.lineage_class hc] at hanc
    rcases List.mem_cons.1 hanc with hd | hd
    · exact hself l hl (hd.trans hname.symm)
    · rw [← hsname] at hd
      obtain ⟨hattrs, hmethods⟩ := ih hd
      exact ⟨hattrs.trans hext.attrs_kept, hmethods.trans hext.methods_kept⟩

/-- The attributes of a layout are the values among the members of the class. -/
theorem mem_attrNames (hp : p.Accepted globals) (hover : p.Overrides globals)
    (h : p.layouts globals = .ok layouts) {l : ClassLayout} (hl : l ∈ layouts) (x : Name) :
    x ∈ l.attrNames ↔ ∃ t, globals.member? l.name x = some (.value t) := by
  refine hp.layout_induction h (motive := fun l => x ∈ l.attrNames ↔
    ∃ t, globals.member? l.name x = some (.value t)) ?_ ?_ hl
  · intro l hl
    rw [hp.member?_builtin hl, ClassLayout.attrNames, (ClassLayout.builtins_bare l hl).1]
    refine iff_of_false List.not_mem_nil ?_
    rintro ⟨t, ht⟩
    cases List.mem_singleton.1 (Bindings.mem_of_get? ht)
  · intro c super l tag hc hsuper hl hsname hext ih
    have hname : l.name = c.name := hext.name
    rw [hext.attrNames, hname]
    show x ∈ super.attrNames ∨ _ ↔ _
    rw [ih, hsname]
    by_cases hown : ∃ m ∈ c.members, m.ident.name = x
    · obtain ⟨m, hm, rfl⟩ := hown
      cases m with
      | attr d => exact iff_of_true (.inr ⟨d, hm, rfl⟩) ⟨d.ty, hp.member?_attr hc hm⟩
      | method f =>
        refine iff_of_false ?_ ?_
        · rintro (⟨t, ht⟩ | ⟨d, hd, hdf⟩)
          · obtain ⟨g, hg, -⟩ := hover.method hc hm ht
            cases hg
          · cases (hp.member?_method hc hm).symm.trans (hdf ▸ hp.member?_attr hc hd)
        · rintro ⟨t, ht⟩
          cases (hp.member?_method hc hm).symm.trans ht
    · have hnone : ¬ ∃ d, .attr d ∈ c.members ∧ d.name = x := by
        rintro ⟨d, hd, hdx⟩
        exact hown ⟨_, hd, hdx⟩
      rw [or_iff_left hnone]
      by_cases hself : x = c.name
      · subst hself
        refine iff_of_false ?_ ?_
        · rintro ⟨t, ht⟩
          rcases hp.notClass_of_member? (hp.knows_super hc) ht (by simp) with heq | hnot
          · cases congrArg Prod.snd heq
          · cases (hp.bindsClass hc).symm.trans hnot
        · rintro ⟨t, ht⟩
          cases (hp.member?_self hc).symm.trans ht
      · rw [hp.member?_inherited hc hself fun m hm hmx => hown ⟨m, hm, hmx⟩]

/-- The methods of a layout are the functions among the members of the class. A class of the name
`__init__` is a member of itself, and then the constructor that it inherits is not. -/
theorem mem_methodNames (hp : p.Accepted globals) (hover : p.Overrides globals)
    (h : p.layouts globals = .ok layouts) {l : ClassLayout} (hl : l ∈ layouts) {x : Name}
    (hx : x = initName → initName ∉ globals.hierarchy.lineage l.name) :
    x ∈ l.methodNames ↔ ∃ f, globals.member? l.name x = some (.func f) := by
  refine hp.layout_induction h (motive := fun l =>
    (x = initName → initName ∉ globals.hierarchy.lineage l.name) →
      (x ∈ l.methodNames ↔ ∃ f, globals.member? l.name x = some (.func f))) ?_ ?_ hl hx
  · intro l hl _
    rw [hp.member?_builtin hl, ClassLayout.methodNames, (ClassLayout.builtins_bare l hl).2]
    show x ∈ [initName] ↔ _
    rw [List.mem_singleton, Bindings.get?_cons]
    split_ifs with hinit
    · exact iff_of_true hinit ⟨_, rfl⟩
    · exact iff_of_false hinit (by simp [Bindings.get?])
  · intro c super l tag hc hsuper hl hsname hext ih hx
    have hname : l.name = c.name := hext.name
    rw [hname, hp.lineage_class hc] at hx
    have hinit : x = initName → initName ∉ globals.hierarchy.lineage super.name := by
      rw [hsname]
      exact fun heq hmem => hx heq (List.mem_cons_of_mem _ hmem)
    rw [hext.methodNames, hname]
    show x ∈ super.methodNames ∨ _ ↔ _
    rw [ih hinit, hsname]
    by_cases hown : ∃ m ∈ c.members, m.ident.name = x
    · obtain ⟨m, hm, rfl⟩ := hown
      cases m with
      | method f => exact iff_of_true (.inr ⟨f, hm, rfl⟩) ⟨f.ty, hp.member?_method hc hm⟩
      | attr d =>
        refine iff_of_false ?_ ?_
        · rintro (⟨g, hg⟩ | ⟨f, hf, hfd⟩)
          · cases (hover.attr hc hm).symm.trans hg
          · cases (hp.member?_attr hc hm).symm.trans (hfd ▸ hp.member?_method hc hf)
        · rintro ⟨g, hg⟩
          cases (hp.member?_attr hc hm).symm.trans hg
    · have hnone : ¬ ∃ f, .method f ∈ c.members ∧ f.name = x := by
        rintro ⟨f, hf, hfx⟩
        exact hown ⟨_, hf, hfx⟩
      rw [or_iff_left hnone]
      by_cases hself : x = c.name
      · subst hself
        refine iff_of_false ?_ ?_
        · rintro ⟨g, hg⟩
          rcases hp.notClass_of_member? (hp.knows_super hc) hg (by simp) with heq | hnot
          · have hname : c.name = initName := congrArg Prod.fst heq
            exact hx hname (hname ▸ List.mem_cons_self ..)
          · cases (hp.bindsClass hc).symm.trans hnot
        · rintro ⟨g, hg⟩
          cases (hp.member?_self hc).symm.trans hg
      · rw [hp.member?_inherited hc hself fun m hm hmx => hown ⟨m, hm, hmx⟩]

end Program.Accepted

/-! ### The code of the nearest class -/

namespace Program

/-- The class `k` declares the method `x` of the signature `ty`, and `label` is the label of its
code. The constructor of `object` is a routine of the runtime. -/
inductive Implements (p : Program) : Name → Name → Label → FuncTy → Prop
  | object : Implements p (txt "object") initName (txt "$object.__init__") ⟨[.object], .noneType⟩
  | method {c : ClassDef} {f : FuncDef} (hc : .cls c ∈ p.decls) (hf : .method f ∈ c.members) :
    Implements p c.name f.name (p.topSite [c.name, f.name] (some c.name) f).frame.label f.ty

/-- Of the classes from `c` upwards the nearest that declares the method `x` has it with this label
and signature. -/
def Provides (globals : Scope) (p : Program) (c x : Name) (label : Label) (ty : FuncTy) : Prop :=
  ∃ below k above, globals.hierarchy.lineage c = below ++ k :: above ∧
    (∀ j ∈ below, ∀ label ty, ¬ p.Implements j x label ty) ∧ p.Implements k x label ty

end Program

namespace Program.Accepted

variable {layouts : List ClassLayout} {x : Name} {label : Label} {ty : FuncTy}

theorem not_implements_special (hp : p.Accepted globals) {k : Name} (hk : k ∈ specialClasses) :
    ¬ p.Implements k x label ty := by
  intro h
  cases h with
  | object => revert hk; decide
  | @method c f hc hf =>
    have hbuiltin : ∀ k ∈ specialClasses, Scope.builtins.declares k = true := by decide
    cases (hbuiltin _ hk).symm.trans (hp.declared.fresh _ hc)

theorem implements_class (hp : p.Accepted globals) {c : ClassDef} (hc : .cls c ∈ p.decls) :
    p.Implements c.name x label ty ↔ ∃ f, .method f ∈ c.members ∧ f.name = x ∧ f.ty = ty ∧
      (p.topSite [c.name, f.name] (some c.name) f).frame.label = label := by
  constructor
  · intro h
    generalize hk : c.name = k at h
    cases h with
    | object =>
      have hfresh := hp.declared.fresh _ hc
      rw [show (TopDecl.cls c).ident.name = c.name from rfl, hk] at hfresh
      have hobject : Scope.builtins.declares (txt "object") = true := by decide
      cases hobject.symm.trans hfresh
    | @method c' f hc' hf =>
      have heq : TopDecl.cls c = .cls c' :=
        List.inj_on_of_nodup_map hp.declared.nodup hc hc' hk
      cases heq
      exact ⟨f, hf, rfl, rfl, rfl⟩
  · rintro ⟨f, hf, rfl, rfl, rfl⟩
    exact .method hc hf

theorem provides_object (hp : p.Accepted globals) : p.Provides globals (txt "object") initName
    (txt "$object.__init__") ⟨[.object], .noneType⟩ :=
  ⟨[], _, [], hp.lineage_object, by simp, .object⟩

theorem provides_special (hp : p.Accepted globals) {k : Name} (hk : k ∈ specialClasses) :
    p.Provides globals k initName (txt "$object.__init__") ⟨[.object], .noneType⟩ := by
  refine ⟨[k], _, [], hp.lineage_special hk, ?_, .object⟩
  intro j hj label ty
  rw [List.mem_singleton.1 hj]
  exact hp.not_implements_special hk

theorem provides_own (hp : p.Accepted globals) {c : ClassDef} (hc : .cls c ∈ p.decls) {f : FuncDef}
    (hf : .method f ∈ c.members) : p.Provides globals c.name f.name
      (p.topSite [c.name, f.name] (some c.name) f).frame.label f.ty :=
  ⟨[], _, _, hp.lineage_class hc, by simp, .method hc hf⟩

theorem provides_inherited (hp : p.Accepted globals) {c : ClassDef} (hc : .cls c ∈ p.decls)
    (hown : ∀ f, .method f ∈ c.members → f.name ≠ x)
    (h : p.Provides globals c.super.name x label ty) : p.Provides globals c.name x label ty := by
  obtain ⟨below, k, above, hlineage, hbelow, hk⟩ := h
  refine ⟨c.name :: below, k, above, by rw [hp.lineage_class hc, hlineage]; rfl, ?_, hk⟩
  refine List.forall_mem_cons.2 ⟨fun label ty himp => ?_, hbelow⟩
  obtain ⟨f, hf, hname, -⟩ := (hp.implements_class hc).1 himp
  exact hown f hf hname

/-- The slot of a method runs the code of the nearest class that declares it. -/
theorem layout_slot (hp : p.Accepted globals) (h : p.layouts globals = .ok layouts)
    {l : ClassLayout} (hl : l ∈ layouts) (hx : x ∈ l.methodNames) :
    ∃ label ty, l.slot? x = some label ∧ p.Provides globals l.name x label ty := by
  refine hp.layout_induction h (motive := fun l => x ∈ l.methodNames →
    ∃ label ty, l.slot? x = some label ∧ p.Provides globals l.name x label ty) ?_ ?_ hl hx
  · intro l hl hx
    have hmethods := (ClassLayout.builtins_bare l hl).2
    rw [ClassLayout.methodNames, hmethods] at hx
    obtain rfl : x = initName := List.mem_singleton.1 hx
    refine ⟨txt "$object.__init__", ⟨[.object], .noneType⟩, ?_, ?_⟩
    · rw [ClassLayout.slot?, hmethods]
      rfl
    · rcases ClassLayout.builtins_names l hl with hname | hname
      · rw [hname]
        exact hp.provides_object
      · exact hp.provides_special hname
  · intro c super l tag hc hsuper hl hsname hext ih hx
    have hname : l.name = c.name := hext.name
    rw [hname]
    by_cases hown : ∃ f, .method f ∈ c.members ∧ f.name = x
    · obtain ⟨f, hf, rfl⟩ := hown
      refine ⟨_, f.ty, hext.own f hf, ?_⟩
      show p.Provides globals c.name f.name (txt "$" ++ c.name ++ txt "." ++ f.name) f.ty
      rw [← p.method_label]
      exact hp.provides_own hc hf
    · have hnone : ∀ f, .method f ∈ c.members → f.name ≠ x := fun f hf hfx => hown ⟨f, hf, hfx⟩
      obtain ⟨label, ty, hslot, hprovides⟩ := ih (((hext.methodNames x).1 hx).resolve_right hown)
      rw [hsname] at hprovides
      exact ⟨label, ty, (hext.inherited x hnone).trans hslot, hp.provides_inherited hc hnone hprovides⟩

end Program.Accepted

/-- Every offset of a class holds in the classes below it, names have places of their own, the
names with places are the members, a slot runs the nearest method, and a layout stays as it was
when those of subclasses are built. A method place is only promised to be a member where no class
of the lineage is called `__init__`: such a class hides the constructor that it inherits. -/
theorem layouts_respect_subtyping {source : Bytes} (h : Accepts source globals p) :
    ∃ layouts, p.layouts globals = .ok layouts ∧
      layouts.map ClassLayout.name =
        ClassLayout.builtins.map ClassLayout.name ++ p.classes.map ClassDef.name ∧
      (∀ d ∈ layouts, ∀ c ∈ layouts,
        globals.hierarchy.isAncestor (.cls d.name) (.cls c.name) = true →
          (∀ x o, d.attrOffset x = .ok o → c.attrOffset x = .ok o) ∧
          ∀ x o, d.methodOffset x = .ok o → c.methodOffset x = .ok o) ∧
      (∀ c ∈ layouts,
        (∀ x y o, c.attrOffset x = .ok o → c.attrOffset y = .ok o → x = y) ∧
        (∀ x y o, c.methodOffset x = .ok o → c.methodOffset y = .ok o → x = y) ∧
        (∀ x, (∃ o, c.attrOffset x = .ok o) ↔ ∃ t, globals.member? c.name x = some (.value t)) ∧
        (∀ x, (x = initName → initName ∉ globals.hierarchy.lineage c.name) →
          ((∃ o, c.methodOffset x = .ok o) ↔ ∃ f, globals.member? c.name x = some (.func f))) ∧
        ∀ x o, c.methodOffset x = .ok o → ∃ (i : Nat) (label : Label) (ty : FuncTy),
          (wordSize * i : Int) = o ∧
          (Codegen.dispatchTable c)[i + 1]? = some (.wordAddress label []) ∧
          p.Provides globals c.name x label ty) ∧
      ∀ before c after, p.classes = before ++ c :: after → ∃ built l,
        ClassLayout.extend globals ClassLayout.builtins ClassLayout.firstUserTag before =
          .ok built ∧
        (∃ super ∈ built, super.name = c.super.name) ∧ l.name = c.name ∧
        ClassLayout.extend globals ClassLayout.builtins ClassLayout.firstUserTag (before ++ [c]) =
          .ok (built ++ [l]) ∧ built ++ [l] <+: layouts := by
  have hp := h.accepted
  have hover := h.overrides
  obtain ⟨layouts, hlayouts, hnames, -⟩ := hp.layouts
  refine ⟨layouts, hlayouts, hnames, fun d hd c hc hanc => ?_, fun c hc => ⟨?_, ?_, ?_, ?_, ?_⟩,
    fun before c after hsplit => ?_⟩
  · rw [Hierarchy.isAncestor_cls (hp.class_ne_nil (hp.layout_knows hlayouts hc))] at hanc
    obtain ⟨hattrs, hmethods⟩ := hp.layout_kept hlayouts hd hc hanc
    exact ⟨fun x o => ClassLayout.attrOffset_of_isPrefix hattrs,
      fun x o => ClassLayout.methodOffset_of_isPrefix hmethods⟩
  · exact fun x y o => ClassLayout.attrOffset_inj
  · exact fun x y o => ClassLayout.methodOffset_inj
  · intro x
    rw [ClassLayout.exists_attrOffset]
    exact hp.mem_attrNames hover hlayouts hc x
  · intro x hx
    rw [ClassLayout.exists_methodOffset]
    exact hp.mem_methodNames hover hlayouts hc hx
  · intro x o ho
    obtain ⟨i, label, hio, hslot, htable⟩ := ClassLayout.dispatchTable_slot ho
    obtain ⟨label', ty, hslot', hprovides⟩ :=
      hp.layout_slot hlayouts hc (ClassLayout.exists_methodOffset.1 ⟨o, ho⟩)
    cases hslot.symm.trans hslot'
    exact ⟨i, label, ty, hio, htable, hprovides⟩
  · obtain ⟨built, l, hbuilt, hadded, hkept, super, hsuper, hname, tag, hext⟩ :=
      hp.layouts_split hlayouts hsplit
    exact ⟨built, l, hbuilt, ⟨super, hsuper, hname⟩, hext.name, hadded, hkept⟩

/-- A class with an attribute and a method, and a subclass that overrides the method. -/
def overriding : Bytes :=
  txt "class A(object):\n  x:int = 1\n  def f(self:A)->int:\n    return 1\n" ++
    txt "class B(A):\n  y:int = 2\n  def f(self:B)->int:\n    return 2\n"

theorem overriding_layouts : ∃ globals p layouts, Accepts overriding globals p ∧
    p.layouts globals = .ok layouts ∧ ∃ d ∈ layouts, ∃ c ∈ layouts,
      d.name = txt "A" ∧ c.name = txt "B" ∧
      d.attrOffset (txt "x") = .ok 12 ∧ c.attrOffset (txt "x") = .ok 12 ∧
      d.methodOffset (txt "f") = .ok 4 ∧ c.methodOffset (txt "f") = .ok 4 := by
  have hrun : (accepted? overriding).any (fun r => (r.2.layouts r.1).toOption.any fun layouts =>
      layouts.any fun d => layouts.any fun c => d.name = txt "A" ∧ c.name = txt "B" ∧
        r.1.hierarchy.isAncestor (.cls d.name) (.cls c.name) = true ∧
        d.attrOffset (txt "x") = .ok 12 ∧ d.methodOffset (txt "f") = .ok 4) = true := by
    decide +kernel
  obtain ⟨⟨globals, p⟩, hr, hlayouts⟩ := (Option.any_eq_true _ _).1 hrun
  obtain ⟨ls, hls, hd⟩ := (Option.any_eq_true _ _).1 hlayouts
  obtain ⟨d, hd, hc⟩ := List.any_eq_true.1 hd
  obtain ⟨c, hc, hprop⟩ := List.any_eq_true.1 hc
  obtain ⟨hdname, hcname, hanc, hattr, hmethod⟩ := of_decide_eq_true hprop
  obtain ⟨layouts, hlayouts, -, hkept, -⟩ :=
    layouts_respect_subtyping (accepts_of_accepted? hr)
  dsimp only at hls hanc
  rw [hlayouts] at hls
  cases hls
  obtain ⟨hattrs, hmethods⟩ := hkept d hd c hc hanc
  exact ⟨globals, p, ls, accepts_of_accepted? hr, hlayouts, d, hd, c, hc, hdname, hcname, hattr,
    hattrs _ _ hattr, hmethod, hmethods _ _ hmethod⟩

/-- In the layout of a class called `__init__` the constructor of `object` has a place, but the
class itself is the member of that name. -/
theorem init_class_has_place : ∃ globals p, Accepts (txt "class __init__(object):\n  pass\n") globals p ∧
    ∃ layouts, p.layouts globals = .ok layouts ∧ ∃ c ∈ layouts,
      (∃ o, c.methodOffset initName = .ok o) ∧
      ¬ ∃ f, globals.member? c.name initName = some (.func f) := by
  have hrun : (accepted? (txt "class __init__(object):\n  pass\n")).any (fun r =>
      (r.2.layouts r.1).toOption.any fun layouts => layouts.any fun c =>
        c.methodOffset initName = .ok 0 ∧
          (r.1.member? c.name initName).bind Entry.func? = none) = true := by
    decide +kernel
  obtain ⟨⟨globals, p⟩, hr, hlayouts⟩ := (Option.any_eq_true _ _).1 hrun
  obtain ⟨layouts, hls, hc⟩ := (Option.any_eq_true _ _).1 hlayouts
  obtain ⟨c, hc, hprop⟩ := List.any_eq_true.1 hc
  obtain ⟨hoffset, hmember⟩ := of_decide_eq_true hprop
  have hok : p.layouts globals = .ok layouts := by
    dsimp only at hls
    cases hl : p.layouts globals with
    | error e => rw [hl] at hls; cases hls
    | ok ls => rw [hl] at hls; cases hls; rfl
  refine ⟨globals, p, accepts_of_accepted? hr, layouts, hok, c, hc, ⟨0, hoffset⟩, ?_⟩
  rintro ⟨f, hf⟩
  dsimp only at hmember
  rw [hf] at hmember
  cases hmember

end ChocoRv
