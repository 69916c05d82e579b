import ChocoRv.Proofs.ClassLayouts

/-!
# Inheritance

The superclasses of a class form a finite line that ends at `object`: a superclass stands before
its subclasses, so the bound on walks along superclasses is never met. What holds of `object` and
passes from a superclass to its subclasses holds of every class, and a lookup of a member goes up
the line, class by class.
-/

namespace ChocoRv

namespace Hierarchy

variable {h : Hierarchy} {x y : Name} {ks : List Name}

/-- The class `x`, its superclass, the superclass of that one and so on up to the root. -/
inductive Line (h : Hierarchy) : Name → List Name → Prop
  | root {x : Name} (hx : h.super? x = some none) : Line h x [x]
  | step {x y : Name} {ks : List Name} (hx : h.super? x = some (some y)) (hy : Line h y ks) :
      Line h x (x :: ks)

theorem Line.ascend (hl : h.Line x ks) (n : Nat) : h.ascend n x = ks.take n := by
  induction hl generalizing n with
  | root hx => cases n <;> simp [Hierarchy.ascend, hx]
  | step hx _ ih => cases n <;> simp [Hierarchy.ascend, hx, ih]

/-- A class has one line. -/
theorem Line.unique {ks' : List Name} (hl : h.Line x ks) (hl' : h.Line x ks') : ks = ks' := by
  induction hl generalizing ks' with
  | root hx =>
    cases hl' with
    | root _ => rfl
    | step hx' _ => cases hx.symm.trans hx'
  | step hx _ ih =>
    cases hl' with
    | root hx' => cases hx.symm.trans hx'
    | step hx' hy =>
      cases hx.symm.trans hx'
      rw [ih hy]

theorem Line.knows (hl : h.Line x ks) : h.knows x = true := by
  cases hl with
  | root hx => rw [Hierarchy.knows, hx]; rfl
  | step hx _ => rw [Hierarchy.knows, hx]; rfl

theorem Line.knows_of_mem {k : Name} (hl : h.Line x ks) (hk : k ∈ ks) : h.knows k = true := by
  induction hl with
  | root hx =>
    rw [List.mem_singleton.1 hk]
    exact (Line.root hx).knows
  | step hx hy ih =>
    rcases List.mem_cons.1 hk with rfl | hk
    · exact (Line.step hx hy).knows
    · exact ih hk

theorem Line.knows_super (hl : h.Line x ks) (hx : h.super? x = some (some y)) : h.knows y = true := by
  cases hl with
  | root hx' => cases hx.symm.trans hx'
  | step hx' hline =>
    cases hx.symm.trans hx'
    exact hline.knows

theorem lineage_of_ne (hx : x ≠ []) : h.lineage x = h.ascend (h.classes.length + 1) x := by
  rw [lineage, if_neg (by simpa using hx), ancestors, Hierarchy.ascend, List.tail_cons]

theorem Line.lineage_eq (hl : h.Line x ks) (hlen : ks.length ≤ h.classes.length + 1)
    (hx : x ≠ []) : h.lineage x = ks := by
  rw [lineage_of_ne hx, hl.ascend, List.take_of_length_le hlen]

theorem isAncestor_cls {d c : Name} (hc : c ≠ []) :
    h.isAncestor (.cls d) (.cls c) = true ↔ d ∈ h.lineage c := by
  simp [isAncestor, lineage, hc, Ty.isPermissive, Ty.name?, Ty.text]

end Hierarchy

/-! ### The line of every class -/

/-- Every class of the table has a line of at most `n` classes, all bound by the table. -/
def Hierarchy.Lined (h : Hierarchy) (table : Bindings Entry) (n : Nat) : Prop :=
  ∀ x cls, (x, .cls cls) ∈ table → ∃ ks, h.Line x ks ∧ ks.length ≤ n ∧ ∀ k ∈ ks, k ∈ table.map Prod.fst

theorem Hierarchy.Lined.bind {h : Hierarchy} {table : Bindings Entry} {n : Nat} {c : ClassDef}
    {super : ClassTy} (hl : h.Lined table n) (hsuper : table.get? c.super.name = some (.cls super))
    (hc : h.super? c.name = some (some c.super.name)) :
    h.Lined (table ++ [c.binding]) (n + 1) := by
  intro x cls hx
  rw [List.map_append]
  rcases List.mem_append.1 hx with hx | hx
  · obtain ⟨ks, hks, hlen, hall⟩ := hl x cls hx
    exact ⟨ks, hks, by omega, fun k hk => List.mem_append_left _ (hall k hk)⟩
  · obtain ⟨rfl, -⟩ := Prod.mk.inj (List.mem_singleton.1 hx)
    obtain ⟨ks, hks, hlen, hall⟩ := hl _ super (Bindings.mem_of_get? hsuper)
    refine ⟨c.name :: ks, .step hc hks, Nat.succ_le_succ hlen, List.forall_mem_cons.2 ⟨?_, ?_⟩⟩
    · exact List.mem_append_right _ (List.mem_singleton_self _)
    · exact fun k hk => List.mem_append_left _ (hall k hk)

/-- The built-in classes that no class may extend. -/
def specialClasses : List Name := [txt "int", txt "bool", txt "str"]

namespace Program.Declared

variable {globals : Scope} {p : Program}

theorem mem_classes {c : ClassDef} : c ∈ p.classes ↔ .cls c ∈ p.decls := by
  simp [Program.classes, TopDecl.class?_eq_some]

theorem get?_cls (h : p.Declared globals) {x : Name} {cls : ClassTy}
    (hx : globals.entries.get? x = some (.cls cls)) :
    (x, .cls cls) ∈ Scope.builtins.entries ∨
      ∃ c, .cls c ∈ p.decls ∧ x = c.name ∧ cls = ⟨c.name, some c.super.name, false⟩ := by
  rw [h.get?_iff] at hx
  simp only [Program.table, List.mem_append, List.mem_map, List.mem_filterMap,
    TopDecl.class?_eq_some, exists_eq_right] at hx
  rcases hx with ((hx | ⟨c, hc, heq⟩) | ⟨v, -, heq⟩) | ⟨f, -, heq⟩
  · exact .inl hx
  · cases heq
    exact .inr ⟨c, hc, rfl, rfl⟩
  · cases heq
  · cases heq

theorem super?_object (h : p.Declared globals) :
    globals.hierarchy.super? (txt "object") = some none := by
  rw [h.super?, h.get?_builtin (e := .cls ⟨txt "object", none, false⟩) (by decide)]
  rfl

theorem super?_special (h : p.Declared globals) {x : Name} (hx : x ∈ specialClasses) :
    globals.hierarchy.super? x = some (some (txt "object")) := by
  have hbuiltin : ∀ x ∈ specialClasses,
      (x, Entry.cls ⟨x, some (txt "object"), true⟩) ∈ Scope.builtins.entries := by decide
  rw [h.super?, h.get?_builtin (hbuiltin x hx)]
  rfl

theorem super?_class (h : p.Declared globals) {c : ClassDef} (hc : .cls c ∈ p.decls) :
    globals.hierarchy.super? c.name = some (some c.super.name) := by
  rw [h.super?, h.get?_class hc]
  rfl

theorem super?_cases (h : p.Declared globals) {x : Name} {super? : Option Name}
    (hx : globals.hierarchy.super? x = some super?) :
    (x = txt "object" ∧ super? = none) ∨ (x ∈ specialClasses ∧ super? = some (txt "object")) ∨
      ∃ c, .cls c ∈ p.decls ∧ x = c.name ∧ super? = some c.super.name := by
  have hbuiltin : ∀ b ∈ Scope.builtins.entries, ∀ cls ∈ b.2.class?,
      (b.1 = txt "object" ∧ cls.super? = none) ∨
        (b.1 ∈ specialClasses ∧ cls.super? = some (txt "object")) := by decide
  rw [h.super?] at hx
  obtain ⟨cls, hcls, rfl⟩ := Option.map_eq_some_iff.1 hx
  obtain ⟨e, he, hecls⟩ := Option.bind_eq_some_iff.1 hcls
  obtain rfl : e = .cls cls := by
    cases e with
    | cls c => cases hecls; rfl
    | value t => cases hecls
    | func f => cases hecls
  rcases h.get?_cls he with hb | ⟨c, hc, rfl, rfl⟩
  · rcases hbuiltin _ hb cls rfl with hobject | hspecial
    · exact .inl hobject
    · exact .inr (.inl hspecial)
  · exact .inr (.inr ⟨c, hc, rfl, rfl⟩)

theorem lined_builtins (h : p.Declared globals) :
    globals.hierarchy.Lined Scope.builtins.entries 2 := by
  have hobject := Hierarchy.Line.root h.super?_object
  intro x cls hx
  have hmem : x ∈ Scope.builtins.entries.map Prod.fst := List.mem_map_of_mem hx
  have hsuper : globals.hierarchy.super? x = some cls.super? := by
    rw [h.super?, h.get?_builtin hx]
    rfl
  rcases h.super?_cases hsuper with ⟨rfl, -⟩ | ⟨hspecial, -⟩ | ⟨c, hc, rfl, -⟩
  · exact ⟨_, hobject, Nat.le_succ 1, by decide⟩
  · refine ⟨_, .step (h.super?_special hspecial) hobject, Nat.le_refl 2, ?_⟩
    exact List.forall_mem_cons.2 ⟨hmem, by decide⟩
  · cases (Bindings.declares_iff.2 hmem).symm.trans (h.fresh _ hc)

theorem length_classes (h : p.Declared globals) :
    globals.hierarchy.classes.length = 4 + p.classes.length := by
  have hnone : ∀ {α : Type} (xs : List α) (b : α → Name × Entry),
      (∀ x ∈ xs, (b x).2.class? = none) →
      (xs.map b).filterMap (fun e => e.2.class?.map (e.1, ·.super?)) = [] := by
    intro α xs b hb
    rw [List.filterMap_eq_nil_iff]
    intro e he
    obtain ⟨x, hx, rfl⟩ := List.mem_map.1 he
    rw [hb x hx]
    rfl
  have hclasses : ∀ cs : List ClassDef,
      ((cs.map ClassDef.binding).filterMap fun e => e.2.class?.map (e.1, ·.super?)).length
        = cs.length := by
    intro cs
    induction cs with
    | nil => rfl
    | cons c cs ih => simp [ClassDef.binding, Entry.class?]
  show (globals.entries.filterMap fun e => e.2.class?.map (e.1, ·.super?)).length = _
  rw [h.entries, Program.table, List.filterMap_append, List.filterMap_append, List.filterMap_append,
    hnone _ VarDef.binding (fun _ _ => rfl), hnone _ FuncDef.binding (fun _ _ => rfl),
    List.append_nil, List.append_nil, List.length_append, hclasses]
  rfl

end Program.Declared

theorem Declarations.SupersBound.lined {h : Hierarchy} : ∀ {cs : List ClassDef}
    {table : Bindings Entry} {n : Nat}, SupersBound table cs →
    (∀ c ∈ cs, h.super? c.name = some (some c.super.name)) → h.Lined table n →
    h.Lined (table ++ cs.map ClassDef.binding) (n + cs.length)
  | [], table, n, _, _, hl => by
    rw [List.map_nil, List.append_nil]
    exact hl
  | c :: cs, table, n, hs, hc, hl => by
    obtain ⟨⟨super, hsuper, -⟩, hs⟩ := hs
    obtain ⟨hc, hcs⟩ := List.forall_mem_cons.1 hc
    have hrest := lined hs hcs (hl.bind hsuper hc)
    rw [List.append_assoc, List.singleton_append] at hrest
    rw [List.map_cons, List.length_cons, Nat.add_comm cs.length, ← Nat.add_assoc]
    exact hrest

namespace Program.Resolved

variable {globals : Scope} {p : Program}

theorem class_ne_nil (hp : p.Resolved globals) {x : Name} (hx : globals.hierarchy.knows x = true) :
    x ≠ [] := by
  obtain ⟨super?, hsuper⟩ := Option.isSome_iff_exists.1 hx
  rcases hp.declared.super?_cases hsuper with ⟨rfl, -⟩ | ⟨hspecial, -⟩ | ⟨c, hc, rfl, -⟩
  · decide
  · rintro rfl
    revert hspecial
    decide
  · have hvalid : c.Valid := hp.valid.1 _ hc
    obtain ⟨b, bs, hname, -⟩ := hvalid.1.spelled
    simp [hname]

/-- The lineage of a class is its line. -/
theorem line (hp : p.Resolved globals) {x : Name} (hx : globals.hierarchy.knows x = true) :
    globals.hierarchy.Line x (globals.hierarchy.lineage x) := by
  have hlined := hp.declared.supers.lined
    (fun c hc => hp.declared.super?_class (Program.Declared.mem_classes.1 hc))
    hp.declared.lined_builtins
  have hmem : ∃ cls, (x, .cls cls) ∈ Scope.builtins.entries ++ p.classes.map ClassDef.binding := by
    obtain ⟨super?, hsuper⟩ := Option.isSome_iff_exists.1 hx
    rcases hp.declared.super?_cases hsuper with ⟨rfl, -⟩ | ⟨hspecial, -⟩ | ⟨c, hc, rfl, -⟩
    · exact ⟨_, List.mem_append_left _ (List.mem_cons_self ..)⟩
    · have hbuiltin : ∀ x ∈ specialClasses,
          (x, Entry.cls ⟨x, some (txt "object"), true⟩) ∈ Scope.builtins.entries := by decide
      exact ⟨_, List.mem_append_left _ (hbuiltin x hspecial)⟩
    · exact ⟨_, List.mem_append_right _
        (List.mem_map_of_mem (Program.Declared.mem_classes.2 hc))⟩
  obtain ⟨cls, hcls⟩ := hmem
  obtain ⟨ks, hks, hlen, -⟩ := hlined x cls hcls
  have hlength : p.classes.length = (p.decls.filterMap TopDecl.class?).length := rfl
  rw [hks.lineage_eq (by rw [hp.declared.length_classes]; omega) (hp.class_ne_nil hx)]
  exact hks

theorem knows_object (hp : p.Resolved globals) : globals.hierarchy.knows (txt "object") = true := by
  rw [Hierarchy.knows, hp.declared.super?_object]
  rfl

theorem knows_special (hp : p.Resolved globals) {x : Name} (hx : x ∈ specialClasses) :
    globals.hierarchy.knows x = true := by
  rw [Hierarchy.knows, hp.declared.super?_special hx]
  rfl

theorem knows_class (hp : p.Resolved globals) {c : ClassDef} (hc : .cls c ∈ p.decls) :
    globals.hierarchy.knows c.name = true := by
  rw [Hierarchy.knows, hp.declared.super?_class hc]
  rfl

/-- What holds of `object` and passes to the classes below a class that has it holds of all. -/
theorem class_induction (hp : p.Resolved globals) {motive : Name → Prop}
    (object : motive (txt "object"))
    (special : ∀ x ∈ specialClasses, motive x)
    (step : ∀ c, .cls c ∈ p.decls → globals.hierarchy.knows c.super.name = true →
      motive c.super.name → motive c.name)
    {x : Name} (hx : globals.hierarchy.knows x = true) : motive x := by
  suffices h : ∀ ks, globals.hierarchy.Line x ks → motive x from h _ (hp.line hx)
  intro ks hks
  induction hks with
  | root hroot =>
    rcases hp.declared.super?_cases hroot with ⟨rfl, -⟩ | ⟨-, h⟩ | ⟨c, -, -, h⟩
    · exact object
    · cases h
    · cases h
  | @step x y ks hstep hline ih =>
    have hy := hline.knows
    rcases hp.declared.super?_cases hstep with ⟨-, h⟩ | ⟨hspecial, -⟩ | ⟨c, hc, rfl, h⟩
    · cases h
    · exact special x hspecial
    · cases h
      exact step c hc hy (ih hy)

theorem knows_super (hp : p.Resolved globals) {c : ClassDef} (hc : .cls c ∈ p.decls) :
    globals.hierarchy.knows c.super.name = true :=
  (hp.line (hp.knows_class hc)).knows_super (hp.declared.super?_class hc)

/-! ### Lineages and members -/

theorem lineage_object (hp : p.Resolved globals) :
    globals.hierarchy.lineage (txt "object") = [txt "object"] :=
  (hp.line hp.knows_object).unique (.root hp.declared.super?_object)

theorem lineage_special (hp : p.Resolved globals) {x : Name} (hx : x ∈ specialClasses) :
    globals.hierarchy.lineage x = [x, txt "object"] :=
  (hp.line (hp.knows_special hx)).unique
    (.step (hp.declared.super?_special hx) (.root hp.declared.super?_object))

theorem lineage_class (hp : p.Resolved globals) {c : ClassDef} (hc : .cls c ∈ p.decls) :
    globals.hierarchy.lineage c.name = c.name :: globals.hierarchy.lineage c.super.name :=
  (hp.line (hp.knows_class hc)).unique
    (.step (hp.declared.super?_class hc) (hp.line (hp.knows_super hc)))

theorem member?_object (hp : p.Resolved globals) (x : Name) :
    globals.member? (txt "object") x =
      Bindings.get? [(initName, .func ⟨[.object], .noneType⟩)] x := by
  have hchild : globals.child? (txt "object") =
      some ⟨[(initName, .func ⟨[.object], .noneType⟩)], []⟩ := by
    rw [hp.declared.child?_builtin (by decide)]
    rfl
  rw [Scope.member?, Scope.memberTables, hp.lineage_object]
  simp [hchild, Env.get?]

theorem member?_special (hp : p.Resolved globals) {y : Name} (hy : y ∈ specialClasses) (x : Name) :
    globals.member? y x = globals.member? (txt "object") x := by
  have hbuiltin : ∀ y ∈ specialClasses, Scope.builtins.declares y = true := by decide
  have hchild : globals.child? y = some .empty := by
    rw [hp.declared.child?_builtin (hbuiltin y hy)]
    simp only [specialClasses, List.mem_cons, List.not_mem_nil, or_false] at hy
    rcases hy with rfl | rfl | rfl <;> rfl
  rw [Scope.member?, Scope.member?, Scope.memberTables, Scope.memberTables, hp.lineage_object,
    hp.lineage_special hy, List.filterMap_cons, hchild]
  rfl

theorem memberTables_class (hp : p.Resolved globals) {c : ClassDef} (hc : .cls c ∈ p.decls) :
    globals.memberTables c.name =
      (c.binding :: c.members.map Member.binding) :: globals.memberTables c.super.name := by
  rw [Scope.memberTables, hp.lineage_class hc, List.filterMap_cons, (hp.declared.cls c hc).1]
  rfl

/-- A member of a class is its own or that of its superclass. -/
theorem member?_class (hp : p.Resolved globals) {c : ClassDef} (hc : .cls c ∈ p.decls) (x : Name) :
    globals.member? c.name x = (Bindings.get? (c.binding :: c.members.map Member.binding) x).or
      (globals.member? c.super.name x) := by
  rw [Scope.member?, hp.memberTables_class hc, Env.get?_cons]
  rfl

theorem member?_binding (hp : p.Resolved globals) {c : ClassDef} (hc : .cls c ∈ p.decls) {x : Name}
    {e : Entry} (h : (x, e) = c.binding ∨ ∃ m ∈ c.members, m.binding = (x, e)) :
    globals.member? c.name x = some e := by
  have hget : Bindings.get? (c.binding :: c.members.map Member.binding) x = some e :=
    (ClassLayout.member_get? hp.declared hc).2 h
  rw [hp.member?_class hc, hget]
  rfl

theorem member?_self (hp : p.Resolved globals) {c : ClassDef} (hc : .cls c ∈ p.decls) :
    globals.member? c.name c.name = some c.binding.2 :=
  hp.member?_binding hc (.inl rfl)

theorem member?_attr (hp : p.Resolved globals) {c : ClassDef} (hc : .cls c ∈ p.decls) {d : VarDef}
    (hd : .attr d ∈ c.members) : globals.member? c.name d.name = some (.value d.ty) :=
  hp.member?_binding hc (.inr ⟨_, hd, rfl⟩)

theorem member?_method (hp : p.Resolved globals) {c : ClassDef} (hc : .cls c ∈ p.decls)
    {f : FuncDef} (hf : .method f ∈ c.members) :
    globals.member? c.name f.name = some (.func f.ty) :=
  hp.member?_binding hc (.inr ⟨_, hf, rfl⟩)

/-- What a class neither declares nor is, it has from its superclass. -/
theorem member?_inherited (hp : p.Resolved globals) {c : ClassDef} (hc : .cls c ∈ p.decls)
    {x : Name} (hself : x ≠ c.name) (hown : ∀ m ∈ c.members, m.ident.name ≠ x) :
    globals.member? c.name x = globals.member? c.super.name x := by
  have hnone : Bindings.get? (c.binding :: c.members.map Member.binding) x = none := by
    rw [Bindings.get?_eq_none_iff, List.map_cons, List.mem_cons, List.map_map]
    rintro (hx | hx)
    · exact hself hx
    · obtain ⟨m, hm, hmx⟩ := List.mem_map.1 hx
      exact hown m hm ((Declarations.Member.binding_name m).symm.trans hmx)
  rw [hp.member?_class hc, hnone, Option.none_or]

theorem bindsClass (hp : p.Resolved globals) {c : ClassDef} (hc : .cls c ∈ p.decls) :
    globals.entries.bindsClass c.name = true := by
  rw [Bindings.bindsClass, hp.declared.get?_class hc]
  rfl

/-- A variable or method that a class knows is the constructor of `object` or is declared in a
class, and then it has the name of no class. -/
theorem notClass_of_member? (hp : p.Resolved globals) {k x : Name} {e : Entry}
    (hk : globals.hierarchy.knows k = true) (h : globals.member? k x = some e)
    (he : ∀ cls, e ≠ .cls cls) : (x, e) = (initName, .func ⟨[.object], .noneType⟩) ∨
      globals.entries.bindsClass x = false := by
  have hobject : globals.member? (txt "object") x = some e →
      (x, e) = (initName, .func ⟨[.object], .noneType⟩) := by
    intro hx
    rw [hp.member?_object] at hx
    exact List.mem_singleton.1 (Bindings.mem_of_get? hx)
  refine hp.class_induction (motive := fun k => globals.member? k x = some e →
    (x, e) = (initName, .func ⟨[.object], .noneType⟩) ∨
      globals.entries.bindsClass x = false) ?_ ?_ ?_ hk h
  · exact fun hx => .inl (hobject hx)
  · intro y hy hx
    rw [hp.member?_special hy] at hx
    exact .inl (hobject hx)
  · intro c hc _ ih hx
    by_cases hself : x = c.name
    · rw [hself, hp.member?_self hc] at hx
      exact absurd (Option.some.inj hx).symm (he _)
    · by_cases hown : ∃ m ∈ c.members, m.ident.name = x
      · obtain ⟨m, hm, rfl⟩ := hown
        exact .inr ((hp.declared.cls c hc).2.notClass m hm)
      · rw [hp.member?_inherited hc hself fun m hm hmx => hown ⟨m, hm, hmx⟩] at hx
        exact ih hx

end Program.Resolved

end ChocoRv
