import ChocoRv.Proofs.Walks
import Mathlib.Logic.Relation

/-!
# The class tree

The passes over the declarations drop, skip and report, and bind one name after the other in the
scope of globals. Whatever is wrong with a program, each of these steps keeps the classes a tree
with `object` at its root: a class is bound only if its name is new and its superclass is there.
-/

namespace ChocoRv

namespace Scope

variable {g g' : Scope} {x y : Name}

/-- One step of the passes over the declarations. -/
inductive Grows : Scope → Scope → Prop
  | value {g : Scope} {x : Name} (t : Ty) (hnew : g.entries.declares x = false) :
      Grows g (g.bind x (.value t))
  | func {g : Scope} {x : Name} (ty : FuncTy) (inner : Scope) (hnew : g.entries.declares x = false) :
      Grows g ((g.bind x (.func ty)).setChild x inner)
  | cls {g : Scope} {x y : Name} {super : ClassTy} (inner : Scope) (hx : x ≠ [])
      (hnew : g.entries.declares x = false) (hsuper : g.entries.get? y = some (.cls super))
      (hspecial : super.special = false) :
      Grows g ((g.bind x (.cls ⟨x, some y, false⟩)).setChild x inner)
  | members {g : Scope} {x : Name} (inner : Scope) : Grows g (g.setChild x inner)

/-- Any number of steps. -/
abbrev Grown : Scope → Scope → Prop := Relation.ReflTransGen Grows

/-- The entries after a step: the same, or a new one at the end, which is that of a value, of a
function, or of a class below a class that can be extended. -/
theorem Grows.entries (h : Grows g g') : g'.entries = g.entries ∨
    ∃ x e, g.entries.declares x = false ∧ g'.entries = g.entries ++ [(x, e)] ∧
      ∀ c, e = .cls c → x ≠ [] ∧ (∃ inner, g'.child? x = some inner) ∧
        ∃ y super, c = ⟨x, some y, false⟩ ∧ g.entries.get? y = some (.cls super) ∧
          super.special = false := by
  have hchild : ∀ (g : Scope) (x : Name) (inner : Scope),
      (g.setChild x inner).child? x = some inner := by
    intro g x inner
    show Bindings.get? (g.children.filter (·.1 != x) ++ [(x, inner)]) x = _
    simp [Bindings.get?_append, Bindings.get?_filter_ne, Bindings.get?_cons]
  cases h with
  | @value x t hnew =>
    exact .inr ⟨x, _, hnew, Bindings.add_of_new _ hnew, fun c hc => nomatch hc⟩
  | @func x ty inner hnew =>
    exact .inr ⟨x, _, hnew, Bindings.add_of_new _ hnew, fun c hc => nomatch hc⟩
  | @cls x y super inner hx hnew hsuper hspecial =>
    refine .inr ⟨x, _, hnew, Bindings.add_of_new _ hnew, fun c hc => ?_⟩
    cases hc
    exact ⟨hx, ⟨inner, hchild _ x inner⟩, y, super, rfl, hsuper, hspecial⟩
  | members inner => exact .inl rfl

theorem Grows.get? (h : Grows g g') {e : Entry} (hx : g.entries.get? x = some e) :
    g'.entries.get? x = some e := by
  obtain heq | ⟨z, e', -, heq, -⟩ := h.entries
  · rw [heq, hx]
  · rw [heq, Bindings.get?_append, hx]
    rfl

/-- The scope of a name may be replaced, but it stays there. -/
theorem Grows.child? (h : Grows g g') (hx : ∃ inner, g.child? x = some inner) :
    ∃ inner, g'.child? x = some inner := by
  have hchild : ∀ (g : Scope) (z : Name) (inner : Scope), (∃ inner, g.child? x = some inner) →
      ∃ inner', (g.setChild z inner).child? x = some inner' := by
    rintro g z inner ⟨old, hold⟩
    show ∃ inner', Bindings.get? (g.children.filter (·.1 != z) ++ [(z, inner)]) x = some inner'
    have hold' : Bindings.get? g.children x = some old := hold
    by_cases hz : x = z
    · simp [Bindings.get?_append, Bindings.get?_filter_ne, Bindings.get?_cons, hz]
    · simp [Bindings.get?_append, Bindings.get?_filter_ne, hz, hold']
  cases h with
  | value t _ => exact hx
  | func ty inner _ => exact hchild _ _ _ hx
  | cls inner _ _ _ _ => exact hchild _ _ _ hx
  | members inner => exact hchild _ _ _ hx

/-! ### The invariant -/

/-- The classes of a table: each has a scope and, but for `object`, a superclass bound to a class
that can be extended; from each the superclasses form a line. -/
structure Classes (g : Scope) : Prop where
  nodup : (g.entries.map Prod.fst).Nodup
  object : g.entries.get? (txt "object") = some (.cls ⟨txt "object", none, false⟩)
  special : ∀ x ∈ specialClasses, g.entries.get? x = some (.cls ⟨x, some (txt "object"), true⟩)
  name : ∀ x c, g.entries.get? x = some (.cls c) → x ≠ []
  super : ∀ x c, g.entries.get? x = some (.cls c) →
    x = txt "object" ∨ ∃ y, c.super? = some y ∧ y ∉ specialClasses
  child : ∀ x c, g.entries.get? x = some (.cls c) → ∃ inner, g.child? x = some inner
  line : ∀ x c, g.entries.get? x = some (.cls c) → ∃ ks, g.hierarchy.Line x ks

theorem Classes.super?_eq (h : g.Classes) (x : Name) : g.hierarchy.super? x =
    ((g.entries.get? x).bind Entry.class?).map ClassTy.super? :=
  lookup_classes h.nodup x

theorem Classes.super?_of_get? (h : g.Classes) {c : ClassTy} (hx : g.entries.get? x = some (.cls c)) :
    g.hierarchy.super? x = some c.super? := by
  rw [h.super?_eq, hx]
  rfl

theorem Classes.get?_of_super? (h : g.Classes) {s : Option Name}
    (hx : g.hierarchy.super? x = some s) :
    ∃ c, g.entries.get? x = some (.cls c) ∧ c.super? = s := by
  rw [h.super?_eq] at hx
  obtain ⟨c, hc, rfl⟩ := Option.map_eq_some_iff.1 hx
  obtain ⟨e, he, hec⟩ := Option.bind_eq_some_iff.1 hc
  cases e with
  | cls d =>
    cases hec
    exact ⟨c, he, rfl⟩
  | value t => cases hec
  | func f => cases hec

theorem Classes.get?_of_knows (h : g.Classes) (hx : g.hierarchy.knows x = true) :
    ∃ c, g.entries.get? x = some (.cls c) := by
  obtain ⟨s, hs⟩ := Option.isSome_iff_exists.1 hx
  obtain ⟨c, hc, -⟩ := h.get?_of_super? hs
  exact ⟨c, hc⟩

theorem classes_builtins : Classes builtins := by
  have hclasses : ∀ b ∈ builtins.entries, ∀ c ∈ b.2.class?, b.1 ≠ [] ∧
      (b.1 = txt "object" ∨ ∃ y ∈ c.super?, y ∉ specialClasses) ∧
      (builtins.child? b.1).isSome = true := by
    decide
  have hfind : ∀ x c, builtins.entries.get? x = some (.cls c) → x ≠ [] ∧
      (x = txt "object" ∨ ∃ y ∈ c.super?, y ∉ specialClasses) ∧
      (builtins.child? x).isSome = true :=
    fun x c hx => hclasses _ (Bindings.mem_of_get? hx) c rfl
  have hobject : builtins.hierarchy.Line (txt "object") [txt "object"] := .root (by decide)
  refine ⟨by decide, by decide, by decide, fun x c hx => (hfind x c hx).1,
    fun x c hx => (hfind x c hx).2.1, fun x c hx => Option.isSome_iff_exists.1 (hfind x c hx).2.2,
    fun x c hx => ?_⟩
  have hsuper : ∀ b ∈ builtins.entries, ∀ c ∈ b.2.class?,
      builtins.hierarchy.super? b.1 = some none ∨
        builtins.hierarchy.super? b.1 = some (some (txt "object")) := by decide
  rcases hsuper _ (Bindings.mem_of_get? hx) c rfl with hroot | hstep
  · exact ⟨_, .root hroot⟩
  · exact ⟨_, .step hstep hobject⟩

theorem Grows.nodup (h : Grows g g') (hg : (g.entries.map Prod.fst).Nodup) :
    (g'.entries.map Prod.fst).Nodup := by
  obtain heq | ⟨z, e, hnew, heq, -⟩ := h.entries
  · rw [heq]
    exact hg
  · rw [heq, List.map_append]
    refine List.nodup_append'.2 ⟨hg, List.nodup_singleton _, fun a ha ha' => ?_⟩
    rw [List.mem_singleton.1 ha'] at ha
    exact Bindings.declares_eq_false_iff.1 hnew ha

/-- A class of the new table is one of the old or the one that is bound. -/
theorem Grows.old_or_new (h : Grows g g') {c : ClassTy} (hx : g'.entries.get? x = some (.cls c)) :
    g.entries.get? x = some (.cls c) ∨ x ≠ [] ∧ (∃ inner, g'.child? x = some inner) ∧
      ∃ y super, c = ⟨x, some y, false⟩ ∧ g.entries.get? y = some (.cls super) ∧
        super.special = false := by
  obtain heq | ⟨z, e, hnew, heq, hcls⟩ := h.entries
  · rw [heq] at hx
    exact .inl hx
  · rw [heq, Bindings.get?_append] at hx
    rcases Option.or_eq_some_iff.1 hx with hx | ⟨-, hx⟩
    · exact .inl hx
    · obtain ⟨rfl, rfl⟩ := Prod.mk.inj (List.mem_singleton.1 (Bindings.mem_of_get? hx))
      exact .inr (hcls c rfl)

/-- The superclasses that are known stay as they are. -/
theorem Grows.super? (h : Grows g g') (hg : g.Classes) {s : Option Name}
    (hx : g.hierarchy.super? x = some s) : g'.hierarchy.super? x = some s := by
  obtain ⟨c, hc, rfl⟩ := hg.get?_of_super? hx
  rw [show g'.hierarchy.super? x = _ from lookup_classes (h.nodup hg.nodup) x, h.get? hc]
  rfl

/-- The superclasses of a new class are the one it names and then those of that one. -/
theorem Grows.line (h : Grows g g') (hg : g.Classes) {c : ClassTy}
    (hx : g'.entries.get? x = some (.cls c)) : ∃ ks, g'.hierarchy.Line x ks := by
  have hsuper : ∀ z s, g.hierarchy.super? z = some s → g'.hierarchy.super? z = some s :=
    fun z s hz => h.super? hg hz
  rcases h.old_or_new hx with hold | ⟨-, -, y, super, rfl, hy, -⟩
  · obtain ⟨ks, hks⟩ := hg.line x c hold
    exact ⟨ks, hks.mono hsuper⟩
  · obtain ⟨ks, hks⟩ := hg.line y super hy
    refine ⟨x :: ks, .step ?_ (hks.mono hsuper)⟩
    rw [show g'.hierarchy.super? x = _ from lookup_classes (h.nodup hg.nodup) x, hx]
    rfl

/-- Each step keeps the classes in order. -/
theorem Grows.classes (h : Grows g g') (hg : g.Classes) : g'.Classes where
  nodup := h.nodup hg.nodup
  object := h.get? hg.object
  special x hx := h.get? (hg.special x hx)
  name x c hx := by
    rcases h.old_or_new hx with hold | ⟨hne, -, -⟩
    · exact hg.name x c hold
    · exact hne
  super x c hx := by
    rcases h.old_or_new hx with hold | ⟨-, -, y, super, rfl, hy, hspecial⟩
    · exact hg.super x c hold
    · refine .inr ⟨y, rfl, fun hmem => ?_⟩
      cases hy.symm.trans (hg.special y hmem)
      cases hspecial
  child x c hx := by
    rcases h.old_or_new hx with hold | ⟨-, hinner, -⟩
    · exact h.child? (hg.child x c hold)
    · exact hinner
  line x c hx := h.line hg hx

theorem Grown.classes (h : Grown g g') (hg : g.Classes) : g'.Classes := by
  induction h with
  | refl => exact hg
  | tail _ hstep ih => exact hstep.classes ih

/-- No step replaces a binding. -/
theorem Grown.get? (h : Grown g g') {e : Entry} (hx : g.entries.get? x = some e) :
    g'.entries.get? x = some e := by
  induction h with
  | refl => exact hx
  | tail _ hstep ih => exact hstep.get? ih

/-- The ancestors of a class stay as they are. -/
theorem Grown.line (h : Grown g g') (hg : g.Classes) {ks : List Name}
    (hl : g.hierarchy.Line x ks) : g'.hierarchy.Line x ks := by
  induction h with
  | refl => exact hl
  | @tail g₁ g₂ hrun hstep ih => exact ih.mono fun _ _ hz => hstep.super? (Grown.classes hrun hg) hz

/-- A class that a run binds has its superclass bound before, to what it is bound to at the end. -/
theorem Grown.bound (h : Grown g g') {c : ClassTy} (hx : g'.entries.get? x = some (.cls c))
    (hnew : g.entries.get? x = none) : ∃ g₁ g₂ y super, Grown g g₁ ∧ Grows g₁ g₂ ∧ Grown g₂ g' ∧
      g₁.entries.get? x = none ∧ g₂.entries.get? x = some (.cls c) ∧ c = ⟨x, some y, false⟩ ∧
      g₁.entries.get? y = some (.cls super) ∧ g'.entries.get? y = some (.cls super) := by
  induction h with
  | refl => cases hnew.symm.trans hx
  | @tail g₁ g₂ hrun hstep ih =>
    cases hbefore : g₁.entries.get? x with
    | some e =>
      cases (hstep.get? hbefore).symm.trans hx
      obtain ⟨g₃, g₄, y, super, hrun₁, hbinds, hrun₂, hnone, hsome, hc, hy, hy'⟩ := ih hbefore
      exact ⟨g₃, g₄, y, super, hrun₁, hbinds, hrun₂.tail hstep, hnone, hsome, hc, hy,
        hstep.get? hy'⟩
    | none =>
      rcases hstep.old_or_new hx with hold | ⟨-, -, y, super, hc, hy, -⟩
      · cases hbefore.symm.trans hold
      · exact ⟨g₁, g₂, y, super, hrun, hstep, .refl, hbefore, hx, hc, hy, hstep.get? hy⟩

end Scope

/-! ### The passes take such steps -/

namespace Declarations

open Scope

variable {g g' : Scope}

theorem isNew_value (table : Bindings Entry) (id : Ident) :
    (isNew table id).value = !table.declares id.name := by
  rw [isNew]
  cases table.declares id.name <;> rfl

theorem superClass?_value {id : Ident} {c : ClassTy} (h : (superClass? g id).value = some c) :
    g.entries.get? id.name = some (.cls c) ∧ c.special = false := by
  rw [superClass?] at h
  split at h
  · cases h
  · next d hget =>
    cases hspecial : d.special with
    | true =>
      rw [hspecial] at h
      cases h
    | false =>
      rw [hspecial] at h
      cases h
      exact ⟨hget, hspecial⟩
  · cases h

theorem newClass?_grows {c : ClassDef} (hc : c.name ≠ []) (h : (newClass? g c).value = some g') :
    Grows g g' := by
  rw [newClass?, Reporting.value_bind] at h
  cases hsuper : (superClass? g c.super).value with
  | none =>
    rw [hsuper] at h
    cases h
  | some super =>
    obtain ⟨hget, hspecial⟩ := superClass?_value hsuper
    simp only [hsuper, Reporting.value_bind, isNew_value] at h
    cases hnew : g.entries.declares c.ident.name with
    | true =>
      rw [hnew] at h
      cases h
    | false =>
      rw [hnew] at h
      cases h
      exact .cls _ hc hnew hget hspecial

theorem classes_grown : ∀ {cs : List ClassDef} (g : Scope), (∀ c ∈ cs, c.name ≠ []) →
    Grown g (classes g cs).value.1
  | [], _, _ => .refl
  | c :: cs, g, h => by
    obtain ⟨hc, hcs⟩ := List.forall_mem_cons.1 h
    rw [classes, Reporting.value_bind]
    cases hnew : (newClass? g c).value with
    | none => exact classes_grown g hcs
    | some g' => exact .head (newClass?_grows hc hnew) (classes_grown g' hcs)

theorem globalVars_grown : ∀ (ds : List VarDef) (g : Scope), Grown g (globalVars g ds).value
  | [], _ => .refl
  | d :: ds, g => by
    rw [globalVars, Reporting.value_bind]
    cases (resolve g.entries d.var.typeExpr).value with
    | none => exact globalVars_grown ds g
    | some t =>
      simp only [Reporting.value_bind, isNew_value]
      cases hnew : g.entries.declares d.var.name.name with
      | true => exact globalVars_grown ds g
      | false => exact .head (.value t hnew) (globalVars_grown ds _)

theorem classBodies_grown : ∀ (cs : List ClassDef) (g : Scope), Grown g (classBodies g cs).value
  | [], _ => .refl
  | _ :: cs, _ => .head (.members _) (classBodies_grown cs _)

theorem globalFuncs_grown : ∀ (fs : List FuncDef) (g : Scope), Grown g (globalFuncs g fs).value
  | [], _ => .refl
  | f :: fs, g => by
    simp only [globalFuncs, Reporting.value_bind, isNew_value]
    cases hnew : g.entries.declares f.ident.name with
    | true => exact globalFuncs_grown fs g
    | false => exact .head (.func _ _ hnew) (globalFuncs_grown fs _)

end Declarations

open Scope Declarations

theorem Declarations.mem_of_mem_kept {α : Type} {xs : List α} {flags : List Bool} {x : α}
    (h : x ∈ kept xs flags) : x ∈ xs := by
  obtain ⟨⟨y, flag⟩, hmem, heq⟩ := List.mem_filterMap.1 h
  cases flag with
  | false => cases heq
  | true =>
    cases heq
    exact (List.of_mem_zip hmem).1

theorem Program.Valid.kept_classes {p : Program} (h : p.Valid) (flags : List Bool) :
    ∀ c ∈ (kept p.decls flags).filterMap TopDecl.class?, ValidName c.name := by
  intro c hc
  obtain ⟨d, hd, hdc⟩ := List.mem_filterMap.1 hc
  rw [TopDecl.class?_eq_some.1 hdc] at hd
  exact (h.1 (.cls c) (mem_of_mem_kept hd)).1

theorem Program.declare_grown {p : Program} (h : p.Valid) : Grown Scope.builtins p.declare.value := by
  have hnames : ∀ flags, ∀ c ∈ (kept p.decls flags).filterMap TopDecl.class?, c.name ≠ [] := by
    intro flags c hc
    obtain ⟨b, bs, hname, -⟩ := (h.kept_classes flags c hc).spelled
    simp [hname]
  rw [Program.declare]
  simp only [Reporting.value_bind]
  exact (((classes_grown _ (hnames _)).trans (globalVars_grown _ _)).trans
    (classBodies_grown _ _)).trans (globalFuncs_grown _ _)

theorem Program.declare_classes {p : Program} (h : p.Valid) : p.declare.value.Classes :=
  (declare_grown h).classes Scope.classes_builtins

/-- A class of a program is bound when its superclass is, and the name of the superclass stands for
the same class ever after, with the same ancestors. So the table that the members of the superclass
have at that moment is the one that `memberTables` finds behind those of the class. -/
theorem Program.declare_superclass {p : Program} (h : p.Valid) {x : Name} {c : ClassTy}
    (hx : p.declare.value.entries.get? x = some (.cls c))
    (hnew : Scope.builtins.entries.get? x = none) : ∃ g g' y super ks,
      Grown Scope.builtins g ∧ Grows g g' ∧ Grown g' p.declare.value ∧
      g.entries.get? x = none ∧ g'.entries.get? x = some (.cls c) ∧ c = ⟨x, some y, false⟩ ∧
      g.entries.get? y = some (.cls super) ∧ p.declare.value.entries.get? y = some (.cls super) ∧
      g.hierarchy.Line y ks ∧ p.declare.value.hierarchy.Line y ks := by
  obtain ⟨g, g', y, super, hrun, hstep, hrest, hnone, hsome, hc, hy, hy'⟩ :=
    (declare_grown h).bound hx hnew
  have hg := hrun.classes Scope.classes_builtins
  obtain ⟨ks, hks⟩ := hg.line y super hy
  exact ⟨g, g', y, super, ks, hrun, hstep, hrest, hnone, hsome, hc, hy, hy', hks,
    Grown.line (hrest.head hstep) hg hks⟩

/-! ### The tree -/

namespace Scope.Classes

variable {g : Scope} {x y : Name} {ks : List Name}

theorem rooted (h : g.Classes) : g.hierarchy.Rooted where
  ne_nil x hx := by
    obtain ⟨c, hc⟩ := h.get?_of_knows hx
    exact h.name x c hc
  line x hx := by
    obtain ⟨c, hc⟩ := h.get?_of_knows hx
    exact h.line x c hc

theorem super?_object (h : g.Classes) : g.hierarchy.super? (txt "object") = some none :=
  h.super?_of_get? h.object

theorem eq_object (h : g.Classes) (hx : g.hierarchy.super? x = some none) : x = txt "object" := by
  obtain ⟨c, hc, hsuper⟩ := h.get?_of_super? hx
  rcases h.super x c hc with rfl | ⟨y, hy, -⟩
  · rfl
  · cases hsuper.symm.trans hy

theorem getLast?_line (h : g.Classes) (hl : g.hierarchy.Line x ks) :
    ks.getLast? = some (txt "object") := by
  obtain ⟨root, hlast, hroot⟩ := hl.last
  rw [hlast, h.eq_object hroot]

/-- No special class stands above another. -/
theorem notMem_tail (h : g.Classes) (hl : g.hierarchy.Line x ks) (hy : y ∈ specialClasses) :
    y ∉ ks.tail := by
  induction hl with
  | root _ => exact List.not_mem_nil
  | @step x z ks hx hline ih =>
    obtain ⟨c, hc, hsuper⟩ := h.get?_of_super? hx
    obtain ⟨above, rfl⟩ := hline.head
    have hz : z ∉ specialClasses := by
      rcases h.super x c hc with rfl | ⟨z', hz', hspecial⟩
      · cases hsuper.symm.trans (congrArg ClassTy.super? (Entry.cls.inj (Option.some.inj
          (hc.symm.trans h.object))))
      · cases hsuper.symm.trans hz'
        exact hspecial
    intro hmem
    rcases List.mem_cons.1 hmem with rfl | hmem
    · exact hz hy
    · exact ih hmem

theorem exists_child (h : g.Classes) (hx : g.hierarchy.knows x = true) :
    ∃ inner, g.child? x = some inner := by
  obtain ⟨c, hc⟩ := h.get?_of_knows hx
  exact h.child x c hc

theorem memberTables_line (h : g.Classes) (hl : g.hierarchy.Line x ks) :
    g.memberTables x = ks.filterMap fun k => (g.child? k).map (·.entries) := by
  rw [memberTables, hl.lineage (h.rooted.ne_nil x hl.knows)]

/-- The member table of a class is followed by those of its superclass. -/
theorem memberTables_step (h : g.Classes) (hx : g.hierarchy.super? x = some (some y)) :
    ∃ inner, g.child? x = some inner ∧ g.memberTables x = inner.entries :: g.memberTables y := by
  obtain ⟨ks, hks⟩ := h.rooted.line x (by rw [Hierarchy.knows, hx]; rfl)
  obtain ⟨inner, hinner⟩ := h.exists_child hks.knows
  refine ⟨inner, hinner, ?_⟩
  cases hks with
  | root hroot => cases hx.symm.trans hroot
  | step hstep hline =>
    cases hx.symm.trans hstep
    rw [h.memberTables_line (.step hx hline), h.memberTables_line hline, List.filterMap_cons, hinner]
    rfl

theorem memberTables_object (h : g.Classes) :
    ∃ inner, g.child? (txt "object") = some inner ∧
      g.memberTables (txt "object") = [inner.entries] := by
  have hline := Hierarchy.Line.root h.super?_object
  obtain ⟨inner, hinner⟩ := h.exists_child hline.knows
  refine ⟨inner, hinner, ?_⟩
  rw [h.memberTables_line hline, List.filterMap_cons, hinner]
  rfl

theorem getLast?_memberTables (h : g.Classes) (hl : g.hierarchy.Line x ks) :
    (g.memberTables x).getLast? = (g.child? (txt "object")).map (·.entries) := by
  obtain ⟨root, hroot, hobject⟩ := h.memberTables_object
  induction hl with
  | root hx => rw [h.eq_object hx, hobject, hroot]; rfl
  | step hx _ ih =>
    obtain ⟨inner, -, htables⟩ := h.memberTables_step hx
    rw [htables, List.getLast?_cons, ih, hroot]
    rfl

end Scope.Classes

/-- The classes of a scope form a tree with `object` at its root, and the walks along it end. -/
structure Scope.ClassTree (g : Scope) : Prop where
  /-- From every class the superclasses lead to `object` and repeat no name. -/
  line : ∀ x, g.hierarchy.knows x = true →
    ∃ ks, g.hierarchy.Line x ks ∧ ks.Nodup ∧ ks.getLast? = some (txt "object")
  root : ∀ x, g.hierarchy.super? x = some none ↔ x = txt "object"
  special : ∀ x ks, g.hierarchy.Line x ks → ∀ y ∈ specialClasses, y ∉ ks.tail
  /-- The members of a class are its own and then those of its superclass. -/
  members : ∀ x y, g.hierarchy.super? x = some (some y) →
    ∃ inner, g.child? x = some inner ∧ g.memberTables x = inner.entries :: g.memberTables y
  rootMembers : ∃ inner, g.child? (txt "object") = some inner ∧
    g.memberTables (txt "object") = [inner.entries] ∧
      ∀ x, g.hierarchy.knows x = true → (g.memberTables x).getLast? = some inner.entries
  isAncestor : ∀ a b, g.hierarchy.isAncestor? a b = some (g.hierarchy.isAncestor a b)
  classChain : ∀ x, g.hierarchy.classChain? x =
    some (if g.hierarchy.knows x then some (g.hierarchy.lineage x).reverse else none)
  isCompatible : ∀ a b, g.hierarchy.isCompatible? a b = some (g.hierarchy.isCompatible a b)
  commonAncestor : ∀ a b, g.hierarchy.commonAncestor? a b = some (g.hierarchy.commonAncestor a b)
  refl : ∀ x, g.hierarchy.knows x = true → g.hierarchy.isAncestor (.cls x) (.cls x) = true
  antisymm : ∀ x y, g.hierarchy.knows x = true → g.hierarchy.knows y = true →
    g.hierarchy.isAncestor (.cls y) (.cls x) = true →
      g.hierarchy.isAncestor (.cls x) (.cls y) = true → x = y
  trans : ∀ x y z, g.hierarchy.knows x = true → g.hierarchy.knows y = true →
    g.hierarchy.knows z = true → g.hierarchy.isAncestor (.cls y) (.cls x) = true →
      g.hierarchy.isAncestor (.cls z) (.cls y) = true →
        g.hierarchy.isAncestor (.cls z) (.cls x) = true
  top : ∀ x, g.hierarchy.knows x = true → g.hierarchy.isAncestor .object (.cls x) = true

/-- Whatever is wrong with a program, its classes form a tree. -/
theorem Program.declare_classTree {source : Bytes} {p : Program} (h : parse source = .ok p) :
    p.declare.value.ClassTree := by
  have hclasses := Program.declare_classes (parse_valid h)
  have hrooted := hclasses.rooted
  obtain ⟨inner, hinner, hobject⟩ := hclasses.memberTables_object
  refine
    { line := fun x hx => ?_
      root := fun x => ⟨hclasses.eq_object, fun hx => hx ▸ hclasses.super?_object⟩
      special := fun x ks hl y hy => hclasses.notMem_tail hl hy
      members := fun x y hx => hclasses.memberTables_step hx
      rootMembers := ⟨inner, hinner, hobject, fun x hx => ?_⟩
      isAncestor := hrooted.isAncestor?_eq
      classChain := hrooted.classChain?_eq
      isCompatible := hrooted.isCompatible?_eq
      commonAncestor := hrooted.commonAncestor?_eq
      refl := fun x _ => Hierarchy.isAncestor_refl _ _
      antisymm := fun x y hx hy hxy hyx => hrooted.isAncestor_antisymm hx hy hxy hyx
      trans := fun x y z hx _ _ hxy hyz => hrooted.isAncestor_trans hx hxy hyz
      top := fun x hx => ?_ }
  · obtain ⟨ks, hks⟩ := hrooted.line x hx
    exact ⟨ks, hks, hks.nodup, hclasses.getLast?_line hks⟩
  · obtain ⟨ks, hks⟩ := hrooted.line x hx
    rw [hclasses.getLast?_memberTables hks, hinner]
    rfl
  · have hline := hrooted.lineage hx
    exact (hrooted.isAncestor_iff hx).2 (List.mem_of_getLast? (hclasses.getLast?_line hline))

/-- A superclass that comes later, a repeated name, a special superclass and one that is no class. -/
def misdeclared : Bytes :=
  txt "class A(B):\n  pass\nclass B(object):\n  pass\nclass B(A):\n  pass\n" ++
  txt "class C(int):\n  pass\nclass D(B):\n  x:int = 1\nx:int = 0\nclass E(x):\n  pass\n"

theorem misdeclared_classTree : ∃ p : Program, parse misdeclared = .ok p ∧
    p.declare.diagnostics.length = 4 ∧
    p.declare.value.hierarchy.lineage (txt "D") = [txt "D", txt "B", txt "object"] ∧
    p.declare.value.ClassTree := by
  have hrun : (parse misdeclared).toOption.any (fun p =>
      decide (p.declare.diagnostics.length = 4 ∧
        p.declare.value.hierarchy.lineage (txt "D") = [txt "D", txt "B", txt "object"])) = true := by
    decide +kernel
  obtain ⟨p, hparse, htest⟩ := ok_of_any hrun
  obtain ⟨hdiagnostics, hlineage⟩ := of_decide_eq_true htest
  exact ⟨p, hparse, hdiagnostics, hlineage, Program.declare_classTree hparse⟩

end ChocoRv
