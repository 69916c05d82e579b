import ChocoRv.Proofs.CleanDeclarations
import ChocoRv.Proofs.Reordering

/-!
# Scopes of reordered programs

If a program is declared without a report, so is a reordered one, and the two global scopes tell the
same under every name (`Program.Reordered.declare`). Without a report no name is bound twice, so
what a table tells does not depend on the order of its bindings, and a declaration stays clean when
its own declarations change places. The passes are followed side by side: classes are bound in the
same order, and while the members of a class are bound both runs agree on the classes before it.
-/

namespace ChocoRv

/-! ### Tables -/

namespace Bindings

variable {α : Type}

theorem get?_perm {t t' : Bindings α} (h : t.Perm t') (hnd : (t.map Prod.fst).Nodup) :
    t'.get? = t.get? := by
  have hnd' : (t'.map Prod.fst).Nodup := (h.map Prod.fst).nodup hnd
  funext x
  cases hx : t.get? x with
  | some a => exact (get?_eq_some_iff hnd').2 (h.mem_iff.1 ((get?_eq_some_iff hnd).1 hx))
  | none =>
    rw [get?_eq_none_iff] at hx ⊢
    rwa [← (h.map Prod.fst).mem_iff]

end Bindings

/-! ### Functions -/

namespace FuncDef.Reordered

variable {isClass : Name → Bool} {global outer : Values} {f f' : FuncDef}

theorem bindings_perm (h : f.Reordered f') :
    (f.decls.filterMap (LocalDecl.binding? global outer)).Perm
      (f'.decls.filterMap (LocalDecl.binding? global outer)) :=
  h.decls.filterMap_perm fun _ _ _ => rfl

theorem funcs_perm (h : f.Reordered f') :
    ((f.decls.filterMap LocalDecl.func?).map FuncDef.binding).Perm
      ((f'.decls.filterMap LocalDecl.func?).map FuncDef.binding) := by
  rw [List.map_filterMap, List.map_filterMap]
  exact h.decls.filterMap_perm fun _ _ h => congrArg some h.binding

theorem values_perm (h : f.Reordered f') :
    (f.values global outer).Perm (f'.values global outer) := by
  rw [FuncDef.values, FuncDef.values, h.params, h.ty]
  exact (h.bindings_perm.append_left _).append_right _

theorem get?_table (h : f.Reordered f') (hdeclared : f.Declared isClass global outer)
    (hvalid : f.Valid) : (f'.table global outer).get? = (f.table global outer).get? :=
  Bindings.get?_perm (h.values_perm.append h.funcs_perm) (hdeclared.table_nodup hvalid)

/-- The functions in a function see the same variables, in whatever order it declares them. -/
theorem value?_values (h : f.Reordered f') (hdeclared : f.Declared isClass global outer)
    (hvalid : f.Valid) : (f'.values global outer).value? = (f.values global outer).value? := by
  have hnd := hdeclared.table_nodup hvalid
  rw [FuncDef.table, List.map_append] at hnd
  have hget := Bindings.get?_perm h.values_perm hnd.of_append_left
  funext x
  rw [Bindings.value?, Bindings.value?, hget]

theorem rules (h : f.Reordered f') (hrules : f.Rules isClass global outer) :
    f'.Rules isClass global outer where
  nodup := h.names_perm.nodup hrules.nodup
  notClass x hx := hrules.notClass x (h.names_perm.mem_iff.2 hx)
  bound d' hd' := by
    obtain ⟨d, hd, hreordered⟩ := h.decls.exists_of_mem hd'
    have hbound := hrules.bound d hd
    cases hreordered with
    | refl => exact hbound
    | func h => trivial
  annotations a ha := hrules.annotations a (h.annotations_perm.mem_iff.2 ha)
  assigned id hid := h.names_perm.mem_iff.1 (hrules.assigned id (h.body ▸ hid))
  returns := by
    rw [h.ty, h.body]
    exact hrules.returns

theorem clean (h : f.Reordered f') (hclean : FuncDef.Clean isClass global outer f)
    (hvalid : f.Valid) : FuncDef.Clean isClass global outer f' := by
  induction hclean generalizing f' with
  | @mk outer f rules inner ih =>
    have hdeclared := (FuncDef.Clean.mk rules inner).declared
    refine .mk (h.rules rules) fun g' hg' => ?_
    obtain ⟨g, hg, hreordered⟩ := h.decls.exists_func hg'
    rw [h.value?_values hdeclared hvalid]
    exact ih g hg hreordered (hvalid.decls _ hg)

end FuncDef.Reordered

/-! ### Classes -/

def Member.Clean (isClass : Name → Bool) (global : Values) : Member → Prop
  | .attr d => isClass d.var.typeExpr.className = true
  | .method f => FuncDef.Clean isClass global noOuter f

/-- What the analysis of the declarations asks of a class; `inherited` is what its superclass
knows. -/
structure ClassDef.Clean (isClass : Name → Bool) (global : Values) (inherited : Name → Option Entry)
    (c : ClassDef) : Prop where
  nodup : (c.name :: c.members.map (·.ident.name)).Nodup
  notClass : ∀ m ∈ c.members, isClass m.ident.name = false
  members : ∀ m ∈ c.members, m.Clean isClass global
  overrides : ∀ m ∈ c.members, m.Overrides c.name inherited

section

variable {isClass : Name → Bool} {global : Values} {inherited : Name → Option Entry}

theorem Member.Reordered.clean {m m' : Member} (h : m.Reordered m')
    (hclean : m.Clean isClass global) (hvalid : m.Valid) : m'.Clean isClass global := by
  cases h with
  | attr d => exact hclean
  | method h => exact h.clean hclean hvalid

theorem Member.Reordered.overrides {m m' : Member} (h : m.Reordered m') {cls : Name}
    (hover : m.Overrides cls inherited) : m'.Overrides cls inherited := by
  cases h with
  | attr d => exact hover
  | method h =>
    rw [Member.Overrides, h.ty, h.name]
    exact hover

theorem ClassDef.Reordered.names_perm {c c' : ClassDef} (h : c.Reordered c') :
    (c.members.map (·.ident.name)).Perm (c'.members.map (·.ident.name)) :=
  h.members.map_perm fun _ _ h => by rw [h.ident]

theorem ClassDef.Reordered.clean {c c' : ClassDef} (h : c.Reordered c')
    (hclean : c.Clean isClass global inherited) (hvalid : c.Valid) :
    c'.Clean isClass global inherited where
  nodup := by
    rw [h.name]
    exact (h.names_perm.cons c.name).nodup hclean.nodup
  notClass m' hm' := by
    obtain ⟨m, hm, hreordered⟩ := h.members.exists_of_mem hm'
    rw [hreordered.ident]
    exact hclean.notClass m hm
  members m' hm' := by
    obtain ⟨m, hm, hreordered⟩ := h.members.exists_of_mem hm'
    exact hreordered.clean (hclean.members m hm) (hvalid.2.2 m hm)
  overrides m' hm' := by
    obtain ⟨m, hm, hreordered⟩ := h.members.exists_of_mem hm'
    rw [h.name]
    exact hreordered.overrides (hclean.overrides m hm)

end

namespace Declarations

open Reporting

variable {globals : Bindings Entry} {cls : Name} {inherited : Env}

theorem outerValues_none : outerValues none = noOuter := rfl

theorem member_clean {scope scope' : Scope} {m : Member} (hvalid : m.Valid)
    (h : Yields (member globals cls inherited scope m) scope') :
    m.Clean globals.bindsClass globals.value? := by
  cases m with
  | attr d => exact member_closed hvalid h
  | method f =>
    unfold member at h
    dsimp only at h
    split at h
    · simp at h
    split at h
    · simp at h
    simp only [yields_bind] at h
    obtain ⟨r, hf, -⟩ := h
    exact func_clean hvalid hf

theorem members_clean : ∀ {ms : List Member} {scope scope' : Scope}, (∀ m ∈ ms, m.Valid) →
    Yields (members globals cls inherited scope ms) scope' →
      ∀ m ∈ ms, m.Clean globals.bindsClass globals.value?
  | [], _, _, _, _ => by simp
  | m :: ms, scope, scope', hvalid, h => by
    obtain ⟨hm, hms⟩ := List.forall_mem_cons.1 hvalid
    simp only [members, yields_bind] at h
    obtain ⟨scope₁, hscope₁, h⟩ := h
    exact List.forall_mem_cons.2 ⟨member_clean hm hscope₁, members_clean hms h⟩

theorem class_clean {c : ClassDef} {scope : Scope} (hvalid : c.Valid)
    (h : Yields (members globals c.name inherited ⟨[c.binding], []⟩ c.members) scope) :
    c.Clean globals.bindsClass globals.value? inherited.get? := by
  obtain ⟨hentries, -, hnd, hclass, -⟩ := members_yields hvalid.2.2 (by simp) h
  refine ⟨?_, hclass, members_clean hvalid.2.2 h, members_override hvalid.2.2 h⟩
  have hnd' := hnd (by simp)
  rw [hentries, List.singleton_append, List.map_cons, List.map_map] at hnd'
  simpa [Function.comp_def, Member.binding_name, ClassDef.binding] using hnd'

theorem checkMethod_of_overrides {f : FuncDef} (h : (Member.method f).Overrides cls inherited.get?) :
    Yields (checkMethod cls inherited f.ident f.ty) () := by
  obtain ⟨hhead, hover⟩ := h
  rw [checkMethod, if_neg (not_not.2 hhead)]
  cases hget : inherited.get? f.ident.name with
  | none => exact yields_pure.2 rfl
  | some e =>
    obtain ⟨g, rfl, hsame | ⟨hname, hlength, hlength'⟩⟩ := hover e hget
    · dsimp only
      rw [hsame]
      split
      · exact yields_pure.2 rfl
      · exact yields_pure.2 rfl
    · rw [FuncDef.name] at hname
      simp [hname, hlength, hlength']

theorem member_silent {scope : Scope} {m : Member} (hvalid : m.Valid)
    (hclass : globals.bindsClass m.ident.name = false)
    (hnew : scope.entries.declares m.ident.name = false)
    (hclean : m.Clean globals.bindsClass globals.value?) (hover : m.Overrides cls inherited.get?) :
    Silent (member globals cls inherited scope m) := by
  unfold member
  dsimp only
  rw [if_neg (by simp [hclass]), if_neg (by simp [Scope.declares, hnew])]
  cases m with
  | attr d =>
    have hnone : inherited.get? d.var.name.name = none := hover
    dsimp only
    rw [if_neg (by simp [Member.ident, hnone])]
    exact ⟨_, yields_bind.2 ⟨_, resolve_of_bindsClass hclean, yields_pure.2 rfl⟩⟩
  | method f =>
    obtain ⟨⟨ty, inner⟩, hf⟩ := func_silent hclean hvalid outerValues_none
    obtain ⟨rfl, -⟩ := func_yields hvalid hf
    simp only [Silent, yields_bind]
    exact ⟨_, _, hf, (), checkMethod_of_overrides hover, yields_pure.2 rfl⟩

theorem members_silent : ∀ {ms : List Member} {scope : Scope},
    scope.entries.Takes (ms.map (·.ident.name)) → (∀ m ∈ ms, m.Valid) →
      (∀ m ∈ ms, globals.bindsClass m.ident.name = false) →
      (∀ m ∈ ms, m.Clean globals.bindsClass globals.value?) →
      (∀ m ∈ ms, m.Overrides cls inherited.get?) → Silent (members globals cls inherited scope ms)
  | [], scope, _, _, _, _, _ => ⟨scope, yields_pure.2 rfl⟩
  | m :: ms, scope, htakes, hvalid, hclass, hclean, hover => by
    obtain ⟨hv, hvs⟩ := List.forall_mem_cons.1 hvalid
    obtain ⟨hc, hcs⟩ := List.forall_mem_cons.1 hclass
    obtain ⟨hm, hms⟩ := List.forall_mem_cons.1 hclean
    obtain ⟨ho, hos⟩ := List.forall_mem_cons.1 hover
    obtain ⟨scope₁, hscope₁⟩ := member_silent hv hc htakes.new hm ho
    obtain ⟨-, -, hentries, -⟩ := member_yields hv hscope₁
    have hnext : scope₁.entries.Takes (ms.map (·.ident.name)) := by
      rw [List.map_cons, ← Member.binding_name m] at htakes
      rw [hentries]
      exact htakes.append
    obtain ⟨scope', hscope'⟩ := members_silent hnext hvs hcs hms hos
    exact ⟨scope', by simpa only [members, yields_bind] using ⟨scope₁, hscope₁, hscope'⟩⟩

theorem class_silent {c : ClassDef} (hvalid : c.Valid)
    (h : c.Clean globals.bindsClass globals.value? inherited.get?) :
    Silent (members globals c.name inherited ⟨[c.binding], []⟩ c.members) :=
  members_silent h.nodup hvalid.2.2 h.notClass h.members h.overrides

end Declarations

/-! ### Scopes that tell the same -/

namespace Scope

/-- The scopes have the same classes and find the same under every name, in their own tables and in
those of their children. -/
structure Agrees (s s' : Scope) : Prop where
  get? : s'.entries.get? = s.entries.get?
  hierarchy : s'.hierarchy = s.hierarchy
  child : ∀ x, (s'.child? x).map (·.entries.get?) = (s.child? x).map (·.entries.get?)

namespace Agrees

variable {s s' : Scope}

theorem value? (h : s.Agrees s') : s'.entries.value? = s.entries.value? := by
  funext x
  rw [Bindings.value?, Bindings.value?, h.get?]

theorem bindsClass (h : s.Agrees s') : s'.entries.bindsClass = s.entries.bindsClass := by
  funext x
  rw [Bindings.bindsClass, Bindings.bindsClass, h.get?]

theorem memberTables (h : s.Agrees s') (cls : Name) :
    (s'.memberTables cls).get? = (s.memberTables cls).get? := by
  funext x
  rw [Scope.memberTables, Scope.memberTables, h.hierarchy, Env.get?, Env.get?]
  induction s.hierarchy.lineage cls with
  | nil => rfl
  | cons k ks ih =>
    have hk := h.child k
    cases hchild : s.child? k <;> cases hchild' : s'.child? k <;>
      simp only [hchild, hchild', Option.map_none, Option.map_some, Option.some.injEq,
        reduceCtorEq] at hk
    · simp only [List.filterMap_cons, hchild, hchild', Option.map_none]
      exact ih
    · simp only [List.filterMap_cons, hchild, hchild', Option.map_some, List.findSome?_cons, hk, ih]

theorem setChild (h : s.Agrees s') (x : Name) {t t' : Scope}
    (ht : t'.entries.get? = t.entries.get?) : (s.setChild x t).Agrees (s'.setChild x t') where
  get? := h.get?
  hierarchy := h.hierarchy
  child y := by
    rw [child?_setChild, child?_setChild]
    split
    · rw [Option.map_some, Option.map_some, ht]
    · exact h.child y

end Agrees

end Scope

/-! ### The passes over a reordered program -/

namespace Declarations

open Reporting

theorem newClass?_reordered {g : Scope} {c c' : ClassDef} (h : c.Reordered c') :
    newClass? g c' = newClass? g c := by
  rw [newClass?, newClass?, h.super, h.ident, h.name]

/-- The names of classes are bound without a look at their members. -/
theorem classes_reordered {cs cs' : List ClassDef} (h : List.Forall₂ ClassDef.Reordered cs cs')
    {g t : Scope} {rest : List ClassDef} (hclasses : Yields (classes g cs) (t, rest)) :
    ∃ rest', Yields (classes g cs') (t, rest') := by
  induction h generalizing g rest with
  | nil =>
    simp only [classes, yields_pure, Prod.mk.injEq] at hclasses
    exact ⟨[], by simp [classes, hclasses.1]⟩
  | cons hc _ ih =>
    simp only [classes, yields_bind] at hclasses ⊢
    rw [newClass?_reordered hc]
    obtain ⟨scope?, hnew, hclasses⟩ := hclasses
    cases scope? with
    | none =>
      obtain ⟨rest', h⟩ := ih hclasses
      exact ⟨rest', none, hnew, h⟩
    | some g' =>
      simp only [yields_bind, yields_pure] at hclasses
      obtain ⟨⟨t', rest₁⟩, hrest, heq⟩ := hclasses
      cases heq
      obtain ⟨rest', h⟩ := ih hrest
      exact ⟨_, some g', hnew, yields_bind.2 ⟨_, h, yields_pure.2 rfl⟩⟩

theorem members_entries {globals : Bindings Entry} {c : ClassDef} {inherited : Env} {scope : Scope}
    (hvalid : c.Valid)
    (h : Yields (members globals c.name inherited ⟨[c.binding], []⟩ c.members) scope) :
    scope.entries = c.binding :: c.members.map Member.binding ∧
      (scope.entries.map Prod.fst).Nodup := by
  obtain ⟨hentries, -, hnd, -⟩ := members_yields hvalid.2.2 (by simp) h
  exact ⟨hentries, hnd (by simp)⟩

/-- Each class is looked at with the same classes and inherited members as in the other order. -/
theorem classBodies_reordered {cs cs' : List ClassDef}
    (h : List.Forall₂ ClassDef.Reordered cs cs') {s s' t : Scope} (hvalid : ∀ c ∈ cs, c.Valid)
    (hnd : (cs.map ClassDef.name).Nodup)
    (hheads : ∀ c ∈ cs, s.child? c.name = some ⟨[c.binding], []⟩)
    (hheads' : ∀ c ∈ cs', s'.child? c.name = some ⟨[c.binding], []⟩) (hagrees : s.Agrees s')
    (hbodies : Yields (classBodies s cs) t) :
    ∃ t', Yields (classBodies s' cs') t' ∧ t.Agrees t' := by
  induction h generalizing s s' with
  | nil =>
    simp only [classBodies, yields_pure] at hbodies
    exact ⟨s', by simp [classBodies], hbodies ▸ hagrees⟩
  | @cons c c' cs cs' hc hcs ih =>
    obtain ⟨hnew, hnd⟩ := List.nodup_cons.1 hnd
    obtain ⟨hv, hvs⟩ := List.forall_mem_cons.1 hvalid
    obtain ⟨hown, hheads⟩ := List.forall_mem_cons.1 hheads
    obtain ⟨hown', hheads'⟩ := List.forall_mem_cons.1 hheads'
    simp only [classBodies, yields_bind, hown, hown', Option.getD_some] at hbodies ⊢
    obtain ⟨scope, hscope, hbodies⟩ := hbodies
    have hclean := hc.clean (class_clean hv hscope) hv
    rw [← hagrees.bindsClass, ← hagrees.value?, ← hagrees.memberTables, ← hc.super] at hclean
    obtain ⟨scope', hscope'⟩ := class_silent (hc.valid hv) hclean
    have hget : scope'.entries.get? = scope.entries.get? := by
      obtain ⟨hentries, hnd⟩ := members_entries hv hscope
      obtain ⟨hentries', -⟩ := members_entries (hc.valid hv) hscope'
      refine Bindings.get?_perm ?_ hnd
      rw [hentries, hentries', hc.binding]
      exact (hc.members.map_perm fun _ _ h => h.binding).cons _
    have hnames : cs'.map ClassDef.name = cs.map ClassDef.name :=
      map_eq_map_of_forall₂ (hcs.imp fun _ _ h => h.name)
    have hnew' : c'.name ∉ cs'.map ClassDef.name := by
      rw [hnames, hc.name]
      exact hnew
    obtain ⟨t', hbodies', ht⟩ := ih hvs hnd (heads_setChild scope hnew hheads)
      (heads_setChild scope' hnew' hheads') (hc.name ▸ hagrees.setChild c.name hget) hbodies
    exact ⟨t', ⟨scope', hscope', hbodies'⟩, ht⟩

theorem globalVars_silent : ∀ {ds : List VarDef} {s : Scope},
    s.entries.Takes (ds.map VarDef.name) →
      (∀ d ∈ ds, s.entries.bindsClass d.var.typeExpr.className = true) → Silent (globalVars s ds)
  | [], s, _, _ => ⟨s, yields_pure.2 rfl⟩
  | d :: ds, s, htakes, hclass => by
    obtain ⟨hd, hds⟩ := List.forall_mem_cons.1 hclass
    have hnext : (s.entries.add d.name (.value d.ty)).bindsClass = s.entries.bindsClass := by
      rw [Bindings.add_of_new _ htakes.new, Bindings.bindsClass_append_value]
    obtain ⟨t, ht⟩ := globalVars_silent (s := s.bind d.name (.value d.ty))
      (htakes.add (.value d.ty)) (by rwa [Scope.entries_bind, hnext])
    refine ⟨t, ?_⟩
    rw [globalVars, yields_bind]
    refine ⟨_, resolve_of_bindsClass hd, ?_⟩
    exact yields_bind.2 ⟨true, isNew_of_new htakes.new, ht⟩

theorem globalFuncs_clean : ∀ {fs : List FuncDef} {s t : Scope}, (∀ f ∈ fs, f.Valid) →
    Yields (globalFuncs s fs) t →
      ∀ f ∈ fs, FuncDef.Clean s.entries.bindsClass s.entries.value? noOuter f
  | [], _, _, _, _ => by simp
  | f :: fs, s, t, hvalid, h => by
    obtain ⟨hf, hfs⟩ := List.forall_mem_cons.1 hvalid
    simp only [globalFuncs, yields_bind] at h
    obtain ⟨⟨ty, inner⟩, hfunc, b, hb, h⟩ := h
    obtain ⟨rfl, hnew⟩ := isNew_yields hb
    have hrest := globalFuncs_clean hfs h
    rw [Scope.entries_setChild, Scope.entries_bind, FuncDef.name, Bindings.add_of_new _ hnew,
      Bindings.bindsClass_append_func, Bindings.value?_append_func] at hrest
    exact List.forall_mem_cons.2 ⟨func_clean hf hfunc, hrest⟩

theorem globalFuncs_silent : ∀ {fs : List FuncDef} {s : Scope},
    s.entries.Takes (fs.map FuncDef.name) → (∀ f ∈ fs, f.Valid) →
      (∀ f ∈ fs, FuncDef.Clean s.entries.bindsClass s.entries.value? noOuter f) →
        Silent (globalFuncs s fs)
  | [], s, _, _, _ => ⟨s, yields_pure.2 rfl⟩
  | f :: fs, s, htakes, hvalid, hclean => by
    obtain ⟨hv, hvs⟩ := List.forall_mem_cons.1 hvalid
    obtain ⟨hf, hfs⟩ := List.forall_mem_cons.1 hclean
    obtain ⟨⟨ty, inner⟩, hfunc⟩ := func_silent hf hv outerValues_none
    have hnext : (s.entries.add f.name (.func ty)).bindsClass = s.entries.bindsClass ∧
        (s.entries.add f.name (.func ty)).value? = s.entries.value? := by
      rw [Bindings.add_of_new _ htakes.new]
      exact ⟨Bindings.bindsClass_append_func _ _ _, Bindings.value?_append_func _ _ _⟩
    obtain ⟨t, ht⟩ := globalFuncs_silent (s := (s.bind f.name (.func ty)).setChild f.name inner)
      (htakes.add (.func ty)) hvs (by
        rw [Scope.entries_setChild, Scope.entries_bind, hnext.1, hnext.2]
        exact hfs)
    refine ⟨t, ?_⟩
    rw [globalFuncs, yields_bind]
    exact ⟨_, hfunc, yields_bind.2 ⟨true, isNew_of_new htakes.new, ht⟩⟩

theorem globalVars_agrees {ds ds' : List VarDef} {s t t' : Scope} (hperm : ds.Perm ds')
    (hnd : (t.entries.map Prod.fst).Nodup) (h : Yields (globalVars s ds) t)
    (h' : Yields (globalVars s ds') t') : t.Agrees t' := by
  obtain ⟨hentries, hchildren⟩ := globalVars_yields h
  obtain ⟨hentries', hchildren'⟩ := globalVars_yields h'
  refine ⟨Bindings.get?_perm ?_ hnd, ?_, fun x => ?_⟩
  · rw [hentries, hentries']
    exact (hperm.map _).append_left _
  · have hvars : ∀ ds : List VarDef, ∀ b ∈ ds.map VarDef.binding, b.2.class? = none :=
      fun ds => List.forall_mem_map.2 fun _ _ => rfl
    rw [Scope.hierarchy_append hentries (hvars ds), Scope.hierarchy_append hentries' (hvars ds')]
  · rw [Scope.child?, Scope.child?, hchildren, hchildren']

theorem globalFuncs_agrees {fs fs' : List FuncDef} {s s' t t' : Scope} (hagrees : s.Agrees s')
    (hperm : (fs.map FuncDef.binding).Perm (fs'.map FuncDef.binding))
    (hreordered : ∀ f' ∈ fs', ∃ f ∈ fs, f.Reordered f') (hvalid : ∀ f ∈ fs, f.Valid)
    (hnd : (fs.map FuncDef.name).Nodup) (h : Yields (globalFuncs s fs) t)
    (h' : Yields (globalFuncs s' fs') t') : t.Agrees t' := by
  have hnames : (fs.map FuncDef.name).Perm (fs'.map FuncDef.name) := by
    have hnames := hperm.map Prod.fst
    rwa [List.map_map, List.map_map] at hnames
  have hvalid' : ∀ f' ∈ fs', f'.Valid := fun f' hf' => by
    obtain ⟨f, hf, hff'⟩ := hreordered f' hf'
    exact hff'.valid (hvalid f hf)
  obtain ⟨hentries, hown, hother⟩ := globalFuncs_yields hvalid hnd h
  obtain ⟨hentries', hown', hother'⟩ := globalFuncs_yields hvalid' (hnames.nodup hnd) h'
  have hfuncs : Bindings.get? (fs'.map FuncDef.binding) = Bindings.get? (fs.map FuncDef.binding) :=
    Bindings.get?_perm hperm (by rwa [List.map_map])
  refine ⟨?_, ?_, fun x => ?_⟩
  · funext x
    rw [hentries, hentries', Bindings.get?_append, Bindings.get?_append, hagrees.get?, hfuncs]
  · rw [Scope.hierarchy_congr hentries, Scope.hierarchy_congr hentries', hagrees.hierarchy]
  · by_cases hx : x ∈ fs'.map FuncDef.name
    · obtain ⟨f', hf', rfl⟩ := List.mem_map.1 hx
      obtain ⟨f, hf, hff'⟩ := hreordered f' hf'
      obtain ⟨hchild, hdeclared⟩ := hown f hf
      rw [(hown' f' hf').1, hff'.name, hchild, Option.map_some, Option.map_some,
        FuncDef.scope_entries, FuncDef.scope_entries, hagrees.value?,
        hff'.get?_table hdeclared (hvalid f hf)]
    · rw [hother' x hx, hother x fun hmem => hx (hnames.mem_iff.1 hmem), hagrees.child]

end Declarations

open Declarations Reporting

/-- The passes, each without a report, over a program that declares its names once. -/
theorem Program.declare_of_passes {p : Program} {s₁ s₂ s₃ globals : Scope} {cs : List ClassDef}
    (hnd : (p.decls.map (·.ident.name)).Nodup)
    (hfresh : ∀ d ∈ p.decls, Scope.builtins.declares d.ident.name = false)
    (hclasses : Yields (Declarations.classes .builtins p.classes) (s₁, cs))
    (hvars : Yields (globalVars s₁ (p.decls.filterMap TopDecl.var?)) s₂)
    (hbodies : Yields (classBodies s₂ cs) s₃)
    (hfuncs : Yields (globalFuncs s₃ (p.decls.filterMap TopDecl.func?)) globals) :
    p.declare = ⟨globals, []⟩ := by
  have hkeep : Yields (keep Scope.builtins.entries [] (p.decls.map TopDecl.ident))
      (List.replicate (p.decls.map TopDecl.ident).length true) := by
    refine keep_of_nodup (by rwa [List.map_map]) fun id hid => ⟨by simp, ?_⟩
    obtain ⟨d, hd, rfl⟩ := List.mem_map.1 hid
    exact hfresh d hd
  rw [List.length_map] at hkeep
  show Yields p.declare globals
  simp only [Program.declare, yields_bind]
  refine ⟨_, hkeep, ?_⟩
  rw [kept_replicate]
  exact ⟨(s₁, cs), hclasses, s₂, hvars, s₃, hbodies, hfuncs⟩

theorem Program.Reordered.exists_topFunc {p p' : Program} (h : p.Reordered p') :
    ∀ f' ∈ p'.decls.filterMap TopDecl.func?,
      ∃ f ∈ p.decls.filterMap TopDecl.func?, f.Reordered f' := by
  intro f' hf'
  obtain ⟨d', hd', heq⟩ := List.mem_filterMap.1 hf'
  cases TopDecl.func?_eq_some.1 heq
  obtain ⟨f, hf, hff'⟩ := h.exists_func hd'
  exact ⟨f, List.mem_filterMap.2 ⟨_, hf, rfl⟩, hff'⟩

/-- A reordered program is declared without a report if the program is, and its scope tells the
same. -/
theorem Program.Reordered.declare {p p' : Program} {globals : Scope} (h : p.Reordered p')
    (hvalid : p.Valid) (hdeclare : p.declare = ⟨globals, []⟩) :
    ∃ globals', p'.declare = ⟨globals', []⟩ ∧ globals.Agrees globals' := by
  have hvalid' := h.valid hvalid
  have hnames := (Program.declared hvalid hdeclare).names_nodup
  obtain ⟨hnd, hfresh, s₁, s₂, s₃, hclasses, hvars, hbodies, hfuncs⟩ := declare_yields hdeclare
  have hnd' := h.names_perm.nodup hnd
  have hcnd := TopDecl.classes_nodup hnd
  have hrow := h.forall₂_classes hcnd
  obtain ⟨-, -, -, hown, -⟩ := classes_yields hcnd hclasses
  obtain ⟨rest, hclasses'⟩ := classes_reordered hrow hclasses
  obtain ⟨rfl, -, -, hown', -⟩ := classes_yields (TopDecl.classes_nodup hnd') hclasses'
  have hheads : ∀ {cs : List ClassDef} {s : Scope}, s.children = s₁.children →
      (∀ c ∈ cs, s₁.child? c.name = some ⟨[c.binding], []⟩) →
        ∀ c ∈ cs, s.child? c.name = some ⟨[c.binding], []⟩ := fun hs hcs c hc => by
    rw [Scope.child?, hs]
    exact hcs c hc
  -- all names of the program are distinct, and so they are after each pass
  obtain ⟨hentries₂, hchildren₂⟩ := globalVars_yields hvars
  obtain ⟨hentries₃, -⟩ := classBodies_yields hvalid.classes hcnd (hheads hchildren₂ hown) hbodies
  obtain ⟨hentries, -⟩ := globalFuncs_yields hvalid.funcs (TopDecl.funcs_nodup hnd) hfuncs
  rw [hentries, hentries₃, List.map_append] at hnames
  have hnames₂ := hnames.of_append_left
  -- variables
  obtain ⟨s₂', hvars'⟩ : Silent (globalVars s₁ (p'.decls.filterMap TopDecl.var?)) := by
    refine globalVars_silent ?_ fun d hd =>
      globalVars_className hvars d (h.vars_perm.mem_iff.2 hd)
    rw [hentries₂, List.map_append, List.map_map] at hnames₂
    exact ((h.vars_perm.map _).append_left _).nodup hnames₂
  obtain ⟨hentries₂', hchildren₂'⟩ := globalVars_yields hvars'
  -- members
  obtain ⟨s₃', hbodies', hagrees₃⟩ := classBodies_reordered hrow hvalid.classes hcnd
    (hheads hchildren₂ hown) (hheads hchildren₂' hown')
    (globalVars_agrees h.vars_perm hnames₂ hvars hvars') hbodies
  obtain ⟨hentries₃', -⟩ := classBodies_yields hvalid'.classes (TopDecl.classes_nodup hnd')
    (hheads hchildren₂' hown') hbodies'
  -- functions
  obtain ⟨globals', hfuncs'⟩ : Silent (globalFuncs s₃' (p'.decls.filterMap TopDecl.func?)) := by
    refine globalFuncs_silent ?_ hvalid'.funcs fun f' hf' => ?_
    · have hperm : (s₂.entries ++ (p.decls.filterMap TopDecl.func?).map FuncDef.binding).Perm
          (s₂'.entries ++ (p'.decls.filterMap TopDecl.func?).map FuncDef.binding) := by
        rw [hentries₂, hentries₂']
        exact ((h.vars_perm.map _).append_left _).append h.funcs_perm
      have hnodup := (hperm.map Prod.fst).nodup (by rwa [List.map_append])
      rw [List.map_append, List.map_map] at hnodup
      rw [hentries₃']
      exact hnodup
    · obtain ⟨f, hf, hff'⟩ := h.exists_topFunc f' hf'
      rw [hagrees₃.bindsClass, hagrees₃.value?]
      exact hff'.clean (globalFuncs_clean hvalid.funcs hfuncs f hf) (hvalid.funcs f hf)
  refine ⟨globals', declare_of_passes hnd' (fun d' hd' => ?_) hclasses' hvars' hbodies' hfuncs',
    globalFuncs_agrees hagrees₃ h.funcs_perm h.exists_topFunc hvalid.funcs (TopDecl.funcs_nodup hnd)
      hfuncs hfuncs'⟩
  obtain ⟨d, hd, hdd'⟩ := h.decls.exists_of_mem hd'
  rw [hdd'.ident]
  exact hfresh d hd

end ChocoRv
