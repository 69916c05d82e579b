import ChocoRv.Proofs.WellDeclared

/-!
# Clean functions

`FuncDef.Clean` lists all that the analysis of the declarations asks of a function and of the
functions in it. It speaks of tables only through the value types and classes that they give to
names, so it does not depend on what else is bound, or when. A run without a report finds a function
clean (`func_clean`), and a clean function is declared without a report (`func_silent`).
-/

namespace ChocoRv

/-! ### The rules -/

/-- What the analysis of its declarations asks of a function itself. -/
structure FuncDef.Rules (isClass : Name → Bool) (global outer : Values) (f : FuncDef) : Prop where
  nodup : f.names.Nodup
  notClass : ∀ x ∈ f.names, isClass x = false
  bound : ∀ d ∈ f.decls, d.Bound global outer
  annotations : ∀ a ∈ f.annotations, isClass a.className = true
  assigned : ∀ id, Assigns f.body id → id.name ∈ f.names
  returns : f.ty.ret.isSpecial = true → Stmt.alwaysReturns f.body = true

/-- The function and all functions in it obey the rules. -/
inductive FuncDef.Clean (isClass : Name → Bool) (global : Values) : Values → FuncDef → Prop
  | mk {outer : Values} {f : FuncDef} (rules : f.Rules isClass global outer)
      (inner : ∀ g, .func g ∈ f.decls → Clean isClass global (f.values global outer).value? g) :
      Clean isClass global outer f

/-- Where a special type is returned, every path through a body returns. -/
inductive FuncDef.Returning : FuncDef → Prop
  | mk {f : FuncDef} (here : f.ty.ret.isSpecial = true → Stmt.alwaysReturns f.body = true)
      (inner : ∀ g, .func g ∈ f.decls → Returning g) : Returning f

section

variable {isClass : Name → Bool} {global outer : Values} {f : FuncDef}

theorem FuncDef.Returning.clean (h : f.Returning) (hdeclared : f.Declared isClass global outer)
    (hclosed : f.Closed isClass) : FuncDef.Clean isClass global outer f := by
  induction h generalizing outer with
  | mk here _ ih =>
    exact .mk ⟨hdeclared.nodup, hdeclared.notClass, hdeclared.bound, hclosed.annotations,
      hclosed.assigned, here⟩ fun g hg => ih g hg (hdeclared.inner hg) (hclosed.inner hg)

theorem LocalDecl.allDeclared_iff {ds : List LocalDecl} :
    LocalDecl.AllDeclared isClass global outer ds ↔
      ∀ g, .func g ∈ ds → g.Declared isClass global outer := by
  induction ds with
  | nil => simp [LocalDecl.AllDeclared]
  | cons d ds ih => cases d <;> simp [LocalDecl.AllDeclared, ih]

theorem FuncDef.Clean.declared (h : FuncDef.Clean isClass global outer f) :
    f.Declared isClass global outer := by
  induction h with
  | @mk outer f rules _ ih =>
    cases f
    rw [FuncDef.Declared, LocalDecl.allDeclared_iff]
    exact ⟨rules.nodup, rules.notClass, rules.bound, ih⟩

end

/-! ### Names still to be bound -/

/-- The names may be bound in the table one after the other. -/
def Bindings.Takes {α : Type} (table : Bindings α) (xs : List Name) : Prop :=
  (table.map Prod.fst ++ xs).Nodup

namespace Bindings.Takes

variable {α : Type} {table : Bindings α} {x : Name} {xs : List Name}

theorem new (h : table.Takes (x :: xs)) : table.declares x = false := by
  rw [declares_eq_false_iff]
  exact fun hmem => (List.nodup_append.1 h).2.2 x hmem x List.mem_cons_self rfl

theorem append {b : Name × α} (h : table.Takes (b.1 :: xs)) : Takes (table ++ [b]) xs := by
  rw [Takes, List.map_append, List.append_assoc]
  exact h

theorem add (h : table.Takes (x :: xs)) (a : α) : (table.add x a).Takes xs := by
  rw [add_of_new a h.new]
  exact h.append

theorem tail (h : table.Takes (x :: xs)) : table.Takes xs :=
  List.Nodup.sublist ((List.sublist_cons_self x xs).append_left _) h

end Bindings.Takes

theorem FuncDef.forall_names {P : Name → Prop} {f : FuncDef} : (∀ x ∈ f.names, P x) ↔
    (∀ v ∈ f.params, P v.name.name) ∧ ∀ d ∈ f.decls, P d.ident.name := by
  rw [FuncDef.names, List.forall_mem_append, List.forall_mem_map, List.forall_mem_map]

theorem FuncDef.forall_annotations {P : TypeExpr → Prop} {f : FuncDef} :
    (∀ a ∈ f.annotations, P a) ↔ (∀ v ∈ f.params, P v.typeExpr) ∧ (∀ a ∈ f.ret?.toList, P a) ∧
      ∀ v, .var v ∈ f.decls → P v.var.typeExpr := by
  rw [FuncDef.annotations, List.forall_mem_append, List.forall_mem_append, List.forall_mem_map,
    List.forall_mem_map, and_assoc]
  simp only [List.mem_filterMap, LocalDecl.var?_eq_some, exists_eq_right]

/-- The parameters and variables of a function. -/
def FuncDef.variables (global outer : Values) (f : FuncDef) : Bindings Entry :=
  f.params.map TypedVar.binding ++ f.decls.filterMap (LocalDecl.binding? global outer)

/-- As `return` is no name of a program, it can be bound after the variables of a function. -/
theorem FuncDef.Declared.takes {isClass : Name → Bool} {global outer : Values} {f : FuncDef}
    (h : f.Declared isClass global outer) (hvalid : f.Valid) : (f.variables global outer).Takes
      (returnEntry :: (f.decls.filterMap LocalDecl.func?).map FuncDef.name) := by
  have hnd := h.table_nodup hvalid
  rw [FuncDef.table, FuncDef.values, List.map_append, List.map_append, List.map_map,
    List.append_assoc] at hnd
  exact hnd

theorem Assigns.mono {ss ss' : List Stmt} {id : Ident} (h : Assigns ss id)
    (hsub : ∀ s ∈ ss, s ∈ ss') : Assigns ss' id := by
  cases h with
  | target hs hid => exact .target (hsub _ hs) hid
  | «variable» hs => exact .variable (hsub _ hs)
  | each hs hbody => exact .each (hsub _ hs) hbody
  | loop hs hbody => exact .loop (hsub _ hs) hbody
  | yes hs hyes => exact .yes (hsub _ hs) hyes
  | no hs hno => exact .no (hsub _ hs) hno

namespace Declarations

open Reporting

variable {globals table : Bindings Entry} {outer? : Option (Bindings Entry)}

/-! ### A run without a report finds a function clean -/

mutual

theorem func_returning {globals : Bindings Entry} : ∀ {f : FuncDef}
    {outer? : Option (Bindings Entry)} {r : FuncTy × Scope},
    Yields (func globals outer? f) r → f.Returning
  | .mk loc id ps ret? decls body, outer?, r, h => by
    simp only [func, yields_bind] at h
    obtain ⟨_, -, ret, hret, flags, hkeep, _, -, _, hnested, _, -, h⟩ := h
    obtain rfl := returnType_yields hret
    obtain ⟨rfl, -, -⟩ := keep_yields hkeep
    rw [List.length_map] at hnested
    refine .mk (fun hspecial => ?_) (nested_returning hnested)
    by_contra hnot
    split at h
    · simp at h
    · rename_i hall
      have hnone : Stmt.alwaysReturns body = false := Bool.eq_false_iff.2 hnot
      exact hall (Bool.and_eq_true_iff.2 ⟨hspecial, by rw [hnone, Bool.not_false]⟩)

theorem nested_returning {globals : Bindings Entry} : ∀ {ds : List LocalDecl}
    {scope scope' : Scope}, Yields (nested globals scope ds (List.replicate ds.length true)) scope' →
      ∀ g, .func g ∈ ds → g.Returning
  | [], scope, scope', _ => by simp
  | .func f :: ds, scope, scope', h => by
    simp only [List.length_cons, List.replicate_succ, nested, yields_bind] at h
    obtain ⟨_, hf, b, hb, h⟩ := h
    obtain ⟨rfl, -, -⟩ := isNewLocal_yields hb
    rw [if_pos rfl] at h
    intro g hg
    rcases List.mem_cons.1 hg with hg | hg
    · cases hg
      exact func_returning hf
    · exact nested_returning h g hg
  | .var _ :: ds, scope, scope', h | .global _ _ :: ds, scope, scope', h
  | .nonlocal _ _ :: ds, scope, scope', h => by
    simp only [List.length_cons, List.replicate_succ, nested] at h
    intro g hg
    rcases List.mem_cons.1 hg with hg | hg
    · cases hg
    · exact nested_returning h g hg

end

theorem func_clean {f : FuncDef} {r : FuncTy × Scope} (hvalid : f.Valid)
    (h : Yields (func globals outer? f) r) :
    FuncDef.Clean globals.bindsClass globals.value? (outerValues outer?) f :=
  (func_returning h).clean (func_yields hvalid h).2.2 (func_closed hvalid h)

/-! ### A clean function is declared without a report -/

/-- The computation reports nothing. -/
def Silent {α : Type} (x : Reporting α) : Prop := ∃ a, Yields x a

theorem resolve_of_bindsClass : ∀ {a : TypeExpr}, globals.bindsClass a.className = true →
    Yields (resolve globals a) (some a.ty)
  | .cls loc name, h => by
    rw [TypeExpr.className] at h
    rw [resolve, if_pos h]
    exact yields_pure.2 rfl
  | .list loc elem, h => by
    simp only [resolve, yields_bind, yields_pure]
    exact ⟨_, resolve_of_bindsClass h, rfl⟩

theorem isNew_of_new {id : Ident} (h : table.declares id.name = false) :
    Yields (isNew table id) true := by
  simp [isNew, h]

theorem isNewLocal_of_new {id : Ident} (h : table.declares id.name = false)
    (hclass : globals.bindsClass id.name = false) : Yields (isNewLocal globals table id) true := by
  simp only [isNewLocal, yields_bind]
  exact ⟨true, isNew_of_new h, by simp [hclass]⟩

theorem keep_of_nodup : ∀ {ids : List Ident} {seen : List Name}, (ids.map Ident.name).Nodup →
    (∀ id ∈ ids, id.name ∉ seen ∧ table.declares id.name = false) →
      Yields (keep table seen ids) (List.replicate ids.length true)
  | [], seen, _, _ => by simp [keep]
  | id :: ids, seen, hnd, hnew => by
    obtain ⟨hid, hids⟩ := List.nodup_cons.1 hnd
    obtain ⟨⟨hseen, htable⟩, hrest⟩ := List.forall_mem_cons.1 hnew
    have hnext : Yields (keep table (id.name :: seen) ids) (List.replicate ids.length true) := by
      refine keep_of_nodup hids fun id' hid' => ⟨?_, (hrest id' hid').2⟩
      rw [List.mem_cons, not_or]
      exact ⟨fun heq => hid (heq ▸ List.mem_map_of_mem hid'), (hrest id' hid').1⟩
    rw [keep, if_neg (by simp [hseen, htable])]
    simp only [yields_bind, yields_pure]
    exact ⟨_, hnext, rfl⟩

theorem params_silent : ∀ {ps : List TypedVar} {table : Bindings Entry},
    table.Takes (ps.map (·.name.name)) → (∀ v ∈ ps, globals.bindsClass v.name.name = false) →
      (∀ v ∈ ps, globals.bindsClass v.typeExpr.className = true) → Silent (params globals table ps)
  | [], _, _, _, _ => ⟨_, yields_pure.2 rfl⟩
  | v :: ps, table, htakes, hname, hclass => by
    obtain ⟨hv, hps⟩ := List.forall_mem_cons.1 hname
    obtain ⟨hvc, hpsc⟩ := List.forall_mem_cons.1 hclass
    obtain ⟨r, hr⟩ := params_silent (htakes.add (.value v.typeExpr.ty)) hps hpsc
    have hparam : Yields (param globals table v)
        (v.typeExpr.ty, table.add v.name.name (.value v.typeExpr.ty)) := by
      rw [param, yields_bind]
      refine ⟨_, resolve_of_bindsClass hvc, yields_bind.2 ⟨true, ?_, yields_pure.2 rfl⟩⟩
      exact isNewLocal_of_new htakes.new hv
    simp only [Silent, params, yields_bind]
    exact ⟨_, _, hparam, r, hr, yields_pure.2 rfl⟩

theorem returnType_silent {ret? : Option TypeExpr}
    (h : ∀ a ∈ ret?.toList, globals.bindsClass a.className = true) :
    Silent (returnType globals ret?) := by
  cases ret? with
  | none => exact ⟨_, yields_pure.2 rfl⟩
  | some a =>
    simp only [Silent, returnType, yields_bind, yields_pure]
    exact ⟨_, _, resolve_of_bindsClass (h a (List.mem_singleton_self a)), rfl⟩

theorem locals_silent : ∀ {ds : List LocalDecl} {table : Bindings Entry},
    table.Takes (ds.map (·.ident.name)) → (∀ d ∈ ds, globals.bindsClass d.ident.name = false) →
      (∀ d ∈ ds, d.Bound globals.value? (outerValues outer?)) →
      (∀ v, .var v ∈ ds → globals.bindsClass v.var.typeExpr.className = true) →
        Silent (locals globals outer? table ds)
  | [], _, _, _, _, _ => ⟨_, yields_pure.2 rfl⟩
  | d :: ds, table, htakes, hname, hbound, hclass => by
    obtain ⟨hd, hds⟩ := List.forall_mem_cons.1 hname
    obtain ⟨hdb, hdsb⟩ := List.forall_mem_cons.1 hbound
    have hrest : ∀ {t : Bindings Entry}, t.Takes (ds.map (·.ident.name)) →
        Silent (locals globals outer? t ds) := fun ht =>
      locals_silent ht hds hdsb fun v hv => hclass v (List.mem_cons_of_mem _ hv)
    cases d with
    | var v =>
      obtain ⟨r, hr⟩ := hrest (htakes.add (.value v.ty))
      simp only [Silent, locals, localVar, yields_bind]
      refine ⟨r, _, ⟨_, resolve_of_bindsClass (hclass v List.mem_cons_self), ?_⟩, hr⟩
      exact yields_bind.2 ⟨true, isNewLocal_of_new htakes.new hd, yields_pure.2 rfl⟩
    | global loc id =>
      obtain ⟨t, ht⟩ := Option.isSome_iff_exists.1 hdb
      obtain ⟨r, hr⟩ := hrest (htakes.add (.value t))
      simp only [Silent, locals, globalName, yields_bind]
      exact ⟨r, _, ⟨true, isNewLocal_of_new htakes.new hd, by simp [ht, LocalDecl.ident]⟩, hr⟩
    | «nonlocal» loc id =>
      obtain ⟨t, ht⟩ := Option.isSome_iff_exists.1 hdb
      obtain ⟨r, hr⟩ := hrest (htakes.add (.value t))
      rw [outerValues] at ht
      simp only [Silent, locals, nonlocalName, yields_bind]
      exact ⟨r, _, ⟨true, isNewLocal_of_new htakes.new hd, by simp [ht, LocalDecl.ident]⟩, hr⟩
    | func g =>
      obtain ⟨r, hr⟩ := hrest htakes.tail
      simp only [Silent, locals, yields_bind]
      exact ⟨r, table, yields_pure.2 rfl, hr⟩

/-- Only the values of the table around matter to the functions in it, and functions add none. -/
theorem nested_silent {vals : Values} : ∀ {ds : List LocalDecl} {s : Scope},
    s.entries.value? = vals →
      s.entries.Takes ((ds.filterMap LocalDecl.func?).map FuncDef.name) →
      (∀ g, .func g ∈ ds → globals.bindsClass g.name = false ∧
        ∀ outer?, outerValues outer? = vals → Silent (func globals outer? g)) →
        Silent (nested globals s ds (List.replicate ds.length true))
  | [], s, _, _, _ => ⟨s, yields_pure.2 rfl⟩
  | .func g :: ds, s, hvals, htakes, hfuncs => by
    obtain ⟨hclass, hsilent⟩ := hfuncs g List.mem_cons_self
    obtain ⟨⟨ty, inner⟩, hg⟩ := hsilent (some s.entries) hvals
    have hvals' : (s.entries.add g.name (.func ty)).value? = vals := by
      rw [Bindings.add_of_new _ htakes.new, Bindings.value?_append_func, hvals]
    obtain ⟨r, hr⟩ := nested_silent (s := (s.bind g.name (.func ty)).setChild g.name inner)
      hvals' (htakes.add (.func ty)) fun g' hg' => hfuncs g' (List.mem_cons_of_mem _ hg')
    simp only [Silent, List.length_cons, List.replicate_succ, nested, yields_bind]
    exact ⟨r, _, hg, true, isNewLocal_of_new htakes.new hclass, hr⟩
  | .var _ :: ds, s, hvals, htakes, hfuncs | .global _ _ :: ds, s, hvals, htakes, hfuncs
  | .nonlocal _ _ :: ds, s, hvals, htakes, hfuncs => by
    simp only [List.length_cons, List.replicate_succ, nested]
    exact nested_silent hvals htakes fun g hg => hfuncs g (List.mem_cons_of_mem _ hg)

theorem targets_of_declares {body : List Stmt}
    (h : ∀ id ∈ Stmt.allAssigned body, table.declares id.name = true) :
    Yields (targets table body) () := by
  rw [targets, List.forM_eq_forM]
  generalize Stmt.allAssigned body = ids at h
  induction ids with
  | nil => exact yields_pure.2 rfl
  | cons id ids ih =>
    obtain ⟨hid, hids⟩ := List.forall_mem_cons.1 h
    rw [List.forM_cons, yields_bind]
    exact ⟨(), by simp [hid], ih hids⟩

mutual

theorem assigns_of_mem_assigned : ∀ {s : Stmt} {ss : List Stmt} {id : Ident}, s ∈ ss →
    id ∈ s.assigned → Assigns ss id
  | .assign loc targets value, ss, id, hs, hid => by
    rw [Stmt.assigned, List.mem_filterMap] at hid
    obtain ⟨target, htarget, heq⟩ := hid
    cases target <;> simp at heq
    exact .target hs (heq ▸ htarget)
  | .each loc var iterable body, ss, id, hs, hid => by
    rw [Stmt.assigned, List.mem_cons] at hid
    rcases hid with rfl | hid
    · exact .variable hs
    · exact .each hs (assigns_of_mem_allAssigned hid)
  | .ite loc test yes no, ss, id, hs, hid => by
    rw [Stmt.assigned, List.mem_append] at hid
    exact hid.elim (fun h => .yes hs (assigns_of_mem_allAssigned h))
      fun h => .no hs (assigns_of_mem_allAssigned h)
  | .loop loc test body, ss, id, hs, hid => by
    rw [Stmt.assigned] at hid
    exact .loop hs (assigns_of_mem_allAssigned hid)
  | .expr loc e, ss, id, hs, hid | .ret loc value?, ss, id, hs, hid => by
    simp [Stmt.assigned] at hid

theorem assigns_of_mem_allAssigned : ∀ {ss : List Stmt} {id : Ident}, id ∈ Stmt.allAssigned ss →
    Assigns ss id
  | [], id, hid => by simp [Stmt.allAssigned] at hid
  | s :: ss, id, hid => by
    rw [Stmt.allAssigned, List.mem_append] at hid
    rcases hid with hid | hid
    · exact assigns_of_mem_assigned List.mem_cons_self hid
    · exact (assigns_of_mem_allAssigned hid).mono fun t => List.mem_cons_of_mem s

end

/-- What a body may assign to is in the table of its function. -/
theorem declares_assigned {isClass : Name → Bool} {global outer : Values} {f : FuncDef}
    (hdeclared : f.Declared isClass global outer) (hvalid : f.Valid)
    (hassigned : ∀ id, Assigns f.body id → id.name ∈ f.names) {id : Ident}
    (hid : id ∈ Stmt.allAssigned f.body) : (f.table global outer).declares id.name = true := by
  have hassigns := assigns_of_mem_allAssigned hid
  by_contra hnot
  have hnone : (f.table global outer).get? id.name = none :=
    Option.not_isSome_iff_eq_none.1 hnot
  exact (hdeclared.get?_eq_none_iff (hassigns.validName hvalid.body)).1 hnone (hassigned id hassigns)

section Rules

variable {f : FuncDef} (h : f.Rules globals.bindsClass globals.value? (outerValues outer?))

include h

theorem params_of_rules :
    Yields (params globals [] f.params)
      (f.params.map TypedVar.ty, f.params.map TypedVar.binding) := by
  have htakes : Bindings.Takes ([] : Bindings Entry) (f.params.map (·.name.name)) :=
    (List.nodup_append.1 h.nodup).1
  obtain ⟨⟨types, table⟩, hparams⟩ := params_silent htakes (FuncDef.forall_names.1 h.notClass).1
    (FuncDef.forall_annotations.1 h.annotations).1
  obtain ⟨rfl, rfl, -, -⟩ := params_yields hparams
  exact hparams

theorem returnType_of_rules : Yields (returnType globals f.ret?) f.ty.ret := by
  obtain ⟨ret, hret⟩ := returnType_silent (FuncDef.forall_annotations.1 h.annotations).2.1
  obtain rfl := returnType_yields hret
  exact hret

/-- The declarations of a function may be bound after its parameters. -/
theorem takes_of_rules :
    Bindings.Takes (f.params.map TypedVar.binding) (f.decls.map (·.ident.name)) := by
  rw [Bindings.Takes, List.map_map]
  exact h.nodup

theorem keep_of_rules :
    Yields (keep (f.params.map TypedVar.binding) [] (f.decls.map LocalDecl.ident))
      (List.replicate f.decls.length true) := by
  obtain ⟨-, hdecls, hdisjoint⟩ := List.nodup_append.1 (takes_of_rules h)
  have hkeep : Yields (keep (f.params.map TypedVar.binding) [] (f.decls.map LocalDecl.ident))
      (List.replicate (f.decls.map LocalDecl.ident).length true) := by
    refine keep_of_nodup (by rw [List.map_map]; exact hdecls) fun id hid => ⟨by simp, ?_⟩
    obtain ⟨d, hd, rfl⟩ := List.mem_map.1 hid
    rw [Bindings.declares_eq_false_iff]
    exact fun hmem => hdisjoint _ hmem d.ident.name (List.mem_map.2 ⟨d, hd, rfl⟩) rfl
  rwa [List.length_map] at hkeep

theorem locals_of_rules :
    Yields (locals globals outer? (f.params.map TypedVar.binding) f.decls)
      (f.variables globals.value? (outerValues outer?)) := by
  obtain ⟨table, hlocals⟩ := locals_silent (takes_of_rules h)
    (FuncDef.forall_names.1 h.notClass).2 h.bound
    (FuncDef.forall_annotations.1 h.annotations).2.2
  obtain ⟨rfl, -⟩ := locals_yields hlocals
  exact hlocals

/-- Each function in `f` is declared in the table with the variables of `f`. -/
theorem nested_of_rules
    (hdeclared : f.Declared globals.bindsClass globals.value? (outerValues outer?))
    (hvalid : f.Valid) (hinner : ∀ g, .func g ∈ f.decls → ∀ outer?',
      outerValues outer?' = (f.values globals.value? (outerValues outer?)).value? →
        Silent (func globals outer?' g)) :
    ∃ scope, Yields (nested globals ⟨(f.variables globals.value? (outerValues outer?)).add
        returnEntry (.value f.ty.ret), []⟩ f.decls (List.replicate f.decls.length true)) scope ∧
      scope.entries = f.table globals.value? (outerValues outer?) := by
  have htakes := hdeclared.takes hvalid
  have hvalues : (f.variables globals.value? (outerValues outer?)).add returnEntry
      (.value f.ty.ret) = f.values globals.value? (outerValues outer?) :=
    Bindings.add_of_new _ htakes.new
  have hnext := htakes.add (.value f.ty.ret)
  rw [hvalues] at hnext ⊢
  obtain ⟨scope, hnested⟩ := nested_silent
    (s := ⟨f.values globals.value? (outerValues outer?), []⟩) rfl hnext fun g hg =>
      ⟨(FuncDef.forall_names.1 h.notClass).2 _ hg, hinner g hg⟩
  obtain ⟨hentries, -⟩ := nested_yields (LocalDecl.allValid_iff.2 hvalid.decls) (by simp) hnested
  exact ⟨scope, hnested, hentries⟩

end Rules

theorem func_silent {outer : Values} {f : FuncDef}
    (h : FuncDef.Clean globals.bindsClass globals.value? outer f) (hvalid : f.Valid)
    (houter : outerValues outer? = outer) : Silent (func globals outer? f) := by
  induction h generalizing outer? with
  | @mk outer f rules inner ih =>
    subst houter
    have hdeclared := (FuncDef.Clean.mk rules inner).declared
    obtain ⟨scope, hnested, hentries⟩ := nested_of_rules rules hdeclared hvalid fun g hg _ h =>
      ih g hg (hvalid.decls _ hg) h
    have hparams := params_of_rules rules
    have hret := returnType_of_rules rules
    have hkeep := keep_of_rules rules
    have hlocals := locals_of_rules rules
    have htargets : Yields (targets scope.entries f.body) () := by
      refine targets_of_declares fun id hid => ?_
      rw [hentries]
      exact declares_assigned hdeclared hvalid rules.assigned hid
    have hreturns : ¬ (f.ty.ret.isSpecial && !Stmt.alwaysReturns f.body) = true := by
      rw [Bool.and_eq_true_iff, Bool.not_eq_true']
      exact fun ⟨hspecial, hnot⟩ => Bool.false_ne_true (hnot.symm.trans (rules.returns hspecial))
    obtain ⟨loc, id, ps, ret?, decls, body⟩ := f
    refine ⟨(FuncDef.ty (.mk loc id ps ret? decls body), scope), ?_⟩
    simp only [func, yields_bind]
    refine ⟨_, hparams, _, hret, _, hkeep, _, ?_, scope, hnested, (), htargets, ?_⟩
    · rw [FuncDef.decls, kept_replicate]
      exact hlocals
    · rw [FuncDef.body] at hreturns
      rw [if_neg hreturns]
      exact yields_pure.2 rfl

end Declarations

end ChocoRv
