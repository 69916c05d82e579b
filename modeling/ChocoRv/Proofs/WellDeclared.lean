import ChocoRv.Proofs.Meanings
import ChocoRv.Proofs.Overriding

/-!
# Well-declared programs

The rules that a program obeys when its declarations are in order, read off its tree: which names
are distinct, which name no class, which classes exist and which names a body may assign to.
`declarations_sound` says that a parsed program without a report obeys all of them. The rules on
names come from `Program.Declared`; those on annotations and assigned names are followed through
the same passes here. What a class may inherit is found by induction along its superclasses.
-/

namespace ChocoRv

open Reporting

/-! ### The rules -/

/-- The class whose values an annotation is about. -/
def TypeExpr.className : TypeExpr → Name
  | .cls _ name => name
  | .list _ elem => elem.className

def FuncDef.annotations (f : FuncDef) : List TypeExpr :=
  f.params.map (·.typeExpr) ++ f.ret?.toList ++
    (f.decls.filterMap LocalDecl.var?).map (·.var.typeExpr)

/-- The program has a class of this name, built in or declared. -/
def Program.HasClass (p : Program) (x : Name) : Prop :=
  x ∈ [txt "object", txt "int", txt "str", txt "bool"] ∨ ∃ c, .cls c ∈ p.decls ∧ c.name = x

/-- The functions and methods of a program, at any depth. -/
inductive Program.HasFunc (p : Program) : FuncDef → Prop
  | top {f : FuncDef} (hf : .func f ∈ p.decls) : p.HasFunc f
  | method {c : ClassDef} {f : FuncDef} (hc : .cls c ∈ p.decls) (hf : .method f ∈ c.members) :
    p.HasFunc f
  | inner {f g : FuncDef} (hf : p.HasFunc f) (hg : .func g ∈ f.decls) : p.HasFunc g

/-- Somewhere in the statements the name stands on the left of an assignment or is the variable of
a `for`. -/
inductive Assigns : List Stmt → Ident → Prop
  | target {ss : List Stmt} {loc : Loc} {targets : List Expr} {value : Expr} {id : Ident}
    (hs : .assign loc targets value ∈ ss) (hid : .name id ∈ targets) : Assigns ss id
  | variable {ss body : List Stmt} {loc : Loc} {iterable : Expr} {id : Ident}
    (hs : .each loc id iterable body ∈ ss) : Assigns ss id
  | each {ss body : List Stmt} {loc : Loc} {iterable : Expr} {id var : Ident}
    (hs : .each loc var iterable body ∈ ss) (hbody : Assigns body id) : Assigns ss id
  | loop {ss body : List Stmt} {loc : Loc} {test : Expr} {id : Ident}
    (hs : .loop loc test body ∈ ss) (hbody : Assigns body id) : Assigns ss id
  | yes {ss yes no : List Stmt} {loc : Loc} {test : Expr} {id : Ident}
    (hs : .ite loc test yes no ∈ ss) (hyes : Assigns yes id) : Assigns ss id
  | no {ss yes no : List Stmt} {loc : Loc} {test : Expr} {id : Ident}
    (hs : .ite loc test yes no ∈ ss) (hno : Assigns no id) : Assigns ss id

structure FuncDef.WellDeclared (p : Program) (f : FuncDef) : Prop where
  nodup : f.names.Nodup
  notClass : ∀ x ∈ f.names, ¬ p.HasClass x
  annotations : ∀ a ∈ f.annotations, p.HasClass a.className
  assigned : ∀ id, Assigns f.body id → id.name ∈ f.names

structure ClassDef.WellDeclared (globals : Scope) (p : Program) (c : ClassDef) : Prop where
  /-- The superclass is `object` or a class of the program that stands before. -/
  super : ∀ before after, p.decls = before ++ .cls c :: after →
    c.super.name = txt "object" ∨ ∃ b, .cls b ∈ before ∧ b.name = c.super.name
  nodup : (c.members.map (·.ident.name)).Nodup
  notClass : ∀ m ∈ c.members, ¬ p.HasClass m.ident.name
  annotations : ∀ d, .attr d ∈ c.members → p.HasClass d.var.typeExpr.className
  /-- No ancestor binds the name of an attribute in its member table. -/
  attr : ∀ d, .attr d ∈ c.members → ∀ k ∈ globals.hierarchy.ancestors c.name,
    ∃ table, globals.child? k = some table ∧ table.get? d.name = none
  /-- An ancestor that binds the name of a method binds it to a function. -/
  method : ∀ f, .method f ∈ c.members → ∀ k ∈ globals.hierarchy.ancestors c.name,
    ∃ table, globals.child? k = some table ∧
      ∀ e, table.get? f.name = some e → ∃ ty, e = .func ty
  self : ∀ f, .method f ∈ c.members → ∃ v vs, f.params = v :: vs ∧ v.ty = .cls c.name

/-- The rules that declarations obey. -/
structure Program.WellDeclared (globals : Scope) (p : Program) : Prop where
  nodup : (p.decls.map (·.ident.name)).Nodup
  fresh : ∀ d ∈ p.decls, d.ident.name ∉ [txt "object", txt "int", txt "str", txt "bool",
    txt "print", txt "input", txt "len"]
  vars : ∀ d, .var d ∈ p.decls → p.HasClass d.var.typeExpr.className
  classes : ∀ c, .cls c ∈ p.decls → c.WellDeclared globals p
  funcs : ∀ f, p.HasFunc f → f.WellDeclared p

/-! ### Annotations and assigned names -/

theorem Stmt.allAssigned_eq (ss : List Stmt) :
    Stmt.allAssigned ss = ss.flatMap Stmt.assigned := by
  induction ss with
  | nil => rfl
  | cons s ss ih => rw [Stmt.allAssigned, ih, List.flatMap_cons]

theorem Assigns.mem_allAssigned {ss : List Stmt} {id : Ident} (h : Assigns ss id) :
    id ∈ Stmt.allAssigned ss := by
  have hmem {ss : List Stmt} {s : Stmt} (hs : s ∈ ss) (hid : id ∈ s.assigned) :
      id ∈ Stmt.allAssigned ss := by
    rw [Stmt.allAssigned_eq]
    exact List.mem_flatMap.2 ⟨s, hs, hid⟩
  induction h with
  | target hs htarget =>
    refine hmem hs ?_
    rw [Stmt.assigned]
    exact List.mem_filterMap.2 ⟨_, htarget, rfl⟩
  | «variable» hs =>
    refine hmem hs ?_
    rw [Stmt.assigned]
    exact List.mem_cons_self
  | each hs _ ih =>
    refine hmem hs ?_
    rw [Stmt.assigned]
    exact List.mem_cons_of_mem _ (ih hmem)
  | loop hs _ ih =>
    refine hmem hs ?_
    rw [Stmt.assigned]
    exact ih hmem
  | yes hs _ ih =>
    refine hmem hs ?_
    rw [Stmt.assigned]
    exact List.mem_append_left _ (ih hmem)
  | no hs _ ih =>
    refine hmem hs ?_
    rw [Stmt.assigned]
    exact List.mem_append_right _ (ih hmem)

theorem Assigns.validName {ss : List Stmt} {id : Ident} (h : Assigns ss id)
    (hvalid : Stmt.AllValid ss) : ValidName id.name := by
  induction h with
  | target hs htarget =>
    have hs := Stmt.allValid_iff.1 hvalid _ hs
    simp only [Stmt.Valid] at hs
    simpa only [Expr.Valid] using Expr.allValid_iff.1 hs.1 _ htarget
  | «variable» hs =>
    have hs := Stmt.allValid_iff.1 hvalid _ hs
    simp only [Stmt.Valid] at hs
    exact hs.1
  | each hs _ ih =>
    have hs := Stmt.allValid_iff.1 hvalid _ hs
    simp only [Stmt.Valid] at hs
    exact ih hs.2.2
  | loop hs _ ih =>
    have hs := Stmt.allValid_iff.1 hvalid _ hs
    simp only [Stmt.Valid] at hs
    exact ih hs.2
  | yes hs _ ih =>
    have hs := Stmt.allValid_iff.1 hvalid _ hs
    simp only [Stmt.Valid] at hs
    exact ih hs.2.1
  | no hs _ ih =>
    have hs := Stmt.allValid_iff.1 hvalid _ hs
    simp only [Stmt.Valid] at hs
    exact ih hs.2.2

mutual

/-- The annotations of a function name classes and its body assigns to names of its own, and so on
for the functions in it. -/
def FuncDef.Closed (isClass : Name → Bool) : FuncDef → Prop
  | .mk loc id ps ret? decls body =>
    let f := FuncDef.mk loc id ps ret? decls body
    (∀ a ∈ f.annotations, isClass a.className = true) ∧
      (∀ id, Assigns body id → id.name ∈ f.names) ∧ LocalDecl.AllClosed isClass decls

def LocalDecl.AllClosed (isClass : Name → Bool) : List LocalDecl → Prop
  | [] => True
  | .func f :: ds => f.Closed isClass ∧ LocalDecl.AllClosed isClass ds
  | _ :: ds => LocalDecl.AllClosed isClass ds

end

namespace FuncDef.Closed

variable {isClass : Name → Bool} {f g : FuncDef}

theorem annotations (h : f.Closed isClass) : ∀ a ∈ f.annotations, isClass a.className = true := by
  cases f
  simp only [FuncDef.Closed] at h
  exact h.1

theorem assigned (h : f.Closed isClass) : ∀ id, Assigns f.body id → id.name ∈ f.names := by
  cases f
  simp only [FuncDef.Closed] at h
  exact h.2.1

theorem inner (h : f.Closed isClass) (hg : .func g ∈ f.decls) : g.Closed isClass := by
  have hall : LocalDecl.AllClosed isClass f.decls := by
    cases f
    simp only [FuncDef.Closed] at h
    exact h.2.2
  generalize f.decls = ds at hall hg
  induction ds with
  | nil => simp at hg
  | cons d ds ih =>
    rcases List.mem_cons.1 hg with rfl | hg'
    · simp only [LocalDecl.AllClosed] at hall
      exact hall.1
    · cases d <;> simp only [LocalDecl.AllClosed] at hall
      exacts [ih hall hg', ih hall hg', ih hall hg', ih hall.2 hg']

end FuncDef.Closed

/-- The same of a member of a class. -/
def Member.Closed (isClass : Name → Bool) : Member → Prop
  | .attr d => isClass d.var.typeExpr.className = true
  | .method f => f.Closed isClass

namespace Declarations

variable {globals table : Bindings Entry}

theorem resolve_className : ∀ {a : TypeExpr} {r : Option Ty},
    Yields (resolve globals a) r → globals.bindsClass a.className = true
  | .cls loc name, r, h => by
    unfold resolve at h
    split at h
    · assumption
    · simp at h
  | .list loc elem, r, h => by
    simp only [resolve, yields_bind, yields_pure] at h
    obtain ⟨r', helem, -⟩ := h
    rw [TypeExpr.className]
    exact resolve_className helem

theorem params_className : ∀ {ps : List TypedVar} {table : Bindings Entry}
    {r : List Ty × Bindings Entry}, Yields (params globals table ps) r →
      ∀ v ∈ ps, globals.bindsClass v.typeExpr.className = true
  | [], _, _, _ => by simp
  | p :: ps, table, r, h => by
    simp only [params, param, yields_bind] at h
    obtain ⟨_, ⟨t, ht, -⟩, _, hps, -⟩ := h
    exact List.forall_mem_cons.2 ⟨resolve_className ht, params_className hps⟩

theorem returnType_className {ret? : Option TypeExpr} {t : Ty}
    (h : Yields (returnType globals ret?) t) :
    ∀ a ∈ ret?.toList, globals.bindsClass a.className = true := by
  cases ret? with
  | none => simp
  | some a =>
    simp only [returnType, yields_bind] at h
    obtain ⟨r, hr, -⟩ := h
    simpa using resolve_className hr

theorem locals_className {outer? : Option (Bindings Entry)} : ∀ {ds : List LocalDecl}
    {table table' : Bindings Entry}, Yields (locals globals outer? table ds) table' →
      ∀ v, .var v ∈ ds → globals.bindsClass v.var.typeExpr.className = true
  | [], _, _, _ => by simp
  | .var d :: ds, table, table', h => by
    simp only [locals, localVar, yields_bind] at h
    obtain ⟨table₁, ⟨r, hr, -⟩, hds⟩ := h
    intro v hv
    rcases List.mem_cons.1 hv with hv | hv
    · cases hv
      exact resolve_className hr
    · exact locals_className hds v hv
  | .global _ _ :: ds, table, table', h | .nonlocal _ _ :: ds, table, table', h
  | .func _ :: ds, table, table', h => by
    simp only [locals, yields_bind] at h
    obtain ⟨table₁, -, hds⟩ := h
    intro v hv
    rcases List.mem_cons.1 hv with hv | hv
    · cases hv
    · exact locals_className hds v hv

theorem targets_yields {body : List Stmt} {u : Unit} (h : Yields (targets table body) u) :
    ∀ id ∈ Stmt.allAssigned body, table.declares id.name = true := by
  rw [targets, List.forM_eq_forM] at h
  generalize Stmt.allAssigned body = ids at h ⊢
  induction ids with
  | nil => simp
  | cons id ids ih =>
    rw [List.forM_cons, yields_bind] at h
    obtain ⟨_, hid, hids⟩ := h
    refine List.forall_mem_cons.2 ⟨?_, ih hids⟩
    by_contra hnot
    rw [if_neg hnot] at hid
    exact not_yields_report hid

mutual

theorem func_closed {globals : Bindings Entry} : ∀ {f : FuncDef}
    {outer? : Option (Bindings Entry)} {ty : FuncTy} {scope : Scope}, f.Valid →
      Yields (func globals outer? f) (ty, scope) → f.Closed globals.bindsClass
  | .mk loc id ps ret? decls body, outer?, ty, scope, hvalid, h => by
    obtain ⟨-, hscope, hdeclared⟩ := func_yields hvalid h
    simp only [func, yields_bind] at h
    obtain ⟨⟨types, table⟩, hparams, ret, hret, flags, hkeep, table', hlocals, scope', hnested,
      _, htargets, h⟩ := h
    obtain ⟨rfl, -, -⟩ := keep_yields hkeep
    rw [List.length_map] at hlocals hnested
    rw [kept_replicate] at hlocals
    have hscope' : scope = scope' := by
      split at h
      · simp at h
      · exact (Prod.mk.inj (yields_pure.1 h)).2.symm
    -- the table that the body is checked against binds the names of the function and `return`
    rw [← hscope', hscope] at htargets
    have hbody : Stmt.AllValid body := by
      simp only [FuncDef.Valid] at hvalid
      exact hvalid.2.2.2
    have hdecls : LocalDecl.AllValid decls := by
      simp only [FuncDef.Valid] at hvalid
      exact hvalid.2.2.1
    simp only [FuncDef.Closed]
    refine ⟨?_, fun id hid => ?_, nested_closed hdecls hnested⟩
    · simp only [FuncDef.annotations, FuncDef.params, FuncDef.ret?, FuncDef.decls,
        List.forall_mem_append, List.forall_mem_map]
      refine ⟨⟨params_className hparams, returnType_className hret⟩, fun v hv => ?_⟩
      obtain ⟨d, hd, hdv⟩ := List.mem_filterMap.1 hv
      cases LocalDecl.var?_eq_some.1 hdv
      exact locals_className hlocals v hd
    · have hdeclares := targets_yields htargets id hid.mem_allAssigned
      by_contra hnot
      have hnone := (hdeclared.get?_eq_none_iff (hid.validName hbody)).2 hnot
      rw [FuncDef.scope, Bindings.declares] at hdeclares
      rw [hnone] at hdeclares
      cases hdeclares

theorem nested_closed {globals : Bindings Entry} : ∀ {ds : List LocalDecl}
    {scope scope' : Scope}, LocalDecl.AllValid ds →
      Yields (nested globals scope ds (List.replicate ds.length true)) scope' →
        LocalDecl.AllClosed globals.bindsClass ds
  | [], scope, scope', _, _ => by simp only [LocalDecl.AllClosed]
  | .func f :: ds, scope, scope', hvalid, h => by
    simp only [LocalDecl.AllValid, LocalDecl.Valid] at hvalid
    simp only [List.length_cons, List.replicate_succ, nested, yields_bind] at h
    obtain ⟨⟨ty, inner⟩, hf, b, hb, h⟩ := h
    obtain ⟨rfl, -, -⟩ := isNewLocal_yields hb
    rw [if_pos rfl] at h
    simp only [LocalDecl.AllClosed]
    exact ⟨func_closed hvalid.1 hf, nested_closed hvalid.2 h⟩
  | .var _ :: ds, scope, scope', hvalid, h | .global _ _ :: ds, scope, scope', hvalid, h
  | .nonlocal _ _ :: ds, scope, scope', hvalid, h => by
    simp only [LocalDecl.AllValid] at hvalid
    simp only [List.length_cons, List.replicate_succ, nested] at h
    simp only [LocalDecl.AllClosed]
    exact nested_closed hvalid.2 h

end

theorem member_closed {cls : Name} {inherited : Env} {scope scope' : Scope} {m : Member}
    (hvalid : m.Valid) (h : Yields (member globals cls inherited scope m) scope') :
    m.Closed globals.bindsClass := by
  unfold member at h
  dsimp only at h
  split at h
  · simp at h
  split at h
  · simp at h
  cases m with
  | attr d =>
    dsimp only at h
    split at h
    · simp at h
    simp only [yields_bind] at h
    obtain ⟨r, hr, -⟩ := h
    exact resolve_className hr
  | method f =>
    simp only [yields_bind] at h
    obtain ⟨⟨ty, inner⟩, hf, -⟩ := h
    exact func_closed hvalid hf

theorem members_closed {cls : Name} {inherited : Env} : ∀ {ms : List Member}
    {scope scope' : Scope}, (∀ m ∈ ms, m.Valid) →
      Yields (members globals cls inherited scope ms) scope' → ∀ m ∈ ms, m.Closed globals.bindsClass
  | [], _, _, _, _ => by simp
  | m :: ms, scope, scope', hvalid, h => by
    obtain ⟨hm, hms⟩ := List.forall_mem_cons.1 hvalid
    simp only [members, yields_bind] at h
    obtain ⟨scope₁, hscope₁, h⟩ := h
    exact List.forall_mem_cons.2 ⟨member_closed hm hscope₁, members_closed hms h⟩

theorem classBodies_closed : ∀ {cs : List ClassDef} {globals globals' : Scope},
    (∀ c ∈ cs, c.Valid) → Yields (classBodies globals cs) globals' →
      ∀ c ∈ cs, ∀ m ∈ c.members, m.Closed globals.entries.bindsClass
  | [], _, _, _, _ => by simp
  | c :: cs, globals, globals', hvalid, h => by
    obtain ⟨hc, hcs⟩ := List.forall_mem_cons.1 hvalid
    simp only [classBodies, yields_bind] at h
    obtain ⟨scope, hscope, h⟩ := h
    have hrest := classBodies_closed hcs h
    rw [Scope.entries_setChild] at hrest
    exact List.forall_mem_cons.2 ⟨members_closed hc.2.2 hscope, hrest⟩

theorem globalVars_className : ∀ {ds : List VarDef} {globals globals' : Scope},
    Yields (globalVars globals ds) globals' →
      ∀ d ∈ ds, globals.entries.bindsClass d.var.typeExpr.className = true
  | [], _, _, _ => by simp
  | d :: ds, globals, globals', h => by
    simp only [globalVars, yields_bind] at h
    obtain ⟨r, hr, h⟩ := h
    have hd := resolve_className hr
    obtain rfl := resolve_yields hr
    simp only [yields_bind] at h
    obtain ⟨b, hb, h⟩ := h
    obtain ⟨rfl, hnew⟩ := isNew_yields hb
    have hds := globalVars_className h
    rw [Scope.entries_bind, VarDef.name, Bindings.add_of_new _ hnew,
      Bindings.bindsClass_append_value] at hds
    exact List.forall_mem_cons.2 ⟨hd, hds⟩

theorem globalFuncs_closed : ∀ {fs : List FuncDef} {globals globals' : Scope},
    (∀ f ∈ fs, f.Valid) → Yields (globalFuncs globals fs) globals' →
      ∀ f ∈ fs, f.Closed globals.entries.bindsClass
  | [], _, _, _, _ => by simp
  | f :: fs, globals, globals', hvalid, h => by
    obtain ⟨hf, hfs⟩ := List.forall_mem_cons.1 hvalid
    simp only [globalFuncs, yields_bind] at h
    obtain ⟨⟨ty, inner⟩, hfunc, b, hb, h⟩ := h
    obtain ⟨rfl, hnew⟩ := isNew_yields hb
    have hrest := globalFuncs_closed hfs h
    rw [Scope.entries_setChild, Scope.entries_bind, FuncDef.name, Bindings.add_of_new _ hnew,
      Bindings.bindsClass_append_func] at hrest
    exact List.forall_mem_cons.2 ⟨func_closed hf hfunc, hrest⟩

theorem bindsClass_append_map_var (t : Bindings Entry) (ds : List VarDef) :
    (t ++ ds.map VarDef.binding).bindsClass = t.bindsClass := by
  induction ds generalizing t with
  | nil => simp
  | cons d ds ih =>
    have h := ih (t ++ [d.binding])
    rw [List.append_assoc, List.singleton_append, VarDef.binding, TypedVar.binding,
      Bindings.bindsClass_append_value] at h
    exact h

/-- The superclass of a class is bound by what is built in and the classes before it. -/
theorem SupersBound.super : ∀ {before : List ClassDef} {c : ClassDef} {after : List ClassDef}
    {table : Bindings Entry}, SupersBound table (before ++ c :: after) →
      ∃ super, (table ++ before.map ClassDef.binding).get? c.super.name = some (.cls super) ∧
        super.special = false
  | [], c, after, table, h => by
    rw [List.map_nil, List.append_nil]
    exact h.1
  | b :: before, c, after, table, h => by
    obtain ⟨super, hsuper, hspecial⟩ := SupersBound.super h.2
    rw [List.append_assoc, List.singleton_append] at hsuper
    exact ⟨super, hsuper, hspecial⟩

end Declarations

/-! ### Soundness of declarations -/

namespace Program

variable {globals : Scope} {p : Program}

theorem Declared.bindsClass_iff (h : p.Declared globals) {x : Name} :
    globals.entries.bindsClass x = true ↔ p.HasClass x := by
  have hbuiltin : ∀ x ∈ [txt "object", txt "int", txt "str", txt "bool"],
      ∃ b ∈ Scope.builtins.entries, b.1 = x ∧ b.2.class?.isSome = true := by decide
  have hclasses : ∀ b ∈ Scope.builtins.entries, ∀ cls ∈ b.2.class?,
      b.1 ∈ [txt "object", txt "int", txt "str", txt "bool"] := by decide
  rw [Bindings.bindsClass]
  constructor
  · intro hx
    obtain ⟨cls, hcls⟩ := Option.isSome_iff_exists.1 hx
    obtain ⟨e, he, hecls⟩ := Option.bind_eq_some_iff.1 hcls
    cases e with
    | value t => cases hecls
    | func ty => cases hecls
    | cls cls' =>
      rcases h.get?_cls he with hb | ⟨c, hc, rfl, -⟩
      · exact .inl (hclasses _ hb _ rfl)
      · exact .inr ⟨c, hc, rfl⟩
  · rintro (hx | ⟨c, hc, rfl⟩)
    · obtain ⟨b, hb, rfl, hcls⟩ := hbuiltin x hx
      rw [h.get?_builtin hb]
      exact hcls
    · rw [h.get?_class hc]
      rfl

/-- What the passes over a program without a report found out about annotations and bodies. -/
theorem declare_closed (hvalid : p.Valid) (h : p.declare = ⟨globals, []⟩) :
    (∀ d, .var d ∈ p.decls → globals.entries.bindsClass d.var.typeExpr.className = true) ∧
      (∀ c, .cls c ∈ p.decls → ∀ m ∈ c.members, m.Closed globals.entries.bindsClass) ∧
      ∀ f, .func f ∈ p.decls → f.Closed globals.entries.bindsClass := by
  obtain ⟨hnd, -, s₁, s₂, s₃, hclasses, hvars, hbodies, hfuncs⟩ := declare_yields h
  obtain ⟨hentries₂, hchildren₂⟩ := Declarations.globalVars_yields hvars
  obtain ⟨-, -, -, hown, -⟩ := Declarations.classes_yields (TopDecl.classes_nodup hnd) hclasses
  have hchild₂ : ∀ c ∈ p.classes, s₂.child? c.name = some ⟨[c.binding], []⟩ := by
    intro c hc
    rw [Scope.child?, hchildren₂]
    exact hown c hc
  obtain ⟨hentries₃, -, -⟩ := Declarations.classBodies_yields hvalid.classes
    (TopDecl.classes_nodup hnd) hchild₂ hbodies
  obtain ⟨hentries, -, -⟩ := Declarations.globalFuncs_yields hvalid.funcs
    (TopDecl.funcs_nodup hnd) hfuncs
  -- variables and functions bind no class, so all passes see the same ones
  have h₂ : s₂.entries.bindsClass = s₁.entries.bindsClass := by
    rw [hentries₂, Declarations.bindsClass_append_map_var]
  have h₃ : s₃.entries.bindsClass = s₁.entries.bindsClass := by rw [hentries₃, h₂]
  have hglobals : globals.entries.bindsClass = s₁.entries.bindsClass := by
    rw [hentries, (Declarations.bindings_append_map_func _ _).2, h₃]
  rw [hglobals]
  refine ⟨fun d hd => ?_, fun c hc => ?_, fun f hf => ?_⟩
  · exact Declarations.globalVars_className hvars d
      (List.mem_filterMap.2 ⟨_, hd, rfl⟩)
  · rw [← h₂]
    exact Declarations.classBodies_closed hvalid.classes hbodies c
      (List.mem_filterMap.2 ⟨_, hc, rfl⟩)
  · rw [← h₃]
    exact Declarations.globalFuncs_closed hvalid.funcs hfuncs f
      (List.mem_filterMap.2 ⟨_, hf, rfl⟩)

theorem HasFunc.declared {isClass : Name → Bool} {global : Values} {f : FuncDef}
    (h : p.HasFunc f) (htop : ∀ f, .func f ∈ p.decls → f.Declared isClass global noOuter)
    (hmethod : ∀ c, .cls c ∈ p.decls → c.Declared isClass global) :
    ∃ outer, f.Declared isClass global outer := by
  induction h with
  | top hf => exact ⟨_, htop _ hf⟩
  | method hc hf => exact ⟨_, (hmethod _ hc).methods _ hf⟩
  | inner _ hg ih =>
    obtain ⟨outer, hf⟩ := ih
    exact ⟨_, hf.inner hg⟩

theorem HasFunc.closed {isClass : Name → Bool} {f : FuncDef} (h : p.HasFunc f)
    (htop : ∀ f, .func f ∈ p.decls → f.Closed isClass)
    (hmember : ∀ c, .cls c ∈ p.decls → ∀ m ∈ c.members, m.Closed isClass) : f.Closed isClass := by
  induction h with
  | top hf => exact htop _ hf
  | method hc hf => exact hmember _ hc _ hf
  | inner _ hg ih => exact ih.inner hg

/-! ### Ancestors -/

namespace Resolved

variable {c : ClassDef} {k x : Name}

/-- The table of a built-in class binds functions only. -/
theorem child?_builtin_class (hp : p.Resolved globals) {y : Name}
    (hy : y ∈ txt "object" :: specialClasses) : ∃ table, globals.child? y = some table ∧
      ∀ x e, table.get? x = some e → ∃ ty, e = .func ty := by
  have hbuiltin : ∀ y ∈ txt "object" :: specialClasses, Scope.builtins.declares y = true ∧
      ∃ table ∈ Scope.builtins.child? y, ∀ b ∈ table.entries, b.2.func?.isSome = true := by decide
  obtain ⟨hdeclares, table, htable, hfuncs⟩ := hbuiltin y hy
  rw [hp.declared.child?_builtin hdeclares]
  refine ⟨table, htable, fun x e he => ?_⟩
  have hfunc := hfuncs _ (Bindings.mem_of_get? he)
  cases e with
  | func ty => exact ⟨ty, rfl⟩
  | value t => cases hfunc
  | cls cls => cases hfunc

theorem child?_of_knows (hp : p.Resolved globals) (hk : globals.hierarchy.knows k = true) :
    ∃ table, globals.child? k = some table := by
  obtain ⟨super?, hsuper⟩ := Option.isSome_iff_exists.1 hk
  rcases hp.declared.super?_cases hsuper with ⟨rfl, -⟩ | ⟨hspecial, -⟩ | ⟨c, hc, rfl, -⟩
  · obtain ⟨table, htable, -⟩ := hp.child?_builtin_class List.mem_cons_self
    exact ⟨table, htable⟩
  · obtain ⟨table, htable, -⟩ := hp.child?_builtin_class (List.mem_cons_of_mem _ hspecial)
    exact ⟨table, htable⟩
  · exact ⟨_, (hp.declared.cls c hc).1⟩

theorem ancestors_class (hp : p.Resolved globals) (hc : .cls c ∈ p.decls) :
    globals.hierarchy.ancestors c.name = globals.hierarchy.lineage c.super.name := by
  have hlineage := hp.lineage_class hc
  have hne : c.name ≠ [] := hp.class_ne_nil (hp.knows_class hc)
  rw [Hierarchy.lineage, if_neg (by simpa using hne)] at hlineage
  exact (List.cons.inj hlineage).2

/-- A name that a class does not know is in none of the tables of its lineage. -/
theorem get?_eq_none (hp : p.Resolved globals) (hk : globals.hierarchy.knows k = true)
    (h : globals.member? k x = none) :
    ∀ j ∈ globals.hierarchy.lineage k, ∃ table, globals.child? j = some table ∧
      table.get? x = none := by
  intro j hj
  obtain ⟨table, htable⟩ := hp.child?_of_knows ((hp.line hk).knows_of_mem hj)
  refine ⟨table, htable, List.findSome?_eq_none_iff.1 h table.entries ?_⟩
  exact List.mem_filterMap.2 ⟨j, hj, by rw [htable]; rfl⟩

/-- Where a class knows a name as a method, if at all, so does its whole lineage. -/
theorem get?_func (hp : p.Resolved globals) (hover : p.Overrides globals)
    (hk : globals.hierarchy.knows k = true) (hx : ¬ p.HasClass x)
    (h : ∀ e, globals.member? k x = some e → ∃ ty, e = .func ty) :
    ∀ j ∈ globals.hierarchy.lineage k, ∃ table, globals.child? j = some table ∧
      ∀ e, table.get? x = some e → ∃ ty, e = .func ty := by
  have hbuiltin (y : Name) (hy : y ∈ txt "object" :: specialClasses) :
      ∃ table, globals.child? y = some table ∧
        ∀ e, table.get? x = some e → ∃ ty, e = .func ty := by
    obtain ⟨table, htable, hfuncs⟩ := hp.child?_builtin_class hy
    exact ⟨table, htable, hfuncs x⟩
  refine hp.class_induction (motive := fun k =>
    (∀ e, globals.member? k x = some e → ∃ ty, e = .func ty) →
      ∀ j ∈ globals.hierarchy.lineage k, ∃ table, globals.child? j = some table ∧
        ∀ e, table.get? x = some e → ∃ ty, e = .func ty) ?_ ?_ ?_ hk h
  · intro _ j hj
    rw [hp.lineage_object, List.mem_singleton] at hj
    exact hbuiltin j (hj ▸ List.mem_cons_self)
  · intro y hy _ j hj
    rw [hp.lineage_special hy, List.mem_cons, List.mem_singleton] at hj
    rcases hj with rfl | rfl
    · exact hbuiltin j (List.mem_cons_of_mem _ hy)
    · exact hbuiltin _ List.mem_cons_self
  · intro c hc _ ih hmember j hj
    rw [hp.lineage_class hc] at hj
    rcases List.mem_cons.1 hj with rfl | hj
    · refine ⟨_, (hp.declared.cls c hc).1, fun e he => hmember e ?_⟩
      have hown : Bindings.get? (c.binding :: c.members.map Member.binding) x = some e := he
      rw [hp.member?_class hc, hown]
      rfl
    · refine ih (fun e he => ?_) j hj
      -- what the superclass knows is overridden by a method, or else inherited
      by_cases hown : ∃ m ∈ c.members, m.ident.name = x
      · obtain ⟨m, hm, rfl⟩ := hown
        cases m with
        | attr d =>
          obtain ⟨ty, hty⟩ := hmember _ (hp.member?_attr hc hm)
          cases hty
        | method f =>
          obtain ⟨ty, rfl, -⟩ := hover.method hc hm he
          exact ⟨ty, rfl⟩
      · have hself : x ≠ c.name := fun heq => hx (.inr ⟨c, hc, heq.symm⟩)
        rw [← hp.member?_inherited hc hself fun m hm hmx => hown ⟨m, hm, hmx⟩] at he
        exact hmember e he

end Resolved

end Program

/-! ### Soundness -/

variable {globals : Scope} {p : Program}

theorem ClassDef.wellDeclared (hp : p.Resolved globals) (hover : p.Overrides globals)
    {c : ClassDef} (hc : .cls c ∈ p.decls)
    (hclosed : ∀ m ∈ c.members, m.Closed globals.entries.bindsClass) :
    c.WellDeclared globals p := by
  have hdeclared := (hp.declared.cls c hc).2
  have hsuper := hp.knows_super hc
  have hnotClass (m : Member) (hm : m ∈ c.members) : ¬ p.HasClass m.ident.name := by
    rw [← hp.declared.bindsClass_iff, hdeclared.notClass m hm]
    exact Bool.false_ne_true
  refine ⟨fun before after hsplit => ?_, hdeclared.nodup, hnotClass, fun d hd => ?_,
    fun d hd => ?_, fun f hf => ?_, fun f hf => ?_⟩
  · have hsupers := hp.declared.supers
    rw [hsplit, List.filterMap_append, List.filterMap_cons_some (by rfl)] at hsupers
    obtain ⟨super, hget, hspecial⟩ := hsupers.super
    have hbuiltin : ∀ b ∈ Scope.builtins.entries, ∀ cls ∈ b.2.class?, cls.special = false →
        b.1 = txt "object" := by decide
    rcases List.mem_append.1 (Bindings.mem_of_get? hget) with hmem | hmem
    · exact .inl (hbuiltin _ hmem super rfl hspecial)
    · obtain ⟨b, hb, heq⟩ := List.mem_map.1 hmem
      obtain ⟨d, hd, hdb⟩ := List.mem_filterMap.1 hb
      cases TopDecl.class?_eq_some.1 hdb
      exact .inr ⟨b, hd, (Prod.mk.inj heq).1⟩
  · exact hp.declared.bindsClass_iff.1 (hclosed _ hd)
  · rw [hp.ancestors_class hc]
    exact hp.get?_eq_none hsuper (hover.attr hc hd)
  · rw [hp.ancestors_class hc]
    refine hp.get?_func hover hsuper (hnotClass _ hf) fun e he => ?_
    obtain ⟨ty, rfl, -⟩ := hover.method hc hf he
    exact ⟨ty, rfl⟩
  · have hhead : (f.params.map TypedVar.ty).head? = some (.cls c.name) := (hover c hc _ hf).1
    cases hparams : f.params with
    | nil =>
      rw [hparams] at hhead
      cases hhead
    | cons v vs =>
      rw [hparams] at hhead
      exact ⟨v, vs, rfl, Option.some.inj hhead⟩

/-- A parsed program without a report obeys every rule of declaration. -/
theorem declarations_sound {source : Bytes} (hparse : parse source = .ok p)
    (hdeclare : p.declare = ⟨globals, []⟩) : p.WellDeclared globals := by
  have hvalid := parse_valid hparse
  have hp := Program.resolved hvalid hdeclare
  obtain ⟨hvars, hmembers, hfuncs⟩ := Program.declare_closed hvalid hdeclare
  have hnames : ∀ x ∈ [txt "object", txt "int", txt "str", txt "bool", txt "print", txt "input",
      txt "len"], Scope.builtins.declares x = true := by decide
  refine ⟨hp.declared.nodup, fun d hd hmem => ?_, fun d hd => ?_, fun c hc => ?_, fun f hf => ?_⟩
  · cases (hnames _ hmem).symm.trans (hp.declared.fresh d hd)
  · exact hp.declared.bindsClass_iff.1 (hvars d hd)
  · exact ClassDef.wellDeclared hp (Program.overrides hvalid hdeclare) hc (hmembers c hc)
  · obtain ⟨outer, hdeclared⟩ := hf.declared (fun f hf => (hp.declared.func f hf).2)
      fun c hc => (hp.declared.cls c hc).2
    have hclosed := hf.closed hfuncs hmembers
    refine ⟨hdeclared.nodup, fun x hx => ?_, fun a ha => ?_, hclosed.assigned⟩
    · rw [← hp.declared.bindsClass_iff, hdeclared.notClass x hx]
      exact Bool.false_ne_true
    · exact hp.declared.bindsClass_iff.1 (hclosed.annotations a ha)

/-- Classes that inherit, a function inside another one, a `nonlocal` name and a `for`. -/
def enclosing : Bytes :=
  txt "class A(object):\n  x:int = 1\n  def f(self:A)->int:\n    return 1\n" ++
    txt "class B(A):\n  y:[A] = None\n  def f(self:B)->int:\n    return 2\n" ++
    txt "def g(a:int):\n  b:B = None\n  def h():\n    nonlocal b\n    b = None\n" ++
    txt "  for a in [1]:\n    h()\n"

theorem enclosing_sound : ∃ globals p, parse enclosing = .ok p ∧ p.declare = ⟨globals, []⟩ ∧
    p.decls.length = 3 ∧ p.WellDeclared globals := by
  have hrun : (parse enclosing).toOption.any (fun p =>
      p.decls.length = 3 ∧ p.declare.diagnostics = []) = true := by decide +kernel
  obtain ⟨p, hparse, hprop⟩ := ok_of_any hrun
  obtain ⟨hlength, hreports⟩ := of_decide_eq_true hprop
  have hdeclare : p.declare = ⟨p.declare.value, []⟩ := by
    rw [← hreports]
  exact ⟨_, p, hparse, hdeclare, hlength, declarations_sound hparse hdeclare⟩

end ChocoRv
