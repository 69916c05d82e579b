import ChocoRv.Analysis.Basic
import ChocoRv.Proofs.Lexical

/-!
# Trees without their types

`erase` empties the slots of a tree. Checking types only fills slots, so a checked tree and the
tree it came from are the same once erased. Declarations do not look at slots: the scopes of a
program are those of its erased tree.
-/

namespace ChocoRv

def Mark.erase (m : Mark) : Mark := ⟨m.loc, none⟩

def Ident.erase (id : Ident) : Ident := { id with mark := id.mark.erase }

def Literal.erase (l : Literal) : Literal := { l with mark := l.mark.erase }

mutual

def Expr.erase : Expr → Expr
  | .lit l => .lit l.erase
  | .name id => .name id.erase
  | .unary m op e => .unary m.erase op e.erase
  | .binary m l op r => .binary m.erase l.erase op r.erase
  | .cond m test yes no => .cond m.erase test.erase yes.erase no.erase
  | .list m elems => .list m.erase (Expr.eraseAll elems)
  | .index m seq i => .index m.erase seq.erase i.erase
  | .member m object id => .member m.erase object.erase id.erase
  | .call m id args => .call m.erase id.erase (Expr.eraseAll args)
  | .methodCall m method object id args =>
    .methodCall m.erase method.erase object.erase id.erase (Expr.eraseAll args)

def Expr.eraseAll : List Expr → List Expr
  | [] => []
  | e :: es => e.erase :: Expr.eraseAll es

end

mutual

def Stmt.erase : Stmt → Stmt
  | .expr loc e => .expr loc e.erase
  | .assign loc targets value => .assign loc (Expr.eraseAll targets) value.erase
  | .ite loc test yes no => .ite loc test.erase (Stmt.eraseAll yes) (Stmt.eraseAll no)
  | .loop loc test body => .loop loc test.erase (Stmt.eraseAll body)
  | .each loc id iterable body => .each loc id.erase iterable.erase (Stmt.eraseAll body)
  | .ret loc none => .ret loc none
  | .ret loc (some e) => .ret loc (some e.erase)

def Stmt.eraseAll : List Stmt → List Stmt
  | [] => []
  | s :: ss => s.erase :: Stmt.eraseAll ss

end

def VarDef.erase (d : VarDef) : VarDef := { d with value := d.value.erase }

mutual

def FuncDef.erase : FuncDef → FuncDef
  | .mk loc id params ret? decls body =>
    .mk loc id params ret? (LocalDecl.eraseAll decls) (Stmt.eraseAll body)

def LocalDecl.erase : LocalDecl → LocalDecl
  | .var d => .var d.erase
  | .global loc id => .global loc id
  | .nonlocal loc id => .nonlocal loc id
  | .func f => .func f.erase

def LocalDecl.eraseAll : List LocalDecl → List LocalDecl
  | [] => []
  | d :: ds => d.erase :: LocalDecl.eraseAll ds

end

def Member.erase : Member → Member
  | .attr d => .attr d.erase
  | .method f => .method f.erase

def ClassDef.erase (c : ClassDef) : ClassDef := { c with members := c.members.map Member.erase }

def TopDecl.erase : TopDecl → TopDecl
  | .var d => .var d.erase
  | .func f => .func f.erase
  | .cls c => .cls c.erase

def Program.erase (p : Program) : Program := ⟨p.decls.map TopDecl.erase, Stmt.eraseAll p.body⟩

theorem Expr.eraseAll_eq_map (es : List Expr) : Expr.eraseAll es = es.map Expr.erase := by
  induction es with
  | nil => rfl
  | cons e es ih => simp [Expr.eraseAll, ih]

theorem LocalDecl.eraseAll_eq_map (ds : List LocalDecl) :
    LocalDecl.eraseAll ds = ds.map LocalDecl.erase := by
  induction ds with
  | nil => rfl
  | cons d ds ih => simp [LocalDecl.eraseAll, ih]

theorem Expr.isTarget_erase (e : Expr) : e.erase.isTarget = e.isTarget := by
  cases e <;> simp [Expr.erase, Expr.isTarget]

/-! ### Validity -/

mutual

theorem Expr.valid_erase : ∀ e : Expr, e.erase.Valid ↔ e.Valid
  | .lit l => by simp only [Expr.erase, Expr.Valid, Literal.erase]
  | .name id => by simp only [Expr.erase, Expr.Valid, Ident.erase]
  | .unary m op e => by simp only [Expr.erase, Expr.Valid, e.valid_erase]
  | .binary m l op r => by simp only [Expr.erase, Expr.Valid, l.valid_erase, r.valid_erase]
  | .cond m test yes no => by
    simp only [Expr.erase, Expr.Valid, test.valid_erase, yes.valid_erase, no.valid_erase]
  | .list m elems => by simp only [Expr.erase, Expr.Valid, Expr.allValid_eraseAll elems]
  | .index m seq i => by simp only [Expr.erase, Expr.Valid, seq.valid_erase, i.valid_erase]
  | .member m object id => by simp only [Expr.erase, Expr.Valid, Ident.erase, object.valid_erase]
  | .call m id args => by
    simp only [Expr.erase, Expr.Valid, Ident.erase, Expr.allValid_eraseAll args]
  | .methodCall m method object id args => by
    simp only [Expr.erase, Expr.Valid, Ident.erase, object.valid_erase,
      Expr.allValid_eraseAll args]

theorem Expr.allValid_eraseAll : ∀ es : List Expr, Expr.AllValid (Expr.eraseAll es) ↔
    Expr.AllValid es
  | [] => by simp only [Expr.eraseAll]
  | e :: es => by
    simp only [Expr.eraseAll, Expr.AllValid, e.valid_erase, Expr.allValid_eraseAll es]

end

mutual

theorem Stmt.valid_erase : ∀ s : Stmt, s.erase.Valid ↔ s.Valid
  | .expr loc e => by simp only [Stmt.erase, Stmt.Valid, e.valid_erase]
  | .assign loc targets value => by
    simp only [Stmt.erase, Stmt.Valid, value.valid_erase, Expr.eraseAll_eq_map,
      List.forall_mem_map, Expr.isTarget_erase, Expr.allValid_iff, Expr.valid_erase]
  | .ite loc test yes no => by
    simp only [Stmt.erase, Stmt.Valid, test.valid_erase, Stmt.allValid_eraseAll yes,
      Stmt.allValid_eraseAll no]
  | .loop loc test body => by
    simp only [Stmt.erase, Stmt.Valid, test.valid_erase, Stmt.allValid_eraseAll body]
  | .each loc id iterable body => by
    simp only [Stmt.erase, Stmt.Valid, Ident.erase, iterable.valid_erase,
      Stmt.allValid_eraseAll body]
  | .ret loc none => by simp only [Stmt.erase]
  | .ret loc (some e) => by simp only [Stmt.erase, Stmt.Valid, e.valid_erase]

theorem Stmt.allValid_eraseAll : ∀ ss : List Stmt, Stmt.AllValid (Stmt.eraseAll ss) ↔
    Stmt.AllValid ss
  | [] => by simp only [Stmt.eraseAll]
  | s :: ss => by
    simp only [Stmt.eraseAll, Stmt.AllValid, s.valid_erase, Stmt.allValid_eraseAll ss]

end

theorem VarDef.valid_erase (d : VarDef) : d.erase.Valid ↔ d.Valid := Iff.rfl

mutual

theorem FuncDef.valid_erase : ∀ f : FuncDef, f.erase.Valid ↔ f.Valid
  | .mk loc id params ret? decls body => by
    simp only [FuncDef.erase, FuncDef.Valid, LocalDecl.allValid_eraseAll decls,
      Stmt.allValid_eraseAll body]

theorem LocalDecl.valid_erase : ∀ d : LocalDecl, d.erase.Valid ↔ d.Valid
  | .var d => by simp only [LocalDecl.erase, LocalDecl.Valid, VarDef.valid_erase]
  | .global loc id => by simp only [LocalDecl.erase]
  | .nonlocal loc id => by simp only [LocalDecl.erase]
  | .func f => by simp only [LocalDecl.erase, LocalDecl.Valid, f.valid_erase]

theorem LocalDecl.allValid_eraseAll : ∀ ds : List LocalDecl,
    LocalDecl.AllValid (LocalDecl.eraseAll ds) ↔ LocalDecl.AllValid ds
  | [] => by simp only [LocalDecl.eraseAll]
  | d :: ds => by
    simp only [LocalDecl.eraseAll, LocalDecl.AllValid, d.valid_erase,
      LocalDecl.allValid_eraseAll ds]

end

theorem Member.valid_erase (m : Member) : m.erase.Valid ↔ m.Valid := by
  cases m with
  | attr d => exact d.valid_erase
  | method f => exact f.valid_erase

theorem TopDecl.valid_erase (d : TopDecl) : d.erase.Valid ↔ d.Valid := by
  cases d with
  | var d => exact d.valid_erase
  | func f => exact f.valid_erase
  | cls c =>
    simp only [TopDecl.erase, TopDecl.Valid, ClassDef.erase, ClassDef.Valid, ClassDef.name,
      List.forall_mem_map, Member.valid_erase]

theorem Program.valid_erase (p : Program) : p.erase.Valid ↔ p.Valid := by
  simp only [Program.erase, Program.Valid, List.forall_mem_map, TopDecl.valid_erase,
    Stmt.allValid_eraseAll]

/-! ### Declarations -/

mutual

theorem Stmt.assigned_erase : ∀ s : Stmt, s.erase.assigned = s.assigned.map Ident.erase
  | .expr loc e => by simp only [Stmt.erase, Stmt.assigned, List.map_nil]
  | .assign loc targets value => by
    simp only [Stmt.erase, Stmt.assigned, Expr.eraseAll_eq_map, List.filterMap_map,
      List.map_filterMap]
    congr 1
    funext e
    cases e <;> simp [Expr.erase]
  | .ite loc test yes no => by
    simp only [Stmt.erase, Stmt.assigned, Stmt.allAssigned_eraseAll yes,
      Stmt.allAssigned_eraseAll no, List.map_append]
  | .loop loc test body => by
    simp only [Stmt.erase, Stmt.assigned, Stmt.allAssigned_eraseAll body]
  | .each loc id iterable body => by
    simp only [Stmt.erase, Stmt.assigned, Stmt.allAssigned_eraseAll body, List.map_cons]
  | .ret loc none => by simp only [Stmt.erase, Stmt.assigned, List.map_nil]
  | .ret loc (some e) => by simp only [Stmt.erase, Stmt.assigned, List.map_nil]

theorem Stmt.allAssigned_eraseAll : ∀ ss : List Stmt,
    Stmt.allAssigned (Stmt.eraseAll ss) = (Stmt.allAssigned ss).map Ident.erase
  | [] => by simp only [Stmt.eraseAll, Stmt.allAssigned, List.map_nil]
  | s :: ss => by
    simp only [Stmt.eraseAll, Stmt.allAssigned, s.assigned_erase, Stmt.allAssigned_eraseAll ss,
      List.map_append]

end

mutual

theorem Stmt.returns_erase : ∀ s : Stmt, s.erase.returns = s.returns
  | .expr loc e => by simp only [Stmt.erase, Stmt.returns]
  | .assign loc targets value => by simp only [Stmt.erase, Stmt.returns]
  | .ite loc test yes no => by
    simp only [Stmt.erase, Stmt.returns, Stmt.alwaysReturns_eraseAll yes,
      Stmt.alwaysReturns_eraseAll no]
  | .loop loc test body => by simp only [Stmt.erase, Stmt.returns]
  | .each loc id iterable body => by simp only [Stmt.erase, Stmt.returns]
  | .ret loc none => by simp only [Stmt.erase]
  | .ret loc (some e) => by simp only [Stmt.erase, Stmt.returns]

theorem Stmt.alwaysReturns_eraseAll : ∀ ss : List Stmt,
    Stmt.alwaysReturns (Stmt.eraseAll ss) = Stmt.alwaysReturns ss
  | [] => by simp only [Stmt.eraseAll]
  | s :: ss => by
    simp only [Stmt.eraseAll, Stmt.alwaysReturns, s.returns_erase, Stmt.alwaysReturns_eraseAll ss]

end

theorem LocalDecl.ident_erase (d : LocalDecl) : d.erase.ident = d.ident := by
  cases d with
  | var d => simp only [LocalDecl.erase]; rfl
  | global loc id | «nonlocal» loc id => simp only [LocalDecl.erase]
  | func f =>
    obtain ⟨loc, id, params, ret?, decls, body⟩ := f
    simp only [LocalDecl.erase, FuncDef.erase]
    rfl

theorem FuncDef.ident_erase (f : FuncDef) : f.erase.ident = f.ident := by
  obtain ⟨loc, id, params, ret?, decls, body⟩ := f
  simp only [FuncDef.erase]
  rfl

namespace Declarations

theorem kept_map {α β : Type} (g : α → β) (xs : List α) (flags : List Bool) :
    kept (xs.map g) flags = (kept xs flags).map g := by
  unfold kept
  induction xs generalizing flags with
  | nil => simp
  | cons x xs ih =>
    cases flags with
    | nil => simp
    | cons b flags => cases b <;> simp [ih]

theorem targets_erase (table : Bindings Entry) (body : List Stmt) :
    targets table (Stmt.eraseAll body) = targets table body := by
  unfold targets
  rw [Stmt.allAssigned_eraseAll]
  induction Stmt.allAssigned body with
  | nil => rfl
  | cons id ids ih =>
    simp only [List.map_cons, List.forM_eq_forM, List.forM_cons] at ih ⊢
    rw [ih]
    rfl

theorem locals_erase (globals : Bindings Entry) (outer? : Option (Bindings Entry))
    (ds : List LocalDecl) : ∀ table : Bindings Entry,
    locals globals outer? table (ds.map LocalDecl.erase) = locals globals outer? table ds := by
  induction ds with
  | nil => intro table; rfl
  | cons d ds ih =>
    intro table
    cases d with
    | var d => simp only [List.map_cons, LocalDecl.erase, locals, ih]; rfl
    | global loc id | «nonlocal» loc id => simp only [List.map_cons, LocalDecl.erase, locals, ih]
    | func f => simp only [List.map_cons, LocalDecl.erase, locals, ih]

mutual

/-- The scope of a function does not depend on slots. -/
theorem func_erase (globals : Bindings Entry) (outer? : Option (Bindings Entry)) :
    ∀ f : FuncDef, func globals outer? f.erase = func globals outer? f
  | .mk loc id ps ret? decls body => by
    have hids : (LocalDecl.eraseAll decls).map LocalDecl.ident = decls.map LocalDecl.ident := by
      rw [LocalDecl.eraseAll_eq_map, List.map_map]
      exact List.map_congr_left fun d _ => d.ident_erase
    simp only [FuncDef.erase, func, hids, nested_erase globals decls, targets_erase,
      Stmt.alwaysReturns_eraseAll]
    simp only [LocalDecl.eraseAll_eq_map, kept_map, locals_erase]

theorem nested_erase (globals : Bindings Entry) : ∀ (ds : List LocalDecl) (scope : Scope)
    (flags : List Bool), nested globals scope (LocalDecl.eraseAll ds) flags =
      nested globals scope ds flags
  | [], scope, flags => by simp only [LocalDecl.eraseAll]
  | d :: ds, scope, [] => by
    cases d <;> simp only [LocalDecl.eraseAll, LocalDecl.erase, nested]
  | .var d :: ds, scope, b :: flags => by
    simp only [LocalDecl.eraseAll, LocalDecl.erase, nested, nested_erase globals ds]
  | .global loc id :: ds, scope, b :: flags => by
    simp only [LocalDecl.eraseAll, LocalDecl.erase, nested, nested_erase globals ds]
  | .nonlocal loc id :: ds, scope, b :: flags => by
    simp only [LocalDecl.eraseAll, LocalDecl.erase, nested, nested_erase globals ds]
  | .func f :: ds, scope, false :: flags => by
    simp only [LocalDecl.eraseAll, LocalDecl.erase, nested, nested_erase globals ds]
  | .func f :: ds, scope, true :: flags => by
    simp only [LocalDecl.eraseAll, LocalDecl.erase, nested, nested_erase globals ds,
      func_erase globals _ f, FuncDef.name, FuncDef.ident_erase]

end

theorem member_erase (globals : Bindings Entry) (cls : Name) (inherited : Env) (scope : Scope)
    (m : Member) : member globals cls inherited scope m.erase =
      member globals cls inherited scope m := by
  cases m with
  | attr d => rfl
  | method f =>
    simp only [member, Member.erase, Member.ident, FuncDef.ident_erase, func_erase]
    rfl

theorem members_erase (globals : Bindings Entry) (cls : Name) (inherited : Env)
    (ms : List Member) : ∀ scope : Scope, members globals cls inherited scope
      (ms.map Member.erase) = members globals cls inherited scope ms := by
  induction ms with
  | nil => intro scope; rfl
  | cons m ms ih => intro scope; simp only [List.map_cons, members, member_erase, ih]

theorem classes_erase (cs : List ClassDef) : ∀ globals : Scope,
    classes globals (cs.map ClassDef.erase) =
      (do let (globals, cs) ← classes globals cs; return (globals, cs.map ClassDef.erase)) := by
  induction cs with
  | nil => intro globals; rfl
  | cons c cs ih =>
    intro globals
    have hnew : newClass? globals c.erase = newClass? globals c := rfl
    simp only [List.map_cons, classes, hnew, ih, bind_assoc]
    refine bind_congr fun r => ?_
    cases r with
    | none => simp only
    | some globals => simp only [bind_assoc, pure_bind, List.map_cons]

theorem globalVars_erase (ds : List VarDef) : ∀ globals : Scope,
    globalVars globals (ds.map VarDef.erase) = globalVars globals ds := by
  induction ds with
  | nil => intro globals; rfl
  | cons d ds ih => intro globals; simp only [List.map_cons, globalVars, ih]; rfl

theorem classBodies_erase (cs : List ClassDef) : ∀ globals : Scope,
    classBodies globals (cs.map ClassDef.erase) = classBodies globals cs := by
  induction cs with
  | nil => intro globals; rfl
  | cons c cs ih =>
    intro globals
    simp only [List.map_cons, classBodies, ClassDef.erase, ClassDef.name, members_erase, ih]

theorem globalFuncs_erase (fs : List FuncDef) : ∀ globals : Scope,
    globalFuncs globals (fs.map FuncDef.erase) = globalFuncs globals fs := by
  induction fs with
  | nil => intro globals; rfl
  | cons f fs ih =>
    intro globals
    simp only [List.map_cons, globalFuncs, func_erase, FuncDef.name, FuncDef.ident_erase, ih]

end Declarations

/-- The scopes of a program are those of its erased tree. -/
theorem Program.declare_erase (p : Program) : p.erase.declare = p.declare := by
  have hids : (p.decls.map TopDecl.erase).map TopDecl.ident = p.decls.map TopDecl.ident := by
    rw [List.map_map]
    refine List.map_congr_left fun d _ => ?_
    cases d with
    | var d => rfl
    | func f => exact f.ident_erase
    | cls c => rfl
  have hcls (ds : List TopDecl) : (ds.map TopDecl.erase).filterMap TopDecl.class? =
      (ds.filterMap TopDecl.class?).map ClassDef.erase := by
    rw [List.filterMap_map, List.map_filterMap]
    congr 1; funext d; cases d <;> rfl
  have hvar (ds : List TopDecl) : (ds.map TopDecl.erase).filterMap TopDecl.var? =
      (ds.filterMap TopDecl.var?).map VarDef.erase := by
    rw [List.filterMap_map, List.map_filterMap]
    congr 1; funext d; cases d <;> rfl
  have hfun (ds : List TopDecl) : (ds.map TopDecl.erase).filterMap TopDecl.func? =
      (ds.filterMap TopDecl.func?).map FuncDef.erase := by
    rw [List.filterMap_map, List.map_filterMap]
    congr 1; funext d; cases d <;> rfl
  simp only [Program.declare, Program.erase, hids, Declarations.kept_map, hcls, hvar, hfun,
    Declarations.classes_erase, Declarations.globalVars_erase, Declarations.classBodies_erase,
    Declarations.globalFuncs_erase, bind_assoc, pure_bind]

end ChocoRv
