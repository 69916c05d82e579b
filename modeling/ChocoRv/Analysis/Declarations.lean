import ChocoRv.Diagnostic
import ChocoRv.Scope
import ChocoRv.Tree.Basic

/-!
# Declarations

The scopes of a program. Classes are bound first, then global variables, class members and
functions, so that annotations and bodies may name what is declared later; only a superclass has to
stand before its subclasses. Of two declarations of one name the later is reported and dropped.
-/

namespace ChocoRv

/-- The pseudo-name under which a function scope keeps its return type. -/
def returnEntry : Name := txt "return"

def initName : Name := txt "__init__"

namespace Scope

/-- The scope before any declaration: the four built-in classes and three functions. -/
def builtins : Scope :=
  let object := txt "object"
  let special (name : String) (s : Scope) : Scope :=
    (s.bind (txt name) (.cls ⟨txt name, some object, true⟩)).setChild (txt name) empty
  let root := empty.bind initName (.func ⟨[.object], .noneType⟩)
  let classes := (empty.bind object (.cls ⟨object, none, false⟩)).setChild object root
    |> special "int" |> special "str" |> special "bool"
  classes
    |>.bind (txt "print") (.func ⟨[.object], .noneType⟩)
    |>.bind (txt "input") (.func ⟨[], .str⟩)
    |>.bind (txt "len") (.func ⟨[.object], .int⟩)

end Scope

/-- Whether a table of globals binds the name to a class. -/
def Bindings.bindsClass (globals : Bindings Entry) (name : Name) : Bool :=
  ((globals.get? name).bind Entry.class?).isSome

/-- The value type that a name is bound to in a table. -/
def Bindings.value? (table : Bindings Entry) (name : Name) : Option Ty :=
  (table.get? name).bind Entry.value?

namespace Declarations

open Reporting

/-- For each identifier whether it may be bound: a name that the table binds or that came before is
reported. -/
def keep (table : Bindings Entry) (seen : List Name) : List Ident → Reporting (List Bool)
  | [] => return []
  | id :: ids =>
    if seen.contains id.name || table.declares id.name then do
      report id.loc (.duplicate id.name)
      return false :: (← keep table seen ids)
    else return true :: (← keep table (id.name :: seen) ids)

/-- The elements whose flag is set. -/
def kept {α : Type} (xs : List α) (flags : List Bool) : List α :=
  (xs.zip flags).filterMap fun (x, flag) => if flag then some x else none

/-- The type that an annotation names, if all its classes exist. -/
def resolve (globals : Bindings Entry) : TypeExpr → Reporting (Option Ty)
  | .cls loc name => do
    if globals.bindsClass name then return some (.cls name)
    report loc (.noClass name)
    return none
  | .list _ elem => return (← resolve globals elem).map .list

/-- Whether the table lacks the name; otherwise it is reported. -/
def isNew (table : Bindings Entry) (id : Ident) : Reporting Bool := do
  unless table.declares id.name do return true
  report id.loc (.duplicate id.name)
  return false

/-- Whether the name is new in the table of a function and hides no class. -/
def isNewLocal (globals table : Bindings Entry) (id : Ident) : Reporting Bool := do
  unless ← isNew table id do return false
  unless globals.bindsClass id.name do return true
  report id.loc (.shadowsClass id.name)
  return false

/-- Binds a variable of a function. -/
def localVar (globals table : Bindings Entry) (d : VarDef) : Reporting (Bindings Entry) := do
  match ← resolve globals d.var.typeExpr with
  | none => return table
  | some t =>
    if ← isNewLocal globals table d.var.name then return table.add d.name (.value t)
    return table

/-- Binds a name of a function to a global variable. -/
def globalName (globals table : Bindings Entry) (id : Ident) : Reporting (Bindings Entry) := do
  unless ← isNewLocal globals table id do return table
  match globals.value? id.name with
  | some t => return table.add id.name (.value t)
  | none => report id.loc (.notGlobal id.name); return table

/-- Binds a name of a function to a variable of the function around it. -/
def nonlocalName (globals : Bindings Entry) (outer? : Option (Bindings Entry))
    (table : Bindings Entry) (id : Ident) : Reporting (Bindings Entry) := do
  unless ← isNewLocal globals table id do return table
  match outer?.bind (·.value? id.name) with
  | some t => return table.add id.name (.value t)
  | none => report id.loc (.notNonlocal id.name); return table

/-- Binds a parameter. One whose annotation cannot be resolved counts as an `object`. -/
def param (globals table : Bindings Entry) (p : TypedVar) : Reporting (Ty × Bindings Entry) := do
  match ← resolve globals p.typeExpr with
  | none => return (.object, table)
  | some t =>
    if ← isNewLocal globals table p.name then return (t, table.add p.name.name (.value t))
    return (t, table)

/-- The types of the parameters and the table with their names. -/
def params (globals table : Bindings Entry) : List TypedVar → Reporting (List Ty × Bindings Entry)
  | [] => return ([], table)
  | p :: ps => do
    let (t, table) ← param globals table p
    let (ts, table) ← params globals table ps
    return (t :: ts, table)

def returnType (globals : Bindings Entry) : Option TypeExpr → Reporting Ty
  | none => return .noneType
  | some a => return (← resolve globals a).getD .object

/-- Binds the variables of a function, its own and those of other scopes. -/
def locals (globals : Bindings Entry) (outer? : Option (Bindings Entry)) (table : Bindings Entry) :
    List LocalDecl → Reporting (Bindings Entry)
  | [] => return table
  | d :: ds => do
    let table ← match d with
      | .var d => localVar globals table d
      | .global _ id => globalName globals table id
      | .nonlocal _ id => nonlocalName globals outer? table id
      | .func _ => pure table
    locals globals outer? table ds

end Declarations

mutual

/-- The names that a statement assigns to, `for` variables included. -/
def Stmt.assigned : Stmt → List Ident
  | .assign _ targets _ =>
    targets.filterMap fun | .name id => some id | _ => none
  | .each _ id _ body => id :: Stmt.allAssigned body
  | .ite _ _ yes no => Stmt.allAssigned yes ++ Stmt.allAssigned no
  | .loop _ _ body => Stmt.allAssigned body
  | .expr .. | .ret .. => []

def Stmt.allAssigned : List Stmt → List Ident
  | [] => []
  | s :: ss => s.assigned ++ Stmt.allAssigned ss

end

mutual

/-- Whether every path through the statement ends in a return. -/
def Stmt.returns : Stmt → Bool
  | .ret .. => true
  | .ite _ _ yes no => Stmt.alwaysReturns yes && Stmt.alwaysReturns no
  | _ => false

def Stmt.alwaysReturns : List Stmt → Bool
  | [] => false
  | s :: ss => s.returns || Stmt.alwaysReturns ss

end

namespace Declarations

open Reporting

/-- Reports the names assigned in a body that its table does not bind. -/
def targets (table : Bindings Entry) (body : List Stmt) : Reporting Unit :=
  (Stmt.allAssigned body).forM fun id =>
    unless table.declares id.name do report id.loc (.undeclaredTarget id.name)

mutual

/-- The signature and scope of a function. `outer?` is the table of the function around it. -/
def func (globals : Bindings Entry) (outer? : Option (Bindings Entry)) :
    FuncDef → Reporting (FuncTy × Scope)
  | .mk _ id ps ret? decls body => do
    let (types, table) ← params globals [] ps
    let ret ← returnType globals ret?
    let flags ← keep table [] (decls.map LocalDecl.ident)
    let table ← locals globals outer? table (kept decls flags)
    let table := table.add returnEntry (.value ret)
    let scope ← nested globals ⟨table, []⟩ decls flags
    targets scope.entries body
    if ret.isSpecial && !Stmt.alwaysReturns body then
      report id.loc (.missingReturn id.name)
    return (⟨types, ret⟩, scope)

/-- Binds the functions among the declarations of a function. -/
def nested (globals : Bindings Entry) (scope : Scope) :
    List LocalDecl → List Bool → Reporting Scope
  | .func f :: ds, true :: flags => do
    let (ty, inner) ← func globals (some scope.entries) f
    if ← isNewLocal globals scope.entries f.ident then
      nested globals ((scope.bind f.name (.func ty)).setChild f.name inner) ds flags
    else nested globals scope ds flags
  | _ :: ds, _ :: flags => nested globals scope ds flags
  | _, _ => return scope

end

/-- The superclass that a class may extend. -/
def superClass? (globals : Scope) (id : Ident) : Reporting (Option ClassTy) := do
  match globals.get? id.name with
  | none => report id.loc (.superUndefined id.name); return none
  | some (.cls c) =>
    unless c.special do return some c
    report id.loc (.superSpecial id.name)
    return none
  | some _ => report id.loc (.superNotClass id.name); return none

/-- Binds a class whose members so far are only itself; no scope if it is dropped. -/
def newClass? (globals : Scope) (c : ClassDef) : Reporting (Option Scope) := do
  match ← superClass? globals c.super with
  | none => return none
  | some _ =>
    unless ← isNew globals.entries c.ident do return none
    let entry : Entry := .cls ⟨c.name, some c.super.name, false⟩
    return some ((globals.bind c.name entry).setChild c.name (Scope.empty.bind c.name entry))

/-- Binds the classes and returns those that were not dropped. -/
def classes (globals : Scope) : List ClassDef → Reporting (Scope × List ClassDef)
  | [] => return (globals, [])
  | c :: cs => do
    match ← newClass? globals c with
    | none => classes globals cs
    | some globals =>
      let (globals, rest) ← classes globals cs
      return (globals, c :: rest)

def globalVars (globals : Scope) : List VarDef → Reporting Scope
  | [] => return globals
  | d :: ds => do
    match ← resolve globals.entries d.var.typeExpr with
    | none => globalVars globals ds
    | some t =>
      if ← isNew globals.entries d.var.name then
        globalVars (globals.bind d.name (.value t)) ds
      else globalVars globals ds

/-- A method has its class first and keeps the signature that it inherits. -/
def checkMethod (cls : Name) (inherited : Env) (id : Ident) (ty : FuncTy) : Reporting Unit := do
  if ty.params.head? ≠ some (.cls cls) then
    report id.loc (.firstParameter id.name)
  else
    match inherited.get? id.name with
    | none => return
    | some (.func super) =>
      if id.name == initName && ty.params.length == 1 && super.params.length == 1 then return
      unless super.sameFrom 1 ty do report id.loc (.overrideSignature id.name)
    | some _ => report id.loc (.redefinesAttribute id.name)

/-- Binds one member of a class in its member scope. -/
def member (globals : Bindings Entry) (cls : Name) (inherited : Env) (scope : Scope) (m : Member) :
    Reporting Scope := do
  let id := m.ident
  if globals.bindsClass id.name then
    report id.loc (.shadowsClass id.name)
    return scope
  if scope.declares id.name then
    report id.loc (.duplicate id.name)
    return scope
  match m with
  | .attr d =>
    if (inherited.get? id.name).isSome then
      report id.loc (.redefinesAttribute id.name)
      return scope
    match ← resolve globals d.var.typeExpr with
    | none => return scope
    | some t => return scope.bind id.name (.value t)
  | .method f =>
    let (ty, inner) ← func globals none f
    checkMethod cls inherited id ty
    return (scope.bind id.name (.func ty)).setChild id.name inner

def members (globals : Bindings Entry) (cls : Name) (inherited : Env) (scope : Scope) :
    List Member → Reporting Scope
  | [] => return scope
  | m :: ms => do members globals cls inherited (← member globals cls inherited scope m) ms

/-- Binds the members of the classes in order. -/
def classBodies (globals : Scope) : List ClassDef → Reporting Scope
  | [] => return globals
  | c :: cs => do
    let inherited := globals.memberTables c.super.name
    let scope := (globals.child? c.name).getD .empty
    let scope ← members globals.entries c.name inherited scope c.members
    classBodies (globals.setChild c.name scope) cs

def globalFuncs (globals : Scope) : List FuncDef → Reporting Scope
  | [] => return globals
  | f :: fs => do
    let (ty, inner) ← func globals.entries none f
    if ← isNew globals.entries f.ident then
      globalFuncs ((globals.bind f.name (.func ty)).setChild f.name inner) fs
    else globalFuncs globals fs

end Declarations

/-- The scopes of a program. -/
def Program.declare (p : Program) : Reporting Scope := do
  let globals := Scope.builtins
  let flags ← Declarations.keep globals.entries [] (p.decls.map TopDecl.ident)
  let decls := Declarations.kept p.decls flags
  let (globals, classes) ← Declarations.classes globals (decls.filterMap TopDecl.class?)
  let globals ← Declarations.globalVars globals (decls.filterMap TopDecl.var?)
  let globals ← Declarations.classBodies globals classes
  Declarations.globalFuncs globals (decls.filterMap TopDecl.func?)

end ChocoRv
