import ChocoRv.Analysis.Declarations

/-!
# Types of expressions

`check` infers the type of every expression and returns the tree with its slots written. An
erroneous expression is reported and gets a type all the same, so that checking goes on.
-/

namespace ChocoRv

namespace Typing

/-- What stops checking. -/
inductive Fault where
  /-- A slot written twice, which sound declarations exclude. -/
  | slot (e : SlotError)
  /-- A class whose constructor is no method: it or an ancestor is itself named `__init__`. -/
  | constructor (cls : Name)
deriving DecidableEq, Repr

def Fault.message : Fault → Bytes
  | slot e => e.message
  | constructor _ =>
    txt "interface conversion: types.SymbolType is *types.ClassType, not *types.FuncType"

end Typing

abbrev Typing := ExceptT Typing.Fault Reporting

namespace Typing

def report (loc : Loc) (p : Problem) : Typing Unit := (Reporting.report loc p : Reporting Unit)

def reportUnless (ok : Bool) (loc : Loc) (p : Problem) : Typing Unit :=
  if ok then return else report loc p

/-- Writes a slot. -/
def write (m : Mark) (e : Entry) : Typing Mark :=
  match m.write e with
  | .ok m => return m
  | .error e => throw (.slot e)

def writeIdent (id : Ident) (e : Entry) : Typing Ident :=
  return { id with mark := ← write id.mark e }

/-- What an expression sees: the global scope, its classes and the tables around it. `ret?` is the
return type of the function and missing at the top level. -/
structure Context where
  globals : Scope
  hierarchy : Hierarchy
  env : Env
  top : Bool
  ret? : Option Ty

namespace Context

def ofGlobals (globals : Scope) : Context :=
  { globals, hierarchy := globals.hierarchy, env := [globals.entries], top := true, ret? := none }

/-- Inside the scope of a function. -/
def enter (c : Context) (scope : Scope) : Context :=
  { c with env := scope.entries :: c.env, top := false, ret? := scope.entries.value? returnEntry }

/-- The class of the values of a type, if it is an instance of one. -/
def classOf? (c : Context) : Ty → Option ClassTy
  | .cls name => (c.globals.get? name).bind Entry.class?
  | _ => none

/-- A member of a class or of its ancestors. -/
def member? (c : Context) (cls : ClassTy) (name : Name) : Option Entry :=
  c.globals.member? cls.name name

end Context

def litType : Lit → Ty
  | .int _ => .int
  | .str _ => .str
  | .bool _ => .bool
  | .none => .noneType

/-- The type of `left op right` and whether the operands fit. -/
def binaryType (h : Hierarchy) (op : BinOp) (left right : Ty) : Ty × Bool :=
  match op with
  | .and | .or => (.bool, left == .bool && right == .bool)
  | .sub | .mul | .floorDiv | .mod => (.int, left == .int && right == .int)
  | .lt | .gt | .le | .ge => (.bool, left == .int && right == .int)
  | .eq | .ne => (.bool, left == right && left.isSpecial)
  | .is => (.bool, !left.isSpecial && !right.isSpecial)
  | .add =>
    if left == .int && right == .int then (.int, true)
    else if left == .str && right == .str then (.str, true)
    else if left.isListLike && right.isListLike then
      match h.join? left.elem? right.elem? with
      | some elem => (.list elem, true)
      | none => (.emptyList, true)
    else if left == .int || right == .int then (.int, false)
    else (.object, false)

/-- The element type of a sequence, if it is one. -/
def elemType? : Ty → Option Ty
  | .list elem => some elem
  | t => if t == .str then some .str else none

/-- Reports arguments that do not fit their parameters. -/
def reportArgs (h : Hierarchy) : Nat → List Ty → List (Loc × Ty) → Typing Unit
  | i, p :: ps, (loc, t) :: args => do
    reportUnless (h.isCompatible p t) loc (.argumentMismatch p t i)
    reportArgs h (i + 1) ps args
  | _, _, _ => return

/-- Reports a wrong number of arguments, or else those that do not fit. -/
def matchArgs (h : Hierarchy) (loc : Loc) (params : List Ty) (args : List (Loc × Ty)) :
    Typing Unit :=
  if params.length = args.length then reportArgs h 1 params args
  else report loc (.argumentCount params.length args.length)

/-- What a call of a name means. -/
inductive Callee where
  /-- A function, or the constructor of a class, with the entry for the slot of the name. -/
  | func (entry : Entry) (params : List Ty) (result : Ty)
  /-- An instance of `int`, `str` or `bool`. -/
  | special (entry : Entry) (result : Ty)
  | unknown

def callee (c : Context) (name : Name) : Typing Callee :=
  match c.env.get? name with
  | some (.func f) => return .func (.func f) f.params f.ret
  | some (.cls cls) =>
    if cls.special then return .special (.cls cls) (.cls name)
    else match c.member? cls initName with
      | some (.func init) =>
        match init.params with
        | _ :: params => return .func (.func init) params (.cls name)
        | [] => throw (.constructor name)
      | _ => throw (.constructor name)
  | _ => return .unknown

/-- The method that a call through a type runs, if it has a receiver. -/
def method? (c : Context) (receiver : Ty) (name : Name) : Option FuncTy := do
  let cls ← c.classOf? receiver
  let f ← (← c.member? cls name).func?
  if f.params.isEmpty then none else some f

def checkLiteral (l : Literal) : Typing Literal :=
  return { l with mark := ← write l.mark (.value (litType l.value)) }

/-- The type of a name as a variable. -/
def checkName (c : Context) (id : Ident) : Typing (Ident × Ty) := do
  let t ← match c.env.get? id.name with
    | some (.value t) => pure t
    | _ => do
      report id.loc (.notVariable id.name)
      pure .object
  return (← writeIdent id (.value t), t)

end Typing

open Typing

mutual

def Expr.check (c : Context) : Expr → Typing (Expr × Ty)
  | .lit l => return (.lit (← checkLiteral l), litType l.value)
  | .name id => do
    let (id, t) ← checkName c id
    return (.name id, t)
  | .unary m op e => do
    let (e, t) ← e.check c
    let result : Ty := match op with | .neg => .int | .not => .bool
    reportUnless (t == result) m.loc (.unaryOperand op.spelling t)
    return (.unary (← write m (.value result)) op e, result)
  | .binary m l op r => do
    let (l, left) ← l.check c
    let (r, right) ← r.check c
    let (t, ok) := binaryType c.hierarchy op left right
    reportUnless ok m.loc (.binaryOperands op.spelling left right)
    return (.binary (← write m (.value t)) l op r, t)
  | .cond m test yes no => do
    let (test, b) ← test.check c
    reportUnless (b == .bool) test.loc (.badCondition b)
    let (yes, t₁) ← yes.check c
    let (no, t₂) ← no.check c
    let t := c.hierarchy.commonAncestor t₁ t₂
    return (.cond (← write m (.value t)) test yes no, t)
  | .list m elems => do
    let (elems, ts) ← Expr.checkAll c elems
    let t := match ts.foldl (fun a t => c.hierarchy.join? a (some t.2)) none with
      | none => .emptyList
      | some elem => .list elem
    return (.list (← write m (.value t)) elems, t)
  | .index m seq i => do
    let (seq, s) ← seq.check c
    let (i, it) ← i.check c
    let t ← match elemType? s with
      | some t => do
        reportUnless (it == .int) i.loc (.badIndex it)
        pure t
      | none => do
        report m.loc (.notIndexable s)
        pure .object
    return (.index (← write m (.value t)) seq i, t)
  | .member m object id => do
    let (object, o) ← object.check c
    let t ← match c.classOf? o with
      | none => do
        report m.loc (.notObject o)
        pure .object
      | some cls =>
        match c.member? cls id.name with
        | some (.value t) => pure t
        | _ => do
          report id.loc (.noAttribute id.name cls.name)
          pure .object
    let id ← writeIdent id (.value t)
    return (.member (← write m (.value t)) object id, t)
  | .call m id args => do
    match ← callee c id.name with
    | .func entry params result =>
      let id ← writeIdent id entry
      let (args, ts) ← Expr.checkAll c args
      matchArgs c.hierarchy m.loc params ts
      return (.call (← write m (.value result)) id args, result)
    | .special entry result =>
      let id ← writeIdent id entry
      let (args, ts) ← Expr.checkAll c args
      matchArgs c.hierarchy m.loc [] ts
      report id.loc (.specialInstance id.name)
      return (.call (← write m (.value result)) id args, result)
    | .unknown =>
      let id ← writeIdent id (.value .object)
      let (args, _) ← Expr.checkAll c args
      report id.loc (.notCallable id.name)
      return (.call (← write m (.value .object)) id args, .object)
  | .methodCall m method object id args => do
    let (object, receiver) ← object.check c
    match method? c receiver id.name with
    | none =>
      let method ← write method (.value .object)
      let id ← writeIdent id (.value .object)
      let (args, _) ← Expr.checkAll c args
      report id.loc (.noMethod id.name receiver)
      return (.methodCall (← write m (.value .object)) method object id args, .object)
    | some f =>
      let method ← write method (.func f)
      let id ← writeIdent id (.func f)
      let (args, ts) ← Expr.checkAll c args
      matchArgs c.hierarchy m.loc f.params.tail ts
      return (.methodCall (← write m (.value f.ret)) method object id args, f.ret)

/-- The checked expressions, and their places and types. -/
def Expr.checkAll (c : Context) : List Expr → Typing (List Expr × List (Loc × Ty))
  | [] => return ([], [])
  | e :: es => do
    let (e, t) ← e.check c
    let (es, ts) ← Expr.checkAll c es
    return (e :: es, (e.loc, t) :: ts)

end

namespace Typing

def checkCondition (c : Context) (e : Expr) : Typing Expr := do
  let (e, t) ← e.check c
  reportUnless (t == .bool) e.loc (.badCondition t)
  return e

/-- Whether a target is an element of a string. -/
def isStrElement : Expr → Bool
  | .index _ seq _ => seq.type? == some .str
  | _ => false

/-- Checks the targets of an assignment of a value of type `t`. -/
def checkTargets (c : Context) (t : Ty) : List Expr → Typing (List Expr)
  | [] => return []
  | target :: rest => do
    let (target, place) ← target.check c
    if isStrElement target then report target.loc .strIsNoList
    else reportUnless (c.hierarchy.isCompatible place t) target.loc (.mismatch place t)
    return target :: (← checkTargets c t rest)

def checkReturn (c : Context) (loc : Loc) (value? : Option (Loc × Ty)) : Typing Unit :=
  if c.top then report loc .topLevelReturn
  else match c.ret? with
    | none => return
    | some expected =>
      match value? with
      | none =>
        reportUnless (c.hierarchy.isCompatible expected .noneType) loc (.returnsNothing expected)
      | some (at', t) =>
        reportUnless (c.hierarchy.isCompatible expected t) at' (.mismatch expected t)

def checkVarDef (h : Hierarchy) (table : Bindings Entry) (d : VarDef) : Typing VarDef := do
  let value ← checkLiteral d.value
  let t := litType value.value
  match table.value? d.name with
  | none => pure ()
  | some declared => reportUnless (h.isCompatible declared t) d.loc (.mismatch declared t)
  return { d with value }

end Typing

mutual

def Stmt.check (c : Context) : Stmt → Typing Stmt
  | .expr loc e => return .expr loc (← e.check c).1
  | .assign loc targets value => do
    let (value, t) ← value.check c
    if 1 < targets.length && t == .list .noneType then report loc .noneListToMany
    return .assign loc (← checkTargets c t targets) value
  | .ite loc test yes no => do
    let test ← checkCondition c test
    let yes ← Stmt.checkAll c yes
    return .ite loc test yes (← Stmt.checkAll c no)
  | .loop loc test body => do
    let test ← checkCondition c test
    return .loop loc test (← Stmt.checkAll c body)
  | .each loc id iterable body => do
    let (iterable, t) ← iterable.check c
    let elem? := elemType? t
    if elem?.isNone then report iterable.loc (.notIterable t)
    let (id, var) ← checkName c id
    match elem? with
    | none => pure ()
    | some elem => reportUnless (c.hierarchy.isCompatible var elem) id.loc (.mismatch var elem)
    return .each loc id iterable (← Stmt.checkAll c body)
  | .ret loc none => do
    checkReturn c loc none
    return .ret loc none
  | .ret loc (some e) => do
    let (e, t) ← e.check c
    checkReturn c loc (some (e.loc, t))
    return .ret loc (some e)

def Stmt.checkAll (c : Context) : List Stmt → Typing (List Stmt)
  | [] => return []
  | s :: ss => do
    let s ← s.check c
    return s :: (← Stmt.checkAll c ss)

end

mutual

/-- Checks a function in its scope. Without a scope it is left as it is. -/
def FuncDef.check (c : Context) (scope? : Option Scope) : FuncDef → Typing FuncDef
  | .mk loc id ps ret? decls body =>
    match scope? with
    | none => return .mk loc id ps ret? decls body
    | some scope => do
      let c := c.enter scope
      let decls ← LocalDecl.checkAll c scope decls
      return .mk loc id ps ret? decls (← Stmt.checkAll c body)

def LocalDecl.checkAll (c : Context) (scope : Scope) : List LocalDecl → Typing (List LocalDecl)
  | [] => return []
  | .var d :: ds => do
    let d ← checkVarDef c.hierarchy scope.entries d
    return .var d :: (← LocalDecl.checkAll c scope ds)
  | .func f :: ds => do
    let f ← f.check c (scope.child? f.name)
    return .func f :: (← LocalDecl.checkAll c scope ds)
  | .global loc id :: ds => return .global loc id :: (← LocalDecl.checkAll c scope ds)
  | .nonlocal loc id :: ds => return .nonlocal loc id :: (← LocalDecl.checkAll c scope ds)

end

namespace Typing

def checkMember (c : Context) (scope : Scope) : Member → Typing Member
  | .attr d => return .attr (← checkVarDef c.hierarchy scope.entries d)
  | .method f => return .method (← f.check c (scope.child? f.name))

def checkTop (c : Context) : TopDecl → Typing TopDecl
  | .var d => return .var (← checkVarDef c.hierarchy c.globals.entries d)
  | .func f => return .func (← f.check c (c.globals.child? f.name))
  | .cls d =>
    match c.globals.child? d.name with
    | none => return .cls d
    | some scope => return .cls { d with members := ← d.members.mapM (checkMember c scope) }

end Typing

/-- Checks a program whose global scope is known. -/
def Program.check (globals : Scope) (p : Program) : Typing Program := do
  let c := Context.ofGlobals globals
  let decls ← p.decls.mapM (checkTop c)
  return ⟨decls, ← Stmt.checkAll c p.body⟩

end ChocoRv
