import ChocoRv.Tree.Slot

/-!
# Syntax trees

Declarations differ by where they stand: at the top level, in a class or in a function. A `pass`
leaves no node and an `elif` is an `if` that is the only statement of an else branch.
-/

namespace ChocoRv

inductive Lit where
  | int (value : Int)
  | str (value : Bytes)
  | bool (value : Bool)
  | none
deriving DecidableEq, Repr

structure Literal where
  mark : Mark
  value : Lit
deriving DecidableEq, Repr

structure Ident where
  mark : Mark
  name : Name
deriving DecidableEq, Repr

def Ident.loc (id : Ident) : Loc := id.mark.loc

inductive UnOp where
  | neg | not
deriving DecidableEq, Repr

def UnOp.spelling : UnOp → Bytes
  | neg => txt "-"
  | not => txt "not"

inductive BinOp where
  | add | sub | mul | floorDiv | mod | eq | ne | lt | gt | le | ge | is | and | or
deriving DecidableEq, Repr

def BinOp.spelling : BinOp → Bytes
  | add => txt "+"
  | sub => txt "-"
  | mul => txt "*"
  | floorDiv => txt "//"
  | mod => txt "%"
  | eq => txt "=="
  | ne => txt "!="
  | lt => txt "<"
  | gt => txt ">"
  | le => txt "<="
  | ge => txt ">="
  | is => txt "is"
  | and => txt "and"
  | or => txt "or"

inductive Expr where
  | lit (l : Literal)
  | name (id : Ident)
  | unary (mark : Mark) (op : UnOp) (operand : Expr)
  | binary (mark : Mark) (left : Expr) (op : BinOp) (right : Expr)
  /-- The expression `yes if test else no`. -/
  | cond (mark : Mark) (test yes no : Expr)
  | list (mark : Mark) (elems : List Expr)
  | index (mark : Mark) (seq i : Expr)
  | member (mark : Mark) (object : Expr) (member : Ident)
  | call (mark : Mark) (callee : Ident) (args : List Expr)
  /-- The call `object.member(args)`; `method` marks the member expression. -/
  | methodCall (mark method : Mark) (object : Expr) (member : Ident) (args : List Expr)

namespace Expr

def mark : Expr → Mark
  | lit l => l.mark
  | name id => id.mark
  | unary m _ _ | binary m _ _ _ | cond m _ _ _ | list m _ | index m _ _ | member m _ _
  | call m _ _ | methodCall m _ _ _ _ => m

def loc (e : Expr) : Loc := e.mark.loc

def type? (e : Expr) : Option Ty := e.mark.type?

/-- Names, members and elements can stand on the left of an assignment. -/
def isTarget : Expr → Bool
  | name _ | member .. | index .. => true
  | _ => false

end Expr

inductive TypeExpr where
  | cls (loc : Loc) (name : Name)
  | list (loc : Loc) (elem : TypeExpr)
deriving DecidableEq, Repr

namespace TypeExpr

def loc : TypeExpr → Loc
  | cls loc _ | list loc _ => loc

def text : TypeExpr → Bytes
  | cls _ name => name
  | list _ elem => txt "[" ++ elem.text ++ txt "]"

end TypeExpr

inductive Stmt where
  | expr (loc : Loc) (e : Expr)
  | assign (loc : Loc) (targets : List Expr) (value : Expr)
  | ite (loc : Loc) (test : Expr) (yes no : List Stmt)
  | loop (loc : Loc) (test : Expr) (body : List Stmt)
  | each (loc : Loc) (var : Ident) (iterable : Expr) (body : List Stmt)
  | ret (loc : Loc) (value? : Option Expr)

structure TypedVar where
  name : Ident
  typeExpr : TypeExpr
deriving DecidableEq, Repr

structure VarDef where
  var : TypedVar
  value : Literal
deriving DecidableEq, Repr

def VarDef.name (d : VarDef) : Name := d.var.name.name

def VarDef.loc (d : VarDef) : Loc := d.var.name.loc

mutual

inductive FuncDef where
  | mk (loc : Loc) (ident : Ident) (params : List TypedVar) (ret? : Option TypeExpr)
      (decls : List LocalDecl) (body : List Stmt)

/-- A declaration in a function body. -/
inductive LocalDecl where
  | var (d : VarDef)
  | global (loc : Loc) (ident : Ident)
  | nonlocal (loc : Loc) (ident : Ident)
  | func (f : FuncDef)

end

namespace FuncDef

def loc : FuncDef → Loc
  | mk loc _ _ _ _ _ => loc

def ident : FuncDef → Ident
  | mk _ ident _ _ _ _ => ident

def params : FuncDef → List TypedVar
  | mk _ _ params _ _ _ => params

def ret? : FuncDef → Option TypeExpr
  | mk _ _ _ ret? _ _ => ret?

def decls : FuncDef → List LocalDecl
  | mk _ _ _ _ decls _ => decls

def body : FuncDef → List Stmt
  | mk _ _ _ _ _ body => body

def name (f : FuncDef) : Name := f.ident.name

end FuncDef

/-- The identifier that a declaration binds. -/
def LocalDecl.ident : LocalDecl → Ident
  | var d => d.var.name
  | global _ id | nonlocal _ id => id
  | func f => f.ident

namespace LocalDecl

def var? : LocalDecl → Option VarDef
  | var d => some d
  | _ => none

/-- The name that a `global` declaration gives to a variable of the program. -/
def global? : LocalDecl → Option Ident
  | global _ id => some id
  | _ => none

/-- The name that a `nonlocal` declaration takes from the function around. -/
def nonlocal? : LocalDecl → Option Ident
  | «nonlocal» _ id => some id
  | _ => none

def func? : LocalDecl → Option FuncDef
  | func f => some f
  | _ => none

end LocalDecl

/-- A declaration in a class body. -/
inductive Member where
  | attr (d : VarDef)
  | method (f : FuncDef)

namespace Member

def ident : Member → Ident
  | attr d => d.var.name
  | method f => f.ident

def method? : Member → Option FuncDef
  | method f => some f
  | attr _ => none

end Member

structure ClassDef where
  loc : Loc
  ident : Ident
  super : Ident
  members : List Member

def ClassDef.name (c : ClassDef) : Name := c.ident.name

/-- A declaration at the top level. -/
inductive TopDecl where
  | var (d : VarDef)
  | func (f : FuncDef)
  | cls (c : ClassDef)

namespace TopDecl

def ident : TopDecl → Ident
  | var d => d.var.name
  | func f => f.ident
  | cls c => c.ident

def var? : TopDecl → Option VarDef
  | var d => some d
  | _ => none

def func? : TopDecl → Option FuncDef
  | func f => some f
  | _ => none

def class? : TopDecl → Option ClassDef
  | cls c => some c
  | _ => none

end TopDecl

structure Program where
  decls : List TopDecl
  body : List Stmt

end ChocoRv
