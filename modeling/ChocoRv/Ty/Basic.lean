import ChocoRv.Text.Basic

/-!
# Types and entries

A value has a class or list type. A scope binds a name to the type of a variable, to the signature
of a function or to a class.
-/

namespace ChocoRv

inductive Ty where
  /-- An instance of the class of that name. -/
  | cls (name : Name)
  /-- The type of `None`. -/
  | noneType
  /-- The type of the empty list. -/
  | emptyList
  | list (elem : Ty)
deriving DecidableEq, Repr

namespace Ty

def object : Ty := .cls (txt "object")
def int : Ty := .cls (txt "int")
def str : Ty := .cls (txt "str")
def bool : Ty := .cls (txt "bool")

def text : Ty → Bytes
  | cls name => name
  | noneType => txt "<None>"
  | emptyList => txt "<Empty>"
  | list elem => txt "[" ++ elem.text ++ txt "]"

/-- The type that a name stands for: the two pseudo-classes, or else a class. -/
def ofName (name : Name) : Ty :=
  if name = txt "<None>" then noneType else if name = txt "<Empty>" then emptyList else cls name

/-- The name under which a type stands in a class hierarchy; a list type stands in none. -/
def name? : Ty → Option Name
  | list _ => none
  | t => some t.text

def isList : Ty → Bool
  | list _ => true
  | _ => false

/-- The classes `int`, `str` and `bool` cannot be extended, never hold `None` and have no
identity. -/
def isSpecial (t : Ty) : Bool := t == int || t == str || t == bool

/-- The types that unify with others by assignability and not along class chains. -/
def isPermissive : Ty → Bool
  | cls _ => false
  | noneType | emptyList | list _ => true

/-- Lists and the empty list. -/
def isListLike : Ty → Bool
  | emptyList | list _ => true
  | _ => false

def elem? : Ty → Option Ty
  | list elem => some elem
  | _ => none

/-- Values of `int` and `bool` are raw words; all others are pointers to objects. -/
def isUnboxed (t : Ty) : Bool := t == int || t == bool

end Ty

/-- The signature of a function or method. -/
structure FuncTy where
  params : List Ty
  ret : Ty
deriving DecidableEq, Repr

namespace FuncTy

def text (f : FuncTy) : Bytes :=
  txt "(" ++ Bytes.join (txt ", ") (f.params.map Ty.text) ++ txt ") -> " ++ f.ret.text

/-- The same result and as many parameters, the same after the first `skip`. -/
def sameSignature {α : Type} [BEq α] (skip : Nat) (params : List α) (ret : α)
    (params' : List α) (ret' : α) : Bool :=
  params.length == params'.length && ret == ret' && params.drop skip == params'.drop skip

/-- The same result type and, after the first `skip`, the same parameter types. -/
def sameFrom (skip : Nat) (f g : FuncTy) : Bool :=
  sameSignature skip f.params f.ret g.params g.ret

end FuncTy

/-- A declared class; the root has no superclass. -/
structure ClassTy where
  name : Name
  super? : Option Name
  special : Bool := false
deriving DecidableEq, Repr

def ClassTy.text (c : ClassTy) : Bytes := txt "<class " ++ c.name ++ txt ">"

inductive Entry where
  | value (t : Ty)
  | func (f : FuncTy)
  | cls (c : ClassTy)
deriving DecidableEq, Repr

namespace Entry

def text : Entry → Bytes
  | value t => t.text
  | func f => f.text
  | cls c => c.text

def value? : Entry → Option Ty
  | value t => some t
  | _ => none

def func? : Entry → Option FuncTy
  | func f => some f
  | _ => none

def class? : Entry → Option ClassTy
  | cls c => some c
  | _ => none

end Entry

end ChocoRv
