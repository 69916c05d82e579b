import ChocoRv.Asm.Basic
import ChocoRv.Scope
import ChocoRv.Tree.Basic

/-!
# Class layouts

The attributes of an object in order and the dispatch table of its class. A subclass starts from
the layout of its superclass: new attributes and methods come after the inherited ones and an
overriding method takes the place of the one it overrides.
-/

namespace ChocoRv

/-- What code generation cannot do; no accepted program asks for it. -/
inductive CodegenFault where
  | noAttribute (name cls : Name)
  | noMethod (name cls : Name)
  | notAClass (t : Ty)
  | unknownClass (name : Name)
  | unknownFunction (name : Name)
  | noForSlots
  | badTarget
  /-- An expression, variable or function whose type is not known. -/
  | untyped
deriving DecidableEq, Repr

def CodegenFault.message : CodegenFault → Bytes
  | noAttribute name cls => txt "codegen: no attribute " ++ name ++ txt " in class " ++ cls
  | noMethod name cls => txt "codegen: no method " ++ name ++ txt " in class " ++ cls
  | notAClass t => txt "codegen: not a class type: " ++ t.text
  | unknownClass name => txt "codegen: unknown class " ++ name
  | unknownFunction name => txt "codegen: unknown function " ++ name
  | noForSlots => txt "codegen: for statement without frame slots"
  | badTarget => txt "codegen: invalid assignment target"
  | untyped => txt "codegen: missing type"

structure Attribute where
  name : Name
  type : Ty
  value : Lit
deriving DecidableEq, Repr

structure Method where
  name : Name
  label : Label
deriving DecidableEq, Repr

structure ClassLayout where
  name : Name
  /-- The type tag in the first word of every object. -/
  tag : Int
  attrs : List Attribute
  methods : List Method
deriving DecidableEq, Repr

namespace ClassLayout

def addAttr (l : ClassLayout) (a : Attribute) : ClassLayout := { l with attrs := l.attrs ++ [a] }

/-- Overrides the method of that name, or adds it at the end. -/
def addMethod (l : ClassLayout) (m : Method) : ClassLayout :=
  if l.methods.any (·.name == m.name) then
    { l with methods := l.methods.map fun old => if old.name == m.name then m else old }
  else { l with methods := l.methods ++ [m] }

/-- Byte offset of an attribute in an object. -/
def attrOffset (l : ClassLayout) (name : Name) : Except CodegenFault Int :=
  match l.attrs.findIdx? (·.name == name) with
  | some i => .ok (Asm.wordSize * (Asm.headerWords + i))
  | none => .error (.noAttribute name l.name)

/-- Byte offset of a method in the dispatch table. -/
def methodOffset (l : ClassLayout) (name : Name) : Except CodegenFault Int :=
  match l.methods.findIdx? (·.name == name) with
  | some i => .ok (Asm.wordSize * i)
  | none => .error (.noMethod name l.name)

def prototypeLabel (l : ClassLayout) : Label := txt "$" ++ l.name ++ txt "$prototype"

def dispatchLabel (l : ClassLayout) : Label := txt "$" ++ l.name ++ txt "$dispatchTable"

def object : ClassLayout :=
  ⟨txt "object", 0, [], [⟨txt "__init__", txt "$object.__init__"⟩]⟩

def int : ClassLayout := { object with name := txt "int", tag := 1 }

def bool : ClassLayout := { object with name := txt "bool", tag := 2 }

def str : ClassLayout := { object with name := txt "str", tag := 3 }

def builtins : List ClassLayout := [object, int, bool, str]

/-- The type tag of lists. -/
def listTag : Int := -1

/-- The type tag of the first class of a program. -/
def firstUserTag : Int := 4

def find? (layouts : List ClassLayout) (name : Name) : Option ClassLayout :=
  layouts.reverse.find? (·.name == name)

def addMember (members : Scope) (l : ClassLayout) : Member → Except CodegenFault ClassLayout
  | .attr d =>
    match members.entries.lookup d.name with
    | some (.value t) => .ok (l.addAttr ⟨d.name, t, d.value.value⟩)
    | _ => .error .untyped
  | .method f => .ok (l.addMethod ⟨f.name, txt "$" ++ l.name ++ txt "." ++ f.name⟩)

/-- The layout of a class after the layouts before it. -/
def ofClass (globals : Scope) (layouts : List ClassLayout) (tag : Int) (c : ClassDef) :
    Except CodegenFault ClassLayout :=
  let base : ClassLayout := match find? layouts c.super.name with
    | some super => { super with name := c.name, tag }
    | none => ⟨c.name, tag, [], []⟩
  match globals.child? c.name with
  | some members => c.members.foldlM (addMember members) base
  | none => .error .untyped

/-- Adds the layouts of the classes in order. -/
def extend (globals : Scope) (layouts : List ClassLayout) (tag : Int) :
    List ClassDef → Except CodegenFault (List ClassLayout)
  | [] => .ok layouts
  | c :: cs => do
    let layout ← ofClass globals layouts tag c
    extend globals (layouts ++ [layout]) (Asm.int32 (tag + 1)) cs

end ClassLayout

def Program.classes (p : Program) : List ClassDef := p.decls.filterMap TopDecl.class?

/-- The layouts of the built-in classes and of those of a program, in order. -/
def Program.layouts (p : Program) (globals : Scope) : Except CodegenFault (List ClassLayout) :=
  ClassLayout.extend globals ClassLayout.builtins ClassLayout.firstUserTag p.classes

end ChocoRv
