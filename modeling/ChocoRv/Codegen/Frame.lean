import ChocoRv.Asm.Basic
import ChocoRv.Scope
import ChocoRv.Tree.Basic

/-!
# Frames

The frame of a function with `n` parameters, from high to low addresses:

    static link            fp + 4 * n
    argument 0 .. n - 1    fp + 4 * (n - 1) .. fp
    saved ra               fp - 4
    saved fp               fp - 8
    local 0 ..             fp - 12, fp - 16, ..

The caller pushes the static link and then the arguments, so `fp` is the value of `sp` on entry.
After the declared locals come two hidden words for each `for` statement: the sequence and the next
index.
-/

namespace ChocoRv

mutual

/-- The number of `for` statements in a statement. -/
def Stmt.forCount : Stmt → Nat
  | .each _ _ _ body => 1 + Stmt.forCounts body
  | .loop _ _ body => Stmt.forCounts body
  | .ite _ _ yes no => Stmt.forCounts yes + Stmt.forCounts no
  | .expr .. | .assign .. | .ret .. => 0

def Stmt.forCounts : List Stmt → Nat
  | [] => 0
  | s :: ss => s.forCount + Stmt.forCounts ss

end

/-- The label of a global variable. -/
def globalLabel (name : Name) : Label := txt "$" ++ name

/-- The frame of the top-level program or of one function or method. -/
structure Frame where
  /-- The names that lead to the function; none for the top-level program. -/
  path : List Name
  /-- The number of frames around it. -/
  depth : Nat
  /-- The class of a method. -/
  class? : Option Name
  params : List Name
  locals : List Name
  globals : List Name
  nonlocals : List Name
  /-- The functions declared directly in it. -/
  funcs : List Name
  /-- The number of `for` statements in its body. -/
  fors : Nat
deriving DecidableEq, Repr

namespace Frame

/-- Words between `fp` and the first local: the saved `ra` and `fp`. -/
def savedWords : Nat := 2

def name (f : Frame) : Name :=
  match f.path with
  | [] => txt "main"
  | path => Bytes.join (txt ".") path

def label (f : Frame) : Label :=
  match f.path with
  | [] => txt "main"
  | _ => txt "$" ++ f.name

/-- The path of a function declared in the frame. -/
def childPath (f : Frame) (name : Name) : List Name := f.path ++ [name]

def childName (f : Frame) (name : Name) : Name := Bytes.join (txt ".") (f.childPath name)

def childLabel (f : Frame) (name : Name) : Label := txt "$" ++ f.childName name

def staticLink (f : Frame) : Int := Asm.wordSize * f.params.length

def paramOffset (f : Frame) (i : Nat) : Int := Asm.wordSize * (f.params.length - 1 - i : Int)

def localOffset (k : Nat) : Int := -(Asm.wordSize * (savedWords + 1 + k) : Int)

/-- Declared and hidden locals. -/
def numLocals (f : Frame) : Nat := f.locals.length + 2 * f.fors

/-- Bytes that the prologue reserves. -/
def size (f : Frame) : Nat := Asm.wordSize * (savedWords + f.numLocals)

/-- Every parameter and local with its offset from `fp`. -/
def slots (f : Frame) : Bindings Int :=
  f.params.mapIdx (fun i p => (p, f.paramOffset i)) ++
    f.locals.mapIdx fun k x => (x, localOffset k)

/-- The offset of a parameter or local; of several of one name the last counts. -/
def offset? (f : Frame) (name : Name) : Option Int := f.slots.reverse.lookup name

/-- The offsets of the sequence and the index of `for` statement number `i`, in preorder. -/
def forSlots? (f : Frame) (i : Nat) : Option (Int × Int) :=
  if i < f.fors then
    let k := f.locals.length + 2 * i
    some (localOffset k, localOffset (k + 1))
  else none

/-- Where a variable is kept. -/
inductive Storage where
  | global (label : Label)
  | slot (owner : Frame) (offset : Int)
deriving DecidableEq, Repr

/-- The storage of a name seen from the first frame of a chain, innermost first. What no function
owns is global. -/
def resolve (name : Name) : List Frame → Storage
  | [] => .global (globalLabel name)
  | f :: outer =>
    if f.depth = 0 || f.globals.contains name then .global (globalLabel name)
    else if f.nonlocals.contains name then resolve name outer
    else match f.offset? name with
      | some offset => .slot f offset
      | none => resolve name outer

/-- The frame that declares the function of that name, unless a variable hides it. -/
def resolveFunc? (name : Name) : List Frame → Option Frame
  | [] => none
  | f :: outer =>
    if f.funcs.contains name then some f
    else if (f.offset? name).isSome then none
    else resolveFunc? name outer

/-- The frame of a function inside the frames `outer`. -/
def ofFunc (outer : List Frame) (path : List Name) (class? : Option Name) (f : FuncDef) : Frame :=
  { path, class?
    depth := outer.length
    params := f.params.map (·.name.name)
    locals := (f.decls.filterMap LocalDecl.var?).map VarDef.name
    globals := (f.decls.filterMap LocalDecl.global?).map Ident.name
    nonlocals := (f.decls.filterMap LocalDecl.nonlocal?).map Ident.name
    funcs := (f.decls.filterMap LocalDecl.func?).map FuncDef.name
    fors := Stmt.forCounts f.body }

end Frame

/-- A function with its frame and the frames around it, innermost first. -/
structure FrameSite where
  frame : Frame
  outer : List Frame
  defn : FuncDef

mutual

/-- The frames of a function and of those inside it, in preorder. -/
def FuncDef.frames (outer : List Frame) (path : List Name) (class? : Option Name) :
    FuncDef → List FrameSite
  | .mk loc id params ret? decls body =>
    let defn := .mk loc id params ret? decls body
    let frame := Frame.ofFunc outer path class? defn
    ⟨frame, outer, defn⟩ :: LocalDecl.frames (frame :: outer) path decls

def LocalDecl.frames (outer : List Frame) (path : List Name) : List LocalDecl → List FrameSite
  | [] => []
  | .func f :: ds =>
    f.frames outer (path ++ [f.name]) none ++ LocalDecl.frames outer path ds
  | _ :: ds => LocalDecl.frames outer path ds

end

namespace Program

def mainFrame (p : Program) : Frame :=
  { path := [], depth := 0, class? := none, params := [], locals := [], globals := []
    nonlocals := []
    funcs := (p.decls.filterMap TopDecl.func?).map FuncDef.name
    fors := Stmt.forCounts p.body }

/-- The frames of all functions and methods, in the order of their code. -/
def frames (p : Program) : List FrameSite :=
  let outer := [p.mainFrame]
  p.decls.flatMap fun
    | .var _ => []
    | .func f => f.frames outer [f.name] none
    | .cls c => c.members.flatMap fun
      | .attr _ => []
      | .method f => f.frames outer [c.name, f.name] (some c.name)

/-- The methods of each class; a later class of the same name replaces an earlier one. -/
def methods (p : Program) : Bindings (List Name) :=
  p.decls.foldl (fun table d =>
    match d with
    | .cls c =>
      Bindings.replace table c.name
        ((c.members.filterMap Member.method?).map FuncDef.name)
    | _ => table) []

end Program

end ChocoRv
