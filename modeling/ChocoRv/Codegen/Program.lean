import ChocoRv.Codegen.Stmt

/-!
# Code of programs

The text section holds the top-level code, the functions and the helper routines; the data section
holds prototypes, dispatch tables, global variables and constants.
-/

namespace ChocoRv

open Asm Emit

namespace Codegen

def emitMain (c : Context) (body : List Stmt) : Emit Unit := do
  let size : Int := c.frame.size
  items [.globalLabel (txt "main")]
  jal (txt "heap.init") "initialize heap"
  addi .sp .sp (-size) "reserve top-level frame"
  sw .zero .sp (size - 4) "no return address"
  sw .zero .sp (size - 8) "no control link"
  addi .fp .sp size "new fp is at old sp"
  Stmt.genAll c 0 body
  li .a0 10 "code for exit"
  instr .ecall "exit"

/-- Initialises the local variables of a function. -/
def initLocals (c : Context) (table : Bindings Entry) : List LocalDecl → Emit Unit
  | [] => pure ()
  | .var d :: ds => do
    let declared ← need (table.lookup d.name |>.bind Entry.value?) .untyped
    let offset ← need (c.frame.offset? d.name) .untyped
    asType (.lit d.value) (literal d.value.value) (some declared)
    instrOf (.store .sw .a0 .fp offset) "init local " d.name
    initLocals c table ds
  | _ :: ds => initLocals c table ds

/-- The context of a function and its scope. -/
def enter (globals : Scope) (layouts : List ClassLayout) (site : FrameSite) :
    Option (Context × Scope) := do
  let around ← globals.descend? site.frame.path.dropLast
  let ty ← (← around.get? site.defn.name).func?
  let scope ← globals.descend? site.frame.path
  some (⟨globals, layouts, site.frame, site.outer, ty.ret, site.frame.label ++ txt "$epilogue"⟩,
    scope)

def emitFunction (globals : Scope) (layouts : List ClassLayout) (site : FrameSite) :
    Emit Unit := do
  let frame := site.frame
  let size : Int := frame.size
  let (c, scope) ← need (enter globals layouts site) .untyped
  items [.remark (txt "function " ++ frame.name ++ txt ", depth " ++ decimal frame.depth),
    .globalLabel frame.label]
  addi .sp .sp (-size) "reserve frame"
  sw .ra .sp (size - 4) "save return address"
  sw .fp .sp (size - 8) "save control link"
  addi .fp .sp size "new fp is at old sp"
  initLocals c scope.entries site.defn.decls
  Stmt.genAll c 0 site.defn.body
  mv .a0 .zero "implicit return None"
  items [.label c.epilogue (txt "epilogue")]
  lw .ra .fp (-4) "restore return address"
  mv .sp .fp "pop frame"
  lw .fp .sp (-8) "restore control link"
  instr (.jr .ra) "return to caller"

/-- Exits with a code and a message. -/
def errorHandler (l : Label) (code : Int) (message : String) : Emit Unit := do
  items [.globalLabel l]
  li .a0 code "exit code"
  la .a1 (← strConstant (txt message)) "error message"
  j (txt "abort")

/-- Boxing of ints and bools and the error handlers. `makebool` relies on `False` and `True` being
four words each, side by side. -/
def emitHelpers : Emit Unit := do
  items [.globalLabel (txt "makeint")]
  addi .sp .sp (-8)
  sw .ra .sp 4
  sw .a0 .sp 0
  la .a0 ClassLayout.int.prototypeLabel
  jal (txt "alloc")
  lw .t0 .sp 0
  sw .t0 .a0 valueOffset
  lw .ra .sp 4
  addi .sp .sp 8
  instr (.jr .ra)
  items [.globalLabel (txt "makebool")]
  slli .a0 .a0 4
  la .t0 (Pool.boolLabel false)
  add .a0 .a0 .t0
  instr (.jr .ra)
  errorHandler errorNone 4 "Operation on None"
  errorHandler errorDiv 2 "Division by zero"
  errorHandler errorOOB 3 "Index out of bounds"

/-- The initial value of a variable or attribute of a type, as one word. -/
def literalWord (value : Lit) (target : Ty) (comment : Bytes) : Emit Unit := do
  match value with
  | .int n =>
    if target.isUnboxed then items [.word n comment]
    else items [.wordAddress (← intConstant n) comment]
  | .bool b =>
    if target.isUnboxed then items [.word (boolWord b) comment]
    else items [.wordAddress (Pool.boolLabel b) comment]
  | .str s => items [.wordAddress (← strConstant s) comment]
  | .none => items [.word 0 comment]

def prototypeHead (l : ClassLayout) (size : Int) : List Item :=
  [.align 2, .globalLabel l.prototypeLabel, .word l.tag (txt "type tag for class " ++ l.name),
   .word size (txt "object size"), .wordAddress l.dispatchLabel (txt "pointer to dispatch table")]

def emitPrototype (l : ClassLayout) : Emit Unit :=
  if l.name = txt "int" || l.name = txt "bool" then
    items (prototypeHead l (headerWords + 1) ++ [.word 0 (txt "value")])
  else if l.name = txt "str" then
    items (prototypeHead l (strSizeWords 0) ++
      [.word 0 (txt "string length"), .word 0 (txt "empty string")])
  else do
    items (prototypeHead l (int32 (headerWords + l.attrs.length)))
    l.attrs.forM fun a => literalWord a.value a.type (txt "attribute " ++ a.name)

def listPrototype : List Item :=
  [.align 2, .globalLabel (txt "$.list$prototype"),
   .word ClassLayout.listTag (txt "type tag for lists"),
   .word (headerWords + 1 : Nat) (txt "object size"),
   .word 0 (txt "lists have no dispatch table"), .word 0 (txt "list length")]

def dispatchTable (l : ClassLayout) : List Item :=
  .globalLabel l.dispatchLabel :: l.methods.map fun m => .wordAddress m.label []

/-- The words of the global variables. -/
def emitGlobals (globals : Scope) : List TopDecl → Emit Unit
  | [] => pure ()
  | .var d :: ds => do
    let declared ← need (globals.entries.lookup d.name |>.bind Entry.value?) .untyped
    items [.globalLabel (globalLabel d.name)]
    literalWord d.value.value declared (txt "global " ++ d.name)
    emitGlobals globals ds
  | _ :: ds => emitGlobals globals ds

/-- The headers of boxed constants. -/
def headers : Headers :=
  { int := ⟨ClassLayout.int.tag, ClassLayout.int.dispatchLabel⟩
    bool := ⟨ClassLayout.bool.tag, ClassLayout.bool.dispatchLabel⟩
    str := ⟨ClassLayout.str.tag, ClassLayout.str.dispatchLabel⟩ }

/-- The objects of the constants requested so far. -/
def emitPool : Emit Unit := fun s => .ok ((), s.pool.items headers, s)

def emitProgram (globals : Scope) (layouts : List ClassLayout) (p : Program) : Emit Unit := do
  items [.section_ .text]
  emitMain ⟨globals, layouts, p.mainFrame, [], .noneType, []⟩ p.body
  p.frames.forM (emitFunction globals layouts)
  emitHelpers
  items [.section_ .data]
  layouts.forM emitPrototype
  items listPrototype
  items (layouts.flatMap dispatchTable)
  emitGlobals globals p.decls
  emitPool

end Codegen

/-- Why no assembly text was generated. -/
inductive CodegenError where
  | fault (e : CodegenFault)
  | labels (e : Asm.Check.Error)
deriving DecidableEq, Repr

namespace Program

/-- The assembly items of a checked program. -/
def items (p : Program) (globals : Scope) : Except CodegenFault (List Item) := do
  let layouts ← p.layouts globals
  let (_, items, _) ← Codegen.emitProgram globals layouts p {}
  return items

/-- The assembly text of a checked program. -/
def generate (p : Program) (globals : Scope) (comments : Bool) : Except CodegenError Bytes := do
  let items ← (p.items globals).mapError .fault
  let listing : Listing := { comments, items, external := Codegen.runtimeLabels }
  listing.finish.mapError .labels

end Program

end ChocoRv
