import ChocoRv.Codegen.Emit

/-!
# Code of expressions

The code of an expression leaves its value in `a0` and the stack as it was. Operands wait on the
stack while later ones are evaluated.
-/

namespace ChocoRv

open Asm Emit

namespace Codegen

/-- The code of an expression whose value is wanted in the representation of `target`; `code` is
its plain code. Boxed literals are constants. -/
def asType (e : Expr) (code : Emit Unit) (target : Option Ty) : Emit Unit := do
  if unboxed target then code
  else match e with
    | .lit ⟨_, .int value⟩ => la .a0 (← intConstant value) "boxed int constant"
    | .lit ⟨_, .bool value⟩ => la .a0 (Pool.boolLabel value) "boxed bool constant"
    | _ =>
      code
      box e.type? target

def boolWord : Bool → Int
  | true => 1
  | false => 0

def literal : Lit → Emit Unit
  | .int value => li .a0 value
  | .bool value => li .a0 (boolWord value)
  | .none => mv .a0 .zero "None"
  | .str value => do la .a0 (← strConstant value)

/-- Evaluates two operands into `t0` and `a0`. -/
def operands (left right : Emit Unit) : Emit Unit := do
  left
  push .a0 "left operand"
  right
  pop .t0

/-- Passes two arguments to a runtime routine on the stack. -/
def runtimeCall (routine : String) (left right : Emit Unit) : Emit Unit := do
  left
  push .a0
  right
  push .a0
  jal (txt routine)
  popDiscard 2

/-- Pushes a list operand and the routine that boxes its elements, or 0 where none is needed. -/
def concatOperand (result elem : Option Ty) (code : Emit Unit) : Emit Unit := do
  code
  push .a0 "list operand"
  if unboxed result || !unboxed elem then push .zero "no element conversion"
  else if elem = some .int then
    la .t0 (txt "makeint")
    push .t0 "element conversion"
  else
    la .t0 (txt "makebool")
    push .t0 "element conversion"

def concat (result left right : Option Ty) (leftCode rightCode : Emit Unit) : Emit Unit := do
  concatOperand (result.bind Ty.elem?) (left.bind Ty.elem?) leftCode
  concatOperand (result.bind Ty.elem?) (right.bind Ty.elem?) rightCode
  jal (txt "concat")
  popDiscard 4

/-- The code of a binary expression from the types of the result and the operands and the code of
the operands. -/
def binary (op : BinOp) (result left right : Option Ty) (l r : Emit Unit) : Emit Unit := do
  match op with
  | .and =>
    let done ← fresh "logic_end"
    l
    beqz .a0 done "short-circuit and"
    r
    label done
  | .or =>
    let done ← fresh "logic_end"
    l
    instr (.branchZero .bnez .a0 done) "short-circuit or"
    r
    label done
  | .add =>
    if left = some .str then runtimeCall "strcat" l r
    else if left = some .int then
      operands l r
      add .a0 .t0 .a0
    else concat result left right l r
  | .sub =>
    operands l r
    instr (.op .sub .a0 .t0 .a0)
  | .mul =>
    operands l r
    instr (.op .mul .a0 .t0 .a0)
  | .floorDiv =>
    operands l r
    floorDiv
  | .mod =>
    operands l r
    floorMod
  | .eq =>
    if left = some .str && right = some .str then runtimeCall "streql" l r
    else
      operands l r
      comparison .beq .t0 .a0 "=="
  | .ne =>
    if left = some .str && right = some .str then runtimeCall "strneql" l r
    else
      operands l r
      comparison .bne .t0 .a0 "!="
  | .is =>
    operands l r
    comparison .beq .t0 .a0 "is"
  | .lt =>
    operands l r
    comparison .blt .t0 .a0 "<"
  | .gt =>
    operands l r
    comparison .blt .a0 .t0 ">"
  | .le =>
    operands l r
    comparison .bge .a0 .t0 "<="
  | .ge =>
    operands l r
    comparison .bge .t0 .a0 ">="

/-- Leaves in `a0` the address of a list element less `elementsOffset`, after the checks for `None`
and for the bounds. -/
def elementAddress (seq i : Emit Unit) : Emit Unit := do
  operands seq i
  beqz .t0 errorNone
  lw .t1 .t0 valueOffset "list length"
  branch .blt .a0 .zero errorOOB
  branch .bge .a0 .t1 errorOOB
  slli .a0 .a0 2
  add .a0 .a0 .t0

/-- Allocates an object from the prototype of its class and runs its constructor through the
dispatch table. -/
def construct (c : Context) (layout : ClassLayout) : Emit Unit := do
  la .a0 layout.prototypeLabel
  instrOf (.jal (txt "alloc")) "new " layout.name
  push .a0 "new object"
  pushStaticLink c 0
  push .a0 "self"
  lw .a1 .a0 dispatchOffset "dispatch table"
  lw .a1 .a1 (← ofExcept (layout.methodOffset (txt "__init__"))) "__init__"
  instr (.jalr .a1)
  popDiscard 2
  pop .a0

/-- A call of a function by its label with the static link and `n` arguments on the stack. -/
def callLabel (l : Label) (name : Name) (n : Nat) : Emit Unit := do
  instrOf (.jal l) "call " name
  popDiscard (n + 1)

end Codegen

open Codegen

mutual

def Expr.gen (c : Codegen.Context) : Expr → Emit Unit
  | .lit l => literal l.value
  | .name id => loadVariable c id.name
  | .unary _ op e => do
    e.gen c
    match op with
    | .not => instr (.opImm .xori .a0 .a0 1) "not"
    | .neg => instr (.op .sub .a0 .zero .a0) "negate"
  | .binary m l op r => Codegen.binary op m.type? l.type? r.type? (l.gen c) (r.gen c)
  | .cond m test yes no => do
    let otherwise ← fresh "ifexpr_else"
    let done ← fresh "ifexpr_end"
    test.gen c
    beqz .a0 otherwise
    asType yes (yes.gen c) m.type?
    j done
    label otherwise
    asType no (no.gen c) m.type?
    label done
  | .list m elems => do
    Expr.genElems c (m.type?.bind Ty.elem?) elems
    li .a0 (int32 elems.length) "list length"
    push .a0
    jal (txt "conslist")
    popDiscard (elems.length + 1)
  | .index _ seq i =>
    if seq.type? = some .str then runtimeCall "strindex" (seq.gen c) (i.gen c)
    else do
      elementAddress (seq.gen c) (i.gen c)
      lw .a0 .a0 elementsOffset "list element"
  | .member _ object id => do
    object.gen c
    beqz .a0 errorNone
    let layout ← ofExcept (c.layoutOf object.type?)
    instrOf (.load .lw .a0 .a0 (← ofExcept (layout.attrOffset id.name))) "attribute " id.name
  | .call _ id args =>
    match Frame.resolveFunc? id.name c.chain with
    | some parent => do
      pushStaticLink c parent.depth
      let ty ← need (c.funcTy? parent id.name) .untyped
      Expr.genArgs c ty.params args
      callLabel (parent.childLabel id.name) (parent.childName id.name) args.length
    | none =>
      match ClassLayout.find? c.layouts id.name with
      | some layout => construct c layout
      | none => do
        let l ← need (builtinFuncs.lookup id.name) (.unknownFunction id.name)
        pushStaticLink c 0
        let ty ← need ((c.globals.get? id.name).bind Entry.func?) .untyped
        Expr.genArgs c ty.params args
        callLabel l id.name args.length
  | .methodCall _ _ object id args => do
    let layout ← ofExcept (c.layoutOf object.type?)
    let ty ← need ((c.globals.member? layout.name id.name).bind Entry.func?) .untyped
    pushStaticLink c 0
    asType object (object.gen c) (some (← need ty.params.head? .untyped))
    push .a0 "self"
    Expr.genArgs c ty.params.tail args
    lw .a0 .sp (wordSize * args.length : Nat) "self"
    beqz .a0 errorNone
    lw .a1 .a0 dispatchOffset "dispatch table"
    instrOf (.load .lw .a1 .a1 (← ofExcept (layout.methodOffset id.name))) "" id.name
    instr (.jalr .a1)
    popDiscard (args.length + 2)

/-- Pushes the elements of a list display. -/
def Expr.genElems (c : Codegen.Context) (elem : Option Ty) : List Expr → Emit Unit
  | [] => pure ()
  | e :: es => do
    asType e (e.gen c) elem
    push .a0 "list element"
    Expr.genElems c elem es

/-- Pushes arguments in the representation of their parameters. -/
def Expr.genArgs (c : Codegen.Context) : List Ty → List Expr → Emit Unit
  | _, [] => pure ()
  | [], _ :: _ => fail .untyped
  | t :: ts, e :: es => do
    asType e (e.gen c) (some t)
    push .a0 "argument"
    Expr.genArgs c ts es

end

end ChocoRv
