import ChocoRv.Asm.Listing
import ChocoRv.Codegen.ClassLayout
import ChocoRv.Codegen.Frame

/-!
# Emitting code

`Emit` computations append assembly items. They share the number of labels handed out and the pool
of constants, and may fail. Expressions leave their value in `a0`.
-/

namespace ChocoRv

open Asm

structure EmitState where
  fresh : Nat := 0
  pool : Pool := {}

/-- A value, the items emitted for it, and the state after them. -/
def Emit (α : Type) : Type := EmitState → Except CodegenFault (α × List Item × EmitState)

namespace Emit

variable {α β : Type}

protected def pure (a : α) : Emit α := fun s => .ok (a, [], s)

protected def bind (x : Emit α) (f : α → Emit β) : Emit β := fun s =>
  match x s with
  | .error e => .error e
  | .ok (a, items, s) =>
    match f a s with
    | .error e => .error e
    | .ok (b, more, s) => .ok (b, items ++ more, s)

instance : Monad Emit where
  pure := Emit.pure
  bind := Emit.bind

theorem map_id (x : Emit α) : Emit.bind x Emit.pure = x := by
  funext s
  rcases h : x s with e | ⟨a, items, s'⟩ <;> simp [Emit.bind, Emit.pure, h]

theorem pure_bind' (a : α) (f : α → Emit β) : Emit.bind (Emit.pure a) f = f a := by
  funext s
  rcases h : f a s with e | ⟨b, items, s'⟩ <;> simp [Emit.bind, Emit.pure, h]

theorem bind_assoc' {γ : Type} (x : Emit α) (f : α → Emit β) (g : β → Emit γ) :
    Emit.bind (Emit.bind x f) g = Emit.bind x fun a => Emit.bind (f a) g := by
  funext s
  rcases h : x s with e | ⟨a, items, s₁⟩
  · simp [Emit.bind, h]
  · rcases h' : f a s₁ with e | ⟨b, more, s₂⟩
    · simp [Emit.bind, h, h']
    · rcases h'' : g b s₂ with e | ⟨c, rest, s₃⟩ <;> simp [Emit.bind, h, h', h'']

instance : LawfulMonad Emit := LawfulMonad.mk' Emit map_id pure_bind' bind_assoc'

def fail (e : CodegenFault) : Emit α := fun _ => .error e

def ofExcept (x : Except CodegenFault α) : Emit α := fun s => x.map (·, [], s)

def need (x : Option α) (e : CodegenFault) : Emit α :=
  match x with
  | some a => Emit.pure a
  | none => fail e

def items (code : List Item) : Emit Unit := fun s => .ok ((), code, s)

def instr (i : Instr) (comment : String := "") : Emit Unit := items [.instr i (txt comment)]

/-- An instruction whose comment ends with a name. -/
def instrOf (i : Instr) (comment : String) (name : Name) : Emit Unit :=
  items [.instr i (txt comment ++ name)]

def label (l : Label) : Emit Unit := items [.label l []]

/-- A label that no other part of the code uses. -/
def fresh (stem : String) : Emit Label := fun s =>
  .ok (freshLabel (txt stem) (s.fresh + 1), [], { s with fresh := s.fresh + 1 })

def intConstant (value : Int) : Emit Label := fun s =>
  let (l, pool) := s.pool.int value
  .ok (l, [], { s with pool })

def strConstant (value : Bytes) : Emit Label := fun s =>
  let (l, pool) := s.pool.str value
  .ok (l, [], { s with pool })

def add (rd rs₁ rs₂ : Reg) (comment : String := "") : Emit Unit :=
  instr (.op .add rd rs₁ rs₂) comment

def addi (rd rs : Reg) (imm : Int) (comment : String := "") : Emit Unit :=
  instr (.opImm .addi rd rs imm) comment

def slli (rd rs : Reg) (imm : Int) : Emit Unit := instr (.opImm .slli rd rs imm)

def mv (rd rs : Reg) (comment : String := "") : Emit Unit := instr (.move .mv rd rs) comment

def li (rd : Reg) (imm : Int) (comment : String := "") : Emit Unit := instr (.li rd imm) comment

def la (rd : Reg) (l : Label) (comment : String := "") : Emit Unit := instr (.la rd l) comment

def lw (rd base : Reg) (offset : Int) (comment : String := "") : Emit Unit :=
  instr (.load .lw rd base offset) comment

def sw (rs base : Reg) (offset : Int) (comment : String := "") : Emit Unit :=
  instr (.store .sw rs base offset) comment

def branch (c : Cond) (rs₁ rs₂ : Reg) (l : Label) (comment : String := "") : Emit Unit :=
  instr (.branch c rs₁ rs₂ l) comment

def beqz (rs : Reg) (l : Label) (comment : String := "") : Emit Unit :=
  instr (.branchZero .beqz rs l) comment

def j (l : Label) : Emit Unit := instr (.j l)

def jal (l : Label) (comment : String := "") : Emit Unit := instr (.jal l) comment

def push (r : Reg) (comment : String := "") : Emit Unit := do
  addi .sp .sp (-wordSize)
  sw r .sp 0 comment

def pop (r : Reg) : Emit Unit := do
  lw r .sp 0
  addi .sp .sp wordSize

def popDiscard (words : Nat) : Emit Unit := addi .sp .sp (wordSize * words : Nat)

end Emit

namespace Codegen

/-- Offset of the dispatch table in an object. -/
def dispatchOffset : Int := 8

/-- Offset of the value of an int or bool and of the length of a str or list. -/
def valueOffset : Int := 12

/-- Offset of the first element of a list. -/
def elementsOffset : Int := 16

def errorNone : Label := txt "error.None"
def errorDiv : Label := txt "error.Div"
def errorOOB : Label := txt "error.OOB"

/-- Routines that are linked with the code. -/
def runtimeLabels : List Label :=
  [txt "heap.init", txt "alloc", txt "abort", txt "$print", txt "$len", txt "$input",
   txt "$object.__init__", txt "conslist", txt "concat", txt "strcat", txt "streql", txt "strneql",
   txt "strindex"]

/-- The predefined functions and their routines. -/
def builtinFuncs : List (Name × Label) :=
  [(txt "print", txt "$print"), (txt "len", txt "$len"), (txt "input", txt "$input")]

/-- What the code of a body depends on: the scopes, the classes, the frame with those around it,
and where and as what a return leaves its value. -/
structure Context where
  globals : Scope
  layouts : List ClassLayout
  frame : Frame
  outer : List Frame
  ret : Ty
  epilogue : Label

namespace Context

/-- The frames that the body sees, innermost first. -/
def chain (c : Context) : List Frame := c.frame :: c.outer

/-- The layout of the instances of a class type. -/
def layoutOf (c : Context) : Option Ty → Except CodegenFault ClassLayout
  | some (.cls name) =>
    match ClassLayout.find? c.layouts name with
    | some l => .ok l
    | none => .error (.unknownClass name)
  | some t => .error (.notAClass t)
  | none => .error .untyped

/-- The signature of a function declared in a frame. -/
def funcTy? (c : Context) (f : Frame) (name : Name) : Option FuncTy := do
  let scope ← c.globals.descend? f.path
  (← scope.get? name).func?

end Context

open Emit

/-- Leaves in `t0` the frame pointer that `hops` static links lead to. -/
def frameWalk (c : Context) (hops : Int) : Emit Unit :=
  if hops = 0 then mv .t0 .fp
  else do
    lw .t0 .fp c.frame.staticLink "static link"
    (c.outer.take (hops - 1).toNat).forM fun f => lw .t0 .t0 f.staticLink "static link"

/-- The number of static links from the frame to one at `depth`. -/
def hopsTo (c : Context) (depth : Nat) : Int := (c.frame.depth : Int) - depth

/-- Loads a variable into `a0`. -/
def loadVariable (c : Context) (name : Name) : Emit Unit :=
  match Frame.resolve name c.chain with
  | .global l => instrOf (.loadLabel .a0 l) "global " name
  | .slot owner offset =>
    if owner.depth = c.frame.depth then instrOf (.load .lw .a0 .fp offset) "local " name
    else do
      frameWalk c (hopsTo c owner.depth)
      instrOf (.load .lw .a0 .t0 offset) "nonlocal " name

/-- Stores `a0` into a variable. -/
def storeVariable (c : Context) (name : Name) : Emit Unit :=
  match Frame.resolve name c.chain with
  | .global l => instrOf (.storeLabel .a0 l .t0) "global " name
  | .slot owner offset =>
    if owner.depth = c.frame.depth then instrOf (.store .sw .a0 .fp offset) "local " name
    else do
      frameWalk c (hopsTo c owner.depth)
      instrOf (.store .sw .a0 .t0 offset) "nonlocal " name

/-- Pushes the static link of a callee whose parent is at depth `parent`. -/
def pushStaticLink (c : Context) (parent : Nat) : Emit Unit := do
  frameWalk c (hopsTo c parent)
  push .t0 "static link"

/-- Whether values of the type are raw words. A missing type is that of no raw word. -/
def unboxed (t? : Option Ty) : Bool := t?.any Ty.isUnboxed

/-- Turns `a0` from the representation of `value` into that of `target`. -/
def box (value target : Option Ty) : Emit Unit :=
  if unboxed target then pure ()
  else if value = some .int then jal (txt "makeint") "box int"
  else if value = some .bool then jal (txt "makebool") "box bool"
  else pure ()

/-- Turns a branch into a 0 or 1 in `a0`. -/
def comparison (c : Cond) (rs₁ rs₂ : Reg) (comment : String) : Emit Unit := do
  let isTrue ← fresh "cmp_true"
  let done ← fresh "cmp_end"
  branch c rs₁ rs₂ isTrue comment
  li .a0 0 "false"
  j done
  label isTrue
  li .a0 1 "true"
  label done

/-- Divides `t0` by `a0` and rounds down. -/
def floorDiv : Emit Unit := do
  let done ← fresh "divmod_end"
  beqz .a0 errorDiv "division by zero"
  instr (.op .div .t1 .t0 .a0)
  instr (.op .rem .t2 .t0 .a0)
  beqz .t2 done "exact"
  instr (.op .xor .t2 .t2 .a0)
  branch .bge .t2 .zero done "same signs"
  addi .t1 .t1 (-1) "round down"
  label done
  mv .a0 .t1

/-- The remainder of the division of `t0` by `a0` that rounds down. -/
def floorMod : Emit Unit := do
  let done ← fresh "divmod_end"
  beqz .a0 errorDiv "division by zero"
  instr (.op .rem .t1 .t0 .a0)
  beqz .t1 done "exact"
  instr (.op .xor .t2 .t1 .a0)
  branch .bge .t2 .zero done "same signs"
  add .t1 .t1 .a0 "take the divisor's sign"
  label done
  mv .a0 .t1

end Codegen

end ChocoRv
