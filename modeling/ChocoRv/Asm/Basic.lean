import ChocoRv.Text.Quoted

/-!
# RV32 assembly

An assembly text is a list of items: instructions, labels, data and remarks. Items keep their
comments, which are written only on demand.
-/

namespace ChocoRv

abbrev Label := Bytes

inductive Reg where
  | a0 | a1 | a2 | t0 | t1 | t2 | fp | sp | ra | zero
  /-- A register that the compiler itself has no use for. -/
  | other (name : Bytes)
deriving DecidableEq, Repr

namespace Reg

def text : Reg → Bytes
  | a0 => txt "a0"
  | a1 => txt "a1"
  | a2 => txt "a2"
  | t0 => txt "t0"
  | t1 => txt "t1"
  | t2 => txt "t2"
  | fp => txt "fp"
  | sp => txt "sp"
  | ra => txt "ra"
  | zero => txt "zero"
  | other name => name

def named : List Reg := [a0, a1, a2, t0, t1, t2, fp, sp, ra, zero]

def ofName (name : Bytes) : Reg := (named.find? (·.text == name)).getD (.other name)

end Reg

namespace Asm

/-- Bytes in a word. -/
def wordSize : Nat := 4

/-- Words before the first attribute of an object: type tag, size and dispatch table. -/
def headerWords : Nat := 3

/-- The signed number that the low 32 bits of `n` spell, as one word holds it. -/
def int32 (n : Int) : Int := n.bmod 4294967296

inductive Op where
  | add | sub | mul | div | rem | xor | slt
deriving DecidableEq, Repr

inductive OpImm where
  | addi | xori | slli
deriving DecidableEq, Repr

inductive Move where
  | mv | seqz | snez
deriving DecidableEq, Repr

inductive Load where
  | lw | lbu
deriving DecidableEq, Repr

inductive Store where
  | sw | sb
deriving DecidableEq, Repr

inductive Cond where
  | beq | bne | blt | bge
deriving DecidableEq, Repr

inductive CondZero where
  | beqz | bnez
deriving DecidableEq, Repr

inductive Instr where
  | op (o : Op) (rd rs₁ rs₂ : Reg)
  | opImm (o : OpImm) (rd rs : Reg) (imm : Int)
  | move (o : Move) (rd rs : Reg)
  | li (rd : Reg) (imm : Int)
  | la (rd : Reg) (label : Label)
  /-- Loads from `offset(base)`. -/
  | load (o : Load) (rd base : Reg) (offset : Int)
  /-- Stores at `offset(base)`. -/
  | store (o : Store) (rs base : Reg) (offset : Int)
  | loadLabel (rd : Reg) (label : Label)
  /-- Stores at a label with `tmp` for the address. -/
  | storeLabel (rs : Reg) (label : Label) (tmp : Reg)
  | branch (c : Cond) (rs₁ rs₂ : Reg) (label : Label)
  | branchZero (c : CondZero) (rs : Reg) (label : Label)
  | j (label : Label)
  | jal (label : Label)
  | jalr (rs : Reg)
  | jr (rs : Reg)
  | ecall
deriving DecidableEq, Repr

def Op.text : Op → Bytes
  | add => txt "add"
  | sub => txt "sub"
  | mul => txt "mul"
  | div => txt "div"
  | rem => txt "rem"
  | xor => txt "xor"
  | slt => txt "slt"

def OpImm.text : OpImm → Bytes
  | addi => txt "addi"
  | xori => txt "xori"
  | slli => txt "slli"

def Move.text : Move → Bytes
  | mv => txt "mv"
  | seqz => txt "seqz"
  | snez => txt "snez"

def Load.text : Load → Bytes
  | lw => txt "lw"
  | lbu => txt "lbu"

def Store.text : Store → Bytes
  | sw => txt "sw"
  | sb => txt "sb"

def Cond.text : Cond → Bytes
  | beq => txt "beq"
  | bne => txt "bne"
  | blt => txt "blt"
  | bge => txt "bge"

def CondZero.text : CondZero → Bytes
  | beqz => txt "beqz"
  | bnez => txt "bnez"

namespace Instr

def mnemonic : Instr → Bytes
  | op o .. => o.text
  | opImm o .. => o.text
  | move o .. => o.text
  | li .. => txt "li"
  | la .. => txt "la"
  | load o .. => o.text
  | store o .. => o.text
  | loadLabel .. => txt "lw"
  | storeLabel .. => txt "sw"
  | branch c .. => c.text
  | branchZero c .. => c.text
  | j _ => txt "j"
  | jal _ => txt "jal"
  | jalr _ => txt "jalr"
  | jr _ => txt "jr"
  | ecall => txt "ecall"

/-- A memory operand, as in `offset(base)`. -/
def address (base : Reg) (offset : Int) : Bytes :=
  signed offset ++ txt "(" ++ base.text ++ txt ")"

def operands : Instr → List Bytes
  | op _ rd rs₁ rs₂ => [rd.text, rs₁.text, rs₂.text]
  | opImm _ rd rs imm => [rd.text, rs.text, signed imm]
  | move _ rd rs => [rd.text, rs.text]
  | li rd imm => [rd.text, signed imm]
  | la rd label => [rd.text, label]
  | load _ rd base offset => [rd.text, address base offset]
  | store _ rs base offset => [rs.text, address base offset]
  | loadLabel rd label => [rd.text, label]
  | storeLabel rs label tmp => [rs.text, label, tmp.text]
  | branch _ rs₁ rs₂ label => [rs₁.text, rs₂.text, label]
  | branchZero _ rs label => [rs.text, label]
  | j label => [label]
  | jal label => [label]
  | jalr rs => [rs.text]
  | jr rs => [rs.text]
  | ecall => []

/-- The label that an instruction refers to. -/
def label? : Instr → Option Label
  | la _ l | loadLabel _ l | storeLabel _ l _ | branch _ _ _ l | branchZero _ _ l | j l | jal l =>
    some l
  | op .. | opImm .. | move .. | li .. | load .. | store .. | jalr _ | jr _ | ecall => none

end Instr

inductive Section where
  | text | data
deriving DecidableEq, Repr

inductive Item where
  | instr (i : Instr) (comment : Bytes)
  | label (l : Label) (comment : Bytes)
  /-- A label that other units can see. -/
  | globalLabel (l : Label)
  | section_ (s : Section)
  /-- Alignment to a power of two. -/
  | align (power : Int)
  | word (value : Int) (comment : Bytes)
  | wordAddress (l : Label) (comment : Bytes)
  /-- A string with a NUL at its end. -/
  | string (value : Bytes) (comment : Bytes)
  | remark (comment : Bytes)
deriving DecidableEq, Repr

/-- The column where comments start. -/
def commentColumn : Nat := 40

/-- A mnemonic or directive with its operands. -/
def statement (mnemonic : Bytes) (operands : List Bytes) : Bytes :=
  match Bytes.join (txt ", ") operands with
  | [] => txt "  " ++ mnemonic
  | text => txt "  " ++ mnemonic ++ txt " " ++ text

/-- A line with its comment, if comments are wanted and there is one. -/
def line (comments : Bool) (text comment : Bytes) : Bytes :=
  (if comments && !comment.isEmpty then
    text ++ List.replicate (max 1 (commentColumn - text.length)) ' '.toUInt8 ++ txt "# " ++ comment
  else text) ++ txt "\n"

namespace Item

/-- The text of an item: a line, two for a global label, none for a remark that is not wanted. -/
def render (comments : Bool) : Item → Bytes
  | instr i c => line comments (statement i.mnemonic i.operands) c
  | label l c => line comments (l ++ txt ":") c
  | globalLabel l => line comments (txt ".globl " ++ l) [] ++ line comments (l ++ txt ":") []
  | section_ .text => line comments (txt ".text") []
  | section_ .data => line comments (txt ".data") []
  | align power => line comments (statement (txt ".align") [signed power]) []
  | word value c => line comments (statement (txt ".word") [signed value]) c
  | wordAddress l c => line comments (statement (txt ".word") [l]) c
  | string value c => line comments (statement (txt ".string") [value.quote]) c
  | remark c => if comments then line comments (txt "  # " ++ c) [] else []

def defines? : Item → Option Label
  | label l _ | globalLabel l => some l
  | _ => none

def refers? : Item → Option Label
  | instr i _ => i.label?
  | wordAddress l _ => some l
  | _ => none

end Item

/-- The text of a list of items. -/
def render (comments : Bool) (items : List Item) : Bytes := items.flatMap (Item.render comments)

end Asm

end ChocoRv
