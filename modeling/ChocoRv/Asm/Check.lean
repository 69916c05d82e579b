import ChocoRv.Asm.Basic
import ChocoRv.Text.Class
import ChocoRv.Text.Trim

/-!
# Checking labels

A reader for assembly text that knows no encodings: it collects the labels that the lines define
and refer to. A line is a label with a colon, or a mnemonic with operands; a `#` outside quotes
starts a comment.
-/

namespace ChocoRv.Asm

/-- The line up to a comment. `quoted` tells whether it starts inside quotes. -/
def uncomment (quoted : Bool) : Bytes → Bytes
  | [] => []
  | c :: rest =>
    if c = '\\'.toUInt8 && quoted then
      match rest with
      | [] => [c]
      | d :: rest => c :: d :: uncomment quoted rest
    else if c = '"'.toUInt8 then c :: uncomment (!quoted) rest
    else if c = '#'.toUInt8 && !quoted then []
    else c :: uncomment quoted rest

/-- The line without its comment and the white space around it. -/
def trimLine (line : Bytes) : Bytes := (uncomment false line).trim

/-- The lines of a text that hold more than comments and white space. -/
def instructions (text : Bytes) : List Bytes :=
  (text.split '\n'.toUInt8).filterMap fun line =>
    match trimLine line with
    | [] => none
    | l => some l

namespace Label

def isStart (b : UInt8) : Bool := Byte.isNameStart b || b == '.'.toUInt8 || b == '$'.toUInt8

def isPart (b : UInt8) : Bool := isStart b || Byte.isDigit b

def wellFormed : Bytes → Bool
  | [] => false
  | c :: cs => isStart c && cs.all isPart

end Label

namespace Check

inductive Cause where
  | wordOperands
  | noLabel (mnemonic : Bytes)
  | badLabel (l : Bytes)
  | duplicate (l : Label)
  | undefined (l : Label)
deriving DecidableEq, Repr

def Cause.text : Cause → Bytes
  | wordOperands => txt ".word expects one operand"
  | noLabel mnemonic => mnemonic ++ txt " expects a label operand"
  | badLabel l => txt "wrong label format " ++ l
  | duplicate l => txt "found duplicate label " ++ l
  | undefined l => txt "undefined label " ++ l

structure Error where
  line : Nat
  cause : Cause
deriving DecidableEq, Repr

def Error.message (e : Error) : Bytes :=
  txt "syntax err at line " ++ decimal e.line ++ txt ": " ++ e.cause.text

/-- What one line says about labels. -/
inductive Mention where
  | nothing
  | defines (l : Bytes)
  | refers (l : Bytes)
  | wrong (c : Cause)
deriving DecidableEq, Repr

/-- The operands after a mnemonic. -/
def operands (rest : Bytes) : List Bytes :=
  if rest.trim.isEmpty then [] else (rest.split ','.toUInt8).map Bytes.trim

/-- Whether an operand is a number of 32 bits. -/
def isWord (s : Bytes) : Bool :=
  let (negative, digits) := match s with
    | c :: cs =>
      if c = '-'.toUInt8 then (true, cs) else if c = '+'.toUInt8 then (false, cs) else (false, s)
    | [] => (false, s)
  !digits.isEmpty && digits.all Byte.isDigit &&
    Bytes.value digits ≤ (if negative then 2147483648 else 2147483647)

/-- Which operand of a mnemonic is a label. -/
def labelOperands : List (Bytes × Nat) :=
  [(txt "j", 0), (txt "jal", 0), (txt "beqz", 1), (txt "bnez", 1), (txt "la", 1), (txt "beq", 2),
   (txt "bne", 2), (txt "blt", 2), (txt "bge", 2), (txt "bgt", 2), (txt "ble", 2)]

/-- What a line without comment and surrounding space mentions. -/
def mention (line : Bytes) : Mention :=
  if line.getLast? = some ':'.toUInt8 then .defines line.dropLast
  else
    let (mnemonic, rest) := (line.cut? ' '.toUInt8).getD (line, [])
    let args := operands rest
    if mnemonic = txt ".word" then
      match args with
      | [arg] => if isWord arg then .nothing else .refers arg
      | _ => .wrong .wordOperands
    else if mnemonic = txt "lw" || mnemonic = txt "sw" then
      -- the form `offset(base)` names no label
      match args with
      | _ :: arg :: _ => if arg.contains '('.toUInt8 then .nothing else .refers arg
      | _ => .nothing
    else
      match labelOperands.lookup mnemonic with
      | none => .nothing
      | some i =>
        match args[i]? with
        | none => .wrong (.noLabel mnemonic)
        | some arg => .refers arg

/-- Labels defined and labels referred to, the latter with their lines. -/
structure Labels where
  defined : List Label := []
  uses : List (Label × Nat) := []

def add (n : Nat) (labels : Labels) : Mention → Except Cause Labels
  | .nothing => .ok labels
  | .wrong c => .error c
  | .defines l =>
    if !Label.wellFormed l then .error (.badLabel l)
    else if labels.defined.contains l then .error (.duplicate l)
    else .ok { labels with defined := l :: labels.defined }
  | .refers l =>
    if !Label.wellFormed l then .error (.badLabel l)
    else .ok { labels with uses := (l, n) :: labels.uses }

/-- Collects the labels of the lines from number `n` on. -/
def collect (n : Nat) (labels : Labels) : List Bytes → Except Error Labels
  | [] => .ok labels
  | line :: lines =>
    match trimLine line with
    | [] => collect (n + 1) labels lines
    | text =>
      match add n labels (mention text) with
      | .error c => .error ⟨n, c⟩
      | .ok labels => collect (n + 1) labels lines

end Check

/-- Reports the first malformed line or repeated label, or else the first use of a label that is
neither defined nor external. -/
def check (text : Bytes) (external : List Label) : Except Check.Error Unit := do
  let labels ← Check.collect 1 {} (text.split '\n'.toUInt8)
  let known (l : Label) : Bool := labels.defined.contains l || external.contains l
  match labels.uses.reverse.find? fun (l, _) => !known l with
  | none => return
  | some (l, n) => throw ⟨n, .undefined l⟩

end ChocoRv.Asm
