import ChocoRv.Yaml.Error

/-!
# Tokens of YAML documents

Block collections have tokens for their start and end, which are not written but follow from the
indentation. A key without a mark of its own gets its token when the colon after it is read.
-/

namespace ChocoRv.Yaml

namespace Token

inductive Kind where
  | streamEnd
  | version (major minor : Nat)
  | tagHandle (handle stem : Bytes)
  | documentStart | documentEnd
  | blockSeqStart | blockMapStart | blockEnd
  | flowSeqStart | flowSeqEnd | flowMapStart | flowMapEnd
  | blockEntry | flowEntry | key | value
  | reference (anchor : Bytes)
  | anchor (name : Bytes)
  | tag (handle suffix : Bytes)
  /-- A scalar; one that is `plain` has no quotes and is no block. -/
  | scalar (plain : Bool) (text : Bytes)
deriving DecidableEq, Repr

end Token

structure Token where
  kind : Token.Kind
  place : Place
deriving DecidableEq, Repr

/-! ## Comments -/

inductive Comment.Kind where
  /-- Above the token it belongs to. -/
  | head
  /-- Beside it. -/
  | line
  /-- Below it. -/
  | foot
deriving DecidableEq, Repr

structure Comment where
  kind : Comment.Kind
  /-- The index of the first token that it may belong to. -/
  owner : Nat
  start : Place
  text : List Char
deriving DecidableEq, Repr

/-! ## Characters -/

def isBlank (c : Char) : Bool := c == ' ' || c == '\t'

/-- Line feed, carriage return, next line, and the separators of lines and paragraphs. -/
def isBreak (c : Char) : Bool :=
  c == '\n' || c == '\r' || c == '\u0085' || c == '\u2028' || c == '\u2029'

/-- The characters of names. -/
def isWordChar (c : Char) : Bool := c.isAlphanum || c == '_' || c == '-'

/-- Whether a character, or the end of the document, separates tokens. -/
def isGap : Option Char → Bool
  | none => true
  | some c => isBlank c || isBreak c

def isBreakOrEnd : Option Char → Bool
  | none => true
  | some c => isBreak c

/-- The value of a hexadecimal digit. -/
def hexValue? (c : Char) : Option Nat :=
  if c.isDigit then some (c.toNat - '0'.toNat)
  else if 'a' ≤ c && c ≤ 'f' then some (c.toNat - 'a'.toNat + 10)
  else if 'A' ≤ c && c ≤ 'F' then some (c.toNat - 'A'.toNat + 10)
  else none

end ChocoRv.Yaml
