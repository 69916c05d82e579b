import ChocoRv.Text.Basic

/-!
# Classes of bytes and the width of an indentation
-/

namespace ChocoRv

namespace Byte

def isDigit (b : UInt8) : Bool := '0'.toUInt8 ≤ b && b ≤ '9'.toUInt8

def isUnderscore (b : UInt8) : Bool := b == '_'.toUInt8

def isLetter (b : UInt8) : Bool :=
  ('a'.toUInt8 ≤ b && b ≤ 'z'.toUInt8) || ('A'.toUInt8 ≤ b && b ≤ 'Z'.toUInt8)

/-- Bytes that can start an identifier. -/
def isNameStart (b : UInt8) : Bool := isLetter b || isUnderscore b

/-- Bytes that can continue an identifier. -/
def isNamePart (b : UInt8) : Bool := isLetter b || isUnderscore b || isDigit b

/-- Space, tab and form feed. -/
def isBlank (b : UInt8) : Bool := b == ' '.toUInt8 || b == '\t'.toUInt8 || b == 0x0C

def isLineEnd (b : UInt8) : Bool := b == '\n'.toUInt8 || b == '\r'.toUInt8

/-- Bytes that separate lexemes. -/
def isSpace (b : UInt8) : Bool := isBlank b || isLineEnd b

end Byte

namespace Bytes

/-- The column reached after one blank byte: a tab goes on to the next multiple of 8 and a form
feed starts again. -/
def blankWidth (width : Nat) (b : UInt8) : Nat :=
  if b = ' '.toUInt8 then width + 1
  else if b = '\t'.toUInt8 then width + (8 - width % 8)
  else 0

/-- The blank bytes that a line starts with. -/
def indentation (line : Bytes) : Bytes := line.takeWhile Byte.isBlank

/-- The column after the indentation of a line. -/
def indentWidth (line : Bytes) : Nat := line.indentation.foldl blankWidth 0

end Bytes

end ChocoRv
