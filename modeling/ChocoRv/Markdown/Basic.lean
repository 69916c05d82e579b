import ChocoRv.Text.Class

/-!
# Markdown blocks and lines

The blocks of a document that matter here, and lines that are read from the left. A container of
blocks may take up a part of a tab; the columns that are left of it then count as spaces.
-/

namespace ChocoRv.Markdown

inductive Block where
  | heading (line : Nat) (text : Bytes)
  /-- The line is that of the first line of the content, 0 if there is none. -/
  | fence (line : Nat) (language content : Bytes)
deriving DecidableEq, Repr

def isMargin (b : UInt8) : Bool := b == ' '.toUInt8 || b == '\t'.toUInt8

/-- White space is space, tab and the two bytes of line breaks. -/
def isSpace (b : UInt8) : Bool := isMargin b || Byte.isLineEnd b

def isBlankLine (line : Bytes) : Bool := line.all isSpace

/-- The text without white space of one byte at its start. -/
def stripStart (s : Bytes) : Bytes := s.dropWhile isSpace

/-- The text without white space of one byte at its end. -/
def stripEnd (s : Bytes) : Bytes := (s.reverse.dropWhile isSpace).reverse

/-- The text without white space of one byte at either end. -/
def strip (s : Bytes) : Bytes := stripEnd (stripStart s)

/-- Punctuation of ASCII, which a backslash can escape. -/
def isPunctuation (b : UInt8) : Bool :=
  ('!'.toUInt8 ≤ b && b ≤ '/'.toUInt8) || (':'.toUInt8 ≤ b && b ≤ '@'.toUInt8) ||
    ('['.toUInt8 ≤ b && b ≤ 0x60) || ('\x7b'.toUInt8 ≤ b && b ≤ '~'.toUInt8)

/-- The text after the first occurrence of another one. -/
def after? (w : Bytes) : Bytes → Option Bytes
  | [] => if w.isEmpty then some [] else none
  | c :: s => if w.isPrefixOf (c :: s) then some ((c :: s).drop w.length) else after? w s

def occurs (w s : Bytes) : Bool := (after? w s).isSome

/-! ## Columns -/

/-- The width of a tab at a column: it goes on to the next multiple of four. -/
def tabWidth (column : Nat) : Nat := 4 - column % 4

/-- The column after a text that starts at a column. -/
def columnAfter (column : Nat) (s : Bytes) : Nat :=
  s.foldl (fun col b => if b == '\t'.toUInt8 then col + tabWidth col else col + 1) column

/-- The width of the margin of a text that starts at a column. -/
def margin (column : Nat) (s : Bytes) : Nat := columnAfter column (s.takeWhile isMargin) - column

/-- The number of bytes that take up a width, after a width that is taken already, and the whole
width they take up. The first bytes, up to `padding`, are spaces in any case. -/
def measure (column width : Nat) : Nat → Nat → Bytes → Nat × Nat
  | _, w, [] => (0, w)
  | p + 1, w, _ :: s => let (n, w) := measure column width p (w + 1) s; (n + 1, w)
  | 0, w, b :: s =>
    if w < width && isMargin b then
      let step := if b == '\t'.toUInt8 then tabWidth (column + w) else 1
      let (n, w) := measure column width 0 (w + step) s
      (n + 1, w)
    else (0, w)

/-- How many bytes after the padding a margin of some width takes up, and the width of the last
that is left over; none if the margin is too small. -/
def takeWidth? (column padding width : Nat) (s : Bytes) : Option (Nat × Nat) :=
  if width = 0 then some (0, padding)
  else
    let (n, w) := measure column width padding 0 s
    if width ≤ w then some (n - padding, w - width) else none

/-- A line that is read up to a byte. -/
structure Cursor where
  line : Bytes
  start : Nat := 0
  /-- The columns that are left of a tab before. -/
  padding : Nat := 0
deriving DecidableEq, Repr

namespace Cursor

/-- The bytes that are left. -/
def raw (c : Cursor) : Bytes := c.line.drop c.start

/-- What is left, with spaces for what is left of a tab. -/
def rest (c : Cursor) : Bytes := List.replicate c.padding ' '.toUInt8 ++ c.raw

def column (c : Cursor) : Nat := columnAfter 0 (c.line.take c.start) - c.padding

def margin (c : Cursor) : Nat := Markdown.margin c.column c.rest

/-- What is left after the margin. -/
def body (c : Cursor) : Bytes := c.rest.dropWhile isMargin

def advance (c : Cursor) (n : Nat) : Cursor :=
  if n ≤ c.padding then { c with padding := c.padding - n }
  else { c with start := c.start + (n - c.padding), padding := 0 }

/-- Leaves columns of the tab before. -/
def pad (c : Cursor) (padding : Nat) : Cursor := { c with padding := max c.padding padding }

end Cursor

/-- A line of a paragraph with its number and what stands before its text in the document. -/
structure Line where
  number : Nat
  lead : Bytes := []
  text : Bytes
deriving DecidableEq, Repr

/-- The line of which a text is left after its margin. -/
def Cursor.textLine (c : Cursor) (number : Nat) : Line :=
  let text := stripStart c.rest
  { number, lead := c.line.take (c.line.length - text.length), text }

end ChocoRv.Markdown
