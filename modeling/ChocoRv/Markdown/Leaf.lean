import ChocoRv.Markdown.Html
import ChocoRv.Markdown.Link

/-!
# Blocks without blocks inside

Headings, rules, fences and the markers of lists, each as one line shows it.
-/

namespace ChocoRv.Markdown

/-! ## Headings and rules -/

/-- The text of a heading without the number signs that close it after white space. -/
def withoutClosing (text : Bytes) : Bytes :=
  let rest := text.reverse.dropWhile (· == '#'.toUInt8)
  match rest with
  | [] => []
  | c :: _ => if isSpace c then stripEnd rest.reverse else text

/-- The text of a heading that number signs start, after the margin. -/
def heading? (body : Bytes) : Option Bytes :=
  let level := (body.takeWhile (· == '#'.toUInt8)).length
  let rest := body.drop level
  if level = 0 || 6 < level || !rest.head?.all isSpace then none
  else some (withoutClosing (strip rest))

/-- Whether a line underlines the paragraph above it as a heading. -/
def isUnderline (line : Bytes) : Bool :=
  let text := stripEnd (line.dropWhile (· == ' '.toUInt8))
  !text.isEmpty && (text.all (· == '='.toUInt8) || text.all (· == '-'.toUInt8))

/-- Whether a text is a rule: three or more of the same mark with white space anywhere. -/
def isRule (body : Bytes) : Bool :=
  let marks := body.filter (!isSpace ·)
  3 ≤ marks.length && marks.head?.any fun m =>
    (txt "*-_").contains m && marks.all (· == m)

/-! ## Fences -/

/-- An open fence: its byte, length and indentation, the language and the lines so far. -/
structure Fence where
  mark : UInt8
  length : Nat
  indent : Nat
  language : Bytes
  line : Nat := 0
  content : Bytes := []
deriving DecidableEq, Repr

namespace Fence

/-- The fence that a line opens. A single byte after the marks at the end of the document is not
read. -/
def start? (line : Bytes) : Option Fence :=
  let indent := (line.takeWhile isMargin).length
  match line.drop indent with
  | [] => none
  | mark :: rest =>
    let length := ((mark :: rest).takeWhile (· == mark)).length
    let after := (mark :: rest).drop length
    let info := if 1 < after.length then strip after else []
    if length < 3 || !(mark == 0x60 || mark == '~'.toUInt8) then none
    else if mark == 0x60 && info.contains mark then none
    else some { mark, length, indent, language := info.takeWhile (· != ' '.toUInt8) }

def isClosedBy (f : Fence) (c : Cursor) : Bool :=
  let length := (c.body.takeWhile (· == f.mark)).length
  c.margin < 4 && f.length ≤ length && isBlankLine (c.body.drop length)

/-- How many bytes a line loses to the margin of its fence, and the columns that are left of the
last. A smaller margin goes whole, unless the line is blank; columns that are left of a tab before
then cost a byte each. -/
def dedent (f : Fence) (c : Cursor) : Nat × Nat :=
  match takeWidth? c.column c.padding f.indent c.rest with
  | some taken => taken
  | none =>
    if c.body.head?.all (· == '\n'.toUInt8) then (0, 0)
    else ((c.rest.takeWhile isMargin).length, 0)

/-- Adds a line with a number; the last line of a document ends like the others. The content starts
on the next line if this one loses all of its bytes. -/
def add (f : Fence) (n : Nat) (c : Cursor) : Fence :=
  let (taken, padding) := f.dedent c
  let text := List.replicate padding ' '.toUInt8 ++ c.raw.drop taken
  let ended := text.isEmpty || text.getLast? == some '\n'.toUInt8
  { f with
    line := if f.line = 0 then n + (c.raw.take taken).count '\n'.toUInt8 else f.line
    content := f.content ++ (if ended then text else text ++ txt "\n") }

end Fence

/-! ## Markers of lists -/

/-- A marker of a list item: the byte that tells lists apart, the number of an ordered one, and what
stands before and after. -/
structure Marker where
  byte : UInt8
  number? : Option Nat
  /-- The number of bytes up to the end of the marker. -/
  stop : Nat
  after : Bytes
deriving DecidableEq, Repr

namespace Marker

/-- A marker of so many bytes after some spaces, if white space follows it. -/
def ofText? (spaces length : Nat) (byte : UInt8) (number? : Option Nat) (after : Bytes) :
    Option Marker :=
  if after.head?.all fun b => isMargin b || b == '\n'.toUInt8 then
    some { byte, number?, stop := spaces + length, after }
  else none

/-- The marker with which a line starts after at most three spaces. -/
def start? (line : Bytes) : Option Marker :=
  let spaces := (line.takeWhile (· == ' '.toUInt8)).length
  let text := line.drop spaces
  let digits := text.takeWhile Byte.isDigit
  if 3 < spaces then none
  else match text.drop digits.length with
    | [] => none
    | b :: after =>
      if digits.isEmpty then
        if (txt "-*+").contains b then ofText? spaces 1 b none after else none
      else if digits.length ≤ 9 && (b == '.'.toUInt8 || b == ')'.toUInt8) then
        ofText? spaces (digits.length + 1) b (some (Bytes.value digits)) after
      else none

def isEmpty (m : Marker) : Bool := isBlankLine m.after

/-- The width between the marker and the text. Indented code starts one column after the marker. -/
def gap (m : Marker) : Nat :=
  let width := margin m.stop m.after
  if m.isEmpty || 4 < width then 1 else width

/-- Whether an item may start below a line of a paragraph beside it: it has a text, and its number
is one. -/
def interrupts (m : Marker) : Bool := !m.isEmpty && m.number?.all (· == 1)

end Marker

end ChocoRv.Markdown
