import ChocoRv.Markdown.Emphasis
import ChocoRv.Markdown.Html
import ChocoRv.Markdown.Link
import ChocoRv.Text.Printable
import ChocoRv.Text.Punctuation

/-!
# The text of headings

The text without its markup: marks of emphasis, the brackets and targets of links, the backticks of
code, and HTML. Escapes stay as they are written.
-/

namespace ChocoRv.Markdown

/-- A place in a text, with the bytes of the document before it, the nearest first, and those that
stand before the lines to come. -/
structure Place where
  past : Bytes := []
  rest : Bytes
  leads : List Bytes := []

namespace Place

/-- Moves on by a byte. -/
def step (p : Place) : Place :=
  match p.rest with
  | [] => p
  | c :: rest =>
    if c == '\n'.toUInt8 then
      { past := (p.leads.headD []).reverse ++ c :: p.past, rest, leads := p.leads.tail }
    else { p with past := c :: p.past, rest }

def move (p : Place) : Nat → Place
  | 0 => p
  | n + 1 => p.step.move n

/-- Moves on to where only some text is left. -/
def moveTo (p : Place) (rest : Bytes) : Place := p.move (p.rest.length - rest.length)

end Place

inductive Piece where
  | text (s : Bytes)
  | run (r : Run)
  /-- An opening bracket at an offset with the text after it. -/
  | bracket (image : Bool) (offset : Nat) (after : Bytes)
  /-- A sign that there is a link here. -/
  | link
deriving DecidableEq, Repr

def bracketText (image : Bool) : Bytes := if image then txt "![" else txt "["

namespace Piece

def plain : Piece → Bytes
  | text s => s
  | run r => List.replicate r.length r.mark
  | bracket image _ _ => bracketText image
  | link => []

/-- The offsets of a bracket and of the text after it. -/
def extent? : Piece → Option (Nat × Nat)
  | bracket image offset _ => some (offset, offset + (bracketText image).length)
  | _ => none

def run? : Piece → Option Run
  | run r => some r
  | _ => none

/-- The pieces with the marks of runs that are left as text. -/
def settle : List Piece → List Nat → List Piece
  | [], _ => []
  | run r :: rest, n :: left => text (List.replicate n r.mark) :: settle rest left
  | p :: rest, left => p :: settle rest left

/-- The pieces after all emphasis in them is found. -/
def resolve (pieces : List Piece) : List Piece :=
  settle pieces (unpaired (pieces.filterMap run?))

end Piece

/-! ## Code -/

/-- The text before a run of so many backticks and the text after it, at most `n` steps on. -/
def codeEnd? (length : Nat) : Nat → Bytes → Option (Bytes × Bytes)
  | 0, _ | _, [] => none
  | n + 1, c :: s =>
    if c != 0x60 then (codeEnd? length n s).map fun (inner, rest) => (c :: inner, rest)
    else
      let ticks := (c :: s).takeWhile (· == 0x60)
      let rest := (c :: s).drop ticks.length
      if ticks.length == length then some ([], rest)
      else (codeEnd? length n rest).map fun (inner, rest) => (ticks ++ inner, rest)

/-- The text of code without one space or line break at each end, where both ends have one. -/
def codeText (s : Bytes) : Bytes :=
  let isGap (b : UInt8) : Bool := b == ' '.toUInt8 || b == '\n'.toUInt8
  if !isBlankLine s && s.head?.any isGap && s.getLast?.any isGap then s.tail.dropLast else s

/-- Reads code; backticks that do not end are text. -/
def readCode (p : Place) : Piece × Place :=
  let ticks := p.rest.takeWhile (· == 0x60)
  let inside := p.move ticks.length
  match codeEnd? ticks.length inside.rest.length inside.rest with
  | some (inner, rest) => (.text (codeText inner), p.moveTo rest)
  | none => (.text ticks, inside)

/-! ## Emphasis -/

def firstChar (s : Bytes) : Nat := ((Bytes.codePoint? s).map (·.1)).getD CodePoint.replacement

/-- The character before a place; a line break at the start. -/
def Place.charBefore (p : Place) : Nat :=
  let trail := (p.past.takeWhile Bytes.isContinuation).length
  match p.past.drop trail with
  | [] => '\n'.toNat
  | _ => firstChar ((p.past.take (trail + 1)).reverse ++ p.rest)

/-- The character at a place; a space at the end. -/
def Place.charAfter (p : Place) : Nat := if p.rest.isEmpty then ' '.toNat else firstChar p.rest

def readRun (p : Place) (mark : UInt8) : Piece × Place :=
  let length := (p.rest.takeWhile (· == mark)).length
  let next := p.move length
  let before := p.charBefore
  let after := next.charAfter
  (.run (.ofNeighbours mark length (CodePoint.isWhite before) (CodePoint.isPunctuation before)
    (CodePoint.isWhite after) (CodePoint.isPunctuation after)), next)

/-! ## Links -/

/-- How far the open brackets are apart, of pieces from the end. -/
def bracketSpan (pieces : List Piece) : Nat :=
  let extents := pieces.filterMap Piece.extent?
  ((extents.head?.map (·.2)).getD 0) - ((extents.getLast?.map (·.1)).getD 0)

/-- How far the open brackets around a link may be apart. -/
def maxSpan : Nat := 998

/-- The pieces after the last bracket, that bracket and the pieces before it, all from the end. -/
def splitBracket? : List Piece → Option (List Piece × Bool × Bytes × List Piece)
  | [] => none
  | .bracket image _ after :: rest => some ([], image, after, rest)
  | p :: rest =>
    (splitBracket? rest).map fun (inner, image, after, outer) => (p :: inner, image, after, outer)

/-- What follows a link of which the text between brackets is read. That is a target, or a label
that is defined; else the text itself is such a label. -/
def linkEnd? (labels : List Bytes) (text after : Bytes) : Option Bytes :=
  let isLabel (s : Bytes) : Bool := s.length ≤ maxLabel && labels.contains (normalLabel s)
  let short := if isLabel text then some after else none
  match after with
  | [] => short
  | c :: s =>
    if c == '('.toUInt8 then (target? s).or short
    else if c == '['.toUInt8 then
      match closure '['.toUInt8 ']'.toUInt8 s with
      | .ok (label, rest) =>
        if isLabel (if isBlankLine label then text else label) then some rest else none
      | .error _ => short
    else short

/-- Closes the last bracket, of pieces from the end. The result has no place if that is no link; the
bracket is then text. There are no links in the text of a link, nor between brackets that are too
far apart. -/
def closeBracket (labels : List Bytes) (pieces : List Piece) (p : Place) :
    List Piece × Option Place :=
  match splitBracket? pieces with
  | none => (pieces, none)
  | some (inner, image, after, outer) =>
    let text := after.take (after.length - p.rest.length)
    let refused := maxSpan < bracketSpan outer || (!image && inner.contains .link)
    match if refused then none else linkEnd? labels text p.rest.tail with
    | some rest =>
      let inner := (Piece.resolve inner.reverse).reverse
      (inner ++ (if image then outer else .link :: outer), some (p.moveTo rest))
    | none => (inner ++ .text (bracketText image) :: outer, none)

/-! ## Texts -/

/-- Reads the construct at a place, if there is one, and adds it to the pieces from the end. -/
def readMarkup (labels : List Bytes) (pieces : List Piece) (p : Place) :
    List Piece × Option Place :=
  let add : Piece × Place → List Piece × Option Place := fun (piece, p) => (piece :: pieces, some p)
  match p.rest with
  | [] => (pieces, none)
  | c :: s =>
    if c == 0x60 then add (readCode p)
    else if c == '*'.toUInt8 || c == '_'.toUInt8 then add (readRun p c)
    else if c == '['.toUInt8 then add (.bracket false p.past.length s, p.move 1)
    else if c == '!'.toUInt8 then
      if s.head? == some '['.toUInt8 then add (.bracket true p.past.length s.tail, p.move 2)
      else (pieces, none)
    else if c == ']'.toUInt8 then closeBracket labels pieces p
    else if c == '<'.toUInt8 then
      (pieces, ((Html.autolink? p.rest).or (Html.inline? p.rest)).map p.moveTo)
    else (pieces, none)

/-- How many bytes of a line count, and whether white space at their end is kept. A backslash before
the line break does not count, nor do two spaces. -/
def lineExtent (s : Bytes) : Nat × Bool :=
  let body := s.takeWhile (· != '\n'.toUInt8)
  let isBack (b? : Option UInt8) : Bool := b? == some '\\'.toUInt8
  let returned := body.getLast? == some '\r'.toUInt8
  let back := (if returned then body.dropLast else body).reverse
  if body.length == s.length then (body.length, false)
  else if isBack back.head? && !isBack back.tail.head? then (back.length - 1, true)
  else if back.take 2 == txt "  " then (back.length - 2, false)
  else (body.length, false)

def markups : Bytes :=
  [0x60, '!'.toUInt8, '['.toUInt8, ']'.toUInt8, '<'.toUInt8, '*'.toUInt8, '_'.toUInt8]

/-- Where a text is being read: the bytes of the line that are left and what happens at its end,
whether the next byte is the first after markup or a line break, whether a backslash is before it,
and the bytes since then, the last first. -/
structure Reading where
  left : Nat
  keepEnd : Bool
  first : Bool := true
  escaped : Bool := false
  plain : Bytes := []

/-- The reading of a line from a place on. -/
def Reading.start (escaped : Bool) (rest : Bytes) : Reading :=
  let (left, keepEnd) := lineExtent rest
  { left, keepEnd, escaped }

/-- The pieces of a text from a place on, the last first, at most `n` steps on. -/
def readPieces (labels : List Bytes) : Nat → Reading → List Piece → Place → List Piece
  | 0, _, pieces, _ => pieces
  | n + 1, r, pieces, p =>
    let text := r.plain.reverse
    if r.left = 0 then
      let pieces := .text (if r.keepEnd then text else stripEnd text) :: pieces
      let p := p.move ((p.rest.takeWhile (· != '\n'.toUInt8)).length + 1)
      if p.rest.isEmpty then pieces else readPieces labels n (.start r.escaped p.rest) pieces p
    else match p.rest with
      | [] => .text text :: pieces
      | c :: _ =>
        let next (escaped : Bool) (plain : Bytes) : Reading :=
          { r with left := r.left - 1, first := false, escaped, plain }
        if markups.contains c && (r.first || !r.escaped) then
          match readMarkup labels (.text text :: pieces) p with
          | (pieces, some p) =>
            if p.rest.isEmpty then pieces
            else readPieces labels n (.start r.escaped p.rest) pieces p
          | (pieces, none) => readPieces labels n (next false [c]) pieces (p.move 1)
        else
          let escaped := !r.escaped && c == '\\'.toUInt8
          readPieces labels n (next escaped (c :: r.plain)) pieces (p.move 1)

/-- The text of the lines of a heading without its markup, where labels are defined. -/
def plainText (labels : List Bytes) (lines : List Line) : Bytes :=
  let s := stripEnd (lines.flatMap Line.text)
  if s.isEmpty then []
  else
    let place : Place := { rest := s, leads := lines.tail.map Line.lead }
    let pieces := readPieces labels (2 * s.length + 2) (.start false s) [] place
    (Piece.resolve pieces.reverse).flatMap Piece.plain

end ChocoRv.Markdown
