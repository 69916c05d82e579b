import ChocoRv.Markdown.Inline
import ChocoRv.Markdown.Leaf

/-!
# The blocks of a document

Blocks are found line by line. A line first continues the open containers, quotes and list items,
from the outermost inwards; what is left of it continues the block inside them or starts new ones.
A line that starts no block may continue a paragraph even where containers end.
-/

namespace ChocoRv.Markdown

/-- An open item of a list. -/
structure Item where
  byte : UInt8
  ordered : Bool
  /-- The width that the lines of the item are indented by. -/
  offset : Nat
  /-- Whether there is a block in it. -/
  filled : Bool := false
deriving DecidableEq, Repr

def Item.ofMarker (m : Marker) : Item :=
  { byte := m.byte, ordered := m.number?.isSome, offset := m.stop + m.gap }

/-- Whether a marker goes on with the list of an item. -/
def Item.isBeside (i : Item) (m : Marker) : Bool :=
  i.byte == m.byte && i.ordered == m.number?.isSome

inductive Container where
  | quote
  | item (i : Item)
deriving DecidableEq, Repr

/-- The open block inside the containers. -/
inductive Leaf where
  | none
  | paragraph (lines : List Line)
  | fence (f : Fence)
  /-- HTML; `closed` tells whether its first line is its last. -/
  | html (e : Html.Ending) (closed : Bool)
  | code
deriving DecidableEq, Repr

/-- A heading before its markup is read, or a fence. -/
inductive Part where
  | heading (lines : List Line)
  | fence (f : Fence)
deriving DecidableEq, Repr

/-- Marks the innermost container as one with a block in it. -/
def fill : List Container → List Container
  | [] => []
  | [.item i] => [.item { i with filled := true }]
  | c :: rest => c :: fill rest

/-! ## New blocks -/

/-- The paragraph above a line, if there is one: beside the block that starts with the line, or in
containers that end before it. -/
inductive Above where
  | nothing | beside | inside
deriving DecidableEq, Repr

/-- What a line starts. -/
inductive Start where
  | quote (c : Cursor)
  | item (i : Item) (c? : Option Cursor)
  | heading (text : Bytes)
  | rule
  | leaf (l : Leaf)

/-- What is left of a line of a quote. -/
def quote? (c : Cursor) : Option Cursor :=
  match c.body with
  | mark :: next =>
    if 3 < c.margin || mark != '>'.toUInt8 then none
    else
      let c := c.advance ((c.rest.takeWhile isMargin).length + 1)
      match next.head? with
      | some b =>
        if b == '\t'.toUInt8 then some ((c.advance 1).pad (tabWidth c.column - 1))
        else if b == ' '.toUInt8 then some (c.advance 1)
        else some c
      | none => some c
  | [] => none

/-- The item of a marker at a cursor, with what is left of the line if that is not blank. -/
def startItem (m : Marker) (c : Cursor) : Start :=
  let rest := (takeWidth? m.stop 0 m.gap m.after).map fun (n, padding) =>
    (c.advance (m.stop + n)).pad padding
  .item (.ofMarker m) (if m.isEmpty then none else rest)

/-- A block of a kind that a line with a number can start anywhere. -/
def special? (above : Above) (c : Cursor) : Option Start :=
  let first := c.body.headD 0
  let item? : Option Start := (Marker.start? c.rest).bind fun m =>
    if above == .beside && !m.interrupts then none else some (startItem m c)
  if (txt "-*_").contains first && isRule c.body then some .rule
  else if (txt "-*+").contains first || Byte.isDigit first then item?
  else if first == '#'.toUInt8 then (heading? c.body).map .heading
  else if first == 0x60 || first == '~'.toUInt8 then (Fence.start? c.rest).map (.leaf <| .fence ·)
  else if first == '>'.toUInt8 then (quote? c).map .quote
  else if first == '<'.toUInt8 then
    (Html.start? (above != .nothing) c.rest).map fun e =>
      .leaf (.html e (e != .blankLine && e.isOn c.rest))
  else none

/-- The block that starts with what is left of a line with a number. Code and paragraphs do not
start below the lines of a paragraph. -/
def start? (above : Above) (number : Nat) (c : Cursor) : Option Start :=
  if isBlankLine c.rest then none
  else if 3 < c.margin then (if above == .nothing then some (.leaf .code) else none)
  else match special? above c with
    | some s => some s
    | none =>
      if above == .nothing then some (.leaf (.paragraph [c.textLine number])) else none

/-- New containers, each inside the one before it, and the block inside them. -/
structure Opening where
  containers : List Container := []
  leaf : Leaf := .none
  heading? : Option Bytes := none

/-- An opening inside a new container. -/
def Opening.within (c : Container) : Option Opening → Opening
  | some o => { o with containers := fill [c] ++ o.containers }
  | none => { containers := [c] }

/-- The blocks that open with a start, at most `n` containers inside each other. -/
def Start.opening (number : Nat) : Nat → Start → Opening
  | n + 1, quote c => .within .quote ((start? .nothing number c).map (opening number n))
  | n + 1, item i (some c) => .within (.item i) ((start? .nothing number c).map (opening number n))
  | 0, quote _ => .within .quote none
  | _, item i _ => .within (.item i) none
  | _, heading text => { heading? := some text }
  | _, rule => {}
  | _, leaf l => { leaf := l }

/-! ## Open containers -/

/-- What a line does to an open item. -/
inductive ItemStep where
  | stay (c : Cursor)
  | stop
  /-- Another item of the same list starts. -/
  | beside (m : Marker)

/-- What a line that is not blank does to an open item. If an item without blocks has `emptied` into
a blank line, only another item can follow. -/
def Item.step (i : Item) (emptied : Bool) (c : Cursor) : ItemStep :=
  let short := c.margin < i.offset
  let inside : ItemStep := match takeWidth? c.column 0 i.offset c.rest with
    | some (n, padding) => .stay ((c.advance n).pad padding)
    | none => .stop
  if i.filled && !short then (if emptied then .stop else inside)
  else match if c.margin < 4 then Marker.start? c.rest else none with
    | some m =>
      if !i.isBeside m || isRule (c.rest.drop (m.stop - 1)) then .stop
      else if short || emptied then .beside m
      else inside
    | none => if short || emptied then .stop else inside

/-- How far a line continues the open containers. -/
structure Walk where
  /-- The number of containers that it continues. -/
  kept : Nat
  rest : Cursor
  /-- The marker of an item beside the first that it does not continue. -/
  beside? : Option Marker := none
  emptied : Bool

/-- Continues containers with a line after `kept` others. -/
def walk (kept : Nat) (emptied : Bool) (c : Cursor) : List Container → Walk
  | [] => { kept, rest := c, emptied }
  | .quote :: inner =>
    match quote? c with
    | some c => walk (kept + 1) emptied c inner
    | none => { kept, rest := c, emptied }
  | .item i :: inner =>
    if isBlankLine c.rest then
      walk (kept + 1) (emptied || !i.filled) (c.advance (c.rest.length - 1)) inner
    else match i.step emptied c with
      | .stay c => walk (kept + 1) emptied c inner
      | .stop => { kept, rest := c, emptied }
      | .beside m => { kept, rest := c, beside? := some m, emptied }

/-! ## Documents -/

structure State where
  /-- The open containers, the outermost first. -/
  containers : List Container := []
  leaf : Leaf := .none
  /-- Whether an item without blocks has met a blank line. -/
  emptied : Bool := false
  /-- The labels that are defined. -/
  labels : List Bytes := []
  /-- The headings and fences, the last first. -/
  parts : List Part := []

/-- The lines of a paragraph without the definitions at its start, and their labels. -/
def Line.withoutDefinitions (lines : List Line) : List Bytes × List Line :=
  let text := stripEnd (lines.flatMap Line.text)
  let found := definitions text text.length text
  (found.map (normalLabel ·.label), Markdown.withoutDefinitions lines 0 found)

namespace State

/-- Closes the open block inside the containers. -/
def closeLeaf (s : State) : State :=
  match s.leaf with
  | .fence f => { s with leaf := .none, parts := .fence f :: s.parts }
  | .paragraph lines =>
    { s with leaf := .none, labels := (Line.withoutDefinitions lines).1 ++ s.labels }
  | _ => { s with leaf := .none }

/-- Closes all but some containers. -/
def closeTo (s : State) (kept : Nat) : State :=
  { s.closeLeaf with containers := s.containers.take kept }

/-- Adds blocks that start on a line with a number inside the containers. -/
def add (s : State) (number : Nat) (o : Opening) : State :=
  let isItem : Container → Bool
    | .item _ => true
    | .quote => false
  { s with
    containers := s.containers ++ o.containers
    leaf := o.leaf
    emptied := s.emptied && !o.containers.any isItem
    parts := (o.heading?.map fun text => .heading [{ number, text }]).toList ++ s.parts }

/-- Opens blocks inside some of the containers, or else continues a paragraph. -/
def openIn (s : State) (kept number : Nat) (c : Cursor) : State :=
  let above : Above := match s.leaf with
    | .paragraph _ => if kept = s.containers.length then .beside else .inside
    | _ => .nothing
  match start? above number c, s.leaf with
  | some start, _ =>
    let s := s.closeTo kept
    { s with containers := fill s.containers }.add number (start.opening number c.line.length)
  | none, .paragraph lines =>
    if isBlankLine c.rest then s.closeTo kept
    else { s with leaf := .paragraph (lines ++ [c.textLine number]) }
  | none, _ => s.closeTo kept

/-- Opens blocks inside all containers. A line under a paragraph may make it a heading, unless it is
made up of definitions. -/
def openInside (s : State) (number : Nat) (c : Cursor) : State :=
  let kept := s.containers.length
  match s.leaf with
  | .paragraph lines =>
    if c.margin ≤ 3 && isUnderline c.rest then
      match Line.withoutDefinitions lines with
      | (labels, []) => { s with leaf := .none, labels := labels ++ s.labels }.openIn kept number c
      | (labels, text) =>
        { s with
          leaf := .none
          labels := labels ++ s.labels
          parts := .heading text :: s.parts }
    else s.openIn kept number c
  | _ => s.openIn kept number c

/-- What is left of a line continues the open block inside all containers or closes it. The result
tells whether the next line belongs to the same containers, whatever it starts with. -/
def continueLeaf (s : State) (number : Nat) (c : Cursor) : State × Bool :=
  match s.leaf with
  | .fence f =>
    if f.isClosedBy c then (s.closeLeaf, false)
    else ({ s with leaf := .fence (f.add number c) }, false)
  | .html e closed =>
    if closed then (s.closeLeaf.openInside number c, false)
    else if !e.isOn c.rest then (s, false)
    else match e with
      | .mark _ => (s.closeLeaf, true)
      | _ => (s.closeLeaf, false)
  | .code =>
    if isBlankLine c.rest || 4 ≤ c.margin then (s, false)
    else (s.closeLeaf.openInside number c, false)
  | _ => (s.openInside number c, false)

/-- Reads a line with a number. Where the document ends right after the marks of containers, nothing
is added to the blocks inside them. -/
def readLine (s : State) (number : Nat) (line : Bytes) : State × Bool :=
  let w := walk 0 s.emptied { line } s.containers
  let s := { s with emptied := w.emptied }
  if w.rest.raw.isEmpty then (s, false)
  else if w.kept = s.containers.length then s.continueLeaf number w.rest
  else match w.beside? with
    | some m =>
      let opening := (startItem m w.rest).opening number line.length
      ((s.closeTo w.kept).add number opening, false)
    | none => (s.openIn w.kept number w.rest, false)

/-- Reads lines from a number on. -/
def readLines (number : Nat) (s : State) : List Bytes → State
  | [] => s.closeTo 0
  | [line] => (s.readLine number line).1.closeTo 0
  | line :: next :: rest =>
    match s.readLine number line with
    | (s, true) => readLines (number + 2) (s.openInside (number + 1) { line := next }) rest
    | (s, false) => readLines (number + 1) s (next :: rest)

end State

def Part.block (labels : List Bytes) : Part → Block
  | heading lines => .heading ((lines.head?.map Line.number).getD 0) (plainText labels lines)
  | fence f => .fence f.line f.language f.content

/-- The headings and fences of a document, in order. -/
def blocks (source : Bytes) : List Block :=
  let s := State.readLines 1 {} source.lines
  s.parts.reverse.map (Part.block s.labels)

end ChocoRv.Markdown
