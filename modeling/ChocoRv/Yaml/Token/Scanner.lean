import ChocoRv.Yaml.Text
import ChocoRv.Yaml.Token.Basic

/-!
# Scanners

A scanner holds the text that is left, the indentation of the open block collections and the tokens
that are read but not yet taken. Until a colon is read, a token at the start of a line or of a flow
entry may turn out to be a simple key: its place is kept, because the tokens of the key and of its
mapping go before it.

Of the text that is left some characters are in view. Before a scanner looks further on it reads
more blocks, and a fault in one of them is met at that moment.

After an error a scanner is still where it met it, and may go on from there.
-/

namespace ChocoRv.Yaml

/-- The last token that could be a simple key. -/
structure SimpleKey where
  possible : Bool := false
  /-- Nothing but a key can stand at its place. -/
  required : Bool := false
  /-- The number of the token, counted from the start of the document. -/
  number : Nat := 0
  place : Place := {}
deriving DecidableEq, Repr

structure Scanner where
  rest : List Char
  /-- The number of characters in the whole text, which bounds all loops over it. -/
  size : Nat := rest.length
  /-- How many characters are in view. The end of the text is one, as often as it is met. -/
  inView : Nat := 0
  /-- The sizes of the blocks that are not in view yet. -/
  blocks : List Nat := []
  /-- The fault after those blocks. -/
  fault? : Option Fault := none
  /-- The character that was next when blocks were last read. -/
  front? : Option Char := none
  place : Place := {}
  /-- The line breaks since the last character that is no blank. -/
  breaks : Nat := 0
  /-- The column of the innermost block collection, -1 outside of all. -/
  indent : Int := -1
  indents : List Int := []
  keyAllowed : Bool := true
  /-- The simple key of the innermost flow collection, or outside of all. -/
  simpleKey : SimpleKey := {}
  /-- The simple keys around it, the innermost first. -/
  outerKeys : List SimpleKey := []
  /-- The number of those, which is that of the flow collections around. -/
  level : Nat := outerKeys.length
  /-- The tokens that stay in the queue as long as a colon may come, by their numbers: those that
  could be simple keys, each with the number of flow collections around it. What is the simple key
  there may have changed since. -/
  awaiting : List (Nat × Nat) := []
  queue : List Token := []
  /-- The number of tokens that were taken. -/
  taken : Nat := 0
  /-- The comments that no token is known to own yet. -/
  comments : List Comment := []
  /-- An error that is held back. -/
  held? : Option Error := none
deriving Repr

abbrev Scan := ExceptT Error (StateM Scanner)

namespace Scanner

def ofText (t : Text) : Scanner :=
  { rest := t.chars, blocks := t.blocks.map List.length, fault? := t.fault? }

def inFlow (s : Scanner) : Bool := !s.outerKeys.isEmpty

/-- The simple key inside so many flow collections. -/
def keyAt? (s : Scanner) (level : Nat) : Option SimpleKey :=
  if s.level < level then none else (s.simpleKey :: s.outerKeys)[s.level - level]?

/-- The token inside so many flow collections is no simple key. -/
def expire (s : Scanner) (level : Nat) : Scanner :=
  let drop (k : SimpleKey) : SimpleKey := { k with possible := false }
  if level = s.level then { s with simpleKey := drop s.simpleKey }
  else { s with outerKeys := s.outerKeys.modify (s.level - level - 1) drop }

/-- The token with a number does not wait for a colon. -/
def release (s : Scanner) (number : Nat) : Scanner :=
  { s with awaiting := s.awaiting.filter (·.1 != number) }

/-- The character `n` places on. -/
def peek? (s : Scanner) (n : Nat) : Option Char := s.rest[n]?

def head? (s : Scanner) : Option Char := s.rest.head?

def startsWith (s : Scanner) (c : Char) : Bool := s.head? == some c

/-- Reads blocks until `n` characters are in view, of which some are already. -/
def readBlocks (n : Nat) : List Nat → Nat → List Nat × Nat
  | [], inView => ([], inView)
  | block :: blocks, inView =>
    if n ≤ inView then (block :: blocks, inView) else readBlocks n blocks (inView + block)

/-- Brings `n` characters into view, or the end of the text. The result tells whether there is no
fault before; the characters of its block in front of the fault are in view all the same. -/
def view (s : Scanner) (n : Nat) : Scanner × Bool :=
  if n ≤ s.inView then (s, true)
  else
    let (blocks, inView) := readBlocks n s.blocks s.inView
    let s := { s with blocks, inView, front? := s.head? }
    if n ≤ inView then (s, true)
    else match s.fault? with
      | none => ({ s with inView := inView + 1 }, true)
      | some f =>
        ({ s with
            inView := inView + f.before.length
            fault? := some { f with before := [] } }, false)

/-- Moves past one character of a line. -/
def skip (s : Scanner) : Scanner :=
  { s with
    rest := s.rest.tail
    inView := s.inView - 1
    place := { s.place with index := s.place.index + 1, column := s.place.column + 1 }
    breaks := if s.head?.any isBlank then s.breaks else 0 }

def skipMany : Nat → Scanner → Scanner
  | 0, s => s
  | n + 1, s => skipMany n s.skip

/-- Moves past a line break of so many characters. -/
def nextLine (s : Scanner) (width : Nat) : Scanner :=
  { s with
    rest := s.rest.drop width
    inView := s.inView - width
    place := ⟨s.place.index + width, s.place.line + 1, 0⟩
    breaks := s.breaks + 1 }

/-- The line break at the front, as it counts in a text, and its width. A carriage return, a line
feed, the two together and a next line are all one. -/
def break? (s : Scanner) : Option (Char × Nat) :=
  match s.rest with
  | '\r' :: '\n' :: _ => some ('\n', 2)
  | c :: _ =>
    if c == '\u2028' || c == '\u2029' then some (c, 1)
    else if isBreak c then some ('\n', 1)
    else none
  | [] => none

/-- Moves past a line break, if there is one, and returns it. -/
def skipBreak (s : Scanner) : List Char × Scanner :=
  match s.break? with
  | some (c, width) => ([c], s.nextLine width)
  | none => ([], s)

/-- Whether a line of three dashes or three dots starts here. -/
def atDocumentMark (s : Scanner) (c : Char) : Bool :=
  s.place.column == 0 && s.rest.take 3 == [c, c, c] && isGap (s.peek? 3)

def atAnyDocumentMark (s : Scanner) : Bool := s.atDocumentMark '-' || s.atDocumentMark '.'

/-! ## Tokens in waiting -/

/-- Adds a token after those in waiting. -/
def push (s : Scanner) (kind : Token.Kind) (place : Place) : Scanner :=
  { s with queue := s.queue ++ [⟨kind, place⟩] }

/-- Adds a token before the one with a number, or after all if that one is taken. -/
def insertAt (s : Scanner) (number : Nat) (kind : Token.Kind) (place : Place) : Scanner :=
  let n := if number < s.taken then s.queue.length else number - s.taken
  { s with queue := s.queue.take n ++ ⟨kind, place⟩ :: s.queue.drop n }

/-- Closes the block collections right of a column, of those with the given columns around. -/
def closeFrom (column : Int) (place : Place) : List Int → Scanner → Scanner
  | [], s => { s with indents := [] }
  | outer :: indents, s =>
    if column < s.indent then
      closeFrom column place indents ({ s with indent := outer }.push .blockEnd place)
    else { s with indents := outer :: indents }

/-- Closes the block collections right of a column. -/
def closeBlocks (s : Scanner) (column : Int) (place : Place) : Scanner :=
  if s.inFlow then s else s.closeFrom column place s.indents

end Scanner

/-! ## Scanning steps -/

namespace Scan

variable {α : Type}

/-- Fails at the current place in a token that starts at `start`. -/
def fail (start : Place) (problem : String) : Scan α := do
  throw (.inToken start (← get).place problem)

/-- Brings `n` characters into view; returns the error that keeps it from doing so. -/
def view? (n : Nat) : Scan (Option Error) := do
  let (s, found) := (← get).view n
  set s
  return if found then none else s.fault?.map fun f => .ofFault s.held? f.problem

/-- Brings `n` characters into view. -/
def look (n : Nat) : Scan Unit := do
  if let some e ← view? n then throw e

/-- Whether `n` characters can be brought into view. If not, the error is held back. -/
def canLook (n : Nat) : Scan Bool := do
  match ← view? n with
  | none => return true
  | some e =>
    modify fun s => { s with held? := some e }
    return false

def skip : Scan Unit := modify Scanner.skip

/-- Moves past characters of a line that satisfy a predicate, at most `n`, and returns them. -/
def readUpTo (p : Char → Bool) : Nat → Scan (List Char)
  | 0 => return []
  | n + 1 => do
    look 1
    match (← get).head? with
    | some c =>
      if p c then
        skip
        return c :: (← readUpTo p n)
      else return []
    | none => return []

/-- Moves past the characters of a line that satisfy a predicate and returns them. -/
def readWhile (p : Char → Bool) : Scan (List Char) := do readUpTo p ((← get).size + 1)

/-- Moves past the characters of a line that satisfy a predicate. -/
def skipWhile (p : Char → Bool) : Scan Unit := do
  let _ ← readWhile p

/-- Moves past a line break, if there is one, and returns it. -/
def skipBreak : Scan (List Char) := do
  if !(← get).head?.any isBreak then return []
  look 2
  let (text, s) := (← get).skipBreak
  set s
  return text

/-! ## Keys and collections -/

/-- How many characters a simple key may have. -/
def keyReach : Nat := 1024

def missingColon : String := "could not find expected ':'"

/-- Whether the simple key inside so many flow collections can still get its colon: on its line and
not too far on. Else it is none any more. -/
def isFresh (level : Nat) : Scan Bool := do
  let s ← get
  match s.keyAt? level with
  | none => return false
  | some k =>
    if !k.possible then return false
    if s.place.line ≤ k.place.line && s.place.index ≤ k.place.index + keyReach then return true
    if k.required then fail k.place missingColon
    set (s.expire level)
    return false

/-- Gives up the simple key of the current level. -/
def dropKey : Scan Unit := do
  let s ← get
  if s.simpleKey.possible then
    if s.simpleKey.required then fail s.simpleKey.place missingColon
    set ((s.expire s.level).release s.simpleKey.number)

/-- Takes the next token for a simple key, where one may start. -/
def saveKey : Scan Unit := do
  let s ← get
  if s.keyAllowed then
    dropKey
    let number := s.taken + s.queue.length
    modify fun t =>
      { t with
        simpleKey :=
          { possible := true
            required := !s.inFlow && s.indent == s.place.column
            number
            place := s.place }
        awaiting := (number, s.level) :: t.awaiting }

def allowKey (allowed : Bool) : Scan Unit := modify fun s => { s with keyAllowed := allowed }

/-- How deep collections may be nested. -/
def maxDepth : Nat := 10000

def tooDeep : String := "exceeded max depth of 10000"

/-- Opens a block collection at a column, unless it is open already: its token goes before the one
with a number or after all. -/
def openBlock (column : Nat) (number? : Option Nat) (kind : Token.Kind) (place : Place) :
    Scan Unit := do
  let s ← get
  if !s.inFlow && s.indent < column then
    if maxDepth ≤ s.indents.length then fail s.simpleKey.place tooDeep
    let s := { s with indents := s.indent :: s.indents, indent := column }
    set (match number? with
      | some number => s.insertAt number kind place
      | none => s.push kind place)

/-- Enters a flow collection. -/
def enterFlow : Scan Unit := do
  let s ← get
  if maxDepth ≤ s.level then fail s.place tooDeep
  set { s with
    simpleKey := { number := s.taken + s.queue.length, place := s.place }
    outerKeys := s.simpleKey :: s.outerKeys
    level := s.level + 1 }

/-- Leaves a flow collection. If no simple key could start in it, its own token does not wait for a
colon any more. -/
def leaveFlow : Scan Unit := modify fun s =>
  match s.outerKeys with
  | [] => s
  | k :: outer =>
    { s.release s.simpleKey.number with simpleKey := k, outerKeys := outer, level := s.level - 1 }

/-- Adds a token of so many characters at the current place and moves past it. -/
def mark (width : Nat) (kind : Token.Kind) : Scan Unit :=
  modify fun s => (s.skipMany width).push kind s.place

end Scan

end ChocoRv.Yaml
