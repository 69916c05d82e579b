import ChocoRv.Yaml.Token.Space

/-!
# Scalars

The text of plain, quoted and block scalars. A line break inside a text is folded: one alone is a
space, of several the first is dropped. Blanks around it are dropped too.
-/

namespace ChocoRv.Yaml

/-- Blanks and line breaks between two words of a scalar. -/
structure Gap where
  blanks : List Char := []
  /-- Whether a line has ended. -/
  broken : Bool := false
  first : List Char := []
  others : List Char := []

/-- What a gap counts for in the text. A separator of lines or paragraphs is not folded. -/
def Gap.text (g : Gap) : List Char :=
  if !g.broken then g.blanks
  else if g.first == ['\n'] then (if g.others.isEmpty then [' '] else g.others)
  else g.first ++ g.others

namespace Scan

/-- Reads a gap of at most `n` characters. With a limit, tabs left of that column are refused in a
scalar that starts at `start`. -/
def readGap (start : Place) (limit? : Option Int) : Nat → Gap → Scan Gap
  | 0, g => return g
  | n + 1, g => do
    look 1
    let s ← get
    match s.head? with
    | some c =>
      if isBlank c then
        if g.broken && c == '\t' && limit?.any ((s.place.column : Int) < ·) then
          fail start "found a tab character that violates indentation"
        skip
        readGap start limit? n (if g.broken then g else { g with blanks := g.blanks ++ [c] })
      else if isBreak c then
        let b ← skipBreak
        readGap start limit? n (if g.broken then { g with others := g.others ++ b }
          else { g with broken := true, first := b })
      else return g
    | none => return g

/-! ## Plain scalars -/

/-- The next word of a plain scalar, of at most `n` characters. -/
def plainWord (flow : Bool) : Nat → Scan (List Char)
  | 0 => return []
  | n + 1 => do
    match (← get).rest with
    | [] => return []
    | c :: rest =>
      if isGap (some c) || (c == ':' && isGap rest.head?) ||
          (flow && [',', '?', '[', ']', '\x7b', '\x7d'].contains c) then return []
      skip
      look 2
      return c :: (← plainWord flow n)

/-- The text of a plain scalar from a gap on, of at most `n` words. A key may follow on a line of
its own. -/
def plainFrom (start : Place) (limit : Int) : Nat → Gap → Scan (List Char)
  | 0, _ => return []
  | n + 1, gap => do
    let s ← get
    let stop : Scan (List Char) := do
      if gap.broken then allowKey true
      return []
    if gap.broken && !s.inFlow && s.place.column < limit then return ← stop
    look 4
    let s ← get
    if s.atAnyDocumentMark || s.startsWith '#' then return ← stop
    let word ← plainWord s.inFlow s.size
    if word.isEmpty then return ← stop
    let text := gap.text ++ word
    if !(← get).head?.any fun c => isBlank c || isBreak c then return text
    let next ← readGap start (some limit) s.size {}
    return text ++ (← plainFrom start limit n next)

def plainScalar : Scan Unit := do
  let s ← get
  let text ← plainFrom s.place (s.indent + 1) (s.size + 1) {}
  modify (·.push (.scalar true (utf8 text)) s.place)

/-! ## Quoted scalars -/

/-- The characters that an escape of one letter stands for. -/
def escapes : List (Char × Char) :=
  [('0', '\x00'), ('a', '\x07'), ('b', '\x08'), ('t', '\t'), ('\t', '\t'), ('n', '\n'),
   ('v', '\x0b'), ('f', '\x0c'), ('r', '\r'), ('e', '\x1b'), (' ', ' '), ('"', '"'),
   ('\x27', '\x27'), ('\\', '\\'), ('N', '\u0085'), ('_', '\u00a0'), ('L', '\u2028'),
   ('P', '\u2029')]

/-- The number of digits after a letter that starts a code point. -/
def codeLength? : Char → Option Nat
  | 'x' => some 2
  | 'u' => some 4
  | 'U' => some 8
  | _ => none

/-- The number that hexadecimal digits denote. -/
def hexNumber? (digits : List Char) : Option Nat :=
  digits.foldlM (fun acc c => (hexValue? c).map (acc * 16 + ·)) 0

/-- Reads an escape. -/
def escape (start : Place) : Scan Char := do
  let s ← get
  let letter := (s.peek? 1).getD '\x00'
  match escapes.lookup letter, codeLength? letter with
  | some c, _ =>
    set (s.skipMany 2)
    return c
  | none, none => fail start "found unknown escape character"
  | none, some length =>
    set (s.skipMany 2)
    look length
    let s ← get
    let digits := s.rest.take length
    match hexNumber? digits with
    | some c =>
      if digits.length < length then fail start "did not find expected hexdecimal number"
      if (0xD800 ≤ c && c ≤ 0xDFFF) || 0x10FFFF < c then
        fail start "found invalid Unicode character escape code"
      set (s.skipMany length)
      return Char.ofNat c
    | none => fail start "did not find expected hexdecimal number"

/-- The next word of a quoted scalar, of at most `n` characters, and whether its line ends with a
backslash. -/
def quotedWord (single : Bool) (start : Place) : Nat → Scan (List Char × Bool)
  | 0 => return ([], false)
  | n + 1 => do
    let s ← get
    let goOn (c : Char) : Scan (List Char × Bool) := do
      look 2
      let (cs, continued) ← quotedWord single start n
      return (c :: cs, continued)
    match s.rest with
    | [] => return ([], false)
    | c :: rest =>
      if isGap (some c) then return ([], false)
      else if single && c == '\x27' then
        if rest.head? == some '\x27' then
          set (s.skipMany 2)
          goOn c
        else return ([], false)
      else if !single && c == '"' then return ([], false)
      else if !single && c == '\\' then
        if rest.head?.any isBreak then
          look 3
          skip
          let _ ← skipBreak
          return ([], true)
        goOn (← escape start)
      else
        skip
        goOn c

/-- The text of a quoted scalar, of at most `n` words. -/
def quotedFrom (single : Bool) (start : Place) : Nat → Scan (List Char)
  | 0 => return []
  | n + 1 => do
    look 4
    let s ← get
    if s.atAnyDocumentMark then fail start "found unexpected document indicator"
    if s.rest.isEmpty then fail start "found unexpected end of stream"
    let (word, continued) ← quotedWord single start s.size
    look 1
    if (← get).startsWith (if single then '\x27' else '"') then
      skip
      return word
    let gap ← readGap start none s.size { broken := continued }
    return word ++ gap.text ++ (← quotedFrom single start n)

def quotedScalar (single : Bool) : Scan Unit := do
  let s ← get
  skip
  let text ← quotedFrom single s.place (s.size + 1)
  modify (·.push (.scalar false (utf8 text)) s.place)

/-! ## Block scalars -/

/-- What is kept of the line breaks at the end of a block scalar. -/
inductive Chomping where
  | strip | clip | keep
deriving DecidableEq, Repr

def chomping? : Char → Option Chomping
  | '+' => some .keep
  | '-' => some .strip
  | _ => none

/-- Reads a chomping mark, if there is one. -/
def chomping : Scan (Option Chomping) := do
  look 1
  match (← get).head?.bind chomping? with
  | some c => skip; return some c
  | none => return none

/-- Reads an indentation of one digit, if there is one. -/
def increment (start : Place) : Scan (Option Nat) := do
  look 1
  match (← get).head? with
  | some c =>
    if !c.isDigit then return none
    if c == '0' then fail start "found an indentation indicator equal to 0"
    skip
    return some (c.toNat - '0'.toNat)
  | none => return none

/-- Reads the chomping mark and the indentation, in either order. -/
def blockHeader (start : Place) : Scan (Chomping × Option Nat) := do
  match ← chomping with
  | some c => return (c, ← increment start)
  | none =>
    let n ← increment start
    let c ← if n.isSome then chomping else pure none
    return (c.getD .clip, n)

/-- Moves past the spaces of an indentation, at most `n`, and up to a limit if there is one. -/
def skipIndent (limit? : Option Nat) : Nat → Scan Unit
  | 0 => return ()
  | n + 1 => do
    look 1
    let s ← get
    if s.startsWith ' ' && limit?.all (s.place.column < ·) then
      skip
      skipIndent limit? n

/-- Reads blank lines and the indentation after them, of at most `n` lines; `indent` is none while
it is still to be found, and `widest` the widest indentation so far. -/
def blockBreaks (start : Place) (indent : Option Nat) :
    Nat → Nat → List Char → Scan (Nat × List Char)
  | 0, widest, breaks => return (indent.getD widest, breaks)
  | n + 1, widest, breaks => do
    skipIndent indent (← get).size
    let s ← get
    let widest := max widest s.place.column
    if indent.all (s.place.column < ·) && s.startsWith '\t' then
      fail start "found a tab character where an indentation space is expected"
    match s.break? with
    | some _ => blockBreaks start indent n widest (breaks ++ (← skipBreak))
    | none => return (indent.getD (max (max widest (s.indent + 1).toNat) 1), breaks)

/-- The text of a block scalar so far. -/
structure Block where
  /-- Its characters, the last first. -/
  past : List Char := []
  /-- The break after the last line. -/
  first : List Char := []
  /-- The breaks of the blank lines after it. -/
  others : List Char
  /-- Whether the last line started with a blank. -/
  blank : Bool := false

/-- What goes between the last line of a block and one that starts with a blank or not. -/
def Block.joint (b : Block) (literal blank : Bool) : List Char :=
  if !literal && !b.blank && !blank && b.first == ['\n'] then
    (if b.others.isEmpty then [' '] else b.others)
  else b.first ++ b.others

/-- Reads the lines of a block scalar at a column, at most `n`. -/
def blockLines (start : Place) (literal : Bool) (indent : Nat) : Nat → Block → Scan Block
  | 0, b => return b
  | n + 1, b => do
    let s ← get
    if s.place.column ≠ indent || s.rest.isEmpty then return b
    let blank := s.head?.any isBlank
    let line ← readWhile (!isBreak ·)
    look 2
    let first ← skipBreak
    let (_, others) ← blockBreaks start (some indent) s.size 0 []
    blockLines start literal indent n
      { past := (b.joint literal blank ++ line).reverse ++ b.past, first, others, blank }

def blockScalar (literal : Bool) : Scan Unit := do
  let s ← get
  let start := s.place
  skip
  let (chomping, increment?) ← blockHeader start
  skipWhile isBlank
  if (← get).startsWith '#' then lineComment start.index
  if !isBreakOrEnd (← get).head? then fail start "did not find expected comment or line break"
  let _ ← skipBreak
  let indent? := increment?.map fun n => s.indent.toNat + n
  let (indent, others) ← blockBreaks start indent? s.size 0 []
  let b ← blockLines start literal indent s.size { others }
  let text := b.past.reverse ++ match chomping with
    | .strip => []
    | .clip => b.first
    | .keep => b.first ++ b.others
  modify (·.push (.scalar false (utf8 text)) start)

end Scan

end ChocoRv.Yaml
