import ChocoRv.Yaml.Token.Scanner

/-!
# White space and comments

Between two tokens there may be blanks, line breaks and comments. A comment belongs to the token
above which, beside which or below which it stands: lines of comments in front of a token are its
head, unless a blank line or a smaller indentation shows that they belong to what is above them.
-/

namespace ChocoRv.Yaml.Scan

/-- The mark that may start a line of a text. -/
def byteOrderMark : Char := '\uFEFF'

/-- How far the next comment may be from the line before it. -/
def commentReach : Nat := 512

/-! ## Comments beside a token -/

/-- The number of blanks before a comment on the same line: `blanks` or more, at most `n` more. -/
def commentBeside? : Nat → Nat → Scan (Option Nat)
  | 0, _ => return none
  | n + 1, blanks => do
    if !(← canLook (blanks + 1)) then return none
    match (← get).peek? blanks with
    | some c =>
      if isBlank c then commentBeside? n (blanks + 1)
      else return if c == '#' then some blanks else none
    | none => return none

/-- Moves past a comment on the line of the token before, for a token at an index. -/
def lineComment (owner : Nat) : Scan Unit := do
  if (← get).breaks == 0 then
    if let some _ ← commentBeside? commentReach 0 then
      skipWhile isBlank
      let start := (← get).place
      let text ← readWhile (!isBreak ·)
      modify fun s => { s with comments := s.comments ++ [{ kind := .line, owner, start, text }] }

/-! ## Comments between tokens -/

/-- What decides whom lines of comments belong to: the indentation of the block they are in, whether
the token above is the colon of an entry, and the line right below that token. -/
structure Surroundings where
  indent : Nat
  belowColon : Bool
  below? : Option Nat

/-- Lines of comments that are read but not assigned yet. -/
structure Remarks where
  /-- Their characters, the last first. -/
  past : List Char := []
  /-- Where they start, with columns counted from one. -/
  start : Place := {}
  /-- The line and the column of the place that is looked at. -/
  line : Nat
  column : Nat
  /-- Whether the last line was blank. -/
  blank : Bool := false
  /-- Whether no line was blank. -/
  dense : Bool

namespace Remarks

def isDedented (r : Remarks) (around : Surroundings) : Bool := r.start.column ≤ around.indent

/-- Whether the comments before the first blank line belong to what is above them. -/
def isFoot (r : Remarks) (around : Surroundings) : Bool :=
  r.dense && ((around.below? == some r.start.line && !around.belowColon) || r.isDedented around)

/-- The comments as ones of a kind, if there are any. -/
def close (r : Remarks) (kind : Comment.Kind) : List Comment :=
  if r.past.isEmpty then []
  else [{ kind, owner := r.start.index, start := r.start, text := r.past.reverse }]

end Remarks

/-- Assigns comments to what is above them. -/
def closeFoot (r : Remarks) : Scan Remarks := do
  modify fun s => { s with comments := s.comments ++ r.close .foot }
  return { r with past := [] }

/-- Assigns comments to what is above them if those to come are indented in another way. -/
def closeApart (around : Surroundings) (r : Remarks) : Scan Remarks :=
  if r.column ≤ around.indent && r.column ≠ r.start.column then closeFoot r else return r

/-- Assigns comments at the end of a line, which may be that of the text. -/
def closeLine (around : Surroundings) (atEnd : Bool) (r : Remarks) : Scan Remarks :=
  if r.blank then return r
  else if r.isFoot around then closeFoot r
  else return if r.past.isEmpty || atEnd then r else { r with past := '\n' :: r.past }

/-- Looks for a comment `gap` characters on or further, at most `n` more; blanks and line breaks may
stand before it. Line breaks other than carriage return and line feed end the search, and so does a
bracket that closes a flow collection. -/
def commentBelow? (around : Surroundings) : Nat → Nat → Remarks → Scan (Remarks × Option Nat)
  | 0, _, r => return (r, none)
  | n + 1, gap, r => do
    if !(← canLook (gap + 1)) then return (r, none)
    let s ← get
    let r := { r with column := r.column + 1 }
    let isNarrow (c : Char) : Bool := isBlank c || c == '\n' || c == '\r'
    if gap ≠ 0 && !(s.peek? (gap - 1)).all isNarrow then return (← closeApart around r, none)
    match s.peek? gap with
    | none => return (← closeLine around true r, none)
    | some c =>
      if isBlank c then commentBelow? around n (gap + 1) r
      else if isBreak c then
        let r ← closeLine around false r
        commentBelow? around n (gap + 1)
          { r with dense := false, blank := true, column := 0, line := r.line + 1 }
      else if s.inFlow && (c == ']' || c == '\x7d') then
        return (← closeFoot r, none)
      else
        let r ← closeApart around r
        if c != '#' then return (r, none)
        let r := if r.past.isEmpty then { r with start := ⟨s.place.index + gap, r.line, r.column⟩ }
          else { r with past := '\n' :: r.past }
        return ({ r with blank := false }, some gap)

/-- Moves past blanks and line breaks up to an index, at most `n`. -/
def skipTo (index : Nat) : Nat → Scan Unit
  | 0 => return ()
  | n + 1 => do
    look 1
    let s ← get
    if s.place.index < index then
      if s.head?.any isBreak then
        let _ ← skipBreak
      else skip
      skipTo index n

/-- Moves past a comment and, whatever their indentation, past those on the lines after it; at most
`n` lines. -/
def readComments (around : Surroundings) : Nat → Nat → Remarks → Scan Remarks
  | 0, _, r => return r
  | n + 1, gap, r => do
    match ← commentBelow? around (commentReach - gap) gap r with
    | (r, none) => return r
    | (r, some gap) =>
      skipTo ((← get).place.index + gap) (gap + 1)
      let text ← readWhile (!isBreak ·)
      readComments around n 1
        { r with past := text.reverse ++ r.past, line := (← get).place.line, column := 0 }

/-- The token that comments are below of. A comma does not count. -/
def tokenAbove? (queue : List Token) : Option Token :=
  match queue.reverse with
  | [] => none
  | t :: before => if t.kind == .flowEntry then before.head? else some t

/-- Moves past the comments from here on; `before` is where the token above them ends. -/
def skipComments (before : Place) : Scan Unit := do
  let s ← get
  let beside := s.breaks == 0 && 1 < s.place.column
  let around : Surroundings :=
    { indent := s.indent.toNat
      belowColon := (tokenAbove? s.queue).any (·.kind == .value)
      below? := if before.column = 0 then none
        else some (s.place.line - s.breaks + (if beside then 2 else 1)) }
  let r ← readComments around s.size 0
    { line := s.place.line, column := s.place.column, dense := s.breaks ≤ 1 }
  modify fun s => { s with comments := s.comments ++ r.close .head }

/-! ## The way to the next token -/

/-- A comment beside the first dash of a sequence is the head of what follows it: of a token on the
next line, or else of the dash. -/
def liftComment : Scan Unit := modify fun s =>
  match s.queue.reverse, s.comments.reverse with
  | b :: a :: _, c :: others =>
    if a.kind == .blockSeqStart && b.kind == .blockEntry && c.kind == .line &&
        !s.head?.any isBreak then
      let owner := if c.start.line + 1 == s.place.line then s.place.index else c.owner
      { s with comments := others.reverse ++ [{ c with kind := .head, owner }] }
    else s
  | _, _ => s

/-- Moves to the next token, at most `n` lines on; `before` is where the token above ends. A tab
does not stand where a key may start. At the start of a line one character is passed over if the
blocks in view start with a byte order mark. -/
def skipToToken (before : Place) : Nat → Scan Unit
  | 0 => return ()
  | n + 1 => do
    look 1
    let s ← get
    if s.place.column == 0 && s.front? == some byteOrderMark then skip
    skipWhile fun c => c == ' ' || ((s.inFlow || !s.keyAllowed) && c == '\t')
    liftComment
    if (← get).startsWith '#' then skipComments before
    if (← get).head?.any isBreak then
      let _ ← skipBreak
      modify fun s => if s.inFlow then s else { s with keyAllowed := true }
      skipToToken before n

end ChocoRv.Yaml.Scan
