import ChocoRv.Yaml.Token.Property
import ChocoRv.Yaml.Token.Scalar

/-!
# Reading tokens

The first characters decide what the next token is. Tokens are read a few ahead of the one that is
taken, and further while the first may still be a simple key.
-/

namespace ChocoRv.Yaml.Scan

/-! ## Ends and marks of documents -/

/-- Closes all blocks before a mark between documents. -/
def leaveBlocks : Scan Unit := do
  modify fun s => s.closeBlocks (-1) s.place
  dropKey
  allowKey false

/-- The end of the text counts as a line of its own. -/
def streamEnd : Scan Unit := do
  let s ← get
  if s.place.column ≠ 0 then set { s with place := ⟨s.place.index, s.place.line + 1, 0⟩ }
  leaveBlocks
  modify fun s => s.push .streamEnd s.place

/-! ## Collections -/

def flowStart (kind : Token.Kind) : Scan Unit := do
  saveKey
  enterFlow
  allowKey true
  mark 1 kind

def flowEnd (kind : Token.Kind) : Scan Unit := do
  dropKey
  leaveFlow
  allowKey false
  mark 1 kind

def flowEntry : Scan Unit := do
  dropKey
  allowKey true
  mark 1 .flowEntry

/-- Opens a block collection at the current place, where a key could start. -/
def openBlockHere (kind : Token.Kind) (problem : String) : Scan Unit := do
  let s ← get
  if !s.inFlow then
    if !s.keyAllowed then fail s.place problem
    openBlock s.place.column none kind s.place

def blockEntry : Scan Unit := do
  openBlockHere .blockSeqStart "block sequence entries are not allowed in this context"
  dropKey
  allowKey true
  mark 1 .blockEntry

def explicitKey : Scan Unit := do
  openBlockHere .blockMapStart "mapping keys are not allowed in this context"
  dropKey
  allowKey !(← get).inFlow
  mark 1 .key

/-- Reads a colon. After a simple key, the tokens of the key and of its mapping go before it. -/
def value : Scan Unit := do
  let k := (← get).simpleKey
  if ← isFresh (← get).level then
    modify fun s => s.insertAt k.number .key k.place
    openBlock k.place.column (some k.number) .blockMapStart k.place
    modify fun s => (s.expire s.level).release k.number
    allowKey false
  else
    openBlockHere .blockMapStart "mapping values are not allowed in this context"
    allowKey !(← get).inFlow
  mark 1 .value

/-! ## Tokens -/

/-- The characters that mark something else than a plain scalar. -/
def indicators : List Char :=
  ['-', '?', ':', ',', '[', ']', '\x7b', '\x7d', '#', '&', '*', '!', '|', '>', '\x27', '"', '%',
   '@', '\x60']

/-- Whether a plain scalar starts with a character before the rest. -/
def startsPlain (flow : Bool) (c : Char) (rest : List Char) : Bool :=
  !(isGap (some c) || indicators.contains c) || (c == '-' && !rest.head?.any isBlank) ||
    (!flow && (c == '?' || c == ':') && !isGap rest.head?)

/-- Reads a token that may be part of a simple key. -/
def keyPart (read : Scan Unit) : Scan Unit := do
  saveKey
  allowKey false
  read

def blockText (literal : Bool) : Scan Unit := do
  dropKey
  allowKey true
  blockScalar literal

/-- The index of the token that a comment belongs to, beside the one that starts with a character:
the token before a colon or a comma. -/
def besideWhom (s : Scanner) (c : Char) : Nat :=
  match s.queue.getLast? with
  | some t => if c == (if s.inFlow then ',' else ':') then t.place.index else s.place.index
  | none => s.place.index

/-- Reads a token within a document that starts with a character before the rest. -/
def inner (c : Char) (rest : List Char) : Scan Unit := do
  let s ← get
  let spaced := isGap rest.head?
  if c == '[' then flowStart .flowSeqStart
  else if c == '\x7b' then flowStart .flowMapStart
  else if c == ']' then flowEnd .flowSeqEnd
  else if c == '\x7d' then flowEnd .flowMapEnd
  else if c == ',' then flowEntry
  else if c == '-' && spaced then blockEntry
  else if c == '?' && (s.inFlow || spaced) then explicitKey
  else if c == ':' && (s.inFlow || spaced) then value
  else if c == '*' then keyPart reference
  else if c == '&' then keyPart anchor
  else if c == '!' then keyPart tag
  else if c == '|' && !s.inFlow then blockText true
  else if c == '>' && !s.inFlow then blockText false
  else if c == '\x27' then keyPart (quotedScalar true)
  else if c == '"' then keyPart (quotedScalar false)
  else if startsPlain s.inFlow c rest then keyPart plainScalar
  else fail s.place "found character that cannot start any token"
  if !(c == '-' && spaced) then lineComment (besideWhom s c)

/-- Reads the next token, after those that the indentation asks for. -/
def next : Scan Unit := do
  look 1
  let before := (← get).place
  skipToToken before ((← get).size + 1)
  modify fun s => s.closeBlocks s.place.column before
  look 4
  let s ← get
  match s.rest with
  | [] => streamEnd
  | c :: rest =>
    if s.place.column == 0 && c == '%' then
      leaveBlocks
      directive
    else if s.atDocumentMark '-' then
      leaveBlocks
      mark 3 .documentStart
    else if s.atDocumentMark '.' then
      leaveBlocks
      mark 3 .documentEnd
    else inner c rest

/-- Whether the first token may still be a simple key. -/
def isUndecided : Scan Bool := do
  let s ← get
  match s.awaiting.lookup s.taken with
  | some level => isFresh level
  | none => return false

/-- How many tokens are read ahead of the first. -/
def ahead : Nat := 2

/-- Reads tokens until there are some, at most `n`. -/
def fillTo (count : Nat) : Nat → Scan Unit
  | 0 => return ()
  | n + 1 => do
    if (← get).queue.length < count then
      next
      fillTo count n

/-- The start of a document, which is like a token before the first. -/
def start : Scan Unit := fillTo ahead ahead

/-- Reads tokens until the first can be taken, at most `n`. -/
def fill : Nat → Scan Unit
  | 0 => return ()
  | n + 1 => do
    let short := (← get).queue.length ≤ ahead
    if ← (if short then pure true else isUndecided) then
      next
      fill n

/-- The first token that is not taken. -/
def peek : Scan Token := do
  fill ((← get).size + 2 * ahead)
  let s ← get
  return s.queue.headD ⟨.streamEnd, s.place⟩

def take : Scan Unit := modify fun s => { s with queue := s.queue.tail, taken := s.taken + 1 }

end ChocoRv.Yaml.Scan
