import ChocoRv.Yaml.Token.Scanner

/-!
# Directives, anchors and tags

A tag is written whole in angle brackets, or as a handle and a suffix. A directive says what a
handle stands for.
-/

namespace ChocoRv.Yaml.Scan

/-! ## Tags -/

/-- The characters of a URI beside those of names; a percent sign starts an octet. -/
def uriMarks : List Char :=
  [';', '/', '?', ':', '@', '&', '=', '+', '$', ',', '.', '!', '~', '*', '\x27', '(', ')', '[',
   ']']

/-- Reads an octet of two hexadecimal digits after a percent sign. -/
def octet (start : Place) : Scan UInt8 := do
  look 3
  let s ← get
  match s.rest with
  | '%' :: a :: b :: _ =>
    match hexValue? a, hexValue? b with
    | some high, some low =>
      set (s.skipMany 3)
      return (high * 16 + low).toUInt8
    | _, _ => fail start "did not find URI escaped octet"
  | _ => fail start "did not find URI escaped octet"

/-- Reads the other octets of a character. -/
def trailing (start : Place) : Nat → Scan Bytes
  | 0 => return []
  | n + 1 => do
    let b ← octet start
    if b &&& 0xC0 ≠ 0x80 then fail start "found an incorrect trailing UTF-8 octet"
    return b :: (← trailing start n)

/-- Reads the octets of one character. -/
def octets (start : Place) : Scan Bytes := do
  let b ← octet start
  match Text.width? b with
  | none => fail start "found an incorrect leading UTF-8 octet"
  | some width => return b :: (← trailing start (width - 1))

/-- Reads the characters of a URI, at most `n`. -/
def uriChars (start : Place) : Nat → Scan Bytes
  | 0 => return []
  | n + 1 => do
    look 1
    match (← get).head? with
    | some '%' => return (← octets start) ++ (← uriChars start n)
    | some c =>
      if isWordChar c || uriMarks.contains c then
        skip
        return utf8 [c] ++ (← uriChars start n)
      else return []
    | none => return []

/-- Reads a URI that is not empty, unless it `mayBeEmpty`. -/
def uri (start : Place) (mayBeEmpty : Bool) : Scan Bytes := do
  let text ← uriChars start (← get).size
  if text.isEmpty && !mayBeEmpty then fail start "did not find expected tag URI"
  return text

/-- Reads an exclamation mark, the name after it and whether another mark closes it. -/
def handle (start : Place) : Scan (List Char × Bool) := do
  look 1
  if !(← get).startsWith '!' then fail start "did not find expected '!'"
  skip
  let name ← readWhile isWordChar
  if (← get).startsWith '!' then
    skip
    return (name, true)
  return (name, false)

def handleText (name : List Char) : Bytes := txt "!" ++ utf8 name ++ txt "!"

def expectGap (start : Place) : Scan Unit := do
  look 1
  if !isGap (← get).head? then fail start "did not find expected whitespace or line break"

/-- Reads the handle and the suffix of a tag. An exclamation mark alone is a suffix. -/
def tagParts (start : Place) : Scan (Bytes × Bytes) := do
  look 2
  if (← get).peek? 1 == some '<' then
    modify (Scanner.skipMany 2)
    let text ← uri start false
    if !(← get).startsWith '>' then fail start "did not find the expected '>'"
    skip
    return ([], text)
  match ← handle start with
  | (name, true) => return (handleText name, ← uri start false)
  | (name, false) =>
    let suffix := utf8 name ++ (← uri start true)
    return if suffix.isEmpty then ([], txt "!") else (txt "!", suffix)

def tag : Scan Unit := do
  let start := (← get).place
  let (handle, suffix) ← tagParts start
  expectGap start
  modify (·.push (.tag handle suffix) start)

/-! ## Anchors and references -/

/-- The characters that may follow a name at once. -/
def nameEnds : List Char := ['?', ':', ',', ']', '\x7d', '%', '@', '\x60']

/-- Reads a name after its mark. -/
def anchorName : Scan Bytes := do
  let start := (← get).place
  skip
  let name ← readWhile isWordChar
  let next? := (← get).head?
  if name.isEmpty || !(isGap next? || next?.any nameEnds.contains) then
    fail start "did not find expected alphabetic or numeric character"
  return utf8 name

def anchor : Scan Unit := do
  let start := (← get).place
  let name ← anchorName
  modify (·.push (.anchor name) start)

def reference : Scan Unit := do
  let start := (← get).place
  let name ← anchorName
  modify (·.push (.reference name) start)

/-! ## Directives -/

/-- Reads digits, of which there may be at most `n`. -/
def fewDigits (start : Place) (n : Nat) : Scan (List Char) := do
  look 1
  match (← get).head?, n with
  | none, _ => return []
  | some c, n =>
    if !c.isDigit then return []
    match n with
    | 0 => fail start "found extremely long version number"
    | n + 1 =>
      skip
      return c :: (← fewDigits start n)

/-- Reads a version number of one or two digits. -/
def versionNumber (start : Place) : Scan Nat := do
  let digits ← fewDigits start 2
  if digits.isEmpty then fail start "did not find expected version number"
  return digits.foldl (fun acc c => acc * 10 + (c.toNat - '0'.toNat)) 0

def versionValue (start : Place) : Scan Token.Kind := do
  skipWhile isBlank
  let major ← versionNumber start
  if !(← get).startsWith '.' then fail start "did not find expected digit or '.' character"
  skip
  return .version major (← versionNumber start)

def tagValue (start : Place) : Scan Token.Kind := do
  skipWhile isBlank
  let (name, closed) ← handle start
  if !closed && !name.isEmpty then fail start "did not find expected '!'"
  look 1
  if !(← get).head?.any isBlank then fail start "did not find expected whitespace"
  skipWhile isBlank
  let stem ← uri start false
  expectGap start
  return .tagHandle (if closed then handleText name else txt "!") stem

def directive : Scan Unit := do
  let start := (← get).place
  skip
  let name ← readWhile isWordChar
  if name.isEmpty then fail start "could not find expected directive name"
  if !isGap (← get).head? then fail start "found unexpected non-alphabetical character"
  let kind ←
    if name == "YAML".toList then versionValue start
    else if name == "TAG".toList then tagValue start
    else fail start "found unknown directive name"
  skipWhile isBlank
  if (← get).startsWith '#' then skipWhile (!isBreak ·)
  if !isBreakOrEnd (← get).head? then fail start "did not find expected comment or line break"
  let _ ← skipBreak
  modify (·.push kind start)

end ChocoRv.Yaml.Scan
