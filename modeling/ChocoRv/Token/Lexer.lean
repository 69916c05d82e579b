import ChocoRv.Text.Class
import ChocoRv.Token.Basic

/-!
# From bytes to tokens

Text is read line by line. A line with only white space or a comment gives no token. Every other
line gives the `indent` or `dedent` tokens of its indentation, its lexemes and a `newline`; at each
place the longest lexeme is taken. The open indentations are a stack of widths, innermost first.
-/

namespace ChocoRv

namespace Lexer

inductive Cause where
  | unindent | unknownByte | badString | unknownEscape | badIdentifier | leadingZeros | outOfRange
  | reserved
deriving DecidableEq, Repr

def Cause.text : Cause → Bytes
  | unindent => txt "unindent does not match any outer indentation level"
  | unknownByte => txt "unknown character"
  | badString => txt "incorrect string format"
  | unknownEscape => txt "unknown escape sequence"
  | badIdentifier => txt "incorrect identifier format"
  | leadingZeros => txt "leading zeros in integer literal"
  | outOfRange => txt "integer literal out of range"
  | reserved => txt "reserved keyword"

/-- The first place where a line cannot be read, with the text that a message shows for it. -/
structure Error where
  cause : Cause
  near : Bytes
  line : Nat
deriving DecidableEq, Repr

def Error.message (e : Error) : Bytes :=
  txt "tokenizer error near " ++ e.near ++ txt " at line " ++ decimal e.line ++ txt ", msg: " ++
    e.cause.text

/-- What stands in for a lexeme that cannot be read: the cause and the text near it. -/
abbrev Fault := Cause × Bytes

/-- The content of a string literal after its opening quote, and the number of bytes up to and
including the closing quote. -/
def stringBody : Bytes → Except Cause (Bytes × Nat)
  | [] => .error .badString
  | [c] => if c = '"'.toUInt8 then .ok ([], 1) else .error .badString
  | c :: d :: rest =>
    if c = '"'.toUInt8 then .ok ([], 1)
    else if c = '\\'.toUInt8 then
      match Bytes.unescape? d with
      | none => .error .unknownEscape
      | some e => (stringBody rest).map fun (content, n) => (e :: content, n + 2)
    else if c < 32 || 126 < c then .error .badString
    else (stringBody (d :: rest)).map fun (content, n) => (c :: content, n + 1)

/-- The largest integer literal. -/
def maxInteger : Nat := 2147483647

/-- A number as the run of all its digits, before the bytes `after`. -/
def number (digits after : Bytes) : Except Fault Token.Kind :=
  if after.head?.any Byte.isNameStart then .error (.badIdentifier, digits)
  else if 1 < digits.length && digits.head? == some '0'.toUInt8 then .error (.leadingZeros, digits)
  else if maxInteger < digits.value then .error (.outOfRange, digits)
  else .ok (.integer digits.value)

def word (w : Bytes) : Except Fault Token.Kind :=
  match Keyword.ofSpelling? w with
  | some k => .ok (.keyword k)
  | none => if Keyword.reserved.contains w then .error (.reserved, w) else .ok (.identifier w)

/-- A symbol of two bytes is preferred to one of a single byte. -/
def symbol (c : UInt8) (cs : Bytes) : Except Fault (Token.Kind × Nat) :=
  match Symbol.ofSpelling? (c :: cs.take 1) with
  | some s => .ok (.symbol s, s.spelling.length - 1)
  | none =>
    match Symbol.ofSpelling? [c] with
    | some s => .ok (.symbol s, 0)
    | none => .error (.unknownByte, Bytes.ofCodePoint c)

/-- The lexeme at `c :: cs` and the number of its bytes after `c`. -/
def lexeme (c : UInt8) (cs : Bytes) : Except Fault (Token.Kind × Nat) :=
  if c = '"'.toUInt8 then
    match stringBody cs with
    | .ok (content, n) => .ok (.string content, n)
    | .error cause => .error (cause, c :: cs)
  else if Byte.isDigit c then
    let digits := cs.takeWhile Byte.isDigit
    (number (c :: digits) (cs.drop digits.length)).map (·, digits.length)
  else if Byte.isNameStart c then
    let part := cs.takeWhile Byte.isNamePart
    (word (c :: part)).map (·, part.length)
  else symbol c cs

/-- The tokens of one line from column `col` on. -/
def lexemes (line col : Nat) : Bytes → Except Error (List Token)
  | [] => .ok []
  | c :: cs =>
    if Byte.isSpace c then lexemes line (col + 1) cs
    else if c = '#'.toUInt8 then .ok []
    else
      match lexeme c cs with
      | .error (cause, near) => .error ⟨cause, near, line⟩
      | .ok (kind, n) =>
        (lexemes line (col + n + 1) (cs.drop n)).map (⟨kind, ⟨line, col⟩⟩ :: ·)
termination_by s => s.length
decreasing_by all_goals grind

/-- A line with only white space or a comment. -/
def isBlankLine (line : Bytes) : Bool :=
  match line.dropWhile Byte.isSpace with
  | [] => true
  | c :: _ => c == '#'.toUInt8

/-- The number of open indentations wider than `width`, and the others. -/
def close (width : Nat) : List Nat → Nat × List Nat
  | [] => (0, [])
  | top :: rest =>
    if width < top then let (n, stack) := close width rest; (n + 1, stack) else (0, top :: rest)

/-- The tokens of a change to indentation `width` and the indentations open after it. -/
def reindent (stack : List Nat) (width : Nat) : Option (List Token.Kind × List Nat) :=
  if stack.headD 0 < width then some ([.indent], width :: stack)
  else
    let (n, stack) := close width stack
    if stack.headD 0 = width then some (List.replicate n .dedent, stack) else none

/-- The tokens of a line and the indentations open after it. -/
def lineTokens (n : Nat) (stack : List Nat) (line : Bytes) : Except Error (List Token × List Nat) :=
  if isBlankLine line then .ok ([], stack)
  else
    match reindent stack line.indentWidth with
    | none => .error ⟨.unindent, line, n⟩
    | some (marks, stack) => do
      let margin := line.indentation
      let tokens ← lexemes n (margin.length + 1) (line.drop margin.length)
      return (marks.map (⟨·, ⟨n, 1⟩⟩) ++ tokens ++ [⟨.newline, ⟨n, line.length + 1⟩⟩], stack)

/-- The tokens of the lines from number `n` on, and the indentations left open. -/
def linesTokens (n : Nat) (stack : List Nat) : List Bytes → Except Error (List Token × List Nat)
  | [] => .ok ([], stack)
  | line :: rest => do
    let (tokens, stack) ← lineTokens n stack line
    let (more, stack) ← linesTokens (n + 1) stack rest
    return (tokens ++ more, stack)

end Lexer

/-- The tokens of a source text, ending with `eof`. -/
def tokenize (source : Bytes) : Except Lexer.Error (List Token) := do
  let (tokens, stack) ← Lexer.linesTokens 1 [0] source.lines
  let last : Loc := ⟨source.count '\n'.toUInt8 + 1, 1⟩
  return tokens ++ List.replicate (stack.length - 1) ⟨.dedent, last⟩ ++ [⟨.eof, last⟩]

end ChocoRv
