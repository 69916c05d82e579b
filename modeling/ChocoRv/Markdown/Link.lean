import ChocoRv.Markdown.Basic
import ChocoRv.Text.Fold
import ChocoRv.Text.Trim

/-!
# Targets and labels of links

The target of a link stands in parentheses after its text, or is defined under a label at the start
of a paragraph. What a target is does not matter here, only where it ends.
-/

namespace ChocoRv.Markdown

/-- The text up to a closing byte and the text after it. An opening byte in between is refused; then
the text after its line is returned. -/
def closure (opener closer : UInt8) : Bytes → Except Bytes (Bytes × Bytes)
  | [] => .error []
  | c :: s =>
    if c == closer && c != '\\'.toUInt8 then .ok ([], s)
    else if c == opener then .error ((after? (txt "\n") s).getD [])
    else match s with
      | [] => .error []
      | d :: rest =>
        if c == '\\'.toUInt8 && isPunctuation d then
          (closure opener closer rest).map fun (inner, rest) => (c :: d :: inner, rest)
        else (closure opener closer (d :: rest)).map fun (inner, rest) => (c :: inner, rest)

/-! ## Targets -/

/-- What follows a destination after an angle bracket, on the same line. -/
def bracketed? : Bytes → Option Bytes
  | [] => none
  | c :: s =>
    if c == '>'.toUInt8 then some s
    else if c == '\n'.toUInt8 then none
    else match s with
      | [] => none
      | d :: rest =>
        if c == '\\'.toUInt8 && isPunctuation d then bracketed? rest else bracketed? (d :: rest)

/-- What follows a destination without brackets, inside some parentheses. -/
def bare (depth : Nat) : Bytes → Bytes
  | [] => []
  | c :: s =>
    if isSpace c || (c == ')'.toUInt8 && depth == 0) then c :: s
    else
      let depth := if c == '('.toUInt8 then depth + 1
        else if c == ')'.toUInt8 then depth - 1 else depth
      match s with
      | [] => []
      | d :: rest =>
        if c == '\\'.toUInt8 && isPunctuation d then bare depth rest else bare depth (d :: rest)

/-- What follows the destination of a link. -/
def destination? (s : Bytes) : Option Bytes :=
  let s := stripStart s
  if s.head? == some '<'.toUInt8 then bracketed? s.tail
  else
    let rest := bare 0 s
    if rest.length == s.length then none else some rest

/-- The byte that ends a title by the one that starts it. -/
def titleEnd? (b : UInt8) : Option UInt8 :=
  if b == 0x22 || b == 0x27 then some b
  else if b == '('.toUInt8 then some ')'.toUInt8
  else none

/-- What follows the title of a link. -/
def title? (s : Bytes) : Option Bytes :=
  match stripStart s with
  | [] => none
  | opener :: s => do
    match closure opener (← titleEnd? opener) s with
    | .ok (_, rest) => some rest
    | .error _ => none

/-- What follows a parenthesis after white space. -/
def closeParen? (s : Bytes) : Option Bytes :=
  match stripStart s with
  | c :: rest => if c == ')'.toUInt8 then some rest else none
  | [] => none

/-- What follows a destination and a title in parentheses, after the opening one. Either may be
missing. -/
def target? (s : Bytes) : Option Bytes :=
  match closeParen? s with
  | some rest => some rest
  | none => do
    let s ← destination? s
    match closeParen? s with
    | some rest => some rest
    | none => closeParen? (← title? s)

/-! ## Labels -/

/-- A text with one space for each run of white space. -/
def collapse : Bytes → Bytes
  | [] => []
  | c :: s =>
    if !isSpace c then c :: collapse s
    else if s.head?.any isSpace then collapse s
    else ' '.toUInt8 :: collapse s

/-- A text without any white space of ASCII at either end. -/
def trimLabel (s : Bytes) : Bytes :=
  ((s.dropWhile Byte.isWhite).reverse.dropWhile Byte.isWhite).reverse

/-- The form in which labels are compared: neither case nor the amount of white space matters. -/
def normalLabel (s : Bytes) : Bytes := collapse (trimLabel s).foldCase

/-- How long a label may be where it is used. -/
def maxLabel : Nat := 999

/-! ## Definitions -/

/-- A definition with its label, the lines it takes up and the text after it. -/
structure Definition where
  label : Bytes
  first : Nat
  /-- The line after the last. -/
  stop : Nat
  rest : Bytes

/-- The line of a text on which the rest of it starts. -/
def lineOf (text rest : Bytes) : Nat := text.count '\n'.toUInt8 - rest.count '\n'.toUInt8

/-- Whether nothing is left on the line. -/
def isLineEnd (s : Bytes) : Bool := isBlankLine (s.takeWhile (· != '\n'.toUInt8))

/-- The definition with which the rest of a text starts. What looks like a title may stand on the
next line and turn out to be none. -/
def definition? (text s : Bytes) : Option Definition := do
  let s := stripStart s
  let first := lineOf text s
  if s.head? != some '['.toUInt8 then none
  let .ok (label, s) := closure '['.toUInt8 ']'.toUInt8 s.tail | none
  if isBlankLine label || s.head? != some ':'.toUInt8 then none
  let s ← destination? s.tail
  let last := lineOf text s
  let lineEnds := isLineEnd s
  let title := stripStart s
  match title.head?.bind fun b => (titleEnd? b).map (b, ·) with
  | none => if lineEnds then some ⟨label, first, last + 1, title⟩ else none
  | some (opener, closer) =>
    if title.length == s.length then none
    else match closure opener closer title.tail with
      | .error rest => if lineEnds then some ⟨label, first, last + 1, rest⟩ else none
      | .ok (_, rest) =>
        if isLineEnd rest then some ⟨label, first, lineOf text rest + 1, rest⟩
        else if lineEnds then some ⟨label, first, max last (first + 1), rest⟩
        else none

/-- The definitions at the start of the rest of a text, at most `n`. -/
def definitions (text : Bytes) : Nat → Bytes → List Definition
  | 0, _ => []
  | n + 1, s =>
    match definition? text s with
    | some d => d :: definitions text n d.rest
    | none => []

/-- The lines that are left without definitions, from the line with a number on. -/
def withoutDefinitions {α : Type} (lines : List α) (number : Nat) : List Definition → List α
  | [] => lines
  | d :: ds =>
    withoutDefinitions (lines.take (d.first - number) ++ lines.drop (d.stop - number)) d.stop ds

end ChocoRv.Markdown
