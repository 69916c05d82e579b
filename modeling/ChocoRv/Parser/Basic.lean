import ChocoRv.Tree.Basic

/-!
# Parsers over tokens

A parser reads a list of tokens from the front. Loops and nesting are bounded by a number that
exceeds the number of tokens left, so `exhausted` marks a bound that was too small and never a
fault of the program.
-/

namespace ChocoRv

namespace Parser

/-- What was expected at a token. -/
inductive Complaint where
  | assignInVarDef | colonAfterName | closeListType | typeExpr | literal | openParenOfFunc
  | commaOfParams | openParenOfClass | closeParenOfClass | classMember | colon | block | endOfInput
  | statement | inOfFor | identifier | endOfLine | elseOfCond | chained | closeBracket
  | commaOfElems | closeParen | expression | commaOfArgs
deriving DecidableEq, Repr

def Complaint.text : Complaint → Bytes
  | assignInVarDef => txt "expect = in variable definition"
  | colonAfterName => txt "expect : after variable name"
  | closeListType => txt "expect ] in list type"
  | typeExpr => txt "expect a type annotation"
  | literal => txt "expect a literal"
  | openParenOfFunc => txt "expect ( after function name"
  | commaOfParams => txt "expect , between parameters"
  | openParenOfClass => txt "expect ( after class name"
  | closeParenOfClass => txt "expect ) after super class"
  | classMember => txt "expect attribute or method definition in class body"
  | colon => txt "expect :"
  | block => txt "expect an indented block"
  | endOfInput => txt "unexpected end of input"
  | statement => txt "expect at least one statement"
  | inOfFor => txt "expect in"
  | identifier => txt "expect an identifier"
  | endOfLine => txt "expect end of line"
  | elseOfCond => txt "expect else in conditional expression"
  | chained => txt "comparison operators cannot be chained"
  | closeBracket => txt "expect ]"
  | commaOfElems => txt "expect , between list elements"
  | closeParen => txt "expect )"
  | expression => txt "expect an expression"
  | commaOfArgs => txt "expect , between arguments"

inductive Error where
  | near (token : Token) (complaint : Complaint)
  /-- An assignment to an expression that is no target. -/
  | target (loc : Loc)
  | exhausted
deriving DecidableEq, Repr

def Error.message : Error → Bytes
  | near token complaint =>
    txt "syntax error near " ++ token.kind.text ++ txt " at line " ++ decimal token.loc.line ++
      txt ", col " ++ decimal token.loc.col ++ txt ": " ++ complaint.text
  | target loc =>
    txt "syntax error at line " ++ decimal loc.line ++ txt ", col " ++ decimal loc.col ++
      txt ": cannot assign to expression"
  | exhausted => txt "syntax error: nesting bound exceeded"

end Parser

abbrev Parser := StateT (List Token) (Except Parser.Error)

namespace Parser

variable {α σ : Type}

/-- The token that an empty list stands for. A list that ends with `eof` is only read to its end by a
function that takes this `eof` unseen, and nothing calls one there. -/
def endToken : Token := ⟨.eof, ⟨1, 1⟩⟩

def current : Parser Token := fun ts => .ok (ts.headD endToken, ts)

def fail (c : Complaint) : Parser α := fun ts => .error (.near (ts.headD endToken) c)

/-- Moves past the current token and returns it. -/
def advance : Parser Token
  | [] => .ok (endToken, [])
  | t :: ts => .ok (t, ts)

/-- Moves past the current token if it has the kind. -/
def accept (k : Token.Kind) : Parser Bool
  | [] => .ok (false, [])
  | t :: ts => if t.kind = k then .ok (true, ts) else .ok (false, t :: ts)

def expect (k : Token.Kind) (c : Complaint) : Parser Unit := do
  unless ← accept k do fail c

def identifier : Parser Ident
  | ⟨.identifier name, loc⟩ :: ts => .ok (⟨⟨loc, none⟩, name⟩, ts)
  | ts => fail .identifier ts

def endOfLine : Parser Unit := expect .newline .endOfLine

/-- Moves past the tokens of one kind and returns their places. -/
def run (k : Token.Kind) : Parser (List Loc)
  | [] => .ok ([], [])
  | t :: ts =>
    if t.kind = k then (run k ts).map fun (locs, rest) => (t.loc :: locs, rest)
    else .ok ([], t :: ts)

/-- Repeats `step` until it gives no new state, at most `n` times. -/
def iterate (step : σ → Parser (Option σ)) : Nat → σ → Parser σ
  | 0, _ => throw .exhausted
  | n + 1, s => do
    match ← step s with
    | none => return s
    | some s => iterate step n s

/-- Items with commas between them, up to and including the closing symbol. -/
def items (n : Nat) (close : Symbol) (c : Complaint) (item : Parser α) : Parser (List α) := do
  let reversed ← iterate (fun acc => do
    if ← accept (.symbol close) then return none
    unless acc.isEmpty do expect (.symbol .comma) c
    return some ((← item) :: acc)) n []
  return reversed.reverse

/-- The literal that a token stands for. -/
def literalOf? (t : Token) : Option Literal :=
  let literal (value : Lit) : Option Literal := some ⟨⟨t.loc, none⟩, value⟩
  match t.kind with
  | .keyword .none_ => literal .none
  | .keyword .true_ => literal (.bool true)
  | .keyword .false_ => literal (.bool false)
  | .integer value => literal (.int value)
  | .string content => literal (.str content)
  | _ => none

def literal : Parser Literal := do
  match literalOf? (← current) with
  | some l => let _ ← advance; return l
  | none => fail .literal

end Parser

end ChocoRv
