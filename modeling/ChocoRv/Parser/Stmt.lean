import ChocoRv.Parser.Expr

/-!
# Statements

`self` parses a statement, which is missing for `pass`, and `n` bounds loops and nesting.
-/

namespace ChocoRv.Parser

/-- A colon, the end of the line and an indentation. -/
def blockStart : Parser Unit := do
  expect (.symbol .colon) .colon
  endOfLine
  expect .indent .block

/-- The next statement of a block. The state holds the statements before, last first, and whether
there was one at all. -/
def blockStep (self : Parser (Option Stmt)) (state : List Stmt × Bool) :
    Parser (Option (List Stmt × Bool)) := do
  match (← current).kind with
  | .dedent => return none
  | .eof => fail .endOfInput
  | _ => return some ((← self).toList ++ state.1, true)

/-- One statement or more up to the end of the indentation. -/
def statements (n : Nat) (self : Parser (Option Stmt)) : Parser (List Stmt) := do
  let (reversed, any) ← iterate (blockStep self) n ([], false)
  unless any do fail .statement
  let _ ← advance
  return reversed.reverse

def block (n : Nat) (self : Parser (Option Stmt)) : Parser (List Stmt) := do
  blockStart
  statements n self

/-- An `if` or `elif` with the branches after it. -/
def branches (test : Parser Expr) (body : Parser (List Stmt)) : Nat → Parser Stmt
  | 0 => throw .exhausted
  | n + 1 => do
    let t ← advance
    let c ← test
    let yes ← body
    match (← current).kind with
    | .keyword .elif_ => return .ite t.loc c yes [← branches test body n]
    | .keyword .else_ =>
      let _ ← advance
      return .ite t.loc c yes (← body)
    | _ => return .ite t.loc c yes []

/-- The expressions between `=` signs, last first. -/
def assigned (n : Nat) (e : Expr) : Parser (List Expr) :=
  iterate (fun acc => do
    if ← accept (.symbol .assign) then return some ((← expression n) :: acc)
    return none) n [e]

/-- A `pass`, a return, an expression or an assignment. -/
def simple (n : Nat) : Parser (Option Stmt) := do
  let t ← current
  match t.kind with
  | .keyword .pass_ =>
    let _ ← advance
    return none
  | .keyword .return_ =>
    let _ ← advance
    if (← current).kind = .newline then return some (.ret t.loc none)
    return some (.ret t.loc (some (← expression n)))
  | _ =>
    let e ← expression n
    match ← assigned n e with
    | [] | [_] => return some (.expr t.loc e)
    | value :: reversed =>
      let targets := reversed.reverse
      match targets.find? (!·.isTarget) with
      | some target => throw (.target target.loc)
      | none => return some (.assign t.loc targets value)

def statementWith (n : Nat) (self : Parser (Option Stmt)) : Parser (Option Stmt) := do
  let t ← current
  match t.kind with
  | .keyword .if_ => return some (← branches (expression n) (block n self) n)
  | .keyword .while_ =>
    let _ ← advance
    let c ← expression n
    return some (.loop t.loc c (← block n self))
  | .keyword .for_ =>
    let _ ← advance
    let id ← identifier
    expect (.keyword .in_) .inOfFor
    let iterable ← expression n
    return some (.each t.loc id iterable (← block n self))
  | _ =>
    let s ← simple n
    endOfLine
    return s

/-- A statement nested less than `n` deep, none for `pass`. -/
def statement : Nat → Parser (Option Stmt)
  | 0 => throw .exhausted
  | n + 1 => statementWith (n + 1) (statement n)

end ChocoRv.Parser
