import ChocoRv.Parser.Basic
import ChocoRv.Parser.Precedence

/-!
# Expressions

One parser for each layer of the grammar, from atoms outwards. `self` parses a whole expression
and `n` bounds the loops of a layer.
-/

namespace ChocoRv

namespace BinOp

/-- Comparisons bind least and products most; `and` and `or` are layers of their own. -/
def priority : BinOp → Nat
  | eq | ne | lt | gt | le | ge | is => 1
  | add | sub => 2
  | mul | floorDiv | mod => 3
  | and | or => 0

/-- The comparisons do not associate: at most one may stand in a chain. -/
def isComparison (op : BinOp) : Bool := op.priority == 1

/-- The operator between two terms that a token stands for. -/
def ofKind? : Token.Kind → Option BinOp
  | .symbol .eqEq => some eq
  | .symbol .notEq => some ne
  | .symbol .less => some lt
  | .symbol .greater => some gt
  | .symbol .lessEq => some le
  | .symbol .greaterEq => some ge
  | .keyword .is_ => some is
  | .symbol .plus => some add
  | .symbol .minus => some sub
  | .symbol .star => some mul
  | .symbol .slashSlash => some floorDiv
  | .symbol .percent => some mod
  | _ => none

end BinOp

namespace Expr

/-- A binary expression stands where its left operand does. -/
def joined (left : Expr) (op : BinOp) (right : Expr) : Expr :=
  .binary ⟨left.loc, none⟩ left op right

end Expr

namespace Parser

variable (n : Nat) (self : Parser Expr)

def arguments : Parser (List Expr) := items n .closeParen .commaOfArgs self

/-- A name, a call, a literal, a list display or an expression in parentheses. -/
def atom : Parser Expr := do
  let t ← current
  match t.kind with
  | .identifier _ =>
    let id ← identifier
    if ← accept (.symbol .openParen) then
      return .call ⟨id.loc, none⟩ id (← arguments n self)
    return .name id
  | .symbol .openBracket =>
    let _ ← advance
    return .list ⟨t.loc, none⟩ (← items n .closeBracket .commaOfElems self)
  | .symbol .openParen =>
    let _ ← advance
    let e ← self
    expect (.symbol .closeParen) .closeParen
    return e
  | _ =>
    match literalOf? t with
    | some l => let _ ← advance; return .lit l
    | none => fail .expression

/-- A member, method call or element of `e`, if one follows. -/
def trailer (e : Expr) : Parser (Option Expr) := do
  if ← accept (.symbol .dot) then
    let id ← identifier
    if ← accept (.symbol .openParen) then
      return some (.methodCall ⟨e.loc, none⟩ ⟨e.loc, none⟩ e id (← arguments n self))
    return some (.member ⟨e.loc, none⟩ e id)
  if ← accept (.symbol .openBracket) then
    let i ← self
    expect (.symbol .closeBracket) .closeBracket
    return some (.index ⟨e.loc, none⟩ e i)
  return none

def primary : Parser Expr := do iterate (trailer n self) n (← atom n self)

def negation : Parser Expr := do
  let signs ← run (.symbol .minus)
  return signs.foldr (fun loc e => .unary ⟨loc, none⟩ .neg e) (← primary n self)

/-- One more operator and term of a chain. The state holds those before, last first, and whether a
comparison is among them. -/
def operation (state : List (BinOp × Expr) × Bool) :
    Parser (Option (List (BinOp × Expr) × Bool)) := do
  match BinOp.ofKind? (← current).kind with
  | none => return none
  | some op =>
    if op.isComparison && state.2 then fail .chained
    let _ ← advance
    let term ← negation n self
    return some ((op, term) :: state.1, state.2 || op.isComparison)

/-- A comparison or sum: terms and operators grouped by priority. -/
def comparison : Parser Expr := do
  let first ← negation n self
  let (reversed, _) ← iterate (operation n self) n ([], false)
  return Precedence.build BinOp.priority Expr.joined first reversed.reverse

def denial : Parser Expr := do
  let nots ← run (.keyword .not_)
  return nots.foldr (fun loc e => .unary ⟨loc, none⟩ .not e) (← comparison n self)

/-- Operands with one keyword between them, grouped to the left. -/
def logical (k : Keyword) (op : BinOp) (operand : Parser Expr) : Parser Expr := do
  iterate (fun left => do
    if ← accept (.keyword k) then return some (left.joined op (← operand))
    return none) n (← operand)

def disjunction : Parser Expr := logical n .or_ .or (logical n .and_ .and (denial n self))

def conditional : Parser Expr := do
  let e ← disjunction n self
  unless ← accept (.keyword .if_) do return e
  let test ← disjunction n self
  expect (.keyword .else_) .elseOfCond
  return .cond ⟨e.loc, none⟩ test e (← self)

/-- An expression nested less than `n` deep. -/
def expression : Nat → Parser Expr
  | 0 => throw .exhausted
  | n + 1 => conditional (n + 1) (expression n)

end Parser

end ChocoRv
