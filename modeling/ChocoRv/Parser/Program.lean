import ChocoRv.Parser.Stmt
import ChocoRv.Token.Lexer

/-!
# Declarations and programs
-/

namespace ChocoRv

namespace Parser

/-- A class name, given as an identifier or as a string. -/
def className : Parser TypeExpr
  | ⟨.identifier name, loc⟩ :: ts => .ok (.cls loc name, ts)
  | ⟨.string name, loc⟩ :: ts => .ok (.cls loc name, ts)
  | ts => fail .typeExpr ts

/-- A class name inside any number of brackets. -/
def typeExpr : Parser TypeExpr := do
  let opened ← run (.symbol .openBracket)
  let base ← className
  opened.reverse.foldlM (fun a loc => do
    expect (.symbol .closeBracket) .closeListType
    return .list loc a) base

def typedVar : Parser TypedVar := do
  let name ← identifier
  expect (.symbol .colon) .colonAfterName
  return ⟨name, ← typeExpr⟩

def varDef : Parser VarDef := do
  let var ← typedVar
  expect (.symbol .assign) .assignInVarDef
  let value ← literal
  endOfLine
  return ⟨var, value⟩

/-- What kind of declaration the tokens start, if any. -/
inductive DeclStart where
  | var | func | cls | global | nonlocal | other

def declStart : Parser DeclStart := fun ts =>
  match ts with
  | ⟨.identifier _, _⟩ :: ⟨.symbol .colon, _⟩ :: _ => .ok (.var, ts)
  | ⟨.keyword .def_, _⟩ :: _ => .ok (.func, ts)
  | ⟨.keyword .class_, _⟩ :: _ => .ok (.cls, ts)
  | ⟨.keyword .global_, _⟩ :: _ => .ok (.global, ts)
  | ⟨.keyword .nonlocal_, _⟩ :: _ => .ok (.nonlocal, ts)
  | _ => .ok (.other, ts)

/-- The next declaration of a function body, if there is one. -/
def localDecl? (self : Parser FuncDef) : Parser (Option LocalDecl) := do
  match ← declStart with
  | .var => return some (.var (← varDef))
  | .func => return some (.func (← self))
  | .global =>
    let t ← advance
    let id ← identifier
    endOfLine
    return some (.global t.loc id)
  | .nonlocal =>
    let t ← advance
    let id ← identifier
    endOfLine
    return some (.nonlocal t.loc id)
  | .cls | .other => return none

/-- Declarations as long as there are any. -/
def declarations {α : Type} (n : Nat) (decl? : Parser (Option α)) : Parser (List α) := do
  let reversed ← iterate (fun acc => return (← decl?).map (· :: acc)) n []
  return reversed.reverse

def funcDefWith (n : Nat) (self : Parser FuncDef) : Parser FuncDef := do
  let t ← advance
  let id ← identifier
  expect (.symbol .openParen) .openParenOfFunc
  let params ← items n .closeParen .commaOfParams typedVar
  let ret? ← (do if ← accept (.symbol .arrow) then return some (← typeExpr) else return none)
  blockStart
  let decls ← declarations n (localDecl? self)
  let body ← statements n (statement n)
  return .mk t.loc id params ret? decls body

/-- A function definition nested less than `n` deep. -/
def funcDef : Nat → Parser FuncDef
  | 0 => throw .exhausted
  | n + 1 => funcDefWith (n + 1) (funcDef n)

/-- The next member of a class body. A class inside a class is read and then refused. -/
def memberStep (n : Nat) (self : Parser ClassDef) (acc : List Member) :
    Parser (Option (List Member)) := do
  if ← accept .dedent then return none
  if ← accept (.keyword .pass_) then
    endOfLine
    return some acc
  match ← declStart with
  | .var => return some (.attr (← varDef) :: acc)
  | .func => return some (.method (← funcDef n) :: acc)
  | .cls =>
    let _ ← self
    fail .classMember
  | .global | .nonlocal | .other => fail .classMember

def classDefWith (n : Nat) (self : Parser ClassDef) : Parser ClassDef := do
  let t ← advance
  let id ← identifier
  expect (.symbol .openParen) .openParenOfClass
  let super ← identifier
  expect (.symbol .closeParen) .closeParenOfClass
  blockStart
  let reversed ← iterate (memberStep n self) n []
  return ⟨t.loc, id, super, reversed.reverse⟩

/-- A class definition nested less than `n` deep. -/
def classDef : Nat → Parser ClassDef
  | 0 => throw .exhausted
  | n + 1 => classDefWith (n + 1) (classDef n)

/-- The next declaration at the top level, if there is one. -/
def topDecl? (n : Nat) : Parser (Option TopDecl) := do
  match ← declStart with
  | .var => return some (.var (← varDef))
  | .func => return some (.func (← funcDef n))
  | .cls => return some (.cls (← classDef n))
  | .global | .nonlocal | .other => return none

/-- The next statement at the top level, up to the end of the input. -/
def topStep (n : Nat) (acc : List Stmt) : Parser (Option (List Stmt)) := do
  if (← current).kind = .eof then return none
  return some ((← statement n).toList ++ acc)

def program (n : Nat) : Parser Program := do
  let decls ← declarations n (topDecl? n)
  let reversed ← iterate (topStep n) n []
  return ⟨decls, reversed.reverse⟩

end Parser

/-- The program that the tokens spell. The first error ends parsing. -/
def parseTokens (tokens : List Token) : Except Parser.Error Program :=
  (Parser.program (tokens.length + 1) tokens).map Prod.fst

/-- Why a source text is no program. -/
inductive SourceError where
  | token (e : Lexer.Error)
  | grammar (e : Parser.Error)
deriving DecidableEq, Repr

def SourceError.message : SourceError → Bytes
  | token e => e.message
  | grammar e => e.message

def parse (source : Bytes) : Except SourceError Program := do
  let tokens ← (tokenize source).mapError SourceError.token
  (parseTokens tokens).mapError SourceError.grammar

end ChocoRv
