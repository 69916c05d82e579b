import ChocoRv.Text.Quoted

/-!
# Tokens

A token is a kind at a place. Keywords and symbols have one spelling each; indentation and line
ends are tokens without a spelling.
-/

namespace ChocoRv

/-- A place in the source, counted from 1. -/
structure Loc where
  line : Nat
  col : Nat
deriving DecidableEq, Repr

namespace Loc

def text (loc : Loc) : Bytes := decimal loc.line ++ txt ":" ++ decimal loc.col

end Loc

inductive Keyword where
  | false_ | none_ | true_ | and_ | class_ | def_ | elif_ | else_ | for_ | global_ | if_ | in_ | is_
  | nonlocal_ | not_ | or_ | pass_ | return_ | while_
deriving DecidableEq, Repr

namespace Keyword

def all : List Keyword :=
  [false_, none_, true_, and_, class_, def_, elif_, else_, for_, global_, if_, in_, is_, nonlocal_,
   not_, or_, pass_, return_, while_]

def spelling : Keyword → Bytes
  | false_ => txt "False"
  | none_ => txt "None"
  | true_ => txt "True"
  | and_ => txt "and"
  | class_ => txt "class"
  | def_ => txt "def"
  | elif_ => txt "elif"
  | else_ => txt "else"
  | for_ => txt "for"
  | global_ => txt "global"
  | if_ => txt "if"
  | in_ => txt "in"
  | is_ => txt "is"
  | nonlocal_ => txt "nonlocal"
  | not_ => txt "not"
  | or_ => txt "or"
  | pass_ => txt "pass"
  | return_ => txt "return"
  | while_ => txt "while"

def ofSpelling? (word : Bytes) : Option Keyword := all.find? (·.spelling == word)

/-- Words that are kept out of programs although they are no keywords. -/
def reserved : List Bytes :=
  [txt "as", txt "assert", txt "async", txt "await", txt "break", txt "continue", txt "del",
   txt "except", txt "finally", txt "from", txt "import", txt "lambda", txt "raise", txt "try",
   txt "with", txt "yield"]

end Keyword

/-- Operators and delimiters. -/
inductive Symbol where
  | plus | minus | star | slashSlash | percent | less | greater | lessEq | greaterEq | eqEq | notEq
  | assign | openParen | closeParen | openBracket | closeBracket | comma | colon | dot | arrow
deriving DecidableEq, Repr

namespace Symbol

def all : List Symbol :=
  [plus, minus, star, slashSlash, percent, less, greater, lessEq, greaterEq, eqEq, notEq, assign,
   openParen, closeParen, openBracket, closeBracket, comma, colon, dot, arrow]

def spelling : Symbol → Bytes
  | plus => txt "+"
  | minus => txt "-"
  | star => txt "*"
  | slashSlash => txt "//"
  | percent => txt "%"
  | less => txt "<"
  | greater => txt ">"
  | lessEq => txt "<="
  | greaterEq => txt ">="
  | eqEq => txt "=="
  | notEq => txt "!="
  | assign => txt "="
  | openParen => txt "("
  | closeParen => txt ")"
  | openBracket => txt "["
  | closeBracket => txt "]"
  | comma => txt ","
  | colon => txt ":"
  | dot => txt "."
  | arrow => txt "->"

def ofSpelling? (s : Bytes) : Option Symbol := all.find? (·.spelling == s)

end Symbol

namespace Token

inductive Kind where
  | keyword (k : Keyword)
  | symbol (s : Symbol)
  | integer (value : Nat)
  | string (content : Bytes)
  | identifier (name : Name)
  | newline
  | indent
  | dedent
  | eof
deriving DecidableEq, Repr

namespace Kind

/-- The number of the kind: keywords, symbols, and then the other kinds. -/
def code : Kind → Nat
  | keyword k => Keyword.all.idxOf k
  | symbol s => 19 + Symbol.all.idxOf s
  | integer _ => 39
  | string _ => 40
  | identifier _ => 41
  | newline => 42
  | indent => 43
  | dedent => 44
  | eof => 45

/-- What the token says: the spelling, or for a string literal the bytes that it denotes. -/
def content : Kind → Bytes
  | keyword k => k.spelling
  | symbol s => s.spelling
  | integer value => decimal value
  | string content => content
  | identifier name => name
  | newline | indent | dedent | eof => []

/-- The name of the token in messages. -/
def text : Kind → Bytes
  | newline => txt "NEWLINE"
  | indent => txt "INDENT"
  | dedent => txt "DEDENT"
  | eof => txt "EOF"
  | string content => content.quote
  | kind => kind.content

end Kind

end Token

structure Token where
  kind : Token.Kind
  loc : Loc
deriving DecidableEq, Repr

end ChocoRv
