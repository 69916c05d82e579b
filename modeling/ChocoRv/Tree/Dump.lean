import ChocoRv.Text.Printable
import ChocoRv.Tree.Basic

/-!
# Trees as text

`dump` writes a tree as an s-expression without places, such as `(+ a (* b 2))`.
-/

namespace ChocoRv

/-- A parenthesised group of parts. -/
def group (parts : List Bytes) : Bytes := txt "(" ++ Bytes.join (txt " ") parts ++ txt ")"

namespace Lit

def dump : Lit → Bytes
  | int value => signed value
  | str value => value.printable
  | bool true => txt "True"
  | bool false => txt "False"
  | none => txt "None"

end Lit

mutual

def Expr.dump : Expr → Bytes
  | .lit l => l.value.dump
  | .name id => id.name
  | .unary _ op e => group [op.spelling, e.dump]
  | .binary _ l op r => group [op.spelling, l.dump, r.dump]
  | .cond _ test yes no => group [txt "ifexpr", test.dump, yes.dump, no.dump]
  | .list _ elems => group (txt "list" :: Expr.dumps elems)
  | .index _ seq i => group [txt "index", seq.dump, i.dump]
  | .member _ object id => group [txt ".", object.dump, id.name]
  | .call _ callee args => group (txt "call" :: callee.name :: Expr.dumps args)
  | .methodCall _ _ object id args =>
    group (txt "method" :: group [txt ".", object.dump, id.name] :: Expr.dumps args)

def Expr.dumps : List Expr → List Bytes
  | [] => []
  | e :: es => e.dump :: Expr.dumps es

end

mutual

def Stmt.dump : Stmt → Bytes
  | .expr _ e => e.dump
  | .assign _ targets value => group (txt "=" :: (Expr.dumps targets ++ [value.dump]))
  | .ite _ test yes no =>
    group [txt "if", test.dump, group (txt "then" :: Stmt.dumps yes),
      group (txt "else" :: Stmt.dumps no)]
  | .loop _ test body => group [txt "while", test.dump, group (txt "do" :: Stmt.dumps body)]
  | .each _ id iterable body =>
    group [txt "for", id.name, iterable.dump, group (txt "do" :: Stmt.dumps body)]
  | .ret _ none => group [txt "return"]
  | .ret _ (some e) => group [txt "return", e.dump]

def Stmt.dumps : List Stmt → List Bytes
  | [] => []
  | s :: ss => s.dump :: Stmt.dumps ss

end

def VarDef.dump (d : VarDef) : Bytes :=
  group [txt "var", d.name, d.var.typeExpr.text, d.value.value.dump]

def TypedVar.dump (v : TypedVar) : Bytes := v.name.name ++ txt ":" ++ v.typeExpr.text

mutual

def FuncDef.dump : FuncDef → Bytes
  | .mk _ id params ret? decls body =>
    group ([txt "def", id.name, group (params.map TypedVar.dump)] ++
      (match ret? with | none => [] | some ret => [txt "->", ret.text]) ++
      [group (txt "decls" :: LocalDecl.dumps decls), group (txt "stmts" :: Stmt.dumps body)])

def LocalDecl.dump : LocalDecl → Bytes
  | .var d => d.dump
  | .global _ id => group [txt "global", id.name]
  | .nonlocal _ id => group [txt "nonlocal", id.name]
  | .func f => f.dump

def LocalDecl.dumps : List LocalDecl → List Bytes
  | [] => []
  | d :: ds => d.dump :: LocalDecl.dumps ds

end

def Member.dump : Member → Bytes
  | attr d => d.dump
  | method f => f.dump

def ClassDef.dump (c : ClassDef) : Bytes :=
  group [txt "class", c.name, c.super.name, group (txt "decls" :: c.members.map Member.dump)]

def TopDecl.dump : TopDecl → Bytes
  | var d => d.dump
  | func f => f.dump
  | cls c => c.dump

def Program.dump (p : Program) : Bytes :=
  group [txt "program", group (txt "decls" :: p.decls.map TopDecl.dump),
    group (txt "stmts" :: Stmt.dumps p.body)]

end ChocoRv
