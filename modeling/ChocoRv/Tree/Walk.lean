import ChocoRv.Tree.Basic

/-!
# The nodes of a tree

`nodes` lists the nodes of a tree in preorder, each with the name of its kind, its place and, for
an expression, its slot.
-/

namespace ChocoRv

structure Node where
  kind : Bytes
  loc : Loc
  entry? : Option Entry := none

/-- The kind and the place, as in `Kind@line:col`. -/
def Node.text (n : Node) : Bytes := n.kind ++ txt "@" ++ n.loc.text

namespace Node

def ofMark (kind : String) (m : Mark) : Node := ⟨txt kind, m.loc, m.entry?⟩

def plain (kind : String) (loc : Loc) : Node := ⟨txt kind, loc, none⟩

end Node

def Ident.node (id : Ident) : Node := .ofMark "Identifier" id.mark

def Literal.node (l : Literal) : Node :=
  match l.value with
  | .int _ => .ofMark "IntegerLiteral" l.mark
  | .str _ => .ofMark "StringLiteral" l.mark
  | .bool _ => .ofMark "BooleanLiteral" l.mark
  | .none => .ofMark "NoneLiteral" l.mark

mutual

def Expr.nodes : Expr → List Node
  | .lit l => [l.node]
  | .name id => [id.node]
  | .unary m _ e => .ofMark "UnaryExpr" m :: e.nodes
  | .binary m l _ r => .ofMark "BinaryExpr" m :: (l.nodes ++ r.nodes)
  | .cond m test yes no => .ofMark "IfExpr" m :: (test.nodes ++ yes.nodes ++ no.nodes)
  | .list m elems => .ofMark "ListExpr" m :: Expr.allNodes elems
  | .index m seq i => .ofMark "IndexExpr" m :: (seq.nodes ++ i.nodes)
  | .member m object id => .ofMark "MemberExpr" m :: (object.nodes ++ [id.node])
  | .call m callee args => .ofMark "CallExpr" m :: callee.node :: Expr.allNodes args
  | .methodCall m method object id args =>
    .ofMark "MethodCallExpr" m :: .ofMark "MemberExpr" method ::
      (object.nodes ++ [id.node] ++ Expr.allNodes args)

def Expr.allNodes : List Expr → List Node
  | [] => []
  | e :: es => e.nodes ++ Expr.allNodes es

end

def TypeExpr.nodes : TypeExpr → List Node
  | .cls loc _ => [.plain "ClassTypeAnnotation" loc]
  | .list loc elem => .plain "ListTypeAnnotation" loc :: elem.nodes

mutual

def Stmt.nodes : Stmt → List Node
  | .expr loc e => .plain "ExprStmt" loc :: e.nodes
  | .assign loc targets value =>
    .plain "AssignStmt" loc :: (Expr.allNodes targets ++ value.nodes)
  | .ite loc test yes no =>
    .plain "IfStmt" loc :: (test.nodes ++ Stmt.allNodes yes ++ Stmt.allNodes no)
  | .loop loc test body => .plain "WhileStmt" loc :: (test.nodes ++ Stmt.allNodes body)
  | .each loc id iterable body =>
    .plain "ForStmt" loc :: id.node :: (iterable.nodes ++ Stmt.allNodes body)
  | .ret loc none => [.plain "ReturnStmt" loc]
  | .ret loc (some e) => .plain "ReturnStmt" loc :: e.nodes

def Stmt.allNodes : List Stmt → List Node
  | [] => []
  | s :: ss => s.nodes ++ Stmt.allNodes ss

end

def TypedVar.nodes (v : TypedVar) : List Node :=
  .plain "TypedVar" v.name.loc :: v.name.node :: v.typeExpr.nodes

def VarDef.nodes (d : VarDef) : List Node :=
  .plain "VarDef" d.loc :: (d.var.nodes ++ [d.value.node])

mutual

def FuncDef.nodes : FuncDef → List Node
  | .mk loc id params ret? decls body =>
    .plain "FuncDef" loc :: id.node :: (params.flatMap TypedVar.nodes ++
      (match ret? with | none => [] | some ret => ret.nodes) ++
      LocalDecl.allNodes decls ++ Stmt.allNodes body)

def LocalDecl.nodes : LocalDecl → List Node
  | .var d => d.nodes
  | .global loc id => [.plain "GlobalDecl" loc, id.node]
  | .nonlocal loc id => [.plain "NonLocalDecl" loc, id.node]
  | .func f => f.nodes

def LocalDecl.allNodes : List LocalDecl → List Node
  | [] => []
  | d :: ds => d.nodes ++ LocalDecl.allNodes ds

end

def Member.nodes : Member → List Node
  | attr d => d.nodes
  | method f => f.nodes

def ClassDef.nodes (c : ClassDef) : List Node :=
  .plain "ClassDef" c.loc :: c.ident.node :: c.super.node :: c.members.flatMap Member.nodes

def TopDecl.nodes : TopDecl → List Node
  | var d => d.nodes
  | func f => f.nodes
  | cls c => c.nodes

def Program.nodes (p : Program) : List Node :=
  .plain "Program" ⟨1, 1⟩ :: (p.decls.flatMap TopDecl.nodes ++ Stmt.allNodes p.body)

end ChocoRv
