import ChocoRv.Parser.Expr

/-!
# The grammar

Which tokens spell which trees, as rules without lookahead or order of choice. `Derives` relates a
phrase, which is a syntactic category with a tree, to the tokens of its spellings. Lists grow at
their end: `items: [item [, item]*] close`, `stmts: stmt*`, `targets: [target =]*`.
-/

namespace ChocoRv

/-! ### Literals, types and variables -/

/-- literal: None | True | False | INTEGER | STRING -/
inductive Literal.Derives : Literal → Token → Prop
  | none_ (p : Loc) : Derives ⟨⟨p, none⟩, .none⟩ ⟨.keyword .none_, p⟩
  | true_ (p : Loc) : Derives ⟨⟨p, none⟩, .bool true⟩ ⟨.keyword .true_, p⟩
  | false_ (p : Loc) : Derives ⟨⟨p, none⟩, .bool false⟩ ⟨.keyword .false_, p⟩
  | int (p : Loc) (value : Nat) : Derives ⟨⟨p, none⟩, .int value⟩ ⟨.integer value, p⟩
  | str (p : Loc) (content : Bytes) : Derives ⟨⟨p, none⟩, .str content⟩ ⟨.string content, p⟩

/-- type: ID | STRING | [ type ] -/
inductive TypeExpr.Derives : TypeExpr → List Token → Prop
  | ident (p : Loc) (name : Name) : Derives (.cls p name) [⟨.identifier name, p⟩]
  | string (p : Loc) (name : Name) : Derives (.cls p name) [⟨.string name, p⟩]
  | list {a : TypeExpr} {w : List Token} (p q : Loc) (elem : Derives a w) :
      Derives (.list p a)
        (⟨.symbol .openBracket, p⟩ :: (w ++ [⟨.symbol .closeBracket, q⟩]))

/-- typed_var: ID : type -/
inductive TypedVar.Derives : TypedVar → List Token → Prop
  | mk {a : TypeExpr} {w : List Token} (p q : Loc) (name : Name) (type : a.Derives w) :
      Derives ⟨⟨⟨p, none⟩, name⟩, a⟩ (⟨.identifier name, p⟩ :: ⟨.symbol .colon, q⟩ :: w)

/-- var_def: typed_var = literal NEWLINE -/
inductive VarDef.Derives : VarDef → List Token → Prop
  | mk {v : TypedVar} {l : Literal} {w : List Token} {t : Token} (p q : Loc) (var : v.Derives w)
      (value : l.Derives t) : Derives ⟨v, l⟩ (w ++ [⟨.symbol .assign, p⟩, t, ⟨.newline, q⟩])

/-- params: [typed_var [, typed_var]*] -/
inductive ParamsDerive : List TypedVar → List Token → Prop
  | one {v : TypedVar} {w : List Token} (first : v.Derives w) : ParamsDerive [v] w
  | more {vs : List TypedVar} {v : TypedVar} {w w' : List Token} (p : Loc)
      (before : ParamsDerive vs w) (next : v.Derives w') :
      ParamsDerive (vs ++ [v]) (w ++ ⟨.symbol .comma, p⟩ :: w')

/-! ### Expressions -/

/-- The comparison operators, the operators of sums and those of products. -/
def comparisonOps : List (Token.Kind × BinOp) :=
  [(.symbol .eqEq, .eq), (.symbol .notEq, .ne), (.symbol .less, .lt), (.symbol .greater, .gt),
   (.symbol .lessEq, .le), (.symbol .greaterEq, .ge), (.keyword .is_, .is)]

def sumOps : List (Token.Kind × BinOp) := [(.symbol .plus, .add), (.symbol .minus, .sub)]

def productOps : List (Token.Kind × BinOp) :=
  [(.symbol .star, .mul), (.symbol .slashSlash, .floorDiv), (.symbol .percent, .mod)]

/-- A category of expressions with a tree. The items include the closing symbol. -/
inductive ExprPhrase where
  | expr (e : Expr)
  | disjunction (e : Expr)
  | conjunction (e : Expr)
  | denial (e : Expr)
  | comparison (e : Expr)
  | sum (e : Expr)
  | product (e : Expr)
  | negation (e : Expr)
  | primary (e : Expr)
  | atom (e : Expr)
  | elems (es : List Expr)
  | items (close : Symbol) (es : List Expr)

namespace ExprPhrase

inductive Derives : ExprPhrase → List Token → Prop
  -- expr: disjunction [if disjunction else expr]
  | expr {e : Expr} {w : List Token} (h : Derives (disjunction e) w) : Derives (expr e) w
  | cond {yes test no : Expr} {w₁ w₂ w₃ : List Token} (p q : Loc)
      (hyes : Derives (disjunction yes) w₁) (htest : Derives (disjunction test) w₂)
      (hno : Derives (expr no) w₃) :
      Derives (expr (.cond ⟨yes.loc, none⟩ test yes no))
        (w₁ ++ ⟨.keyword .if_, p⟩ :: (w₂ ++ ⟨.keyword .else_, q⟩ :: w₃))
  -- disjunction: conjunction [or conjunction]*
  | disjunction {e : Expr} {w : List Token} (h : Derives (conjunction e) w) :
      Derives (disjunction e) w
  | or {l r : Expr} {w w' : List Token} (p : Loc) (hl : Derives (disjunction l) w)
      (hr : Derives (conjunction r) w') :
      Derives (disjunction (l.joined .or r)) (w ++ ⟨.keyword .or_, p⟩ :: w')
  -- conjunction: denial [and denial]*
  | conjunction {e : Expr} {w : List Token} (h : Derives (denial e) w) : Derives (conjunction e) w
  | and {l r : Expr} {w w' : List Token} (p : Loc) (hl : Derives (conjunction l) w)
      (hr : Derives (denial r) w') :
      Derives (conjunction (l.joined .and r)) (w ++ ⟨.keyword .and_, p⟩ :: w')
  -- denial: not denial | comparison
  | denial {e : Expr} {w : List Token} (h : Derives (comparison e) w) : Derives (denial e) w
  | not {e : Expr} {w : List Token} (p : Loc) (h : Derives (denial e) w) :
      Derives (denial (.unary ⟨p, none⟩ .not e)) (⟨.keyword .not_, p⟩ :: w)
  -- comparison: sum [comparison_op sum]
  | comparison {e : Expr} {w : List Token} (h : Derives (sum e) w) : Derives (comparison e) w
  | compare {l r : Expr} {w w' : List Token} {k : Token.Kind} {op : BinOp} (p : Loc)
      (hop : (k, op) ∈ comparisonOps) (hl : Derives (sum l) w) (hr : Derives (sum r) w') :
      Derives (comparison (l.joined op r)) (w ++ ⟨k, p⟩ :: w')
  -- sum: product [sum_op product]*
  | sum {e : Expr} {w : List Token} (h : Derives (product e) w) : Derives (sum e) w
  | add {l r : Expr} {w w' : List Token} {k : Token.Kind} {op : BinOp} (p : Loc)
      (hop : (k, op) ∈ sumOps) (hl : Derives (sum l) w) (hr : Derives (product r) w') :
      Derives (sum (l.joined op r)) (w ++ ⟨k, p⟩ :: w')
  -- product: negation [product_op negation]*
  | product {e : Expr} {w : List Token} (h : Derives (negation e) w) : Derives (product e) w
  | mul {l r : Expr} {w w' : List Token} {k : Token.Kind} {op : BinOp} (p : Loc)
      (hop : (k, op) ∈ productOps) (hl : Derives (product l) w) (hr : Derives (negation r) w') :
      Derives (product (l.joined op r)) (w ++ ⟨k, p⟩ :: w')
  -- negation: - negation | primary
  | negation {e : Expr} {w : List Token} (h : Derives (primary e) w) : Derives (negation e) w
  | neg {e : Expr} {w : List Token} (p : Loc) (h : Derives (negation e) w) :
      Derives (negation (.unary ⟨p, none⟩ .neg e)) (⟨.symbol .minus, p⟩ :: w)
  -- primary: atom [. ID [( args )] | [ expr ]]*
  | primary {e : Expr} {w : List Token} (h : Derives (atom e) w) : Derives (primary e) w
  | member {e : Expr} {w : List Token} (p q : Loc) (name : Name) (h : Derives (primary e) w) :
      Derives (primary (.member ⟨e.loc, none⟩ e ⟨⟨q, none⟩, name⟩))
        (w ++ [⟨.symbol .dot, p⟩, ⟨.identifier name, q⟩])
  | methodCall {e : Expr} {args : List Expr} {w w' : List Token} (p q r : Loc) (name : Name)
      (h : Derives (primary e) w) (hargs : Derives (items .closeParen args) w') :
      Derives (primary (.methodCall ⟨e.loc, none⟩ ⟨e.loc, none⟩ e ⟨⟨q, none⟩, name⟩ args))
        (w ++ ⟨.symbol .dot, p⟩ :: ⟨.identifier name, q⟩ :: ⟨.symbol .openParen, r⟩ :: w')
  | index {e i : Expr} {w w' : List Token} (p q : Loc) (h : Derives (primary e) w)
      (hi : Derives (expr i) w') :
      Derives (primary (.index ⟨e.loc, none⟩ e i))
        (w ++ ⟨.symbol .openBracket, p⟩ :: (w' ++ [⟨.symbol .closeBracket, q⟩]))
  -- atom: ID [( args )] | literal | [ elements ] | ( expr )
  | name (p : Loc) (name : Name) :
      Derives (atom (.name ⟨⟨p, none⟩, name⟩)) [⟨.identifier name, p⟩]
  | call {args : List Expr} {w : List Token} (p q : Loc) (name : Name)
      (hargs : Derives (items .closeParen args) w) :
      Derives (atom (.call ⟨p, none⟩ ⟨⟨p, none⟩, name⟩ args))
        (⟨.identifier name, p⟩ :: ⟨.symbol .openParen, q⟩ :: w)
  | lit {l : Literal} {t : Token} (h : l.Derives t) : Derives (atom (.lit l)) [t]
  | list {es : List Expr} {w : List Token} (p : Loc) (h : Derives (items .closeBracket es) w) :
      Derives (atom (.list ⟨p, none⟩ es)) (⟨.symbol .openBracket, p⟩ :: w)
  | parens {e : Expr} {w : List Token} (p q : Loc) (h : Derives (expr e) w) :
      Derives (atom e) (⟨.symbol .openParen, p⟩ :: (w ++ [⟨.symbol .closeParen, q⟩]))
  -- elems: expr [, expr]*
  | one {e : Expr} {w : List Token} (h : Derives (expr e) w) : Derives (elems [e]) w
  | more {es : List Expr} {e : Expr} {w w' : List Token} (p : Loc) (hes : Derives (elems es) w)
      (he : Derives (expr e) w') :
      Derives (elems (es ++ [e])) (w ++ ⟨.symbol .comma, p⟩ :: w')
  -- items: [elems] close
  | empty (close : Symbol) (p : Loc) : Derives (items close []) [⟨.symbol close, p⟩]
  | closed {es : List Expr} {w : List Token} (close : Symbol) (p : Loc)
      (h : Derives (elems es) w) : Derives (items close es) (w ++ [⟨.symbol close, p⟩])

/-- An atom is an expression. -/
theorem Derives.of_atom {e : Expr} {w : List Token} (h : (atom e).Derives w) :
    (ExprPhrase.expr e).Derives w :=
  .expr (.disjunction (.conjunction (.denial (.comparison (.sum (.product (.negation
    (.primary h))))))))

/-- Every spelling has a token. -/
theorem Derives.ne_nil {phrase : ExprPhrase} {w : List Token} (h : phrase.Derives w) : w ≠ [] := by
  induction h <;> simp_all

end ExprPhrase

/-! ### Statements -/

/-- targets: [target =]* -/
inductive TargetsDerive : List Expr → List Token → Prop
  | nil : TargetsDerive [] []
  | snoc {es : List Expr} {e : Expr} {w w' : List Token} (p : Loc) (before : TargetsDerive es w)
      (target : e.isTarget = true) (next : (ExprPhrase.expr e).Derives w') :
      TargetsDerive (es ++ [e]) (w ++ (w' ++ [⟨.symbol .assign, p⟩]))

theorem TargetsDerive.eq_nil_iff {es : List Expr} {w : List Token} (h : TargetsDerive es w) :
    es = [] ↔ w = [] := by
  cases h <;> simp

/-- A category of statements with a tree. A `pass` is a statement without a tree. -/
inductive StmtPhrase where
  | stmt (s : Option Stmt)
  | stmts (ss : List Stmt)
  | suite (ss : List Stmt)
  | block (ss : List Stmt)
  | alternative (ss : List Stmt)

namespace StmtPhrase

open ExprPhrase (expr)

inductive Derives : StmtPhrase → List Token → Prop
  -- simple_stmt NEWLINE, where simple_stmt: pass | return [expr] | [target =]* expr
  | pass (p q : Loc) : Derives (stmt none) [⟨.keyword .pass_, p⟩, ⟨.newline, q⟩]
  | ret (p q : Loc) :
      Derives (stmt (some (.ret p none))) [⟨.keyword .return_, p⟩, ⟨.newline, q⟩]
  | retValue {e : Expr} {w : List Token} (p q : Loc) (he : (expr e).Derives w) :
      Derives (stmt (some (.ret p (some e)))) (⟨.keyword .return_, p⟩ :: (w ++ [⟨.newline, q⟩]))
  | expr {e : Expr} {t : Token} {w : List Token} (q : Loc) (he : (expr e).Derives (t :: w)) :
      Derives (stmt (some (.expr t.loc e))) (t :: (w ++ [⟨.newline, q⟩]))
  | assign {es : List Expr} {e : Expr} {t : Token} {w w' : List Token} (q : Loc)
      (hes : TargetsDerive es (t :: w)) (he : (ExprPhrase.expr e).Derives w') :
      Derives (stmt (some (.assign t.loc es e))) (t :: (w ++ (w' ++ [⟨.newline, q⟩])))
  -- if expr block alternative | while expr block | for ID in expr block
  | ite {c : Expr} {yes no : List Stmt} {w₁ w₂ w₃ : List Token} (p : Loc)
      (hc : (ExprPhrase.expr c).Derives w₁) (hyes : Derives (block yes) w₂)
      (hno : Derives (alternative no) w₃) :
      Derives (stmt (some (.ite p c yes no))) (⟨.keyword .if_, p⟩ :: (w₁ ++ (w₂ ++ w₃)))
  | loop {c : Expr} {body : List Stmt} {w w' : List Token} (p : Loc)
      (hc : (ExprPhrase.expr c).Derives w) (hbody : Derives (block body) w') :
      Derives (stmt (some (.loop p c body))) (⟨.keyword .while_, p⟩ :: (w ++ w'))
  | each {e : Expr} {body : List Stmt} {w w' : List Token} (p q r : Loc) (name : Name)
      (he : (ExprPhrase.expr e).Derives w) (hbody : Derives (block body) w') :
      Derives (stmt (some (.each p ⟨⟨q, none⟩, name⟩ e body)))
        (⟨.keyword .for_, p⟩ :: ⟨.identifier name, q⟩ :: ⟨.keyword .in_, r⟩ :: (w ++ w'))
  -- alternative: [else block | elif expr block alternative]
  | noElse : Derives (alternative []) []
  | else_ {no : List Stmt} {w : List Token} (p : Loc) (hno : Derives (block no) w) :
      Derives (alternative no) (⟨.keyword .else_, p⟩ :: w)
  | elif_ {c : Expr} {yes no : List Stmt} {w₁ w₂ w₃ : List Token} (p : Loc)
      (hc : (ExprPhrase.expr c).Derives w₁) (hyes : Derives (block yes) w₂)
      (hno : Derives (alternative no) w₃) :
      Derives (alternative [.ite p c yes no]) (⟨.keyword .elif_, p⟩ :: (w₁ ++ (w₂ ++ w₃)))
  -- block: `:` NEWLINE INDENT suite, where suite: stmt+ DEDENT
  | block {ss : List Stmt} {w : List Token} (p q r : Loc) (h : Derives (suite ss) w) :
      Derives (block ss) (⟨.symbol .colon, p⟩ :: ⟨.newline, q⟩ :: ⟨.indent, r⟩ :: w)
  | suite {ss : List Stmt} {s : Option Stmt} {w w' : List Token} (p : Loc)
      (hss : Derives (stmts ss) w) (hs : Derives (stmt s) w') :
      Derives (suite (ss ++ s.toList)) (w ++ (w' ++ [⟨.dedent, p⟩]))
  -- stmts: stmt*
  | nil : Derives (stmts []) []
  | snoc {ss : List Stmt} {s : Option Stmt} {w w' : List Token} (hss : Derives (stmts ss) w)
      (hs : Derives (stmt s) w') : Derives (stmts (ss ++ s.toList)) (w ++ w')

end StmtPhrase

/-! ### Declarations -/

/-- return: [-> type] -/
inductive ReturnDerives : Option TypeExpr → List Token → Prop
  | nothing : ReturnDerives none []
  | arrow {a : TypeExpr} {w : List Token} (p : Loc) (type : a.Derives w) :
      ReturnDerives (some a) (⟨.symbol .arrow, p⟩ :: w)

/-- parameters: ( [params] ) -/
inductive ParametersDerive : List TypedVar → List Token → Prop
  | empty (p q : Loc) :
      ParametersDerive [] [⟨.symbol .openParen, p⟩, ⟨.symbol .closeParen, q⟩]
  | closed {vs : List TypedVar} {w : List Token} (p q : Loc) (params : ParamsDerive vs w) :
      ParametersDerive vs (⟨.symbol .openParen, p⟩ :: (w ++ [⟨.symbol .closeParen, q⟩]))

/-- A function, or the declarations of a function body. -/
inductive FuncPhrase where
  | func (f : FuncDef)
  | decl (d : LocalDecl)
  | decls (ds : List LocalDecl)

namespace FuncPhrase

inductive Derives : FuncPhrase → List Token → Prop
  -- func_def: def ID parameters return : NEWLINE INDENT decls suite
  | func {params : List TypedVar} {ret? : Option TypeExpr} {ds : List LocalDecl}
      {body : List Stmt} {w₁ w₂ w₃ w₄ : List Token} (p q r s u : Loc) (name : Name)
      (hparams : ParametersDerive params w₁) (hret : ReturnDerives ret? w₂)
      (hdecls : Derives (decls ds) w₃) (hbody : (StmtPhrase.suite body).Derives w₄) :
      Derives (func (.mk p ⟨⟨q, none⟩, name⟩ params ret? ds body))
        (⟨.keyword .def_, p⟩ :: ⟨.identifier name, q⟩ :: (w₁ ++ (w₂ ++ ⟨.symbol .colon, r⟩ ::
          ⟨.newline, s⟩ :: ⟨.indent, u⟩ :: (w₃ ++ w₄))))
  -- decl: global ID NEWLINE | nonlocal ID NEWLINE | var_def | func_def
  | var {d : VarDef} {w : List Token} (h : d.Derives w) : Derives (decl (.var d)) w
  | local {f : FuncDef} {w : List Token} (h : Derives (func f) w) : Derives (decl (.func f)) w
  | global (p q r : Loc) (name : Name) :
      Derives (decl (.global p ⟨⟨q, none⟩, name⟩))
        [⟨.keyword .global_, p⟩, ⟨.identifier name, q⟩, ⟨.newline, r⟩]
  | nonlocal (p q r : Loc) (name : Name) :
      Derives (decl (.nonlocal p ⟨⟨q, none⟩, name⟩))
        [⟨.keyword .nonlocal_, p⟩, ⟨.identifier name, q⟩, ⟨.newline, r⟩]
  -- decls: decl*
  | nil : Derives (decls []) []
  | snoc {ds : List LocalDecl} {d : LocalDecl} {w w' : List Token} (hds : Derives (decls ds) w)
      (hd : Derives (decl d) w') : Derives (decls (ds ++ [d])) (w ++ w')

end FuncPhrase

/-- members: (pass NEWLINE | var_def | func_def)* -/
inductive MembersDerive : List Member → List Token → Prop
  | nil : MembersDerive [] []
  | pass {ms : List Member} {w : List Token} (p q : Loc) (before : MembersDerive ms w) :
      MembersDerive ms (w ++ [⟨.keyword .pass_, p⟩, ⟨.newline, q⟩])
  | attr {ms : List Member} {d : VarDef} {w w' : List Token} (before : MembersDerive ms w)
      (h : d.Derives w') : MembersDerive (ms ++ [.attr d]) (w ++ w')
  | method {ms : List Member} {f : FuncDef} {w w' : List Token} (before : MembersDerive ms w)
      (h : (FuncPhrase.func f).Derives w') : MembersDerive (ms ++ [.method f]) (w ++ w')

/-- class_def: class ID ( ID ) : NEWLINE INDENT members DEDENT -/
inductive ClassDef.Derives : ClassDef → List Token → Prop
  | mk {ms : List Member} {w : List Token} (p q r p₁ p₂ p₃ p₄ p₅ p₆ : Loc) (name super : Name)
      (members : MembersDerive ms w) :
      Derives ⟨p, ⟨⟨q, none⟩, name⟩, ⟨⟨r, none⟩, super⟩, ms⟩
        (⟨.keyword .class_, p⟩ :: ⟨.identifier name, q⟩ :: ⟨.symbol .openParen, p₁⟩ ::
          ⟨.identifier super, r⟩ :: ⟨.symbol .closeParen, p₂⟩ :: ⟨.symbol .colon, p₃⟩ ::
          ⟨.newline, p₄⟩ :: ⟨.indent, p₅⟩ :: (w ++ [⟨.dedent, p₆⟩]))

/-- decls: (var_def | func_def | class_def)* -/
inductive TopDeclsDerive : List TopDecl → List Token → Prop
  | nil : TopDeclsDerive [] []
  | var {ds : List TopDecl} {d : VarDef} {w w' : List Token} (before : TopDeclsDerive ds w)
      (h : d.Derives w') : TopDeclsDerive (ds ++ [.var d]) (w ++ w')
  | func {ds : List TopDecl} {f : FuncDef} {w w' : List Token} (before : TopDeclsDerive ds w)
      (h : (FuncPhrase.func f).Derives w') : TopDeclsDerive (ds ++ [.func f]) (w ++ w')
  | cls {ds : List TopDecl} {c : ClassDef} {w w' : List Token} (before : TopDeclsDerive ds w)
      (h : c.Derives w') : TopDeclsDerive (ds ++ [.cls c]) (w ++ w')

/-- program: (var_def | func_def | class_def)* stmt* EOF -/
inductive Program.Derives : Program → List Token → Prop
  | mk {ds : List TopDecl} {ss : List Stmt} {w w' : List Token} (p : Loc)
      (decls : TopDeclsDerive ds w) (body : (StmtPhrase.stmts ss).Derives w') :
      Derives ⟨ds, ss⟩ (w ++ (w' ++ [⟨.eof, p⟩]))

end ChocoRv
