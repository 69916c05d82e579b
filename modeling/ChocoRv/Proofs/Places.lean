import ChocoRv.Proofs.Slots
import ChocoRv.Tree.Dump

/-!
# Trees at other places

`moved ρ` sends every place of a token or of a tree through `ρ` and leaves all else. Two trees are
the same up to their places when `moved` makes them equal with all places at one spot. The dump of a
tree does not show places, and the grammar does not look at them: what a phrase is spelled by, the
moved phrase is spelled by at the moved places.
-/

namespace ChocoRv

variable (ρ : Loc → Loc)

/-- One spot for all places. -/
def Loc.spot (_ : Loc) : Loc := ⟨1, 1⟩

def Token.moved (t : Token) : Token := ⟨t.kind, ρ t.loc⟩

@[simp] theorem Token.moved_mk (k : Token.Kind) (p : Loc) : Token.moved ρ ⟨k, p⟩ = ⟨k, ρ p⟩ := rfl

theorem Token.loc_moved (t : Token) : (t.moved ρ).loc = ρ t.loc := rfl

def Mark.moved (m : Mark) : Mark := ⟨ρ m.loc, m.entry?⟩

def Ident.moved (id : Ident) : Ident := ⟨id.mark.moved ρ, id.name⟩

def Literal.moved (l : Literal) : Literal := ⟨l.mark.moved ρ, l.value⟩

mutual

def Expr.moved : Expr → Expr
  | .lit l => .lit (l.moved ρ)
  | .name id => .name (id.moved ρ)
  | .unary m op e => .unary (m.moved ρ) op e.moved
  | .binary m l op r => .binary (m.moved ρ) l.moved op r.moved
  | .cond m test yes no => .cond (m.moved ρ) test.moved yes.moved no.moved
  | .list m elems => .list (m.moved ρ) (Expr.allMoved elems)
  | .index m seq i => .index (m.moved ρ) seq.moved i.moved
  | .member m object id => .member (m.moved ρ) object.moved (id.moved ρ)
  | .call m id args => .call (m.moved ρ) (id.moved ρ) (Expr.allMoved args)
  | .methodCall m method object id args =>
    .methodCall (m.moved ρ) (method.moved ρ) object.moved (id.moved ρ) (Expr.allMoved args)

def Expr.allMoved : List Expr → List Expr
  | [] => []
  | e :: es => e.moved :: Expr.allMoved es

end

def TypeExpr.moved : TypeExpr → TypeExpr
  | .cls loc name => .cls (ρ loc) name
  | .list loc elem => .list (ρ loc) elem.moved

mutual

def Stmt.moved : Stmt → Stmt
  | .expr loc e => .expr (ρ loc) (e.moved ρ)
  | .assign loc targets value => .assign (ρ loc) (targets.map (Expr.moved ρ)) (value.moved ρ)
  | .ite loc test yes no => .ite (ρ loc) (test.moved ρ) (Stmt.allMoved yes) (Stmt.allMoved no)
  | .loop loc test body => .loop (ρ loc) (test.moved ρ) (Stmt.allMoved body)
  | .each loc id iterable body =>
    .each (ρ loc) (id.moved ρ) (iterable.moved ρ) (Stmt.allMoved body)
  | .ret loc none => .ret (ρ loc) none
  | .ret loc (some e) => .ret (ρ loc) (some (e.moved ρ))

def Stmt.allMoved : List Stmt → List Stmt
  | [] => []
  | s :: ss => s.moved :: Stmt.allMoved ss

end

def TypedVar.moved (v : TypedVar) : TypedVar := ⟨v.name.moved ρ, v.typeExpr.moved ρ⟩

def VarDef.moved (d : VarDef) : VarDef := ⟨d.var.moved ρ, d.value.moved ρ⟩

mutual

def FuncDef.moved : FuncDef → FuncDef
  | .mk loc id params ret? decls body =>
    .mk (ρ loc) (id.moved ρ) (params.map (TypedVar.moved ρ)) (ret?.map (TypeExpr.moved ρ))
      (LocalDecl.allMoved decls) (Stmt.allMoved ρ body)

def LocalDecl.moved : LocalDecl → LocalDecl
  | .var d => .var (d.moved ρ)
  | .global loc id => .global (ρ loc) (id.moved ρ)
  | .nonlocal loc id => .nonlocal (ρ loc) (id.moved ρ)
  | .func f => .func f.moved

def LocalDecl.allMoved : List LocalDecl → List LocalDecl
  | [] => []
  | d :: ds => d.moved :: LocalDecl.allMoved ds

end

def Member.moved : Member → Member
  | attr d => attr (d.moved ρ)
  | method f => method (f.moved ρ)

def ClassDef.moved (c : ClassDef) : ClassDef :=
  ⟨ρ c.loc, c.ident.moved ρ, c.super.moved ρ, c.members.map (Member.moved ρ)⟩

def TopDecl.moved : TopDecl → TopDecl
  | var d => var (d.moved ρ)
  | func f => func (f.moved ρ)
  | cls c => cls (c.moved ρ)

/-- The program with its places sent through `ρ`. -/
def Program.moved (p : Program) : Program :=
  ⟨p.decls.map (TopDecl.moved ρ), p.body.map (Stmt.moved ρ)⟩

theorem Expr.allMoved_eq_map (es : List Expr) : Expr.allMoved ρ es = es.map (Expr.moved ρ) := by
  induction es with
  | nil => rfl
  | cons e es ih => simp [Expr.allMoved, ih]

theorem Stmt.allMoved_eq_map (ss : List Stmt) : Stmt.allMoved ρ ss = ss.map (Stmt.moved ρ) := by
  induction ss with
  | nil => rfl
  | cons s ss ih => simp [Stmt.allMoved, ih]

theorem LocalDecl.allMoved_eq_map (ds : List LocalDecl) :
    LocalDecl.allMoved ρ ds = ds.map (LocalDecl.moved ρ) := by
  induction ds with
  | nil => rfl
  | cons d ds ih => simp [LocalDecl.allMoved, ih]

theorem Token.moved_moved {σ : Loc → Loc} (h : Function.LeftInverse σ ρ) (t : Token) :
    (t.moved ρ).moved σ = t := by
  simp only [Token.moved, h t.loc]

theorem Expr.loc_moved (e : Expr) : (e.moved ρ).loc = ρ e.loc := by
  cases e <;> simp [Expr.moved, Expr.loc, Expr.mark, Mark.moved, Literal.moved, Ident.moved]

theorem Expr.isTarget_moved (e : Expr) : (e.moved ρ).isTarget = e.isTarget := by
  cases e <;> simp [Expr.moved, Expr.isTarget]

/-! ### The dump does not show places -/

mutual

theorem Expr.dump_moved : ∀ e : Expr, (e.moved ρ).dump = e.dump
  | .lit l => by simp only [Expr.moved, Expr.dump, Literal.moved]
  | .name id => by simp only [Expr.moved, Expr.dump, Ident.moved]
  | .unary m op e => by simp only [Expr.moved, Expr.dump, e.dump_moved]
  | .binary m l op r => by simp only [Expr.moved, Expr.dump, l.dump_moved, r.dump_moved]
  | .cond m test yes no => by
    simp only [Expr.moved, Expr.dump, test.dump_moved, yes.dump_moved, no.dump_moved]
  | .list m elems => by simp only [Expr.moved, Expr.dump, Expr.dumps_moved elems]
  | .index m seq i => by simp only [Expr.moved, Expr.dump, seq.dump_moved, i.dump_moved]
  | .member m object id => by simp only [Expr.moved, Expr.dump, object.dump_moved, Ident.moved]
  | .call m id args => by simp only [Expr.moved, Expr.dump, Expr.dumps_moved args, Ident.moved]
  | .methodCall m method object id args => by
    simp only [Expr.moved, Expr.dump, object.dump_moved, Expr.dumps_moved args, Ident.moved]

theorem Expr.dumps_moved : ∀ es : List Expr, Expr.dumps (Expr.allMoved ρ es) = Expr.dumps es
  | [] => by simp only [Expr.allMoved]
  | e :: es => by simp only [Expr.allMoved, Expr.dumps, e.dump_moved, Expr.dumps_moved es]

end

theorem TypeExpr.text_moved (a : TypeExpr) : (a.moved ρ).text = a.text := by
  induction a with
  | cls loc name => rfl
  | list loc elem ih => simp only [TypeExpr.moved, TypeExpr.text, ih]

mutual

theorem Stmt.dump_moved : ∀ s : Stmt, (s.moved ρ).dump = s.dump
  | .expr loc e => by simp only [Stmt.moved, Stmt.dump, e.dump_moved]
  | .assign loc targets value => by
    simp only [Stmt.moved, Stmt.dump, ← Expr.allMoved_eq_map, Expr.dumps_moved, value.dump_moved]
  | .ite loc test yes no => by
    simp only [Stmt.moved, Stmt.dump, test.dump_moved, Stmt.dumps_moved yes, Stmt.dumps_moved no]
  | .loop loc test body => by
    simp only [Stmt.moved, Stmt.dump, test.dump_moved, Stmt.dumps_moved body]
  | .each loc id iterable body => by
    simp only [Stmt.moved, Stmt.dump, iterable.dump_moved, Stmt.dumps_moved body, Ident.moved]
  | .ret loc none => by simp only [Stmt.moved, Stmt.dump]
  | .ret loc (some e) => by simp only [Stmt.moved, Stmt.dump, e.dump_moved]

theorem Stmt.dumps_moved : ∀ ss : List Stmt, Stmt.dumps (Stmt.allMoved ρ ss) = Stmt.dumps ss
  | [] => by simp only [Stmt.allMoved]
  | s :: ss => by simp only [Stmt.allMoved, Stmt.dumps, s.dump_moved, Stmt.dumps_moved ss]

end

theorem TypedVar.dump_moved (v : TypedVar) : (v.moved ρ).dump = v.dump := by
  simp only [TypedVar.dump, TypedVar.moved, Ident.moved, TypeExpr.text_moved]

theorem VarDef.dump_moved (d : VarDef) : (d.moved ρ).dump = d.dump := by
  simp only [VarDef.dump, VarDef.name, VarDef.moved, TypedVar.moved, Ident.moved, Literal.moved,
    TypeExpr.text_moved]

mutual

theorem FuncDef.dump_moved : ∀ f : FuncDef, (f.moved ρ).dump = f.dump
  | .mk loc id params ret? decls body => by
    have hparams : (params.map (TypedVar.moved ρ)).map TypedVar.dump = params.map TypedVar.dump := by
      rw [List.map_map]
      exact List.map_congr_left fun v _ => v.dump_moved ρ
    cases ret? with
    | none =>
      simp only [FuncDef.moved, FuncDef.dump, hparams, Option.map_none, Ident.moved,
        LocalDecl.dumps_moved decls, Stmt.dumps_moved]
    | some ret =>
      simp only [FuncDef.moved, FuncDef.dump, hparams, Option.map_some, Ident.moved,
        LocalDecl.dumps_moved decls, Stmt.dumps_moved, TypeExpr.text_moved]

theorem LocalDecl.dump_moved : ∀ d : LocalDecl, (d.moved ρ).dump = d.dump
  | .var d => by simp only [LocalDecl.moved, LocalDecl.dump, d.dump_moved]
  | .global loc id => by simp only [LocalDecl.moved, LocalDecl.dump, Ident.moved]
  | .nonlocal loc id => by simp only [LocalDecl.moved, LocalDecl.dump, Ident.moved]
  | .func f => by simp only [LocalDecl.moved, LocalDecl.dump, f.dump_moved]

theorem LocalDecl.dumps_moved : ∀ ds : List LocalDecl,
    LocalDecl.dumps (LocalDecl.allMoved ρ ds) = LocalDecl.dumps ds
  | [] => by simp only [LocalDecl.allMoved]
  | d :: ds => by
    simp only [LocalDecl.allMoved, LocalDecl.dumps, d.dump_moved, LocalDecl.dumps_moved ds]

end

theorem Member.dump_moved (m : Member) : (m.moved ρ).dump = m.dump := by
  cases m with
  | attr d => exact d.dump_moved ρ
  | method f => exact f.dump_moved ρ

theorem ClassDef.dump_moved (c : ClassDef) : (c.moved ρ).dump = c.dump := by
  simp only [ClassDef.dump, ClassDef.name, ClassDef.moved, Ident.moved, List.map_map,
    Function.comp_def, Member.dump_moved]

theorem TopDecl.dump_moved (d : TopDecl) : (d.moved ρ).dump = d.dump := by
  cases d with
  | var d => exact d.dump_moved ρ
  | func f => exact f.dump_moved ρ
  | cls c => exact c.dump_moved ρ

/-- The dump of a program does not depend on its places. -/
theorem Program.dump_moved (p : Program) : (p.moved ρ).dump = p.dump := by
  simp only [Program.dump, Program.moved, List.map_map, Function.comp_def, TopDecl.dump_moved,
    ← Stmt.allMoved_eq_map, Stmt.dumps_moved]

/-! ### The grammar does not look at places -/

section Grammar

variable {ρ}

theorem Literal.Derives.moved {l : Literal} {t : Token} (h : l.Derives t) :
    (l.moved ρ).Derives (t.moved ρ) := by
  cases h with
  | none_ p => exact .none_ (ρ p)
  | true_ p => exact .true_ (ρ p)
  | false_ p => exact .false_ (ρ p)
  | int p value => exact .int (ρ p) value
  | str p content => exact .str (ρ p) content

theorem TypeExpr.Derives.moved {a : TypeExpr} {w : List Token} (h : a.Derives w) :
    (a.moved ρ).Derives (w.map (Token.moved ρ)) := by
  induction h with
  | ident p name => exact .ident (ρ p) name
  | string p name => exact .string (ρ p) name
  | list p q _ ih =>
    rw [List.map_cons, List.map_append]
    exact .list (ρ p) (ρ q) ih

theorem TypedVar.Derives.moved {v : TypedVar} {w : List Token} (h : v.Derives w) :
    (v.moved ρ).Derives (w.map (Token.moved ρ)) := by
  cases h with
  | mk p q name type => exact .mk (ρ p) (ρ q) name type.moved

theorem VarDef.Derives.moved {d : VarDef} {w : List Token} (h : d.Derives w) :
    (d.moved ρ).Derives (w.map (Token.moved ρ)) := by
  cases h with
  | mk p q var value =>
    rw [List.map_append]
    exact .mk (ρ p) (ρ q) var.moved value.moved

theorem ParamsDerive.moved {vs : List TypedVar} {w : List Token} (h : ParamsDerive vs w) :
    ParamsDerive (vs.map (TypedVar.moved ρ)) (w.map (Token.moved ρ)) := by
  induction h with
  | one first => exact .one first.moved
  | more p _ next ih =>
    rw [List.map_append, List.map_append]
    exact .more (ρ p) ih next.moved

namespace ExprPhrase

/-- The phrase with its places sent through `ρ`. -/
def moved (ρ : Loc → Loc) : ExprPhrase → ExprPhrase
  | expr e => expr (e.moved ρ)
  | disjunction e => disjunction (e.moved ρ)
  | conjunction e => conjunction (e.moved ρ)
  | denial e => denial (e.moved ρ)
  | comparison e => comparison (e.moved ρ)
  | sum e => sum (e.moved ρ)
  | product e => product (e.moved ρ)
  | negation e => negation (e.moved ρ)
  | primary e => primary (e.moved ρ)
  | atom e => atom (e.moved ρ)
  | elems es => elems (es.map (Expr.moved ρ))
  | items close es => items close (es.map (Expr.moved ρ))

theorem joined_moved (l r : Expr) (op : BinOp) :
    (l.joined op r).moved ρ = (l.moved ρ).joined op (r.moved ρ) := by
  simp only [Expr.joined, Expr.moved, Expr.loc_moved, Mark.moved]

theorem Derives.moved {phrase : ExprPhrase} {w : List Token} (h : phrase.Derives w) :
    (phrase.moved ρ).Derives (w.map (Token.moved ρ)) := by
  induction h with
  | expr _ ih => exact .expr ih
  | disjunction _ ih => exact .disjunction ih
  | conjunction _ ih => exact .conjunction ih
  | denial _ ih => exact .denial ih
  | comparison _ ih => exact .comparison ih
  | sum _ ih => exact .sum ih
  | product _ ih => exact .product ih
  | negation _ ih => exact .negation ih
  | primary _ ih => exact .primary ih
  | one _ ih => exact .one ih
  | lit hl => exact .lit hl.moved
  | name p name => exact .name (ρ p) name
  | empty close p => exact .empty close (ρ p)
  | not p _ ih => exact .not (ρ p) ih
  | neg p _ ih => exact .neg (ρ p) ih
  | cond p q _ _ _ ihyes ihtest ihno =>
    simpa [ExprPhrase.moved, Expr.moved, Mark.moved, Expr.loc_moved] using
      Derives.cond (ρ p) (ρ q) ihyes ihtest ihno
  | or p _ _ ihl ihr => simpa [ExprPhrase.moved, joined_moved] using Derives.or (ρ p) ihl ihr
  | and p _ _ ihl ihr => simpa [ExprPhrase.moved, joined_moved] using Derives.and (ρ p) ihl ihr
  | compare p hop _ _ ihl ihr =>
    simpa [ExprPhrase.moved, joined_moved] using Derives.compare (ρ p) hop ihl ihr
  | add p hop _ _ ihl ihr =>
    simpa [ExprPhrase.moved, joined_moved] using Derives.add (ρ p) hop ihl ihr
  | mul p hop _ _ ihl ihr =>
    simpa [ExprPhrase.moved, joined_moved] using Derives.mul (ρ p) hop ihl ihr
  | member p q name _ ih =>
    simpa [ExprPhrase.moved, Expr.moved, Mark.moved, Ident.moved, Expr.loc_moved] using
      Derives.member (ρ p) (ρ q) name ih
  | methodCall p q r name _ _ ih ihargs =>
    simpa [ExprPhrase.moved, Expr.moved, Mark.moved, Ident.moved, Expr.loc_moved,
      Expr.allMoved_eq_map] using Derives.methodCall (ρ p) (ρ q) (ρ r) name ih ihargs
  | index p q _ _ ih ihi =>
    simpa [ExprPhrase.moved, Expr.moved, Mark.moved, Expr.loc_moved] using
      Derives.index (ρ p) (ρ q) ih ihi
  | call p q name _ ihargs =>
    simpa [ExprPhrase.moved, Expr.moved, Mark.moved, Ident.moved, Expr.allMoved_eq_map] using
      Derives.call (ρ p) (ρ q) name ihargs
  | list p _ ih =>
    simpa [ExprPhrase.moved, Expr.moved, Mark.moved, Expr.allMoved_eq_map] using
      Derives.list (ρ p) ih
  | parens p q _ ih => simpa [ExprPhrase.moved] using Derives.parens (ρ p) (ρ q) ih
  | more p _ _ ihes ihe => simpa [ExprPhrase.moved] using Derives.more (ρ p) ihes ihe
  | closed close p _ ih => simpa [ExprPhrase.moved] using Derives.closed close (ρ p) ih

end ExprPhrase

theorem TargetsDerive.moved {es : List Expr} {w : List Token} (h : TargetsDerive es w) :
    TargetsDerive (es.map (Expr.moved ρ)) (w.map (Token.moved ρ)) := by
  induction h with
  | nil => exact .nil
  | snoc p _ target next ih =>
    simpa using TargetsDerive.snoc (ρ p) ih ((Expr.isTarget_moved ρ _).trans target) next.moved

namespace StmtPhrase

/-- The phrase with its places sent through `ρ`. -/
def moved (ρ : Loc → Loc) : StmtPhrase → StmtPhrase
  | stmt s => stmt (s.map (Stmt.moved ρ))
  | stmts ss => stmts (ss.map (Stmt.moved ρ))
  | suite ss => suite (ss.map (Stmt.moved ρ))
  | block ss => block (ss.map (Stmt.moved ρ))
  | alternative ss => alternative (ss.map (Stmt.moved ρ))

theorem Derives.moved {phrase : StmtPhrase} {w : List Token} (h : phrase.Derives w) :
    (phrase.moved ρ).Derives (w.map (Token.moved ρ)) := by
  induction h with
  | pass p q => exact .pass (ρ p) (ρ q)
  | nil => exact .nil
  | noElse => exact .noElse
  | else_ p _ ih => exact .else_ (ρ p) ih
  | block p q r _ ih => exact .block (ρ p) (ρ q) (ρ r) ih
  | ret p q => simpa [StmtPhrase.moved, Stmt.moved] using Derives.ret (ρ p) (ρ q)
  | retValue p q he =>
    simpa [StmtPhrase.moved, Stmt.moved] using Derives.retValue (ρ p) (ρ q) he.moved
  | @expr e t w q he =>
    have he : (ExprPhrase.expr (e.moved ρ)).Derives (t.moved ρ :: w.map (Token.moved ρ)) := he.moved
    simpa [StmtPhrase.moved, Stmt.moved, Token.loc_moved] using Derives.expr (ρ q) he
  | @assign es e t w w' q hes he =>
    have hes : TargetsDerive (es.map (Expr.moved ρ)) (t.moved ρ :: w.map (Token.moved ρ)) :=
      hes.moved
    simpa [StmtPhrase.moved, Stmt.moved, Token.loc_moved] using Derives.assign (ρ q) hes he.moved
  | ite p hc _ _ ihyes ihno =>
    simpa [StmtPhrase.moved, Stmt.moved, Stmt.allMoved_eq_map] using
      Derives.ite (ρ p) hc.moved ihyes ihno
  | loop p hc _ ih =>
    simpa [StmtPhrase.moved, Stmt.moved, Stmt.allMoved_eq_map] using
      Derives.loop (ρ p) hc.moved ih
  | each p q r name he _ ih =>
    simpa [StmtPhrase.moved, Stmt.moved, Stmt.allMoved_eq_map, Ident.moved, Mark.moved] using
      Derives.each (ρ p) (ρ q) (ρ r) name he.moved ih
  | elif_ p hc _ _ ihyes ihno =>
    simpa [StmtPhrase.moved, Stmt.moved, Stmt.allMoved_eq_map] using
      Derives.elif_ (ρ p) hc.moved ihyes ihno
  | suite p _ _ ihss ihs =>
    simpa [StmtPhrase.moved, Option.toList_map] using Derives.suite (ρ p) ihss ihs
  | snoc _ _ ihss ihs => simpa [StmtPhrase.moved, Option.toList_map] using Derives.snoc ihss ihs

end StmtPhrase

theorem ReturnDerives.moved {ret? : Option TypeExpr} {w : List Token} (h : ReturnDerives ret? w) :
    ReturnDerives (ret?.map (TypeExpr.moved ρ)) (w.map (Token.moved ρ)) := by
  cases h with
  | nothing => exact .nothing
  | arrow p type => exact .arrow (ρ p) type.moved

theorem ParametersDerive.moved {vs : List TypedVar} {w : List Token}
    (h : ParametersDerive vs w) :
    ParametersDerive (vs.map (TypedVar.moved ρ)) (w.map (Token.moved ρ)) := by
  cases h with
  | empty p q => exact .empty (ρ p) (ρ q)
  | closed p q params => simpa using ParametersDerive.closed (ρ p) (ρ q) params.moved

namespace FuncPhrase

/-- The phrase with its places sent through `ρ`. -/
def moved (ρ : Loc → Loc) : FuncPhrase → FuncPhrase
  | func f => func (f.moved ρ)
  | decl d => decl (d.moved ρ)
  | decls ds => decls (ds.map (LocalDecl.moved ρ))

theorem Derives.moved {phrase : FuncPhrase} {w : List Token} (h : phrase.Derives w) :
    (phrase.moved ρ).Derives (w.map (Token.moved ρ)) := by
  induction h with
  | func p q r s u name hparams hret _ hbody ih =>
    simpa [FuncPhrase.moved, FuncDef.moved, Ident.moved, Mark.moved, LocalDecl.allMoved_eq_map,
      Stmt.allMoved_eq_map] using
      Derives.func (ρ p) (ρ q) (ρ r) (ρ s) (ρ u) name hparams.moved hret.moved ih hbody.moved
  | var hd => simpa [FuncPhrase.moved, LocalDecl.moved] using Derives.var hd.moved
  | «local» _ ih => simpa [FuncPhrase.moved, LocalDecl.moved] using Derives.local ih
  | global p q r name =>
    simpa [FuncPhrase.moved, LocalDecl.moved, Ident.moved, Mark.moved] using
      Derives.global (ρ p) (ρ q) (ρ r) name
  | «nonlocal» p q r name =>
    simpa [FuncPhrase.moved, LocalDecl.moved, Ident.moved, Mark.moved] using
      Derives.nonlocal (ρ p) (ρ q) (ρ r) name
  | nil => exact .nil
  | snoc _ _ ihds ihd => simpa [FuncPhrase.moved] using Derives.snoc ihds ihd

end FuncPhrase

theorem MembersDerive.moved {ms : List Member} {w : List Token} (h : MembersDerive ms w) :
    MembersDerive (ms.map (Member.moved ρ)) (w.map (Token.moved ρ)) := by
  induction h with
  | nil => exact .nil
  | pass p q _ ih => simpa using MembersDerive.pass (ρ p) (ρ q) ih
  | attr _ hd ih => simpa [Member.moved] using MembersDerive.attr ih hd.moved
  | method _ hf ih => simpa [Member.moved] using MembersDerive.method ih hf.moved

theorem ClassDef.Derives.moved {c : ClassDef} {w : List Token} (h : c.Derives w) :
    (c.moved ρ).Derives (w.map (Token.moved ρ)) := by
  cases h with
  | mk p q r p₁ p₂ p₃ p₄ p₅ p₆ name super members =>
    simpa [ClassDef.moved, Ident.moved, Mark.moved] using
      ClassDef.Derives.mk (ρ p) (ρ q) (ρ r) (ρ p₁) (ρ p₂) (ρ p₃) (ρ p₄) (ρ p₅) (ρ p₆) name super
        members.moved

theorem TopDeclsDerive.moved {ds : List TopDecl} {w : List Token} (h : TopDeclsDerive ds w) :
    TopDeclsDerive (ds.map (TopDecl.moved ρ)) (w.map (Token.moved ρ)) := by
  induction h with
  | nil => exact .nil
  | var _ hd ih => simpa [TopDecl.moved] using TopDeclsDerive.var ih hd.moved
  | func _ hf ih => simpa [TopDecl.moved] using TopDeclsDerive.func ih hf.moved
  | cls _ hc ih => simpa [TopDecl.moved] using TopDeclsDerive.cls ih hc.moved

/-- What spells a program spells the moved program at the moved places. -/
theorem Program.Derives.moved {p : Program} {w : List Token} (h : p.Derives w) :
    (p.moved ρ).Derives (w.map (Token.moved ρ)) := by
  cases h with
  | mk q decls body => simpa [Program.moved] using Program.Derives.mk (ρ q) decls.moved body.moved

end Grammar

end ChocoRv
