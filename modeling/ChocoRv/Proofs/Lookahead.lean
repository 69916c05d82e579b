import ChocoRv.Parser.Program
import ChocoRv.Proofs.Grammar

/-!
# One token of lookahead

The parser decides by the next token, or the next two, which rule to follow. Here is what the
grammar says about these tokens: which tokens start a phrase, which occur in it, and which would go
on with it.
-/

namespace ChocoRv

namespace Token.Kind

/-- Tokens that start an atom. -/
def startsAtom : Kind → Bool
  | identifier _ | integer _ | string _ => true
  | keyword .none_ | keyword .true_ | keyword .false_ => true
  | symbol .openParen | symbol .openBracket => true
  | _ => false

/-- Tokens that start a term of a chain. -/
def startsTerm (k : Kind) : Bool := k.startsAtom || k == symbol .minus

/-- Tokens that start an expression. -/
def startsExpr (k : Kind) : Bool := k.startsTerm || k == keyword .not_

/-- Tokens that occur in expressions. -/
def inExpr : Kind → Bool
  | identifier _ | integer _ | string _ => true
  | keyword k => k ∈ [.none_, .true_, .false_, .and_, .or_, .not_, .is_, .if_, .else_]
  | symbol s => s ∉ [.assign, .colon, .arrow]
  | newline | indent | dedent | eof => false

/-- How far out a token goes on with an expression: 6 from a name, 5 from a primary, 4 from a term,
3 from an operand of `and`, 2 from one of `or` and 1 from a whole disjunction. -/
def rank : Kind → Nat
  | symbol .openParen => 6
  | symbol .dot | symbol .openBracket => 5
  | keyword .and_ => 3
  | keyword .or_ => 2
  | keyword .if_ => 1
  | k => if (BinOp.ofKind? k).isSome then 4 else 0

theorem ne_of_startsAtom {k : Kind} (h : k.startsAtom = true) :
    k ≠ symbol .minus ∧ k ≠ keyword .not_ := by
  constructor <;> rintro rfl <;> cases h

theorem ne_not_of_startsTerm {k : Kind} (h : k.startsTerm = true) : k ≠ keyword .not_ := by
  rintro rfl
  cases h

theorem startsExpr_of_startsTerm {k : Kind} (h : k.startsTerm = true) : k.startsExpr = true := by
  rw [startsExpr, h, Bool.true_or]

theorem startsTerm_of_startsAtom {k : Kind} (h : k.startsAtom = true) : k.startsTerm = true := by
  rw [startsTerm, h, Bool.true_or]

theorem inExpr_of_startsExpr {k : Kind} (h : k.startsExpr = true) : k.inExpr = true := by
  unfold startsExpr startsTerm startsAtom at h
  split at h <;> simp_all [inExpr]
  rcases h with rfl | rfl <;> decide

theorem rank_of_ofKind? {k : Kind} {op : BinOp} (h : BinOp.ofKind? k = some op) : k.rank = 4 := by
  unfold BinOp.ofKind? at h
  split at h <;> cases h <;> rfl

/-- A token of low rank is no operator between terms. -/
theorem ofKind?_eq_none {k : Kind} (h : k.rank ≤ 3) : BinOp.ofKind? k = none := by
  rcases hop : BinOp.ofKind? k with _ | op
  · rfl
  · rw [rank_of_ofKind? hop] at h
    omega

end Token.Kind

/-- The next token does not go on with an expression further in than `r`. -/
def Follow (r : Nat) (ts : List Token) : Prop := ∀ t ∈ ts.head?, t.kind.rank ≤ r

theorem Follow.mono {r r' : Nat} {ts : List Token} (h : Follow r ts) (hr : r ≤ r') :
    Follow r' ts := fun t ht => Nat.le_trans (h t ht) hr

theorem Follow.cons {r : Nat} {k : Token.Kind} {p : Loc} (h : k.rank ≤ r) (ts : List Token) :
    Follow r (⟨k, p⟩ :: ts) := by
  rintro t' ⟨⟩
  exact h

/-- A token of higher rank does not come next. -/
theorem Follow.ne {r : Nat} {ts : List Token} (h : Follow r ts) {k : Token.Kind}
    (hk : r < k.rank) : ∀ t ∈ ts.head?, t.kind ≠ k := by
  rintro t ht rfl
  exact absurd (h t ht) (Nat.not_le.2 hk)

/-! ### Expressions -/

namespace Literal.Derives

theorem startsAtom {l : Literal} {t : Token} (h : l.Derives t) : t.kind.startsAtom = true := by
  cases h <;> rfl

end Literal.Derives

namespace ExprPhrase

/-- The first token of a spelling suits the category. -/
def Starts : ExprPhrase → Token.Kind → Prop
  | primary _, k | atom _, k => k.startsAtom = true
  | comparison _, k | sum _, k | product _, k | negation _, k => k.startsTerm = true
  | items .., _ => True
  | _, k => k.startsExpr = true

namespace Derives

variable {phrase : ExprPhrase} {e : Expr} {w : List Token}

theorem starts (h : phrase.Derives w) : ∃ t w', w = t :: w' ∧ phrase.Starts t.kind := by
  induction h with
  | expr _ ih | disjunction _ ih | conjunction _ ih | comparison _ ih | sum _ ih | product _ ih
  | primary _ ih | one _ ih => exact ih
  | denial _ ih =>
    obtain ⟨t, w', rfl, ht⟩ := ih
    exact ⟨t, w', rfl, Token.Kind.startsExpr_of_startsTerm ht⟩
  | negation _ ih =>
    obtain ⟨t, w', rfl, ht⟩ := ih
    exact ⟨t, w', rfl, Token.Kind.startsTerm_of_startsAtom ht⟩
  | cond _ _ _ _ _ ih | or _ _ _ ih | and _ _ _ ih | compare _ _ _ _ ih | add _ _ _ _ ih
  | mul _ _ _ _ ih | member _ _ _ _ ih | methodCall _ _ _ _ _ _ ih | index _ _ _ _ ih
  | more _ _ _ ih =>
    obtain ⟨t, w', rfl, ht⟩ := ih
    exact ⟨t, _, List.cons_append, ht⟩
  | not | neg | name | call | list | parens => exact ⟨_, _, rfl, rfl⟩
  | lit h => exact ⟨_, [], rfl, h.startsAtom⟩
  | empty => exact ⟨_, [], rfl, trivial⟩
  | closed _ _ _ ih =>
    obtain ⟨t, w', rfl, -⟩ := ih
    exact ⟨t, _, List.cons_append, trivial⟩

theorem expr_starts (h : (ExprPhrase.expr e).Derives w) :
    ∃ t w', w = t :: w' ∧ t.kind.startsExpr = true := h.starts

/-- The tokens of a spelling other than the closing symbol of items. -/
def Inner : ExprPhrase → List Token → Prop
  | items close _, w =>
    ∃ w' p, w = w' ++ [⟨.symbol close, p⟩] ∧ ∀ t ∈ w', t.kind.inExpr = true
  | _, w => ∀ t ∈ w, t.kind.inExpr = true

theorem Inner.of_items {close : Symbol} {es : List Expr} (h : Inner (items close es) w)
    (hclose : (Token.Kind.symbol close).inExpr = true) : ∀ t ∈ w, t.kind.inExpr = true := by
  obtain ⟨w', p, rfl, hw'⟩ := h
  exact List.forall_mem_append.2 ⟨hw', List.forall_mem_singleton.2 hclose⟩

theorem inExpr_of_mem_comparisonOps : ∀ x ∈ comparisonOps, x.1.inExpr = true := by decide

theorem inExpr_of_mem_sumOps : ∀ x ∈ sumOps, x.1.inExpr = true := by decide

theorem inExpr_of_mem_productOps : ∀ x ∈ productOps, x.1.inExpr = true := by decide

theorem inner (h : phrase.Derives w) : Inner phrase w := by
  induction h with
  | expr _ ih | disjunction _ ih | conjunction _ ih | denial _ ih | comparison _ ih | sum _ ih
  | product _ ih | negation _ ih | primary _ ih | one _ ih => exact ih
  | cond _ _ _ _ _ ih₁ ih₂ ih₃ =>
    exact List.forall_mem_append.2 ⟨ih₁, List.forall_mem_cons.2 ⟨rfl,
      List.forall_mem_append.2 ⟨ih₂, List.forall_mem_cons.2 ⟨rfl, ih₃⟩⟩⟩⟩
  | or _ _ _ ihl ihr | and _ _ _ ihl ihr | more _ _ _ ihl ihr =>
    exact List.forall_mem_append.2 ⟨ihl, List.forall_mem_cons.2 ⟨rfl, ihr⟩⟩
  | compare _ hop _ _ ihl ihr =>
    exact List.forall_mem_append.2
      ⟨ihl, List.forall_mem_cons.2 ⟨inExpr_of_mem_comparisonOps _ hop, ihr⟩⟩
  | add _ hop _ _ ihl ihr =>
    exact List.forall_mem_append.2 ⟨ihl, List.forall_mem_cons.2 ⟨inExpr_of_mem_sumOps _ hop, ihr⟩⟩
  | mul _ hop _ _ ihl ihr =>
    exact List.forall_mem_append.2
      ⟨ihl, List.forall_mem_cons.2 ⟨inExpr_of_mem_productOps _ hop, ihr⟩⟩
  | not _ _ ih | neg _ _ ih => exact List.forall_mem_cons.2 ⟨rfl, ih⟩
  | member _ _ _ _ ih =>
    exact List.forall_mem_append.2
      ⟨ih, List.forall_mem_cons.2 ⟨rfl, List.forall_mem_singleton.2 rfl⟩⟩
  | methodCall _ _ _ _ _ _ ih ihargs =>
    exact List.forall_mem_append.2 ⟨ih, List.forall_mem_cons.2 ⟨rfl,
      List.forall_mem_cons.2 ⟨rfl, List.forall_mem_cons.2 ⟨rfl, ihargs.of_items rfl⟩⟩⟩⟩
  | index _ _ _ _ ih ihi =>
    refine List.forall_mem_append.2 ⟨ih, List.forall_mem_cons.2 ⟨rfl, ?_⟩⟩
    exact List.forall_mem_append.2 ⟨ihi, List.forall_mem_singleton.2 rfl⟩
  | name => exact List.forall_mem_singleton.2 rfl
  | call _ _ _ _ ih =>
    exact List.forall_mem_cons.2 ⟨rfl, List.forall_mem_cons.2 ⟨rfl, ih.of_items rfl⟩⟩
  | list _ _ ih => exact List.forall_mem_cons.2 ⟨rfl, ih.of_items rfl⟩
  | lit h =>
    have hstart := Token.Kind.startsTerm_of_startsAtom h.startsAtom
    exact List.forall_mem_singleton.2
      (Token.Kind.inExpr_of_startsExpr (Token.Kind.startsExpr_of_startsTerm hstart))
  | parens _ _ _ ih =>
    exact List.forall_mem_cons.2
      ⟨rfl, List.forall_mem_append.2 ⟨ih, List.forall_mem_singleton.2 rfl⟩⟩
  | empty close p => exact ⟨[], p, rfl, by simp⟩
  | closed close p _ ih => exact ⟨_, p, rfl, ih⟩

theorem expr_ne_colon (h : (ExprPhrase.expr e).Derives w) :
    ∀ t ∈ w, t.kind ≠ .symbol .colon := by
  intro t ht heq
  have hin : t.kind.inExpr = true := h.inner t ht
  rw [heq] at hin
  cases hin

theorem expr_ne_eof (h : (ExprPhrase.expr e).Derives w) : ∀ t ∈ w, t.kind ≠ .eof := by
  intro t ht heq
  have hin : t.kind.inExpr = true := h.inner t ht
  rw [heq] at hin
  cases hin

end Derives

end ExprPhrase

/-! ### Statements -/

namespace Token.Kind

/-- Tokens that start a statement. -/
def startsStmt : Kind → Bool
  | keyword k => k ∈ [.pass_, .return_, .if_, .while_, .for_] || (keyword k).startsExpr
  | k => k.startsExpr

theorem startsStmt_of_startsExpr {k : Kind} (h : k.startsExpr = true) : k.startsStmt = true := by
  cases k <;> simp [startsStmt, h]

theorem startsStmt_ne {k : Kind} (h : k.startsStmt = true) :
    k ≠ keyword .elif_ ∧ k ≠ keyword .else_ ∧ k ≠ dedent ∧ k ≠ eof := by
  refine ⟨?_, ?_, ?_, ?_⟩ <;> rintro rfl <;> cases h

end Token.Kind

/-- The next token is neither `elif` nor `else`. -/
def Clear (ts : List Token) : Prop :=
  ∀ t ∈ ts.head?, t.kind ≠ .keyword .elif_ ∧ t.kind ≠ .keyword .else_

/-- The next tokens start no declaration. -/
def Undeclared (ts : List Token) : Prop := Parser.declStart ts = .ok (.other, ts)

theorem TargetsDerive.starts {es : List Expr} {w : List Token} (h : TargetsDerive es w) :
    ∀ t w', w = t :: w' → t.kind.startsExpr = true ∧
      ∃ u w'', w' = u :: w'' ∧ u.kind ≠ .symbol .colon := by
  induction h with
  | nil => nofun
  | @snoc es e w w' p hbefore htarget hnext ih =>
    intro t v hv
    cases w with
    | cons u w =>
      obtain ⟨rfl, rfl⟩ := List.cons.inj hv
      obtain ⟨hu, u', w'', rfl, hu'⟩ := ih _ _ rfl
      exact ⟨hu, u', _, rfl, hu'⟩
    | nil =>
      obtain ⟨u, w'', rfl, hu⟩ := hnext.expr_starts
      obtain ⟨rfl, rfl⟩ := List.cons.inj hv
      refine ⟨hu, ?_⟩
      cases w'' with
      | nil => exact ⟨_, [], rfl, nofun⟩
      | cons u' w'' =>
        exact ⟨u', _, rfl, hnext.expr_ne_colon u' (by simp)⟩

/-- Two tokens that start a statement and not a declaration. -/
theorem undeclared_cons {t u : Token} (ht : t.kind.startsStmt = true)
    (hu : u.kind ≠ .symbol .colon) (ts : List Token) : Undeclared (t :: u :: ts) := by
  obtain ⟨k, p⟩ := t
  obtain ⟨k', q⟩ := u
  unfold Undeclared Parser.declStart
  split
  case h_1 h => exact absurd (by cases h; rfl) hu
  case h_6 => rfl
  all_goals
    rename_i h
    cases h
    cases ht

namespace StmtPhrase.Derives

/-- A statement starts like one, and not like a declaration. -/
theorem stmt_starts {s : Option Stmt} {w : List Token} (h : (stmt s).Derives w) :
    ∃ t u w', w = t :: u :: w' ∧ t.kind.startsStmt = true ∧ u.kind ≠ .symbol .colon := by
  cases h with
  | pass | ret => exact ⟨_, _, [], rfl, rfl, nofun⟩
  | @retValue e w p q he =>
    obtain ⟨t, w', rfl, -⟩ := he.expr_starts
    exact ⟨_, t, _, rfl, rfl, he.expr_ne_colon t (by simp)⟩
  | @expr e t w q he =>
    obtain ⟨t', w', hw, ht⟩ := he.expr_starts
    obtain ⟨rfl, rfl⟩ := List.cons.inj hw
    have ht := Token.Kind.startsStmt_of_startsExpr ht
    cases w with
    | nil => exact ⟨t, _, [], rfl, ht, nofun⟩
    | cons u w =>
      exact ⟨t, u, _, rfl, ht, he.expr_ne_colon u (by simp)⟩
  | @assign es e t w w' q hes he =>
    obtain ⟨ht, u, w'', rfl, hu⟩ := hes.starts t w rfl
    exact ⟨t, u, _, rfl, Token.Kind.startsStmt_of_startsExpr ht, hu⟩
  | @ite c yes no w₁ w₂ w₃ p hc =>
    obtain ⟨t, w', rfl, -⟩ := hc.expr_starts
    exact ⟨_, t, _, rfl, rfl, hc.expr_ne_colon t (by simp)⟩
  | @loop c body w w' p hc =>
    obtain ⟨t, w', rfl, -⟩ := hc.expr_starts
    exact ⟨_, t, _, rfl, rfl, hc.expr_ne_colon t (by simp)⟩
  | each => exact ⟨_, _, _, rfl, rfl, nofun⟩

end StmtPhrase.Derives

/-! ### The end of the input -/

/-- The end of the input is not among the tokens. -/
def Ongoing (w : List Token) : Prop := ∀ t ∈ w, t.kind ≠ .eof

namespace Ongoing

variable {t : Token} {w w' : List Token}

@[simp] theorem nil : Ongoing [] := by rintro t ⟨⟩

@[simp] theorem cons_iff : Ongoing (t :: w) ↔ t.kind ≠ .eof ∧ Ongoing w := List.forall_mem_cons

@[simp] theorem append_iff : Ongoing (w ++ w') ↔ Ongoing w ∧ Ongoing w' :=
  List.forall_mem_append

end Ongoing

theorem TypeExpr.Derives.ongoing {a : TypeExpr} {w : List Token} (h : a.Derives w) :
    Ongoing w := by
  induction h with
  | ident | string => simp
  | list _ _ _ ih => simp [ih]

theorem TypedVar.Derives.ongoing {v : TypedVar} {w : List Token} (h : v.Derives w) :
    Ongoing w := by
  cases h with
  | mk _ _ _ ha => simp [ha.ongoing]

theorem VarDef.Derives.ongoing {d : VarDef} {w : List Token} (h : d.Derives w) : Ongoing w := by
  cases h with
  | mk _ _ hv hl => cases hl <;> simp [hv.ongoing]

theorem ParamsDerive.ongoing {vs : List TypedVar} {w : List Token} (h : ParamsDerive vs w) :
    Ongoing w := by
  induction h with
  | one hv => exact hv.ongoing
  | more _ _ hv ih => simp [ih, hv.ongoing]

theorem TargetsDerive.ongoing {es : List Expr} {w : List Token} (h : TargetsDerive es w) :
    Ongoing w := by
  induction h with
  | nil => simp
  | snoc _ _ _ he ih =>
    have he : Ongoing _ := he.expr_ne_eof
    simp [ih, he]

theorem StmtPhrase.Derives.ongoing {phrase : StmtPhrase} {w : List Token}
    (h : phrase.Derives w) : Ongoing w := by
  induction h with
  | pass | ret | noElse | nil => simp
  | retValue _ _ he =>
    have he : Ongoing _ := he.expr_ne_eof
    simp [he]
  | expr _ he =>
    have he : Ongoing _ := he.expr_ne_eof
    simpa using he
  | assign _ hes he =>
    have hes := hes.ongoing
    have he : Ongoing _ := he.expr_ne_eof
    simpa [he] using hes
  | ite _ hc _ _ ihyes ihno | elif_ _ hc _ _ ihyes ihno =>
    have hc : Ongoing _ := hc.expr_ne_eof
    simp [hc, ihyes, ihno]
  | loop _ hc _ ih | each _ _ _ _ hc _ ih =>
    have hc : Ongoing _ := hc.expr_ne_eof
    simp [hc, ih]
  | else_ _ _ ih | block _ _ _ _ ih => simp [ih]
  | suite _ _ _ ihss ihs | snoc _ _ ihss ihs => simp [ihss, ihs]

theorem ReturnDerives.ongoing {ret? : Option TypeExpr} {w : List Token}
    (h : ReturnDerives ret? w) : Ongoing w := by
  cases h with
  | nothing => simp
  | arrow _ ha => simp [ha.ongoing]

theorem ParametersDerive.ongoing {vs : List TypedVar} {w : List Token}
    (h : ParametersDerive vs w) : Ongoing w := by
  cases h with
  | empty => simp
  | closed _ _ hvs => simp [hvs.ongoing]

theorem FuncPhrase.Derives.ongoing {phrase : FuncPhrase} {w : List Token}
    (h : phrase.Derives w) : Ongoing w := by
  induction h with
  | func _ _ _ _ _ _ hparams hret _ hbody ih =>
    simp [hparams.ongoing, hret.ongoing, hbody.ongoing, ih]
  | var hd => exact hd.ongoing
  | «local» _ ih => exact ih
  | global | «nonlocal» | nil => simp
  | snoc _ _ ihds ihd => simp [ihds, ihd]

theorem MembersDerive.ongoing {ms : List Member} {w : List Token} (h : MembersDerive ms w) :
    Ongoing w := by
  induction h with
  | nil => simp
  | pass _ _ _ ih => simp [ih]
  | attr _ hd ih => simp [ih, hd.ongoing]
  | method _ hf ih => simp [ih, hf.ongoing]

theorem ClassDef.Derives.ongoing {c : ClassDef} {w : List Token} (h : c.Derives w) :
    Ongoing w := by
  cases h with
  | mk _ _ _ _ _ _ _ _ _ _ _ hms => simp [hms.ongoing]

theorem TopDeclsDerive.ongoing {ds : List TopDecl} {w : List Token} (h : TopDeclsDerive ds w) :
    Ongoing w := by
  induction h with
  | nil => simp
  | var _ hd ih => simp [ih, hd.ongoing]
  | func _ hf ih => simp [ih, hf.ongoing]
  | cls _ hc ih => simp [ih, hc.ongoing]

end ChocoRv
