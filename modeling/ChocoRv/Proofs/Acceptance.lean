import ChocoRv.Proofs.Lexemes
import ChocoRv.Proofs.Lexical
import ChocoRv.Proofs.Recognition

/-!
# The parser and its grammar

The parser accepts a list of tokens exactly if the grammar derives a program from it, and returns
the tree of the derivation. One direction is in what parsers read; the other one goes on here from
expressions to statements, declarations and programs.
-/

namespace ChocoRv

namespace Parser

variable {α : Type} {ts ts' : List Token}

/-- The equation as a predicate on the parser, for case splits on what the parser is. -/
def Returns (p : Parser α) (ts : List Token) (a : α) (ts' : List Token) : Prop :=
  p ts = .ok (a, ts')

theorem Returns.bind {β : Type} {p : Parser α} {f : α → Parser β} {a : α} {b : β}
    {ts₁ : List Token} (hp : p ts = .ok (a, ts₁)) (hf : Returns (f a) ts₁ b ts') :
    Returns (p >>= f) ts b ts' := (bind_ok hp).trans hf

theorem expression_ok {e : Expr} {w : List Token} (h : (ExprPhrase.expr e).Derives w) {d : Nat}
    (hd : w.length ≤ d) (hts : Follow 0 ts) : expression d (w ++ ts) = .ok (e, ts) :=
  recognized h d hd ts hts

/-! ### Simple statements -/

/-- One more expression after an `=`. -/
def assignStep (n : Nat) (acc : List Expr) : Parser (Option (List Expr)) := do
  if ← accept (.symbol .assign) then return some ((← expression n) :: acc)
  return none

theorem assignStep_next {n : Nat} {acc : List Expr} {e : Expr} (p : Loc)
    (h : expression n ts = .ok (e, ts')) :
    assignStep n acc (⟨.symbol .assign, p⟩ :: ts) = .ok (some (e :: acc), ts') := by
  rw [assignStep, bind_ok (accept_cons _ p)]
  exact bind_ok h

theorem assignStep_newline {n : Nat} {acc : List Expr} (p : Loc) :
    assignStep n acc (⟨.newline, p⟩ :: ts) = .ok (none, ⟨.newline, p⟩ :: ts) := by
  have hne : ∀ t ∈ (⟨.newline, p⟩ :: ts : List Token).head?, t.kind ≠ .symbol .assign := by
    rintro t ⟨⟩
    nofun
  rw [assignStep, bind_ok (accept_ne hne)]
  rfl

theorem isTarget_of_mem {es : List Expr} {w : List Token} (h : TargetsDerive es w) :
    ∀ e ∈ es, e.isTarget = true := by
  induction h with
  | nil => simp
  | snoc p _ he _ ih => exact List.forall_mem_append.2 ⟨ih, List.forall_mem_singleton.2 he⟩

/-- Targets and then the value are read one after the other. -/
theorem targets_steps {es : List Expr} {w : List Token} (h : TargetsDerive es w) {d : Nat}
    (hd : w.length ≤ d) : es.length ≤ w.length ∧ ∀ {value : Expr} {ts ts' : List Token},
    expression d ts = .ok (value, ts') → ∃ e ts₁, expression d (w ++ ts) = .ok (e, ts₁) ∧
      Steps (assignStep d) [e] ts₁ es.length (value :: es.reverse) ts' := by
  induction h with
  | nil => exact ⟨Nat.le_refl 0, fun {value ts ts'} hvalue => ⟨value, ts', hvalue, .refl⟩⟩
  | @snoc es target w w' p hes htarget hnext ih =>
    simp only [List.length_append, List.length_cons] at hd
    obtain ⟨hlen, ih⟩ := ih (by omega)
    refine ⟨by simp; omega, fun {value ts ts'} hvalue => ?_⟩
    have hread : expression d (w' ++ ⟨.symbol .assign, p⟩ :: ts) =
        .ok (target, ⟨.symbol .assign, p⟩ :: ts) :=
      expression_ok hnext (by omega) (Follow.cons (by decide) _)
    obtain ⟨e, ts₁, hfirst, hsteps⟩ := ih hread
    refine ⟨e, ts₁, ?_, ?_⟩
    · rw [List.append_assoc, List.append_assoc]
      exact hfirst
    · rw [List.length_append, List.reverse_append]
      exact hsteps.snoc (assignStep_next p hvalue)

section Simple

variable {n : Nat} {e : Expr} {t : Token}

/-- What the expressions of a line make up. -/
def simpleOf (n : Nat) (t : Token) (e : Expr) : Parser (Option Stmt) := do
  match ← assigned n e with
  | [] | [_] => return some (.expr t.loc e)
  | value :: reversed =>
    let targets := reversed.reverse
    match targets.find? (!·.isTarget) with
    | some target => throw (.target target.loc)
    | none => return some (.assign t.loc targets value)

theorem simple_startsExpr {s : Option Stmt} {ts'' : List Token} (ht : t.kind.startsExpr = true)
    (h : expression n (t :: ts) = .ok (e, ts')) (hs : simpleOf n t e ts' = .ok (s, ts'')) :
    simple n (t :: ts) = .ok (s, ts'') := by
  refine Returns.bind (current_cons t) ?_
  split
  · rename_i hk
    rw [hk] at ht
    cases ht
  · rename_i hk
    rw [hk] at ht
    cases ht
  · exact Returns.bind h hs

theorem simpleOf_expr (p : Loc) (hn : 0 < n) : simpleOf n t e (⟨.newline, p⟩ :: ts) =
    .ok (some (.expr t.loc e), ⟨.newline, p⟩ :: ts) := by
  have hloop : assigned n e (⟨.newline, p⟩ :: ts) = .ok ([e], ⟨.newline, p⟩ :: ts) :=
    Steps.refl.iterate_ok (assignStep_newline p) hn
  rw [simpleOf, bind_ok hloop]
  rfl

theorem simpleOf_assign {es : List Expr} {value : Expr} {w : List Token} {k : Nat}
    (hes : TargetsDerive es w) (hne : es ≠ []) (p : Loc)
    (h : Steps (assignStep n) [e] ts k (value :: es.reverse) (⟨.newline, p⟩ :: ts'))
    (hn : k < n) : simpleOf n t e ts =
      .ok (some (.assign t.loc es value), ⟨.newline, p⟩ :: ts') := by
  have hloop : assigned n e ts = .ok (value :: es.reverse, ⟨.newline, p⟩ :: ts') :=
    h.iterate_ok (assignStep_newline p) hn
  have hfind : es.find? (!·.isTarget) = none := by
    refine List.find?_eq_none.2 fun e he => ?_
    simp [isTarget_of_mem hes e he]
  rw [simpleOf, bind_ok hloop]
  cases hrev : es.reverse with
  | nil => exact absurd (List.reverse_eq_nil_iff.1 hrev) hne
  | cons x xs =>
    simp only [← hrev, List.reverse_reverse, hfind]
    rfl

theorem simple_return (p : Loc) (hts : (ts.headD endToken).kind ≠ .newline)
    (h : expression n ts = .ok (e, ts')) :
    simple n (⟨.keyword .return_, p⟩ :: ts) = .ok (some (.ret p (some e)), ts') := by
  have hcurrent : current ts = .ok (ts.headD endToken, ts) := rfl
  refine Returns.bind (current_cons _) (Returns.bind (advance_cons _) (Returns.bind hcurrent ?_))
  split
  · exact absurd ‹_› hts
  · exact Returns.bind h rfl

theorem statementWith_simple {self : Parser (Option Stmt)} {s : Option Stmt} (p : Loc)
    (ht : t.kind.startsExpr = true ∨ t.kind = .keyword .pass_ ∨ t.kind = .keyword .return_)
    (h : simple n (t :: ts) = .ok (s, ⟨.newline, p⟩ :: ts')) :
    statementWith n self (t :: ts) = .ok (s, ts') := by
  have hne : t.kind ≠ .keyword .if_ ∧ t.kind ≠ .keyword .while_ ∧ t.kind ≠ .keyword .for_ := by
    refine ⟨?_, ?_, ?_⟩ <;> intro hk <;> rw [hk] at ht <;>
      rcases ht with ht | ht | ht <;> cases ht
  refine Returns.bind (current_cons t) ?_
  split
  · exact absurd ‹_› hne.1
  · exact absurd ‹_› hne.2.1
  · exact absurd ‹_› hne.2.2
  · exact Returns.bind h (Returns.bind (endOfLine_cons p) rfl)

end Simple

/-! ### Blocks and branches -/

theorem blockStart_ok (p q r : Loc) : blockStart
    (⟨.symbol .colon, p⟩ :: ⟨.newline, q⟩ :: ⟨.indent, r⟩ :: ts) = .ok ((), ts) := by
  rw [blockStart, bind_ok (expect_cons _ _ p), bind_ok (endOfLine_cons q), expect_cons]

/-- The way on after the first branch of an `if` or `elif`. -/
def afterBranch (test : Parser Expr) (body : Parser (List Stmt)) (n : Nat) (t : Token) (c : Expr)
    (yes : List Stmt) : Parser Stmt := do
  match (← current).kind with
  | .keyword .elif_ => return .ite t.loc c yes [← branches test body n]
  | .keyword .else_ =>
    let _ ← advance
    return .ite t.loc c yes (← body)
  | _ => return .ite t.loc c yes []

theorem branches_ok {test : Parser Expr} {body : Parser (List Stmt)} {n : Nat} {t : Token}
    {c : Expr} {yes : List Stmt} {s : Stmt} {ts₁ ts₂ : List Token}
    (hc : test ts = .ok (c, ts₁)) (hyes : body ts₁ = .ok (yes, ts₂))
    (h : afterBranch test body n t c yes ts₂ = .ok (s, ts')) :
    branches test body (n + 1) (t :: ts) = .ok (s, ts') := by
  rw [branches, bind_ok (advance_cons t), bind_ok hc, bind_ok hyes]
  exact h

theorem afterBranch_clear {test : Parser Expr} {body : Parser (List Stmt)} {n : Nat} {t : Token}
    {c : Expr} {yes : List Stmt} (h : Clear ts) :
    afterBranch test body n t c yes ts = .ok (.ite t.loc c yes [], ts) := by
  have hcurrent : current ts = .ok (ts.headD endToken, ts) := rfl
  refine Returns.bind hcurrent ?_
  cases ts with
  | nil => rfl
  | cons u ts =>
    obtain ⟨helif, helse⟩ := h u rfl
    split
    · exact absurd ‹_› helif
    · exact absurd ‹_› helse
    · rfl

theorem blockStep_next {self : Parser (Option Stmt)} {state : List Stmt × Bool} {t : Token}
    {s : Option Stmt} (ht : t.kind.startsStmt = true) (h : self (t :: ts) = .ok (s, ts')) :
    blockStep self state (t :: ts) = .ok (some (s.toList ++ state.1, true), ts') := by
  obtain ⟨-, -, hdedent, heof⟩ := Token.Kind.startsStmt_ne ht
  refine Returns.bind (current_cons t) ?_
  split
  · exact absurd ‹_› hdedent
  · exact absurd ‹_› heof
  · exact Returns.bind h rfl

theorem blockStep_dedent {self : Parser (Option Stmt)} {state : List Stmt × Bool} (p : Loc) :
    blockStep self state (⟨.dedent, p⟩ :: ts) = .ok (none, ⟨.dedent, p⟩ :: ts) := rfl

/-- Statements one after the other with a property of each. -/
inductive Sequence (P : Option Stmt → List Token → Prop) : List Stmt → List Token → Prop
  | nil : Sequence P [] []
  | snoc {ss : List Stmt} {s : Option Stmt} {w w' : List Token} (before : Sequence P ss w)
      (next : P s w') : Sequence P (ss ++ s.toList) (w ++ w')

/-- A statement of the grammar that the parser reads. -/
def StmtRead (s : Option Stmt) (w : List Token) : Prop :=
  (StmtPhrase.stmt s).Derives w ∧
    ∀ d, w.length ≤ d → ∀ rest, Clear rest → statement d (w ++ rest) = .ok (s, rest)

theorem StmtRead.clear {s : Option Stmt} {w : List Token} (h : StmtRead s w) :
    Clear (w ++ ts) := by
  obtain ⟨t, u, w', rfl, ht, -⟩ := h.1.stmt_starts
  rintro t ⟨⟩
  obtain ⟨helif, helse, -⟩ := Token.Kind.startsStmt_ne ht
  exact ⟨helif, helse⟩

theorem StmtRead.two_le {s : Option Stmt} {w : List Token} (h : StmtRead s w) : 2 ≤ w.length := by
  obtain ⟨t, u, w', rfl, -⟩ := h.1.stmt_starts
  simp

/-- A loop that puts each statement before those in its state. -/
theorem sequence_steps {σ : Type} (f : σ → Parser (Option σ)) (put : Option Stmt → σ → σ)
    (held : σ → List Stmt) (start : σ) {d : Nat} (hstart : held start = [])
    (hput : ∀ s state, held (put s state) = s.toList ++ held state)
    (hf : ∀ s w state rest, StmtRead s w → w.length ≤ d → Clear rest →
      f state (w ++ rest) = .ok (some (put s state), rest))
    {ss : List Stmt} {w : List Token} (h : Sequence StmtRead ss w) (hd : w.length ≤ d) :
    ∀ rest, Clear rest → ∃ k state, k ≤ w.length ∧ held state = ss.reverse ∧
      Steps f start (w ++ rest) k state rest := by
  induction h with
  | nil => exact fun rest _ => ⟨0, start, Nat.le_refl 0, hstart, .refl⟩
  | @snoc ss s w w' hss hs ih =>
    intro rest hrest
    rw [List.length_append] at hd
    obtain ⟨k, state, hk, hheld, hsteps⟩ := ih (by omega) (w' ++ rest) hs.clear
    have hlen := hs.two_le
    refine ⟨k + 1, put s state, ?_, ?_, ?_⟩
    · rw [List.length_append]
      omega
    · rw [hput, hheld, ← List.reverse_reverse ss, ← reverse_toList_append,
        List.reverse_reverse, List.reverse_reverse]
    · rw [List.append_assoc]
      exact hsteps.snoc (hf s w' state rest hs (by omega) hrest)

theorem blockStep_read {d : Nat} {s : Option Stmt} {w : List Token} {state : List Stmt × Bool}
    {rest : List Token} (hs : StmtRead s w) (hd : w.length ≤ d) (hrest : Clear rest) :
    blockStep (statement d) state (w ++ rest) = .ok (some (s.toList ++ state.1, true), rest) := by
  have hread := hs.2 d hd rest hrest
  obtain ⟨t, u, w', rfl, ht, -⟩ := hs.1.stmt_starts
  exact blockStep_next ht hread

theorem suite_ok {ss : List Stmt} {s : Option Stmt} {w w' : List Token}
    (hss : Sequence StmtRead ss w) (hs : StmtRead s w') {n d : Nat} (p : Loc)
    (hn : w.length + w'.length ≤ n) (hd : w.length + w'.length ≤ d) :
    statements n (statement d) (w ++ (w' ++ ⟨.dedent, p⟩ :: ts)) =
      .ok (ss ++ s.toList, ts) := by
  have hclear : Clear (⟨.dedent, p⟩ :: ts) := by
    rintro t ⟨⟩
    exact ⟨nofun, nofun⟩
  obtain ⟨k, state, hk, hheld, hsteps⟩ := sequence_steps (blockStep (statement d))
    (fun s state => (s.toList ++ state.1, true)) Prod.fst ([], false) rfl (fun _ _ => rfl)
    (fun _ _ _ _ => blockStep_read) hss (show w.length ≤ d by omega)
    (w' ++ ⟨.dedent, p⟩ :: ts) hs.clear
  have hlen := hs.two_le
  have hloop := (hsteps.snoc (blockStep_read hs (by omega) hclear)).iterate_ok
    (blockStep_dedent p) (show k + 1 < n by omega)
  rw [statements, bind_ok hloop]
  simp only [if_true]
  rw [bind_ok (advance_cons _), hheld, reverse_toList_append, List.reverse_reverse]
  rfl

/-- A block starts with a colon. -/
theorem follow_block {ss : List Stmt} {w : List Token} (h : (StmtPhrase.block ss).Derives w) :
    Follow 0 (w ++ ts) := by
  cases h with
  | block p q r => exact Follow.cons (by decide) _

/-! ### Every statement -/

/-- What it means that the parser reads a category of statements. -/
def StmtRecognized : StmtPhrase → List Token → Prop
  | .stmt s, w => StmtRead s w
  | .stmts ss, w => Sequence StmtRead ss w
  | .suite ss, w => ∀ n d, w.length ≤ n → w.length ≤ d →
    ∀ rest, statements n (statement d) (w ++ rest) = .ok (ss, rest)
  | .block ss, w => ∀ n d, w.length ≤ n → w.length ≤ d →
    ∀ rest, block n (statement d) (w ++ rest) = .ok (ss, rest)
  | .alternative no, w => ∀ n d m, w.length ≤ n → w.length ≤ d → w.length ≤ m →
    ∀ t c yes rest, Clear rest → afterBranch (expression n) (block n (statement d)) m t c yes
      (w ++ rest) = .ok (.ite t.loc c yes no, rest)

/-- A statement needs a bound on its nesting that is not zero. -/
theorem stmtRead_of_succ {s : Option Stmt} {w : List Token}
    (hderives : (StmtPhrase.stmt s).Derives w)
    (h : ∀ d, w.length ≤ d + 1 → ∀ rest, Clear rest →
      statementWith (d + 1) (statement d) (w ++ rest) = .ok (s, rest)) : StmtRead s w := by
  refine ⟨hderives, fun d hd rest hrest => ?_⟩
  cases d with
  | zero =>
    obtain ⟨t, u, w', rfl, -⟩ := hderives.stmt_starts
    simp at hd
  | succ d => exact h d hd rest hrest

theorem stmtRecognized {phrase : StmtPhrase} {w : List Token} (h : phrase.Derives w) :
    StmtRecognized phrase w := by
  induction h with
  | pass p q =>
    refine stmtRead_of_succ (.pass p q) fun d hd rest _ => ?_
    exact statementWith_simple q (.inr (.inl rfl)) rfl
  | ret p q =>
    refine stmtRead_of_succ (.ret p q) fun d hd rest _ => ?_
    exact statementWith_simple q (.inr (.inr rfl)) rfl
  | @retValue e w p q he =>
    refine stmtRead_of_succ (.retValue p q he) fun d hd rest _ => ?_
    simp only [List.length_append, List.length_cons] at hd
    rw [List.cons_append, List.append_assoc]
    refine statementWith_simple q (.inr (.inr rfl)) ?_
    have hread : expression (d + 1) (w ++ ⟨.newline, q⟩ :: rest) =
        .ok (e, ⟨.newline, q⟩ :: rest) :=
      expression_ok he (by omega) (Follow.cons (by decide) _)
    obtain ⟨t, w', rfl, ht⟩ := he.expr_starts
    refine simple_return p (fun hk => ?_) hread
    have hk : t.kind = .newline := hk
    rw [hk] at ht
    cases ht
  | @expr e t w q he =>
    refine stmtRead_of_succ (.expr q he) fun d hd rest _ => ?_
    simp only [List.length_append, List.length_cons] at hd
    obtain ⟨t', w', hw, ht⟩ := he.expr_starts
    obtain ⟨rfl, rfl⟩ := List.cons.inj hw
    have hread : expression (d + 1) (t :: (w ++ ⟨.newline, q⟩ :: rest)) =
        .ok (e, ⟨.newline, q⟩ :: rest) :=
      expression_ok he (by simp; omega) (Follow.cons (by decide) _)
    rw [List.cons_append, List.append_assoc]
    exact statementWith_simple q (.inl ht)
      (simple_startsExpr ht hread (simpleOf_expr q (Nat.succ_pos d)))
  | @assign es e t w w' q hes he =>
    refine stmtRead_of_succ (.assign q hes he) fun d hd rest _ => ?_
    simp only [List.length_append, List.length_cons] at hd
    have hvalue : expression (d + 1) (w' ++ ⟨.newline, q⟩ :: rest) =
        .ok (e, ⟨.newline, q⟩ :: rest) :=
      expression_ok he (by omega) (Follow.cons (by decide) _)
    obtain ⟨hlen, hsteps⟩ := targets_steps (d := d + 1) hes (by simp; omega)
    obtain ⟨first, ts₁, hfirst, hsteps⟩ := hsteps hvalue
    have hne : es ≠ [] := fun h => nomatch hes.eq_nil_iff.1 h
    have ht := (hes.starts t w rfl).1
    simp only [List.length_cons] at hlen
    rw [List.cons_append, List.append_assoc, List.append_assoc]
    exact statementWith_simple q (.inl ht) (simple_startsExpr ht hfirst
      (simpleOf_assign hes hne q hsteps (by omega)))
  | @ite c yes no w₁ w₂ w₃ p hc hyes hno ihyes ihno =>
    refine stmtRead_of_succ (.ite p hc hyes hno) fun d hd rest hrest => ?_
    simp only [List.length_append, List.length_cons] at hd
    have hbranch := branches_ok (t := ⟨.keyword .if_, p⟩)
      (expression_ok hc (show w₁.length ≤ d + 1 by omega) (follow_block hyes))
      (ihyes (d + 1) d (by omega) (by omega) (w₃ ++ rest))
      (ihno (d + 1) d d (by omega) (by omega) (by omega) _ c yes rest hrest)
    rw [List.cons_append, List.append_assoc, List.append_assoc]
    exact Returns.bind (current_cons _) (Returns.bind hbranch rfl)
  | @loop c body w w' p hc hbody ih =>
    refine stmtRead_of_succ (.loop p hc hbody) fun d hd rest _ => ?_
    simp only [List.length_append, List.length_cons] at hd
    have htest : expression (d + 1) (w ++ (w' ++ rest)) = .ok (c, w' ++ rest) :=
      expression_ok hc (by omega) (follow_block hbody)
    have hread := ih (d + 1) d (by omega) (by omega) rest
    rw [List.cons_append, List.append_assoc]
    exact Returns.bind (current_cons _)
      (Returns.bind (advance_cons _) (Returns.bind htest (Returns.bind hread rfl)))
  | @each e body w w' p q r name he hbody ih =>
    refine stmtRead_of_succ (.each p q r name he hbody) fun d hd rest _ => ?_
    simp only [List.length_append, List.length_cons] at hd
    have hiterable : expression (d + 1) (w ++ (w' ++ rest)) = .ok (e, w' ++ rest) :=
      expression_ok he (by omega) (follow_block hbody)
    have hread := ih (d + 1) d (by omega) (by omega) rest
    rw [List.cons_append, List.cons_append, List.cons_append, List.append_assoc]
    exact Returns.bind (current_cons _) (Returns.bind (advance_cons _)
      (Returns.bind (identifier_cons name q) (Returns.bind (expect_cons _ _ r)
        (Returns.bind hiterable (Returns.bind hread rfl)))))
  | noElse => exact fun _ _ _ _ _ _ _ _ _ _ hrest => afterBranch_clear hrest
  | @else_ no w p hno ih =>
    intro n d m hn hd hm t c yes rest _
    simp only [List.length_cons] at hn hd
    have hread := ih n d (by omega) (by omega) rest
    rw [List.cons_append]
    exact Returns.bind (current_cons _) (Returns.bind (advance_cons _) (Returns.bind hread rfl))
  | @elif_ c yes no w₁ w₂ w₃ p hc hyes hno ihyes ihno =>
    intro n d m hn hd hm t c' yes' rest hrest
    simp only [List.length_append, List.length_cons] at hn hd hm
    obtain ⟨m, rfl⟩ := Nat.exists_eq_add_one_of_ne_zero (show m ≠ 0 by omega)
    have hbranch := branches_ok (t := ⟨.keyword .elif_, p⟩)
      (expression_ok hc (show w₁.length ≤ n by omega) (follow_block hyes))
      (ihyes n d (by omega) (by omega) (w₃ ++ rest))
      (ihno n d m (by omega) (by omega) (by omega) _ c yes rest hrest)
    rw [List.cons_append, List.append_assoc, List.append_assoc]
    exact Returns.bind (current_cons _) (Returns.bind hbranch rfl)
  | @block ss w p q r h ih =>
    intro n d hn hd rest
    simp only [List.length_cons] at hn hd
    have hread := ih n d (by omega) (by omega) rest
    rw [List.cons_append, List.cons_append, List.cons_append, Parser.block,
      bind_ok (blockStart_ok p q r)]
    exact hread
  | @suite ss s w w' p hss hs ihss ihs =>
    intro n d hn hd rest
    simp only [List.length_append, List.length_cons] at hn hd
    rw [List.append_assoc, List.append_assoc]
    exact suite_ok ihss ihs p (by omega) (by omega)
  | nil => exact .nil
  | snoc hss hs ihss ihs => exact .snoc ihss ihs

/-! ### Declarations -/

theorem declStart_keyword (start : DeclStart) {k : Keyword} (h : start.keyword? = some k)
    (p : Loc) : declStart (⟨.keyword k, p⟩ :: ts) = .ok (start, ⟨.keyword k, p⟩ :: ts) := by
  cases start <;> cases h <;> rfl

theorem declStart_varDef {d : VarDef} {w : List Token} (h : d.Derives w) :
    declStart (w ++ ts) = .ok (.var, w ++ ts) := by
  cases h with
  | mk p q hv => cases hv; rfl

/-- The next declaration in front of those before. -/
def declStep (decl? : Parser (Option α)) (acc : List α) : Parser (Option (List α)) := do
  return (← decl?).map (· :: acc)

theorem declStep_next {decl? : Parser (Option α)} {acc : List α} {a : α}
    (h : decl? ts = .ok (some a, ts')) : declStep decl? acc ts = .ok (some (a :: acc), ts') :=
  (bind_ok h).trans rfl

theorem declarations_ok {decl? : Parser (Option α)} {acc : List α} {n k : Nat}
    (h : Steps (declStep decl?) [] ts k acc ts') (hstop : decl? ts' = .ok (none, ts'))
    (hn : k < n) : declarations n decl? ts = .ok (acc.reverse, ts') := by
  have hloop := h.iterate_ok ((bind_ok hstop).trans rfl) hn
  exact (bind_ok hloop).trans rfl

/-- After statements of the grammar, and before what starts no declaration, comes none. -/
theorem Sequence.undeclared {ss : List Stmt} {w : List Token} (h : Sequence StmtRead ss w) :
    ∀ ts, Undeclared ts → Undeclared (w ++ ts) := by
  induction h with
  | nil => exact fun ts hts => hts
  | @snoc ss s w w' _ hs ih =>
    intro ts _
    obtain ⟨t, u, w', rfl, ht, hu⟩ := hs.1.stmt_starts
    rw [List.append_assoc]
    exact ih _ (undeclared_cons ht hu _)

theorem suite_undeclared {ss : List Stmt} {w : List Token} (h : (StmtPhrase.suite ss).Derives w) :
    Undeclared (w ++ ts) := by
  cases h with
  | @suite _ s w w' p hss hs =>
    obtain ⟨t, u, w', rfl, ht, hu⟩ := hs.stmt_starts
    rw [List.append_assoc]
    exact Sequence.undeclared (stmtRecognized hss) _ (undeclared_cons ht hu _)

theorem parameters_ok {vs : List TypedVar} {w : List Token} (h : ParametersDerive vs w) {n : Nat}
    (hn : w.length ≤ n) (c : Complaint) : ∃ p w', w = ⟨.symbol .openParen, p⟩ :: w' ∧
      ∀ ts, items n .closeParen c typedVar (w' ++ ts) = .ok (vs, ts) := by
  cases h with
  | empty p q => exact ⟨p, _, rfl, fun ts => items_ok (p := q) .refl (Nat.lt_of_succ_lt hn)⟩
  | @closed _ w p q hvs =>
    obtain ⟨-, hlen, hsteps⟩ := params_steps hvs c
    simp only [List.length_append, List.length_cons, List.length_nil] at hn
    refine ⟨p, _, rfl, fun ts => ?_⟩
    have hitems := items_ok (hsteps (⟨.symbol .closeParen, q⟩ :: ts)) (show vs.length < n by omega)
    rw [List.append_assoc]
    rwa [List.reverse_reverse] at hitems

theorem return_ok {ret? : Option TypeExpr} {w : List Token} (h : ReturnDerives ret? w)
    (hts : ∀ t ∈ ts.head?, t.kind ≠ .symbol .arrow) :
    (do if ← accept (.symbol .arrow) then return some (← typeExpr) else return none :
      Parser (Option TypeExpr)) (w ++ ts) = .ok (ret?, ts) := by
  cases h with
  | nothing => exact (bind_ok (accept_ne hts)).trans rfl
  | arrow p ha =>
    exact (bind_ok (accept_cons _ p)).trans ((bind_ok (typeExpr_ok ha ts)).trans rfl)

theorem localDecl?_undeclared {self : Parser FuncDef} (h : Undeclared ts) :
    localDecl? self ts = .ok (none, ts) := (bind_ok h).trans rfl

/-- What it means that the parser reads functions and their declarations. -/
def FuncRecognized : FuncPhrase → List Token → Prop
  | .func f, w => ∀ d, w.length ≤ d → ∀ rest, funcDef d (w ++ rest) = .ok (f, rest)
  | .decl x, w => w ≠ [] ∧ ∀ d, w.length ≤ d →
    ∀ rest, localDecl? (funcDef d) (w ++ rest) = .ok (some x, rest)
  | .decls ds, w => ∀ d, w.length ≤ d → ds.length ≤ w.length ∧
    ∀ rest, Steps (declStep (localDecl? (funcDef d))) [] (w ++ rest) ds.length ds.reverse rest

theorem funcRecognized {phrase : FuncPhrase} {w : List Token} (h : phrase.Derives w) :
    FuncRecognized phrase w := by
  induction h with
  | @func params ret? ds body w₁ w₂ w₃ w₄ p q r s u name hparams hret hdecls hbody ih =>
    intro d hd rest
    simp only [List.length_append, List.length_cons] at hd
    obtain ⟨d, rfl⟩ := Nat.exists_eq_add_one_of_ne_zero (show d ≠ 0 by omega)
    obtain ⟨p', w₁, rfl, hitems⟩ :=
      parameters_ok hparams (show _ ≤ d + 1 by omega) .commaOfParams
    obtain ⟨hlen, hsteps⟩ := ih d (by omega)
    have harrow : ∀ t ∈ (⟨.symbol .colon, r⟩ :: ⟨.newline, s⟩ :: ⟨.indent, u⟩ ::
        (w₃ ++ (w₄ ++ rest)) : List Token).head?, t.kind ≠ .symbol .arrow := by
      rintro t ⟨⟩
      nofun
    have hds := declarations_ok (n := d + 1) (hsteps (w₄ ++ rest))
      (localDecl?_undeclared (suite_undeclared hbody)) (by omega)
    rw [List.reverse_reverse] at hds
    have hss := stmtRecognized hbody (d + 1) (d + 1) (by omega) (by omega) rest
    simp only [List.cons_append, List.append_assoc]
    rw [funcDef, funcDefWith, bind_ok (advance_cons _), bind_ok (identifier_cons name q),
      bind_ok (expect_cons _ _ p'), bind_ok (hitems _), bind_ok (return_ok hret harrow),
      bind_ok (blockStart_ok r s u), bind_ok hds, bind_ok hss]
    rfl
  | @var x w h =>
    refine ⟨?_, fun d _ rest => ?_⟩
    · cases h
      simp
    · exact Returns.bind (declStart_varDef h) (Returns.bind (varDef_ok h rest) rfl)
  | @«local» f w h ih =>
    refine ⟨?_, fun d hd rest => ?_⟩
    · cases h
      simp
    · have hread := ih d hd rest
      cases h with
      | func p => exact Returns.bind (declStart_keyword .func rfl p) (Returns.bind hread rfl)
  | global p q r name =>
    refine ⟨by simp, fun d hd rest => ?_⟩
    exact Returns.bind (declStart_keyword .global rfl p) (Returns.bind (advance_cons _)
      (Returns.bind (identifier_cons name q) (Returns.bind (endOfLine_cons r) rfl)))
  | «nonlocal» p q r name =>
    refine ⟨by simp, fun d hd rest => ?_⟩
    exact Returns.bind (declStart_keyword .nonlocal rfl p) (Returns.bind (advance_cons _)
      (Returns.bind (identifier_cons name q) (Returns.bind (endOfLine_cons r) rfl)))
  | nil => exact fun d _ => ⟨Nat.le_refl 0, fun rest => .refl⟩
  | @snoc ds x w w' hds hd ihds ihd =>
    intro d hlen
    rw [List.length_append] at hlen
    obtain ⟨hle, hsteps⟩ := ihds d (by omega)
    have hpos := List.length_pos_iff.2 ihd.1
    refine ⟨by simp; omega, fun rest => ?_⟩
    rw [List.append_assoc, List.length_append, List.reverse_append]
    exact (hsteps (w' ++ rest)).snoc (declStep_next (ihd.2 d (by omega) rest))

section Classes

variable {n : Nat} {self : Parser ClassDef} {acc : List Member}

theorem memberStep_dedent (p : Loc) :
    memberStep n self acc (⟨.dedent, p⟩ :: ts) = .ok (none, ts) :=
  Returns.bind (accept_cons _ p) rfl

theorem memberStep_pass (p q : Loc) :
    memberStep n self acc (⟨.keyword .pass_, p⟩ :: ⟨.newline, q⟩ :: ts) = .ok (some acc, ts) := by
  have hdedent : ∀ t ∈ (⟨.keyword .pass_, p⟩ :: ⟨.newline, q⟩ :: ts : List Token).head?,
      t.kind ≠ .dedent := by
    rintro t ⟨⟩
    nofun
  exact Returns.bind (accept_ne hdedent)
    (Returns.bind (accept_cons _ p) (Returns.bind (endOfLine_cons q) rfl))

/-- A member that is no `pass` is told by how its declaration starts. -/
theorem memberStep_decl {start : DeclStart} {m : Member} {t : Token}
    (hdedent : t.kind ≠ .dedent) (hpass : t.kind ≠ .keyword .pass_)
    (hstart : declStart (t :: ts) = .ok (start, t :: ts))
    (h : (start = .var ∧ ∃ d, m = .attr d ∧ varDef (t :: ts) = .ok (d, ts')) ∨
      (start = .func ∧ ∃ f, m = .method f ∧ funcDef n (t :: ts) = .ok (f, ts'))) :
    memberStep n self acc (t :: ts) = .ok (some (m :: acc), ts') := by
  have hne₁ : ∀ u ∈ (t :: ts).head?, u.kind ≠ .dedent := by
    rintro u ⟨⟩
    exact hdedent
  have hne₂ : ∀ u ∈ (t :: ts).head?, u.kind ≠ .keyword .pass_ := by
    rintro u ⟨⟩
    exact hpass
  refine Returns.bind (accept_ne hne₁) (Returns.bind (accept_ne hne₂) (Returns.bind hstart ?_))
  rcases h with ⟨rfl, d, rfl, hd⟩ | ⟨rfl, f, rfl, hf⟩
  · exact Returns.bind hd rfl
  · exact Returns.bind hf rfl

theorem members_steps {ms : List Member} {w : List Token} (h : MembersDerive ms w) :
    w.length ≤ n → ∃ k, k ≤ w.length ∧
      ∀ rest, Steps (memberStep n self) [] (w ++ rest) k ms.reverse rest := by
  induction h with
  | nil => exact fun _ => ⟨0, Nat.le_refl 0, fun _ => .refl⟩
  | pass p q _ ih =>
    intro hn
    simp only [List.length_append, List.length_cons, List.length_nil] at hn
    obtain ⟨k, hk, hsteps⟩ := ih (by omega)
    refine ⟨k + 1, by simp; omega, fun rest => ?_⟩
    rw [List.append_assoc]
    exact (hsteps _).snoc (memberStep_pass p q)
  | @attr ms d w w' _ hd ih =>
    intro hn
    rw [List.length_append] at hn
    obtain ⟨k, hk, hsteps⟩ := ih (by omega)
    have hread (rest : List Token) :
        memberStep n self ms.reverse (w' ++ rest) = .ok (some (.attr d :: ms.reverse), rest) := by
      have hstart : declStart (w' ++ rest) = .ok (.var, w' ++ rest) := declStart_varDef hd
      have hvar := varDef_ok hd rest
      cases hd with
      | mk p q hv =>
        cases hv with
        | mk => exact memberStep_decl nofun nofun hstart (.inl ⟨rfl, _, rfl, hvar⟩)
    have hpos : 0 < w'.length := by
      cases hd
      simp
    refine ⟨k + 1, by simp; omega, fun rest => ?_⟩
    rw [List.append_assoc, List.reverse_append]
    exact (hsteps _).snoc (hread rest)
  | @method ms f w w' _ hf ih =>
    intro hn
    rw [List.length_append] at hn
    obtain ⟨k, hk, hsteps⟩ := ih (by omega)
    have hread (rest : List Token) :
        memberStep n self ms.reverse (w' ++ rest) = .ok (some (.method f :: ms.reverse), rest) := by
      have hfunc := funcRecognized hf n (by omega) rest
      cases hf with
      | func p =>
        exact memberStep_decl nofun nofun (declStart_keyword .func rfl p)
          (.inr ⟨rfl, _, rfl, hfunc⟩)
    have hpos : 0 < w'.length := by
      cases hf
      simp
    refine ⟨k + 1, by simp; omega, fun rest => ?_⟩
    rw [List.append_assoc, List.reverse_append]
    exact (hsteps _).snoc (hread rest)

theorem classDef_ok {c : ClassDef} {w : List Token} (h : c.Derives w) {d : Nat}
    (hd : w.length ≤ d) (rest : List Token) : classDef d (w ++ rest) = .ok (c, rest) := by
  cases h with
  | @mk ms w p q r p₁ p₂ p₃ p₄ p₅ p₆ name super hms =>
    simp only [List.length_append, List.length_cons, List.length_nil] at hd
    obtain ⟨d, rfl⟩ := Nat.exists_eq_add_one_of_ne_zero (show d ≠ 0 by omega)
    obtain ⟨k, hk, hsteps⟩ :=
      members_steps hms (show w.length ≤ d + 1 by omega)
    have hsteps : Steps (memberStep (d + 1) (classDef d)) [] (w ++ ⟨.dedent, p₆⟩ :: rest) k
        ms.reverse (⟨.dedent, p₆⟩ :: rest) := hsteps _
    have hloop := hsteps.iterate_ok (memberStep_dedent p₆) (show k < d + 1 by omega)
    simp only [List.cons_append, List.append_assoc, List.nil_append]
    rw [classDef, classDefWith, bind_ok (advance_cons _), bind_ok (identifier_cons name q),
      bind_ok (expect_cons _ _ p₁), bind_ok (identifier_cons super r),
      bind_ok (expect_cons _ _ p₂), bind_ok (blockStart_ok p₃ p₄ p₅), bind_ok hloop,
      List.reverse_reverse]
    rfl

end Classes

/-! ### Programs -/

theorem topDecls_steps {ds : List TopDecl} {w : List Token} (h : TopDeclsDerive ds w) {n : Nat} :
    w.length ≤ n → ds.length ≤ w.length ∧
      ∀ rest, Steps (declStep (topDecl? n)) [] (w ++ rest) ds.length ds.reverse rest := by
  -- one more declaration is one more step
  have hsnoc {ds : List TopDecl} {d : TopDecl} {w w' : List Token} (hw' : w' ≠ [])
      (ih : ds.length ≤ w.length ∧
        ∀ rest, Steps (declStep (topDecl? n)) [] (w ++ rest) ds.length ds.reverse rest)
      (hd : ∀ rest, topDecl? n (w' ++ rest) = .ok (some d, rest)) :
      (ds ++ [d]).length ≤ (w ++ w').length ∧ ∀ rest,
        Steps (declStep (topDecl? n)) [] (w ++ w' ++ rest) (ds ++ [d]).length
          (ds ++ [d]).reverse rest := by
    have hpos := List.length_pos_iff.2 hw'
    obtain ⟨hlen, hsteps⟩ := ih
    refine ⟨by simp; omega, fun rest => ?_⟩
    rw [List.append_assoc, List.length_append, List.reverse_append]
    exact (hsteps _).snoc (declStep_next (hd rest))
  induction h with
  | nil => exact fun _ => ⟨Nat.le_refl 0, fun _ => .refl⟩
  | @var ds d w w' _ hd ih =>
    intro hn
    rw [List.length_append] at hn
    refine hsnoc ?_ (ih (by omega)) fun rest => ?_
    · cases hd
      simp
    · exact Returns.bind (declStart_varDef hd) (Returns.bind (varDef_ok hd rest) rfl)
  | @func ds f w w' _ hf ih =>
    intro hn
    rw [List.length_append] at hn
    refine hsnoc ?_ (ih (by omega)) fun rest => ?_
    · cases hf
      simp
    · have hread := funcRecognized hf n (by omega) rest
      cases hf with
      | func p => exact Returns.bind (declStart_keyword .func rfl p) (Returns.bind hread rfl)
  | @cls ds c w w' _ hc ih =>
    intro hn
    rw [List.length_append] at hn
    refine hsnoc ?_ (ih (by omega)) fun rest => ?_
    · cases hc
      simp
    · have hread := classDef_ok hc (show w'.length ≤ n by omega) rest
      cases hc with
      | mk p => exact Returns.bind (declStart_keyword .cls rfl p) (Returns.bind hread rfl)

theorem topStep_read {n : Nat} {s : Option Stmt} {w : List Token} {acc : List Stmt}
    {rest : List Token} (hs : StmtRead s w) (hn : w.length ≤ n) (hrest : Clear rest) :
    topStep n acc (w ++ rest) = .ok (some (s.toList ++ acc), rest) := by
  have hread := hs.2 n hn rest hrest
  obtain ⟨t, u, w', rfl, ht, -⟩ := hs.1.stmt_starts
  have heof : t.kind ≠ .eof := (Token.Kind.startsStmt_ne ht).2.2.2
  refine Returns.bind (current_cons t) ?_
  split
  · exact absurd ‹_› heof
  · exact Returns.bind hread rfl

theorem program_ok {p : Program} (h : p.Derives ts) {n : Nat} (hn : ts.length < n) :
    ∃ q, program n ts = .ok (p, [⟨.eof, q⟩]) := by
  cases h with
  | @mk ds ss w w' q hds hss =>
    simp only [List.length_append, List.length_cons, List.length_nil] at hn
    have hclear : Clear [⟨.eof, q⟩] := by
      rintro t ⟨⟩
      exact ⟨nofun, nofun⟩
    have hseq : Sequence StmtRead ss w' := stmtRecognized hss
    obtain ⟨hlen, hsteps⟩ := topDecls_steps (n := n) hds (by omega)
    have hundeclared : Undeclared (w' ++ [⟨.eof, q⟩]) := hseq.undeclared _ rfl
    have hdecls := declarations_ok (hsteps _) ((bind_ok hundeclared).trans rfl)
      (show ds.length < n by omega)
    obtain ⟨k, acc, hk, hheld, hsteps⟩ := sequence_steps (topStep n)
      (fun s acc => s.toList ++ acc) id [] rfl (fun _ _ => rfl) (fun _ _ _ _ => topStep_read) hseq
      (show w'.length ≤ n by omega) [⟨.eof, q⟩] hclear
    have hloop := hsteps.iterate_ok (Returns.bind (current_cons _) rfl) (show k < n by omega)
    have hheld : acc = ss.reverse := hheld
    refine ⟨q, ?_⟩
    rw [program, bind_ok hdecls, bind_ok hloop, List.reverse_reverse, hheld, List.reverse_reverse]
    rfl

end Parser

/-- The end of the input comes once, as the last token. -/
def Ended (ts : List Token) : Prop := ∃ w p, ts = w ++ [⟨.eof, p⟩] ∧ Ongoing w

theorem Program.Derives.ended {p : Program} {ts : List Token} (h : p.Derives ts) : Ended ts := by
  cases h with
  | @mk ds ss w w' q hds hss =>
    exact ⟨w ++ w', q, (List.append_assoc _ _ _).symm, by simp [hds.ongoing, hss.ongoing]⟩

/-- What is read up to the first end of the input is everything. -/
theorem eq_of_append_eq {w w' rest : List Token} {p : Loc} (hw : Ongoing w) (hw' : Ongoing w')
    (h : w ++ [⟨.eof, p⟩] = w' ++ rest) (hrest : (rest.headD Parser.endToken).kind = .eof) :
    rest = [⟨.eof, p⟩] := by
  rcases List.append_eq_append_iff.1 h with ⟨v, rfl, hv⟩ | ⟨v, rfl, rfl⟩
  · cases v with
    | nil => exact hv.symm
    | cons t v =>
      obtain ⟨rfl, -⟩ := List.cons.inj hv
      exact absurd rfl (hw' ⟨.eof, p⟩ (by simp))
  · cases v with
    | nil => rfl
    | cons t v => exact absurd hrest (hw t (by simp))

theorem derives_of_parseTokens {ts : List Token} (h : Ended ts) {p : Program}
    (hparse : parseTokens ts = .ok p) : p.Derives ts := by
  rw [parseTokens] at hparse
  rcases hprog : Parser.program (ts.length + 1) ts with e | ⟨q, rest⟩
  · rw [hprog] at hparse
    cases hparse
  · rw [hprog] at hparse
    cases hparse
    obtain ⟨_, hts, w₁, w₂, rfl, hdecls, hbody, heof⟩ := Parser.reads_program q rest hprog
    obtain ⟨w, p, rfl, hw⟩ := h
    have hrest := eq_of_append_eq hw (by simp [hdecls.ongoing, hbody.ongoing]) hts heof
    rw [hts, hrest, List.append_assoc]
    exact .mk p hdecls hbody

theorem parseTokens_of_derives {ts : List Token} {p : Program} (h : p.Derives ts) :
    parseTokens ts = .ok p := by
  obtain ⟨q, hprog⟩ := Parser.program_ok h (Nat.lt_succ_self _)
  rw [parseTokens, hprog]
  rfl

/-- The parser accepts exactly the grammar, with the tree of the derivation. -/
theorem parseTokens_iff {ts : List Token} (h : Ended ts) {p : Program} :
    parseTokens ts = .ok p ↔ p.Derives ts :=
  ⟨derives_of_parseTokens h, parseTokens_of_derives⟩

/-- The line `x = []`. -/
theorem parseTokens_iff_assign : ∃ ts p, Ended ts ∧ parseTokens ts = .ok p ∧
    p.body.length = 1 ∧ ts.map Token.kind = [.identifier (txt "x"), .symbol .assign,
      .symbol .openBracket, .symbol .closeBracket, .newline, .eof] := by
  have htarget : TargetsDerive [.name ⟨⟨⟨1, 1⟩, none⟩, txt "x"⟩]
      [⟨.identifier (txt "x"), ⟨1, 1⟩⟩, ⟨.symbol .assign, ⟨1, 3⟩⟩] :=
    .snoc ⟨1, 3⟩ .nil rfl (.of_atom (.name ⟨1, 1⟩ (txt "x")))
  have hvalue : (ExprPhrase.expr (.list ⟨⟨1, 5⟩, none⟩ [])).Derives
      [⟨.symbol .openBracket, ⟨1, 5⟩⟩, ⟨.symbol .closeBracket, ⟨1, 6⟩⟩] :=
    .of_atom (.list ⟨1, 5⟩ (.empty .closeBracket ⟨1, 6⟩))
  have hderives := Program.Derives.mk ⟨2, 1⟩ .nil (.snoc .nil (.assign ⟨1, 7⟩ htarget hvalue))
  exact ⟨_, _, hderives.ended, (parseTokens_iff hderives.ended).2 hderives, rfl, rfl⟩

/-- No tokens spell two programs. -/
theorem Program.Derives.unique {p q : Program} {ts : List Token} (hp : p.Derives ts)
    (hq : q.Derives ts) : p = q := by
  have h := (parseTokens_of_derives hp).symm.trans (parseTokens_of_derives hq)
  exact Except.ok.inj h

theorem tokenize_ended {source : Bytes} {ts : List Token} (h : tokenize source = .ok ts) :
    Ended ts := by
  obtain ⟨tokens, stack, loc, k, hlines, rfl⟩ := tokenize_split h
  refine ⟨tokens ++ List.replicate k ⟨.dedent, loc⟩, loc, (List.append_assoc _ _ _).symm, ?_⟩
  refine Ongoing.append_iff.2 ⟨fun t ht => ((Lexer.linesTokens_scanned hlines).1 t ht).2, ?_⟩
  intro t ht
  rw [List.eq_of_mem_replicate ht]
  nofun

/-- A source text is parsed exactly if its tokens spell a program. -/
theorem parse_iff {source : Bytes} {p : Program} :
    parse source = .ok p ↔ ∃ ts, tokenize source = .ok ts ∧ p.Derives ts := by
  rw [parse_eq_ok]
  constructor
  · rintro ⟨ts, htok, hparse⟩
    exact ⟨ts, htok, derives_of_parseTokens (tokenize_ended htok) hparse⟩
  · rintro ⟨ts, htok, h⟩
    exact ⟨ts, htok, parseTokens_of_derives h⟩

end ChocoRv
