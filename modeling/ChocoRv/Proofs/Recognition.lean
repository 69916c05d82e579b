import ChocoRv.Proofs.Deriving
import ChocoRv.Proofs.Lookahead

/-!
# What the parser recognizes

Whatever the grammar derives, the parser reads: it returns the tree and leaves the tokens after
it, provided that the next token does not go on with the phrase. The bounds on loops and nesting
need not exceed the number of tokens.
-/

namespace ChocoRv

namespace Parser

variable {α β σ : Type} {ts ts' : List Token}

/-! ### Running parsers -/

theorem bind_ok {p : Parser α} {f : α → Parser β} {a : α} (h : p ts = .ok (a, ts')) :
    (p >>= f) ts = f a ts' := by
  change (p ts >>= fun r => f r.1 r.2) = _
  rw [h]
  rfl

theorem of_bind_ok {p : Parser α} {f : α → Parser β} {b : β} (h : (p >>= f) ts = .ok (b, ts')) :
    ∃ a ts₁, p ts = .ok (a, ts₁) ∧ f a ts₁ = .ok (b, ts') := by
  change (p ts >>= fun r => f r.1 r.2) = _ at h
  rcases hp : p ts with e | ⟨a, ts₁⟩
  · rw [hp] at h; cases h
  · rw [hp] at h
    exact ⟨a, ts₁, rfl, h⟩

theorem current_cons (t : Token) : current (t :: ts) = .ok (t, t :: ts) := rfl

theorem advance_cons (t : Token) : advance (t :: ts) = .ok (t, ts) := rfl

theorem identifier_cons (name : Name) (p : Loc) :
    identifier (⟨.identifier name, p⟩ :: ts) = .ok (⟨⟨p, none⟩, name⟩, ts) := rfl

theorem accept_cons (k : Token.Kind) (p : Loc) : accept k (⟨k, p⟩ :: ts) = .ok (true, ts) :=
  if_pos rfl

theorem accept_ne {k : Token.Kind} (h : ∀ t ∈ ts.head?, t.kind ≠ k) :
    accept k ts = .ok (false, ts) := by
  cases ts with
  | nil => rfl
  | cons t ts => exact if_neg (h t rfl)

theorem expect_cons (k : Token.Kind) (c : Complaint) (p : Loc) :
    expect k c (⟨k, p⟩ :: ts) = .ok ((), ts) := by
  rw [expect, bind_ok (accept_cons k p)]
  rfl

theorem endOfLine_cons (p : Loc) : endOfLine (⟨.newline, p⟩ :: ts) = .ok ((), ts) :=
  expect_cons _ _ p

theorem run_cons (k : Token.Kind) (p : Loc) :
    run k (⟨k, p⟩ :: ts) = (run k ts).map fun r => (p :: r.1, r.2) := if_pos rfl

theorem run_ne {k : Token.Kind} (h : ∀ t ∈ ts.head?, t.kind ≠ k) : run k ts = .ok ([], ts) := by
  cases ts with
  | nil => rfl
  | cons t ts => exact if_neg (h t rfl)

theorem run_map (k : Token.Kind) (ps : List Loc) (h : ∀ t ∈ ts.head?, t.kind ≠ k) :
    run k (ps.map (⟨k, ·⟩) ++ ts) = .ok (ps, ts) := by
  induction ps with
  | nil => exact run_ne h
  | cons p ps ih => rw [List.map_cons, List.cons_append, run_cons, ih]; rfl

/-- `f` makes `k` steps from state `s` at `ts` to `s'` at `ts'`. -/
inductive Steps (f : σ → Parser (Option σ)) (s : σ) (ts : List Token) :
    Nat → σ → List Token → Prop
  | refl : Steps f s ts 0 s ts
  | snoc {k : Nat} {s' s'' : σ} {ts' ts'' : List Token} (before : Steps f s ts k s' ts')
      (step : f s' ts' = .ok (some s'', ts'')) : Steps f s ts (k + 1) s'' ts''

namespace Steps

variable {f : σ → Parser (Option σ)} {s s' s₁ : σ} {ts₁ ts'' : List Token} {k : Nat}

theorem cons (step : f s ts = .ok (some s₁, ts₁)) (h : Steps f s₁ ts₁ k s' ts') :
    Steps f s ts (k + 1) s' ts' := by
  induction h with
  | refl => exact .snoc .refl step
  | snoc _ hstep ih => exact .snoc ih hstep

theorem iterate_eq (h : Steps f s ts k s' ts') {n : Nat} (hn : k ≤ n) :
    iterate f n s ts = iterate f (n - k) s' ts' := by
  induction h with
  | refl => rfl
  | @snoc k _ _ _ _ _ hstep ih =>
    have hk : n - k = (n - (k + 1)) + 1 := by omega
    rw [ih (by omega), hk, iterate, bind_ok hstep]

/-- A loop that stops after `k` steps needs a bound above `k`. -/
theorem iterate_ok (h : Steps f s ts k s' ts') (hstop : f s' ts' = .ok (none, ts'')) {n : Nat}
    (hn : k < n) : iterate f n s ts = .ok (s', ts'') := by
  have hk : n - k = (n - k - 1) + 1 := by omega
  rw [h.iterate_eq (Nat.le_of_lt hn), hk, iterate, bind_ok hstop]
  rfl

end Steps

/-- With the tokens `w` and any tokens after them that do not go on with an expression further in
than `r`, the parser returns `a` and moves past `w`. -/
def Recognizes (p : Parser α) (r : Nat) (a : α) (w : List Token) : Prop :=
  ∀ rest, Follow r rest → p (w ++ rest) = .ok (a, rest)

/-! ### Literals, types and variables -/

theorem literalOf?_of_derives {l : Literal} {t : Token} (h : l.Derives t) :
    literalOf? t = some l := by
  cases h <;> rfl

theorem literal_ok {l : Literal} {t : Token} (h : l.Derives t) :
    literal (t :: ts) = .ok (l, ts) := by
  rw [literal, bind_ok (current_cons t), literalOf?_of_derives h]
  rfl

/-- The brackets that open before a class name are closed after it. -/
theorem typeExpr_split {a : TypeExpr} {w : List Token} (h : a.Derives w) :
    ∃ (ps : List Loc) (t : Token) (base : TypeExpr) (closing : List Token),
      w = ps.map (⟨.symbol .openBracket, ·⟩) ++ t :: closing ∧
      t.kind ≠ .symbol .openBracket ∧ (∀ ts, className (t :: ts) = .ok (base, ts)) ∧
      ∀ ts, closeBrackets ps.reverse base (closing ++ ts) = .ok (a, ts) := by
  induction h with
  | ident p name => exact ⟨[], _, _, [], rfl, nofun, fun _ => rfl, fun _ => rfl⟩
  | string p name => exact ⟨[], _, _, [], rfl, nofun, fun _ => rfl, fun _ => rfl⟩
  | @list a w p q _ ih =>
    obtain ⟨ps, t, base, closing, rfl, ht, hbase, hclosing⟩ := ih
    refine ⟨p :: ps, t, base, closing ++ [⟨.symbol .closeBracket, q⟩], by simp, ht, hbase,
      fun ts => ?_⟩
    have hclose : (do
        expect (.symbol .closeBracket) .closeListType
        return .list p a : Parser TypeExpr) (⟨.symbol .closeBracket, q⟩ :: ts) =
          .ok (.list p a, ts) := by
      rw [bind_ok (expect_cons _ _ q)]
      rfl
    rw [List.reverse_cons, closeBrackets, List.foldlM_append, List.append_assoc]
    exact (bind_ok (hclosing _)).trans (bind_ok hclose)

theorem typeExpr_ok {a : TypeExpr} {w : List Token} (h : a.Derives w) (ts : List Token) :
    typeExpr (w ++ ts) = .ok (a, ts) := by
  obtain ⟨ps, t, base, closing, rfl, ht, hbase, hclosing⟩ := typeExpr_split h
  have hne : ∀ t' ∈ (t :: (closing ++ ts)).head?, t'.kind ≠ .symbol .openBracket := by
    rintro t ⟨⟩
    exact ht
  rw [List.append_assoc, List.cons_append, typeExpr, bind_ok (run_map _ ps hne),
    bind_ok (hbase _)]
  exact hclosing ts

theorem typedVar_ok {v : TypedVar} {w : List Token} (h : v.Derives w) (ts : List Token) :
    typedVar (w ++ ts) = .ok (v, ts) := by
  cases h with
  | mk p q name ha =>
    rw [List.cons_append, List.cons_append, typedVar, bind_ok (identifier_cons name p),
      bind_ok (expect_cons _ _ q), bind_ok (typeExpr_ok ha ts)]
    rfl

theorem varDef_ok {d : VarDef} {w : List Token} (h : d.Derives w) (ts : List Token) :
    varDef (w ++ ts) = .ok (d, ts) := by
  cases h with
  | mk p q hv hl =>
    rw [List.append_assoc, varDef, bind_ok (typedVar_ok hv _), List.cons_append,
      bind_ok (expect_cons _ _ p), List.cons_append, bind_ok (literal_ok hl), List.cons_append,
      bind_ok (endOfLine_cons q)]
    rfl

/-! ### Items -/

section Items

variable {n k : Nat} {close : Symbol} {c : Complaint} {item : Parser α} {acc : List α} {a : α}

/-- The next item or the closing symbol. -/
def itemStep (close : Symbol) (c : Complaint) (item : Parser α) (acc : List α) :
    Parser (Option (List α)) := do
  if ← accept (.symbol close) then return none
  unless acc.isEmpty do expect (.symbol .comma) c
  return some ((← item) :: acc)

theorem itemStep_close (p : Loc) :
    itemStep close c item acc (⟨.symbol close, p⟩ :: ts) = .ok (none, ts) := by
  rw [itemStep, bind_ok (accept_cons _ p)]
  rfl

theorem itemStep_first (hts : ∀ t ∈ ts.head?, t.kind ≠ .symbol close)
    (h : item ts = .ok (a, ts')) : itemStep close c item [] ts = .ok (some [a], ts') := by
  rw [itemStep, bind_ok (accept_ne hts)]
  exact bind_ok h

theorem itemStep_next (hclose : close ≠ .comma) (hacc : acc ≠ []) (p : Loc)
    (h : item ts = .ok (a, ts')) :
    itemStep close c item acc (⟨.symbol .comma, p⟩ :: ts) = .ok (some (a :: acc), ts') := by
  have hne : ∀ t ∈ (⟨.symbol .comma, p⟩ :: ts : List Token).head?, t.kind ≠ .symbol close := by
    rintro t ⟨⟩ heq
    exact hclose (Token.Kind.symbol.inj heq).symm
  have hempty : ¬acc.isEmpty = true := fun h => hacc (List.isEmpty_iff.1 h)
  rw [itemStep, bind_ok (accept_ne hne)]
  simp only [Bool.false_eq_true, if_false, hempty]
  rw [bind_ok (expect_cons _ _ p)]
  exact bind_ok h

/-- A list of items ends with the closing symbol. -/
theorem items_ok {p : Loc}
    (h : Steps (itemStep close c item) [] ts k acc (⟨.symbol close, p⟩ :: ts'))
    (hn : k < n) : items n close c item ts = .ok (acc.reverse, ts') := by
  have hloop := h.iterate_ok (itemStep_close p) hn
  exact (bind_ok hloop).trans rfl

end Items

theorem params_steps {vs : List TypedVar} {w : List Token} (h : ParamsDerive vs w)
    (c : Complaint) : vs ≠ [] ∧ vs.length ≤ w.length ∧ ∀ ts,
      Steps (itemStep .closeParen c typedVar) [] (w ++ ts) vs.length vs.reverse ts := by
  induction h with
  | @one v w hv =>
    cases hv with
    | mk p q name ha =>
      refine ⟨by simp, by simp, fun ts => .snoc .refl (itemStep_first ?_ ?_)⟩
      · rintro t ⟨⟩
        nofun
      · exact typedVar_ok (.mk p q name ha) ts
  | @more vs v w w' p hvs hv ih =>
    obtain ⟨hne, hlen, hsteps⟩ := ih
    refine ⟨by simp, by simp; omega, fun ts => ?_⟩
    have hbefore := hsteps (⟨.symbol .comma, p⟩ :: (w' ++ ts))
    have hstep : itemStep .closeParen c typedVar vs.reverse
        (⟨.symbol .comma, p⟩ :: (w' ++ ts)) = .ok (some (v :: vs.reverse), ts) :=
      itemStep_next (by decide) (List.reverse_ne_nil_iff.2 hne) p (typedVar_ok hv ts)
    rw [List.append_assoc, List.length_append, List.reverse_append]
    exact .snoc hbefore hstep

/-! ### Expressions -/

/-- An operand and then steps of `f` give `e`, one token or more for each. -/
def Looped (operand : Parser Expr) (f : Expr → Parser (Option Expr)) (r : Nat) (e : Expr)
    (w : List Token) : Prop :=
  ∀ rest, Follow r rest → ∃ first k ts, operand (w ++ rest) = .ok (first, ts) ∧ k < w.length ∧
    Steps f first ts k e rest

namespace Looped

variable {operand : Parser Expr} {f : Expr → Parser (Option Expr)} {r r' n : Nat} {e l : Expr}
  {w w' : List Token}

theorem first (h : Recognizes operand r e w) (hw : w ≠ []) : Looped operand f r e w :=
  fun rest hrest => ⟨e, 0, rest, h rest hrest, List.length_pos_iff.2 hw, .refl⟩

theorem step (h : Looped operand f r l w) (hw : w' ≠ [])
    (hstep : ∀ rest, Follow r rest →
      Follow r (w' ++ rest) ∧ f l (w' ++ rest) = .ok (some e, rest)) :
    Looped operand f r e (w ++ w') := by
  intro rest hrest
  obtain ⟨hfollow, hf⟩ := hstep rest hrest
  obtain ⟨first, k, ts, hfirst, hk, hsteps⟩ := h (w' ++ rest) hfollow
  have hpos := List.length_pos_iff.2 hw
  refine ⟨first, k + 1, ts, ?_, ?_, hsteps.snoc hf⟩
  · rwa [List.append_assoc]
  · rw [List.length_append]
    omega

/-- The whole loop, when the next token stops it. -/
theorem iterate (h : Looped operand f r e w) (hr : r' ≤ r) (hn : w.length ≤ n)
    (hstop : ∀ rest, Follow r' rest → f e rest = .ok (none, rest)) :
    Recognizes (operand >>= Parser.iterate f n) r' e w := by
  intro rest hrest
  obtain ⟨first, k, ts, hfirst, hk, hsteps⟩ := h rest (hrest.mono hr)
  rw [bind_ok hfirst]
  exact hsteps.iterate_ok (hstop rest hrest) (Nat.lt_of_lt_of_le hk hn)

end Looped

/-- One more operand of a chain of one logical operator. -/
def logicalStep (k : Keyword) (op : BinOp) (operand : Parser Expr) (left : Expr) :
    Parser (Option Expr) := do
  if ← accept (.keyword k) then return some (left.joined op (← operand))
  return none

theorem logicalStep_next {k : Keyword} {op : BinOp} {operand : Parser Expr} {left right : Expr}
    (p : Loc) (h : operand ts = .ok (right, ts')) :
    logicalStep k op operand left (⟨.keyword k, p⟩ :: ts) =
      .ok (some (left.joined op right), ts') := by
  rw [logicalStep, bind_ok (accept_cons _ p)]
  exact bind_ok h

theorem logicalStep_stop {k : Keyword} {op : BinOp} {operand : Parser Expr} {left : Expr} {r : Nat}
    (hk : r < (Token.Kind.keyword k).rank) (h : Follow r ts) :
    logicalStep k op operand left ts = .ok (none, ts) := by
  rw [logicalStep, bind_ok (accept_ne (h.ne hk))]
  rfl

/-- Recognizing a chain of one logical operator. -/
theorem logical_recognizes {k : Keyword} {op : BinOp} {operand : Parser Expr} {n r : Nat}
    {e : Expr} {w : List Token} (hk : (Token.Kind.keyword k).rank = r + 1)
    (h : Looped operand (logicalStep k op operand) (r + 1) e w) (hn : w.length ≤ n) :
    Recognizes (logical n k op operand) r e w :=
  h.iterate (Nat.le_succ r) hn fun _ hrest => logicalStep_stop (by omega) hrest

theorem logical_looped {k : Keyword} {op : BinOp} {operand : Parser Expr} {r : Nat}
    {left right : Expr} {w w' : List Token} (p : Loc) (hk : (Token.Kind.keyword k).rank = r)
    (hleft : Looped operand (logicalStep k op operand) r left w)
    (hright : Recognizes operand r right w') :
    Looped operand (logicalStep k op operand) r (left.joined op right)
      (w ++ ⟨.keyword k, p⟩ :: w') :=
  hleft.step (List.cons_ne_nil _ _) fun rest hrest =>
    ⟨Follow.cons (Nat.le_of_eq hk) _, logicalStep_next p (hright rest hrest)⟩

/-- An operand after any number of operators. -/
def prefixed (k : Token.Kind) (op : UnOp) (operand : Parser Expr) : Parser Expr := do
  let ps ← run k
  return ps.foldr (fun loc e => .unary ⟨loc, none⟩ op e) (← operand)

section Prefixed

variable {k : Token.Kind} {op : UnOp} {operand : Parser Expr} {e : Expr}

theorem prefixed_ne (hts : ∀ t ∈ ts.head?, t.kind ≠ k) (h : operand ts = .ok (e, ts')) :
    prefixed k op operand ts = .ok (e, ts') := by
  rw [prefixed, bind_ok (run_ne hts), bind_ok h]
  rfl

theorem prefixed_cons (p : Loc) (h : prefixed k op operand ts = .ok (e, ts')) :
    prefixed k op operand (⟨k, p⟩ :: ts) = .ok (.unary ⟨p, none⟩ op e, ts') := by
  obtain ⟨ps, ts₁, hrun, h⟩ := of_bind_ok h
  obtain ⟨e', ts₂, hoperand, h⟩ := of_bind_ok h
  cases h
  have hrun' : run k (⟨k, p⟩ :: ts) = .ok (p :: ps, ts₁) := by
    rw [run_cons, hrun]
    rfl
  rw [prefixed, bind_ok hrun', bind_ok hoperand]
  rfl

end Prefixed

theorem negation_eq (n : Nat) (self : Parser Expr) :
    negation n self = prefixed (.symbol .minus) .neg (primary n self) := rfl

theorem denial_eq (n : Nat) (self : Parser Expr) :
    denial n self = prefixed (.keyword .not_) .not (comparison n self) := rfl

/-! Chains of comparisons, sums and products -/

section Chains

variable {n : Nat} {self : Parser Expr}

/-- A term of a chain. -/
def Term (n : Nat) (self : Parser Expr) (e : Expr) (w : List Token) : Prop :=
  w ≠ [] ∧ Recognizes (negation n self) 4 e w

theorem operation_next {state : List (BinOp × Expr) × Bool} {k : Token.Kind} {op : BinOp}
    {e : Expr} (p : Loc) (hop : BinOp.ofKind? k = some op)
    (hone : (op.isComparison && state.2) = false) (h : negation n self ts = .ok (e, ts')) :
    operation n self state (⟨k, p⟩ :: ts) =
      .ok (some ((op, e) :: state.1, state.2 || op.isComparison), ts') := by
  rw [operation, bind_ok (current_cons _)]
  simp only [hop, hone, Bool.false_eq_true, if_false]
  rw [bind_ok (advance_cons _)]
  exact bind_ok h

theorem operation_stop {state : List (BinOp × Expr) × Bool} (h : Follow 3 ts) :
    operation n self state ts = .ok (none, ts) := by
  have hnone : BinOp.ofKind? (ts.headD endToken).kind = none := by
    cases ts with
    | nil => rfl
    | cons t ts => exact Token.Kind.ofKind?_eq_none (h t rfl)
  have hcurrent : current ts = .ok (ts.headD endToken, ts) := rfl
  rw [operation, bind_ok hcurrent]
  simp only [hnone]
  rfl

/-- After a term comes an operator or the end of the chain. -/
theorem follow_of_terms {U : Expr → List Token → Prop} {rest : List (BinOp × Expr)}
    {w : List Token} (h : Terms U rest w) (hts : Follow 3 ts) : Follow 4 (w ++ ts) := by
  cases h with
  | nil => exact hts.mono (Nat.le_succ 3)
  | cons p hop => exact Follow.cons (Nat.le_of_eq (Token.Kind.rank_of_ofKind? hop)) _

/-- Terms and operators are read one after the other if one comparison at most is among them. -/
theorem operation_steps {rest : List (BinOp × Expr)} {w : List Token}
    (h : Terms (Term n self) rest w) : ∀ (state : List (BinOp × Expr) × Bool) (ts : List Token),
    rest.countP (·.1.isComparison) + (if state.2 then 1 else 0) ≤ 1 → Follow 3 ts →
    ∃ flag, Steps (operation n self) state (w ++ ts) rest.length
      (rest.reverse ++ state.1, flag) ts := by
  induction h with
  | nil => exact fun state ts _ _ => ⟨state.2, .refl⟩
  | @cons k op e xs w w' p hop he hxs ih =>
    intro state ts hcount hts
    rw [List.countP_cons] at hcount
    have hone : (op.isComparison && state.2) = false := by
      cases hflag : state.2 <;> cases hc : op.isComparison <;> simp [hflag, hc] at hcount ⊢
    have hread : negation n self (w ++ (w' ++ ts)) = .ok (e, w' ++ ts) :=
      he.2 _ (follow_of_terms hxs hts)
    have hstep := operation_next p hop hone hread
    obtain ⟨flag, hsteps⟩ := ih ((op, e) :: state.1, state.2 || op.isComparison) ts (by
      cases hflag : state.2 <;> cases hc : op.isComparison <;> simp [hflag, hc] at hcount ⊢ <;>
        omega) hts
    refine ⟨flag, ?_⟩
    rw [List.cons_append, List.append_assoc, List.length_cons, List.reverse_cons,
      List.append_assoc]
    exact hsteps.cons hstep

theorem comparison_recognizes {e : Expr} {w : List Token} (hn : w.length ≤ n)
    (h : ∃ first rest w₁ w₂, w = w₁ ++ w₂ ∧ Term n self first w₁ ∧ Terms (Term n self) rest w₂ ∧
      Precedence.Grouped BinOp.priority Expr.joined 0 first rest e ∧
      rest.countP (·.1.isComparison) ≤ 1) : Recognizes (comparison n self) 3 e w := by
  obtain ⟨first, rest, w₁, w₂, rfl, hfirst, hrest, hgroup, hone⟩ := h
  intro ts hts
  obtain ⟨flag, hsteps⟩ := operation_steps hrest ([], false) ts hone hts
  have hpos := List.length_pos_iff.2 hfirst.1
  have hlen := hrest.length_le
  rw [List.length_append] at hn
  have hloop := hsteps.iterate_ok (operation_stop hts) (show rest.length < n by omega)
  rw [List.append_assoc, comparison, bind_ok (hfirst.2 _ (follow_of_terms hrest hts)),
    bind_ok hloop]
  simp only [List.append_nil, List.reverse_reverse]
  rw [hgroup.build_eq]
  rfl

end Chains

/-! Primaries and atoms -/

section Primaries

variable {n : Nat} {self : Parser Expr} {e : Expr}

theorem trailer_stop (h : Follow 4 ts) : trailer n self e ts = .ok (none, ts) := by
  rw [trailer, bind_ok (accept_ne (h.ne (by decide)))]
  simp only [Bool.false_eq_true, if_false]
  rw [bind_ok (accept_ne (h.ne (by decide)))]
  rfl

theorem trailer_member (p q : Loc) (name : Name) (h : Follow 5 ts) :
    trailer n self e (⟨.symbol .dot, p⟩ :: ⟨.identifier name, q⟩ :: ts) =
      .ok (some (.member ⟨e.loc, none⟩ e ⟨⟨q, none⟩, name⟩), ts) := by
  rw [trailer, bind_ok (accept_cons _ p)]
  simp only [if_true]
  rw [bind_ok (identifier_cons name q), bind_ok (accept_ne (h.ne (by decide)))]
  rfl

theorem trailer_methodCall (p q r : Loc) (name : Name) {args : List Expr}
    (h : items n .closeParen .commaOfArgs self ts = .ok (args, ts')) :
    trailer n self e
        (⟨.symbol .dot, p⟩ :: ⟨.identifier name, q⟩ :: ⟨.symbol .openParen, r⟩ :: ts) =
      .ok (some (.methodCall ⟨e.loc, none⟩ ⟨e.loc, none⟩ e ⟨⟨q, none⟩, name⟩ args), ts') := by
  rw [trailer, bind_ok (accept_cons _ p)]
  simp only [if_true]
  rw [bind_ok (identifier_cons name q), bind_ok (accept_cons _ r)]
  simp only [if_true]
  exact bind_ok h

theorem trailer_index (p q : Loc) {i : Expr}
    (h : self ts = .ok (i, ⟨.symbol .closeBracket, q⟩ :: ts')) :
    trailer n self e (⟨.symbol .openBracket, p⟩ :: ts) =
      .ok (some (.index ⟨e.loc, none⟩ e i), ts') := by
  have hdot : ∀ t ∈ (⟨.symbol .openBracket, p⟩ :: ts : List Token).head?,
      t.kind ≠ .symbol .dot := by
    rintro t ⟨⟩
    nofun
  rw [trailer, bind_ok (accept_ne hdot)]
  simp only [Bool.false_eq_true, if_false]
  rw [bind_ok (accept_cons _ p)]
  simp only [if_true]
  rw [bind_ok h, bind_ok (expect_cons _ _ q)]
  rfl

theorem atom_name (p : Loc) (name : Name) (h : Follow 5 ts) :
    atom n self (⟨.identifier name, p⟩ :: ts) = .ok (.name ⟨⟨p, none⟩, name⟩, ts) := by
  rw [atom, bind_ok (current_cons _)]
  simp only
  rw [bind_ok (identifier_cons name p), bind_ok (accept_ne (h.ne (by decide)))]
  rfl

theorem atom_call (p q : Loc) (name : Name) {args : List Expr}
    (h : items n .closeParen .commaOfArgs self ts = .ok (args, ts')) :
    atom n self (⟨.identifier name, p⟩ :: ⟨.symbol .openParen, q⟩ :: ts) =
      .ok (.call ⟨p, none⟩ ⟨⟨p, none⟩, name⟩ args, ts') := by
  rw [atom, bind_ok (current_cons _)]
  simp only
  rw [bind_ok (identifier_cons name p), bind_ok (accept_cons _ q)]
  simp only [if_true]
  exact bind_ok h

theorem atom_list (p : Loc) {es : List Expr}
    (h : items n .closeBracket .commaOfElems self ts = .ok (es, ts')) :
    atom n self (⟨.symbol .openBracket, p⟩ :: ts) = .ok (.list ⟨p, none⟩ es, ts') := by
  rw [atom, bind_ok (current_cons _)]
  simp only
  rw [bind_ok (advance_cons _)]
  exact bind_ok h

theorem atom_parens (p q : Loc) (h : self ts = .ok (e, ⟨.symbol .closeParen, q⟩ :: ts')) :
    atom n self (⟨.symbol .openParen, p⟩ :: ts) = .ok (e, ts') := by
  rw [atom, bind_ok (current_cons _)]
  simp only
  rw [bind_ok (advance_cons _), bind_ok h, bind_ok (expect_cons _ _ q)]
  rfl

theorem atom_lit {l : Literal} {t : Token} (h : l.Derives t) :
    atom n self (t :: ts) = .ok (.lit l, ts) := by
  rw [atom, bind_ok (current_cons t)]
  cases h <;> rfl

end Primaries

/-! Every category -/

/-- A bound on loops and one on nesting are large enough. -/
def Fits (n d : Nat) (w : List Token) : Prop := w.length ≤ n ∧ w.length ≤ d + 1

theorem Fits.mono {n d : Nat} {w w' : List Token} (h : Fits n d w) (hle : w'.length ≤ w.length) :
    Fits n d w' := ⟨Nat.le_trans hle h.1, Nat.le_trans hle h.2⟩

/-- The operands of `or` in a disjunction. -/
abbrev orOperand (n : Nat) (self : Parser Expr) : Parser Expr :=
  logical n .and_ .and (denial n self)

/-- What it means that the parser reads a category: loops are taken apart into their steps, and
chains into their terms. -/
def Recognized : ExprPhrase → List Token → Prop
  | .expr e, w => ∀ d, w.length ≤ d → Recognizes (expression d) 0 e w
  | .disjunction e, w => ∀ n d, Fits n d w →
    Looped (orOperand n (expression d)) (logicalStep .or_ .or (orOperand n (expression d))) 2 e w
  | .conjunction e, w => ∀ n d, Fits n d w →
    Looped (denial n (expression d)) (logicalStep .and_ .and (denial n (expression d))) 3 e w
  | .denial e, w => ∀ n d, Fits n d w → Recognizes (denial n (expression d)) 3 e w
  | .comparison e, w => ∀ n d, Fits n d w → Recognizes (comparison n (expression d)) 3 e w
  | .sum e, w => ∀ n d, Fits n d w → Chain (Term n (expression d)) 2 e w
  | .product e, w => ∀ n d, Fits n d w → Chain (Term n (expression d)) 3 e w
  | .negation e, w => ∀ n d, Fits n d w → Recognizes (negation n (expression d)) 4 e w
  | .primary e, w => ∀ n d, Fits n d w →
    Looped (atom n (expression d)) (trailer n (expression d)) 5 e w
  | .atom e, w => ∀ n d, Fits n d w → Recognizes (atom n (expression d)) 5 e w
  | .elems es, w => ∀ d, w.length ≤ d → ∀ close c, close = .closeParen ∨ close = .closeBracket →
    es ≠ [] ∧ es.length ≤ w.length ∧ ∀ ts, Follow 0 ts →
      Steps (itemStep close c (expression d)) [] (w ++ ts) es.length es.reverse ts
  | .items close es, w => ∀ n d, Fits n d w → ∀ c, close = .closeParen ∨ close = .closeBracket →
    ∀ ts, items n close c (expression d) (w ++ ts) = .ok (es, ts)

theorem ne_close_of_startsExpr {k : Token.Kind} (h : k.startsExpr = true) {close : Symbol}
    (hclose : close = .closeParen ∨ close = .closeBracket) : k ≠ .symbol close := by
  rintro rfl
  rcases hclose with rfl | rfl <;> cases h

theorem rank_close {close : Symbol} (hclose : close = .closeParen ∨ close = .closeBracket) :
    (Token.Kind.symbol close).rank ≤ 0 := by
  rcases hclose with rfl | rfl <;> decide

theorem disjunction_recognizes {e : Expr} {w : List Token} {n d : Nat}
    (h : Recognized (.disjunction e) w) (hfits : Fits n d w) :
    Recognizes (disjunction n (expression d)) 1 e w :=
  logical_recognizes rfl (h n d hfits) hfits.1

theorem recognized {phrase : ExprPhrase} {w : List Token} (h : phrase.Derives w) :
    Recognized phrase w := by
  induction h with
  | @expr e w h ih =>
    intro d hd rest hrest
    obtain ⟨d, rfl⟩ := Nat.exists_eq_add_one_of_ne_zero
      (show d ≠ 0 by have := List.length_pos_iff.2 h.ne_nil; omega)
    have hread := disjunction_recognizes ih ⟨hd, hd⟩ rest (hrest.mono (Nat.zero_le 1))
    rw [expression, conditional, bind_ok hread, bind_ok (accept_ne (hrest.ne (by decide)))]
    rfl
  | @cond yes test no w₁ w₂ w₃ p q h₁ h₂ h₃ ih₁ ih₂ ih₃ =>
    intro d hd rest hrest
    simp only [List.length_append, List.length_cons] at hd
    obtain ⟨d, rfl⟩ := Nat.exists_eq_add_one_of_ne_zero (show d ≠ 0 by omega)
    have hyes := disjunction_recognizes (n := d + 1) (d := d) ih₁ ⟨by omega, by omega⟩
    have htest := disjunction_recognizes (n := d + 1) (d := d) ih₂ ⟨by omega, by omega⟩
    have hno := ih₃ d (by omega) rest hrest
    rw [List.append_assoc, List.cons_append, List.append_assoc, List.cons_append, expression,
      conditional, bind_ok (hyes _ (Follow.cons (by decide) _)), bind_ok (accept_cons _ p)]
    simp only [if_true]
    rw [bind_ok (htest _ (Follow.cons (by decide) _)), bind_ok (expect_cons _ _ q), bind_ok hno]
    rfl
  | disjunction h ih =>
    intro n d hfits
    exact .first (logical_recognizes rfl (ih n d hfits) hfits.1) h.ne_nil
  | @or l r w w' p hl hr ihl ihr =>
    intro n d hfits
    have hright : Fits n d w' := hfits.mono (by simp; omega)
    exact logical_looped p rfl (ihl n d (hfits.mono (by simp)))
      (logical_recognizes rfl (ihr n d hright) hright.1)
  | conjunction h ih => exact fun n d hfits => .first (ih n d hfits) h.ne_nil
  | @and l r w w' p hl hr ihl ihr =>
    intro n d hfits
    exact logical_looped p rfl (ihl n d (hfits.mono (by simp)))
      (ihr n d (hfits.mono (by simp; omega)))
  | @denial e w h ih =>
    intro n d hfits rest hrest
    rw [denial_eq]
    refine prefixed_ne ?_ (ih n d hfits rest hrest)
    obtain ⟨t, w', rfl, ht⟩ := h.starts
    rintro t ⟨⟩
    exact Token.Kind.ne_not_of_startsTerm ht
  | @not e w p h ih =>
    intro n d hfits rest hrest
    rw [denial_eq]
    exact prefixed_cons p (ih n d (hfits.mono (by simp)) rest hrest)
  | @comparison e w h ih =>
    intro n d hfits
    obtain ⟨first, rest, w₁, w₂, hw, hfirst, hrest, hgroup⟩ := ih n d hfits
    refine comparison_recognizes hfits.1
      ⟨first, rest, w₁, w₂, hw, hfirst, hrest, .higher (.higher hgroup), ?_⟩
    rw [countP_isComparison hgroup]
    exact Nat.zero_le 1
  | @compare l r w w' k op p hop hl hr ihl ihr =>
    intro n d hfits
    obtain ⟨hkind, hpriority⟩ := ofKind?_of_mem_comparisonOps _ hop
    refine comparison_recognizes hfits.1 ?_
    exact compare_groups p hkind hpriority (ihl n d (hfits.mono (by simp)))
      (ihr n d (hfits.mono (by simp; omega)))
  | @sum e w h ih => exact fun n d hfits => .higher (ih n d hfits)
  | @add l r w w' k op p hop hl hr ihl ihr =>
    intro n d hfits
    obtain ⟨hkind, hpriority⟩ := ofKind?_of_mem_sumOps _ hop
    exact .op p hkind hpriority (ihl n d (hfits.mono (by simp)))
      (ihr n d (hfits.mono (by simp; omega)))
  | @product e w h ih => exact fun n d hfits => .single ⟨h.ne_nil, ih n d hfits⟩
  | @mul l r w w' k op p hop hl hr ihl ihr =>
    intro n d hfits
    obtain ⟨hkind, hpriority⟩ := ofKind?_of_mem_productOps _ hop
    exact .op p hkind hpriority (ihl n d (hfits.mono (by simp)))
      (.single ⟨hr.ne_nil, ihr n d (hfits.mono (by simp; omega))⟩)
  | @negation e w h ih =>
    intro n d hfits rest hrest
    rw [negation_eq]
    have hread := (ih n d hfits).iterate (Nat.le_succ 4) hfits.1
      (fun rest hrest => trailer_stop hrest) rest hrest
    refine prefixed_ne ?_ hread
    obtain ⟨t, w', rfl, ht⟩ := h.starts
    rintro t ⟨⟩
    exact (Token.Kind.ne_of_startsAtom ht).1
  | @neg e w p h ih =>
    intro n d hfits rest hrest
    rw [negation_eq]
    exact prefixed_cons p (ih n d (hfits.mono (by simp)) rest hrest)
  | primary h ih => exact fun n d hfits => .first (ih n d hfits) h.ne_nil
  | @member e w p q name h ih =>
    intro n d hfits
    exact (ih n d (hfits.mono (by simp))).step (List.cons_ne_nil _ _) fun rest hrest =>
      ⟨Follow.cons (by decide) _, trailer_member p q name hrest⟩
  | @methodCall e args w w' p q r name h hargs ih ihargs =>
    intro n d hfits
    have hread := ihargs n d (hfits.mono (by simp; omega)) .commaOfArgs (.inl rfl)
    exact (ih n d (hfits.mono (by simp))).step (List.cons_ne_nil _ _) fun rest _ =>
      ⟨Follow.cons (by decide) _, trailer_methodCall p q r name (hread rest)⟩
  | @index e i w w' p q h hi ih ihi =>
    intro n d hfits
    have hlen := hfits.2
    simp only [List.length_append, List.length_cons] at hlen
    have hread := ihi d (by omega)
    refine (ih n d (hfits.mono (by simp))).step (List.cons_ne_nil _ _) fun rest _ =>
      ⟨Follow.cons (by decide) _, ?_⟩
    rw [List.cons_append, List.append_assoc]
    exact trailer_index p q (hread _ (Follow.cons (by decide) _))
  | name p name => exact fun n d _ rest hrest => atom_name p name hrest
  | @call args w p q name hargs ih =>
    intro n d hfits rest _
    exact atom_call p q name (ih n d (hfits.mono (by simp; omega)) _ (.inl rfl) rest)
  | lit h => exact fun n d _ rest _ => atom_lit h
  | @list es w p h ih =>
    intro n d hfits rest _
    exact atom_list p (ih n d (hfits.mono (by simp)) _ (.inr rfl) rest)
  | @parens e w p q h ih =>
    intro n d hfits rest _
    have hlen := hfits.2
    simp only [List.length_append, List.length_cons] at hlen
    rw [List.cons_append, List.append_assoc]
    exact atom_parens p q (ih d (by omega) _ (Follow.cons (by decide) _))
  | @one e w h ih =>
    intro d hd close c hclose
    refine ⟨by simp, List.length_pos_iff.2 h.ne_nil, fun ts hts => ?_⟩
    refine .snoc .refl (itemStep_first ?_ (ih d hd ts hts))
    obtain ⟨t, w', rfl, ht⟩ := h.expr_starts
    rintro t ⟨⟩
    exact ne_close_of_startsExpr ht hclose
  | @more es e w w' p hes he ihes ihe =>
    intro d hd close c hclose
    simp only [List.length_append, List.length_cons] at hd
    obtain ⟨hne, hlen, hsteps⟩ := ihes d (by omega) close c hclose
    refine ⟨by simp, by simp; omega, fun ts hts => ?_⟩
    have hbefore := hsteps (⟨.symbol .comma, p⟩ :: (w' ++ ts)) (Follow.cons (by decide) _)
    have hcomma : close ≠ .comma := by
      rcases hclose with rfl | rfl <;> decide
    have hstep : itemStep close c (expression d) es.reverse
        (⟨.symbol .comma, p⟩ :: (w' ++ ts)) = .ok (some (e :: es.reverse), ts) :=
      itemStep_next hcomma (List.reverse_ne_nil_iff.2 hne) p (ihe d (by omega) ts hts)
    rw [List.append_assoc, List.length_append, List.reverse_append]
    exact .snoc hbefore hstep
  | empty close p =>
    intro n d hfits c hclose ts
    exact items_ok (p := p) .refl (Nat.lt_of_succ_le hfits.1)
  | @closed es w close p h ih =>
    intro n d hfits c hclose ts
    have hlen := hfits
    simp only [Fits, List.length_append, List.length_cons, List.length_nil] at hlen
    obtain ⟨-, hes, hsteps⟩ := ih d (by omega) close c hclose
    have hread := hsteps (⟨.symbol close, p⟩ :: ts) (Follow.cons (rank_close hclose) _)
    rw [List.append_assoc]
    have hitems := items_ok (n := n) hread (by omega)
    rwa [List.reverse_reverse] at hitems

end Parser

end ChocoRv
