import ChocoRv.Parser.Program
import ChocoRv.Proofs.Chains

/-!
# What the parser reads

Whatever the parser returns is derived by the grammar from the tokens that it moved past.
`Parser.Reads` states this for one parser at one place in the tokens; the rules for `bind` and for
loops put the tokens of the parts together.
-/

namespace ChocoRv

namespace Parser

variable {α β σ : Type} {P : α → List Token → List Token → Prop}
  {Q : β → List Token → List Token → Prop} {ts : List Token}

/-- From `ts`, the parser moves past tokens `w` that suit its result and what is left. -/
def Reads (p : Parser α) (ts : List Token) (P : α → List Token → List Token → Prop) : Prop :=
  ∀ a rest, p ts = .ok (a, rest) → ∃ w, ts = w ++ rest ∧ P a w rest

namespace Reads

theorem pure {a : α} (h : P a [] ts) : Reads (pure a) ts P := by
  rintro a' rest ⟨⟩
  exact ⟨[], rfl, h⟩

theorem fail {c : Complaint} : Reads (fail c) ts P := by
  rintro a rest ⟨⟩

theorem throw {e : Error} : Reads (throw e : Parser α) ts P := by
  rintro a rest ⟨⟩

theorem bind {p : Parser α} {f : α → Parser β} (hp : Reads p ts P)
    (hf : ∀ a w rest, P a w rest → Reads (f a) rest fun b w' => Q b (w ++ w')) :
    Reads (p >>= f) ts Q := by
  intro b rest hr
  change (p ts >>= fun r => f r.1 r.2) = _ at hr
  rcases hpts : p ts with e | ⟨a, ts'⟩
  · rw [hpts] at hr; cases hr
  · rw [hpts] at hr
    obtain ⟨w, rfl, ha⟩ := hp a ts' hpts
    obtain ⟨w', rfl, hb⟩ := hf a w ts' ha b rest hr
    exact ⟨w ++ w', by rw [List.append_assoc], hb⟩

theorem mono {P' : α → List Token → List Token → Prop} {p : Parser α} (hp : Reads p ts P)
    (h : ∀ a w rest, P a w rest → P' a w rest) : Reads p ts P' := by
  intro a rest hr
  obtain ⟨w, hw, ha⟩ := hp a rest hr
  exact ⟨w, hw, h a w rest ha⟩

theorem fail_bind {c : Complaint} {f : α → Parser β} : Reads (Parser.fail c >>= f) ts Q := by
  rintro b rest ⟨⟩

/-- Nothing is read where the parser fails afterwards. -/
theorem bind_fail {p : Parser α} {c : Complaint} :
    Reads (p >>= fun _ => Parser.fail c) ts Q := by
  intro b rest hr
  change (p ts >>= fun r => Parser.fail c r.2) = _ at hr
  cases hpts : p ts <;> rw [hpts] at hr <;> cases hr

/-- The tokens are those that the parser moved past and those that are left. -/
theorem here {p : Parser α} (hp : Reads p ts P) :
    Reads p ts fun a w rest => ts = w ++ rest ∧ P a w rest := by
  intro a rest hr
  obtain ⟨w, rfl, ha⟩ := hp a rest hr
  exact ⟨w, rfl, rfl, ha⟩

theorem ite {b : Prop} [Decidable b] {p q : Parser α} (hp : b → Reads p ts P)
    (hq : ¬b → Reads q ts P) : Reads (if b then p else q) ts P := by
  split
  · exact hp ‹_›
  · exact hq ‹_›

end Reads

/-! ### Single tokens -/

theorem reads_current : Reads current ts fun t w rest => w = [] ∧ t = rest.headD endToken := by
  rintro t rest ⟨⟩
  exact ⟨[], rfl, rfl, rfl⟩

theorem reads_advance (t : Token) :
    Reads advance (t :: ts) fun t' w rest => t' = t ∧ w = [t] ∧ rest = ts := by
  rintro t' rest ⟨⟩
  exact ⟨[t], rfl, rfl, rfl, rfl⟩

/-- A token other than the end of the input is really there. -/
theorem cons_of_kind {k : Token.Kind} (h : (ts.headD endToken).kind = k) (hk : k ≠ .eof) :
    ∃ p rest, ts = ⟨k, p⟩ :: rest := by
  cases ts with
  | nil => exact absurd h.symm hk
  | cons t ts =>
    obtain ⟨k', p⟩ := t
    obtain rfl : k' = k := h
    exact ⟨p, ts, rfl⟩

theorem cons_of_ne_eof (h : (ts.headD endToken).kind ≠ .eof) : ∃ t rest, ts = t :: rest := by
  obtain ⟨p, rest, hts⟩ := cons_of_kind rfl h
  exact ⟨_, rest, hts⟩

theorem reads_accept (k : Token.Kind) :
    Reads (accept k) ts fun b w _ => (b = true ∧ ∃ p, w = [⟨k, p⟩]) ∨ (b = false ∧ w = []) := by
  intro b rest hr
  cases ts with
  | nil => cases hr; exact ⟨[], rfl, .inr ⟨rfl, rfl⟩⟩
  | cons t ts =>
    obtain ⟨k', p⟩ := t
    simp only [accept] at hr
    split at hr
    · rename_i hk
      obtain rfl : k' = k := hk
      cases hr
      exact ⟨[⟨k', p⟩], rfl, .inl ⟨rfl, p, rfl⟩⟩
    · cases hr; exact ⟨[], rfl, .inr ⟨rfl, rfl⟩⟩

/-- The two ways on from a token that may be there. -/
theorem reads_acceptIf (k : Token.Kind) {p q : Parser β}
    (hp : ∀ l rest, Reads p rest fun b w => Q b (⟨k, l⟩ :: w)) (hq : ∀ rest, Reads q rest Q) :
    Reads (do if ← accept k then p else q) ts Q := by
  refine (reads_accept k).bind ?_
  rintro b w rest (⟨rfl, l, rfl⟩ | ⟨rfl, rfl⟩)
  · exact .ite (fun _ => hp l rest) (fun h => absurd rfl h)
  · exact .ite (fun h => nomatch h) (fun _ => hq rest)

theorem reads_expect (k : Token.Kind) (c : Complaint) :
    Reads (expect k c) ts fun _ w _ => ∃ p, w = [⟨k, p⟩] := by
  refine (reads_accept k).bind ?_
  rintro b w rest (⟨rfl, p, rfl⟩ | ⟨rfl, rfl⟩)
  · exact .ite (fun _ => .pure ⟨p, rfl⟩) (fun h => absurd rfl h)
  · exact .ite (fun h => nomatch h) (fun _ => .fail)

theorem reads_endOfLine : Reads endOfLine ts fun _ w _ => ∃ p, w = [⟨.newline, p⟩] :=
  reads_expect _ _

theorem reads_identifier : Reads identifier ts fun id w _ =>
    ∃ name p, w = [⟨.identifier name, p⟩] ∧ id = ⟨⟨p, none⟩, name⟩ := by
  intro id rest hr
  unfold identifier at hr
  split at hr
  · rename_i name p ts'
    cases hr
    exact ⟨[⟨.identifier name, p⟩], rfl, name, p, rfl, rfl⟩
  · cases hr

theorem reads_run (k : Token.Kind) :
    Reads (run k) ts fun ps w _ => w = ps.map fun p => ⟨k, p⟩ := by
  induction ts with
  | nil => rintro ps rest ⟨⟩; exact ⟨[], rfl, rfl⟩
  | cons t ts ih =>
    intro ps rest hr
    obtain ⟨k', p⟩ := t
    simp only [run] at hr
    split at hr
    · rename_i hk
      obtain rfl : k' = k := hk
      rcases h : run k' ts with e | ⟨ps', rest'⟩
      · rw [h] at hr; cases hr
      · rw [h] at hr
        cases hr
        obtain ⟨w, rfl, rfl⟩ := ih _ _ h
        exact ⟨_, rfl, rfl⟩
    · cases hr; exact ⟨[], rfl, rfl⟩

/-! ### Loops and lists -/

/-- A loop keeps an invariant on its state and the tokens so far. -/
theorem reads_iterate {I : σ → List Token → Prop} {J : σ → List Token → List Token → Prop}
    {f : σ → Parser (Option σ)}
    (hf : ∀ s w ts, I s w → Reads (f s) ts fun r w' rest =>
      (r = none → J s (w ++ w') rest) ∧ ∀ s', r = some s' → I s' (w ++ w')) :
    ∀ n s w ts, I s w → Reads (iterate f n s) ts fun s' w' rest => J s' (w ++ w') rest
  | 0, _, _, _, _ => .throw
  | n + 1, s, w, ts, hs => by
    rw [iterate]
    refine (hf s w ts hs).bind fun r w' rest ⟨hnone, hsome⟩ => ?_
    cases r with
    | none => exact .pure (by rw [List.append_nil]; exact hnone rfl)
    | some s' =>
      refine (reads_iterate hf n s' (w ++ w') rest (hsome s' rfl)).mono fun s'' w'' _ h => ?_
      rwa [← List.append_assoc]

/-- Items with commas between them and the closing symbol, for whatever the items derive. -/
theorem reads_items {E : List α → List Token → Prop} {P : α → List Token → Prop} {n : Nat}
    {close : Symbol} {c : Complaint} {item : Parser α}
    (hone : ∀ a w, P a w → E [a] w)
    (hmore : ∀ as a w w' p, E as w → P a w' → E (as ++ [a]) (w ++ ⟨.symbol .comma, p⟩ :: w'))
    (hitem : ∀ ts, Reads item ts fun a w _ => P a w) :
    Reads (items n close c item) ts fun as w _ =>
      ∃ p w', w = w' ++ [⟨.symbol close, p⟩] ∧ (as = [] ∧ w' = [] ∨ E as w') := by
  -- the state holds the items before, last first
  refine (reads_iterate (I := fun acc w => acc = [] ∧ w = [] ∨ acc ≠ [] ∧ E acc.reverse w)
    (J := fun acc w _ => ∃ p w', w = w' ++ [⟨.symbol close, p⟩] ∧
      (acc = [] ∧ w' = [] ∨ E acc.reverse w')) ?_ n [] [] ts (.inl ⟨rfl, rfl⟩)).bind ?_
  · intro acc w ts hacc
    refine reads_acceptIf _ (fun p rest => .pure ⟨fun _ => ⟨p, w, rfl, ?_⟩, nofun⟩) fun rest => ?_
    · exact hacc.imp_right And.right
    · refine .ite (fun hempty => ?_) fun hne => ?_
      · obtain rfl : acc = [] := List.isEmpty_iff.1 hempty
        have hw : w = [] := by
          rcases hacc with ⟨-, hw⟩ | ⟨hne, -⟩
          · exact hw
          · exact absurd rfl hne
        subst hw
        refine (hitem rest).bind fun a w' rest' ha => .pure ⟨nofun, ?_⟩
        rintro s ⟨⟩
        exact .inr ⟨by simp, by simpa using hone a w' ha⟩
      · have hE : E acc.reverse w := by
          rcases hacc with ⟨rfl, -⟩ | ⟨-, hE⟩
          · exact absurd rfl hne
          · exact hE
        refine (reads_expect _ _).bind ?_
        rintro _ w₁ rest' ⟨p, rfl⟩
        refine (hitem rest').bind fun a w' rest'' ha => .pure ⟨nofun, ?_⟩
        rintro s ⟨⟩
        exact .inr ⟨by simp, by simpa using hmore _ a w w' p hE ha⟩
  · rintro acc w rest ⟨p, w', rfl, hacc⟩
    refine .pure ⟨p, w', by simp, ?_⟩
    rcases hacc with ⟨rfl, rfl⟩ | hE
    · exact .inl ⟨rfl, rfl⟩
    · exact .inr hE

/-! ### Literals, types and variables -/

theorem derives_of_literalOf? {t : Token} {l : Literal} (h : literalOf? t = some l) :
    l.Derives t := by
  obtain ⟨k, p⟩ := t
  unfold literalOf? at h
  simp only at h
  split at h <;> cases h
  · exact .none_ p
  · exact .true_ p
  · exact .false_ p
  · exact .int p _
  · exact .str p _

/-- The current token when it stands for a literal. -/
theorem cons_of_literalOf? {l : Literal} (h : literalOf? (ts.headD endToken) = some l) :
    ∃ t rest, ts = t :: rest ∧ l.Derives t := by
  cases ts with
  | nil => cases h
  | cons t ts => exact ⟨t, ts, rfl, derives_of_literalOf? h⟩

theorem reads_literal : Reads literal ts fun l w _ => ∃ t, w = [t] ∧ l.Derives t := by
  refine reads_current.bind ?_
  rintro _ _ rest ⟨rfl, rfl⟩
  split
  · rename_i l hl
    obtain ⟨t, rest, rfl, ht⟩ := cons_of_literalOf? hl
    refine (reads_advance t).bind ?_
    rintro _ _ _ ⟨-, rfl, rfl⟩
    exact .pure ⟨t, rfl, ht⟩
  · exact .fail

theorem reads_className : Reads className ts fun a w _ => a.Derives w := by
  intro a rest hr
  unfold className at hr
  split at hr
  · rename_i name p ts'
    cases hr
    exact ⟨[⟨.identifier name, p⟩], rfl, .ident p name⟩
  · rename_i name p ts'
    cases hr
    exact ⟨[⟨.string name, p⟩], rfl, .string p name⟩
  · cases hr

/-- The brackets around a type, closed from the innermost outwards. -/
def closeBrackets (opened : List Loc) (a : TypeExpr) : Parser TypeExpr :=
  opened.foldlM (fun a loc => do
    expect (.symbol .closeBracket) .closeListType
    return .list loc a) a

theorem reads_closeBrackets (opened : List Loc) {a : TypeExpr} {w : List Token}
    (ha : a.Derives w) (ts : List Token) : Reads (closeBrackets opened a) ts fun b w' _ =>
      b.Derives (opened.reverse.map (⟨.symbol .openBracket, ·⟩) ++ (w ++ w')) := by
  induction opened generalizing a w ts with
  | nil => exact .pure (by simpa using ha)
  | cons loc opened ih =>
    rw [closeBrackets, List.foldlM_cons]
    refine Reads.bind (P := fun b w' _ => ∃ q, b = .list loc a ∧ w' = [⟨.symbol .closeBracket, q⟩])
      ?_ ?_
    · refine (reads_expect _ _).bind ?_
      rintro _ _ rest ⟨q, rfl⟩
      exact .pure ⟨q, rfl, rfl⟩
    · rintro _ _ rest ⟨q, rfl, rfl⟩
      exact (ih (.list loc q ha) rest).mono fun b w' _ hb => by simpa using hb

theorem reads_typeExpr : Reads typeExpr ts fun a w _ => a.Derives w := by
  refine (reads_run _).bind ?_
  rintro opened _ rest rfl
  refine reads_className.bind fun base w rest' hbase => ?_
  refine (reads_closeBrackets opened.reverse hbase rest').mono fun a w' _ ha => ?_
  simpa using ha

theorem reads_typedVar : Reads typedVar ts fun v w _ => v.Derives w := by
  refine reads_identifier.bind ?_
  rintro _ _ rest ⟨name, p, rfl, rfl⟩
  refine (reads_expect _ _).bind ?_
  rintro _ _ rest' ⟨q, rfl⟩
  exact reads_typeExpr.bind fun a w _ ha => .pure (by simpa using TypedVar.Derives.mk p q name ha)

theorem reads_varDef : Reads varDef ts fun d w _ => d.Derives w := by
  refine reads_typedVar.bind fun v w rest hv => ?_
  refine (reads_expect _ _).bind ?_
  rintro _ _ rest ⟨p, rfl⟩
  refine reads_literal.bind ?_
  rintro l _ rest ⟨t, rfl, hl⟩
  refine reads_endOfLine.bind ?_
  rintro _ _ rest ⟨q, rfl⟩
  exact .pure (by simpa using VarDef.Derives.mk p q hv hl)

/-! ### Expressions -/

section Expressions

open ExprPhrase

variable {n : Nat} {self : Parser Expr}
  (hself : ∀ ts, Reads self ts fun e w _ => (expr e).Derives w)

include hself

theorem reads_exprItems {close : Symbol} {c : Complaint} :
    Reads (items n close c self) ts fun es w _ => (ExprPhrase.items close es).Derives w := by
  refine (reads_items (E := fun es w => (elems es).Derives w)
    (P := fun e w => (expr e).Derives w) (fun _ _ h => .one h)
    (fun _ _ _ _ p hes he => .more p hes he) hself).mono ?_
  rintro es _ rest ⟨p, w, rfl, ⟨rfl, rfl⟩ | hes⟩
  · exact .empty close p
  · exact .closed close p hes

theorem reads_atom : Reads (Parser.atom n self) ts fun e w _ => (ExprPhrase.atom e).Derives w := by
  refine reads_current.bind ?_
  rintro _ _ rest ⟨rfl, rfl⟩
  split
  · refine reads_identifier.bind ?_
    rintro _ _ rest' ⟨name, p, rfl, rfl⟩
    refine reads_acceptIf _ (fun q rest => ?_) (fun rest => .pure (.name p name))
    refine (reads_exprItems hself).bind fun args w _ hargs => .pure ?_
    simpa [Ident.loc] using Derives.call p q name hargs
  · rename_i hk
    obtain ⟨p, rest, rfl⟩ := cons_of_kind hk nofun
    refine (reads_advance _).bind ?_
    rintro _ _ _ ⟨rfl, rfl, rfl⟩
    refine (reads_exprItems hself).bind fun es w _ hes => .pure ?_
    simpa using Derives.list p hes
  · rename_i hk
    obtain ⟨p, rest, rfl⟩ := cons_of_kind hk nofun
    refine (reads_advance _).bind ?_
    rintro _ _ rest' ⟨-, rfl, -⟩
    refine (hself rest').bind fun e w rest'' he => (reads_expect _ _).bind ?_
    rintro _ _ _ ⟨q, rfl⟩
    exact .pure (by simpa using Derives.parens p q he)
  · split
    · rename_i l hl
      obtain ⟨t, rest, rfl, ht⟩ := cons_of_literalOf? hl
      refine (reads_advance t).bind ?_
      rintro _ _ _ ⟨-, rfl, -⟩
      exact .pure (.lit ht)
    · exact .fail

theorem reads_trailer {e : Expr} {w : List Token} (he : (ExprPhrase.primary e).Derives w) :
    Reads (trailer n self e) ts fun r w' _ =>
      (r = none → w' = []) ∧ ∀ e', r = some e' → (ExprPhrase.primary e').Derives (w ++ w') := by
  refine reads_acceptIf _ (fun p rest => ?_) fun rest => ?_
  · refine reads_identifier.bind ?_
    rintro _ _ rest' ⟨name, q, rfl, rfl⟩
    refine reads_acceptIf _ (fun r rest => ?_) (fun rest => .pure ⟨nofun, ?_⟩)
    · refine (reads_exprItems hself).bind fun args w' _ hargs => .pure ⟨nofun, ?_⟩
      rintro e' ⟨⟩
      simpa using Derives.methodCall p q r name he hargs
    · rintro e' ⟨⟩
      exact .member p q name he
  · refine reads_acceptIf _ (fun p rest => ?_) (fun rest => .pure ⟨fun _ => rfl, nofun⟩)
    refine (hself rest).bind fun i w' rest' hi => (reads_expect _ _).bind ?_
    rintro _ _ _ ⟨q, rfl⟩
    refine .pure ⟨nofun, ?_⟩
    rintro e' ⟨⟩
    simpa using Derives.index p q he hi

theorem reads_primary :
    Reads (Parser.primary n self) ts fun e w _ => (ExprPhrase.primary e).Derives w := by
  refine (reads_atom hself).bind fun a w rest ha => ?_
  refine reads_iterate (I := fun e w => (ExprPhrase.primary e).Derives w)
    (J := fun e w _ => (ExprPhrase.primary e).Derives w) (fun e w ts he => ?_) n a w rest
    (.primary ha)
  refine (reads_trailer hself he).mono fun r w' _ ⟨hnone, hsome⟩ => ⟨fun hr => ?_, hsome⟩
  rw [hnone hr, List.append_nil]
  exact he

omit hself in
/-- Operators before an expression, the first outermost. -/
theorem unary_derives {phrase : Expr → ExprPhrase} {k : Token.Kind} {op : UnOp}
    (hrule : ∀ p e w, (phrase e).Derives w →
      (phrase (.unary ⟨p, none⟩ op e)).Derives (⟨k, p⟩ :: w)) {e : Expr} {w : List Token}
    (he : (phrase e).Derives w) (ps : List Loc) :
    (phrase (ps.foldr (fun loc e => .unary ⟨loc, none⟩ op e) e)).Derives
      (ps.map (⟨k, ·⟩) ++ w) := by
  induction ps with
  | nil => exact he
  | cons p ps ih => exact hrule p _ _ ih

theorem reads_negation :
    Reads (Parser.negation n self) ts fun e w _ => (ExprPhrase.negation e).Derives w := by
  refine (reads_run _).bind ?_
  rintro ps _ rest rfl
  exact (reads_primary hself).bind fun e w _ he =>
    .pure (by simpa using unary_derives (fun p _ _ h => .neg p h) (.negation he) ps)

/-- The state of a chain: the terms so far, last first, and whether a comparison is among them. -/
def Collected (state : List (BinOp × Expr) × Bool) (w : List Token) : Prop :=
  Terms (fun e => (ExprPhrase.negation e).Derives) state.1.reverse w ∧
    state.1.countP (·.1.isComparison) = if state.2 then 1 else 0

theorem reads_operation {state : List (BinOp × Expr) × Bool} {w : List Token}
    (h : Collected state w) : Reads (operation n self state) ts fun r w' _ =>
      (r = none → Collected state (w ++ w')) ∧ ∀ s, r = some s → Collected s (w ++ w') := by
  have ⟨hterms, hcount⟩ := h
  refine reads_current.bind ?_
  rintro _ _ rest ⟨rfl, rfl⟩
  split
  · exact .pure ⟨fun _ => by simpa using h, nofun⟩
  · rename_i op hop
    refine .ite (fun _ => .fail_bind) fun hcmp => ?_
    obtain ⟨t, rest, rfl⟩ := cons_of_ne_eof fun h => by rw [h] at hop; cases hop
    refine (reads_advance _).bind ?_
    rintro _ _ rest' ⟨-, rfl, -⟩
    refine (reads_negation hself).bind fun term w' _ hterm => .pure ⟨nofun, ?_⟩
    rintro s ⟨⟩
    constructor
    · simpa using hterms.append (.cons t.loc hop hterm .nil)
    · rw [List.countP_cons, hcount]
      cases hflag : state.2 <;> cases hc : op.isComparison <;> simp [hflag, hc] at hcmp ⊢

theorem reads_comparison :
    Reads (Parser.comparison n self) ts fun e w _ => (ExprPhrase.comparison e).Derives w := by
  refine (reads_negation hself).bind fun first w rest hfirst => ?_
  have hloop := reads_iterate (I := Collected) (J := fun s w _ => Collected s w)
    (fun _ _ _ h => reads_operation (n := n) hself h) n ([], false) [] rest ⟨.nil, rfl⟩
  refine hloop.bind ?_
  rintro ⟨reversed, flag⟩ w' _ ⟨hterms, hcount⟩
  refine .pure ?_
  rw [List.append_nil]
  refine comparison_derives (Precedence.grouped_build BinOp.priority_le first _) hfirst hterms ?_
  rw [List.countP_reverse, hcount]
  split <;> simp

theorem reads_denial :
    Reads (Parser.denial n self) ts fun e w _ => (ExprPhrase.denial e).Derives w := by
  refine (reads_run _).bind ?_
  rintro ps _ rest rfl
  exact (reads_comparison hself).bind fun e w _ he =>
    .pure (by simpa using unary_derives (fun p _ _ h => .not p h) (.denial he) ps)

omit hself in
/-- A chain of one logical operator, for whatever category the operands have. -/
theorem reads_logical {k : Keyword} {op : BinOp} {operand : Parser Expr}
    {phrase phrase' : Expr → ExprPhrase}
    (hone : ∀ e w, (phrase e).Derives w → (phrase' e).Derives w)
    (hmore : ∀ l r w w' p, (phrase' l).Derives w → (phrase r).Derives w' →
      (phrase' (l.joined op r)).Derives (w ++ ⟨.keyword k, p⟩ :: w'))
    (hoperand : ∀ ts, Reads operand ts fun e w _ => (phrase e).Derives w) :
    Reads (logical n k op operand) ts fun e w _ => (phrase' e).Derives w := by
  refine (hoperand ts).bind fun e w rest he => ?_
  refine reads_iterate (I := fun e w => (phrase' e).Derives w)
    (J := fun e w _ => (phrase' e).Derives w) (fun left w ts hleft => ?_) n e w rest (hone e w he)
  refine reads_acceptIf _ (fun p rest => ?_) (fun rest => .pure ⟨fun _ => ?_, nofun⟩)
  · refine (hoperand rest).bind fun r w' _ hr => .pure ⟨nofun, ?_⟩
    rintro s ⟨⟩
    simpa using hmore left r w w' p hleft hr
  · rwa [List.append_nil]

theorem reads_disjunction :
    Reads (Parser.disjunction n self) ts fun e w _ => (ExprPhrase.disjunction e).Derives w :=
  reads_logical (fun _ _ h => .disjunction h) (fun _ _ _ _ p hl hr => .or p hl hr) fun _ =>
    reads_logical (fun _ _ h => .conjunction h) (fun _ _ _ _ p hl hr => .and p hl hr) fun _ =>
      reads_denial hself

theorem reads_conditional :
    Reads (conditional n self) ts fun e w _ => (ExprPhrase.expr e).Derives w := by
  refine (reads_disjunction hself).bind fun e w rest he => ?_
  refine (reads_accept _).bind ?_
  rintro _ _ rest (⟨rfl, p, rfl⟩ | ⟨rfl, rfl⟩)
  · refine (reads_disjunction hself).bind fun test w' rest htest => (reads_expect _ _).bind ?_
    rintro _ _ rest ⟨q, rfl⟩
    refine (hself rest).bind fun no w'' _ hno => .pure ?_
    simpa using Derives.cond p q he htest hno
  · exact .pure (by simpa using Derives.expr he)

end Expressions

theorem reads_expression : ∀ (n : Nat) (ts : List Token),
    Reads (expression n) ts fun e w _ => (ExprPhrase.expr e).Derives w
  | 0, _ => .throw
  | n + 1, _ => reads_conditional (reads_expression n)

/-! ### Statements -/

section Statements

open ExprPhrase (expr)
open StmtPhrase

theorem reads_blockStart : Reads blockStart ts fun _ w _ =>
    ∃ p q r, w = [⟨.symbol .colon, p⟩, ⟨.newline, q⟩, ⟨.indent, r⟩] := by
  refine (reads_expect _ _).bind ?_
  rintro _ _ rest ⟨p, rfl⟩
  refine reads_endOfLine.bind ?_
  rintro _ _ rest ⟨q, rfl⟩
  refine (reads_expect _ _).mono ?_
  rintro _ _ rest ⟨r, rfl⟩
  exact ⟨p, q, r, rfl⟩

/-- The state of a block: the statements so far, last first, and whether there was one. -/
def Gathered (state : List Stmt × Bool) (w : List Token) : Prop :=
  (stmts state.1.reverse).Derives w ∧ (state.2 = true → ∃ ss s w₁ w₂,
    state.1.reverse = ss ++ s.toList ∧ w = w₁ ++ w₂ ∧ (stmts ss).Derives w₁ ∧ (stmt s).Derives w₂)

theorem reverse_toList_append (s : Option Stmt) (ss : List Stmt) :
    (s.toList ++ ss).reverse = ss.reverse ++ s.toList := by
  cases s <;> simp

variable {n : Nat} {self : Parser (Option Stmt)}
  (hself : ∀ ts, Reads self ts fun s w _ => (stmt s).Derives w)

include hself

theorem reads_blockStep {state : List Stmt × Bool} {w : List Token} (h : Gathered state w) :
    Reads (blockStep self state) ts fun r w' rest =>
      (r = none → Gathered state (w ++ w') ∧ (rest.headD endToken).kind = .dedent) ∧
      ∀ s, r = some s → Gathered s (w ++ w') := by
  refine reads_current.bind ?_
  rintro _ _ rest ⟨rfl, rfl⟩
  split
  · rename_i hk
    exact .pure ⟨fun _ => ⟨by simpa using h, hk⟩, nofun⟩
  · exact .fail
  · refine (hself rest).bind fun s w' _ hs => .pure ⟨nofun, ?_⟩
    rintro state' ⟨⟩
    rw [List.nil_append, List.append_nil]
    exact ⟨by rw [reverse_toList_append]; exact .snoc h.1 hs,
      fun _ => ⟨_, s, w, w', reverse_toList_append s _, rfl, h.1, hs⟩⟩

theorem reads_statements : Reads (statements n self) ts fun ss w _ => (suite ss).Derives w := by
  have hloop := reads_iterate (I := Gathered)
    (J := fun s w rest => Gathered s w ∧ (rest.headD endToken).kind = .dedent)
    (fun _ _ _ h => reads_blockStep hself h) n ([], false) [] ts ⟨.nil, nofun⟩
  refine hloop.bind ?_
  rintro ⟨reversed, any⟩ w rest ⟨hgathered, hk⟩
  refine .ite (fun hany => ?_) fun _ => .fail_bind
  obtain ⟨ss, s, w₁, w₂, hss, hw, hbefore, hs⟩ := hgathered.2 hany
  obtain ⟨p, rest, rfl⟩ := cons_of_kind hk nofun
  refine (reads_advance _).bind ?_
  rintro _ _ _ ⟨-, rfl, -⟩
  refine .pure ?_
  rw [List.nil_append] at hw
  rw [hss, hw]
  simpa using Derives.suite p hbefore hs

theorem reads_block : Reads (block n self) ts fun ss w _ => (StmtPhrase.block ss).Derives w := by
  refine reads_blockStart.bind ?_
  rintro _ _ rest ⟨p, q, r, rfl⟩
  exact (reads_statements hself).mono fun ss w _ h => .block p q r h

omit hself in
/-- An `if` or `elif`, whichever token it starts with. -/
theorem reads_branches {test : Parser Expr} {body : Parser (List Stmt)}
    (htest : ∀ ts, Reads test ts fun e w _ => (expr e).Derives w)
    (hbody : ∀ ts, Reads body ts fun ss w _ => (StmtPhrase.block ss).Derives w) :
    ∀ (n : Nat) (t : Token) (ts : List Token), Reads (branches test body n) (t :: ts)
      fun s w _ => ∃ c yes no w₁ w₂ w₃, s = .ite t.loc c yes no ∧ w = t :: (w₁ ++ (w₂ ++ w₃)) ∧
        (expr c).Derives w₁ ∧ (StmtPhrase.block yes).Derives w₂ ∧ (alternative no).Derives w₃
  | 0, _, _ => .throw
  | n + 1, t, ts => by
    rw [branches]
    refine (reads_advance t).bind ?_
    rintro _ _ _ ⟨rfl, rfl, rfl⟩
    refine (htest _).bind fun c w₁ rest hc => (hbody rest).bind fun yes w₂ rest hyes => ?_
    refine reads_current.bind ?_
    rintro _ _ rest ⟨rfl, rfl⟩
    split
    · rename_i hk
      obtain ⟨p, rest, rfl⟩ := cons_of_kind hk nofun
      refine (reads_branches htest hbody n ⟨_, p⟩ rest).bind ?_
      rintro _ _ _ ⟨c', yes', no', w₃, w₄, w₅, rfl, rfl, hc', hyes', hno'⟩
      refine .pure ⟨c, yes, _, w₁, w₂, _, rfl, ?_, hc, hyes, .elif_ p hc' hyes' hno'⟩
      simp
    · rename_i hk
      obtain ⟨p, rest, rfl⟩ := cons_of_kind hk nofun
      refine (reads_advance _).bind ?_
      rintro _ _ rest' ⟨-, rfl, -⟩
      refine (hbody rest').bind fun no w₃ _ hno => .pure ?_
      refine ⟨c, yes, no, w₁, w₂, _, rfl, ?_, hc, hyes, .else_ p hno⟩
      simp
    · exact .pure ⟨c, yes, [], w₁, w₂, [], rfl, by simp, hc, hyes, .noElse⟩

omit hself in
/-- The expressions between `=` signs: the last one is the value and the others are derived as
targets if they are any. -/
theorem reads_assigned {e : Expr} {w₀ : List Token} (he : (expr e).Derives w₀) :
    Reads (assigned n e) ts fun es w _ => ∃ targets value w₁ w₂, es = value :: targets.reverse ∧
      w₀ ++ w = w₁ ++ w₂ ∧ ((∀ e ∈ targets, e.isTarget = true) → TargetsDerive targets w₁) ∧
      (expr value).Derives w₂ ∧ (targets = [] → value = e) := by
  refine reads_iterate (I := fun es w => ∃ targets value w₁ w₂, es = value :: targets.reverse ∧
      w = w₁ ++ w₂ ∧ ((∀ e ∈ targets, e.isTarget = true) → TargetsDerive targets w₁) ∧
      (expr value).Derives w₂ ∧ (targets = [] → value = e))
    (J := fun es w _ => ∃ targets value w₁ w₂, es = value :: targets.reverse ∧
      w = w₁ ++ w₂ ∧ ((∀ e ∈ targets, e.isTarget = true) → TargetsDerive targets w₁) ∧
      (expr value).Derives w₂ ∧ (targets = [] → value = e)) ?_ n [e] w₀ ts
    ⟨[], e, [], w₀, rfl, rfl, fun _ => .nil, he, fun _ => rfl⟩
  rintro _ _ ts ⟨targets, value, w₁, w₂, rfl, rfl, htargets, hvalue, hfirst⟩
  refine reads_acceptIf _ (fun p rest => ?_) (fun rest => .pure ⟨fun _ => ?_, nofun⟩)
  · refine (reads_expression n rest).bind fun e' w' _ he' => .pure ⟨nofun, ?_⟩
    rintro s ⟨⟩
    refine ⟨targets ++ [value], e', w₁ ++ (w₂ ++ [⟨.symbol .assign, p⟩]), w', by simp, by simp,
      fun hall => ?_, he', by simp⟩
    exact .snoc p (htargets fun e h => hall e (by simp [h])) (hall value (by simp)) hvalue
  · exact ⟨targets, value, w₁, w₂, rfl, by simp, htargets, hvalue, hfirst⟩

omit hself in
/-- A simple statement is a statement once the line ends. -/
theorem reads_simple : Reads (simple n) ts fun s w _ =>
    ∀ q, (stmt s).Derives (w ++ [⟨.newline, q⟩]) := by
  refine reads_current.bind ?_
  rintro _ _ rest ⟨rfl, rfl⟩
  split
  · rename_i hk
    obtain ⟨p, rest, rfl⟩ := cons_of_kind hk nofun
    refine (reads_advance _).bind ?_
    rintro _ _ _ ⟨-, rfl, -⟩
    exact .pure fun q => .pass p q
  · rename_i hk
    obtain ⟨p, rest, rfl⟩ := cons_of_kind hk nofun
    refine (reads_advance _).bind ?_
    rintro _ _ _ ⟨-, rfl, -⟩
    refine reads_current.bind ?_
    rintro _ _ rest ⟨rfl, rfl⟩
    refine .ite (fun _ => .pure fun q => .ret p q) fun _ => ?_
    refine (reads_expression n rest).bind fun e w _ he => .pure fun q => ?_
    simpa using Derives.retValue p q he
  · refine (reads_expression n rest).here.bind ?_
    rintro e w₀ rest' ⟨rfl, he⟩
    obtain ⟨t, w₀', rfl⟩ := List.exists_cons_of_ne_nil he.ne_nil
    refine (reads_assigned he).bind ?_
    rintro _ w _ ⟨targets, value, w₁, w₂, rfl, hw, htargets, hvalue, hfirst⟩
    -- one expression, or targets and a value
    cases hrev : targets.reverse with
    | nil =>
      obtain rfl := List.reverse_eq_nil_iff.1 hrev
      obtain rfl := (htargets nofun).eq_nil_iff.1 rfl
      obtain rfl := hfirst rfl
      refine .pure fun q => ?_
      rw [List.nil_append] at hw
      rw [← hw] at hvalue
      simpa using Derives.expr q hvalue
    | cons x xs =>
      simp only [← hrev, List.reverse_reverse]
      split
      · exact .throw
      · rename_i hfind
        have hall : ∀ e ∈ targets, e.isTarget = true := fun e h => by
          simpa using List.find?_eq_none.1 hfind e h
        have htargets := htargets hall
        have hne : w₁ ≠ [] := fun h => by
          rw [htargets.eq_nil_iff.2 h] at hrev
          cases hrev
        obtain ⟨t', w₁', rfl⟩ := List.exists_cons_of_ne_nil hne
        obtain ⟨rfl, hw⟩ := List.cons.inj hw
        refine .pure fun q => ?_
        rw [List.append_nil, List.cons_append, hw]
        simpa using Derives.assign q htargets hvalue

theorem reads_statementWith : Reads (statementWith n self) ts fun s w _ => (stmt s).Derives w := by
  have hblock (ts : List Token) :
      Reads (block n self) ts fun ss w _ => (StmtPhrase.block ss).Derives w := reads_block hself
  refine reads_current.bind ?_
  rintro _ _ rest ⟨rfl, rfl⟩
  split
  · rename_i hk
    obtain ⟨p, rest, rfl⟩ := cons_of_kind hk nofun
    refine (reads_branches (reads_expression n) hblock n _ rest).bind ?_
    rintro _ _ _ ⟨c, yes, no, w₁, w₂, w₃, rfl, rfl, hc, hyes, hno⟩
    exact .pure (by simpa using Derives.ite p hc hyes hno)
  · rename_i hk
    obtain ⟨p, rest, rfl⟩ := cons_of_kind hk nofun
    refine (reads_advance _).bind ?_
    rintro _ _ rest' ⟨-, rfl, -⟩
    refine (reads_expression n rest').bind fun c w rest hc => ?_
    refine (hblock rest).bind fun body w' _ hb => ?_
    exact .pure (by simpa using Derives.loop p hc hb)
  · rename_i hk
    obtain ⟨p, rest, rfl⟩ := cons_of_kind hk nofun
    refine (reads_advance _).bind ?_
    rintro _ _ rest' ⟨-, rfl, -⟩
    refine reads_identifier.bind ?_
    rintro _ _ rest' ⟨name, q, rfl, rfl⟩
    refine (reads_expect _ _).bind ?_
    rintro _ _ rest' ⟨r, rfl⟩
    refine (reads_expression n rest').bind fun e w rest he => ?_
    refine (hblock rest).bind fun body w' _ hb => ?_
    exact .pure (by simpa using Derives.each p q r name he hb)
  · refine reads_simple.bind fun s w rest hs => reads_endOfLine.bind ?_
    rintro _ _ _ ⟨q, rfl⟩
    exact .pure (by simpa using hs q)

end Statements

theorem reads_statement : ∀ (n : Nat) (ts : List Token),
    Reads (statement n) ts fun s w _ => (StmtPhrase.stmt s).Derives w
  | 0, _ => .throw
  | n + 1, _ => reads_statementWith (reads_statement n)

/-! ### Declarations -/

/-- The token that a kind of declaration starts with, where it is one token. -/
def DeclStart.keyword? : DeclStart → Option Keyword
  | func => some .def_
  | cls => some .class_
  | global => some .global_
  | «nonlocal» => some .nonlocal_
  | var | other => none

theorem reads_declStart : Reads declStart ts fun d w rest =>
    w = [] ∧ ∀ k, d.keyword? = some k → ∃ p ts', rest = ⟨.keyword k, p⟩ :: ts' := by
  intro d rest hr
  unfold declStart at hr
  split at hr <;> cases hr <;> refine ⟨[], rfl, rfl, ?_⟩ <;> rintro k ⟨⟩ <;> exact ⟨_, _, rfl⟩

/-- Declarations as long as there are any, for whatever they derive. -/
theorem reads_declarations {D : List α → List Token → Prop} {P : α → List Token → Prop} {n : Nat}
    {decl? : Parser (Option α)} (hnil : D [] [])
    (hsnoc : ∀ as a w w', D as w → P a w' → D (as ++ [a]) (w ++ w'))
    (hdecl : ∀ ts, Reads decl? ts fun r w _ => (r = none → w = []) ∧ ∀ a, r = some a → P a w) :
    Reads (declarations n decl?) ts fun as w _ => D as w := by
  have hloop := reads_iterate (I := fun acc w => D acc.reverse w)
    (J := fun acc w _ => D acc.reverse w) (f := fun acc => return (← decl?).map (· :: acc))
    ?_ n [] [] ts hnil
  · refine hloop.bind fun acc w _ h => .pure ?_
    simpa using h
  · intro acc w ts hacc
    refine (hdecl ts).bind fun r w' _ ⟨hnone, hsome⟩ => .pure ?_
    cases r with
    | none =>
      refine ⟨fun _ => ?_, nofun⟩
      rw [hnone rfl]
      simpa using hacc
    | some a =>
      refine ⟨nofun, ?_⟩
      rintro s ⟨⟩
      simpa using hsnoc _ a w w' hacc (hsome a rfl)

section Functions

open FuncPhrase

variable {n : Nat} {self : Parser FuncDef}
  (hself : ∀ p ts, Reads self (⟨.keyword .def_, p⟩ :: ts) fun f w _ => (func f).Derives w)

include hself

theorem reads_localDecl? : Reads (localDecl? self) ts fun r w _ =>
    (r = none → w = []) ∧ ∀ d, r = some d → (decl d).Derives w := by
  refine reads_declStart.bind ?_
  rintro start _ rest ⟨rfl, hstart⟩
  split
  · refine reads_varDef.bind fun d w _ hd => .pure ⟨nofun, ?_⟩
    rintro _ ⟨⟩
    simpa using Derives.var hd
  · obtain ⟨p, rest, rfl⟩ := hstart _ rfl
    refine (hself p rest).bind fun f w _ hf => .pure ⟨nofun, ?_⟩
    rintro _ ⟨⟩
    simpa using Derives.local hf
  · obtain ⟨p, rest, rfl⟩ := hstart _ rfl
    refine (reads_advance _).bind ?_
    rintro _ _ _ ⟨rfl, rfl, rfl⟩
    refine reads_identifier.bind ?_
    rintro _ _ rest ⟨name, q, rfl, rfl⟩
    refine reads_endOfLine.bind ?_
    rintro _ _ rest ⟨r, rfl⟩
    refine .pure ⟨nofun, ?_⟩
    rintro _ ⟨⟩
    exact .global p q r name
  · obtain ⟨p, rest, rfl⟩ := hstart _ rfl
    refine (reads_advance _).bind ?_
    rintro _ _ _ ⟨rfl, rfl, rfl⟩
    refine reads_identifier.bind ?_
    rintro _ _ rest ⟨name, q, rfl, rfl⟩
    refine reads_endOfLine.bind ?_
    rintro _ _ rest ⟨r, rfl⟩
    refine .pure ⟨nofun, ?_⟩
    rintro _ ⟨⟩
    exact .nonlocal p q r name
  · exact .pure ⟨fun _ => rfl, nofun⟩
  · exact .pure ⟨fun _ => rfl, nofun⟩

omit hself in
theorem reads_params {c : Complaint} : Reads (items n .closeParen c typedVar) ts fun vs w _ =>
    ∀ p, ParametersDerive vs (⟨.symbol .openParen, p⟩ :: w) := by
  refine (reads_items (E := ParamsDerive) (P := TypedVar.Derives) (fun _ _ h => .one h)
    (fun _ _ _ _ p hvs hv => .more p hvs hv) fun _ => reads_typedVar).mono ?_
  rintro vs _ rest ⟨q, w, rfl, ⟨rfl, rfl⟩ | hvs⟩ p
  · exact .empty p q
  · exact .closed p q hvs

omit hself in
theorem reads_return {k : Option TypeExpr → Parser β} {Q : β → List Token → List Token → Prop}
    (hk : ∀ ret? w rest, ReturnDerives ret? w → Reads (k ret?) rest fun b w' => Q b (w ++ w')) :
    Reads (do
      let ret? ← (do if ← accept (.symbol .arrow) then return some (← typeExpr) else return none)
      k ret?) ts Q := by
  refine Reads.bind (P := fun ret? w _ => ReturnDerives ret? w) ?_ hk
  refine reads_acceptIf _ (fun p rest => ?_) (fun rest => .pure .nothing)
  exact reads_typeExpr.bind fun a w _ ha => .pure (by simpa using ReturnDerives.arrow p ha)

theorem reads_funcDefWith (p : Loc) (ts : List Token) :
    Reads (funcDefWith n self) (⟨.keyword .def_, p⟩ :: ts) fun f w _ => (func f).Derives w := by
  refine (reads_advance _).bind ?_
  rintro _ _ _ ⟨rfl, rfl, rfl⟩
  refine reads_identifier.bind ?_
  rintro _ _ rest ⟨name, q, rfl, rfl⟩
  refine (reads_expect _ _).bind ?_
  rintro _ _ rest ⟨u, rfl⟩
  refine reads_params.bind fun params w₁ rest hparams => reads_return fun ret? w₂ rest hret => ?_
  refine reads_blockStart.bind ?_
  rintro _ _ rest ⟨r, s, v, rfl⟩
  refine (reads_declarations (D := fun ds w => (decls ds).Derives w)
    (P := fun d w => (decl d).Derives w) .nil (fun _ _ _ _ hds hd => .snoc hds hd)
    fun _ => reads_localDecl? hself).bind fun ds w₃ rest hds => ?_
  refine (reads_statements (reads_statement n)).bind fun body w₄ _ hbody => .pure ?_
  simpa using Derives.func p q r s v name (hparams u) hret hds hbody

end Functions

theorem reads_funcDef : ∀ (n : Nat) (p : Loc) (ts : List Token),
    Reads (funcDef n) (⟨.keyword .def_, p⟩ :: ts) fun f w _ => (FuncPhrase.func f).Derives w
  | 0, _, _ => .throw
  | n + 1, p, ts => reads_funcDefWith (reads_funcDef n) p ts

theorem reads_memberStep {n : Nat} {self : Parser ClassDef} {acc : List Member} {w : List Token}
    (h : MembersDerive acc.reverse w) : Reads (memberStep n self acc) ts fun r w' _ =>
      (r = none → ∃ p, w' = [⟨.dedent, p⟩]) ∧
      ∀ ms, r = some ms → MembersDerive ms.reverse (w ++ w') := by
  refine (reads_accept _).bind ?_
  rintro _ _ rest (⟨rfl, p, rfl⟩ | ⟨rfl, rfl⟩)
  · exact .pure ⟨fun _ => ⟨p, rfl⟩, nofun⟩
  · refine (reads_accept _).bind ?_
    rintro _ _ rest (⟨rfl, p, rfl⟩ | ⟨rfl, rfl⟩)
    · refine reads_endOfLine.bind ?_
      rintro _ _ rest ⟨q, rfl⟩
      refine .pure ⟨nofun, ?_⟩
      rintro _ ⟨⟩
      exact .pass p q h
    · refine reads_declStart.bind ?_
      rintro start _ rest ⟨rfl, hstart⟩
      split
      · refine reads_varDef.bind fun d w' _ hd => .pure ⟨nofun, ?_⟩
        rintro _ ⟨⟩
        simpa using MembersDerive.attr h hd
      · obtain ⟨p, rest, rfl⟩ := hstart _ rfl
        refine (reads_funcDef n p rest).bind fun f w' _ hf => .pure ⟨nofun, ?_⟩
        rintro _ ⟨⟩
        simpa using MembersDerive.method h hf
      · exact .bind_fail
      · exact .fail
      · exact .fail
      · exact .fail

theorem reads_classDefWith {n : Nat} {self : Parser ClassDef} (p : Loc) (ts : List Token) :
    Reads (classDefWith n self) (⟨.keyword .class_, p⟩ :: ts) fun c w _ => c.Derives w := by
  refine (reads_advance _).bind ?_
  rintro _ _ _ ⟨rfl, rfl, rfl⟩
  refine reads_identifier.bind ?_
  rintro _ _ rest ⟨name, q, rfl, rfl⟩
  refine (reads_expect _ _).bind ?_
  rintro _ _ rest ⟨p₁, rfl⟩
  refine reads_identifier.bind ?_
  rintro _ _ rest ⟨super, r, rfl, rfl⟩
  refine (reads_expect _ _).bind ?_
  rintro _ _ rest ⟨p₂, rfl⟩
  refine reads_blockStart.bind ?_
  rintro _ _ rest ⟨p₃, p₄, p₅, rfl⟩
  have hloop := reads_iterate (I := fun acc w => MembersDerive acc.reverse w)
    (J := fun acc w _ => ∃ p₆ w', w = w' ++ [⟨.dedent, p₆⟩] ∧ MembersDerive acc.reverse w')
    (f := memberStep n self) ?_ n [] [] rest .nil
  · refine hloop.bind ?_
    rintro acc _ _ ⟨p₆, w, hw, hmembers⟩
    refine .pure ?_
    rw [List.nil_append] at hw
    rw [hw]
    simpa using ClassDef.Derives.mk p q r p₁ p₂ p₃ p₄ p₅ p₆ name super hmembers
  · intro acc w ts hacc
    refine (reads_memberStep hacc).mono fun r w' _ ⟨hnone, hsome⟩ => ⟨fun hr => ?_, hsome⟩
    obtain ⟨p₆, rfl⟩ := hnone hr
    exact ⟨p₆, w, rfl, hacc⟩

theorem reads_classDef : ∀ (n : Nat) (p : Loc) (ts : List Token),
    Reads (classDef n) (⟨.keyword .class_, p⟩ :: ts) fun c w _ => c.Derives w
  | 0, _, _ => .throw
  | _ + 1, p, ts => reads_classDefWith p ts

/-- A declaration at the top level goes on with the declarations before it. -/
theorem reads_topDecl? {n : Nat} : Reads (topDecl? n) ts fun r w _ =>
    (r = none → w = []) ∧ ∀ d, r = some d →
      ∀ ds w₀, TopDeclsDerive ds w₀ → TopDeclsDerive (ds ++ [d]) (w₀ ++ w) := by
  refine reads_declStart.bind ?_
  rintro start _ rest ⟨rfl, hstart⟩
  split
  · refine reads_varDef.bind fun d w _ hd => .pure ⟨nofun, ?_⟩
    rintro _ ⟨⟩ ds w₀ hds
    simpa using TopDeclsDerive.var hds hd
  · obtain ⟨p, rest, rfl⟩ := hstart _ rfl
    refine (reads_funcDef n p rest).bind fun f w _ hf => .pure ⟨nofun, ?_⟩
    rintro _ ⟨⟩ ds w₀ hds
    simpa using TopDeclsDerive.func hds hf
  · obtain ⟨p, rest, rfl⟩ := hstart _ rfl
    refine (reads_classDef n p rest).bind fun c w _ hc => .pure ⟨nofun, ?_⟩
    rintro _ ⟨⟩ ds w₀ hds
    simpa using TopDeclsDerive.cls hds hc
  · exact .pure ⟨fun _ => rfl, nofun⟩
  · exact .pure ⟨fun _ => rfl, nofun⟩
  · exact .pure ⟨fun _ => rfl, nofun⟩

/-- A program up to the end of the input, which is not moved past. -/
theorem reads_program {n : Nat} : Reads (program n) ts fun p w rest => ∃ w₁ w₂, w = w₁ ++ w₂ ∧
    TopDeclsDerive p.decls w₁ ∧ (StmtPhrase.stmts p.body).Derives w₂ ∧
    (rest.headD endToken).kind = .eof := by
  refine (reads_declarations (D := TopDeclsDerive)
    (P := fun d w => ∀ ds w₀, TopDeclsDerive ds w₀ → TopDeclsDerive (ds ++ [d]) (w₀ ++ w)) .nil
    (fun ds d w w' hds hd => hd ds w hds) fun _ => reads_topDecl?).bind fun ds w₁ rest hds => ?_
  have hloop := reads_iterate (I := fun acc w => (StmtPhrase.stmts acc.reverse).Derives w)
    (J := fun acc w rest => (StmtPhrase.stmts acc.reverse).Derives w ∧
      (rest.headD endToken).kind = .eof) (f := topStep n) ?_ n [] [] rest .nil
  · exact hloop.bind fun acc w₂ _ ⟨hacc, hk⟩ =>
      .pure ⟨w₁, w₂, by simp, hds, by simpa using hacc, hk⟩
  · intro acc w ts hacc
    refine reads_current.bind ?_
    rintro _ _ rest ⟨rfl, rfl⟩
    refine .ite (fun hk => .pure ⟨fun _ => ⟨by simpa using hacc, hk⟩, nofun⟩) fun _ => ?_
    refine (reads_statement n rest).bind fun s w' _ hs => .pure ⟨nofun, ?_⟩
    rintro _ ⟨⟩
    rw [reverse_toList_append]
    simpa using StmtPhrase.Derives.snoc hacc hs

end Parser

end ChocoRv
