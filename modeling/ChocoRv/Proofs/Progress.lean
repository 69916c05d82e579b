import ChocoRv.Proofs.Deriving

/-!
# Progress of the parser

Where the last token is the end of the input, each function of the parser fails or moves past a
token, and it never moves past the last one; so a bound above the number of tokens left is never
exhausted, and the result is the same for all such bounds. An error is at a token from there on, or
behind the last token where that one was taken unseen (`StopsAt`), as it is in no whole program.

`Settles` states this for two parsers at once, which differ in their bounds only. The rules for
`bind` and for loops carry it from the parts to the whole.
-/

namespace ChocoRv

namespace Parser

variable {α β σ : Type} {ts mid rest : List Token}

/-! ### Places in the tokens -/

/-- The last token is the end of the input. -/
def EofLast (ts : List Token) : Prop := ∀ t ∈ ts.getLast?, t.kind = .eof

/-- `rest` is left of `ts` after one token or more, and there is something left. -/
structure Beyond (ts rest : List Token) : Prop where
  ne_nil : rest ≠ []
  suffix : rest <:+ ts
  lt : rest.length < ts.length

/-- Nothing is read, or something. -/
def Within (ts rest : List Token) : Prop := rest = ts ∨ Beyond ts rest

theorem EofLast.suffix (h : EofLast ts) (hsuffix : rest <:+ ts) : EofLast rest := by
  obtain ⟨w, rfl⟩ := hsuffix
  intro t ht
  refine h t ?_
  rw [List.getLast?_append, Option.mem_def.1 ht]
  rfl

theorem Beyond.tail {t : Token} (h : rest ≠ []) : Beyond (t :: rest) rest :=
  ⟨h, List.suffix_cons t rest, Nat.lt_succ_self _⟩

theorem Beyond.trans (h : Beyond ts mid) (h' : Beyond mid rest) : Beyond ts rest :=
  ⟨h'.ne_nil, h'.suffix.trans h.suffix, Nat.lt_trans h'.lt h.lt⟩

theorem Within.beyond (h : Within ts mid) (h' : Beyond mid rest) : Beyond ts rest := by
  rcases h with rfl | h
  · exact h'
  · exact h.trans h'

theorem Beyond.within (h : Beyond ts mid) (h' : Within mid rest) : Beyond ts rest := by
  rcases h' with rfl | h'
  · exact h
  · exact h.trans h'

theorem Within.trans (h : Within ts mid) (h' : Within mid rest) : Within ts rest := by
  rcases h with rfl | h
  · exact h'
  · exact .inr (h.within h')

theorem Within.subset (h : Within ts rest) : rest ⊆ ts := by
  rcases h with rfl | h
  · exact List.Subset.refl _
  · exact h.suffix.subset

theorem Within.ne_nil (h : Within ts rest) (hts : ts ≠ []) : rest ≠ [] := by
  rcases h with rfl | h
  · exact hts
  · exact h.ne_nil

theorem EofLast.beyond (h : EofLast ts) (hrest : Beyond ts rest) : EofLast rest :=
  h.suffix hrest.suffix

theorem EofLast.within (h : EofLast ts) (hrest : Within ts rest) : EofLast rest := by
  rcases hrest with rfl | hrest
  · exact h
  · exact h.beyond hrest

/-- A token that is not the end of the input has another one behind it. -/
theorem EofLast.ne_nil {t : Token} (h : EofLast (t :: rest)) (ht : t.kind ≠ .eof) : rest ≠ [] := by
  rintro rfl
  exact ht (h t rfl)

theorem EofLast.one_lt (h : EofLast ts) (hk : (ts.headD endToken).kind ≠ .eof) :
    1 < ts.length := by
  obtain ⟨t, rest, rfl⟩ := cons_of_ne_eof hk
  exact Nat.succ_lt_succ (List.length_pos_iff.2 (h.ne_nil hk))

/-- Both bounds exceed the number of tokens up to the end of the input. -/
structure Ready (n m : Nat) (ts : List Token) : Prop where
  last : EofLast ts
  left : ts.length < n
  right : ts.length < m

namespace Ready

variable {n m : Nat}

theorem beyond (h : Ready n m ts) (hrest : Beyond ts rest) : Ready (n - 1) (m - 1) rest := by
  have hlt := hrest.lt
  have hleft := h.left
  have hright := h.right
  exact ⟨h.last.suffix hrest.suffix, by omega, by omega⟩

theorem mono (h : Ready (n - 1) (m - 1) ts) : Ready n m ts := by
  have hleft := h.left
  have hright := h.right
  exact ⟨h.last, by omega, by omega⟩

theorem within (h : Ready n m ts) (hrest : Within ts rest) : Ready n m rest := by
  rcases hrest with rfl | hrest
  · exact h
  · exact (h.beyond hrest).mono

end Ready

/-! ### Rules -/

/-- From `ts`, both parsers return the same, and `P` of it, or fail alike at a token that is there,
but not for want of a bound. Neither goes past the last token. -/
structure Settles (p q : Parser α) (ts : List Token) (P : α → List Token → Prop) : Prop where
  eq : p ts = q ts
  within : ∀ a rest, p ts = .ok (a, rest) → Within ts rest
  ok : ∀ a rest, p ts = .ok (a, rest) → P a rest
  near : ts ≠ [] → ∀ t c, p ts = .error (.near t c) → t ∈ ts
  ne : p ts ≠ .error .exhausted

namespace Settles

variable {p q : Parser α} {P P' : α → List Token → Prop} {Q : β → List Token → Prop}

/-- A parser that returns the same for all bounds. -/
theorem of_ok {a : α} (hp : p ts = .ok (a, rest)) (hq : q ts = .ok (a, rest))
    (hrest : Within ts rest) (h : P a rest) : Settles p q ts P where
  eq := hp.trans hq.symm
  within _ _ hr := by cases hp.symm.trans hr; exact hrest
  ok _ _ hr := by cases hp.symm.trans hr; exact h
  near _ _ _ hr := by cases hp.symm.trans hr
  ne hr := by cases hp.symm.trans hr

theorem pure {a : α} (h : P a ts) : Settles (pure a) (pure a) ts P :=
  .of_ok rfl rfl (.inl rfl) h

theorem fail {c : Complaint} : Settles (fail c : Parser α) (fail c) ts P where
  eq := rfl
  within := nofun
  ok := nofun
  near hts := by
    rintro _ _ ⟨⟩
    obtain ⟨t, ts, rfl⟩ := List.exists_cons_of_ne_nil hts
    exact List.mem_cons_self
  ne := nofun

theorem target {loc : Loc} :
    Settles (throw (.target loc) : Parser α) (throw (.target loc)) ts P :=
  ⟨rfl, nofun, nofun, nofun, nofun⟩

theorem mono (h : Settles p q ts P) (hP : ∀ a rest, P a rest → P' a rest) : Settles p q ts P' :=
  { h with ok := fun a rest hr => hP a rest (h.ok a rest hr) }

/-- Only what the parsers do from here matters. -/
theorem congr {p' q' : Parser α} (h : Settles p q ts P) (hp : p' ts = p ts) (hq : q' ts = q ts) :
    Settles p' q' ts P := by
  obtain ⟨heq, hwithin, hok, hnear, hne⟩ := h
  rw [← hp] at heq hwithin hok hnear hne
  exact ⟨heq.trans hq.symm, hwithin, hok, hnear, hne⟩

theorem bind {f g : α → Parser β} (h : Settles p q ts P)
    (hf : ∀ a rest, P a rest → Settles (f a) (g a) rest Q) :
    Settles (p >>= f) (q >>= g) ts Q := by
  have hp : (p >>= f) ts = p ts >>= fun r => f r.1 r.2 := rfl
  have hq : (q >>= g) ts = q ts >>= fun r => g r.1 r.2 := rfl
  rw [← h.eq] at hq
  cases hr : p ts with
  | error e =>
    rw [hr] at hp hq
    refine ⟨hp.trans hq.symm, fun b rest hb => ?_, fun b rest hb => ?_, fun hts t c hb => ?_,
      fun hb => ?_⟩
    · cases hp.symm.trans hb
    · cases hp.symm.trans hb
    · cases hp.symm.trans hb
      exact h.near hts t c hr
    · cases hp.symm.trans hb
      exact h.ne hr
  | ok r =>
    obtain ⟨a, mid⟩ := r
    have hmid := h.within a mid hr
    have hfa := hf a mid (h.ok a mid hr)
    rw [hr] at hp hq
    refine ⟨(hp.trans hfa.eq).trans hq.symm, fun b rest hb => ?_, fun b rest hb => ?_,
      fun hts t c hb => ?_, fun hb => ?_⟩
    · exact hmid.trans (hfa.within b rest (hp.symm.trans hb))
    · exact hfa.ok b rest (hp.symm.trans hb)
    · exact hmid.subset (hfa.near (hmid.ne_nil hts) t c (hp.symm.trans hb))
    · exact hfa.ne (hp.symm.trans hb)

theorem ite {b : Prop} [Decidable b] {p' q' : Parser α} (h : b → Settles p q ts P)
    (h' : ¬ b → Settles p' q' ts P) :
    Settles (if b then p else p') (if b then q else q') ts P := by
  split
  · exact h ‹_›
  · exact h' ‹_›

theorem fail_bind {c : Complaint} {f g : α → Parser β} :
    Settles (Parser.fail c >>= f) (Parser.fail c >>= g) ts Q :=
  (fail (P := fun _ _ => False)).bind fun _ _ h => h.elim

end Settles

/-! ### Single tokens -/

theorem settles_current :
    Settles current current ts fun t rest => t = ts.headD endToken ∧ rest = ts :=
  .of_ok rfl rfl (.inl rfl) ⟨rfl, rfl⟩

/-- Any token but the last one is moved past. -/
theorem settles_advance (h : 1 < ts.length) : Settles advance advance ts fun _ => Beyond ts := by
  match ts, h with
  | t :: t' :: ts, _ =>
    have hrest : Beyond (t :: t' :: ts) (t' :: ts) := .tail (List.cons_ne_nil _ _)
    exact .of_ok rfl rfl (.inr hrest) hrest

/-- A token of a kind other than the end of the input is moved past. -/
theorem settles_advance_of_kind {k : Token.Kind} (hkind : (ts.headD endToken).kind = k)
    (hk : k ≠ .eof) (h : EofLast ts) : Settles advance advance ts fun _ => Beyond ts :=
  settles_advance (h.one_lt (hkind ▸ hk))

theorem settles_accept (k : Token.Kind) (hk : k ≠ .eof) (h : EofLast ts) :
    Settles (accept k) (accept k) ts fun b rest =>
      (b = true ∧ Beyond ts rest) ∨ (b = false ∧ rest = ts) := by
  cases ts with
  | nil => exact .of_ok rfl rfl (.inl rfl) (.inr ⟨rfl, rfl⟩)
  | cons t ts =>
    by_cases ht : t.kind = k
    · have haccept : accept k (t :: ts) = .ok (true, ts) := if_pos ht
      have hrest : Beyond (t :: ts) ts := .tail (h.ne_nil (ht ▸ hk))
      exact .of_ok haccept haccept (.inr hrest) (.inl ⟨rfl, hrest⟩)
    · have haccept : accept k (t :: ts) = .ok (false, t :: ts) := if_neg ht
      exact .of_ok haccept haccept (.inl rfl) (.inr ⟨rfl, rfl⟩)

/-- The two ways on from a token that may be there. -/
theorem settles_acceptIf {k : Token.Kind} {p q p' q' : Parser β} {Q : β → List Token → Prop}
    (hk : k ≠ .eof) (h : EofLast ts) (hp : ∀ rest, Beyond ts rest → Settles p q rest Q)
    (hq : Settles p' q' ts Q) :
    Settles (do if ← accept k then p else p') (do if ← accept k then q else q') ts Q := by
  refine (settles_accept k hk h).bind ?_
  rintro b rest (⟨rfl, hrest⟩ | ⟨rfl, rfl⟩)
  · exact .ite (fun _ => hp rest hrest) (fun h => absurd rfl h)
  · exact .ite (fun h => nomatch h) (fun _ => hq)

theorem settles_expect (k : Token.Kind) (hk : k ≠ .eof) {c : Complaint} (h : EofLast ts) :
    Settles (expect k c) (expect k c) ts fun _ => Beyond ts := by
  refine (settles_accept k hk h).bind ?_
  rintro b rest (⟨rfl, hrest⟩ | ⟨rfl, rfl⟩)
  · exact .ite (fun _ => .pure hrest) (fun h => absurd rfl h)
  · exact .ite (fun h => nomatch h) (fun _ => .fail)

theorem settles_endOfLine (h : EofLast ts) :
    Settles endOfLine endOfLine ts fun _ => Beyond ts :=
  settles_expect .newline nofun h

theorem settles_identifier (h : EofLast ts) :
    Settles identifier identifier ts fun _ => Beyond ts := by
  by_cases hts : ∃ name p rest, ts = ⟨.identifier name, p⟩ :: rest
  · obtain ⟨name, p, rest, rfl⟩ := hts
    have hrest : Beyond (⟨.identifier name, p⟩ :: rest) rest := .tail (h.ne_nil nofun)
    exact .of_ok rfl rfl (.inr hrest) hrest
  · have hfail : identifier ts = fail .identifier ts := by
      unfold identifier
      split
      · exact absurd ⟨_, _, _, rfl⟩ hts
      · rfl
    exact Settles.fail.congr hfail hfail

theorem settles_run (k : Token.Kind) (hk : k ≠ .eof) :
    ∀ {ts : List Token}, EofLast ts → Settles (run k) (run k) ts fun _ => Within ts
  | [], _ => .of_ok rfl rfl (.inl rfl) (.inl rfl)
  | t :: ts, h => by
    by_cases ht : t.kind = k
    · have hbeyond : Beyond (t :: ts) ts := .tail (h.ne_nil (ht ▸ hk))
      have hrun := settles_run k hk (h.suffix (List.suffix_cons t ts))
      -- the places behind the first, and its own before them
      have hstep : run k (t :: ts) =
          (advance >>= fun t => run k >>= fun locs => pure (t.loc :: locs)) (t :: ts) := by
        rw [run, if_pos ht]
        change _ = (run k ts).bind fun r => .ok (t.loc :: r.1, r.2)
        cases run k ts <;> rfl
      have hadvance : Settles advance advance (t :: ts) fun _ rest => rest = ts :=
        .of_ok rfl rfl (.inr hbeyond) rfl
      refine (hadvance.bind ?_).congr hstep hstep
      rintro _ _ rfl
      exact hrun.bind fun _ _ hrest => .pure (.inr (hbeyond.within hrest))
    · have hrun : run k (t :: ts) = .ok ([], t :: ts) := if_neg ht
      exact .of_ok hrun hrun (.inl rfl) (.inl rfl)

/-! ### Loops and lists -/

/-- A loop each of whose steps moves past a token ends where a step gives no new state. -/
theorem settles_iterate {E : List Token → Prop} {f g : σ → Parser (Option σ)} :
    ∀ {n m : Nat} {ts : List Token}, Ready n m ts →
      (∀ s mid, Within ts mid → Settles (f s) (g s) mid fun r rest =>
        (r = none → E rest) ∧ ∀ s', r = some s' → Beyond mid rest) →
      ∀ s, Settles (iterate f n s) (iterate g m s) ts fun _ => E
  | 0, _, ts, h, _, _ => absurd h.left (Nat.not_lt_zero _)
  | _ + 1, 0, ts, h, _, _ => absurd h.right (Nat.not_lt_zero _)
  | n + 1, m + 1, ts, h, hstep, s => by
    rw [iterate, iterate]
    refine (hstep s ts (.inl rfl)).bind fun r rest hr => ?_
    cases r with
    | none => exact .pure (hr.1 rfl)
    | some s' =>
      have hrest := hr.2 s' rfl
      exact settles_iterate (h.beyond hrest)
        (fun s mid hmid => hstep s mid (.inr (hrest.within hmid))) s'

/-- What a step of a loop leaves: all there was where it ends the loop, and less otherwise. -/
def Proceeds (ts : List Token) : Option σ → List Token → Prop
  | none, rest => rest = ts
  | some _, rest => Beyond ts rest

theorem settles_loopUntil {E : List Token → Prop} {n m : Nat} {f g : σ → Parser (Option σ)}
    (h : Ready n m ts)
    (hstep : ∀ s mid, Within ts mid → Settles (f s) (g s) mid fun r rest =>
      Proceeds mid r rest ∧ (r = none → E rest)) (s : σ) :
    Settles (iterate f n s) (iterate g m s) ts fun _ rest => Within ts rest ∧ E rest := by
  refine settles_iterate h (fun s mid hmid => (hstep s mid hmid).mono ?_) s
  rintro (_ | s') rest ⟨hrest, hend⟩
  · obtain rfl : rest = mid := hrest
    exact ⟨fun _ => ⟨hmid, hend rfl⟩, nofun⟩
  · exact ⟨nofun, fun _ _ => hrest⟩

theorem settles_loop {n m : Nat} {f g : σ → Parser (Option σ)} (h : Ready n m ts)
    (hstep : ∀ s mid, Within ts mid → Settles (f s) (g s) mid (Proceeds mid)) (s : σ) :
    Settles (iterate f n s) (iterate g m s) ts fun _ => Within ts :=
  (settles_loopUntil (E := fun _ => True) h (fun s mid hmid => (hstep s mid hmid).mono
    fun _ _ hr => ⟨hr, fun _ => trivial⟩) s).mono fun _ _ hrest => hrest.1

theorem settles_items {n m : Nat} {close : Symbol} {c : Complaint} {item item' : Parser α}
    (h : Ready n m ts)
    (hitem : ∀ mid, Within ts mid → Settles item item' mid fun _ => Beyond mid) :
    Settles (items n close c item) (items m close c item') ts fun _ => Beyond ts := by
  refine (settles_iterate (E := Beyond ts) h ?_ []).bind fun _ _ hrest => .pure hrest
  intro acc mid hmid
  have hready := h.within hmid
  refine settles_acceptIf nofun hready.last (fun rest hrest => ?_) ?_
  · exact .pure ⟨fun _ => hmid.beyond hrest, nofun⟩
  · refine .ite (fun _ => ?_) fun _ => ?_
    · exact (hitem mid hmid).bind fun _ _ hrest => .pure ⟨nofun, fun _ _ => hrest⟩
    · refine (settles_expect (.symbol .comma) nofun hready.last).bind fun _ rest hrest => ?_
      refine (hitem rest (.inr (hmid.beyond hrest))).bind fun _ _ hrest' => ?_
      exact .pure ⟨nofun, fun _ _ => hrest.trans hrest'⟩

/-! ### Literals, types and variables -/

theorem ne_eof_of_literalOf? {t : Token} {l : Literal} (h : literalOf? t = some l) :
    t.kind ≠ .eof := by
  intro hk
  rw [literalOf?, hk] at h
  cases h

theorem settles_literal (h : EofLast ts) : Settles literal literal ts fun _ => Beyond ts := by
  refine settles_current.bind ?_
  rintro _ rest ⟨rfl, rfl⟩
  split
  · rename_i l hl
    exact (settles_advance_of_kind rfl (ne_eof_of_literalOf? hl) h).bind fun _ _ hrest =>
      .pure hrest
  · exact .fail

theorem settles_className (h : EofLast ts) : Settles className className ts fun _ => Beyond ts := by
  by_cases hts : ∃ name p rest, ts = ⟨.identifier name, p⟩ :: rest ∨ ts = ⟨.string name, p⟩ :: rest
  · obtain ⟨name, p, rest, rfl | rfl⟩ := hts
    · have hrest : Beyond (⟨.identifier name, p⟩ :: rest) rest := .tail (h.ne_nil nofun)
      exact .of_ok rfl rfl (.inr hrest) hrest
    · have hrest : Beyond (⟨.string name, p⟩ :: rest) rest := .tail (h.ne_nil nofun)
      exact .of_ok rfl rfl (.inr hrest) hrest
  · have hfail : className ts = fail .typeExpr ts := by
      unfold className
      split
      · exact absurd ⟨_, _, _, .inl rfl⟩ hts
      · exact absurd ⟨_, _, _, .inr rfl⟩ hts
      · rfl
    exact Settles.fail.congr hfail hfail

theorem settles_closeBrackets (opened : List Loc) (a : TypeExpr) (h : EofLast ts) :
    Settles (closeBrackets opened a) (closeBrackets opened a) ts fun _ => Within ts := by
  induction opened generalizing a ts with
  | nil => exact .pure (.inl rfl)
  | cons loc opened ih =>
    rw [closeBrackets, List.foldlM_cons]
    refine Settles.bind (P := fun _ => Beyond ts) ?_ fun b rest hrest => ?_
    · exact (settles_expect (.symbol .closeBracket) (by simp) h).bind fun _ _ hrest => .pure hrest
    · exact (ih b (h.suffix hrest.suffix)).mono fun _ _ hrest' => .inr (hrest.within hrest')

theorem settles_typeExpr (h : EofLast ts) : Settles typeExpr typeExpr ts fun _ => Beyond ts := by
  refine (settles_run (.symbol .openBracket) nofun h).bind fun opened rest hrest => ?_
  refine (settles_className (h.within hrest)).bind fun base rest' hrest' => ?_
  refine (settles_closeBrackets opened.reverse base ?_).mono fun _ _ hrest'' => ?_
  · exact h.suffix (hrest.beyond hrest').suffix
  · exact (hrest.beyond hrest').within hrest''

theorem settles_typedVar (h : EofLast ts) : Settles typedVar typedVar ts fun _ => Beyond ts := by
  refine (settles_identifier h).bind fun _ rest hrest => ?_
  refine (settles_expect (.symbol .colon) nofun (h.beyond hrest)).bind fun _ rest' hrest' => ?_
  have hcolon := hrest.trans hrest'
  exact (settles_typeExpr (h.beyond hcolon)).bind fun _ _ hrest => .pure (hcolon.trans hrest)

theorem settles_varDef (h : EofLast ts) : Settles varDef varDef ts fun _ => Beyond ts := by
  refine (settles_typedVar h).bind fun _ rest hrest => ?_
  refine (settles_expect (.symbol .assign) nofun (h.beyond hrest)).bind fun _ _ hrest' => ?_
  have hassign := hrest.trans hrest'
  refine (settles_literal (h.beyond hassign)).bind fun _ _ hrest'' => ?_
  have hliteral := hassign.trans hrest''
  exact (settles_endOfLine (h.beyond hliteral)).bind fun _ _ hrest => .pure (hliteral.trans hrest)

theorem settles_blockStart (h : EofLast ts) :
    Settles blockStart blockStart ts fun _ => Beyond ts := by
  refine (settles_expect (.symbol .colon) nofun h).bind fun _ _ hrest => ?_
  refine (settles_endOfLine (h.beyond hrest)).bind fun _ _ hrest' => ?_
  have hline := hrest.trans hrest'
  exact (settles_expect .indent nofun (h.beyond hline)).mono fun _ _ hrest => hline.trans hrest

/-! ### Expressions -/

/-- The parsers settle at every place for which the bounds suffice, and move past a token. -/
def Advances (n m : Nat) (p q : Parser α) : Prop :=
  ∀ ts, Ready n m ts → Settles p q ts fun _ => Beyond ts

section Expressions

variable {n m : Nat} {self self' : Parser Expr} (hself : Advances (n - 1) (m - 1) self self')

include hself

theorem settles_exprItems {close : Symbol} {c : Complaint} (h : Ready (n - 1) (m - 1) ts) :
    Settles (items n close c self) (items m close c self') ts fun _ => Beyond ts :=
  settles_items h.mono fun mid hmid => hself mid (h.within hmid)

theorem advances_atom : Advances n m (atom n self) (atom m self') := by
  intro ts h
  refine settles_current.bind ?_
  rintro _ rest ⟨rfl, rfl⟩
  split
  · refine (settles_identifier h.last).bind fun id mid hmid => ?_
    refine settles_acceptIf nofun (h.last.beyond hmid) (fun rest hrest => ?_) (.pure hmid)
    have hopen := hmid.trans hrest
    exact (settles_exprItems hself (h.beyond hopen)).bind fun _ _ hrest =>
      .pure (hopen.trans hrest)
  · rename_i hk
    refine (settles_advance_of_kind hk nofun h.last).bind fun _ mid hmid => ?_
    exact (settles_exprItems hself (h.beyond hmid)).bind fun _ _ hrest => .pure (hmid.trans hrest)
  · rename_i hk
    refine (settles_advance_of_kind hk nofun h.last).bind fun _ mid hmid => ?_
    refine (hself mid (h.beyond hmid)).bind fun e rest hrest => ?_
    have hinner := hmid.trans hrest
    exact (settles_expect (.symbol .closeParen) nofun (h.last.beyond hinner)).bind
      fun _ _ hrest => .pure (hinner.trans hrest)
  · split
    · rename_i hl
      exact (settles_advance_of_kind rfl (ne_eof_of_literalOf? hl) h.last).bind fun _ _ hrest =>
        .pure hrest
    · exact .fail

theorem settles_trailer (h : Ready n m ts) (e : Expr) :
    Settles (trailer n self e) (trailer m self' e) ts (Proceeds ts) := by
  refine settles_acceptIf nofun h.last (fun mid hmid => ?_) ?_
  · refine (settles_identifier (h.last.beyond hmid)).bind fun id _ hrest => ?_
    have hname := hmid.trans hrest
    refine settles_acceptIf nofun (h.last.beyond hname) (fun rest hrest => ?_) (.pure hname)
    have hopen := hname.trans hrest
    exact (settles_exprItems hself (h.beyond hopen)).bind fun _ _ hrest =>
      .pure (hopen.trans hrest)
  · refine settles_acceptIf nofun h.last (fun mid hmid => ?_) (.pure rfl)
    refine (hself mid (h.beyond hmid)).bind fun i _ hrest => ?_
    have hindex := hmid.trans hrest
    exact (settles_expect (.symbol .closeBracket) nofun (h.last.beyond hindex)).bind
      fun _ _ hrest => .pure (hindex.trans hrest)

theorem advances_primary : Advances n m (primary n self) (primary m self') := by
  intro ts h
  refine (advances_atom hself ts h).bind fun a mid hmid => ?_
  have hmid' := h.within (.inr hmid)
  exact (settles_loop hmid' (fun e rest hrest => settles_trailer hself (hmid'.within hrest) e)
    a).mono fun _ _ hrest => hmid.within hrest

theorem advances_negation : Advances n m (negation n self) (negation m self') := by
  intro ts h
  refine (settles_run (.symbol .minus) nofun h.last).bind fun signs mid hmid => ?_
  exact (advances_primary hself mid (h.within hmid)).bind fun _ _ hrest =>
    .pure (hmid.beyond hrest)

theorem settles_operation (h : Ready n m ts) (state : List (BinOp × Expr) × Bool) :
    Settles (operation n self state) (operation m self' state) ts (Proceeds ts) := by
  refine settles_current.bind ?_
  rintro _ _ ⟨rfl, rfl⟩
  split
  · exact .pure rfl
  · rename_i op hop
    refine .ite (fun _ => .fail_bind) fun _ => ?_
    refine (settles_advance_of_kind rfl ?_ h.last).bind fun _ mid hmid => ?_
    · intro hk
      rw [hk] at hop
      cases hop
    · exact (advances_negation hself mid (h.within (.inr hmid))).bind fun _ _ hrest =>
        .pure (hmid.trans hrest)

theorem advances_comparison : Advances n m (comparison n self) (comparison m self') := by
  intro ts h
  refine (advances_negation hself ts h).bind fun first mid hmid => ?_
  have hmid' := h.within (.inr hmid)
  exact (settles_loop hmid' (fun s rest hrest => settles_operation hself (hmid'.within hrest) s)
    _).bind fun _ _ hrest => .pure (hmid.within hrest)

theorem advances_denial : Advances n m (denial n self) (denial m self') := by
  intro ts h
  refine (settles_run (.keyword .not_) nofun h.last).bind fun nots mid hmid => ?_
  exact (advances_comparison hself mid (h.within hmid)).bind fun _ _ hrest =>
    .pure (hmid.beyond hrest)

omit hself in
theorem advances_logical {k : Keyword} {op : BinOp} {operand operand' : Parser Expr}
    (hoperand : Advances n m operand operand') :
    Advances n m (logical n k op operand) (logical m k op operand') := by
  intro ts h
  refine (hoperand ts h).bind fun e mid hmid => ?_
  have hmid' := h.within (.inr hmid)
  refine (settles_loop hmid' (fun left rest hrest => ?_) e).mono fun _ _ hrest => hmid.within hrest
  have hready := hmid'.within hrest
  refine settles_acceptIf nofun hready.last (fun after hafter => ?_) (.pure rfl)
  exact (hoperand after (hready.within (.inr hafter))).bind fun _ _ hrest =>
    .pure (hafter.trans hrest)

theorem advances_disjunction : Advances n m (disjunction n self) (disjunction m self') :=
  advances_logical (advances_logical (advances_denial hself))

theorem advances_conditional : Advances n m (conditional n self) (conditional m self') := by
  intro ts h
  refine (advances_disjunction hself ts h).bind fun e mid hmid => ?_
  refine (settles_accept (.keyword .if_) nofun (h.last.beyond hmid)).bind ?_
  rintro _ rest (⟨rfl, hrest⟩ | ⟨rfl, rfl⟩)
  · have hif := hmid.trans hrest
    refine (advances_disjunction hself rest (h.within (.inr hif))).bind fun test _ hrest => ?_
    have htest := hif.trans hrest
    refine (settles_expect (.keyword .else_) nofun (h.last.beyond htest)).bind
      fun _ rest hrest => ?_
    have helse := htest.trans hrest
    exact (hself rest (h.beyond helse)).bind fun _ _ hrest => .pure (helse.trans hrest)
  · exact .pure hmid

end Expressions

theorem advances_expression : ∀ n m, Advances n m (expression n) (expression m)
  | 0, _, _, h => absurd h.left (Nat.not_lt_zero _)
  | _ + 1, 0, _, h => absurd h.right (Nat.not_lt_zero _)
  | n + 1, m + 1, ts, h =>
    advances_conditional (n := n + 1) (m := m + 1) (advances_expression n m) ts h

/-! ### Statements -/

section Statements

variable {n m : Nat} {self self' : Parser (Option Stmt)}
  (hself : Advances (n - 1) (m - 1) self self')

include hself

omit hself in
theorem settles_blockStep (hstmt : Settles self self' ts fun _ => Beyond ts)
    (state : List Stmt × Bool) : Settles (blockStep self state) (blockStep self' state) ts
      fun r rest => Proceeds ts r rest ∧ (r = none → (rest.headD endToken).kind = .dedent) := by
  refine settles_current.bind ?_
  rintro _ _ ⟨rfl, rfl⟩
  split
  · rename_i hk
    exact .pure ⟨rfl, fun _ => hk⟩
  · exact .fail
  · exact hstmt.bind fun _ _ hrest => .pure ⟨hrest, nofun⟩

omit hself in
theorem settles_statements (h : Ready n m ts)
    (hstmt : ∀ mid, Within ts mid → Settles self self' mid fun _ => Beyond mid) :
    Settles (statements n self) (statements m self') ts fun _ => Beyond ts := by
  have hloop := settles_loopUntil (E := fun rest => (rest.headD endToken).kind = .dedent) h
    (fun state mid hmid => settles_blockStep (hstmt mid hmid) state) ([], false)
  refine hloop.bind fun state mid ⟨hmid, hk⟩ => ?_
  refine .ite (fun _ => ?_) fun _ => .fail_bind
  exact (settles_advance_of_kind hk nofun (h.last.within hmid)).bind fun _ _ hrest =>
    .pure (hmid.beyond hrest)

theorem advances_block : Advances n m (block n self) (block m self') := by
  intro ts h
  refine (settles_blockStart h.last).bind fun _ mid hmid => ?_
  have hready := h.beyond hmid
  exact (settles_statements hready.mono fun rest hrest => hself rest (hready.within hrest)).mono
    fun _ _ hrest => hmid.trans hrest

omit hself in
theorem settles_branches {test test' : Parser Expr} {body body' : Parser (List Stmt)}
    (htest : Advances n m test test') (hbody : Advances n m body body') :
    ∀ {a b : Nat} {ts : List Token}, Ready n m ts → Ready a b ts → 1 < ts.length →
      Settles (branches test body a) (branches test' body' b) ts fun _ => Beyond ts
  | 0, _, _, _, h, _ => absurd h.left (Nat.not_lt_zero _)
  | _ + 1, 0, _, _, h, _ => absurd h.right (Nat.not_lt_zero _)
  | a + 1, b + 1, ts, h, h', hlen => by
    rw [branches, branches]
    refine (settles_advance hlen).bind fun t mid hmid => ?_
    refine (htest mid (h.within (.inr hmid))).bind fun c _ hrest => ?_
    have hc := hmid.trans hrest
    refine (hbody _ (h.within (.inr hc))).bind fun yes _ hrest => ?_
    have hyes := hc.trans hrest
    refine settles_current.bind ?_
    rintro _ _ ⟨rfl, rfl⟩
    split
    · rename_i hk
      have hlast := h.last.beyond hyes
      exact (settles_branches htest hbody (h.within (.inr hyes)) (h'.beyond hyes)
        (hlast.one_lt (hk.trans_ne (by simp)))).bind fun _ _ hrest => .pure (hyes.trans hrest)
    · rename_i hk
      have helse := settles_advance_of_kind hk (by simp) (h.last.beyond hyes)
      refine helse.bind fun _ _ hrest => ?_
      have helse := hyes.trans hrest
      exact (hbody _ (h.within (.inr helse))).bind fun _ _ hrest => .pure (helse.trans hrest)
    · exact .pure hyes

omit hself in
theorem settles_assigned (h : Ready n m ts) (e : Expr) :
    Settles (assigned n e) (assigned m e) ts fun _ => Within ts := by
  refine settles_loop h (fun acc mid hmid => ?_) [e]
  have hready := h.within hmid
  refine settles_acceptIf nofun hready.last (fun rest hrest => ?_) (.pure rfl)
  exact (advances_expression n m rest (hready.within (.inr hrest))).bind fun _ _ hrest' =>
    .pure (hrest.trans hrest')

omit hself in
theorem advances_simple : Advances n m (simple n) (simple m) := by
  intro ts h
  refine settles_current.bind ?_
  rintro _ _ ⟨rfl, rfl⟩
  split
  · rename_i hk
    exact (settles_advance_of_kind hk nofun h.last).bind fun _ _ hrest => .pure hrest
  · rename_i hk
    refine (settles_advance_of_kind hk nofun h.last).bind fun _ mid hmid => ?_
    refine settles_current.bind ?_
    rintro _ _ ⟨rfl, rfl⟩
    refine .ite (fun _ => .pure hmid) fun _ => ?_
    exact (advances_expression n m _ (h.within (.inr hmid))).bind fun _ _ hrest =>
      .pure (hmid.trans hrest)
  · refine (advances_expression n m _ h).bind fun e mid hmid => ?_
    refine (settles_assigned (h.within (.inr hmid)) e).bind fun es rest hrest => ?_
    have hvalue := hmid.within hrest
    split
    · exact .pure hvalue
    · exact .pure hvalue
    · dsimp only
      split
      · exact .target
      · exact .pure hvalue

theorem advances_statementWith :
    Advances n m (statementWith n self) (statementWith m self') := by
  intro ts h
  have hblock := advances_block hself
  refine settles_current.bind ?_
  rintro _ _ ⟨rfl, rfl⟩
  split
  · rename_i hk
    exact (settles_branches (advances_expression n m) hblock h h
      (h.last.one_lt (hk ▸ nofun))).bind fun _ _ hrest => .pure hrest
  · rename_i hk
    refine (settles_advance_of_kind hk nofun h.last).bind fun _ mid hmid => ?_
    refine (advances_expression n m mid (h.within (.inr hmid))).bind fun c _ hrest => ?_
    have hc := hmid.trans hrest
    exact (hblock _ (h.within (.inr hc))).bind fun _ _ hrest => .pure (hc.trans hrest)
  · rename_i hk
    refine (settles_advance_of_kind hk nofun h.last).bind fun _ mid hmid => ?_
    refine (settles_identifier (h.last.beyond hmid)).bind fun id _ hrest => ?_
    have hname := hmid.trans hrest
    refine (settles_expect (.keyword .in_) nofun (h.last.beyond hname)).bind fun _ _ hrest => ?_
    have hin := hname.trans hrest
    refine (advances_expression n m _ (h.within (.inr hin))).bind fun iterable _ hrest => ?_
    have hiterable := hin.trans hrest
    exact (hblock _ (h.within (.inr hiterable))).bind fun _ _ hrest =>
      .pure (hiterable.trans hrest)
  · refine (advances_simple _ h).bind fun s mid hmid => ?_
    exact (settles_endOfLine (h.last.beyond hmid)).bind fun _ _ hrest => .pure (hmid.trans hrest)

end Statements

theorem advances_statement : ∀ n m, Advances n m (statement n) (statement m)
  | 0, _, _, h => absurd h.left (Nat.not_lt_zero _)
  | _ + 1, 0, _, h => absurd h.right (Nat.not_lt_zero _)
  | n + 1, m + 1, ts, h =>
    advances_statementWith (n := n + 1) (m := m + 1) (advances_statement n m) ts h

/-! ### Declarations -/

theorem settles_declStart : Settles declStart declStart ts fun d rest =>
    rest = ts ∧ ∀ k, d.keyword? = some k → (ts.headD endToken).kind = .keyword k := by
  have hstart : ∃ d, declStart ts = .ok (d, ts) := by
    unfold declStart
    split <;> exact ⟨_, rfl⟩
  obtain ⟨d, hd⟩ := hstart
  refine .of_ok hd hd (.inl rfl) ⟨rfl, fun k hk => ?_⟩
  obtain ⟨w, hw, rfl, hkeyword⟩ := reads_declStart d ts hd
  obtain ⟨p, rest, rfl⟩ := hkeyword k hk
  rfl

theorem settles_declarations {n m : Nat} {decl? decl?' : Parser (Option α)} (h : Ready n m ts)
    (hdecl : ∀ mid, Within ts mid → Settles decl? decl?' mid (Proceeds mid)) :
    Settles (declarations n decl?) (declarations m decl?') ts fun _ => Within ts := by
  refine (settles_loop h (fun acc mid hmid => ?_) []).bind fun _ _ hrest => .pure hrest
  refine (hdecl mid hmid).bind fun r rest hrest => .pure ?_
  cases r with
  | none => exact hrest
  | some a => exact hrest

section Functions

variable {n m : Nat} {self self' : Parser FuncDef}

/-- The parsers settle and move past a token where one more token follows the first. -/
def Starts (n m : Nat) (p q : Parser α) : Prop :=
  ∀ ts, Ready n m ts → 1 < ts.length → Settles p q ts fun _ => Beyond ts

/-- A name of an outer scope, behind a keyword, as a declaration. -/
theorem settles_outer {k : Keyword} (hk : (ts.headD endToken).kind = .keyword k) (h : EofLast ts)
    (decl : Loc → Ident → LocalDecl) :
    let outer : Parser (Option LocalDecl) := do
      let t ← advance
      let id ← identifier
      endOfLine
      return some (decl t.loc id)
    Settles outer outer ts (Proceeds ts) := by
  refine (settles_advance_of_kind hk nofun h).bind fun _ mid hmid => ?_
  refine (settles_identifier (h.beyond hmid)).bind fun id _ hrest => ?_
  have hname := hmid.trans hrest
  exact (settles_endOfLine (h.beyond hname)).bind fun _ _ hrest => .pure (hname.trans hrest)

theorem settles_localDecl? (h : Ready n m ts) (hself : Starts n m self self') :
    Settles (localDecl? self) (localDecl? self') ts (Proceeds ts) := by
  refine settles_declStart.bind ?_
  rintro start _ ⟨rfl, hstart⟩
  split
  · exact (settles_varDef h.last).bind fun _ _ hrest => .pure hrest
  · have hlen := h.last.one_lt (hstart _ rfl ▸ nofun)
    exact (hself _ h hlen).bind fun _ _ hrest => .pure hrest
  · exact settles_outer (hstart _ rfl) h.last .global
  · exact settles_outer (hstart _ rfl) h.last .nonlocal
  · exact .pure rfl
  · exact .pure rfl

theorem starts_funcDefWith (hself : Starts (n - 1) (m - 1) self self') :
    Starts n m (funcDefWith n self) (funcDefWith m self') := by
  intro ts h hlen
  refine (settles_advance hlen).bind fun t mid hmid => ?_
  refine (settles_identifier (h.last.beyond hmid)).bind fun id _ hrest => ?_
  have hname := hmid.trans hrest
  refine (settles_expect (.symbol .openParen) nofun (h.last.beyond hname)).bind fun _ _ hrest => ?_
  have hopen := hname.trans hrest
  have hready := h.within (.inr hopen)
  refine (settles_items hready fun _ hitem =>
    settles_typedVar (hready.last.within hitem)).bind fun params rest hrest => ?_
  have hparams := hopen.trans hrest
  refine Settles.bind (P := fun _ => Beyond ts) ?_ fun ret? rest hret => ?_
  · have hlast := h.last.beyond hparams
    refine settles_acceptIf nofun hlast (fun rest hrest => ?_) (.pure hparams)
    exact (settles_typeExpr (hlast.beyond hrest)).bind fun _ _ hrest' =>
      .pure (hparams.trans (hrest.trans hrest'))
  · refine (settles_blockStart (h.last.beyond hret)).bind fun _ _ hrest => ?_
    have hbody := hret.trans hrest
    have hready := h.beyond hbody
    refine (settles_declarations hready.mono fun mid hmid =>
      settles_localDecl? (hready.within hmid) hself).bind fun decls _ hrest => ?_
    have hdecls := hbody.within hrest
    have hready := h.within (.inr hdecls)
    exact (settles_statements hready fun mid hmid =>
      advances_statement n m mid (hready.within hmid)).bind fun _ _ hrest =>
        .pure (hdecls.trans hrest)

end Functions

theorem starts_funcDef : ∀ n m, Starts n m (funcDef n) (funcDef m)
  | 0, _, _, h, _ => absurd h.left (Nat.not_lt_zero _)
  | _ + 1, 0, _, h, _ => absurd h.right (Nat.not_lt_zero _)
  | n + 1, m + 1, ts, h, hlen =>
    starts_funcDefWith (n := n + 1) (m := m + 1) (starts_funcDef n m) ts h hlen

theorem settles_memberStep {n m : Nat} {self self' : Parser ClassDef} (h : Ready n m ts)
    (hself : 1 < ts.length → Settles self self' ts fun _ => Beyond ts) (acc : List Member) :
    Settles (memberStep n self acc) (memberStep m self' acc) ts fun r rest =>
      (r = none → Beyond ts rest) ∧ ∀ acc', r = some acc' → Beyond ts rest := by
  refine (settles_accept .dedent nofun h.last).bind ?_
  rintro _ rest (⟨rfl, hrest⟩ | ⟨rfl, rfl⟩)
  · exact .pure ⟨fun _ => hrest, nofun⟩
  · refine (settles_accept (.keyword .pass_) nofun h.last).bind ?_
    rintro _ rest (⟨rfl, hrest⟩ | ⟨rfl, rfl⟩)
    · exact (settles_endOfLine (h.last.beyond hrest)).bind fun _ _ hrest' =>
        .pure ⟨nofun, fun _ _ => hrest.trans hrest'⟩
    · refine settles_declStart.bind ?_
      rintro start _ ⟨rfl, hstart⟩
      split
      · exact (settles_varDef h.last).bind fun _ _ hrest => .pure ⟨nofun, fun _ _ => hrest⟩
      · have hlen := h.last.one_lt (hstart _ rfl ▸ nofun)
        exact (starts_funcDef n m _ h hlen).bind fun _ _ hrest => .pure ⟨nofun, fun _ _ => hrest⟩
      · have hlen := h.last.one_lt (hstart _ rfl ▸ nofun)
        exact (hself hlen).bind fun _ _ _ => .fail
      · exact .fail
      · exact .fail
      · exact .fail

theorem starts_classDefWith {n m : Nat} {self self' : Parser ClassDef}
    (hself : Starts (n - 1) (m - 1) self self') :
    Starts n m (classDefWith n self) (classDefWith m self') := by
  intro ts h hlen
  refine (settles_advance hlen).bind fun t mid hmid => ?_
  refine (settles_identifier (h.last.beyond hmid)).bind fun id _ hrest => ?_
  have hname := hmid.trans hrest
  refine (settles_expect (.symbol .openParen) nofun (h.last.beyond hname)).bind fun _ _ hrest => ?_
  have hopen := hname.trans hrest
  refine (settles_identifier (h.last.beyond hopen)).bind fun super _ hrest => ?_
  have hsuper := hopen.trans hrest
  refine (settles_expect (.symbol .closeParen) nofun (h.last.beyond hsuper)).bind
    fun _ _ hrest => ?_
  have hclose := hsuper.trans hrest
  refine (settles_blockStart (h.last.beyond hclose)).bind fun _ _ hrest => ?_
  have hbody := hclose.trans hrest
  have hready := h.beyond hbody
  refine (settles_iterate (E := Beyond _) hready.mono (fun acc mid hmid => ?_) []).bind
    fun _ _ hrest => .pure (hbody.trans hrest)
  have hmember := hready.within hmid
  refine (settles_memberStep hmember.mono (hself mid hmember) acc).mono fun _ _ hr => ?_
  exact ⟨fun hnone => hmid.beyond (hr.1 hnone), hr.2⟩

theorem starts_classDef : ∀ n m, Starts n m (classDef n) (classDef m)
  | 0, _, _, h, _ => absurd h.left (Nat.not_lt_zero _)
  | _ + 1, 0, _, h, _ => absurd h.right (Nat.not_lt_zero _)
  | n + 1, m + 1, ts, h, hlen =>
    starts_classDefWith (n := n + 1) (m := m + 1) (starts_classDef n m) ts h hlen

theorem settles_topDecl? {n m : Nat} (h : Ready n m ts) :
    Settles (topDecl? n) (topDecl? m) ts (Proceeds ts) := by
  refine settles_declStart.bind ?_
  rintro start _ ⟨rfl, hstart⟩
  split
  · exact (settles_varDef h.last).bind fun _ _ hrest => .pure hrest
  · have hlen := h.last.one_lt (hstart _ rfl ▸ nofun)
    exact (starts_funcDef n m _ h hlen).bind fun _ _ hrest => .pure hrest
  · have hlen := h.last.one_lt (hstart _ rfl ▸ nofun)
    exact (starts_classDef n m _ h hlen).bind fun _ _ hrest => .pure hrest
  · exact .pure rfl
  · exact .pure rfl
  · exact .pure rfl

theorem settles_topStep {n m : Nat} (h : Ready n m ts) (acc : List Stmt) :
    Settles (topStep n acc) (topStep m acc) ts fun r rest =>
      Proceeds ts r rest ∧ (r = none → (rest.headD endToken).kind = .eof) := by
  refine settles_current.bind ?_
  rintro _ _ ⟨rfl, rfl⟩
  refine .ite (fun hk => .pure ⟨rfl, fun _ => hk⟩) fun _ => ?_
  exact (advances_statement n m _ h).bind fun _ _ hrest => .pure ⟨hrest, nofun⟩

/-- A program ends at an end of the input, which is not moved past. -/
theorem settles_program {n m : Nat} (h : Ready n m ts) :
    Settles (program n) (program m) ts fun _ rest =>
      Within ts rest ∧ (rest.headD endToken).kind = .eof := by
  refine (settles_declarations h fun mid hmid => settles_topDecl? (h.within hmid)).bind
    fun decls mid hmid => ?_
  have hready := h.within hmid
  have hloop := settles_loopUntil (E := fun rest => (rest.headD endToken).kind = .eof) hready
    (fun acc rest hrest => settles_topStep (hready.within hrest) acc) []
  exact hloop.bind fun _ _ ⟨hrest, hk⟩ => .pure ⟨hmid.trans hrest, hk⟩

/-! ### Positions -/

section Positions

variable {tokens : List Token} {p : Nat → Parser α}

/-- The token that an error names is at a position from `pos` on; it is behind the last token only
where the last token itself was taken unseen. -/
def StopsAt (tokens : List Token) (pos : Nat) (t : Token) : Prop :=
  ∃ pos' ≤ tokens.length, pos ≤ pos' ∧ (tokens.drop pos').headD endToken = t ∧
    (pos' = tokens.length → pos + 1 = tokens.length)

/-- At every position, all bounds that exceed the number of tokens left give one and the same
result: a value at a position of the list, of which `R` holds with the positions before and after,
or an error at a position from there on, but not `exhausted`. -/
def Halts (tokens : List Token) (p : Nat → Parser α) (R : α → Nat → Nat → Prop) : Prop :=
  ∀ pos < tokens.length, ∃ r, r ≠ .error .exhausted ∧
    (∀ n, tokens.length - pos < n → p n (tokens.drop pos) = r) ∧
    (∀ a rest, r = .ok (a, rest) →
      ∃ pos' < tokens.length, rest = tokens.drop pos' ∧ R a pos pos') ∧
    ∀ t c, r = .error (.near t c) → StopsAt tokens pos t

/-- The position has moved on. -/
def Onward (_ : α) (pos pos' : Nat) : Prop := pos < pos'

/-- The position has moved on, or there was nothing to read. -/
def OnwardIfSome (a? : Option α) (pos pos' : Nat) : Prop :=
  if a?.isSome then pos < pos' else pos' = pos

theorem Beyond.position {pos : Nat} (h : Beyond (tokens.drop pos) rest) :
    ∃ pos' < tokens.length, rest = tokens.drop pos' ∧ pos < pos' := by
  have hne := List.length_pos_iff.2 h.ne_nil
  have hlt := h.lt
  rw [List.length_drop] at hlt
  refine ⟨tokens.length - rest.length, by omega, ?_, by omega⟩
  exact List.suffix_iff_eq_drop.1 (h.suffix.trans (List.drop_suffix pos tokens))

theorem Within.position {pos : Nat} (hpos : pos < tokens.length)
    (h : Within (tokens.drop pos) rest) :
    ∃ pos' < tokens.length, rest = tokens.drop pos' ∧ pos ≤ pos' := by
  rcases h with rfl | h
  · exact ⟨pos, hpos, rfl, Nat.le_refl pos⟩
  · obtain ⟨pos', hpos', hrest, hlt⟩ := h.position
    exact ⟨pos', hpos', hrest, Nat.le_of_lt hlt⟩

theorem headD_drop {pos : Nat} {t : Token} (h : t ∈ tokens[pos]?) :
    (tokens.drop pos).headD endToken = t := by
  rw [← List.head?_drop] at h
  rw [List.headD_eq_head?_getD, Option.mem_def.1 h, Option.getD_some]

theorem stopsAt_of_mem {pos : Nat} {t : Token} (h : t ∈ tokens.drop pos) :
    StopsAt tokens pos t := by
  obtain ⟨i, hi⟩ := List.mem_iff_getElem?.1 h
  rw [List.getElem?_drop] at hi
  have hlt := (List.getElem?_eq_some_iff.1 hi).1
  exact ⟨pos + i, by omega, by omega, headD_drop hi, by omega⟩

theorem stopsAt_endToken {pos : Nat} (h : pos + 1 = tokens.length) :
    StopsAt tokens pos endToken :=
  ⟨tokens.length, Nat.le_refl _, by omega, by rw [List.drop_length]; rfl, fun _ => h⟩

theorem halts_of_agree {P : List Token → α → List Token → Prop} {R : α → Nat → Nat → Prop}
    (hlast : EofLast tokens)
    (hp : ∀ n m ts, Ready n m ts → ts ≠ [] → p n ts = p m ts ∧ p n ts ≠ .error .exhausted ∧
      (∀ a rest, p n ts = .ok (a, rest) → P ts a rest) ∧
      ∀ t c, p n ts = .error (.near t c) → t ∈ ts ∨ ts.length = 1 ∧ t = endToken)
    (hR : ∀ a pos rest, pos < tokens.length → P (tokens.drop pos) a rest →
      ∃ pos' < tokens.length, rest = tokens.drop pos' ∧ R a pos pos') : Halts tokens p R := by
  intro pos hpos
  have hlength : (tokens.drop pos).length = tokens.length - pos := List.length_drop
  have hne : tokens.drop pos ≠ [] := by
    rw [ne_eq, List.drop_eq_nil_iff]
    omega
  have hagree (n : Nat) (hn : tokens.length - pos < n) :=
    hp (tokens.length - pos + 1) n (tokens.drop pos)
      ⟨hlast.suffix (List.drop_suffix pos tokens), by omega, by omega⟩ hne
  have ⟨_, hbound, hok, hnear⟩ := hagree _ (Nat.lt_succ_self _)
  refine ⟨_, hbound, fun n hn => (hagree n hn).1.symm,
    fun a rest hr => hR a pos rest hpos (hok a rest hr), fun t c hr => ?_⟩
  rcases hnear t c hr with hmem | ⟨hone, rfl⟩
  · exact stopsAt_of_mem hmem
  · exact stopsAt_endToken (by omega)

/-- What settles for all bounds that suffice halts. -/
theorem halts_of_settles {P : List Token → α → List Token → Prop} {R : α → Nat → Nat → Prop}
    (hlast : EofLast tokens) (hp : ∀ n m ts, Ready n m ts → Settles (p n) (p m) ts (P ts))
    (hR : ∀ a pos rest, pos < tokens.length → P (tokens.drop pos) a rest →
      ∃ pos' < tokens.length, rest = tokens.drop pos' ∧ R a pos pos') : Halts tokens p R :=
  halts_of_agree hlast (fun n m ts h hne => ⟨(hp n m ts h).eq, (hp n m ts h).ne, (hp n m ts h).ok,
    fun t c hr => .inl ((hp n m ts h).near hne t c hr)⟩) hR

theorem halts_of_advances (hlast : EofLast tokens) (hp : ∀ n m, Advances n m (p n) (p m)) :
    Halts tokens p Onward :=
  halts_of_settles hlast hp fun _ _ _ _ h => h.position

theorem halts_of_proceeds {p : Nat → Parser (Option α)} (hlast : EofLast tokens)
    (hp : ∀ n m ts, Ready n m ts → Settles (p n) (p m) ts (Proceeds ts)) :
    Halts tokens p OnwardIfSome := by
  refine halts_of_settles hlast hp ?_
  rintro (_ | a) pos rest hpos h
  · exact ⟨pos, hpos, h, rfl⟩
  · exact Beyond.position h

/-- A parser that moves past the first token unseen fails at the last one. -/
theorem halts_of_starts (hlast : EofLast tokens) (hp : ∀ n m, Starts n m (p n) (p m))
    {c : Complaint} (hone : ∀ n t, p (n + 1) [t] = .error (.near endToken c)) :
    Halts tokens p Onward := by
  refine halts_of_agree (P := fun ts _ => Beyond ts) hlast ?_ fun _ _ _ _ h => h.position
  intro n m ts h hne
  by_cases hlen : 1 < ts.length
  · have hsettles := hp n m ts h hlen
    exact ⟨hsettles.eq, hsettles.ne, hsettles.ok,
      fun t c hr => .inl (hsettles.near hne t c hr)⟩
  · obtain ⟨t, rfl⟩ : ∃ t, ts = [t] :=
      List.length_eq_one_iff.1 (by have := List.length_pos_iff.2 hne; omega)
    match n, m, h with
    | 0, _, h => exact absurd h.left (Nat.not_lt_zero _)
    | _ + 1, 0, h => exact absurd h.right (Nat.not_lt_zero _)
    | n + 1, m + 1, _ =>
      rw [hone n t, hone m t]
      refine ⟨rfl, nofun, nofun, ?_⟩
      rintro _ _ ⟨⟩
      exact .inr ⟨rfl, rfl⟩

/-- Every function of the parser halts wherever it is called, and each of them but the two that
look for a declaration moves on where it returns. -/
structure MakesProgress (tokens : List Token) : Prop where
  identifier : Halts tokens (fun _ => Parser.identifier) Onward
  endOfLine : Halts tokens (fun _ => Parser.endOfLine) Onward
  literal : Halts tokens (fun _ => Parser.literal) Onward
  typeExpr : Halts tokens (fun _ => Parser.typeExpr) Onward
  typedVar : Halts tokens (fun _ => Parser.typedVar) Onward
  varDef : Halts tokens (fun _ => Parser.varDef) Onward
  blockStart : Halts tokens (fun _ => Parser.blockStart) Onward
  /-- The arguments of a call, from the parenthesis that opens them. -/
  arguments : Halts tokens (fun n => do
    let _ ← advance
    Parser.arguments n (Parser.expression n)) Onward
  atom : Halts tokens (fun n => Parser.atom n (Parser.expression n)) Onward
  primary : Halts tokens (fun n => Parser.primary n (Parser.expression n)) Onward
  negation : Halts tokens (fun n => Parser.negation n (Parser.expression n)) Onward
  comparison : Halts tokens (fun n => Parser.comparison n (Parser.expression n)) Onward
  denial : Halts tokens (fun n => Parser.denial n (Parser.expression n)) Onward
  conjunction : Halts tokens (fun n =>
    logical n .and_ .and (Parser.denial n (Parser.expression n))) Onward
  disjunction : Halts tokens (fun n => Parser.disjunction n (Parser.expression n)) Onward
  expression : Halts tokens Parser.expression Onward
  simple : Halts tokens Parser.simple Onward
  branches : Halts tokens (fun n =>
    Parser.branches (Parser.expression n) (Parser.block n (Parser.statement n)) n) Onward
  statements : Halts tokens (fun n => Parser.statements n (Parser.statement n)) Onward
  block : Halts tokens (fun n => Parser.block n (Parser.statement n)) Onward
  statement : Halts tokens Parser.statement Onward
  funcDef : Halts tokens Parser.funcDef Onward
  classDef : Halts tokens Parser.classDef Onward
  localDecl? : Halts tokens (fun n => Parser.localDecl? (Parser.funcDef n)) OnwardIfSome
  topDecl? : Halts tokens Parser.topDecl? OnwardIfSome
  /-- A whole program, which ends before an end of the input. -/
  program : Halts tokens Parser.program fun _ pos pos' =>
    pos ≤ pos' ∧ ∀ t ∈ tokens[pos']?, t.kind = .eof

/-- The bound of the part is that of the whole. -/
theorem Advances.mono {n m : Nat} {p q : Parser α} (h : Advances n m p q) :
    Advances (n - 1) (m - 1) p q :=
  fun ts hready => h ts hready.mono

theorem makesProgress (hlast : EofLast tokens) : MakesProgress tokens := by
  have hexpr (n m : Nat) := (advances_expression n m).mono
  have hstmt (n m : Nat) := (advances_statement n m).mono
  exact {
    identifier := halts_of_advances hlast fun _ _ _ h => settles_identifier h.last
    endOfLine := halts_of_advances hlast fun _ _ _ h => settles_endOfLine h.last
    literal := halts_of_advances hlast fun _ _ _ h => settles_literal h.last
    typeExpr := halts_of_advances hlast fun _ _ _ h => settles_typeExpr h.last
    typedVar := halts_of_advances hlast fun _ _ _ h => settles_typedVar h.last
    varDef := halts_of_advances hlast fun _ _ _ h => settles_varDef h.last
    blockStart := halts_of_advances hlast fun _ _ _ h => settles_blockStart h.last
    arguments := halts_of_starts hlast (fun n m ts h hlen => (settles_advance hlen).bind
      fun _ _ hrest => (settles_exprItems (hexpr n m) (h.beyond hrest)).mono
        fun _ _ hrest' => hrest.trans hrest') fun _ _ => rfl
    atom := halts_of_advances hlast fun n m => advances_atom (hexpr n m)
    primary := halts_of_advances hlast fun n m => advances_primary (hexpr n m)
    negation := halts_of_advances hlast fun n m => advances_negation (hexpr n m)
    comparison := halts_of_advances hlast fun n m => advances_comparison (hexpr n m)
    denial := halts_of_advances hlast fun n m => advances_denial (hexpr n m)
    conjunction := halts_of_advances hlast fun n m =>
      advances_logical (advances_denial (hexpr n m))
    disjunction := halts_of_advances hlast fun n m => advances_disjunction (hexpr n m)
    expression := halts_of_advances hlast advances_expression
    simple := halts_of_advances hlast fun _ _ => advances_simple
    branches := halts_of_starts hlast (fun n m ts h hlen => settles_branches
      (advances_expression n m) (advances_block (hstmt n m)) h h hlen) fun _ _ => rfl
    statements := halts_of_advances hlast fun n m ts h => settles_statements h
      fun mid hmid => advances_statement n m mid (h.within hmid)
    block := halts_of_advances hlast fun n m => advances_block (hstmt n m)
    statement := halts_of_advances hlast advances_statement
    funcDef := halts_of_starts hlast starts_funcDef fun _ _ => rfl
    classDef := halts_of_starts hlast starts_classDef fun _ _ => rfl
    localDecl? := halts_of_proceeds hlast fun n m _ h => settles_localDecl? h (starts_funcDef n m)
    topDecl? := halts_of_proceeds hlast fun _ _ _ h => settles_topDecl? h
    program := halts_of_settles hlast (fun _ _ _ h => settles_program h)
      fun _ _ _ hpos ⟨hrest, hk⟩ => by
        obtain ⟨pos', hpos', rfl, hle⟩ := hrest.position hpos
        exact ⟨pos', hpos', rfl, hle, fun t ht => by rwa [headD_drop ht] at hk⟩ }

end Positions

/-- Wherever the last token is the end of the input, each function of the parser moves on or
fails, so that parsing ends, with a program or with an error at one of the tokens. -/
theorem parsing_ends {tokens : List Token}
    (hlast : tokens.getLast?.map Token.kind = some .eof) :
    MakesProgress tokens ∧
      ((∃ p, parseTokens tokens = .ok p) ∨ ∃ e, parseTokens tokens = .error e ∧ e ≠ .exhausted ∧
        ∀ t c, e = .near t c → t ∈ tokens) ∧
      ∀ n, tokens.length < n → (program n tokens).map Prod.fst = parseTokens tokens := by
  obtain ⟨last, hget, hkind⟩ := Option.map_eq_some_iff.1 hlast
  have heof : EofLast tokens := fun t ht => by
    obtain rfl : last = t := Option.some.inj (hget.symm.trans ht)
    exact hkind
  have hne : tokens ≠ [] := by
    rintro rfl
    cases hget
  have hsettles (n : Nat) (hn : tokens.length < n) :=
    settles_program (⟨heof, Nat.lt_succ_self _, hn⟩ : Ready (tokens.length + 1) n tokens)
  refine ⟨makesProgress heof, ?_, fun n hn => by rw [parseTokens, (hsettles n hn).eq]⟩
  have hparse := hsettles _ (Nat.lt_succ_self _)
  rw [parseTokens]
  cases hr : program (tokens.length + 1) tokens with
  | ok r => exact .inl ⟨r.1, rfl⟩
  | error e =>
    refine .inr ⟨e, rfl, ?_, ?_⟩
    · rintro rfl
      exact hparse.ne hr
    · rintro t c rfl
      exact hparse.near hne t c hr

/-- A bracket that is never closed. -/
theorem parsing_ends_unclosed :
    let tokens : List Token := [⟨.symbol .openBracket, ⟨1, 1⟩⟩, ⟨.integer 1, ⟨1, 2⟩⟩,
      ⟨.newline, ⟨1, 3⟩⟩, ⟨.eof, ⟨2, 1⟩⟩]
    MakesProgress tokens ∧
      parseTokens tokens = .error (.near ⟨.newline, ⟨1, 3⟩⟩ .commaOfElems) ∧
      ∀ n, 4 < n → (program n tokens).map Prod.fst = parseTokens tokens := by
  intro tokens
  have hlast : tokens.getLast?.map Token.kind = some .eof := rfl
  have ⟨hprogress, _, hbound⟩ := parsing_ends hlast
  exact ⟨hprogress, rfl, hbound⟩

end Parser

end ChocoRv
