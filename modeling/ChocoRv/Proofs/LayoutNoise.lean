import ChocoRv.Proofs.Accepted
import ChocoRv.Proofs.Trails
import Mathlib.Data.List.Forall2

/-!
# Layout noise

Blank lines, white space and comments at the ends of lines and carriage returns before newlines do
not change a program. Each such edit sends the tokens of a text to other places, and no two places
to one: the tokens are otherwise the same, and since the grammar does not look at places, so is the
tree.
-/

namespace ChocoRv

/-! ### Edits -/

/-- The text is empty or its last line is ended. -/
def Bytes.Ended (s : Bytes) : Prop := s = [] ∨ s.getLast? = some '\n'.toUInt8

/-- The line number that line `n` gets where a line is inserted after the first `k`. -/
def shiftedAfter (k n : Nat) : Nat := if n ≤ k then n else n + 1

/-- One change of the layout, with the number that each line gets by it. -/
inductive Edit : (Nat → Nat) → Bytes → Bytes → Prop
  /-- A blank line between two lines or at either end. -/
  | insert {before after trail : Bytes} (ended : before.Ended) (blank : Trail trail) :
      Edit (shiftedAfter (before.count '\n'.toUInt8)) (before ++ after)
        (before ++ (trail ++ ['\n'.toUInt8]) ++ after)
  /-- White space and a comment at the end of a line. -/
  | append {before after trail : Bytes} (atEnd : ∀ b ∈ after.head?, b = '\n'.toUInt8)
      (blank : Trail trail) : Edit id (before ++ after) (before ++ trail ++ after)
  /-- A carriage return before every newline. -/
  | returns (s : Bytes) : Edit id s
      (s.flatMap fun b => if b = '\n'.toUInt8 then ['\r'.toUInt8, '\n'.toUInt8] else [b])

/-- Any number of changes one after the other. -/
inductive Noise : (Nat → Nat) → Bytes → Bytes → Prop
  | refl (s : Bytes) : Noise id s s
  | snoc {σ τ : Nat → Nat} {s s' s'' : Bytes} (before : Noise σ s s') (last : Edit τ s' s'') :
      Noise (τ ∘ σ) s s''

/-! ### Texts as lines -/

namespace Bytes

theorem Ended.tail {c : UInt8} {s : Bytes} (h : Ended (c :: s)) : Ended s := by
  cases s with
  | nil => exact .inl rfl
  | cons d s =>
    rcases h with h | h
    · cases h
    · exact .inr (by rw [← h, List.getLast?_cons_cons])

theorem lines_eq_nil {s : Bytes} (h : lines s = []) : s = [] := by
  rw [← flatten_lines s, h]
  rfl

/-- Lines are added to a text after its last line has ended. -/
theorem Ended.lines_append {s : Bytes} (h : s.Ended) (x : Bytes) :
    lines (s ++ x) = lines s ++ lines x := by
  induction s with
  | nil => rfl
  | cons c s ih =>
    have ih := ih h.tail
    rw [List.cons_append, lines, lines]
    by_cases hc : c = '\n'.toUInt8
    · rw [if_pos hc, if_pos hc, ih]
      rfl
    · rw [if_neg hc, if_neg hc, ih]
      cases hs : lines s with
      | cons line rest => rfl
      | nil =>
        -- then `c` is the last byte, and no newline
        obtain rfl := lines_eq_nil hs
        rcases h with h | h
        · cases h
        · exact absurd (Option.some.inj h) hc

theorem Ended.length_lines {s : Bytes} (h : s.Ended) : s.lines.length = s.count '\n'.toUInt8 := by
  induction s with
  | nil => rfl
  | cons c s ih =>
    have ih := ih h.tail
    rw [lines, List.count_cons]
    by_cases hc : c = '\n'.toUInt8
    · rw [if_pos hc, if_pos (beq_iff_eq.2 hc), List.length_cons, ih]
    · rw [if_neg hc, if_neg (by simpa using hc), ← ih]
      cases hs : lines s with
      | cons line rest => rfl
      | nil =>
        obtain rfl := lines_eq_nil hs
        rcases h with h | h
        · cases h
        · exact absurd (Option.some.inj h) hc

/-- A line up to its newline. -/
theorem lines_newline {s : Bytes} (h : '\n'.toUInt8 ∉ s) (x : Bytes) :
    lines (s ++ '\n'.toUInt8 :: x) = (s ++ ['\n'.toUInt8]) :: lines x := by
  induction s with
  | nil => rfl
  | cons c s ih =>
    rw [List.mem_cons, not_or] at h
    rw [List.cons_append, lines, if_neg (Ne.symm h.1), ih h.2]
    rfl

theorem lines_of_notMem {s : Bytes} (h : '\n'.toUInt8 ∉ s) (hne : s ≠ []) : lines s = [s] := by
  induction s with
  | nil => exact absurd rfl hne
  | cons c s ih =>
    rw [List.mem_cons, not_or] at h
    rw [lines, if_neg (Ne.symm h.1)]
    cases s with
    | nil => rfl
    | cons d s => rw [ih h.2 (List.cons_ne_nil d s)]

/-- A text is what its ended lines hold and then the rest of a line. -/
theorem exists_ended (s : Bytes) : ∃ before line, s = before ++ line ∧ before.Ended ∧
    '\n'.toUInt8 ∉ line := by
  induction s using List.reverseRecOn with
  | nil => exact ⟨[], [], rfl, .inl rfl, List.not_mem_nil⟩
  | append_singleton s b ih =>
    by_cases hb : b = '\n'.toUInt8
    · subst hb
      exact ⟨s ++ ['\n'.toUInt8], [], by simp, .inr (by simp), List.not_mem_nil⟩
    · obtain ⟨before, line, rfl, hended, hline⟩ := ih
      refine ⟨before, line ++ [b], by simp, hended, ?_⟩
      rw [List.mem_append, List.mem_singleton, not_or]
      exact ⟨hline, Ne.symm hb⟩

end Bytes

namespace Lexer

theorem bind_eq_ok {ε α β : Type} {x : Except ε α} {f : α → Except ε β} {b : β}
    (h : x >>= f = .ok b) : ∃ a, x = .ok a ∧ f a = .ok b := by
  cases x with
  | error e => cases h
  | ok a => exact ⟨a, rfl, h⟩

/-- The rest of a text is a line, with the newline `r` if there is one, and then other lines. -/
theorem linesTokens_line {line r rest : Bytes} {n : Nat} {stack : List Nat}
    (hline : '\n'.toUInt8 ∉ line) (hr : r = ['\n'.toUInt8] ∨ r = [] ∧ rest = []) :
    linesTokens n stack (line ++ (r ++ rest)).lines = do
      let (ts, stack) ← lineTokens n stack (line ++ r)
      let (us, stack) ← linesTokens (n + 1) stack rest.lines
      return (ts ++ us, stack) := by
  rcases hr with rfl | ⟨rfl, rfl⟩
  · rw [List.singleton_append, Bytes.lines_newline hline]
    rfl
  · by_cases hne : line = []
    · subst hne
      rfl
    · rw [List.append_nil, List.append_nil, Bytes.lines_of_notMem hline hne]
      rfl

/-- The tokens of a text are those of the lines before a line, of this line and of the lines behind
it. -/
theorem linesTokens_around {outer line r rest : Bytes} {tokens : List Token} {stack : List Nat}
    (hended : outer.Ended) (hline : '\n'.toUInt8 ∉ line)
    (hr : r = ['\n'.toUInt8] ∨ r = [] ∧ rest = []) :
    linesTokens 1 (widths []) (outer ++ (line ++ (r ++ rest))).lines = .ok (tokens, stack) ↔
      ∃ us stack₁ first stack₂ vs,
        linesTokens 1 (widths []) outer.lines = .ok (us, stack₁) ∧
        lineTokens (1 + outer.count '\n'.toUInt8) stack₁ (line ++ r) = .ok (first, stack₂) ∧
        linesTokens (1 + outer.count '\n'.toUInt8 + 1) stack₂ rest.lines = .ok (vs, stack) ∧
        tokens = us ++ (first ++ vs) := by
  rw [hended.lines_append]
  constructor
  · intro h
    obtain ⟨us, stack₁, ws, hus, hws, rfl⟩ := linesTokens_append_ok h
    rw [hended.length_lines, linesTokens_line hline hr] at hws
    obtain ⟨⟨first, stack₂⟩, hfirst, hws⟩ := bind_eq_ok hws
    obtain ⟨⟨vs, stack₃⟩, hvs, hws⟩ := bind_eq_ok hws
    obtain ⟨rfl, rfl⟩ := Prod.mk.inj (Except.ok.inj hws)
    exact ⟨us, stack₁, first, stack₂, vs, hus, hfirst, hvs, rfl⟩
  · rintro ⟨us, stack₁, first, stack₂, vs, hus, hfirst, hvs, rfl⟩
    rw [linesTokens_append, hus]
    simp only [bind, Except.bind, hended.length_lines, linesTokens_line hline hr, hfirst, hvs]
    rfl

end Lexer

/-! ### Each edit moves tokens only -/

/-- The edit sends the tokens of the text to other places, each to the line that `τ` tells. -/
def Respects (τ : Nat → Nat) (s s' : Bytes) : Prop :=
  ∀ ts, tokenize s = .ok ts → ∃ ρ : Loc → Loc, Function.Injective ρ ∧
    (∀ t ∈ ts, (ρ t.loc).line = τ t.loc.line ∧
      (t.kind ≠ .newline → (ρ t.loc).col = t.loc.col)) ∧
    tokenize s' = .ok (ts.map (Token.moved ρ))

namespace Respects

theorem refl (s : Bytes) : Respects id s s := by
  intro ts hts
  refine ⟨id, Function.injective_id, fun t _ => ⟨rfl, fun _ => rfl⟩, ?_⟩
  rw [hts]
  congr 1
  exact (List.map_id ts).symm

theorem trans {σ τ : Nat → Nat} {s s' s'' : Bytes} (h : Respects σ s s')
    (h' : Respects τ s' s'') : Respects (τ ∘ σ) s s'' := by
  intro ts hts
  obtain ⟨ρ, hρ, hplaces, hts'⟩ := h ts hts
  obtain ⟨ρ', hρ', hplaces', hts''⟩ := h' _ hts'
  refine ⟨ρ' ∘ ρ, hρ'.comp hρ, fun t ht => ?_, ?_⟩
  · obtain ⟨hline, hcol⟩ := hplaces t ht
    obtain ⟨hline', hcol'⟩ := hplaces' _ (List.mem_map_of_mem ht)
    refine ⟨?_, fun hkind => ?_⟩
    · rw [Function.comp_apply, Function.comp_apply, ← hline]
      exact hline'
    · exact (hcol' hkind).trans (hcol hkind)
  · rw [hts'', List.map_map]
    rfl

end Respects

theorem count_newline_of_trail {t : Bytes} (h : Trail t) : t.count '\n'.toUInt8 = 0 :=
  List.count_eq_zero.2 h.newline_notMem

section Steps

open Lexer

variable {s s' before after trail : Bytes} {τ : Nat → Nat} {ρ : Loc → Loc}

theorem tokenize_moved {tokens ts : List Token} {stack : List Nat}
    (h : linesTokens 1 (widths []) s.lines = .ok (tokens, stack))
    (h' : linesTokens 1 (widths []) s'.lines = .ok (tokens.map (Token.moved ρ), stack))
    (hlast : ρ ⟨s.count '\n'.toUInt8 + 1, 1⟩ = ⟨s'.count '\n'.toUInt8 + 1, 1⟩)
    (hts : tokenize s = .ok ts) : tokenize s' = .ok (ts.map (Token.moved ρ)) := by
  obtain ⟨tokens', stack', loc, hlines, rfl, rfl⟩ := tokenize_eq_ok.1 hts
  obtain ⟨rfl, rfl⟩ := Prod.mk.inj (Except.ok.inj (h.symm.trans hlines))
  refine tokenize_eq_ok.2 ⟨_, _, _, h', rfl, ?_⟩
  simp only [List.map_append, List.map_replicate, List.map_singleton, Token.moved_mk, hlast]

/-- The tokens of the lines before stand before. -/
theorem line_le_of_lines {us : List Token} {stack : List Nat} (hended : before.Ended)
    (h : linesTokens 1 (widths []) before.lines = .ok (us, stack)) :
    ∀ t ∈ us, t.loc.line ≤ before.count '\n'.toUInt8 := by
  intro t ht
  have hlt := ((linesTokens_rows h).1.line t ht).2
  rw [hended.length_lines] at hlt
  omega

theorem shiftedAfter_injective (k : Nat) : Function.Injective (shiftedAfter k) := by
  intro a b h
  simp only [shiftedAfter] at h
  split at h <;> split at h <;> omega

/-- Where a token goes when a line is inserted after the first `k`. -/
def inserted (k : Nat) (p : Loc) : Loc := ⟨shiftedAfter k p.line, p.col⟩

theorem inserted_injective (k : Nat) : Function.Injective (inserted k) := by
  rintro ⟨l, c⟩ ⟨l', c'⟩ h
  obtain ⟨hl, hc⟩ := Loc.mk.inj h
  rw [Loc.mk.injEq]
  exact ⟨shiftedAfter_injective _ hl, hc⟩

theorem inserted_of_le {k : Nat} {p : Loc} (h : p.line ≤ k) : inserted k p = p := by
  rw [inserted, shiftedAfter, if_pos h]

theorem inserted_of_lt {k n : Nat} (h : k < n) (c : Nat) : inserted k ⟨n, c⟩ = ⟨n + 1, c⟩ := by
  rw [inserted, shiftedAfter, if_neg (Nat.not_le.2 h)]

theorem respects_insert (hended : before.Ended) (hblank : Trail trail) :
    Respects (shiftedAfter (before.count '\n'.toUInt8)) (before ++ after)
      (before ++ (trail ++ ['\n'.toUInt8]) ++ after) := by
  intro ts hts
  obtain ⟨tokens, stack, loc, hlines, -, -⟩ := tokenize_eq_ok.1 hts
  have hsplit := hlines
  rw [hended.lines_append] at hsplit
  obtain ⟨us, stack₁, vs, hus, hvs, rfl⟩ := linesTokens_append_ok hsplit
  rw [hended.length_lines] at hvs
  have husFixed : us.map (Token.moved (inserted (before.count '\n'.toUInt8))) = us :=
    map_moved_of_fixed fun t ht => inserted_of_le (line_le_of_lines hended hus t ht)
  have hshift (i c : Nat) : inserted (before.count '\n'.toUInt8)
      ⟨1 + before.count '\n'.toUInt8 + i, c⟩ = ⟨1 + before.count '\n'.toUInt8 + 1 + i, c⟩ := by
    rw [inserted_of_lt (by omega), Nat.add_right_comm]
  have hblankLine : isBlankLine (trail ++ ['\n'.toUInt8]) = true := by
    have hnewline : ∀ b ∈ ['\n'.toUInt8], b = '\n'.toUInt8 := fun b hb => List.mem_singleton.1 hb
    exact (isBlankLine_append_trail hnewline hblank : isBlankLine ([] ++ (trail ++ _)) = _)
  have hnew : linesTokens 1 (widths []) (before ++ (trail ++ ['\n'.toUInt8]) ++ after).lines =
      .ok ((us ++ vs).map (Token.moved (inserted (before.count '\n'.toUInt8))), stack) := by
    have hrest := linesTokens_moved hshift hvs
    rw [List.append_assoc, hended.lines_append, List.append_assoc, List.singleton_append,
      Bytes.lines_newline hblank.newline_notMem, linesTokens_append, hus]
    simp only [bind, Except.bind, hended.length_lines, linesTokens, lineTokens_blank hblankLine,
      hrest]
    rw [List.map_append, husFixed]
    rfl
  refine ⟨_, inserted_injective _, fun t _ => ⟨rfl, fun _ => rfl⟩,
    tokenize_moved hlines hnew ?_ hts⟩
  have hcount := count_newline_of_trail hblank
  rw [inserted_of_lt (by rw [List.count_append]; omega)]
  simp only [List.count_append, hcount, List.count_singleton_self]
  congr 1
  omega

/-- When the tokens of one line move and no others do, so do those of the text. -/
theorem tokenize_line_moved {outer line line' r rest : Bytes} {stack₁ stack₂ stack₃ : List Nat}
    {us first vs ts : List Token} (hended : outer.Ended) (hline : '\n'.toUInt8 ∉ line)
    (hline' : '\n'.toUInt8 ∉ line') (hr : r = ['\n'.toUInt8] ∨ r = [] ∧ rest = [])
    (hus : linesTokens 1 (widths []) outer.lines = .ok (us, stack₁))
    (hfirst : lineTokens (1 + outer.count '\n'.toUInt8) stack₁ (line ++ r) = .ok (first, stack₂))
    (hvs : linesTokens (1 + outer.count '\n'.toUInt8 + 1) stack₂ rest.lines = .ok (vs, stack₃))
    (hnew : lineTokens (1 + outer.count '\n'.toUInt8) stack₁ (line' ++ r) =
      .ok (first.map (Token.moved ρ), stack₂))
    (husFixed : us.map (Token.moved ρ) = us) (hvsFixed : vs.map (Token.moved ρ) = vs)
    (hlast : ∀ n, ρ ⟨n, 1⟩ = ⟨n, 1⟩) (hts : tokenize (outer ++ (line ++ (r ++ rest))) = .ok ts) :
    tokenize (outer ++ (line' ++ (r ++ rest))) = .ok (ts.map (Token.moved ρ)) := by
  refine tokenize_moved
    ((linesTokens_around hended hline hr).2 ⟨_, _, _, _, _, hus, hfirst, hvs, rfl⟩)
    ((linesTokens_around hended hline' hr).2 ⟨_, _, _, _, _, hus, hnew, hvs, ?_⟩) ?_ hts
  · rw [List.map_append, List.map_append, husFixed, hvsFixed]
  · rw [hlast]
    simp only [List.count_append, List.count_eq_zero.2 hline, List.count_eq_zero.2 hline']

/-- White space and a comment at the end of a line. -/
theorem respects_trail {outer line r rest : Bytes} (hended : outer.Ended)
    (hline : '\n'.toUInt8 ∉ line) (hr : r = ['\n'.toUInt8] ∨ r = [] ∧ rest = [])
    (hblank : Trail trail) :
    Respects id (outer ++ (line ++ (r ++ rest))) (outer ++ (line ++ trail ++ (r ++ rest))) := by
  intro ts hts
  have hnewlines : ∀ b ∈ r, b = '\n'.toUInt8 := by
    rcases hr with rfl | ⟨rfl, -⟩
    · exact fun b hb => List.mem_singleton.1 hb
    · exact fun b hb => absurd hb List.not_mem_nil
  have hline' : '\n'.toUInt8 ∉ line ++ trail := by
    rw [List.mem_append, not_or]
    exact ⟨hline, hblank.newline_notMem⟩
  obtain ⟨tokens, stack, loc, hlines, hloc, hall⟩ := tokenize_eq_ok.1 hts
  obtain ⟨us, stack₁, first, stack₂, vs, hus, hfirst, hvs, rfl⟩ :=
    (linesTokens_around hended hline hr).1 hlines
  cases hempty : isBlankLine (line ++ r) with
  | true =>
    obtain ⟨rfl, rfl⟩ :=
      Prod.mk.inj (Except.ok.inj (hfirst.symm.trans (lineTokens_blank hempty)))
    refine ⟨id, Function.injective_id, fun t _ => ⟨rfl, fun _ => rfl⟩, ?_⟩
    refine tokenize_line_moved hended hline hline' hr hus hfirst hvs ?_ (List.map_id us)
      (List.map_id vs) (fun _ => rfl) hts
    rw [List.append_assoc]
    exact lineTokens_blank ((isBlankLine_append_trail hnewlines hblank).trans hempty)
  | false =>
    obtain ⟨b, hb, -⟩ := exists_not_space hnewlines hempty
    obtain ⟨hnew, hfirstFixed⟩ := lineTokens_append_trail hnewlines hblank hfirst hempty
    rw [← List.append_assoc] at hnew
    have hus' : ∀ t ∈ us, trailed (1 + outer.count '\n'.toUInt8) line.length trail.length t.loc =
        t.loc := by
      intro t ht
      have hle := line_le_of_lines hended hus t ht
      exact trailed_of_line_ne (by omega)
    have hvs' : ∀ t ∈ vs, trailed (1 + outer.count '\n'.toUInt8) line.length trail.length t.loc =
        t.loc := by
      intro t ht
      have hle := ((linesTokens_scanned hvs).1 t ht).1
      exact trailed_of_line_ne (by omega)
    have hlast (n : Nat) : trailed (1 + outer.count '\n'.toUInt8) line.length trail.length ⟨n, 1⟩ =
        ⟨n, 1⟩ := trailed_of_col_le (List.length_pos_of_mem hb)
    refine ⟨_, trailed_injective _ _ _, fun t ht => ⟨line_trailed _ _ _ _, fun hkind => ?_⟩,
      tokenize_line_moved hended hline hline' hr hus hfirst hvs hnew (map_moved_of_fixed hus')
        (map_moved_of_fixed hvs') hlast hts⟩
    rw [hall] at ht
    simp only [List.mem_append, List.mem_singleton] at ht
    rcases ht with ((ht | ht | ht) | ht) | rfl
    · rw [hus' t ht]
    · rw [hfirstFixed t ht hkind]
    · rw [hvs' t ht]
    · rw [List.eq_of_mem_replicate ht, hloc, hlast]
    · rw [hloc, hlast]

theorem respects_append (hafter : ∀ b ∈ after.head?, b = '\n'.toUInt8) (hblank : Trail trail) :
    Respects id (before ++ after) (before ++ trail ++ after) := by
  obtain ⟨outer, line, rfl, hended, hline⟩ := before.exists_ended
  obtain ⟨r, rest, rfl, hr⟩ : ∃ r rest, after = r ++ rest ∧
      (r = ['\n'.toUInt8] ∨ r = [] ∧ rest = []) := by
    cases after with
    | nil => exact ⟨[], [], rfl, .inr ⟨rfl, rfl⟩⟩
    | cons b rest =>
      obtain rfl := hafter b rfl
      exact ⟨['\n'.toUInt8], rest, rfl, .inl rfl⟩
  have h := respects_trail hended hline hr hblank
  simp only [List.append_assoc] at h ⊢
  exact h

/-- Carriage returns are appended to one line after the other. -/
theorem respects_returns (before after : Bytes) : Respects id (before ++ after)
    (before ++ after.flatMap fun b =>
      if b = '\n'.toUInt8 then ['\r'.toUInt8, '\n'.toUInt8] else [b]) := by
  have hreturn : Trail ['\r'.toUInt8] := .gap fun b hb => .inr (List.mem_singleton.1 hb)
  induction after generalizing before with
  | nil => exact .refl _
  | cons b after ih =>
    rw [List.flatMap_cons]
    by_cases hb : b = '\n'.toUInt8
    · subst hb
      have hfirst : Respects id (before ++ '\n'.toUInt8 :: after)
          (before ++ ['\r'.toUInt8] ++ '\n'.toUInt8 :: after) :=
        respects_append (fun b hb => (Option.some.inj hb).symm) hreturn
      have hrest := ih (before ++ ['\r'.toUInt8, '\n'.toUInt8])
      simp only [List.append_assoc, List.cons_append, List.nil_append, if_true] at hfirst hrest ⊢
      exact hfirst.trans hrest
    · have hrest := ih (before ++ [b])
      simp only [List.append_assoc, List.cons_append, List.nil_append, if_neg hb] at hrest ⊢
      exact hrest

/-- What one edit does to the tokens. -/
theorem Edit.respects (h : Edit τ s s') : Respects τ s s' := by
  cases h with
  | insert hended hblank => exact respects_insert hended hblank
  | append hafter hblank => exact respects_append hafter hblank
  | returns s => exact respects_returns [] s

/-- What any number of edits does to them. -/
theorem Noise.respects (h : Noise τ s s') : Respects τ s s' := by
  induction h with
  | refl s => exact .refl s
  | snoc _ last ih => exact ih.trans last.respects

end Steps

/-! ### The tree -/

theorem parse_moved {s s' : Bytes} {ts : List Token} {ρ : Loc → Loc} (hρ : Function.Injective ρ)
    (h : tokenize s = .ok ts) (h' : tokenize s' = .ok (ts.map (Token.moved ρ))) :
    (parse s').toOption.map Program.dump = (parse s).toOption.map Program.dump := by
  rcases hparse : parse s with e | p
  · -- a tree of the other text could be moved back
    rcases hparse' : parse s' with e' | q
    · rfl
    · obtain ⟨ts', hts', hderives⟩ := parse_iff.1 hparse'
      obtain rfl := Except.ok.inj (h'.symm.trans hts')
      have : Nonempty Loc := ⟨⟨1, 1⟩⟩
      obtain ⟨back, hback⟩ := hρ.hasLeftInverse
      have hid : Token.moved back ∘ Token.moved ρ = id := funext fun t => t.moved_moved ρ hback
      have hmoved : (q.moved back).Derives _ := hderives.moved
      rw [List.map_map, hid, List.map_id] at hmoved
      rw [parse_iff.2 ⟨ts, h, hmoved⟩] at hparse
      cases hparse
  · obtain ⟨ts', hts', hderives⟩ := parse_iff.1 hparse
    obtain rfl := Except.ok.inj (h.symm.trans hts')
    rw [parse_iff.2 ⟨_, h', hderives.moved⟩]
    exact congrArg some (p.dump_moved ρ)

/-- Layout noise changes no token but for the number of its line and, of a NEWLINE, its column, and
it does not change what the parser makes of them. -/
theorem tokenize_noise {σ : Nat → Nat} {s s' : Bytes} {ts : List Token} (hnoise : Noise σ s s')
    (h : tokenize s = .ok ts) :
    (∃ ts', tokenize s' = .ok ts' ∧ List.Forall₂ (fun t t' => t'.kind = t.kind ∧
      t'.loc.line = σ t.loc.line ∧ (t.kind ≠ .newline → t'.loc.col = t.loc.col)) ts ts') ∧
    (parse s').toOption.map Program.dump = (parse s).toOption.map Program.dump := by
  obtain ⟨ρ, hρ, hplaces, h'⟩ := hnoise.respects ts h
  refine ⟨⟨_, h', ?_⟩, parse_moved hρ h h'⟩
  exact List.forall₂_map_right_iff.2 (List.forall₂_same.2 fun t ht => ⟨rfl, hplaces t ht⟩)

/-- A block and a last line that is not ended. -/
def quiet : Bytes := txt "if a:\n  b = 1\nc"

/-- The same with a comment line in front, a comment behind the test and carriage returns. -/
def noisy : Bytes := txt "\t# x\r\nif a: # y\r\n  b = 1\r\nc"

theorem quiet_noise : Noise (id ∘ id ∘ shiftedAfter 0 ∘ id) quiet noisy := by
  have hgap : ∀ b ∈ txt "\t", Byte.isBlank b = true ∨ b = '\r'.toUInt8 := by simp [txt]; decide
  have hgap' : ∀ b ∈ txt " ", Byte.isBlank b = true ∨ b = '\r'.toUInt8 := by simp [txt]; decide
  have hinsert : Edit (shiftedAfter 0) quiet (txt "\t# x\nif a:\n  b = 1\nc") :=
    @Edit.insert [] quiet _ (.inl rfl) (@Trail.comment _ (txt " x") hgap (by decide))
  have happend : Edit id (txt "\t# x\nif a:\n  b = 1\nc")
      (txt "\t# x\nif a: # y\n  b = 1\nc") :=
    @Edit.append (txt "\t# x\nif a:") (txt "\n  b = 1\nc") _ (by simp [txt])
      (@Trail.comment _ (txt " y") hgap' (by decide))
  exact (((Noise.refl quiet).snoc hinsert).snoc happend).snoc (.returns _)

theorem tokenize_noisy : ∃ ts, tokenize quiet = .ok ts ∧ ts.length = 13 ∧
    Noise (id ∘ id ∘ shiftedAfter 0 ∘ id) quiet noisy ∧
    (∃ ts', tokenize noisy = .ok ts' ∧ List.Forall₂ (fun t t' => t'.kind = t.kind ∧
      t'.loc.line = shiftedAfter 0 t.loc.line ∧ (t.kind ≠ .newline → t'.loc.col = t.loc.col))
      ts ts') ∧
    (parse noisy).toOption.map Program.dump = (parse quiet).toOption.map Program.dump := by
  have hrun : (tokenize quiet).toOption.any (fun ts => ts.length = 13) = true := by decide +kernel
  obtain ⟨ts, hts, hlength⟩ := ok_of_any hrun
  exact ⟨ts, hts, of_decide_eq_true hlength, quiet_noise, tokenize_noise quiet_noise hts⟩

end ChocoRv
