import ChocoRv.Proofs.BlockStructure
import ChocoRv.Proofs.Places
import ChocoRv.Proofs.Scanning

/-!
# What trails a line

White space and a comment at the end of a line leave its tokens alone: they can neither extend a
lexeme nor start one, and they make no blank line of another one. Only the NEWLINE of the line moves.
Lines keep their tokens at other line numbers too.
-/

namespace ChocoRv

/-- White space and, after it, possibly a comment. -/
inductive Trail : Bytes → Prop
  | gap {gap : Bytes} (blank : ∀ b ∈ gap, Byte.isBlank b = true ∨ b = '\r'.toUInt8) : Trail gap
  | comment {gap comment : Bytes}
      (blank : ∀ b ∈ gap, Byte.isBlank b = true ∨ b = '\r'.toUInt8)
      (line : '\n'.toUInt8 ∉ comment) : Trail (gap ++ '#'.toUInt8 :: comment)

/-! ### The ends of lines -/

theorem Trail.newline_notMem {t : Bytes} (h : Trail t) : '\n'.toUInt8 ∉ t := by
  have hgap {gap : Bytes} (hblank : ∀ b ∈ gap, Byte.isBlank b = true ∨ b = '\r'.toUInt8) :
      '\n'.toUInt8 ∉ gap := by
    intro hmem
    rcases hblank _ hmem with h | h
    · exact absurd h (by decide)
    · exact absurd h (by decide)
  cases h with
  | gap hblank => exact hgap hblank
  | comment hblank hline =>
    rw [List.mem_append, List.mem_cons, not_or, not_or]
    exact ⟨hgap hblank, by decide, hline⟩

theorem isSpace_of_trail {b : UInt8} (h : Byte.isBlank b = true ∨ b = '\r'.toUInt8) :
    Byte.isSpace b = true := by
  rcases h with h | rfl
  · rw [Byte.isSpace, h, Bool.true_or]
  · decide

/-- What follows a line starts with white space or a comment. -/
def Outside (after : Bytes) : Prop := ∀ b ∈ after.head?, Byte.isSpace b = true ∨ b = '#'.toUInt8

theorem Trail.outside {t r : Bytes} (ht : Trail t) (hr : ∀ b ∈ r, b = '\n'.toUInt8) :
    Outside (t ++ r) := by
  have hspaces {gap : Bytes} (hblank : ∀ b ∈ gap, Byte.isBlank b = true ∨ b = '\r'.toUInt8) :
      ∀ b ∈ gap, Byte.isSpace b = true := fun b hb => isSpace_of_trail (hblank b hb)
  intro b hb
  cases ht with
  | gap hblank =>
    have hmem := List.mem_of_mem_head? hb
    rcases List.mem_append.1 hmem with hmem | hmem
    · exact .inl (hspaces hblank b hmem)
    · rw [hr b hmem]
      exact .inl (by decide)
  | @comment gap comment hblank hline =>
    cases gap with
    | nil => exact .inr (Option.some.inj hb).symm
    | cons c gap =>
      obtain rfl : c = b := Option.some.inj hb
      exact .inl (hspaces hblank c List.mem_cons_self)

theorem isNamePart_of_outside {b : UInt8} (h : Byte.isSpace b = true ∨ b = '#'.toUInt8) :
    Byte.isNamePart b = false := by
  cases hpart : Byte.isNamePart b with
  | false => rfl
  | true =>
    obtain ⟨hspace, hhash⟩ := Byte.of_isNamePart hpart
    rcases h with h | h
    · rw [hspace] at h
      cases h
    · exact absurd h hhash

/-- No symbol ends with a byte that stands between lexemes. -/
theorem Symbol.spelling_ne {c b : UInt8} (h : Byte.isSpace b = true ∨ b = '#'.toUInt8)
    (s : Symbol) : s.spelling ≠ [c, b] := by
  have hall (s : Symbol) : (s.spelling.drop 1).all
      (fun b => !Byte.isSpace b && b != '#'.toUInt8) = true := by
    cases s <;> decide
  intro hs
  have hb := hall s
  rw [hs] at hb
  rcases h with h | rfl
  · simp [h] at hb
  · simp at hb

namespace Token.Kind.Spelled

variable {k : Token.Kind} {lexeme after after' : Bytes}

/-- The lexeme spells its token before anything that starts the same way or stands outside. -/
theorem of_head (h : k.Spelled lexeme after)
    (hafter : after'.head? = after.head? ∨ Outside after') : k.Spelled lexeme after' := by
  have hclosed (h : Closed after) : Closed after' := by
    rcases hafter with heq | hout
    · intro b hb
      exact h b (heq ▸ hb)
    · intro b hb
      exact isNamePart_of_outside (hout b hb)
  cases k with
  | newline | indent | dedent | eof => exact h
  | keyword k => exact ⟨h.1, hclosed h.2⟩
  | identifier name => exact ⟨h.1, h.2.1, h.2.2.1, h.2.2.2.1, hclosed h.2.2.2.2⟩
  | integer value =>
    exact ⟨h.1, h.2.1, h.2.2.1, h.2.2.2.1, h.2.2.2.2.1, hclosed h.2.2.2.2.2⟩
  | string content => exact h
  | symbol s =>
    refine ⟨h.1, fun hone b hb s' => ?_⟩
    rcases hafter with heq | hout
    · exact h.2 hone b (heq ▸ hb) s'
    · obtain ⟨c, hc⟩ := List.length_eq_one_iff.1 hone
      rw [hc]
      exact Symbol.spelling_ne (hout b hb) s'

theorem newline_notMem (h : k.Spelled lexeme after) : '\n'.toUInt8 ∉ lexeme := by
  intro hmem
  have hpart {b : UInt8} (hb : Byte.isNamePart b = true) : b ≠ '\n'.toUInt8 := by
    rintro rfl
    exact absurd hb (by decide)
  cases k with
  | newline | indent | dedent | eof => exact h
  | keyword k =>
    obtain ⟨c, cs, hk, hc, hcs⟩ := k.spelling_word
    rw [h.1] at hmem
    rcases List.mem_cons.1 (hk ▸ hmem : '\n'.toUInt8 ∈ c :: cs) with hn | hn
    · exact hpart (Byte.of_isNameStart hc).2.2 hn.symm
    · exact hpart (List.all_eq_true.1 hcs _ hn) rfl
  | identifier name =>
    obtain ⟨c, cs, hname, hc, hcs⟩ := h.2.1
    rw [h.1] at hmem
    rcases List.mem_cons.1 (hname ▸ hmem : '\n'.toUInt8 ∈ c :: cs) with hn | hn
    · exact hpart (Byte.of_isNameStart hc).2.2 hn.symm
    · exact hpart (hcs _ hn) rfl
  | integer value => exact hpart (Byte.isNamePart_of_isDigit (h.2.1 _ hmem)) rfl
  | string content => exact absurd (h.2 _ hmem).1 (by decide)
  | symbol s =>
    have hall (s : Symbol) : s.spelling.contains '\n'.toUInt8 = false := by cases s <;> decide
    rw [h.1] at hmem
    cases (hall s).symm.trans (List.contains_iff_mem.2 hmem)

end Token.Kind.Spelled

/-- Bytes other than newlines stand before the newlines at the end. -/
theorem split_before_newlines {s r x l y : Bytes} (h : s ++ r = x ++ l ++ y)
    (hr : ∀ b ∈ r, b = '\n'.toUInt8) (hl : '\n'.toUInt8 ∉ l) (hne : l ≠ []) :
    ∃ u, s = x ++ l ++ u ∧ y = u ++ r := by
  rcases List.append_eq_append_iff.1 h with ⟨u, hx, hru⟩ | ⟨u, hs, hy⟩
  · rcases List.eq_nil_or_concat u with rfl | ⟨u, b, rfl⟩
    · exact ⟨[], by rw [List.append_nil] at hx ⊢; exact hx.symm, hru.symm⟩
    · -- the last byte of `l` would be one of the newlines
      obtain ⟨l, c, rfl⟩ := (List.eq_nil_or_concat l).resolve_left hne
      rw [List.concat_eq_append, List.concat_eq_append, ← List.append_assoc,
        ← List.append_assoc] at hx
      obtain rfl : c = b := List.singleton_inj.1 (List.append_inj_right' hx rfl)
      have hc := hr c (hru ▸ List.mem_append_left _ (by simp))
      exact absurd (by simp [hc]) hl
  · exact ⟨u, hs, hy⟩

/-- What trails a line leaves its tokens alone; `r` is the newline at the end, if there is one. -/
theorem Scanned.append_trail {line col : Nat} {s t r : Bytes} {placed : List Placed}
    (h : Scanned line col (s ++ r) placed) (hr : ∀ b ∈ r, b = '\n'.toUInt8) (ht : Trail t) :
    (∀ p ∈ placed, p.1.loc.col < col + s.length) ∧ Scanned line col (s ++ (t ++ r)) placed := by
  have hrspace : ∀ b ∈ r, Byte.isSpace b = true := by
    intro b hb
    rw [hr b hb]
    decide
  generalize htext : s ++ r = text at h
  induction h generalizing s with
  | @space col gap hgap =>
    subst htext
    obtain ⟨hs, -⟩ := List.forall_mem_append.1 hgap
    refine ⟨by simp, ?_⟩
    cases ht with
    | gap hblank =>
      refine .space _ (List.forall_mem_append.2 ⟨hs, List.forall_mem_append.2 ⟨?_, hrspace⟩⟩)
      exact fun b hb => isSpace_of_trail (hblank b hb)
    | @comment tgap comment hblank hline =>
      have hlead : ∀ b ∈ s ++ tgap, Byte.isSpace b = true :=
        List.forall_mem_append.2 ⟨hs, fun b hb => isSpace_of_trail (hblank b hb)⟩
      have hcomment : Scanned line col (s ++ tgap ++ '#'.toUInt8 :: (comment ++ r)) [] :=
        .comment _ _ hlead
      simpa using hcomment
  | comment gap comment hgap =>
    have hsplit : s ++ r = gap ++ ['#'.toUInt8] ++ comment := by simpa using htext
    obtain ⟨u, rfl, rfl⟩ := split_before_newlines hsplit hr (by decide) (by simp)
    refine ⟨by simp, ?_⟩
    simpa using Scanned.comment gap (u ++ (t ++ r)) hgap
  | lexeme gap lex after hgap hne hspelled _ ih =>
    obtain ⟨u, rfl, rfl⟩ := split_before_newlines htext hr hspelled.newline_notMem hne
    obtain ⟨hcol, hscan⟩ := ih rfl
    have hhead : (u ++ (t ++ r)).head? = (u ++ r).head? ∨ Outside (u ++ (t ++ r)) := by
      cases u with
      | nil => exact .inr (ht.outside hr)
      | cons b u => exact .inl rfl
    constructor
    · have hpos := List.length_pos_iff.2 hne
      refine List.forall_mem_cons.2 ⟨?_, fun p hp => ?_⟩
      · simp only [List.length_append]
        omega
      · have hlt := hcol p hp
        simp only [List.length_append] at hlt ⊢
        omega
    · rw [List.append_assoc (gap ++ lex)]
      exact .lexeme gap lex _ hgap hne (hspelled.of_head hhead) hscan

namespace Lexer

variable {s t r : Bytes} {n : Nat} {stack stack' : List Nat} {ts : List Token}

/-- The byte that makes a line other than blank stands before the newline. -/
theorem exists_not_space (hr : ∀ b ∈ r, b = '\n'.toUInt8) (h : isBlankLine (s ++ r) = false) :
    ∃ b ∈ s, Byte.isSpace b = false := by
  by_contra hnone
  simp only [not_exists, not_and, Bool.not_eq_false] at hnone
  have hall : ∀ b ∈ s ++ r, Byte.isSpace b = true := by
    refine List.forall_mem_append.2 ⟨hnone, fun b hb => ?_⟩
    rw [hr b hb]
    decide
  rw [isBlankLine, List.dropWhile_eq_nil_iff.2 hall] at h
  cases h

theorem isBlankLine_append_trail (hr : ∀ b ∈ r, b = '\n'.toUInt8) (ht : Trail t) :
    isBlankLine (s ++ (t ++ r)) = isBlankLine (s ++ r) := by
  cases hblank : isBlankLine (s ++ r) with
  | true =>
    have hscan := isBlankLine_scanned hblank 1 1
    exact isBlankLine_of_scanned (hscan.append_trail hr ht).2
  | false =>
    obtain ⟨b, hb, hspace⟩ := exists_not_space hr hblank
    have hne : s.dropWhile Byte.isSpace ≠ [] := by
      intro hnil
      rw [List.dropWhile_eq_nil_iff.1 hnil b hb] at hspace
      cases hspace
    obtain ⟨c, rest, hdrop⟩ := List.exists_cons_of_ne_nil hne
    have hfirst (x : Bytes) : isBlankLine (s ++ x) = (c == '#'.toUInt8) := by
      have happ : (s ++ x).dropWhile Byte.isSpace = c :: rest ++ x := by
        rw [List.dropWhile_append, hdrop]
        rfl
      rw [isBlankLine, happ]
      rfl
    rw [hfirst, ← hfirst r, hblank]

/-- The indentation of a line with a lexeme is that of its first part. -/
theorem indentation_append {b : UInt8} (hb : b ∈ s) (hblank : Byte.isSpace b = false)
    (x : Bytes) : (s ++ x).indentation = s.indentation := by
  rw [Bytes.indentation, Bytes.indentation, List.takeWhile_append, if_neg]
  intro hlength
  have hall : s.takeWhile Byte.isBlank = s := (List.takeWhile_prefix _).eq_of_length hlength
  have hb : b ∈ s.takeWhile Byte.isBlank := by
    rw [hall]
    exact hb
  have hspace : Byte.isBlank b = true := List.all_eq_true.1 List.all_takeWhile b hb
  rw [Byte.isSpace, hspace, Bool.true_or] at hblank
  cases hblank

/-- Where the tokens of line `n` go when `d` bytes are added after its first `length` ones. -/
def trailed (n length d : Nat) (p : Loc) : Loc :=
  if p.line = n ∧ length < p.col then ⟨p.line, p.col + d⟩ else p

theorem trailed_injective (n length d : Nat) : Function.Injective (trailed n length d) := by
  rintro ⟨l, c⟩ ⟨l', c'⟩ h
  simp only [trailed] at h
  split at h <;> split at h <;> simp only [Loc.mk.injEq] at h ⊢ <;> omega

section

variable {length d : Nat} {p : Loc}

theorem line_trailed (n length d : Nat) (p : Loc) : (trailed n length d p).line = p.line := by
  rw [trailed]
  split <;> rfl

theorem trailed_of_line_ne (h : p.line ≠ n) : trailed n length d p = p := if_neg fun h' => h h'.1

theorem trailed_of_col_le (h : p.col ≤ length) : trailed n length d p = p :=
  if_neg fun h' => Nat.not_lt.2 h h'.2

end

theorem lineTokens_blank {line : Bytes} (h : isBlankLine line = true) :
    lineTokens n stack line = .ok ([], stack) := by
  rw [lineTokens, h]
  rfl

/-- The tokens of a line that is not blank. -/
theorem lineTokens_eq_ok {line : Bytes} (hblank : isBlankLine line = false) :
    lineTokens n stack line = .ok (ts, stack') ↔ ∃ marks tokens,
      reindent stack line.indentWidth = some (marks, stack') ∧
      lexemes n (line.indentation.length + 1) (line.drop line.indentation.length) = .ok tokens ∧
      ts = marks.map (⟨·, ⟨n, 1⟩⟩) ++ tokens ++ [⟨.newline, ⟨n, line.length + 1⟩⟩] := by
  rw [lineTokens, hblank, if_neg Bool.false_ne_true]
  rcases reindent stack line.indentWidth with _ | ⟨marks, stack₁⟩
  · constructor
    · intro h
      cases h
    · rintro ⟨_, _, h, _⟩
      cases h
  · rcases hread : lexemes n (line.indentation.length + 1) (line.drop line.indentation.length)
      with e | tokens
    · simp only [hread]
      constructor
      · intro h
        cases h
      · rintro ⟨_, _, _, h, _⟩
        cases h
    · simp only [hread]
      constructor
      · intro h
        cases h
        exact ⟨marks, tokens, rfl, rfl, rfl⟩
      · rintro ⟨marks', tokens', hmarks, htokens, rfl⟩
        cases hmarks
        cases htokens
        rfl

theorem map_moved_of_fixed {ρ : Loc → Loc} {ts : List Token} (h : ∀ t ∈ ts, ρ t.loc = t.loc) :
    ts.map (Token.moved ρ) = ts := by
  refine (List.map_congr_left fun t ht => ?_).trans (List.map_id ts)
  rw [Token.moved, h t ht]
  rfl

/-- The tokens of a line with a lexeme in its first part. -/
theorem lineTokens_append_eq_ok {b : UInt8} {x : Bytes} (hb : b ∈ s)
    (hspace : Byte.isSpace b = false) (hblank : isBlankLine (s ++ x) = false) :
    lineTokens n stack (s ++ x) = .ok (ts, stack') ↔ ∃ marks tokens,
      reindent stack s.indentWidth = some (marks, stack') ∧
      lexemes n (s.indentation.length + 1) (s.drop s.indentation.length ++ x) = .ok tokens ∧
      ts = marks.map (⟨·, ⟨n, 1⟩⟩) ++ tokens ++ [⟨.newline, ⟨n, (s ++ x).length + 1⟩⟩] := by
  have hmargin := indentation_append hb hspace x
  have hwidth : (s ++ x).indentWidth = s.indentWidth := by
    rw [Bytes.indentWidth, Bytes.indentWidth, hmargin]
  have hlength : s.indentation.length ≤ s.length := (List.takeWhile_prefix _).length_le
  rw [lineTokens_eq_ok hblank, hwidth, hmargin, List.drop_append_of_le_length hlength]

/-- Only the NEWLINE of a line moves when something trails it. -/
theorem lineTokens_append_trail (hr : ∀ b ∈ r, b = '\n'.toUInt8) (ht : Trail t)
    (h : lineTokens n stack (s ++ r) = .ok (ts, stack'))
    (hblank : isBlankLine (s ++ r) = false) :
    lineTokens n stack (s ++ (t ++ r)) =
      .ok (ts.map (Token.moved (trailed n s.length t.length)), stack') ∧
    ∀ t' ∈ ts, t'.kind ≠ .newline → trailed n s.length t.length t'.loc = t'.loc := by
  obtain ⟨b, hb, hspace⟩ := exists_not_space hr hblank
  obtain ⟨marks, tokens, hre, hread, rfl⟩ := (lineTokens_append_eq_ok hb hspace hblank).1 h
  obtain ⟨-, placed, hplaced, hscan⟩ := lexemes_scanned hread
  obtain ⟨hcols, hscan⟩ := hscan.append_trail hr ht
  have hmark : trailed n s.length t.length ⟨n, 1⟩ = ⟨n, 1⟩ :=
    trailed_of_col_le (List.length_pos_of_mem hb)
  have hfixed : ∀ t' ∈ tokens, trailed n s.length t.length t'.loc = t'.loc := by
    intro t' ht'
    rw [← hplaced] at ht'
    obtain ⟨p, hp, rfl⟩ := List.mem_map.1 ht'
    have hlt := hcols p hp
    have hlength : s.indentation.length ≤ s.length := (List.takeWhile_prefix _).length_le
    rw [List.length_drop] at hlt
    exact trailed_of_col_le (by omega)
  have hnewline : trailed n s.length t.length ⟨n, (s ++ r).length + 1⟩ =
      ⟨n, (s ++ (t ++ r)).length + 1⟩ := by
    have hlt : s.length < (s ++ r).length + 1 := by
      rw [List.length_append]
      omega
    rw [trailed, if_pos ⟨rfl, hlt⟩]
    simp only [List.length_append, Loc.mk.injEq, true_and]
    omega
  have hmarks : (marks.map fun k => (⟨k, ⟨n, 1⟩⟩ : Token)).map
      (Token.moved (trailed n s.length t.length)) =
      marks.map fun k => (⟨k, ⟨n, 1⟩⟩ : Token) := by
    rw [List.map_map]
    exact List.map_congr_left fun k _ => by rw [Function.comp_apply, Token.moved_mk, hmark]
  constructor
  · have hfull := (isBlankLine_append_trail hr ht).trans hblank
    refine (lineTokens_append_eq_ok hb hspace hfull).2 ⟨marks, tokens, hre, ?_, ?_⟩
    · rw [lexemes_of_scanned hscan, hplaced]
    · rw [List.map_append, List.map_append, hmarks, map_moved_of_fixed hfixed, List.map_singleton,
        Token.moved_mk, hnewline]
  · intro t' ht' hkind
    simp only [List.mem_append, List.mem_map, List.mem_singleton] at ht'
    rcases ht' with (⟨k, -, rfl⟩ | ht') | rfl
    · exact hmark
    · exact hfixed t' ht'
    · exact absurd rfl hkind

/-! ### Lines at other numbers -/

theorem lexemes_moved {ρ : Loc → Loc} {line line' col : Nat} {ts : List Token}
    (hρ : ∀ c, ρ ⟨line, c⟩ = ⟨line', c⟩) (h : lexemes line col s = .ok ts) :
    lexemes line' col s = .ok (ts.map (Token.moved ρ)) := by
  obtain ⟨-, placed, rfl, hscan⟩ := lexemes_scanned h
  have hmoved : Scanned line' col s (placed.map fun p => (p.1.moved ρ, p.2)) := by
    clear h
    induction hscan with
    | space gap hgap => exact .space gap hgap
    | comment gap comment hgap => exact .comment gap comment hgap
    | lexeme gap lex after hgap hne hspelled _ ih =>
      simp only [List.map_cons, Token.moved_mk, hρ]
      exact .lexeme gap lex after hgap hne hspelled ih
  rw [lexemes_of_scanned hmoved, List.map_map, List.map_map]
  rfl

theorem lineTokens_moved {ρ : Loc → Loc} {n' : Nat} {line : Bytes}
    (hρ : ∀ c, ρ ⟨n, c⟩ = ⟨n', c⟩) (h : lineTokens n stack line = .ok (ts, stack')) :
    lineTokens n' stack line = .ok (ts.map (Token.moved ρ), stack') := by
  cases hblank : isBlankLine line with
  | true =>
    rw [lineTokens_blank hblank] at h ⊢
    cases h
    rfl
  | false =>
    obtain ⟨marks, tokens, hre, hread, rfl⟩ := (lineTokens_eq_ok hblank).1 h
    refine (lineTokens_eq_ok hblank).2 ⟨marks, _, hre, lexemes_moved hρ hread, ?_⟩
    simp [Function.comp_def, hρ]

theorem linesTokens_moved {ρ : Loc → Loc} {n' : Nat} {lines : List Bytes}
    (hρ : ∀ i c, ρ ⟨n + i, c⟩ = ⟨n' + i, c⟩)
    (h : linesTokens n stack lines = .ok (ts, stack')) :
    linesTokens n' stack lines = .ok (ts.map (Token.moved ρ), stack') := by
  induction lines generalizing n n' stack ts with
  | nil =>
    cases h
    rfl
  | cons line lines ih =>
    rw [← List.singleton_append] at h ⊢
    obtain ⟨first, stack₁, rest, hfirst, hrest, rfl⟩ := linesTokens_append_ok h
    rw [linesTokens_singleton] at hfirst
    have hfirst : lineTokens n' stack line = .ok (first.map (Token.moved ρ), stack₁) :=
      lineTokens_moved (hρ 0) hfirst
    have hshift (i c : Nat) : ρ ⟨n + 1 + i, c⟩ = ⟨n' + 1 + i, c⟩ := by
      rw [Nat.add_assoc, hρ, Nat.add_assoc]
    have hrest := ih hshift hrest
    rw [linesTokens_append, linesTokens_singleton, hfirst, List.map_append]
    simp only [bind, Except.bind, List.length_singleton, hrest]
    rfl

end Lexer

end ChocoRv
