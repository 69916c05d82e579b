import ChocoRv.Proofs.Lexemes

/-!
# Lines are read as they are scanned

The converse of `lexemes_scanned`: where a line is scanned into tokens, the lexer reads these tokens.
So `Scanned` says all there is to know of a line, and what leaves a line scanned leaves its tokens
alone.
-/

namespace ChocoRv

theorem Keyword.ofSpelling?_spelling (k : Keyword) : ofSpelling? k.spelling = some k := by
  cases k <;> decide

theorem Symbol.ofSpelling?_spelling (s : Symbol) : ofSpelling? s.spelling = some s := by
  cases s <;> decide

theorem Keyword.ofSpelling?_eq_none {w : Bytes} (h : ∀ k : Keyword, w ≠ k.spelling) :
    ofSpelling? w = none := by
  rw [ofSpelling?, List.find?_eq_none]
  intro k _ hk
  exact h k (eq_of_beq hk).symm

theorem Symbol.ofSpelling?_eq_none {w : Bytes} (h : ∀ s : Symbol, s.spelling ≠ w) :
    ofSpelling? w = none := by
  rw [ofSpelling?, List.find?_eq_none]
  intro s _ hs
  exact h s (eq_of_beq hs)

theorem Bytes.unescape?_of_mem_escapes {d e : UInt8} (h : (d, e) ∈ escapes) :
    unescape? d = some e := by
  simp only [escapes, List.mem_cons, Prod.mk.injEq, List.not_mem_nil, or_false] at h
  rcases h with ⟨rfl, rfl⟩ | ⟨rfl, rfl⟩ | ⟨rfl, rfl⟩ | ⟨rfl, rfl⟩ <;> decide

/-- Every keyword is spelled like a name. -/
theorem Keyword.spelling_word (k : Keyword) : ∃ c cs, k.spelling = c :: cs ∧
    Byte.isNameStart c = true ∧ cs.all Byte.isNamePart = true := by
  cases k <;> exact ⟨_, _, rfl, by decide, by decide⟩

/-- A symbol starts no string, number, word, gap or comment. -/
theorem Symbol.spelling_starts (s : Symbol) : ∃ c cs, s.spelling = c :: cs ∧ cs.length ≤ 1 ∧
    c ≠ '"'.toUInt8 ∧ Byte.isDigit c = false ∧ Byte.isNameStart c = false ∧
    Byte.isSpace c = false ∧ c ≠ '#'.toUInt8 := by
  cases s <;>
    exact ⟨_, _, rfl, by decide, by decide, by decide, by decide, by decide, by decide⟩

namespace Byte

/-- A byte that starts a word starts no string or number, and is no space. -/
theorem of_isNameStart {c : UInt8} (h : isNameStart c = true) :
    c ≠ '"'.toUInt8 ∧ isDigit c = false ∧ isNamePart c = true := by
  refine ⟨?_, ?_, ?_⟩
  · rintro rfl
    exact absurd h (by decide)
  · have hdigits : ∀ d < 256, isNameStart (UInt8.ofNat d) = true →
        isDigit (UInt8.ofNat d) = false := by decide +kernel
    have hdigit := hdigits c.toNat c.toNat_lt
    rw [UInt8.ofNat_toNat] at hdigit
    exact hdigit h
  · rw [isNameStart] at h
    rw [isNamePart, h, Bool.true_or]

/-- A byte of a word or number is none that stands between lexemes. -/
theorem of_isNamePart {c : UInt8} (h : isNamePart c = true) :
    isSpace c = false ∧ c ≠ '#'.toUInt8 := by
  have hspaces : ∀ d < 256, isNamePart (UInt8.ofNat d) = true →
      isSpace (UInt8.ofNat d) = false := by decide +kernel
  have hspace := hspaces c.toNat c.toNat_lt
  rw [UInt8.ofNat_toNat] at hspace
  refine ⟨hspace h, ?_⟩
  rintro rfl
  exact absurd h (by decide)

theorem isNamePart_of_isDigit {b : UInt8} (h : isDigit b = true) : isNamePart b = true := by
  rw [isNamePart, h, Bool.or_true]

theorem not_isNameStart {b : UInt8} (h : isNamePart b = false) : isNameStart b = false := by
  rw [isNamePart, Bool.or_eq_false_iff] at h
  rw [isNameStart, h.1]

theorem not_isDigit {b : UInt8} (h : isNamePart b = false) : isDigit b = false := by
  rw [isNamePart, Bool.or_eq_false_iff] at h
  exact h.2

end Byte

/-- A lexeme starts neither a gap nor a comment. -/
theorem Token.Kind.Spelled.starts {c : UInt8} {cs after : Bytes} {k : Token.Kind}
    (h : k.Spelled (c :: cs) after) : Byte.isSpace c = false ∧ c ≠ '#'.toUInt8 := by
  cases k with
  | newline | indent | dedent | eof => exact h.elim
  | keyword k =>
    obtain ⟨c', cs', hk, hc, -⟩ := k.spelling_word
    obtain ⟨rfl, -⟩ := List.cons.inj (h.1.trans hk)
    exact Byte.of_isNamePart (Byte.of_isNameStart hc).2.2
  | identifier name =>
    obtain ⟨hspelling, ⟨c', cs', hname, hc, -⟩, -⟩ := h
    obtain ⟨rfl, -⟩ := List.cons.inj (hspelling.trans hname)
    exact Byte.of_isNamePart (Byte.of_isNameStart hc).2.2
  | integer value =>
    have hc := (List.forall_mem_cons.1 h.2.1).1
    exact Byte.of_isNamePart (Byte.isNamePart_of_isDigit hc)
  | string content =>
    obtain ⟨⟨body, hbody, -⟩, -⟩ := h
    obtain ⟨rfl, -⟩ := List.cons.inj hbody
    decide
  | symbol s =>
    obtain ⟨c', cs', hs, -, -, -, -, hc⟩ := s.spelling_starts
    obtain ⟨rfl, -⟩ := List.cons.inj (h.1.trans hs)
    exact hc

namespace Lexer

open Token.Kind (Spelled Closed)

/-- Reading a byte that stands for itself. -/
theorem stringBody_cons {c : UInt8} {s : Bytes} (hquote : c ≠ '"'.toUInt8)
    (hback : c ≠ '\\'.toUInt8) (hprint : 32 ≤ c ∧ c ≤ 126) :
    stringBody (c :: s) = (stringBody s).map fun (content, n) => (c :: content, n + 1) := by
  have hrange : ¬ (c < 32 || 126 < c) = true := by
    simpa [UInt8.not_lt] using hprint
  cases s with
  | nil => simp [stringBody, hquote, Except.map]
  | cons d rest => rw [stringBody, if_neg hquote, if_neg hback, if_neg hrange]

/-- The body of a string is read up to the closing quote. -/
theorem stringBody_of_unescapes {body content : Bytes} (h : Unescapes body content)
    (rest : Bytes) :
    stringBody (body ++ '"'.toUInt8 :: rest) = .ok (content, body.length + 1) := by
  induction h with
  | nil => cases rest <;> rfl
  | plain hprint hquote hback _ ih =>
    rw [List.cons_append, stringBody_cons hquote hback hprint, ih]
    rfl
  | escape he _ ih =>
    rw [List.cons_append, List.cons_append, stringBody, if_neg (by decide), if_pos rfl,
      Bytes.unescape?_of_mem_escapes he]
    simp only [ih]
    rfl

theorem takeWhile_of_closed {p : UInt8 → Bool} {w after : Bytes} (hw : ∀ b ∈ w, p b = true)
    (hafter : ∀ b ∈ after.head?, p b = false) : (w ++ after).takeWhile p = w := by
  rw [List.takeWhile_append_of_pos hw]
  cases after with
  | nil => simp
  | cons b after => simp [hafter b rfl]

/-- A word is read up to the first byte that cannot stand in it. -/
theorem lexeme_word {c : UInt8} {cs after : Bytes} {k : Token.Kind}
    (hc : Byte.isNameStart c = true) (hcs : ∀ b ∈ cs, Byte.isNamePart b = true)
    (hafter : Closed after) (hword : word (c :: cs) = .ok k) :
    lexeme c (cs ++ after) = .ok (k, cs.length) := by
  obtain ⟨hquote, hdigit, -⟩ := Byte.of_isNameStart hc
  rw [lexeme, if_neg hquote, hdigit, if_neg Bool.false_ne_true, if_pos hc,
    takeWhile_of_closed hcs hafter]
  simp only [hword]
  rfl

theorem lexeme_symbol {c : UInt8} {cs after : Bytes} {s : Symbol} (hs : s.spelling = c :: cs)
    (hafter : cs = [] → ∀ b ∈ after.head?, ∀ s' : Symbol, s'.spelling ≠ [c, b]) :
    lexeme c (cs ++ after) = .ok (.symbol s, cs.length) := by
  obtain ⟨c', cs', hs', hlength, hquote, hdigit, hstart, -⟩ := s.spelling_starts
  obtain ⟨rfl, rfl⟩ := List.cons.inj (hs.symm.trans hs')
  have hread := Symbol.ofSpelling?_spelling s
  rw [lexeme, if_neg hquote, hdigit, if_neg Bool.false_ne_true, hstart,
    if_neg Bool.false_ne_true, symbol]
  match cs, hlength, hafter with
  | [d], _, _ =>
    rw [List.singleton_append, List.take_succ_cons, List.take_zero, ← hs, hread]
    simp only [hs]
    rfl
  | [], _, hafter =>
    cases after with
    | nil =>
      rw [List.append_nil, List.take_nil, ← hs, hread]
      simp only [hs]
      rfl
    | cons b after =>
      have hnone := Symbol.ofSpelling?_eq_none (hafter rfl b rfl)
      rw [List.nil_append, List.take_succ_cons, List.take_zero, hnone, ← hs, hread]
      rfl

/-- Digits are read as a number up to the first byte that cannot stand in a word. -/
theorem lexeme_number {c : UInt8} {cs after : Bytes}
    (hdigits : ∀ b ∈ c :: cs, Byte.isDigit b = true)
    (hzero : (c :: cs).head? = some '0'.toUInt8 → (c :: cs).length = 1)
    (hmax : Bytes.value (c :: cs) ≤ maxInteger) (hafter : Closed after) :
    lexeme c (cs ++ after) = .ok (.integer (Bytes.value (c :: cs)), cs.length) := by
  obtain ⟨hc, hcs⟩ := List.forall_mem_cons.1 hdigits
  have hquote : c ≠ '"'.toUInt8 := by
    rintro rfl
    exact absurd hc (by decide)
  have htake : (cs ++ after).takeWhile Byte.isDigit = cs :=
    takeWhile_of_closed hcs fun b hb => Byte.not_isDigit (hafter b hb)
  have hname : after.head?.any Byte.isNameStart = false := by
    cases after with
    | nil => rfl
    | cons b after => exact Byte.not_isNameStart (hafter b rfl)
  have hleading : (1 < (c :: cs).length && (c :: cs).head? == some '0'.toUInt8) = false := by
    rw [Bool.and_eq_false_iff]
    by_cases hhead : (c :: cs).head? = some '0'.toUInt8
    · exact .inl (by rw [hzero hhead]; rfl)
    · exact .inr (by simpa using hhead)
  rw [lexeme, if_neg hquote, if_pos hc]
  simp only [htake, List.drop_left]
  rw [number, hname, hleading, if_neg Bool.false_ne_true, if_neg Bool.false_ne_true,
    if_neg (Nat.not_lt.2 hmax)]
  rfl

/-- What spells a token is read as this token. -/
theorem lexeme_of_spelled {c : UInt8} {cs after : Bytes} {k : Token.Kind}
    (h : k.Spelled (c :: cs) after) : lexeme c (cs ++ after) = .ok (k, cs.length) := by
  cases k with
  | newline | indent | dedent | eof => exact h.elim
  | keyword k =>
    obtain ⟨hspelling, hafter⟩ := h
    obtain ⟨c', cs', hk, hc, hcs⟩ := k.spelling_word
    obtain ⟨rfl, rfl⟩ := List.cons.inj (hspelling.trans hk)
    refine lexeme_word hc (List.all_eq_true.1 hcs) hafter ?_
    rw [← hk, word, Keyword.ofSpelling?_spelling]
  | identifier name =>
    obtain ⟨hspelling, ⟨c', cs', hname, hc, hcs⟩, hkeyword, hreserved, hafter⟩ := h
    obtain rfl : c :: cs = name := hspelling
    obtain ⟨rfl, rfl⟩ := List.cons.inj hname
    refine lexeme_word hc hcs hafter ?_
    have hfree : Keyword.reserved.contains (c :: cs) = false := by simpa using hreserved
    rw [word, Keyword.ofSpelling?_eq_none hkeyword, hfree]
    rfl
  | integer value =>
    obtain ⟨-, hdigits, rfl, hzero, hmax, hafter⟩ := h
    exact lexeme_number hdigits hzero hmax hafter
  | string content =>
    obtain ⟨⟨body, hbody, hden⟩, -⟩ := h
    obtain ⟨rfl, rfl⟩ := List.cons.inj hbody
    rw [lexeme, if_pos rfl, List.append_assoc, List.singleton_append,
      stringBody_of_unescapes hden]
    rw [List.length_append]
    rfl
  | symbol s =>
    obtain ⟨hspelling, hafter⟩ := h
    refine lexeme_symbol hspelling.symm fun hcs b hb s' => ?_
    subst hcs
    exact hafter rfl b hb s'

theorem lexemes_spaces {line col : Nat} {gap s : Bytes}
    (hgap : ∀ b ∈ gap, Byte.isSpace b = true) :
    lexemes line col (gap ++ s) = lexemes line (col + gap.length) s := by
  induction gap generalizing col with
  | nil => rfl
  | cons b gap ih =>
    obtain ⟨hb, hgap⟩ := List.forall_mem_cons.1 hgap
    rw [List.cons_append, lexemes, if_pos hb, ih hgap, List.length_cons]
    congr 1
    omega

/-- A line is read as it is scanned. -/
theorem lexemes_of_scanned {line col : Nat} {s : Bytes} {placed : List Placed}
    (h : Scanned line col s placed) : lexemes line col s = .ok (placed.map Prod.fst) := by
  induction h with
  | @space col gap hgap =>
    have hread := @lexemes_spaces line col gap [] hgap
    rw [List.append_nil] at hread
    rw [hread, lexemes]
    rfl
  | comment gap comment hgap =>
    rw [lexemes_spaces hgap, lexemes, if_neg (by decide), if_pos rfl]
    rfl
  | @lexeme col kind gap lex after rest hgap hne hspelled _ ih =>
    obtain ⟨c, cs, rfl⟩ := List.exists_cons_of_ne_nil hne
    obtain ⟨hspace, hhash⟩ := hspelled.starts
    have hnext : col + gap.length + cs.length + 1 = col + gap.length + (c :: cs).length := by
      rw [List.length_cons]
      omega
    rw [List.append_assoc, lexemes_spaces hgap, List.cons_append, lexemes, hspace,
      if_neg Bool.false_ne_true, if_neg hhash, lexeme_of_spelled hspelled]
    simp only [List.drop_left, hnext, ih]
    rfl

end Lexer

end ChocoRv
