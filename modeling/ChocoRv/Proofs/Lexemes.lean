import ChocoRv.Proofs.Decimals
import ChocoRv.Token.Lexer

/-!
# Lexemes

Every byte of a line is accounted for: it belongs to the lexeme of one token, to the white space
between lexemes or to the comment at the end. A lexeme spells its token, and the byte after it
cannot extend it. `Scanned` says this of the rest of a line from a column on; the lexer reads a
line only into tokens for which it holds.
-/

namespace ChocoRv

/-! ### What a lexeme spells -/

/-- Each escape letter with the byte that it stands for. -/
def Bytes.escapes : List (UInt8 × UInt8) :=
  [('"'.toUInt8, '"'.toUInt8), ('\\'.toUInt8, '\\'.toUInt8), ('n'.toUInt8, '\n'.toUInt8),
   ('t'.toUInt8, '\t'.toUInt8)]

theorem Bytes.mem_escapes {d e : UInt8} (h : unescape? d = some e) : (d, e) ∈ escapes := by
  unfold unescape? at h
  split at h
  · cases h; subst_vars; simp [escapes]
  · split at h
    · cases h; subst_vars; simp [escapes]
    · split at h
      · cases h; subst_vars; simp [escapes]
      · split at h
        · cases h; subst_vars; simp [escapes]
        · cases h

/-- The bytes between the quotes of a string literal, and the bytes that they denote. -/
inductive Unescapes : Bytes → Bytes → Prop
  | nil : Unescapes [] []
  | plain {c : UInt8} {body content : Bytes} (printable : 32 ≤ c ∧ c ≤ 126)
      (quote : c ≠ '"'.toUInt8) (backslash : c ≠ '\\'.toUInt8) (rest : Unescapes body content) :
      Unescapes (c :: body) (c :: content)
  | escape {d e : UInt8} {body content : Bytes} (escape : (d, e) ∈ Bytes.escapes)
      (rest : Unescapes body content) : Unescapes ('\\'.toUInt8 :: d :: body) (e :: content)

theorem Unescapes.printable {body content : Bytes} (h : Unescapes body content) :
    ∀ b ∈ body, 32 ≤ b ∧ b ≤ 126 := by
  induction h with
  | nil => simp
  | plain hc _ _ _ ih => exact List.forall_mem_cons.2 ⟨hc, ih⟩
  | @escape d e _ _ hd _ ih =>
    have hletters : Bytes.escapes.all fun p => 32 ≤ p.1 ∧ p.1 ≤ 126 := by decide
    have hd := of_decide_eq_true (List.all_eq_true.1 hletters _ hd)
    exact List.forall_mem_cons.2 ⟨by decide, List.forall_mem_cons.2 ⟨hd, ih⟩⟩

namespace Token.Kind

/-- Tokens with a spelling, in contrast to the marks of lines and indentations. -/
def isLexeme : Kind → Bool
  | newline | indent | dedent | eof => false
  | _ => true

/-- The byte after a word or number is none that could stand in a word. -/
def Closed (after : Bytes) : Prop := ∀ b ∈ after.head?, Byte.isNamePart b = false

/-- `lexeme` spells a token of this kind and is not too short where `after` follows. -/
def Spelled (lexeme after : Bytes) : Kind → Prop
  | keyword k => lexeme = (keyword k).content ∧ Closed after
  | identifier name =>
    lexeme = (identifier name).content ∧ (∃ c cs, name = c :: cs ∧ Byte.isNameStart c = true ∧
      ∀ b ∈ cs, Byte.isNamePart b = true) ∧
    (∀ k : Keyword, name ≠ k.spelling) ∧ name ∉ Keyword.reserved ∧ Closed after
  | integer value =>
    lexeme = (integer value).content ∧ (∀ b ∈ lexeme, Byte.isDigit b = true) ∧
    lexeme.value = value ∧ (lexeme.head? = some '0'.toUInt8 → lexeme.length = 1) ∧
    value ≤ 2147483647 ∧ Closed after
  | string content =>
    (∃ body, lexeme = '"'.toUInt8 :: (body ++ ['"'.toUInt8]) ∧ Unescapes body content) ∧
    ∀ b ∈ lexeme, 32 ≤ b ∧ b ≤ 126
  | symbol s =>
    lexeme = (symbol s).content ∧
    (lexeme.length = 1 → ∀ b ∈ after.head?, ∀ s' : Symbol, s'.spelling ≠ lexeme ++ [b])
  | newline | indent | dedent | eof => False

theorem Spelled.isLexeme {lexeme after : Bytes} {k : Kind} (h : Spelled lexeme after k) :
    k.isLexeme = true := by
  cases k with
  | newline | indent | dedent | eof => exact h.elim
  | keyword | identifier | integer | string | symbol => rfl

end Token.Kind

namespace Keyword

theorem mem_all (k : Keyword) : k ∈ all := by cases k <;> decide

theorem spelling_of_ofSpelling? {w : Bytes} {k : Keyword} (h : ofSpelling? w = some k) :
    k.spelling = w := eq_of_beq (List.find?_some h :)

theorem ne_spelling_of_ofSpelling? {w : Bytes} (h : ofSpelling? w = none) (k : Keyword) :
    w ≠ k.spelling := by
  rintro rfl
  have hne := List.find?_eq_none.1 h k (mem_all k)
  exact hne (beq_self_eq_true _)

end Keyword

namespace Symbol

theorem mem_all (s : Symbol) : s ∈ all := by cases s <;> decide

theorem spelling_of_ofSpelling? {w : Bytes} {s : Symbol} (h : ofSpelling? w = some s) :
    s.spelling = w := eq_of_beq (List.find?_some h :)

theorem ne_spelling_of_ofSpelling? {w : Bytes} (h : ofSpelling? w = none) (s : Symbol) :
    s.spelling ≠ w := by
  rintro rfl
  have hne := List.find?_eq_none.1 h s (mem_all s)
  exact hne (beq_self_eq_true _)

end Symbol

namespace Lexer

open Token.Kind (Spelled Closed)

/-! ### Reading a lexeme -/

theorem stringBody_unescapes {s content : Bytes} {n : Nat} (h : stringBody s = .ok (content, n)) :
    n ≤ s.length ∧ ∃ body, s.take n = body ++ ['"'.toUInt8] ∧ Unescapes body content := by
  fun_induction stringBody s generalizing content n with
  | case1 => cases h
  | case2 => cases h; exact ⟨by simp, [], by simp, .nil⟩
  | case3 => cases h
  | case4 d rest => cases h; exact ⟨by simp, [], by simp, .nil⟩
  | case5 => cases h
  | case6 d rest e hd hquote ih =>
    rcases hbody : stringBody rest with cause | ⟨content', n'⟩
    · rw [hbody] at h; cases h
    · rw [hbody] at h
      cases h
      obtain ⟨hn, body, hbody, hden⟩ := ih hbody
      refine ⟨?_, '\\'.toUInt8 :: d :: body, by simp [hbody], .escape (Bytes.mem_escapes hd) hden⟩
      rw [List.length_cons, List.length_cons]
      omega
  | case7 => cases h
  | case8 c d rest hquote hback hprint ih =>
    rcases hbody : stringBody (d :: rest) with cause | ⟨content', n'⟩
    · rw [hbody] at h; cases h
    · rw [hbody] at h
      cases h
      obtain ⟨hn, body, hbody, hden⟩ := ih hbody
      refine ⟨Nat.succ_le_succ hn, c :: body, by simp [hbody], .plain ?_ hquote hback hden⟩
      simpa [UInt8.not_lt] using hprint

theorem string_spelled {cs content : Bytes} {n : Nat} (h : stringBody cs = .ok (content, n)) :
    Spelled ('"'.toUInt8 :: cs.take n) (cs.drop n) (.string content) ∧ n ≤ cs.length := by
  obtain ⟨hn, body, hbody, hden⟩ := stringBody_unescapes h
  refine ⟨⟨⟨body, by rw [hbody], hden⟩, ?_⟩, hn⟩
  rw [hbody]
  have hquote : (32 : UInt8) ≤ '"'.toUInt8 ∧ '"'.toUInt8 ≤ 126 := by decide
  exact List.forall_mem_cons.2
    ⟨hquote, List.forall_mem_append.2 ⟨hden.printable, by simpa using hquote⟩⟩

/-- The longest run of bytes of a class, and what follows it. -/
theorem take_takeWhile (p : UInt8 → Bool) (s : Bytes) :
    s.take (s.takeWhile p).length = s.takeWhile p :=
  (List.prefix_iff_eq_take.1 (List.takeWhile_prefix p)).symm

theorem head?_drop_takeWhile (p : UInt8 → Bool) (s : Bytes) :
    ∀ b ∈ (s.drop (s.takeWhile p).length).head?, p b = false := by
  intro b hb
  have hdrop : (s.takeWhile p ++ s.dropWhile p).drop (s.takeWhile p).length = s.dropWhile p :=
    List.drop_left
  rw [List.takeWhile_append_dropWhile] at hdrop
  rw [hdrop] at hb
  have hnot := List.head?_dropWhile_not p s
  rwa [Option.mem_def.1 hb] at hnot

theorem number_spelled {c : UInt8} {cs digits : Bytes} {k : Token.Kind}
    (hc : Byte.isDigit c = true) (hdigits : digits = cs.takeWhile Byte.isDigit)
    (h : number (c :: digits) (cs.drop digits.length) = .ok k) :
    Spelled (c :: digits) (cs.drop digits.length) k := by
  have hall : ∀ b ∈ c :: digits, Byte.isDigit b = true := by
    refine List.forall_mem_cons.2 ⟨hc, fun b hb => ?_⟩
    rw [hdigits] at hb
    exact List.all_eq_true.1 List.all_takeWhile b hb
  unfold number at h
  split at h
  · cases h
  · rename_i hafter
    split at h
    · cases h
    · rename_i hzero
      split at h
      · cases h
      · rename_i hmax
        cases h
        have hlength : (c :: digits).head? = some '0'.toUInt8 → (c :: digits).length = 1 := by
          intro hhead
          simp only [hhead, beq_self_eq_true, Bool.and_true, decide_eq_true_eq] at hzero
          rw [List.length_cons] at hzero ⊢
          omega
        refine ⟨(decimal_value (by simp) hall hlength).symm, hall, rfl, hlength,
          Nat.le_of_not_lt hmax, fun b hb => ?_⟩
        -- a letter or underscore is refused, and a digit would be part of the number
        have hstart : Byte.isNameStart b = false := by
          rw [Option.mem_def.1 hb] at hafter
          simpa using hafter
        have hdigit : Byte.isDigit b = false := by
          rw [hdigits] at hb
          exact head?_drop_takeWhile _ cs b hb
        rw [Byte.isNameStart, Bool.or_eq_false_iff] at hstart
        simp [Byte.isNamePart, hstart, hdigit]

theorem word_spelled {c : UInt8} {cs part : Bytes} {k : Token.Kind}
    (hc : Byte.isNameStart c = true) (hpart : part = cs.takeWhile Byte.isNamePart)
    (h : word (c :: part) = .ok k) :
    Spelled (c :: part) (cs.drop part.length) k := by
  have hclosed : Closed (cs.drop part.length) := by
    rw [hpart]
    exact head?_drop_takeWhile _ cs
  unfold word at h
  split at h
  · rename_i kw hkw
    cases h
    exact ⟨(Keyword.spelling_of_ofSpelling? hkw).symm, hclosed⟩
  · rename_i hkw
    split at h
    · cases h
    · rename_i hres
      cases h
      refine ⟨rfl, ⟨c, part, rfl, hc, fun b hb => ?_⟩, Keyword.ne_spelling_of_ofSpelling? hkw,
        by simpa using hres, hclosed⟩
      rw [hpart] at hb
      exact List.all_eq_true.1 List.all_takeWhile b hb

theorem symbol_spelled {c : UInt8} {cs : Bytes} {k : Token.Kind} {n : Nat}
    (h : symbol c cs = .ok (k, n)) :
    Spelled (c :: cs.take n) (cs.drop n) k ∧ n ≤ cs.length := by
  unfold symbol at h
  split at h
  · -- both bytes spell the symbol
    rename_i s hs
    cases h
    have hspelling := Symbol.spelling_of_ofSpelling? hs
    have htake : c :: cs.take (s.spelling.length - 1) = s.spelling := by
      rw [hspelling]
      cases cs <;> simp
    have hlength : s.spelling.length - 1 ≤ cs.length := by
      rw [hspelling, List.length_cons, Nat.add_sub_cancel]
      exact List.length_take_le' 1 cs
    refine ⟨⟨htake, fun hone b hb => ?_⟩, hlength⟩
    rw [htake, hspelling] at hone
    cases cs with
    | nil => simp at hb
    | cons d ds => simp at hone
  · rename_i htwo
    split at h
    · rename_i s hs
      cases h
      refine ⟨⟨(Symbol.spelling_of_ofSpelling? hs).symm, fun _ b hb s' => ?_⟩, Nat.zero_le _⟩
      cases cs with
      | nil => simp at hb
      | cons d ds =>
        obtain rfl : d = b := by simpa using hb
        exact Symbol.ne_spelling_of_ofSpelling? htwo s'
    · cases h

theorem lexeme_spelled {c : UInt8} {cs : Bytes} {k : Token.Kind} {n : Nat}
    (h : lexeme c cs = .ok (k, n)) :
    Spelled (c :: cs.take n) (cs.drop n) k ∧ n ≤ cs.length := by
  unfold lexeme at h
  split at h
  · rename_i hquote
    split at h
    · rename_i content m hbody
      cases h
      rw [hquote]
      exact string_spelled hbody
    · cases h
  · split at h
    · rename_i hdigit
      simp only [Except.map] at h
      split at h
      · cases h
      · rename_i hnumber
        cases h
        rw [take_takeWhile]
        exact ⟨number_spelled hdigit rfl hnumber, (List.takeWhile_sublist _).length_le⟩
    · split at h
      · rename_i hstart
        simp only [Except.map] at h
        split at h
        · cases h
        · rename_i hword
          cases h
          rw [take_takeWhile]
          exact ⟨word_spelled hstart rfl hword, (List.takeWhile_sublist _).length_le⟩
      · exact symbol_spelled h

end Lexer

/-- The tokens on line `n` other than the marks of lines and indentations. -/
def lexemesOn (n : Nat) (ts : List Token) : List Token :=
  ts.filter fun t => t.loc.line = n ∧ t.kind.isLexeme = true

/-! ### Scanning a line -/

/-- A token with its lexeme. -/
abbrev Placed := Token × Bytes

/-- From column `col` on, `text` is made up of the lexemes of the tokens with white space between
them, and after the last one white space that a comment may follow. -/
inductive Scanned (line : Nat) : Nat → Bytes → List Placed → Prop
  | space {col : Nat} (gap : Bytes) (blank : ∀ b ∈ gap, Byte.isSpace b = true) :
      Scanned line col gap []
  | comment {col : Nat} (gap comment : Bytes) (blank : ∀ b ∈ gap, Byte.isSpace b = true) :
      Scanned line col (gap ++ '#'.toUInt8 :: comment) []
  | lexeme {col : Nat} {kind : Token.Kind} (gap lexeme after : Bytes) {rest : List Placed}
      (blank : ∀ b ∈ gap, Byte.isSpace b = true) (filled : lexeme ≠ [])
      (spelled : kind.Spelled lexeme after)
      (next : Scanned line (col + gap.length + lexeme.length) after rest) :
      Scanned line col (gap ++ lexeme ++ after) ((⟨kind, ⟨line, col + gap.length⟩⟩, lexeme) :: rest)

namespace Scanned

variable {line col : Nat} {text : Bytes} {placed : List Placed}

theorem prepend (h : Scanned line (col + 1) text placed) {c : UInt8}
    (hc : Byte.isSpace c = true) : Scanned line col (c :: text) placed := by
  cases h with
  | space _ hgap => exact .space (c :: text) (List.forall_mem_cons.2 ⟨hc, hgap⟩)
  | comment gap rest hgap => exact .comment (c :: gap) rest (List.forall_mem_cons.2 ⟨hc, hgap⟩)
  | lexeme gap lex after hgap hne hspelled hnext =>
    have hcol : col + 1 + gap.length = col + (c :: gap).length := by rw [List.length_cons]; omega
    rw [hcol] at hnext ⊢
    exact .lexeme (c :: gap) lex after (List.forall_mem_cons.2 ⟨hc, hgap⟩) hne hspelled hnext

theorem prepend_all {gap : Bytes} (hgap : ∀ b ∈ gap, Byte.isSpace b = true)
    (h : Scanned line (col + gap.length) text placed) :
    Scanned line col (gap ++ text) placed := by
  induction gap generalizing col with
  | nil => exact h
  | cons c cs ih =>
    obtain ⟨hc, hcs⟩ := List.forall_mem_cons.1 hgap
    refine prepend (ih hcs ?_) hc
    rw [List.length_cons] at h
    rwa [Nat.add_right_comm]

/-- Where a token stands there is its lexeme, and nothing before column `col`. -/
theorem lexeme_at (h : Scanned line col text placed) : ∀ p ∈ placed,
    col ≤ p.1.loc.col ∧ ∃ after, text.drop (p.1.loc.col - col) = p.2 ++ after := by
  induction h with
  | space | comment => simp
  | @lexeme col kind gap lex after rest hgap hne hspelled hnext ih =>
    intro p hp
    rcases List.mem_cons.1 hp with rfl | hp
    · refine ⟨Nat.le_add_right _ _, after, ?_⟩
      rw [Nat.add_sub_cancel_left, List.append_assoc, List.drop_left]
    · obtain ⟨hcol, after', hafter⟩ := ih p hp
      refine ⟨by omega, after', ?_⟩
      have hsplit : p.1.loc.col - col =
          (gap ++ lex).length + (p.1.loc.col - (col + gap.length + lex.length)) := by
        rw [List.length_append]; omega
      rw [hsplit, List.drop_length_add_append, hafter]

/-- Each lexeme ends before the next one starts. -/
theorem apart (h : Scanned line col text placed) :
    placed.Pairwise fun p q => p.1.loc.col + p.2.length ≤ q.1.loc.col := by
  induction h with
  | space | comment => exact .nil
  | lexeme gap lex after hgap hne hspelled hnext ih =>
    exact List.pairwise_cons.2 ⟨fun q hq => (hnext.lexeme_at q hq).1, ih⟩

theorem ne_nil (h : Scanned line col text placed) : ∀ p ∈ placed, p.2 ≠ [] := by
  induction h with
  | space | comment => simp
  | lexeme gap lex after hgap hne hspelled hnext ih => exact List.forall_mem_cons.2 ⟨hne, ih⟩

/-- The tokens start at strictly increasing columns. -/
theorem increasing (h : Scanned line col text placed) :
    (placed.map Prod.fst).Pairwise fun t u => t.loc.col < u.loc.col := by
  rw [List.pairwise_map]
  refine h.apart.imp_of_mem fun {p q} hp _ hle => ?_
  have hpos := List.length_pos_iff.2 (h.ne_nil p hp)
  omega

end Scanned

namespace Lexer

theorem lexemes_scanned {line col : Nat} {s : Bytes} {ts : List Token}
    (h : lexemes line col s = .ok ts) :
    (∀ t ∈ ts, t.loc.line = line ∧ t.kind.isLexeme = true) ∧
      ∃ placed, placed.map Prod.fst = ts ∧ Scanned line col s placed := by
  fun_induction lexemes line col s generalizing ts with
  | case1 col => cases h; exact ⟨by simp, [], rfl, .space [] (by simp)⟩
  | case2 col c cs hc ih =>
    obtain ⟨hts, placed, hplaced, hscan⟩ := ih h
    exact ⟨hts, placed, hplaced, hscan.prepend hc⟩
  | case3 col cs => cases h; exact ⟨by simp, [], rfl, .comment [] cs (by simp)⟩
  | case4 => cases h
  | case5 col c cs hc hash kind n hlex ih =>
    simp only [Except.map] at h
    split at h
    · cases h
    · rename_i rest hrest
      cases h
      obtain ⟨hts, placed, hplaced, hscan⟩ := ih hrest
      obtain ⟨hspelled, hn⟩ := lexeme_spelled hlex
      refine ⟨List.forall_mem_cons.2 ⟨⟨rfl, hspelled.isLexeme⟩, hts⟩,
        (⟨kind, ⟨line, col⟩⟩, c :: cs.take n) :: placed, by simp [hplaced], ?_⟩
      have hcol : col + n + 1 = col + ([] : Bytes).length + (c :: cs.take n).length := by
        rw [List.length_cons, List.length_take_of_le hn, List.length_nil]
        omega
      rw [hcol] at hscan
      have hstep := Scanned.lexeme [] (c :: cs.take n) (cs.drop n) (by simp) (by simp) hspelled
        hscan
      simpa using hstep

/-- A blank line has no lexeme. -/
theorem isBlankLine_scanned {line : Bytes} (h : isBlankLine line = true) (n col : Nat) :
    Scanned n col line [] := by
  have hsplit : line.takeWhile Byte.isSpace ++ line.dropWhile Byte.isSpace = line :=
    List.takeWhile_append_dropWhile
  have hgap : ∀ b ∈ line.takeWhile Byte.isSpace, Byte.isSpace b = true :=
    fun b hb => List.all_eq_true.1 List.all_takeWhile b hb
  unfold isBlankLine at h
  split at h
  · rename_i hdrop
    rw [hdrop, List.append_nil] at hsplit
    rw [← hsplit]
    exact .space _ hgap
  · rename_i c rest hdrop
    rw [hdrop, eq_of_beq h] at hsplit
    rw [← hsplit]
    exact .comment _ rest hgap

theorem reindent_marks {stack stack' : List Nat} {width : Nat} {marks : List Token.Kind}
    (h : reindent stack width = some (marks, stack')) :
    ∀ k ∈ marks, k.isLexeme = false ∧ k ≠ .eof := by
  unfold reindent at h
  split at h
  · cases h; simp [Token.Kind.isLexeme]
  · simp only at h
    split at h
    · cases h
      intro k hk
      rw [List.eq_of_mem_replicate hk]
      exact ⟨rfl, nofun⟩
    · cases h

theorem lexemesOn_append (n : Nat) (ts us : List Token) :
    lexemesOn n (ts ++ us) = lexemesOn n ts ++ lexemesOn n us := List.filter_append _ _

theorem lexemesOn_eq_nil {n : Nat} {ts : List Token}
    (h : ∀ t ∈ ts, t.loc.line ≠ n ∨ t.kind.isLexeme = false) : lexemesOn n ts = [] := by
  rw [lexemesOn, List.filter_eq_nil_iff]
  intro t ht
  rcases h t ht with hline | hkind
  · simp [hline]
  · simp [hkind]

theorem lexemesOn_eq_self {n : Nat} {ts : List Token}
    (h : ∀ t ∈ ts, t.loc.line = n ∧ t.kind.isLexeme = true) : lexemesOn n ts = ts := by
  rw [lexemesOn, List.filter_eq_self]
  intro t ht
  simp [h t ht]

theorem lineTokens_scanned {n : Nat} {stack stack' : List Nat} {line : Bytes} {ts : List Token}
    (h : lineTokens n stack line = .ok (ts, stack')) :
    (∀ t ∈ ts, t.loc.line = n ∧ t.kind ≠ .eof) ∧
      ∃ placed, placed.map Prod.fst = lexemesOn n ts ∧ Scanned n 1 line placed := by
  unfold lineTokens at h
  split at h
  · rename_i hblank
    cases h
    exact ⟨by simp, [], rfl, isBlankLine_scanned hblank n 1⟩
  · split at h
    · cases h
    · rename_i marks stack'' hre
      simp only [bind, Except.bind] at h
      split at h
      · cases h
      · rename_i tokens htok
        simp only [pure, Except.pure, Except.ok.injEq, Prod.mk.injEq] at h
        obtain ⟨rfl, -⟩ := h
        obtain ⟨htokens, placed, hplaced, hscan⟩ := lexemes_scanned htok
        have hmarks : lexemesOn n (marks.map (⟨·, ⟨n, 1⟩⟩)) = [] := by
          refine lexemesOn_eq_nil fun t ht => Or.inr ?_
          obtain ⟨k, hk, rfl⟩ := List.mem_map.1 ht
          exact (reindent_marks hre k hk).1
        have hend : lexemesOn n [⟨.newline, ⟨n, line.length + 1⟩⟩] = [] :=
          lexemesOn_eq_nil fun t ht => Or.inr (by rw [List.mem_singleton.1 ht]; rfl)
        refine ⟨fun t ht => ?_, placed, ?_, ?_⟩
        · simp only [List.mem_append, List.mem_map, List.mem_singleton] at ht
          rcases ht with (⟨k, hk, rfl⟩ | ht) | rfl
          · exact ⟨rfl, (reindent_marks hre k hk).2⟩
          · obtain ⟨hline, hlexeme⟩ := htokens t ht
            refine ⟨hline, fun heof => ?_⟩
            rw [heof] at hlexeme
            cases hlexeme
          · exact ⟨rfl, nofun⟩
        · rw [lexemesOn_append, lexemesOn_append, hmarks, hend, lexemesOn_eq_self htokens, hplaced,
            List.nil_append, List.append_nil]
        · have hmargin := List.take_append_drop line.indentation.length line
          rw [show line.take line.indentation.length = line.indentation from
            take_takeWhile Byte.isBlank line] at hmargin
          have hgap : ∀ b ∈ line.indentation, Byte.isSpace b = true := by
            intro b hb
            have hblank : Byte.isBlank b = true := List.all_eq_true.1 List.all_takeWhile b hb
            rw [Byte.isSpace, hblank, Bool.true_or]
          rw [Nat.add_comm] at hscan
          have hall := hscan.prepend_all hgap
          rwa [hmargin] at hall

/-- The tokens of the lines carry the numbers of their lines, and each line is scanned. -/
theorem linesTokens_scanned {lines : List Bytes} : ∀ {n : Nat} {stack stack' : List Nat}
    {ts : List Token}, linesTokens n stack lines = .ok (ts, stack') →
    (∀ t ∈ ts, n ≤ t.loc.line ∧ t.kind ≠ .eof) ∧ ∀ i line, lines[i]? = some line →
      ∃ placed, placed.map Prod.fst = lexemesOn (n + i) ts ∧ Scanned (n + i) 1 line placed := by
  induction lines with
  | nil => intro n stack stack' ts h; cases h; simp
  | cons first rest ih =>
    intro n stack stack' ts h
    simp only [linesTokens, bind, Except.bind] at h
    split at h
    · cases h
    · rename_i r hfirst
      split at h
      · cases h
      · rename_i r' hrest
        simp only [pure, Except.pure, Except.ok.injEq, Prod.mk.injEq] at h
        obtain ⟨rfl, -⟩ := h
        obtain ⟨hline, placed, hplaced, hscan⟩ := lineTokens_scanned hfirst
        obtain ⟨hlater, hscans⟩ := ih hrest
        refine ⟨fun t ht => ?_, fun i line hi => ?_⟩
        · rcases List.mem_append.1 ht with ht | ht
          · exact ⟨Nat.le_of_eq (hline t ht).1.symm, (hline t ht).2⟩
          · exact ⟨Nat.le_of_succ_le (hlater t ht).1, (hlater t ht).2⟩
        · cases i with
          | zero =>
            obtain rfl : first = line := by simpa using hi
            refine ⟨placed, ?_, hscan⟩
            have hnone : lexemesOn (n + 0) r'.1 = [] :=
              lexemesOn_eq_nil fun t ht => Or.inl (Nat.ne_of_gt (hlater t ht).1)
            rw [lexemesOn_append, hnone, List.append_nil]
            exact hplaced
          | succ i =>
            obtain ⟨placed', hplaced', hscan'⟩ := hscans i line (by simpa using hi)
            have hnum : n + 1 + i = n + (i + 1) := by omega
            rw [hnum] at hplaced' hscan'
            refine ⟨placed', ?_, hscan'⟩
            have hnone : lexemesOn (n + (i + 1)) r.1 = [] :=
              lexemesOn_eq_nil fun t ht => Or.inl (by rw [(hline t ht).1]; omega)
            rw [lexemesOn_append, hnone, List.nil_append]
            exact hplaced'

end Lexer

/-- The tokens are those of the lines, a mark for each indentation left open and the end. -/
theorem tokenize_split {source : Bytes} {ts : List Token} (h : tokenize source = .ok ts) :
    ∃ tokens stack loc k, Lexer.linesTokens 1 [0] source.lines = .ok (tokens, stack) ∧
      ts = tokens ++ (List.replicate k ⟨.dedent, loc⟩ ++ [⟨.eof, loc⟩]) := by
  simp only [tokenize, bind, Except.bind] at h
  split at h
  · cases h
  · rename_i r hlines
    simp only [pure, Except.pure, Except.ok.injEq] at h
    subst h
    exact ⟨r.1, r.2, _, _, hlines, List.append_assoc _ _ _⟩

/-- Tokenization is lossless: each line of the text is the lexemes of its tokens, in their order
and at their columns, with nothing but white space between them and a comment at the end. -/
theorem tokenize_scanned {source : Bytes} {ts : List Token} (h : tokenize source = .ok ts)
    {i : Nat} {line : Bytes} (hline : source.lines[i]? = some line) :
    ∃ placed : List Placed, placed.map Prod.fst = lexemesOn (i + 1) ts ∧
      Scanned (i + 1) 1 line placed ∧
      (lexemesOn (i + 1) ts).Pairwise (fun t u => t.loc.col < u.loc.col) ∧
      placed.Pairwise (fun p q => p.1.loc.col + p.2.length ≤ q.1.loc.col) ∧
      ∀ p ∈ placed, 1 ≤ p.1.loc.col ∧ p.2 ≠ [] ∧
        ∃ after, line.drop (p.1.loc.col - 1) = p.2 ++ after := by
  obtain ⟨tokens, stack, loc, k, hlines, rfl⟩ := tokenize_split h
  obtain ⟨placed, hplaced, hscan⟩ := (Lexer.linesTokens_scanned hlines).2 i line hline
  rw [Nat.add_comm 1 i] at hplaced hscan
  -- the marks after the last line are no lexemes
  have hmarks : lexemesOn (i + 1) (List.replicate k ⟨.dedent, loc⟩ ++ [⟨.eof, loc⟩]) = [] := by
    refine Lexer.lexemesOn_eq_nil fun t ht => Or.inr ?_
    rcases List.mem_append.1 ht with ht | ht
    · rw [List.eq_of_mem_replicate ht]; rfl
    · rw [List.mem_singleton.1 ht]; rfl
  refine ⟨placed, ?_⟩
  rw [Lexer.lexemesOn_append, hmarks, List.append_nil, ← hplaced]
  exact ⟨rfl, hscan, hscan.increasing, hscan.apart, fun p hp =>
    ⟨(hscan.lexeme_at p hp).1, hscan.ne_nil p hp, (hscan.lexeme_at p hp).2⟩⟩

/-- A line with a string, a symbol of two bytes and a comment, after an indented line. -/
theorem tokenize_scanned_string : ∃ ts,
    tokenize (txt "if a:\n  s = \"x\\n\" != 10 # y\n") = .ok ts ∧
    (txt "if a:\n  s = \"x\\n\" != 10 # y\n").lines[1]? =
      some (txt "  s = \"x\\n\" != 10 # y\n") ∧
    ∃ placed : List Placed, placed.map Prod.fst = lexemesOn 2 ts ∧
      Scanned 2 1 (txt "  s = \"x\\n\" != 10 # y\n") placed ∧
      (lexemesOn 2 ts).length = 5 := by
  have hrun : (tokenize (txt "if a:\n  s = \"x\\n\" != 10 # y\n")).toOption.any
      (fun ts => (lexemesOn 2 ts).length = 5) = true := by decide +kernel
  have hline : (txt "if a:\n  s = \"x\\n\" != 10 # y\n").lines[1]? =
      some (txt "  s = \"x\\n\" != 10 # y\n") := by decide +kernel
  rcases h : tokenize (txt "if a:\n  s = \"x\\n\" != 10 # y\n") with e | ts
  · rw [h] at hrun
    cases hrun
  · rw [h] at hrun
    obtain ⟨placed, hplaced, hscan, -⟩ := tokenize_scanned h hline
    exact ⟨ts, rfl, hline, placed, hplaced, hscan, of_decide_eq_true hrun⟩

end ChocoRv
