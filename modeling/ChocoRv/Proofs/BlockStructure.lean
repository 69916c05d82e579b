import ChocoRv.Proofs.Indentation

/-!
# Block structure

What the tokens of a text say of its blocks, and the texts that are refused for their indentation:
those with a line that ends blocks without coming to the width of one that is still open.
-/

namespace ChocoRv

open Lexer

namespace Lexer

/-! ### Refused lines -/

theorem stringBody_ne_unindent {s : Bytes} {cause : Cause} (h : stringBody s = .error cause) :
    cause ≠ .unindent := by
  fun_induction stringBody s generalizing cause with
  | case1 | case3 | case5 | case7 =>
    cases h
    simp
  | case2 | case4 => cases h
  | case6 d rest e hd hquote ih | case8 c d rest hquote hback hprint ih =>
    simp only [Except.map] at h
    split at h
    · next hbody =>
      cases h
      exact ih hbody
    · cases h

theorem lexeme_ne_unindent {c : UInt8} {cs near : Bytes} {cause : Cause}
    (h : lexeme c cs = .error (cause, near)) : cause ≠ .unindent := by
  rw [lexeme] at h
  split at h
  · split at h
    · cases h
    · next hbody =>
      cases h
      exact stringBody_ne_unindent hbody
  · split at h
    · simp only [number, Except.map] at h
      split at h
      · next hnumber =>
        cases h
        split at hnumber
        · cases hnumber; simp
        split at hnumber
        · cases hnumber; simp
        split at hnumber
        · cases hnumber; simp
        · cases hnumber
      · cases h
    · split at h
      · simp only [word, Except.map] at h
        split at h
        · next hword =>
          cases h
          split at hword
          · cases hword
          split at hword
          · cases hword; simp
          · cases hword
        · cases h
      · rw [symbol] at h
        split at h
        · cases h
        split at h
        · cases h
        · cases h; simp

theorem lexemes_ne_unindent {n col : Nat} {s : Bytes} {e : Error} (h : lexemes n col s = .error e) :
    e.cause ≠ .unindent := by
  fun_induction lexemes n col s with
  | case1 => cases h
  | case2 col c cs hc ih => exact ih h
  | case3 => cases h
  | case4 col c cs hc hash cause near hlex =>
    cases h
    exact lexeme_ne_unindent hlex
  | case5 col c cs hc hash kind m hlex ih =>
    simp only [Except.map] at h
    split at h
    · next hrest =>
      cases h
      exact ih hrest
    · cases h

theorem lineTokens_unindent_iff {n number : Nat} {stack : List Nat} {line near : Bytes} :
    lineTokens n stack line = .error ⟨.unindent, near, number⟩ ↔
      isBlankLine line = false ∧ reindent stack line.indentWidth = none ∧ near = line ∧
        number = n := by
  rw [lineTokens]
  cases isBlankLine line with
  | true => simp
  | false =>
    rw [if_neg Bool.false_ne_true]
    rcases hre : reindent stack line.indentWidth with _ | ⟨marks, stack'⟩
    · simp [eq_comm]
    · simp only [reduceCtorEq, false_and, and_false, iff_false]
      intro h
      simp only [bind, Except.bind] at h
      split at h
      · next hlex =>
        cases h
        exact lexemes_ne_unindent hlex rfl
      · cases h

/-- Reading stops at the first line that cannot be read. -/
theorem linesTokens_error_iff {n : Nat} {stack : List Nat} {lines : List Bytes} {e : Error} :
    linesTokens n stack lines = .error e ↔ ∃ i line ts stack', lines[i]? = some line ∧
      linesTokens n stack (lines.take i) = .ok (ts, stack') ∧
      lineTokens (n + i) stack' line = .error e := by
  constructor
  · intro h
    induction lines generalizing n stack with
    | nil => cases h
    | cons line lines ih =>
      rw [linesTokens] at h
      rcases hline : lineTokens n stack line with e' | ⟨first, stack₁⟩
      · rw [hline] at h
        cases h
        exact ⟨0, line, [], stack, rfl, rfl, hline⟩
      · rw [hline] at h
        have hrest : linesTokens (n + 1) stack₁ lines = .error e := by
          simp only [bind, Except.bind] at h
          split at h
          · next hrest =>
            cases h
            exact hrest
          · cases h
        obtain ⟨i, bad, ts, stack', hbad, hbefore, herror⟩ := ih hrest
        refine ⟨i + 1, bad, first ++ ts, stack', hbad, ?_, ?_⟩
        · rw [List.take_succ_cons, linesTokens, hline]
          simp only [bind, Except.bind, hbefore]
          rfl
        · rwa [Nat.add_right_comm, Nat.add_assoc] at herror
  · rintro ⟨i, line, ts, stack', hline, hbefore, herror⟩
    obtain ⟨hi, hget⟩ := List.getElem?_eq_some_iff.1 hline
    have hsplit : lines = lines.take i ++ line :: lines.drop (i + 1) := by
      rw [← hget, ← List.drop_eq_getElem_cons hi, List.take_append_drop]
    rw [hsplit, linesTokens_append, hbefore]
    simp only [bind, Except.bind]
    rw [linesTokens, List.length_take_of_le (Nat.le_of_lt hi), herror]
    rfl

/-- Blocks are told apart by the places of their INDENTs. -/
theorem openBlocks_of_places {lines : List Bytes} {i j : Nat}
    (h : (openBlocks lines i).map Block.place = (openBlocks lines j).map Block.place) :
    openBlocks lines i = openBlocks lines j := by
  have hblock : ∀ count, ((openBlocks lines count).map Block.place).map (fun loc =>
      (⟨loc.line, ((lines[loc.line - 1]?).map Bytes.indentWidth).getD 0⟩ : Block)) =
        openBlocks lines count := by
    intro count
    rw [List.map_map]
    refine (List.map_congr_left fun b hb => ?_).trans (List.map_id _)
    obtain ⟨line, hline, hwidth⟩ := width_openBlocks hb
    simp [Block.place, hline, hwidth]
  rw [← hblock i, ← hblock j, h]

end Lexer

/-- The text of the first lines has these lines. -/
theorem Bytes.lines_take (s : Bytes) (i : Nat) : lines (s.lines.take i).flatten = s.lines.take i := by
  fun_induction lines s generalizing i with
  | case1 => rw [List.take_nil]; rfl
  | case2 cs ih =>
    cases i with
    | zero => rfl
    | succ i =>
      rw [List.take_succ_cons, List.flatten_cons, List.singleton_append, lines, if_pos rfl, ih]
  | case3 c cs hc hnil ih =>
    cases i with
    | zero => rfl
    | succ i => simp [lines, hc]
  | case4 c cs hc line rest hlines ih =>
    cases i with
    | zero => rfl
    | succ i =>
      have ih := ih (i + 1)
      rw [hlines, List.take_succ_cons, List.flatten_cons] at ih
      rw [List.take_succ_cons, List.flatten_cons, List.cons_append, lines, if_neg hc, ih]

/-! ### Texts -/

theorem tokenize_eq_ok {source : Bytes} {ts : List Token} : tokenize source = .ok ts ↔
    ∃ tokens stack loc, linesTokens 1 (widths []) source.lines = .ok (tokens, stack) ∧
      loc = ⟨source.count '\n'.toUInt8 + 1, 1⟩ ∧
      ts = tokens ++ List.replicate (stack.length - 1) ⟨.dedent, loc⟩ ++ [⟨.eof, loc⟩] := by
  rw [tokenize, show linesTokens 1 [0] source.lines = linesTokens 1 (widths []) source.lines from rfl]
  rcases linesTokens 1 (widths []) source.lines with e | ⟨tokens, stack⟩
  · simp
  · constructor
    · rintro ⟨⟩
      exact ⟨tokens, stack, _, rfl, rfl, rfl⟩
    · rintro ⟨_, _, _, ⟨⟩, rfl, rfl⟩
      rfl

theorem tokenize_eq_error {source : Bytes} {e : Error} : tokenize source = .error e ↔
    linesTokens 1 (widths []) source.lines = .error e := by
  rw [tokenize, show linesTokens 1 [0] source.lines = linesTokens 1 (widths []) source.lines from rfl]
  rcases linesTokens 1 (widths []) source.lines with e | ⟨tokens, stack⟩
  · exact ⟨fun h => by cases h; rfl, fun h => by cases h; rfl⟩
  · simp

/-- The first lines can be read on their own if and only if they can be read within the text. -/
theorem tokenize_take {source : Bytes} {i : Nat} :
    (∃ ts, tokenize (source.lines.take i).flatten = .ok ts) ↔
      ∃ ts stack, linesTokens 1 (widths []) (source.lines.take i) = .ok (ts, stack) := by
  constructor
  · rintro ⟨ts, h⟩
    obtain ⟨tokens, stack, -, hlines, -, -⟩ := tokenize_eq_ok.1 h
    rw [Bytes.lines_take] at hlines
    exact ⟨tokens, stack, hlines⟩
  · rintro ⟨ts, stack, h⟩
    rw [← Bytes.lines_take] at h
    exact ⟨_, tokenize_eq_ok.2 ⟨ts, stack, _, h, rfl, rfl⟩⟩

/-- The block structure of the tokens of a text. -/
structure Indented (source : Bytes) (ts : List Token) : Prop where
  /-- Each line that is not blank has marks, lexemes and one NEWLINE at its end; further marks stand
  only before the EOF. -/
  rows : ∃ body loc k, Rows 1 source.lines body ∧
    ts = body ++ List.replicate k ⟨.dedent, loc⟩ ++ [⟨.eof, loc⟩]
  eof : ∃ body loc, ts = body ++ [⟨.eof, loc⟩] ∧ ∀ t ∈ body, t.kind ≠ .eof
  balanced : dedents ts = indents ts ∧
    ∀ first rest, ts = first ++ rest → dedents first ≤ indents first
  /-- At the first lexeme of a line as many INDENTs are open as blocks by the offside rule: those of
  the lines that opened the blocks. -/
  depth : ∀ i line, source.lines[i]? = some line → isBlankLine line = false →
    indents (before (i + 1) ts) =
        dedents (before (i + 1) ts) + (openBlocks source.lines (i + 1)).length ∧
      opened? [] (before (i + 1) ts) = some ((openBlocks source.lines (i + 1)).map Block.place)
  /-- Two lines are in the same block if and only if they are equally wide and no line between them
  is narrower. -/
  same : ∀ i j line line', i < j → source.lines[i]? = some line → isBlankLine line = false →
    source.lines[j]? = some line' → isBlankLine line' = false →
      (opened? [] (before (i + 1) ts) = opened? [] (before (j + 1) ts) ↔
        line.indentWidth = line'.indentWidth ∧
          NotNarrower source.lines line.indentWidth (i + 1) j)

theorem tokenize_indented {source : Bytes} {ts : List Token} (h : tokenize source = .ok ts) :
    Indented source ts := by
  obtain ⟨tokens, stack, loc, hlines, -, hts⟩ := tokenize_eq_ok.1 h
  obtain ⟨hrows, rfl, hopened⟩ := linesTokens_rows hlines
  have hlength : (widths (offside 1 [] source.lines)).length - 1 =
      ((offside 1 [] source.lines).map Block.place).length := by
    simp [widths]
  rw [hlength] at hts
  have hplaces : ∀ i line, source.lines[i]? = some line → isBlankLine line = false →
      opened? [] (before (i + 1) ts) =
        some ((openBlocks source.lines (i + 1)).map Block.place) := by
    intro i line hline hblank
    rw [hts, List.append_assoc]
    exact opened?_before hlines hline hblank _
  have hclosed : opened? [] ts = some [] := by
    have hdedents := opened?_dedents loc ((offside 1 [] source.lines).map Block.place) []
    rw [List.append_nil] at hdedents
    rw [hts, opened?_append, opened?_append]
    refine (congrArg (fun o => Option.bind (Option.bind o _) _) hopened).trans ?_
    rw [Option.bind_some, hdedents]
    rfl
  refine
    { rows := ⟨tokens, loc, _, hrows, hts⟩
      eof := ⟨_, loc, hts, fun t ht => ?_⟩
      balanced := ⟨by simpa using length_opened? hclosed, fun first rest hsplit => ?_⟩
      depth := fun i line hline hblank => ⟨?_, hplaces i line hline hblank⟩
      same := fun i j line line' hij hline hblank hline' hblank' => ?_ }
  · rcases List.mem_append.1 ht with ht | ht
    · exact hrows.ne_eof t ht
    · rw [List.eq_of_mem_replicate ht]
      simp
  · rw [hsplit, opened?_append] at hclosed
    obtain ⟨stack, hfirst, -⟩ := Option.bind_eq_some_iff.1 hclosed
    have hcount := length_opened? hfirst
    rw [List.length_nil] at hcount
    omega
  · have hcount := length_opened? (hplaces i line hline hblank)
    rw [List.length_nil, List.length_map] at hcount
    omega
  · rw [hplaces i line hline hblank, hplaces j line' hline' hblank', Option.some.injEq,
      ← openBlocks_eq_iff hij hline hblank hline' hblank']
    exact ⟨openBlocks_of_places, congrArg _⟩

/-- A text is refused for its indentation at a line if and only if all lines before can be read and
the line, not blank, is narrower than the last one that is not blank and has the width of no block
that is open. -/
theorem tokenize_unindent_iff {source near : Bytes} {number : Nat} :
    tokenize source = .error ⟨.unindent, near, number⟩ ↔
      ∃ i, number = i + 1 ∧ source.lines[i]? = some near ∧
        (∃ ts, tokenize (source.lines.take i).flatten = .ok ts) ∧ isBlankLine near = false ∧
        (∃ line, Previous source.lines i line ∧ near.indentWidth < line.indentWidth) ∧
        near.indentWidth ∉ widths (openBlocks source.lines i) := by
  rw [tokenize_eq_error, linesTokens_error_iff]
  constructor
  · rintro ⟨i, line, ts, stack, hline, hbefore, herror⟩
    obtain ⟨-, rfl, -⟩ := linesTokens_rows hbefore
    obtain ⟨hblank, hre, rfl, rfl⟩ := lineTokens_unindent_iff.1 herror
    obtain ⟨hlt, hnot⟩ := (reindent_none (stacked_openBlocks source.lines i)).1 hre
    exact ⟨i, Nat.add_comm 1 i, hline, tokenize_take.2 ⟨ts, _, hbefore⟩, hblank,
      lt_topWidth_openBlocks.1 hlt, hnot⟩
  · rintro ⟨i, rfl, hline, hearlier, hblank, hprevious, hnot⟩
    obtain ⟨ts, stack, hbefore⟩ := tokenize_take.1 hearlier
    obtain ⟨-, rfl, -⟩ := linesTokens_rows hbefore
    refine ⟨i, near, ts, _, hline, hbefore, lineTokens_unindent_iff.2 ⟨hblank, ?_, rfl,
      Nat.add_comm i 1⟩⟩
    exact (reindent_none (stacked_openBlocks source.lines i)).2
      ⟨lt_topWidth_openBlocks.2 hprevious, hnot⟩

/-- The tokens of every text that can be read have its block structure, and the texts refused for
their indentation are those that have none. -/
theorem tokenize_blocks (source : Bytes) :
    (∀ ts, tokenize source = .ok ts → Indented source ts) ∧
      ∀ near number, tokenize source = .error ⟨.unindent, near, number⟩ ↔
        ∃ i, number = i + 1 ∧ source.lines[i]? = some near ∧
          (∃ ts, tokenize (source.lines.take i).flatten = .ok ts) ∧ isBlankLine near = false ∧
          (∃ line, Previous source.lines i line ∧ near.indentWidth < line.indentWidth) ∧
          near.indentWidth ∉ widths (openBlocks source.lines i) :=
  ⟨fun _ => tokenize_indented, fun _ _ => tokenize_unindent_iff⟩

/-- Blocks with tabs, comments and blank lines between them, the last one open at the end. -/
def nestedBlocks : Bytes :=
  txt "if a:\n\tif b:\n\t    x\n# c\n\n  # d\n        y\nif c:\n  z"

/-- A line that ends a block at a width between two that are open. -/
def raggedBlocks : Bytes := txt "if a:\n    x\n# c\n  y\n"

theorem nestedBlocks_indented :
    (∃ ts, tokenize nestedBlocks = .ok ts ∧ ts.length = 25 ∧ Indented nestedBlocks ts) ∧
      (∃ ts, tokenize (raggedBlocks.lines.take 3).flatten = .ok ts) ∧
      ∃ line, Previous raggedBlocks.lines 3 line ∧ 2 < line.indentWidth := by
  constructor
  · have hrun : (tokenize nestedBlocks).toOption.any (fun ts => ts.length = 25) = true := by
      decide +kernel
    rcases h : tokenize nestedBlocks with e | ts
    · rw [h] at hrun
      cases hrun
    · rw [h] at hrun
      exact ⟨ts, rfl, of_decide_eq_true hrun, (tokenize_blocks nestedBlocks).1 ts h⟩
  · have hrun : (match tokenize raggedBlocks with
        | .error e => decide (e = ⟨.unindent, txt "  y\n", 4⟩)
        | .ok _ => false) = true := by decide +kernel
    rcases h : tokenize raggedBlocks with e | ts
    · rw [h] at hrun
      rw [of_decide_eq_true hrun] at h
      obtain ⟨i, hi, -, hearlier, -, hprevious, -⟩ := ((tokenize_blocks raggedBlocks).2 _ _).1 h
      obtain rfl : i = 3 := by omega
      exact ⟨hearlier, hprevious⟩
    · rw [h] at hrun
      cases hrun

end ChocoRv
