import ChocoRv.Proofs.Lexemes
import ChocoRv.Proofs.Offside
import Mathlib.Data.List.TakeWhile

/-!
# Indentation

The lexer keeps the widths of the open blocks on a stack and marks each change with INDENT and
DEDENT tokens. The marks stand before the first lexeme of a line or before EOF; each DEDENT closes
the last INDENT that is still open; and the INDENTs open at a line are those of the lines that
opened its blocks by the offside rule.
-/

namespace ChocoRv

open Lexer

/-! ### Matching marks -/

def Token.isMark (t : Token) : Bool := t.kind == .indent || t.kind == .dedent

/-- The places of the INDENTs still open after a token; a DEDENT closes the last one. -/
def mark? (stack : List Loc) (t : Token) : Option (List Loc) :=
  match t.kind with
  | .indent => some (t.loc :: stack)
  | .dedent =>
    match stack with
    | [] => none
    | _ :: stack => some stack
  | _ => some stack

/-- The places of the INDENTs still open after some tokens, unless a DEDENT has nothing to close. -/
def opened? (stack : List Loc) (ts : List Token) : Option (List Loc) := ts.foldlM mark? stack

def indents (ts : List Token) : Nat := ts.countP (·.kind == .indent)

def dedents (ts : List Token) : Nat := ts.countP (·.kind == .dedent)

theorem opened?_append (stack : List Loc) (ts us : List Token) :
    opened? stack (ts ++ us) = (opened? stack ts).bind (opened? · us) :=
  List.foldlM_append

theorem opened?_of_noMark {ts : List Token} (h : ∀ t ∈ ts, t.isMark = false) (stack : List Loc) :
    opened? stack ts = some stack := by
  induction ts with
  | nil => rfl
  | cons t ts ih =>
    obtain ⟨ht, hts⟩ := List.forall_mem_cons.1 h
    have hstep : mark? stack t = some stack := by
      obtain ⟨kind, loc⟩ := t
      cases kind with
      | indent | dedent => cases ht
      | _ => rfl
    rw [opened?, List.foldlM_cons, hstep]
    exact ih hts

theorem opened?_dedents (loc : Loc) (inner outer : List Loc) :
    opened? (inner ++ outer) (List.replicate inner.length ⟨.dedent, loc⟩) = some outer := by
  induction inner with
  | nil => rfl
  | cons l inner ih => exact ih

/-- The number of open INDENTs is that of all INDENTs less that of the DEDENTs. -/
theorem length_opened? {stack stack' : List Loc} {ts : List Token}
    (h : opened? stack ts = some stack') :
    stack'.length + dedents ts = stack.length + indents ts := by
  induction ts generalizing stack with
  | nil =>
    cases h
    rfl
  | cons t ts ih =>
    rw [opened?, List.foldlM_cons] at h
    obtain ⟨stack₁, hstep, hrest⟩ := Option.bind_eq_some_iff.1 h
    have ih := ih hrest
    obtain ⟨kind, loc⟩ := t
    rw [dedents, indents] at ih ⊢
    rw [List.countP_cons, List.countP_cons]
    cases kind with
    | indent =>
      cases hstep
      rw [List.length_cons] at ih
      simp only [beq_self_eq_true, if_true, reduceCtorEq, beq_iff_eq, if_false]
      omega
    | dedent =>
      cases stack with
      | nil => cases hstep
      | cons l stack =>
        cases hstep
        rw [List.length_cons]
        simp only [beq_self_eq_true, if_true, reduceCtorEq, beq_iff_eq, if_false]
        omega
    | _ =>
      cases hstep
      simpa using ih

/-! ### Widths -/

namespace Lexer

/-- The stack of the lexer for the open blocks. -/
def widths (stack : List Block) : List Nat := stack.map Block.width ++ [0]

/-- Where the INDENT of a block stands. -/
def Block.place (b : Block) : Loc := ⟨b.line, 1⟩

theorem headD_widths (stack : List Block) : (widths stack).headD 0 = topWidth stack := by
  cases stack <;> rfl

theorem close_widths (width : Nat) (stack : List Block) : close width (widths stack) =
    ((stack.takeWhile fun b => decide (width < b.width)).length, widths (outer width stack)) := by
  induction stack with
  | nil => simp [widths, close, outer]
  | cons b stack ih =>
    have ih : close width (stack.map Block.width ++ [0]) = _ := ih
    rw [widths, List.map_cons, List.cons_append, close, outer, List.takeWhile_cons,
      List.dropWhile_cons]
    by_cases hlt : width < b.width
    · simp [hlt, ih, outer]
    · simp [hlt, widths]

theorem settle_of_lt {n width : Nat} {stack : List Block} (h : topWidth stack < width) :
    settle n width stack = ⟨n, width⟩ :: stack := by
  have houter : outer width stack = stack := by
    cases stack with
    | nil => rfl
    | cons b stack =>
      have hb : b.width < width := h
      exact List.dropWhile_cons_of_neg (by simpa using Nat.le_of_lt hb)
  rw [settle, houter, if_neg (Nat.ne_of_lt h)]

/-- The marks of a line settle its width; a DEDENT stands for each block that the line ends. -/
theorem reindent_ok {n width : Nat} {stack : List Block} {marks : List Token.Kind}
    {stack' : List Nat} (h : reindent (widths stack) width = some (marks, stack')) :
    stack' = widths (settle n width stack) ∧ (∀ k ∈ marks, k = .indent ∨ k = .dedent) ∧
      opened? (stack.map Block.place) (marks.map (⟨·, ⟨n, 1⟩⟩)) =
        some ((settle n width stack).map Block.place) := by
  rw [reindent, headD_widths, close_widths] at h
  split at h
  · next hlt =>
    cases h
    rw [settle_of_lt hlt]
    exact ⟨rfl, by simp, rfl⟩
  · dsimp only at h
    rw [headD_widths] at h
    split at h
    · next htop =>
      cases h
      rw [settle, if_pos htop, List.map_replicate]
      refine ⟨rfl, fun k hk => .inr (List.eq_of_mem_replicate hk), ?_⟩
      have hsplit := List.takeWhile_append_dropWhile (p := fun b : Block => decide (width < b.width))
        (l := stack)
      have hdedents := opened?_dedents ⟨n, 1⟩
        ((stack.takeWhile fun b => decide (width < b.width)).map Block.place)
        ((outer width stack).map Block.place)
      rwa [← List.map_append, outer, hsplit, List.length_map] at hdedents
    · cases h

theorem reindent_none {n width : Nat} {stack : List Block} (hs : Stacked n stack) :
    reindent (widths stack) width = none ↔ width < topWidth stack ∧ width ∉ widths stack := by
  have houter : topWidth (outer width stack) = width ↔ width ∈ widths stack := by
    rw [widths, List.mem_append, List.mem_map, List.mem_singleton]
    constructor
    · intro htop
      cases hstack : outer width stack with
      | nil =>
        rw [hstack] at htop
        exact .inr htop.symm
      | cons b rest =>
        have hne : outer width stack ≠ [] := by simp [hstack]
        obtain ⟨c, hc, hwidth⟩ := topWidth_mem hne
        exact .inl ⟨c, ((mem_outer hs).1 hc).1, hwidth.trans htop⟩
    · rintro (⟨b, hb, rfl⟩ | rfl)
      · have hle := (hs.outer b.width).le_topWidth ((mem_outer hs).2 ⟨hb, Nat.le_refl _⟩)
        exact Nat.le_antisymm (topWidth_outer_le _ _) hle
      · exact Nat.le_zero.1 (topWidth_outer_le 0 stack)
  rw [reindent, headD_widths, close_widths]
  simp only [headD_widths, houter]
  have htop : topWidth stack ∈ widths stack := by
    rw [← headD_widths, widths]
    cases stack <;> simp
  constructor
  · intro h
    split at h
    · cases h
    · next hle =>
      split at h
      · cases h
      · next hnot =>
        refine ⟨?_, hnot⟩
        have hne : width ≠ topWidth stack := fun heq => hnot (heq ▸ htop)
        omega
  · rintro ⟨hlt, hnot⟩
    rw [if_neg (Nat.not_lt.2 (Nat.le_of_lt hlt)), if_neg hnot]

/-! ### The tokens of lines -/

/-- The tokens of the lines from number `n` on: none of a blank line; of another line marks, its
lexemes, of which there is one at least, and a NEWLINE at its end. -/
inductive Rows : Nat → List Bytes → List Token → Prop
  | nil (n : Nat) : Rows n [] []
  | blank {n : Nat} {line : Bytes} {lines : List Bytes} {ts : List Token}
      (hline : isBlankLine line = true) (rest : Rows (n + 1) lines ts) : Rows n (line :: lines) ts
  | row {n : Nat} {line : Bytes} {lines : List Bytes} {marks lexemes ts : List Token}
      (hline : isBlankLine line = false)
      (hmarks : ∀ t ∈ marks, t.isMark = true ∧ t.loc = ⟨n, 1⟩) (hne : lexemes ≠ [])
      (hlexemes : ∀ t ∈ lexemes, t.kind.isLexeme = true ∧ t.loc.line = n)
      (rest : Rows (n + 1) lines ts) :
      Rows n (line :: lines) (marks ++ lexemes ++ ⟨.newline, ⟨n, line.length + 1⟩⟩ :: ts)

theorem Rows.line {n : Nat} {lines : List Bytes} {ts : List Token} (h : Rows n lines ts) :
    ∀ t ∈ ts, n ≤ t.loc.line ∧ t.loc.line < n + lines.length := by
  induction h with
  | nil n => simp
  | blank _ _ ih =>
    intro t ht
    have := ih t ht
    rw [List.length_cons]
    omega
  | row _ hmarks _ hlexemes _ ih =>
    intro t ht
    rw [List.length_cons]
    simp only [List.mem_append, List.mem_cons] at ht
    rcases ht with (ht | ht) | rfl | ht
    · have hline := congrArg Loc.line (hmarks t ht).2
      dsimp only at hline
      omega
    · have hline := (hlexemes t ht).2
      omega
    · dsimp only
      omega
    · have := ih t ht
      omega

theorem Rows.ne_eof {n : Nat} {lines : List Bytes} {ts : List Token} (h : Rows n lines ts) :
    ∀ t ∈ ts, t.kind ≠ .eof := by
  induction h with
  | nil n => simp
  | blank _ _ ih => exact ih
  | row _ hmarks _ hlexemes _ ih =>
    intro t ht heof
    simp only [List.mem_append, List.mem_cons] at ht
    rcases ht with (ht | ht) | rfl | ht
    · have hmark := (hmarks t ht).1
      rw [Token.isMark, heof] at hmark
      cases hmark
    · have hlexeme := (hlexemes t ht).1
      rw [heof] at hlexeme
      cases hlexeme
    · cases heof
    · exact ih t ht heof

/-- A line without lexemes is blank. -/
theorem isBlankLine_of_scanned {n col : Nat} {line : Bytes} (h : Scanned n col line []) :
    isBlankLine line = true := by
  cases h with
  | space _ hgap =>
    rw [isBlankLine, List.dropWhile_eq_nil_iff.2 hgap]
  | comment gap comment hgap =>
    rw [isBlankLine, List.dropWhile_append_of_pos hgap]
    rfl

/-- The tokens of a line that is not blank. -/
theorem lineTokens_row {n : Nat} {stack : List Block} {line : Bytes} {ts : List Token}
    {stack' : List Nat} (h : lineTokens n (widths stack) line = .ok (ts, stack'))
    (hblank : isBlankLine line = false) :
    stack' = widths (settle n line.indentWidth stack) ∧
      ∃ marks lexemes, ts = marks ++ lexemes ++ [⟨.newline, ⟨n, line.length + 1⟩⟩] ∧
        (∀ t ∈ marks, t.isMark = true ∧ t.loc = ⟨n, 1⟩) ∧ lexemes ≠ [] ∧
        (∀ t ∈ lexemes, t.kind.isLexeme = true ∧ t.loc.line = n) ∧
        opened? (stack.map Block.place) marks =
          some ((settle n line.indentWidth stack).map Block.place) := by
  obtain ⟨-, placed, hplaced, hscan⟩ := lineTokens_scanned h
  rw [lineTokens, hblank] at h
  simp only [Bool.false_eq_true, if_false] at h
  split at h
  · cases h
  · next kinds stack₁ hre =>
    obtain ⟨hstack, hkinds, hopened⟩ := reindent_ok (n := n) hre
    simp only [bind, Except.bind] at h
    split at h
    · cases h
    · next toks htoks =>
      cases h
      obtain ⟨hlexemes, -⟩ := lexemes_scanned htoks
      refine ⟨hstack, kinds.map (⟨·, ⟨n, 1⟩⟩), toks, rfl, ?_, ?_, fun t ht => (hlexemes t ht).symm,
        hopened⟩
      · intro t ht
        obtain ⟨k, hk, rfl⟩ := List.mem_map.1 ht
        rcases hkinds k hk with rfl | rfl <;> exact ⟨rfl, rfl⟩
      · -- without lexemes the line would be blank
        rintro rfl
        have hnone : lexemesOn n (kinds.map (⟨·, ⟨n, 1⟩⟩) ++ [] ++
            [⟨.newline, ⟨n, line.length + 1⟩⟩]) = [] := by
          refine lexemesOn_eq_nil fun t ht => .inr ?_
          rw [List.append_nil, List.mem_append, List.mem_singleton] at ht
          rcases ht with ht | rfl
          · obtain ⟨k, hk, rfl⟩ := List.mem_map.1 ht
            rcases hkinds k hk with rfl | rfl <;> rfl
          · rfl
        obtain rfl : placed = [] := List.map_eq_nil_iff.1 (hplaced.trans hnone)
        cases hblank.symm.trans (isBlankLine_of_scanned hscan)

theorem linesTokens_append (n : Nat) (stack : List Nat) (lines more : List Bytes) :
    linesTokens n stack (lines ++ more) = do
      let (ts, stack) ← linesTokens n stack lines
      let (us, stack) ← linesTokens (n + lines.length) stack more
      return (ts ++ us, stack) := by
  induction lines generalizing n stack with
  | nil =>
    rcases h : linesTokens n stack more with e | r <;>
      simp [linesTokens, h, bind, Except.bind, pure, Except.pure]
  | cons line lines ih =>
    rw [List.cons_append, linesTokens, linesTokens, List.length_cons, Nat.add_comm lines.length,
      ← Nat.add_assoc]
    rcases lineTokens n stack line with e | ⟨first, stack₀⟩
    · rfl
    · simp only [ih, bind, Except.bind]
      rcases linesTokens (n + 1) stack₀ lines with e | ⟨ts, stack₁⟩
      · rfl
      · dsimp only [pure, Except.pure]
        rcases linesTokens (n + 1 + lines.length) stack₁ more with e | ⟨us, stack₂⟩
        · rfl
        · simp

/-- Lines are read one by one, and what each gives depends on those before it only. -/
theorem linesTokens_append_ok {n : Nat} {stack stack' : List Nat} {lines more : List Bytes}
    {ts : List Token} (h : linesTokens n stack (lines ++ more) = .ok (ts, stack')) :
    ∃ us stack₁ vs, linesTokens n stack lines = .ok (us, stack₁) ∧
      linesTokens (n + lines.length) stack₁ more = .ok (vs, stack') ∧ ts = us ++ vs := by
  rw [linesTokens_append] at h
  rcases hlines : linesTokens n stack lines with e | ⟨us, stack₁⟩
  · rw [hlines] at h
    cases h
  · rw [hlines] at h
    simp only [bind, Except.bind] at h
    rcases hmore : linesTokens (n + lines.length) stack₁ more with e | ⟨vs, stack₂⟩
    · rw [hmore] at h
      cases h
    · rw [hmore] at h
      cases h
      exact ⟨us, stack₁, vs, rfl, hmore, rfl⟩

theorem linesTokens_singleton (n : Nat) (stack : List Nat) (line : Bytes) :
    linesTokens n stack [line] = lineTokens n stack line := by
  rcases h : lineTokens n stack line with e | r <;>
    simp [linesTokens, h, bind, Except.bind, pure, Except.pure]

/-- The lexer goes from line to line by the offside rule. -/
theorem linesTokens_rows {lines : List Bytes} {n : Nat} {stack : List Block} {ts : List Token}
    {stack' : List Nat} (h : linesTokens n (widths stack) lines = .ok (ts, stack')) :
    Rows n lines ts ∧ stack' = widths (offside n stack lines) ∧
      opened? (stack.map Block.place) ts = some ((offside n stack lines).map Block.place) := by
  induction lines generalizing n stack ts with
  | nil =>
    cases h
    exact ⟨.nil n, rfl, rfl⟩
  | cons line lines ih =>
    rw [← List.singleton_append] at h
    obtain ⟨first, stack₁, rest, hline, hrest, rfl⟩ := linesTokens_append_ok h
    rw [linesTokens_singleton] at hline
    rw [offside]
    cases hblank : isBlankLine line with
    | true =>
      rw [lineTokens, hblank] at hline
      cases hline
      obtain ⟨hrows, hstack, hopened⟩ := ih hrest
      have hstep : offsideStep n stack line = stack := by rw [offsideStep, hblank]; rfl
      rw [hstep]
      exact ⟨.blank hblank hrows, hstack, hopened⟩
    | false =>
      obtain ⟨rfl, marks, lexemes, rfl, hmarks, hne, hlexemes, hopened⟩ := lineTokens_row hline hblank
      obtain ⟨hrows, hstack, hopened'⟩ := ih hrest
      have hstep : offsideStep n stack line = settle n line.indentWidth stack := by
        rw [offsideStep, hblank]
        rfl
      rw [hstep]
      refine ⟨?_, hstack, ?_⟩
      · rw [List.append_assoc, List.singleton_append]
        exact .row hblank hmarks hne hlexemes hrows
      · have hplain : ∀ t ∈ lexemes ++ [⟨.newline, ⟨n, line.length + 1⟩⟩], t.isMark = false := by
          intro t ht
          rcases List.mem_append.1 ht with ht | ht
          · have hlexeme := (hlexemes t ht).1
            obtain ⟨kind, loc⟩ := t
            cases kind with
            | indent | dedent => cases hlexeme
            | _ => rfl
          · rw [List.mem_singleton.1 ht]
            rfl
        rw [List.append_assoc, List.append_assoc, ← List.append_assoc lexemes, opened?_append,
          hopened, Option.bind_some, opened?_append, opened?_of_noMark hplain, Option.bind_some]
        exact hopened'

/-- The tokens before the first lexeme of a line. -/
def before (line : Nat) (ts : List Token) : List Token :=
  ts.takeWhile fun t => !(t.loc.line == line && t.kind.isLexeme)

/-- At the first lexeme of a line the open INDENTs are those of the lines that opened its blocks. -/
theorem opened?_before {lines : List Bytes} {ts : List Token} {stack : List Nat}
    (h : linesTokens 1 (widths []) lines = .ok (ts, stack)) {i : Nat} {line : Bytes}
    (hline : lines[i]? = some line) (hblank : isBlankLine line = false) (tail : List Token) :
    opened? [] (before (i + 1) (ts ++ tail)) =
      some ((openBlocks lines (i + 1)).map Block.place) := by
  obtain ⟨hi, hget⟩ := List.getElem?_eq_some_iff.1 hline
  have hlength := List.length_take_of_le (Nat.le_of_lt hi)
  have hsplit : lines = lines.take i ++ ([line] ++ lines.drop (i + 1)) := by
    rw [List.singleton_append, ← hget, ← List.drop_eq_getElem_cons hi, List.take_append_drop]
  rw [hsplit] at h
  obtain ⟨us, stack₁, vs, hus, hvs, rfl⟩ := linesTokens_append_ok h
  obtain ⟨first, stack₂, rest, hfirst, -, rfl⟩ := linesTokens_append_ok hvs
  rw [linesTokens_singleton, hlength] at hfirst
  obtain ⟨hrows, rfl, hopened⟩ := linesTokens_rows hus
  obtain ⟨-, marks, lexemes, rfl, hmarks, hne, hlexemes, hopened'⟩ := lineTokens_row hfirst hblank
  have hbefore : before (i + 1) (us ++ (marks ++ lexemes ++
      [⟨.newline, ⟨1 + i, line.length + 1⟩⟩] ++ rest) ++ tail) = us ++ marks := by
    obtain ⟨l, ls, rfl⟩ := List.exists_cons_of_ne_nil hne
    have hall : ∀ t ∈ us ++ marks, (!(t.loc.line == i + 1 && t.kind.isLexeme)) = true := by
      intro t ht
      rcases List.mem_append.1 ht with ht | ht
      · have hlt := (hrows.line t ht).2
        rw [hlength] at hlt
        have hneq : (t.loc.line == i + 1) = false := beq_eq_false_iff_ne.2 (by omega)
        rw [hneq]
        rfl
      · have hmark := (hmarks t ht).1
        obtain ⟨kind, loc⟩ := t
        cases kind with
        | indent | dedent => simp [Token.Kind.isLexeme]
        | _ => cases hmark
    have hl := hlexemes l List.mem_cons_self
    simp only [List.append_assoc]
    rw [← List.append_assoc us, before, List.takeWhile_append_of_pos hall, List.cons_append,
      List.takeWhile_cons_of_neg (by simp [hl, Nat.add_comm]), List.append_nil]
  rw [hbefore, opened?_append]
  refine (congrArg (Option.bind · _) hopened).trans ?_
  rw [Option.bind_some, openBlocks_succ hline, offsideStep, hblank, Nat.add_comm i 1]
  exact hopened'

end Lexer

end ChocoRv
