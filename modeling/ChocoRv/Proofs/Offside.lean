import ChocoRv.Token.Lexer
import Mathlib.Data.Nat.Init
import Mathlib.Tactic.ByContra

/-!
# The offside rule

The blocks that are open at a line, from the widths of the lines alone: a line closes the blocks
that are wider and opens one if it is wider than those that stay. Blank lines have no part in it.
Two lines see the same open blocks if and only if they have one width and no line between them has
a smaller one.
-/

namespace ChocoRv

namespace Lexer

/-- An open block: the number of the line that opened it, and its width. -/
structure Block where
  line : Nat
  width : Nat
deriving DecidableEq, Repr

/-- The width of the innermost block. -/
def topWidth (stack : List Block) : Nat := (stack.head?.map Block.width).getD 0

/-- The blocks that are no wider than a line. -/
def outer (width : Nat) (stack : List Block) : List Block :=
  stack.dropWhile fun b => decide (width < b.width)

/-- The blocks open at line `n` of that width, given those open before it. -/
def settle (n width : Nat) (stack : List Block) : List Block :=
  if topWidth (outer width stack) = width then outer width stack
  else ⟨n, width⟩ :: outer width stack

/-- The blocks open after one line. -/
def offsideStep (n : Nat) (stack : List Block) (line : Bytes) : List Block :=
  if isBlankLine line then stack else settle n line.indentWidth stack

/-- The blocks open after the lines from number `n` on, innermost first. -/
def offside (n : Nat) (stack : List Block) : List Bytes → List Block
  | [] => stack
  | line :: lines => offside (n + 1) (offsideStep n stack line) lines

/-- The blocks open after the first `count` lines. -/
def openBlocks (lines : List Bytes) (count : Nat) : List Block := offside 1 [] (lines.take count)

theorem offside_append (n : Nat) (stack : List Block) (lines more : List Bytes) :
    offside n stack (lines ++ more) = offside (n + lines.length) (offside n stack lines) more := by
  induction lines generalizing n stack with
  | nil => rfl
  | cons line lines ih =>
    rw [List.cons_append, offside, offside, ih, List.length_cons, Nat.add_right_comm, Nat.add_assoc]

theorem openBlocks_succ {lines : List Bytes} {i : Nat} {line : Bytes} (h : lines[i]? = some line) :
    openBlocks lines (i + 1) = offsideStep (i + 1) (openBlocks lines i) line := by
  obtain ⟨hi, -⟩ := List.getElem?_eq_some_iff.1 h
  rw [openBlocks, List.take_add_one, h, offside_append, List.length_take_of_le (Nat.le_of_lt hi),
    Nat.add_comm 1 i]
  rfl

/-- Past the last line nothing changes. -/
theorem openBlocks_of_none {lines : List Bytes} {i : Nat} (h : lines[i]? = none) :
    openBlocks lines (i + 1) = openBlocks lines i := by
  rw [openBlocks, openBlocks, List.take_add_one, h, Option.toList_none, List.append_nil]

/-! ### Stacks in order -/

/-- The widths grow from the outermost block, and all blocks were opened before line `n`. -/
structure Stacked (n : Nat) (stack : List Block) : Prop where
  sorted : stack.Pairwise fun b c => c.width < b.width
  pos : ∀ b ∈ stack, 0 < b.width
  before : ∀ b ∈ stack, b.line < n

variable {n width : Nat} {stack : List Block} {b : Block}

theorem Stacked.nil (n : Nat) : Stacked n [] := ⟨.nil, by simp, by simp⟩

theorem Stacked.mono {m : Nat} (h : Stacked n stack) (hm : n ≤ m) : Stacked m stack :=
  ⟨h.sorted, h.pos, fun b hb => Nat.lt_of_lt_of_le (h.before b hb) hm⟩

theorem outer_sublist (width : Nat) (stack : List Block) : (outer width stack).Sublist stack :=
  List.dropWhile_sublist _

theorem topWidth_outer_le (width : Nat) (stack : List Block) :
    topWidth (outer width stack) ≤ width := by
  have hnot := List.head?_dropWhile_not (fun b : Block => decide (width < b.width)) stack
  rw [topWidth, outer]
  cases h : (stack.dropWhile fun b => decide (width < b.width)).head? with
  | none => exact Nat.zero_le _
  | some b =>
    rw [h] at hnot
    simpa using hnot

theorem mem_outer (hs : Stacked n stack) : b ∈ outer width stack ↔ b ∈ stack ∧ b.width ≤ width := by
  have hsorted := hs.sorted
  clear hs
  induction stack with
  | nil => simp [outer]
  | cons c stack ih =>
    obtain ⟨hc, hrest⟩ := List.pairwise_cons.1 hsorted
    rw [outer, List.dropWhile_cons]
    split
    · next hlt =>
      have hlt : width < c.width := of_decide_eq_true hlt
      refine (ih hrest).trans ⟨fun h => ⟨List.mem_cons_of_mem _ h.1, h.2⟩, fun h => ?_⟩
      rcases List.mem_cons.1 h.1 with rfl | hb
      · omega
      · exact ⟨hb, h.2⟩
    · next hlt =>
      have hle : c.width ≤ width := by simpa using hlt
      refine ⟨fun h => ⟨h, ?_⟩, fun h => h.1⟩
      rcases List.mem_cons.1 h with rfl | hb
      · exact hle
      · exact Nat.le_trans (Nat.le_of_lt (hc b hb)) hle

/-- A line settles at its own width. -/
theorem topWidth_settle (n width : Nat) (stack : List Block) :
    topWidth (settle n width stack) = width := by
  rw [settle]
  split
  · assumption
  · rfl

theorem Stacked.outer (h : Stacked n stack) (width : Nat) : Stacked n (outer width stack) := by
  have hsub := outer_sublist width stack
  exact ⟨h.sorted.sublist hsub, fun b hb => h.pos b (hsub.subset hb),
    fun b hb => h.before b (hsub.subset hb)⟩

theorem topWidth_mem (hne : stack ≠ []) : ∃ b ∈ stack, b.width = topWidth stack := by
  obtain ⟨b, rest, rfl⟩ := List.exists_cons_of_ne_nil hne
  exact ⟨b, List.mem_cons_self, rfl⟩

/-- No block is wider than the innermost. -/
theorem Stacked.le_topWidth (h : Stacked n stack) (hb : b ∈ stack) : b.width ≤ topWidth stack := by
  cases stack with
  | nil => cases hb
  | cons c rest =>
    rcases List.mem_cons.1 hb with rfl | hb
    · exact Nat.le_refl _
    · exact Nat.le_of_lt ((List.pairwise_cons.1 h.sorted).1 b hb)

theorem Stacked.settle (h : Stacked n stack) (width : Nat) :
    Stacked (n + 1) (settle n width stack) := by
  have houter := (h.outer width).mono (Nat.le_succ n)
  have hle := topWidth_outer_le width stack
  rw [Lexer.settle]
  split
  · exact houter
  · next hne =>
    refine ⟨List.pairwise_cons.2 ⟨fun b hb => ?_, houter.sorted⟩,
      List.forall_mem_cons.2 ⟨?_, houter.pos⟩,
      List.forall_mem_cons.2 ⟨Nat.lt_succ_self n, houter.before⟩⟩
    · have hb := houter.le_topWidth hb
      show b.width < width
      omega
    · show 0 < width
      omega

theorem Stacked.offside {lines : List Bytes} (h : Stacked n stack) :
    Stacked (n + lines.length) (offside n stack lines) := by
  induction lines generalizing n stack with
  | nil => exact h
  | cons line lines ih =>
    rw [List.length_cons, Nat.add_comm lines.length, ← Nat.add_assoc]
    refine ih ?_
    rw [offsideStep]
    split
    · exact h.mono (Nat.le_succ n)
    · exact h.settle _

theorem stacked_openBlocks (lines : List Bytes) (count : Nat) :
    Stacked (1 + (lines.take count).length) (openBlocks lines count) :=
  (Stacked.nil 1).offside

theorem openBlocks_before {lines : List Bytes} {count : Nat} (hb : b ∈ openBlocks lines count) :
    b.line ≤ count := by
  have hlt := (stacked_openBlocks lines count).before b hb
  have hle := List.length_take_le count lines
  omega

theorem settle_le (hs : Stacked n stack) (hb : b ∈ settle n width stack) : b.width ≤ width := by
  have htop := (hs.settle width).le_topWidth hb
  rwa [topWidth_settle] at htop

/-- The block that a line opens is new; the others were open before. -/
theorem mem_of_mem_settle (hb : b ∈ settle n width stack) : b = ⟨n, width⟩ ∨ b ∈ stack := by
  have hsub := (outer_sublist width stack).subset
  rw [settle] at hb
  split at hb
  · exact .inr (hsub hb)
  · exact (List.mem_cons.1 hb).imp_right fun hb => hsub hb

theorem outer_append (inner : List Block) (h : topWidth stack ≤ width) :
    outer width (inner ++ stack) = outer width inner ++ stack := by
  have hstop : outer width stack = stack := by
    cases stack with
    | nil => rfl
    | cons b rest =>
      have hle : b.width ≤ width := h
      exact List.dropWhile_cons_of_neg (by simpa using hle)
  rw [outer, List.dropWhile_append]
  split
  · next hempty =>
    have hnil : outer width inner = [] := by simpa [outer] using hempty
    rw [hnil]
    exact hstop
  · rfl

/-- A line that is not narrower than a block leaves it open, and a block that it opens inside is
wider. -/
theorem settle_append {inner : List Block} (hle : topWidth stack ≤ width)
    (hwider : ∀ b ∈ inner, topWidth stack < b.width) (n : Nat) :
    ∃ inner', settle n width (inner ++ stack) = inner' ++ stack ∧
      ∀ b ∈ inner', topWidth stack < b.width := by
  have hstay : ∀ b ∈ outer width inner, topWidth stack < b.width := fun b hb =>
    hwider b ((outer_sublist width inner).subset hb)
  rw [settle, outer_append inner hle]
  split
  · exact ⟨_, rfl, hstay⟩
  · next hne =>
    refine ⟨_ :: outer width inner, rfl, List.forall_mem_cons.2 ⟨?_, hstay⟩⟩
    show topWidth stack < width
    have htop := topWidth_outer_le width inner
    cases houter : outer width inner with
    | nil =>
      rw [houter, List.nil_append] at hne
      omega
    | cons b rest =>
      have hb := hstay b (houter ▸ List.mem_cons_self)
      rw [houter] at htop
      exact Nat.lt_of_lt_of_le hb htop

/-! ### The blocks of two lines -/

section
variable {lines : List Bytes} {i j : Nat} {line line' : Bytes}

theorem topWidth_openBlocks (h : lines[i]? = some line) (hblank : isBlankLine line = false) :
    topWidth (openBlocks lines (i + 1)) = line.indentWidth := by
  rw [openBlocks_succ h, offsideStep, hblank]
  exact topWidth_settle _ _ _

/-- The last line before index `i` that is not blank. -/
def Previous (lines : List Bytes) (i : Nat) (line : Bytes) : Prop :=
  ∃ k, k < i ∧ lines[k]? = some line ∧ isBlankLine line = false ∧
    ∀ m line', k < m → m < i → lines[m]? = some line' → isBlankLine line' = true

/-- With no line or a blank one at `i`, the line before is the same. -/
theorem previous_succ_of_blank (hblank : ∀ line, lines[i]? = some line → isBlankLine line = true) :
    Previous lines (i + 1) line ↔ Previous lines i line := by
  constructor
  · rintro ⟨k, hk, hline, hfull, hbetween⟩
    have hne : k ≠ i := by
      rintro rfl
      cases hfull.symm.trans (hblank line hline)
    exact ⟨k, by omega, hline, hfull, fun m line' hkm hmi => hbetween m line' hkm (by omega)⟩
  · rintro ⟨k, hk, hline, hfull, hbetween⟩
    refine ⟨k, by omega, hline, hfull, fun m line' hkm hmi hm => ?_⟩
    rcases Nat.lt_succ_iff_lt_or_eq.1 hmi with hmi | rfl
    · exact hbetween m line' hkm hmi hm
    · exact hblank line' hm

/-- Behind a line that is not blank, it is the line before. -/
theorem previous_succ (hline : lines[i]? = some line) (hblank : isBlankLine line = false) :
    Previous lines (i + 1) line' ↔ line' = line := by
  constructor
  · rintro ⟨k, hk, hline', hfull, hbetween⟩
    rcases Nat.lt_succ_iff_lt_or_eq.1 hk with hk | rfl
    · cases hblank.symm.trans (hbetween i line hk (Nat.lt_succ_self i) hline)
    · exact Option.some.inj (hline'.symm.trans hline)
  · rintro rfl
    exact ⟨i, Nat.lt_succ_self i, hline, hblank, fun m _ him hmi => by omega⟩

/-- The innermost block is as wide as the last line that is not blank. -/
theorem lt_topWidth_openBlocks {width : Nat} :
    width < topWidth (openBlocks lines i) ↔
      ∃ line, Previous lines i line ∧ width < line.indentWidth := by
  induction i with
  | zero =>
    refine ⟨fun h => absurd h (Nat.not_lt_zero _), ?_⟩
    rintro ⟨line, ⟨k, hk, -⟩, -⟩
    exact absurd hk (Nat.not_lt_zero _)
  | succ i ih =>
    cases hline : lines[i]? with
    | none =>
      rw [openBlocks_of_none hline, ih]
      simp only [previous_succ_of_blank fun line h => by cases hline.symm.trans h]
    | some line =>
      cases hblank : isBlankLine line with
      | true =>
        rw [openBlocks_succ hline, offsideStep, hblank, if_pos rfl, ih]
        simp only [previous_succ_of_blank fun line' h => by cases hline.symm.trans h; exact hblank]
      | false =>
        rw [topWidth_openBlocks hline hblank]
        simp only [previous_succ hline hblank, exists_eq_left]

/-- A block is as wide as the line that opened it. -/
theorem width_openBlocks {b : Block} (hb : b ∈ openBlocks lines i) :
    ∃ line, lines[b.line - 1]? = some line ∧ line.indentWidth = b.width := by
  induction i with
  | zero => cases hb
  | succ i ih =>
    cases hline : lines[i]? with
    | none =>
      rw [openBlocks_of_none hline] at hb
      exact ih hb
    | some line =>
      rw [openBlocks_succ hline, offsideStep] at hb
      split at hb
      · exact ih hb
      · rcases mem_of_mem_settle hb with rfl | hb
        · exact ⟨line, hline, rfl⟩
        · exact ih hb

/-- The lines from number `i` up to `j` that are not blank are all at least that wide. -/
def NotNarrower (lines : List Bytes) (width i j : Nat) : Prop :=
  ∀ k line, i ≤ k → k < j → lines[k]? = some line → isBlankLine line = false →
    width ≤ line.indentWidth

/-- Blocks stay open as long as no line is narrower than the innermost, and what is opened
meanwhile is wider. -/
theorem openBlocks_kept (hij : i ≤ j)
    (h : NotNarrower lines (topWidth (openBlocks lines i)) i j) :
    ∃ inner, openBlocks lines j = inner ++ openBlocks lines i ∧
      ∀ b ∈ inner, topWidth (openBlocks lines i) < b.width := by
  induction j, hij using Nat.le_induction with
  | base => exact ⟨[], rfl, by simp⟩
  | succ j hij ih =>
    obtain ⟨inner, hinner, hwider⟩ := ih fun k line hik hkj => h k line hik (Nat.lt_succ_of_lt hkj)
    cases hline : lines[j]? with
    | none =>
      rw [openBlocks_of_none hline]
      exact ⟨inner, hinner, hwider⟩
    | some line =>
      rw [openBlocks_succ hline, offsideStep]
      split
      · exact ⟨inner, hinner, hwider⟩
      · next hblank =>
        rw [hinner]
        exact settle_append (h j line hij (Nat.lt_succ_self j) hline (by simpa using hblank))
          hwider (j + 1)

/-- A block that was closed is not opened again. -/
theorem openBlocks_lost (hij : i ≤ j) (hb : b ∉ openBlocks lines i) (hline : b.line ≤ i) :
    b ∉ openBlocks lines j := by
  induction j, hij using Nat.le_induction with
  | base => exact hb
  | succ j hij ih =>
    cases h : lines[j]? with
    | none => rwa [openBlocks_of_none h]
    | some line =>
      rw [openBlocks_succ h, offsideStep]
      split
      · exact ih
      · intro hmem
        rcases mem_of_mem_settle hmem with rfl | hmem
        · exact absurd hline (by simp only; omega)
        · exact ih hmem

/-- Two lines see the same blocks if and only if they are equally wide and no line between them is
narrower. -/
theorem openBlocks_eq_iff (hij : i < j) (hi : lines[i]? = some line)
    (hblank : isBlankLine line = false) (hj : lines[j]? = some line')
    (hblank' : isBlankLine line' = false) :
    openBlocks lines (i + 1) = openBlocks lines (j + 1) ↔
      line.indentWidth = line'.indentWidth ∧
        NotNarrower lines line.indentWidth (i + 1) j := by
  have htop := topWidth_openBlocks hi hblank
  have htop' := topWidth_openBlocks hj hblank'
  constructor
  · intro heq
    refine ⟨by rw [← htop, ← htop', heq], fun k between hik hkj hk hkblank => ?_⟩
    by_contra hlt
    have hne : openBlocks lines (i + 1) ≠ [] := by
      intro hnil
      rw [hnil] at htop
      change 0 = line.indentWidth at htop
      omega
    obtain ⟨b, hb, hwidth⟩ := topWidth_mem hne
    have hclosed : b ∉ openBlocks lines (k + 1) := by
      intro hmem
      rw [openBlocks_succ hk, offsideStep, hkblank] at hmem
      have hlength := List.length_take_of_le
        (Nat.le_of_lt (List.getElem?_eq_some_iff.1 hk).1)
      have hstacked := stacked_openBlocks lines k
      rw [hlength, Nat.add_comm] at hstacked
      have hle := settle_le hstacked hmem
      omega
    have hbline := openBlocks_before hb
    exact openBlocks_lost (by omega) hclosed (by omega) (heq ▸ hb)
  · rintro ⟨hwidth, hbetween⟩
    have hall : NotNarrower lines (topWidth (openBlocks lines (i + 1))) (i + 1) (j + 1) := by
      rw [htop]
      intro k between hik hkj hk hkblank
      rcases Nat.lt_succ_iff_lt_or_eq.1 hkj with hkj | rfl
      · exact hbetween k between hik hkj hk hkblank
      · cases hj.symm.trans hk
        exact Nat.le_of_eq hwidth
    obtain ⟨inner, hinner, hwider⟩ := openBlocks_kept (by omega) hall
    cases inner with
    | nil => exact hinner.symm
    | cons b rest =>
      have hb := hwider b List.mem_cons_self
      rw [hinner] at htop'
      change b.width = line'.indentWidth at htop'
      omega

end

end Lexer

end ChocoRv
