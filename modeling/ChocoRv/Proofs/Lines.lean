import ChocoRv.Asm.Check
import Mathlib.Data.FinEnum

/-!
# Reading lines

A line of assembly text is a mnemonic with operands, or a label with a colon, after some spaces and
before a comment. The reader takes the spaces and the comment away and finds the same mnemonic and
operands again.
-/

namespace ChocoRv

/-! ### Cutting and trimming -/

namespace Bytes

theorem split_append {sep : UInt8} : ∀ {s : Bytes} (t : Bytes), sep ∉ s →
    split sep (s ++ sep :: t) = s :: split sep t
  | [], t, _ => by simp [split]
  | c :: s, t, h => by
    obtain ⟨hc, hs⟩ := not_or.1 (mt List.mem_cons.2 h)
    rw [List.cons_append, split, if_neg (Ne.symm hc), split_append t hs]

theorem split_of_notMem {sep : UInt8} : ∀ {s : Bytes}, sep ∉ s → split sep s = [s]
  | [], _ => rfl
  | c :: s, h => by
    obtain ⟨hc, hs⟩ := not_or.1 (mt List.mem_cons.2 h)
    rw [split, if_neg (Ne.symm hc), split_of_notMem hs]

theorem cut?_append {sep : UInt8} : ∀ {s : Bytes} (t : Bytes), sep ∉ s →
    cut? sep (s ++ sep :: t) = some (s, t)
  | [], t, _ => by simp [cut?]
  | c :: s, t, h => by
    obtain ⟨hc, hs⟩ := not_or.1 (mt List.mem_cons.2 h)
    rw [List.cons_append, cut?, if_neg (Ne.symm hc), cut?_append t hs]
    rfl

theorem cut?_of_notMem {sep : UInt8} : ∀ {s : Bytes}, sep ∉ s → cut? sep s = none
  | [], _ => rfl
  | c :: s, h => by
    obtain ⟨hc, hs⟩ := not_or.1 (mt List.mem_cons.2 h)
    rw [cut?, if_neg (Ne.symm hc), cut?_of_notMem hs]
    rfl

section
variable {one : UInt8 → Bool} {two : UInt8 → UInt8 → Bool} {three : UInt8 → UInt8 → UInt8 → Bool}

theorem dropGroups_of_one {c : UInt8} (h : one c = true) (s : Bytes) :
    dropGroups one two three (c :: s) = dropGroups one two three s := by
  match s with
  | [] => simp [dropGroups, h]
  | [a] => simp [dropGroups, h]
  | a :: b :: s => simp [dropGroups, h]

theorem dropGroups_of_none {c : UInt8} (h₁ : one c = false) (h₂ : ∀ a, two c a = false)
    (h₃ : ∀ a b, three c a b = false) (s : Bytes) :
    dropGroups one two three (c :: s) = c :: s := by
  match s with
  | [] => simp [dropGroups, h₁]
  | [a] => simp [dropGroups, h₁, h₂]
  | a :: b :: s => simp [dropGroups, h₁, h₂, h₃]

end

end Bytes

namespace Byte

/-- Visible ASCII. -/
def isVisible (b : UInt8) : Bool := 0x21 ≤ b && b ≤ 0x7E

theorem isWhite_of_isVisible : ∀ {b : UInt8}, isVisible b = true → isWhite b = false := by
  decide +kernel

theorem toNat_le_of_isVisible {b : UInt8} (h : isVisible b = true) : b.toNat ≤ 126 := by
  simp only [isVisible, Bool.and_eq_true, decide_eq_true_eq] at h
  exact UInt8.le_iff_toNat_le.1 h.2

theorem ne_of_isVisible {b c : UInt8} (h : isVisible b = true) (hc : isVisible c = false) :
    (b == c) = false := by
  rw [beq_eq_false_iff_ne]
  rintro rfl
  cases h.symm.trans hc

theorem not_le_of_isVisible {b c : UInt8} (h : isVisible b = true) (hc : 126 < c.toNat) :
    decide (c ≤ b) = false := by
  have hle := toNat_le_of_isVisible h
  rw [decide_eq_false_iff_not, UInt8.le_iff_toNat_le]
  omega

end Byte

open Byte

namespace Bytes

def space : UInt8 := ' '.toUInt8

/-- The text has visible bytes at both ends. -/
structure Framed (s : Bytes) : Prop where
  first : ∃ c rest, s = c :: rest ∧ isVisible c = true
  last : ∃ rest c, s = rest ++ [c] ∧ isVisible c = true

theorem trimStart_spaces (n : Nat) (s : Bytes) :
    trimStart (List.replicate n space ++ s) = trimStart s := by
  induction n with
  | zero => rfl
  | succ n ih =>
    rw [List.replicate_succ, List.cons_append, trimStart, dropGroups_of_one (by decide)]
    exact ih

theorem trimStart_visible {c : UInt8} (h : isVisible c = true) (s : Bytes) :
    trimStart (c :: s) = c :: s := by
  refine dropGroups_of_none (isWhite_of_isVisible h) (fun a => ?_) (fun a b => ?_) s
  · simp [isWhite₂, ne_of_isVisible h (c := 0xC2) (by decide)]
  · have h₁ := ne_of_isVisible h (c := 0xE1) (by decide)
    have h₂ := ne_of_isVisible h (c := 0xE2) (by decide)
    have h₃ := ne_of_isVisible h (c := 0xE3) (by decide)
    simp [isWhite₃, h₁, h₂, h₃]

theorem trimEnd_white (s : Bytes) {pad : Bytes} (h : ∀ b ∈ pad, isWhite b = true) :
    trimEnd (s ++ pad) = trimEnd s := by
  induction pad using List.reverseRecOn with
  | nil => rw [List.append_nil]
  | append_singleton pad b ih =>
    obtain ⟨hpad, hb⟩ := List.forall_mem_append.1 h
    rw [← List.append_assoc, trimEnd, List.reverse_append, List.reverse_singleton,
      List.singleton_append, dropGroups_of_one (hb b (List.mem_singleton_self b))]
    exact ih hpad

theorem trimEnd_spaces (s : Bytes) (n : Nat) :
    trimEnd (s ++ List.replicate n space) = trimEnd s :=
  trimEnd_white s fun _ hb => List.eq_of_mem_replicate hb ▸ by decide

theorem trimEnd_visible (s : Bytes) {c : UInt8} (h : isVisible c = true) :
    trimEnd (s ++ [c]) = s ++ [c] := by
  have hkeep : dropGroups isWhite (fun b a => isWhite₂ a b) (fun c b a => isWhite₃ a b c)
      (c :: s.reverse) = c :: s.reverse := by
    refine dropGroups_of_none (isWhite_of_isVisible h) (fun a => ?_) (fun a b => ?_) _
    · have h₁ := ne_of_isVisible h (c := 0x85) (by decide)
      have h₂ := ne_of_isVisible h (c := 0xA0) (by decide)
      simp [isWhite₂, h₁, h₂]
    · have h₁ := ne_of_isVisible h (c := 0x80) (by decide)
      have h₂ := ne_of_isVisible h (c := 0xA8) (by decide)
      have h₃ := ne_of_isVisible h (c := 0xA9) (by decide)
      have h₄ := ne_of_isVisible h (c := 0xAF) (by decide)
      have h₅ := ne_of_isVisible h (c := 0x9F) (by decide)
      have h₆ := not_le_of_isVisible h (c := 0x80) (by decide)
      simp [isWhite₃, h₁, h₂, h₃, h₄, h₅, h₆]
  rw [trimEnd, List.reverse_append, List.reverse_singleton, List.singleton_append, hkeep]
  simp

/-- Trimming takes the spaces around a framed text away. -/
theorem Framed.trim {s : Bytes} (h : Framed s) (m n : Nat) :
    trim (List.replicate m space ++ s ++ List.replicate n space) = s := by
  obtain ⟨⟨c, rest, hs, hc⟩, rest', c', hs', hc'⟩ := h
  have hstart : trimStart (List.replicate m space ++ s ++ List.replicate n space) =
      s ++ List.replicate n space := by
    rw [List.append_assoc, trimStart_spaces, hs, List.cons_append, trimStart_visible hc]
  rw [Bytes.trim, hstart, trimEnd_spaces, hs', trimEnd_visible _ hc']

theorem trim_spaces (n : Nat) : trim (List.replicate n space) = [] := by
  have h := trimStart_spaces n []
  rw [List.append_nil] at h
  rw [Bytes.trim, h]
  rfl

end Bytes

/-! ### Lines and comments -/

namespace Asm

open Bytes

def newline : UInt8 := '\n'.toUInt8
def quoteMark : UInt8 := '"'.toUInt8
def hash : UInt8 := '#'.toUInt8

/-- Text that holds no comment and ends outside quotes. -/
def Closed (text : Bytes) : Prop :=
  ∀ rest, uncomment false (text ++ rest) = text ++ uncomment false rest

theorem Closed.append {s t : Bytes} (hs : Closed s) (ht : Closed t) : Closed (s ++ t) :=
  fun rest => by rw [List.append_assoc, hs, ht, List.append_assoc]

theorem Closed.uncomment {s : Bytes} (h : Closed s) : uncomment false s = s := by
  simpa [Asm.uncomment] using h []

theorem closed_of_plain : ∀ {s : Bytes}, (∀ b ∈ s, b ≠ quoteMark ∧ b ≠ hash) → Closed s
  | [], _ => fun _ => rfl
  | c :: s, h => fun rest => by
    obtain ⟨⟨hquote, hhash⟩, hs⟩ := List.forall_mem_cons.1 h
    rw [List.cons_append, Asm.uncomment.eq_def]
    simp only [Bool.and_false, Bool.false_eq_true, if_false, Bool.not_false, Bool.and_true,
      decide_eq_true_eq]
    rw [if_neg (show c ≠ '"'.toUInt8 from hquote), if_neg (show c ≠ '#'.toUInt8 from hhash),
      closed_of_plain hs rest, List.cons_append]

theorem closed_of_all {s : Bytes} (h : s.all (fun b => b != quoteMark && b != hash) = true) :
    Closed s := by
  refine closed_of_plain fun b hb => ?_
  simpa using List.all_eq_true.1 h b hb

theorem uncomment_escape (b : UInt8) (rest : Bytes) :
    uncomment true (escape b ++ rest) = escape b ++ uncomment true rest := by
  unfold escape
  split_ifs with hquote hslash hline htab
  · rfl
  · rfl
  · rfl
  · rfl
  · rw [List.singleton_append, List.singleton_append, Asm.uncomment.eq_def]
    simp [hquote, hslash]

theorem uncomment_escapes (value rest : Bytes) :
    uncomment true (value.flatMap escape ++ rest) = value.flatMap escape ++ uncomment true rest := by
  induction value with
  | nil => rfl
  | cons b value ih =>
    rw [List.flatMap_cons, List.append_assoc, uncomment_escape, ih, List.append_assoc]

/-- Inside quotes a comment cannot start, and the quotes of a literal close. -/
theorem closed_quote (value : Bytes) : Closed value.quote := by
  intro rest
  have hclose : uncomment true (quoteMark :: rest) = quoteMark :: uncomment false rest := by
    rw [Asm.uncomment.eq_def]
    rfl
  have hopen : ∀ t, uncomment false (quoteMark :: t) = quoteMark :: uncomment true t := by
    intro t
    rw [Asm.uncomment.eq_def]
    rfl
  rw [Bytes.quote, List.cons_append, List.cons_append, List.append_assoc]
  show uncomment false (quoteMark :: (value.flatMap escape ++ quoteMark :: rest)) = _
  rw [hopen, uncomment_escapes, hclose]
  simp [quoteMark]

/-- A line is read as `body`: it is that text after some spaces. -/
structure ReadsAs (text body : Bytes) : Prop where
  closed : Closed text
  line : newline ∉ text
  indented : ∃ n, text = List.replicate n space ++ body
  framed : Framed body

theorem instructions_append {raw : Bytes} (h : newline ∉ raw) (rest : Bytes) :
    instructions (raw ++ newline :: rest) =
      (match trimLine raw with
        | [] => []
        | l => [l]) ++ instructions rest := by
  have hsplit : split '\n'.toUInt8 (raw ++ newline :: rest) = raw :: split '\n'.toUInt8 rest :=
    split_append rest h
  rw [instructions, hsplit, List.filterMap_cons]
  cases trimLine raw <;> rfl

theorem instructions_line (comments : Bool) {text body comment : Bytes} (h : ReadsAs text body)
    (hcomment : newline ∉ comment) (rest : Bytes) :
    instructions (line comments text comment ++ rest) = body :: instructions rest := by
  obtain ⟨hclosed, hline, ⟨m, htext⟩, hframed⟩ := h
  obtain ⟨c, tail, hbody, -⟩ := hframed.first
  -- all that is left of a comment is spaces
  have hread : ∀ n, uncomment false (text ++ List.replicate n space) =
      text ++ List.replicate n space := by
    intro n
    refine (hclosed.append (closed_of_plain fun b hb => ?_)).uncomment
    rw [List.eq_of_mem_replicate hb]
    decide
  have hone : ∀ raw n, newline ∉ raw →
      uncomment false raw = text ++ List.replicate n space →
      instructions (raw ++ newline :: rest) = body :: instructions rest := by
    intro raw n hraw hun
    rw [instructions_append hraw, trimLine, hun, htext, hframed.trim, hbody]
    rfl
  have hend : ∀ raw, raw ++ txt "\n" ++ rest = raw ++ newline :: rest := by
    intro raw
    rw [List.append_assoc]
    rfl
  unfold line
  rw [hend]
  split_ifs with hwanted
  · refine hone _ (max 1 (commentColumn - text.length)) ?_ ?_
    · simp only [List.mem_append, not_or]
      refine ⟨⟨⟨hline, fun hmem => ?_⟩, by decide⟩, hcomment⟩
      cases List.eq_of_mem_replicate hmem
    · rw [List.append_assoc, List.append_assoc, ← List.append_assoc text]
      have hclosed' : Closed (text ++ List.replicate (max 1 (commentColumn - text.length)) space) :=
        hclosed.append (closed_of_plain fun b hb => by
          rw [List.eq_of_mem_replicate hb]
          decide)
      refine (hclosed' _).trans ?_
      have hhash : uncomment false (txt "# " ++ comment) = [] := by
        show uncomment false (hash :: space :: comment) = []
        rw [Asm.uncomment.eq_def]
        rfl
      rw [hhash, List.append_nil]
  · exact hone text 0 hline (by simpa using hclosed.uncomment)

/-! ### Statements -/

/-- Text that may stand between spaces and commas. -/
structure Piece (s : Bytes) : Prop where
  closed : Closed s
  line : newline ∉ s
  framed : Framed s

/-- The bytes of mnemonics, numbers, registers and labels. -/
def isOperandByte (b : UInt8) : Bool :=
  isVisible b && b != hash && b != quoteMark && b != ','.toUInt8 && b != ':'.toUInt8

/-- A mnemonic or an operand other than a string. -/
structure Operand (s : Bytes) : Prop where
  ne_nil : s ≠ []
  bytes : ∀ b ∈ s, isOperandByte b = true

instance (s : Bytes) : Decidable (Operand s) :=
  decidable_of_iff (s ≠ [] ∧ s.all isOperandByte = true)
    ⟨fun h => ⟨h.1, List.all_eq_true.1 h.2⟩, fun h => ⟨h.1, List.all_eq_true.2 h.2⟩⟩

namespace Operand

variable {s : Bytes}

theorem notMem (h : Operand s) {b : UInt8} (hb : isOperandByte b = false) : b ∉ s := fun hmem => by
  cases hb.symm.trans (h.bytes b hmem)

theorem framed (h : Operand s) : Framed s := by
  have hvisible : ∀ b ∈ s, isVisible b = true := fun b hb => by
    have hbyte := h.bytes b hb
    simp only [isOperandByte, Bool.and_eq_true] at hbyte
    exact hbyte.1.1.1.1
  obtain ⟨c, rest, rfl⟩ := List.exists_cons_of_ne_nil h.ne_nil
  refine ⟨⟨c, rest, rfl, hvisible c (List.mem_cons_self ..)⟩, _, _,
    (List.dropLast_append_getLast h.ne_nil).symm, hvisible _ (List.getLast_mem h.ne_nil)⟩

theorem piece (h : Operand s) : Piece s := by
  refine ⟨closed_of_plain fun b hb => ⟨?_, ?_⟩, h.notMem (by decide), h.framed⟩
  · rintro rfl
    exact h.notMem (by decide) hb
  · rintro rfl
    exact h.notMem (by decide) hb

theorem trim (h : Operand s) (n : Nat) : Bytes.trim (List.replicate n space ++ s) = s := by
  simpa using h.framed.trim n 0

end Operand

theorem join_cons_cons (sep o o' : Bytes) (os : List Bytes) :
    join sep (o :: o' :: os) = o ++ (sep ++ join sep (o' :: os)) := by
  simp [join, List.intercalate]

theorem join_singleton (sep o : Bytes) : join sep [o] = o := by
  simp [join, List.intercalate]

theorem piece_comma {s t : Bytes} (hs : Piece s) (ht : Piece t) :
    Piece (s ++ (txt ", " ++ t)) := by
  refine ⟨hs.closed.append (Closed.append (closed_of_all rfl) ht.closed), ?_, ?_, ?_⟩
  · simp only [List.mem_append, not_or]
    exact ⟨hs.line, by decide, ht.line⟩
  · obtain ⟨c, rest, rfl, hc⟩ := hs.framed.first
    exact ⟨c, _, rfl, hc⟩
  · obtain ⟨rest, c, rfl, hc⟩ := ht.framed.last
    exact ⟨s ++ (txt ", " ++ rest), c, by simp, hc⟩

theorem piece_join : ∀ {os : List Bytes}, os ≠ [] → (∀ o ∈ os, Piece o) →
    Piece (join (txt ", ") os)
  | [o], _, h => by
    rw [join_singleton]
    exact h o (List.mem_singleton_self o)
  | o :: o' :: os, _, h => by
    rw [join_cons_cons]
    exact piece_comma (h o (List.mem_cons_self ..))
      (piece_join (List.cons_ne_nil o' os) fun x hx => h x (List.mem_cons_of_mem _ hx))

/-- A mnemonic with its operands, as it is read. -/
def body (mnemonic : Bytes) : List Bytes → Bytes
  | [] => mnemonic
  | o :: os => mnemonic ++ space :: join (txt ", ") (o :: os)

theorem statement_eq (m : Bytes) {os : List Bytes} (h : ∀ o ∈ os, Piece o) :
    statement m os = List.replicate 2 space ++ body m os := by
  cases os with
  | nil => rfl
  | cons o os =>
    obtain ⟨c, rest, heq, -⟩ := (piece_join (List.cons_ne_nil o os) h).framed.first
    rw [statement, body, heq]
    simp [txt, space, List.replicate]

theorem readsAs_statement {m : Bytes} {os : List Bytes} (hm : Operand m)
    (h : ∀ o ∈ os, Piece o) : ReadsAs (statement m os) (body m os) := by
  have hpiece : Piece (body m os) := by
    cases os with
    | nil => exact hm.piece
    | cons o os =>
      have hjoin := piece_join (List.cons_ne_nil o os) h
      refine ⟨hm.piece.closed.append (Closed.append (s := [space]) (closed_of_all rfl) hjoin.closed),
        ?_, ?_, ?_⟩
      · simp only [body, List.mem_append, List.mem_cons, not_or]
        exact ⟨hm.piece.line, by decide, hjoin.line⟩
      · obtain ⟨c, rest, rfl, hc⟩ := hm.framed.first
        exact ⟨c, _, rfl, hc⟩
      · obtain ⟨rest, c, heq, hc⟩ := hjoin.framed.last
        exact ⟨m ++ space :: rest, c, by simp [body, heq], hc⟩
  rw [statement_eq m h]
  refine ⟨Closed.append (closed_of_all rfl) hpiece.closed, ?_, ⟨2, rfl⟩, hpiece.framed⟩
  rw [List.mem_append, not_or]
  exact ⟨by decide, hpiece.line⟩

/-! ### What a line mentions -/

namespace Check

/-- What a mnemonic with its operands mentions. -/
def classify (mnemonic : Bytes) (args : List Bytes) : Mention :=
  if mnemonic = txt ".word" then
    match args with
    | [arg] => if isWord arg then .nothing else .refers arg
    | _ => .wrong .wordOperands
  else if mnemonic = txt "lw" || mnemonic = txt "sw" then
    match args with
    | _ :: arg :: _ => if arg.contains '('.toUInt8 then .nothing else .refers arg
    | _ => .nothing
  else
    match labelOperands.lookup mnemonic with
    | none => .nothing
    | some i =>
      match args[i]? with
      | none => .wrong (.noLabel mnemonic)
      | some arg => .refers arg

theorem mention_eq {line : Bytes} (h : line.getLast? ≠ some ':'.toUInt8) :
    mention line = classify ((line.cut? ' '.toUInt8).getD (line, [])).1
      (operands ((line.cut? ' '.toUInt8).getD (line, [])).2) := by
  rw [mention, if_neg h]
  rfl

theorem split_space {s : Bytes} : ∀ {t : Bytes} {ts : List Bytes},
    split ','.toUInt8 s = t :: ts → split ','.toUInt8 (space :: s) = (space :: t) :: ts := by
  intro t ts h
  rw [split, if_neg (by decide), h]

theorem split_join {o : Bytes} : ∀ {os : List Bytes}, (∀ x ∈ o :: os, Operand x) →
    split ','.toUInt8 (join (txt ", ") (o :: os)) = o :: os.map (space :: ·) := by
  intro os
  induction os generalizing o with
  | nil =>
    intro h
    rw [join_singleton]
    exact split_of_notMem ((h o (List.mem_singleton_self o)).notMem (by decide))
  | cons o' os ih =>
    intro h
    obtain ⟨ho, hos⟩ := List.forall_mem_cons.1 h
    rw [join_cons_cons]
    show split ','.toUInt8 (o ++ ','.toUInt8 :: space :: join (txt ", ") (o' :: os)) = _
    rw [split_append _ (ho.notMem (by decide)), split_space (ih hos)]
    rfl

/-- The operands of a statement are read back. -/
theorem operands_join {o : Bytes} {os : List Bytes} (h : ∀ x ∈ o :: os, Operand x) :
    operands (join (txt ", ") (o :: os)) = o :: os := by
  have hpiece := piece_join (List.cons_ne_nil o os) fun x hx => (h x hx).piece
  have htrim : (join (txt ", ") (o :: os)).trim = join (txt ", ") (o :: os) := by
    simpa using hpiece.framed.trim 0 0
  obtain ⟨c, rest, hc, -⟩ := hpiece.framed.first
  have hne : (join (txt ", ") (o :: os)).trim.isEmpty = false := by rw [htrim, hc]; rfl
  obtain ⟨ho, hos⟩ := List.forall_mem_cons.1 h
  rw [operands, hne, if_neg (by decide), split_join h, List.map_cons, List.map_map]
  congr 1
  · exact ho.trim 0
  · refine (List.map_congr_left fun x hx => ?_).trans (List.map_id os)
    exact (hos x hx).trim 1

theorem getLast?_ne_colon {s t : Bytes} (ht : Operand t) : (s ++ t).getLast? ≠ some ':'.toUInt8 := by
  rw [List.getLast?_append_of_ne_nil _ ht.ne_nil]
  intro hlast
  exact ht.notMem (by decide) (List.mem_of_getLast? hlast)

theorem join_last {o : Bytes} {os : List Bytes} (h : ∀ x ∈ o :: os, Operand x) :
    ∃ s t, join (txt ", ") (o :: os) = s ++ t ∧ Operand t := by
  induction os generalizing o with
  | nil => exact ⟨[], o, by rw [join_singleton]; rfl, h o (List.mem_singleton_self o)⟩
  | cons o' os ih =>
    obtain ⟨s, t, heq, ht⟩ := ih (List.forall_mem_cons.1 h).2
    exact ⟨o ++ (txt ", " ++ s), t, by rw [join_cons_cons, heq]; simp, ht⟩

theorem mention_body {m : Bytes} (hm : Operand m) {os : List Bytes} (h : ∀ o ∈ os, Operand o) :
    mention (body m os) = classify m os := by
  cases os with
  | nil =>
    have hcolon : m.getLast? ≠ some ':'.toUInt8 := getLast?_ne_colon (s := []) hm
    rw [body, mention_eq hcolon, cut?_of_notMem (hm.notMem (by decide))]
    rfl
  | cons o os =>
    obtain ⟨s, t, heq, ht⟩ := join_last h
    have hcolon : (body m (o :: os)).getLast? ≠ some ':'.toUInt8 := by
      rw [body, heq, show m ++ space :: (s ++ t) = (m ++ space :: s) ++ t by simp]
      exact getLast?_ne_colon ht
    have hcut : (body m (o :: os)).cut? ' '.toUInt8 = some (m, join (txt ", ") (o :: os)) :=
      cut?_append _ (hm.notMem (by decide))
    rw [mention_eq hcolon, hcut, Option.getD_some, operands_join h]

end Check

end Asm

end ChocoRv
