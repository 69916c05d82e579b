import ChocoRv.Asm.Listing
import ChocoRv.Proofs.FreshLabels
import ChocoRv.Proofs.Lines

/-!
# Reading listings

The text of a list of items, with or without comments, is read line by line. What the reader finds
in it is what the items say: `definedIn` and `referredIn` are the labels that the items define and
refer to, so a text passes the check of its labels if these are in order.
-/

namespace ChocoRv

namespace Asm

open Byte Bytes

/-! ### Items -/

theorem Operand.append {s t : Bytes} (hs : Operand s) (ht : Operand t) : Operand (s ++ t) :=
  ⟨by simp [hs.ne_nil], List.forall_mem_append.2 ⟨hs.bytes, ht.bytes⟩⟩

theorem isOperandByte_of_isPart :
    ∀ {b : UInt8}, Label.isPart b = true → isOperandByte b = true ∧ b ≠ '('.toUInt8 := by
  decide +kernel

theorem isPart_of_isDigit {b : UInt8} (h : isDigit b = true) : Label.isPart b = true := by
  simp [Label.isPart, h]

theorem isPart_of_wellFormed {l : Label} (h : Label.wellFormed l = true) :
    ∀ b ∈ l, Label.isPart b = true := by
  cases l with
  | nil => cases h
  | cons c cs =>
    simp only [Label.wellFormed, Bool.and_eq_true, List.all_eq_true] at h
    exact List.forall_mem_cons.2 ⟨by simp [Label.isPart, h.1], h.2⟩

theorem operand_decimal (n : Nat) : Operand (decimal n) :=
  ⟨by simp [decimal, Nat.toDigits_ne_nil],
    fun _ hb => (isOperandByte_of_isPart (isPart_of_isDigit (isDigit_of_mem_decimal hb))).1⟩

theorem operand_signed (n : Int) : Operand (signed n) := by
  cases n with
  | ofNat k => exact operand_decimal k
  | negSucc k => exact Operand.append (s := ['-'.toUInt8]) (by decide) (operand_decimal _)

theorem operand_reg {r : Reg} (h : r ∈ Reg.named) : Operand r.text := by
  revert r
  decide +kernel

theorem operand_label {l : Label} (h : Label.wellFormed l = true) : Operand l :=
  ⟨by rintro rfl; exact absurd h (by decide),
    fun b hb => (isOperandByte_of_isPart (isPart_of_wellFormed h b hb)).1⟩

/-- A label is no memory operand. -/
theorem label_contains {l : Label} (h : Label.wellFormed l = true) :
    l.contains '('.toUInt8 = false := by
  rw [Bool.eq_false_iff, ne_eq, List.contains_iff_mem]
  exact fun hmem => (isOperandByte_of_isPart (isPart_of_wellFormed h _ hmem)).2 rfl

/-- A label is no number. -/
theorem isWord_label {l : Label} (h : Label.wellFormed l = true) : Check.isWord l = false := by
  have hstart : ∀ b : UInt8, Label.isStart b = true →
      b ≠ '-'.toUInt8 ∧ b ≠ '+'.toUInt8 ∧ isDigit b = false := by decide +kernel
  cases l with
  | nil => rfl
  | cons c cs =>
    simp only [Label.wellFormed, Bool.and_eq_true] at h
    obtain ⟨hminus, hplus, hdigit⟩ := hstart c h.1
    simp [Check.isWord, hminus, hplus, hdigit]

namespace Instr

def regs : Instr → List Reg
  | op _ rd rs₁ rs₂ => [rd, rs₁, rs₂]
  | opImm _ rd rs _ | move _ rd rs => [rd, rs]
  | li rd _ | la rd _ | loadLabel rd _ => [rd]
  | load _ r base _ | store _ r base _ => [r, base]
  | storeLabel rs _ tmp => [rs, tmp]
  | branch _ rs₁ rs₂ _ => [rs₁, rs₂]
  | branchZero _ rs _ | jalr rs | jr rs => [rs]
  | j _ | jal _ | ecall => []

theorem operand_mnemonic (i : Instr) : Operand i.mnemonic := by
  cases i with
  | op o | opImm o | move o | load o | store o | branch o | branchZero o =>
    cases o <;> exact of_decide_eq_true rfl
  | _ => exact of_decide_eq_true rfl

theorem operand_address {base : Reg} (h : base ∈ Reg.named) (offset : Int) :
    Operand (address base offset) :=
  (((operand_signed offset).append (by decide)).append (operand_reg h)).append (by decide)

theorem operand_operands (i : Instr) (hregs : ∀ r ∈ i.regs, r ∈ Reg.named)
    (hlabel : ∀ l, i.label? = some l → Label.wellFormed l = true) :
    ∀ o ∈ i.operands, Operand o := by
  cases i <;>
    simp only [regs, label?, operands, List.forall_mem_cons, List.not_mem_nil, false_imp_iff,
      implies_true, and_true, Option.some.injEq, forall_eq', reduceCtorEq] at hregs hlabel ⊢ <;>
    simp only [operand_reg, operand_signed, operand_address, operand_label, hregs, hlabel, and_self]

end Instr

namespace Check

/-- An instruction mentions the label that it refers to. -/
theorem classify_instr (i : Instr) (hlabel : ∀ l, i.label? = some l → Label.wellFormed l = true) :
    classify i.mnemonic i.operands = i.label?.elim .nothing .refers := by
  cases i with
  | op o | opImm o | move o | branch o | branchZero o => cases o <;> rfl
  | load o rd base offset =>
    cases o with
    | lw =>
      have hcontains : (Instr.address base offset).contains '('.toUInt8 = true := by
        simp [Instr.address, txt]
      exact if_pos hcontains
    | lbu => rfl
  | store o rs base offset =>
    cases o with
    | sw =>
      have hcontains : (Instr.address base offset).contains '('.toUInt8 = true := by
        simp [Instr.address, txt]
      exact if_pos hcontains
    | sb => rfl
  | loadLabel rd l | storeLabel rs l tmp =>
    show (if l.contains '('.toUInt8 then Mention.nothing else Mention.refers l) = _
    rw [label_contains (hlabel l rfl)]
    rfl
  | li | la | j | jal | jalr | jr | ecall => rfl

end Check

namespace Item

/-- The registers of an item have names, its numbers fit in a word, and its comment stays on the
line. -/
def Printable : Item → Prop
  | instr i c => (∀ r ∈ i.regs, r ∈ Reg.named) ∧ newline ∉ c
  | word value c => (-2147483648 ≤ value ∧ value ≤ 2147483647) ∧ newline ∉ c
  | label _ c | wordAddress _ c | string _ c | remark c => newline ∉ c
  | globalLabel _ | section_ _ | align _ => True

/-- The lines of an item as they are read. -/
def bodies : Item → List Bytes
  | instr i _ => [body i.mnemonic i.operands]
  | label l _ => [l ++ txt ":"]
  | globalLabel l => [body (txt ".globl") [l], l ++ txt ":"]
  | section_ .text => [txt ".text"]
  | section_ .data => [txt ".data"]
  | align power => [body (txt ".align") [signed power]]
  | word value _ => [body (txt ".word") [signed value]]
  | wordAddress l _ => [body (txt ".word") [l]]
  | string value _ => [body (txt ".string") [value.quote]]
  | remark _ => []

/-- The labels that an item defines or refers to are well formed. -/
def LabelsWellFormed (i : Item) : Prop :=
  (∀ l, i.defines? = some l → Label.wellFormed l = true) ∧
    ∀ l, i.refers? = some l → Label.wellFormed l = true

theorem readsAs_of_operand {s : Bytes} (h : Operand s) : ReadsAs s s :=
  ⟨h.piece.closed, h.piece.line, ⟨0, rfl⟩, h.framed⟩

theorem readsAs_globl {l : Label} (h : Operand l) :
    ReadsAs (txt ".globl " ++ l) (body (txt ".globl") [l]) := by
  have hjoin : txt ".globl " ++ l = body (txt ".globl") [l] := by
    simp [body, join_singleton, txt, space]
  rw [← hjoin]
  refine ⟨Closed.append (closed_of_all rfl) h.piece.closed, ?_, ⟨0, rfl⟩, ?_, ?_⟩
  · rw [List.mem_append, not_or]
    exact ⟨by decide, h.piece.line⟩
  · exact ⟨_, _, rfl, by decide⟩
  · obtain ⟨rest, c, rfl, hc⟩ := h.framed.last
    exact ⟨txt ".globl " ++ rest, c, by simp, hc⟩

theorem readsAs_colon {l : Label} (h : Operand l) : ReadsAs (l ++ txt ":") (l ++ txt ":") := by
  refine ⟨h.piece.closed.append (closed_of_all rfl), ?_, ⟨0, rfl⟩, ?_, l,
    ':'.toUInt8, rfl, by decide⟩
  · rw [List.mem_append, not_or]
    exact ⟨h.piece.line, by decide⟩
  · obtain ⟨c, rest, rfl, hc⟩ := h.framed.first
    exact ⟨c, _, rfl, hc⟩

theorem newline_notMem_quote (value : Bytes) : newline ∉ value.quote := by
  have hescape : ∀ b : UInt8, newline ∉ escape b := fun b => by
    unfold escape
    split_ifs with hquote hslash hline
    · decide
    · decide
    · decide
    · decide
    · simpa [newline] using Ne.symm hline
  simp only [Bytes.quote, List.cons_append, List.mem_cons, List.mem_append, List.mem_flatMap,
    List.not_mem_nil, or_false, not_or, not_exists, not_and]
  exact ⟨by decide, fun b _ => hescape b, by decide⟩

theorem piece_quote (value : Bytes) : Piece value.quote :=
  ⟨closed_quote value, newline_notMem_quote value, ⟨_, _, rfl, by decide⟩, _, _, rfl, by decide⟩

theorem instructions_statement (comments : Bool) {m comment : Bytes} {os : List Bytes}
    (hm : Operand m) (hos : ∀ o ∈ os, Piece o) (hcomment : newline ∉ comment) (rest : Bytes) :
    instructions (line comments (statement m os) comment ++ rest) =
      body m os :: instructions rest :=
  instructions_line comments (readsAs_statement hm hos) hcomment rest

/-- The lines of an item are read one by one. -/
theorem instructions_render (comments : Bool) {i : Item} (h : i.Printable)
    (hlabels : i.LabelsWellFormed) (rest : Bytes) :
    instructions (i.render comments ++ rest) = i.bodies ++ instructions rest := by
  have hnil : newline ∉ ([] : Bytes) := List.not_mem_nil
  have hone : ∀ {o : Bytes}, Operand o → ∀ x ∈ [o], Piece x := fun ho =>
    List.forall_mem_singleton.2 ho.piece
  cases i with
  | instr i c =>
    have hos := i.operand_operands h.1 hlabels.2
    exact instructions_statement comments i.operand_mnemonic (fun o ho => (hos o ho).piece) h.2 rest
  | label l c =>
    exact instructions_line comments (readsAs_colon (operand_label (hlabels.1 l rfl))) h rest
  | globalLabel l =>
    have hl := operand_label (hlabels.1 l rfl)
    rw [render, List.append_assoc, instructions_line comments (readsAs_globl hl) hnil,
      instructions_line comments (readsAs_colon hl) hnil]
    rfl
  | section_ s =>
    cases s with
    | text => exact instructions_line comments (readsAs_of_operand (by decide)) hnil rest
    | data => exact instructions_line comments (readsAs_of_operand (by decide)) hnil rest
  | align power =>
    exact instructions_statement comments (by decide) (hone (operand_signed power)) hnil rest
  | word value c =>
    exact instructions_statement comments (by decide) (hone (operand_signed value)) h.2 rest
  | wordAddress l c =>
    exact instructions_statement comments (by decide) (hone (operand_label (hlabels.2 l rfl))) h rest
  | string value c =>
    exact instructions_statement comments (by decide)
      (List.forall_mem_singleton.2 (piece_quote value)) h rest
  | remark c =>
    cases comments with
    | false => rfl
    | true =>
      have hline : newline ∉ txt "  # " ++ c := by
        rw [List.mem_append, not_or]
        exact ⟨by decide, h⟩
      have htrim : trimLine (txt "  # " ++ c) = [] := by
        have hplain : Closed (txt "  ") := closed_of_all rfl
        have hun : uncomment false (txt "  # " ++ c) = txt "  " := by
          show uncomment false (txt "  " ++ (txt "# " ++ c)) = txt "  "
          rw [hplain, show uncomment false (txt "# " ++ c) = [] by
            show uncomment false (hash :: space :: c) = []
            rw [Asm.uncomment.eq_def]
            rfl]
          rfl
        rw [trimLine, hun]
        exact trim_spaces 2
      have hlines := instructions_append hline rest
      rw [htrim] at hlines
      rw [render, if_pos rfl, line, if_neg (by simp), List.append_assoc]
      exact hlines

/-- What the lines of an item mention. -/
def mentions : Item → List Check.Mention
  | instr i _ => [i.label?.elim .nothing .refers]
  | label l _ => [.defines l]
  | globalLabel l => [.nothing, .defines l]
  | wordAddress l _ => [.refers l]
  | section_ _ | align _ | word _ _ | string _ _ => [.nothing]
  | remark _ => []

theorem isWord_signed {n : Int} (h : -2147483648 ≤ n ∧ n ≤ 2147483647) :
    Check.isWord (signed n) = true := by
  have hdigits : ∀ k, (decimal k).all isDigit = true := fun k =>
    List.all_eq_true.2 fun b hb => isDigit_of_mem_decimal hb
  have hne : ∀ k, (decimal k).isEmpty = false := fun k => by
    simp [decimal, Nat.toDigits_ne_nil]
  cases n with
  | ofNat k =>
    have hsign : ∀ b : UInt8, isDigit b = true → b ≠ '-'.toUInt8 ∧ b ≠ '+'.toUInt8 := fun b hb =>
      ⟨by rintro rfl; exact absurd hb (by decide), by rintro rfl; exact absurd hb (by decide)⟩
    obtain ⟨c, cs, hcs⟩ := List.exists_cons_of_ne_nil (operand_decimal k).ne_nil
    obtain ⟨hminus, hplus⟩ := hsign c (isDigit_of_mem_decimal (n := k) (by simp [hcs]))
    have hvalue := value_decimal k
    have hall := hdigits k
    have hle : k ≤ 2147483647 := by
      have := h.2
      simp only [Int.ofNat_eq_natCast] at this
      omega
    rw [hcs] at hvalue hall
    simp only [Check.isWord, signed, hcs, hminus, hplus, if_false, List.isEmpty_cons, Bool.not_false,
      hall, Bool.true_and, hvalue, Bool.false_eq_true, decide_eq_true_eq]
    exact hle
  | negSucc k =>
    have hle : k + 1 ≤ 2147483648 := by
      have := h.1
      omega
    simp only [Check.isWord, signed, if_true, hne, Bool.not_false, hdigits, Bool.true_and,
      value_decimal, decide_eq_true_eq]
    exact hle

theorem mention_colon (l : Label) : Check.mention (l ++ txt ":") = .defines l := by
  have hlast : (l ++ txt ":").getLast? = some ':'.toUInt8 := by simp [txt]
  rw [Check.mention, if_pos hlast]
  simp [txt]

theorem map_mention {i : Item} (h : i.Printable) (hlabels : i.LabelsWellFormed) :
    i.bodies.map Check.mention = i.mentions := by
  have hone : ∀ {o : Bytes}, Operand o → ∀ x ∈ [o], Operand x := fun ho =>
    List.forall_mem_singleton.2 ho
  cases i with
  | instr i c =>
    have hos := i.operand_operands h.1 hlabels.2
    simp only [bodies, List.map_singleton, mentions, Check.mention_body i.operand_mnemonic hos,
      Check.classify_instr i hlabels.2]
  | label l c => simp only [bodies, List.map_singleton, mentions, mention_colon]
  | globalLabel l =>
    have hl := operand_label (hlabels.1 l rfl)
    simp only [bodies, List.map_cons, List.map_nil, mentions, mention_colon,
      Check.mention_body (show Operand (txt ".globl") by decide) (hone hl)]
    rfl
  | section_ s => cases s <;> rfl
  | align power =>
    simp only [bodies, List.map_singleton, mentions,
      Check.mention_body (show Operand (txt ".align") by decide) (hone (operand_signed power))]
    rfl
  | word value c =>
    simp only [bodies, List.map_singleton, mentions,
      Check.mention_body (show Operand (txt ".word") by decide) (hone (operand_signed value))]
    show [if Check.isWord (signed value) then Check.Mention.nothing else _] = _
    rw [isWord_signed h.1]
    rfl
  | wordAddress l c =>
    simp only [bodies, List.map_singleton, mentions,
      Check.mention_body (show Operand (txt ".word") by decide)
        (hone (operand_label (hlabels.2 l rfl)))]
    show [if Check.isWord l then Check.Mention.nothing else .refers l] = _
    rw [isWord_label (hlabels.2 l rfl)]
    rfl
  | string value c =>
    have hlast : (body (txt ".string") [value.quote]).getLast? ≠ some ':'.toUInt8 := by
      rw [body, join_singleton, Bytes.quote, ← List.cons_append, ← List.append_assoc,
        List.getLast?_append_of_ne_nil _ (by simp)]
      decide
    have hcut : (body (txt ".string") [value.quote]).cut? ' '.toUInt8 =
        some (txt ".string", join (txt ", ") [value.quote]) := cut?_append _ (by decide)
    simp only [bodies, List.map_singleton, mentions, Check.mention_eq hlast, hcut,
      Option.getD_some]
    rfl
  | remark c => rfl

end Item

/-! ### The labels of a text -/

namespace Check.Mention

def defined? : Mention → Option Label
  | defines l => some l
  | _ => none

def referred? : Mention → Option Label
  | refers l => some l
  | _ => none

end Check.Mention

/-- What the lines of a text mention. -/
def mentions (text : Bytes) : List Check.Mention := (instructions text).map Check.mention

/-- The labels that the lines of a text define. -/
def definedIn (text : Bytes) : List Label := (mentions text).filterMap Check.Mention.defined?

/-- The labels that the lines of a text refer to. -/
def referredIn (text : Bytes) : List Label := (mentions text).filterMap Check.Mention.referred?

/-- The labels that the items refer to. -/
def referred (items : List Item) : List Label := items.filterMap Item.refers?

@[simp] theorem referred_nil : referred [] = [] := rfl

@[simp] theorem referred_append (items more : List Item) :
    referred (items ++ more) = referred items ++ referred more :=
  List.filterMap_append

section
variable {items : List Item} (h : ∀ i ∈ items, i.Printable) (hlabels : ∀ i ∈ items, i.LabelsWellFormed)
include h hlabels

/-- A text is read as what its items mention, with comments or without. -/
theorem mentions_render (comments : Bool) :
    mentions (render comments items) = items.flatMap Item.mentions := by
  induction items with
  | nil => rfl
  | cons i items ih =>
    obtain ⟨hi, hitems⟩ := List.forall_mem_cons.1 h
    obtain ⟨hl, hls⟩ := List.forall_mem_cons.1 hlabels
    have hrest : mentions (render comments items) = _ := ih hitems hls
    rw [mentions, render, List.flatMap_cons, Item.instructions_render comments hi hl,
      List.map_append, Item.map_mention hi hl, List.flatMap_cons]
    exact congrArg _ hrest

theorem definedIn_render (comments : Bool) :
    definedIn (render comments items) = defined items := by
  have hitem : ∀ i : Item, i.mentions.filterMap Check.Mention.defined? = i.defines?.toList := by
    intro i
    cases i with
    | instr i c => cases hl : i.label? <;> simp [Item.mentions, hl, Check.Mention.defined?,
        Item.defines?]
    | _ => rfl
  rw [definedIn, mentions_render h hlabels, List.filterMap_flatMap]
  simp only [hitem, defined, List.filterMap_eq_flatMap_toList]

theorem referredIn_render (comments : Bool) :
    referredIn (render comments items) = referred items := by
  have hitem : ∀ i : Item, i.mentions.filterMap Check.Mention.referred? = i.refers?.toList := by
    intro i
    cases i with
    | instr i c => cases hl : i.label? <;> simp [Item.mentions, hl, Check.Mention.referred?,
        Item.refers?]
    | _ => rfl
  rw [referredIn, mentions_render h hlabels, List.filterMap_flatMap]
  simp only [hitem, referred, List.filterMap_eq_flatMap_toList]

end

/-! ### Passing the check -/

/-- The lines that hold more than comments and white space. -/
def readLines (lines : List Bytes) : List Bytes :=
  lines.filterMap fun line =>
    match trimLine line with
    | [] => none
    | l => some l

theorem readLines_cons (line : Bytes) (lines : List Bytes) :
    readLines (line :: lines) =
      (match trimLine line with
        | [] => []
        | l => [l]) ++ readLines lines := by
  rw [readLines, List.filterMap_cons]
  cases trimLine line <;> rfl

namespace Check

/-- A mention that is no error and whose label is well formed. -/
def Mention.Formed : Mention → Prop
  | nothing => True
  | wrong _ => False
  | defines l | refers l => Label.wellFormed l = true

theorem add_ok {n : Nat} {labels : Labels} {m : Mention} (h : m.Formed)
    (hnew : ∀ l, m.defined? = some l → l ∉ labels.defined) :
    ∃ labels', add n labels m = .ok labels' ∧
      labels'.defined = m.defined?.toList ++ labels.defined ∧
      ∀ u ∈ labels'.uses, m.referred? = some u.1 ∨ u ∈ labels.uses := by
  cases m with
  | nothing => exact ⟨labels, rfl, rfl, fun u hu => .inr hu⟩
  | wrong c => exact absurd h id
  | defines l =>
    have hformed : Label.wellFormed l = true := h
    refine ⟨{ labels with defined := l :: labels.defined }, ?_, rfl, fun u hu => .inr hu⟩
    simp [add, hformed, hnew l rfl]
  | refers l =>
    have hformed : Label.wellFormed l = true := h
    refine ⟨{ labels with uses := (l, n) :: labels.uses }, by simp [add, hformed], rfl,
      fun u hu => ?_⟩
    rcases List.mem_cons.1 hu with rfl | hu
    · exact .inl rfl
    · exact .inr hu

theorem filterMap_cons_toList {α β : Type} (f : α → Option β) (a : α) (as : List α) :
    (a :: as).filterMap f = (f a).toList ++ as.filterMap f := by
  rw [List.filterMap_cons]
  cases f a <;> rfl

/-- Mentions whose labels are in order after the labels. -/
structure InOrder (labels : Labels) (ms : List Mention) : Prop where
  formed : ∀ m ∈ ms, m.Formed
  nodup : (ms.filterMap Mention.defined? ++ labels.defined).Nodup

theorem InOrder.notMem {labels : Labels} {m : Mention} {ms : List Mention}
    (h : InOrder labels (m :: ms)) {l : Label} (hl : m.defined? = some l) : l ∉ labels.defined := by
  have hnodup := h.nodup
  rw [filterMap_cons_toList, hl, List.append_assoc] at hnodup
  exact fun hmem => (List.nodup_cons.1 hnodup).1 (List.mem_append_right (ms.filterMap _) hmem)

theorem InOrder.tail {labels labels' : Labels} {m : Mention} {ms : List Mention}
    (h : InOrder labels (m :: ms)) (hdefined : labels'.defined = m.defined?.toList ++ labels.defined) :
    InOrder labels' ms := by
  refine ⟨(List.forall_mem_cons.1 h.formed).2, ?_⟩
  have hnodup := h.nodup
  rw [filterMap_cons_toList, List.append_assoc] at hnodup
  rw [hdefined]
  exact List.perm_append_comm_assoc _ _ _ |>.nodup_iff.1 hnodup

/-- Lines whose labels are in order are collected: the definitions with those before, and no other
uses than theirs. -/
theorem collect_ok : ∀ {lines : List Bytes} {n : Nat} {labels : Labels},
    InOrder labels ((readLines lines).map mention) →
    ∃ labels', collect n labels lines = .ok labels' ∧
      (∀ l ∈ ((readLines lines).map mention).filterMap Mention.defined? ++ labels.defined,
        l ∈ labels'.defined) ∧
      ∀ u ∈ labels'.uses,
        u.1 ∈ ((readLines lines).map mention).filterMap Mention.referred? ∨ u ∈ labels.uses
  | [], n, labels, _ => ⟨labels, rfl, fun l hl => hl, fun u hu => .inr hu⟩
  | line :: lines, n, labels, h => by
    rw [readLines_cons] at h ⊢
    rw [collect]
    cases htrim : trimLine line with
    | nil =>
      simp only [htrim, List.nil_append] at h ⊢
      exact collect_ok h
    | cons b bs =>
      simp only [htrim, List.singleton_append, List.map_cons, filterMap_cons_toList] at h ⊢
      obtain ⟨labels₁, hadd, hdefined, huses⟩ := add_ok (n := n)
        (h.formed _ (List.mem_cons_self ..)) fun l => h.notMem
      obtain ⟨labels₂, hcollect, hdefined', huses'⟩ := collect_ok (n := n + 1) (h.tail hdefined)
      refine ⟨labels₂, by rw [hadd]; exact hcollect, fun l hl => hdefined' l ?_, fun u hu => ?_⟩
      · rw [hdefined]
        simp only [List.mem_append] at hl ⊢
        tauto
      · rcases huses' u hu with hms | hold
        · exact .inl (List.mem_append_right _ hms)
        · exact (huses u hold).imp (fun hm => List.mem_append_left _ (by simp [hm])) id

end Check

/-- A text passes the check if its lines are well formed, no label is defined twice and every label
that is referred to is defined or known from elsewhere. -/
theorem check_ok {text : Bytes} {external : List Label}
    (h : Check.InOrder {} (mentions text))
    (hknown : ∀ l ∈ referredIn text, l ∈ definedIn text ∨ l ∈ external) :
    check text external = .ok () := by
  obtain ⟨labels, hcollect, hdefined, huses⟩ :=
    Check.collect_ok (n := 1) (show Check.InOrder {}
      ((readLines (text.split '\n'.toUInt8)).map Check.mention) from h)
  have hfind : labels.uses.reverse.find? (fun use =>
      !(labels.defined.contains use.1 || external.contains use.1)) = none := by
    rw [List.find?_eq_none]
    rintro ⟨l, n⟩ hu
    rcases huses _ (List.mem_reverse.1 hu) with hl | hold
    · have hor := (hknown l hl).imp (fun hd => hdefined l (List.mem_append_left _ hd)) id
      simpa [Classical.or_iff_not_imp_left] using hor
    · cases hold
  simp only [check, hcollect, bind, Except.bind]
  split
  · rfl
  · next hsome => cases hsome.symm.trans hfind

theorem Item.mention_formed {i : Item} (h : i.LabelsWellFormed) : ∀ m ∈ i.mentions, m.Formed := by
  cases i with
  | instr i c =>
    rw [mentions, List.forall_mem_singleton]
    cases hl : i.label? with
    | none => trivial
    | some l => exact h.2 l hl
  | label l c => exact List.forall_mem_singleton.2 (h.1 l rfl)
  | globalLabel l => exact List.forall_mem_cons.2 ⟨trivial, List.forall_mem_singleton.2 (h.1 l rfl)⟩
  | wordAddress l c => exact List.forall_mem_singleton.2 (h.2 l rfl)
  | section_ | align | word | string => exact List.forall_mem_singleton.2 trivial
  | remark => exact List.forall_mem_nil _

theorem inOrder_render (comments : Bool) {items : List Item} (h : ∀ i ∈ items, i.Printable)
    (hlabels : ∀ i ∈ items, i.LabelsWellFormed) (hnodup : (defined items).Nodup) :
    Check.InOrder {} (mentions (render comments items)) := by
  rw [mentions_render h hlabels]
  refine ⟨fun m hm => ?_, ?_⟩
  · obtain ⟨i, hi, hm⟩ := List.mem_flatMap.1 hm
    exact Item.mention_formed (hlabels i hi) m hm
  · have hdefined := definedIn_render h hlabels comments
    rw [definedIn, mentions_render h hlabels] at hdefined
    rw [hdefined, List.append_nil]
    exact hnodup

/-- A listing whose items are in order is finished. -/
theorem finish_ok (comments : Bool) {items : List Item} {external : List Label}
    (h : ∀ i ∈ items, i.Printable) (hlabels : ∀ i ∈ items, i.LabelsWellFormed)
    (hnodup : (defined items).Nodup)
    (hknown : ∀ l ∈ referred items, l ∈ defined items ∨ l ∈ external) :
    Listing.finish { comments, items, external } = .ok (render comments items) := by
  have hcheck : check (render comments items) external = .ok () := by
    refine check_ok (inOrder_render comments h hlabels hnodup) ?_
    rwa [referredIn_render h hlabels, definedIn_render h hlabels]
  show (check (render comments items) external >>= fun _ => pure (render comments items)) = _
  rw [hcheck]
  rfl

end Asm

end ChocoRv
