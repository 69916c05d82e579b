import ChocoRv.Proofs.FreshLabels
import ChocoRv.Proofs.Machine
import Mathlib.Algebra.Group.Nat.Defs

/-!
# Assembled data

A segment is a list of data items at an address. A word takes four bytes, the lowest first, a string
its bytes and a NUL, and an alignment as many bytes as bring the offset to a multiple of its power
of two; a label is the address of what follows it. The data of an object are the items from its
label to the next alignment or label.
-/

namespace ChocoRv.Asm

open Rv32

/-! ### Words as bytes -/

/-- The bytes of a word, the lowest first. -/
def littleEndian (w : Word) : Bytes :=
  [⟨w.extractLsb' 0 8⟩, ⟨w.extractLsb' 8 8⟩, ⟨w.extractLsb' 16 8⟩, ⟨w.extractLsb' 24 8⟩]

/-- The word that some bytes begin with. -/
def wordOf : Bytes → Option Word
  | b₀ :: b₁ :: b₂ :: b₃ :: _ =>
    some (b₃.toBitVec ++ b₂.toBitVec ++ b₁.toBitVec ++ b₀.toBitVec)
  | _ => none

theorem wordOf_littleEndian (w : Word) (rest : Bytes) :
    wordOf (littleEndian w ++ rest) = some w := by
  exact congrArg some (append_extractLsb' w)

theorem ofInt_int32 (n : Int) : BitVec.ofInt 32 (int32 n) = BitVec.ofInt 32 n := by
  apply BitVec.eq_of_toInt_eq
  rw [BitVec.toInt_ofInt, BitVec.toInt_ofInt, int32]
  exact Int.bmod_bmod

/-! ### Items -/

namespace Item

/-- Whether the item stands in data. -/
def isData : Item → Bool
  | align _ | globalLabel _ | word .. | wordAddress .. | string .. => true
  | instr .. | label .. | section_ _ | remark _ => false

def isWord : Item → Bool
  | word .. | wordAddress .. => true
  | _ => false

/-- Whether data before the item end with it. -/
def isBoundary : Item → Bool
  | align _ | label .. | globalLabel _ | section_ _ => true
  | instr .. | word .. | wordAddress .. | string .. | remark _ => false

/-- The bytes that an item of data takes at an offset. -/
def width (offset : Nat) : Item → Nat
  | align power => (2 ^ power.toNat - offset % 2 ^ power.toNat) % 2 ^ power.toNat
  | word .. | wordAddress .. => wordSize
  | string value _ => value.length + 1
  | instr .. | label .. | globalLabel _ | section_ _ | remark _ => 0

/-- The word that an item stands for, with the addresses of labels. -/
def value? (symbols : Label → Word) : Item → Option Word
  | word n _ => some (.ofInt 32 n)
  | wordAddress l _ => some (symbols l)
  | _ => none

def bytes (symbols : Label → Word) (offset : Nat) : Item → Bytes
  | word n _ => littleEndian (.ofInt 32 n)
  | wordAddress l _ => littleEndian (symbols l)
  | string value _ => value ++ [0]
  | i => List.replicate (i.width offset) 0

theorem length_bytes (symbols : Label → Word) (offset : Nat) (i : Item) :
    (i.bytes symbols offset).length = i.width offset := by
  cases i with
  | string value => simp [bytes, width]
  | align => exact List.length_replicate
  | _ => rfl

theorem isData_of_isWord {i : Item} (h : i.isWord = true) : i.isData = true := by
  cases i with
  | word | wordAddress => rfl
  | _ => cases h

theorem isBoundary_of_isWord {i : Item} (h : i.isWord = true) : i.isBoundary = false := by
  cases i with
  | word | wordAddress => rfl
  | _ => cases h

theorem width_of_isWord {i : Item} (h : i.isWord = true) (offset : Nat) :
    i.width offset = wordSize := by
  cases i with
  | word | wordAddress => rfl
  | _ => cases h

theorem bytes_of_value? {symbols : Label → Word} {i : Item} {w : Word}
    (h : i.value? symbols = some w) (offset : Nat) : i.bytes symbols offset = littleEndian w := by
  cases i with
  | word | wordAddress =>
    cases h
    rfl
  | _ => cases h

end Item

/-- The bytes of items from an offset on. -/
def encode (symbols : Label → Word) (offset : Nat) : List Item → Bytes
  | [] => []
  | i :: is => i.bytes symbols offset ++ encode symbols (offset + i.width offset) is

/-- The offset after some items. -/
def span (offset : Nat) : List Item → Nat
  | [] => offset
  | i :: is => span (offset + i.width offset) is

/-- The offset of a label among some items. -/
def offsetOf (l : Label) (offset : Nat) : List Item → Option Nat
  | [] => none
  | i :: is =>
    if i.defines? = some l then some offset else offsetOf l (offset + i.width offset) is

section

variable {symbols : Label → Word} {l : Label} {items more : List Item}

theorem span_append (offset : Nat) (items more : List Item) :
    span offset (items ++ more) = span (span offset items) more := by
  induction items generalizing offset with
  | nil => rfl
  | cons i is ih => exact ih _

theorem encode_append (symbols : Label → Word) (offset : Nat) (items more : List Item) :
    encode symbols offset (items ++ more) =
      encode symbols offset items ++ encode symbols (span offset items) more := by
  induction items generalizing offset with
  | nil => rfl
  | cons i is ih => rw [List.cons_append, encode, encode, ih, span, List.append_assoc]

theorem length_encode (symbols : Label → Word) (offset : Nat) (items : List Item) :
    offset + (encode symbols offset items).length = span offset items := by
  induction items generalizing offset with
  | nil => rfl
  | cons i is ih =>
    rw [encode, List.length_append, Item.length_bytes, span, ← ih]
    omega

theorem span_words {offset : Nat} (h : ∀ i ∈ items, i.isWord = true) :
    span offset items = offset + wordSize * items.length := by
  induction items generalizing offset with
  | nil => rfl
  | cons i is ih =>
    obtain ⟨hi, his⟩ := List.forall_mem_cons.1 h
    rw [span, Item.width_of_isWord hi, ih his, List.length_cons, Nat.mul_succ]
    omega

theorem offsetOf_append (h : l ∉ defined items) (offset : Nat) (more : List Item) :
    offsetOf l offset (items ++ more) = offsetOf l (span offset items) more := by
  induction items generalizing offset with
  | nil => rfl
  | cons i is ih =>
    have hi : i.defines? ≠ some l := fun hi => h (List.mem_filterMap.2 ⟨i, List.mem_cons_self, hi⟩)
    have his : l ∉ defined is := fun his => by
      obtain ⟨j, hj, hdef⟩ := List.mem_filterMap.1 his
      exact h (List.mem_filterMap.2 ⟨j, List.mem_cons_of_mem _ hj, hdef⟩)
    rw [List.cons_append, offsetOf, if_neg hi, ih his]
    rfl

theorem offsetOf_isSome (h : l ∈ defined items) (offset : Nat) :
    ∃ o, offsetOf l offset items = some o := by
  induction items generalizing offset with
  | nil => cases h
  | cons i is ih =>
    rw [offsetOf]
    by_cases hi : i.defines? = some l
    · exact ⟨offset, if_pos hi⟩
    · obtain ⟨j, hj, hdef⟩ := List.mem_filterMap.1 h
      rcases List.mem_cons.1 hj with rfl | hj
      · exact absurd hdef hi
      · obtain ⟨o, ho⟩ := ih (List.mem_filterMap.2 ⟨j, hj, hdef⟩) (offset + i.width offset)
        exact ⟨o, by rw [if_neg hi, ho]⟩

/-- The word of an item that stands behind words only. -/
theorem wordOf_encode {k offset : Nat} {i : Item} {w : Word} {rest : Bytes}
    (hwords : ∀ j ∈ items.take k, j.isWord = true) (hi : items[k]? = some i)
    (hw : i.value? symbols = some w) :
    wordOf ((encode symbols offset items ++ rest).drop (wordSize * k)) = some w := by
  induction k generalizing items offset with
  | zero =>
    obtain ⟨is, rfl⟩ : ∃ is, items = i :: is := by
      cases items with
      | nil => cases hi
      | cons j is =>
        cases hi
        exact ⟨is, rfl⟩
    rw [Nat.mul_zero, List.drop_zero, encode, Item.bytes_of_value? hw offset, List.append_assoc]
    exact wordOf_littleEndian w _
  | succ k ih =>
    cases items with
    | nil => cases hi
    | cons j is =>
      rw [List.take_succ_cons] at hwords
      obtain ⟨hj, his⟩ := List.forall_mem_cons.1 hwords
      have hlen : (j.bytes symbols offset).length = wordSize := by
        rw [Item.length_bytes, Item.width_of_isWord hj]
      have hdrop : wordSize * (k + 1) = (j.bytes symbols offset).length + wordSize * k := by
        rw [hlen, Nat.mul_succ]
        omega
      rw [encode, List.append_assoc, hdrop, ← List.drop_drop, List.drop_left]
      exact ih his (by simpa using hi)

end

/-! ### Segments -/

structure Segment where
  base : Nat
  items : List Item
  /-- Addresses of the labels of other segments. -/
  outside : Label → Word

namespace Segment

variable (s : Segment)

def address? (l : Label) : Option Nat := (offsetOf l 0 s.items).map (s.base + ·)

def symbols (l : Label) : Word :=
  match s.address? l with
  | some a => .ofNat 32 a
  | none => s.outside l

def bytes : Bytes := encode s.symbols 0 s.items

/-- The bytes from an address on. -/
def bytesFrom (a : Nat) : Bytes := if s.base ≤ a then s.bytes.drop (a - s.base) else []

def word? (a : Nat) : Option Word := wordOf (s.bytesFrom a)

/-- The items behind a label up to the next alignment or label. -/
def contents (l : Label) : List Item :=
  ((s.items.dropWhile (·.defines? != some l)).drop 1).takeWhile (!·.isBoundary)

/-- The whole words that the contents behind a label occupy. -/
def words (l : Label) : Nat := (span 0 (s.contents l) + 3) / wordSize

/-- At the label, which is aligned, there is an object: its second word is the number of words that
it occupies, and its third is as given. -/
structure Object (l : Label) (a : Nat) (third : Word) : Prop where
  address : s.address? l = some a
  aligned : a % wordSize = 0
  size : s.word? (a + 4) = some (.ofNat 32 (s.words l))
  third : s.word? (a + 8) = some third

end Segment

/-- Nothing, or items that end the data before them. -/
def Bounded (items : List Item) : Prop := ∀ i ∈ items.head?, i.isBoundary = true

theorem Bounded.append {items more : List Item} (h : Bounded items) (h' : Bounded more) :
    Bounded (items ++ more) := by
  cases items with
  | nil => exact h'
  | cons i is => exact h

theorem Bounded.flatMap {α : Type} {f : α → List Item} {xs : List α} (h : ∀ x ∈ xs, Bounded (f x)) :
    Bounded (xs.flatMap f) := by
  induction xs with
  | nil =>
    intro i hi
    cases hi
  | cons x xs ih =>
    obtain ⟨hx, hxs⟩ := List.forall_mem_cons.1 h
    exact hx.append (ih hxs)

/-- Among the items there is an aligned label with this body. -/
def HasObject (items : List Item) (l : Label) (body : List Item) : Prop :=
  ∃ before after, items = before ++ .align 2 :: .globalLabel l :: (body ++ after) ∧
    (∀ i ∈ body, i.isBoundary = false) ∧ Bounded after

namespace HasObject

variable {items more body : List Item} {l : Label}

theorem self (h : ∀ i ∈ body, i.isBoundary = false) :
    HasObject (.align 2 :: .globalLabel l :: body) l body :=
  ⟨[], [], by simp, h, by simp [Bounded]⟩

theorem append_left (h : HasObject more l body) (items : List Item) :
    HasObject (items ++ more) l body := by
  obtain ⟨before, after, rfl, hbody, hafter⟩ := h
  exact ⟨items ++ before, after, by simp, hbody, hafter⟩

theorem append_right (h : HasObject items l body) (hmore : Bounded more) :
    HasObject (items ++ more) l body := by
  obtain ⟨before, after, rfl, hbody, hafter⟩ := h
  exact ⟨before, after ++ more, by simp, hbody, hafter.append hmore⟩

theorem flatMap {α : Type} {f : α → List Item} {xs : List α} (hbounded : ∀ x ∈ xs, Bounded (f x))
    {x : α} (hx : x ∈ xs) (h : HasObject (f x) l body) : HasObject (xs.flatMap f) l body := by
  obtain ⟨before, after, rfl⟩ := List.append_of_mem hx
  rw [List.flatMap_append, List.flatMap_cons]
  refine (h.append_right (.flatMap fun y hy => hbounded y ?_)).append_left _
  exact List.mem_append_right _ (List.mem_cons_of_mem _ hy)

end HasObject

/-- The offset after an alignment to words. -/
theorem span_align (offset : Nat) : span offset [.align 2] % wordSize = 0 := by
  show (offset + (4 - offset % 4) % 4) % 4 = 0
  omega

namespace Segment

variable {s : Segment} {l : Label} {body : List Item}

theorem address?_isSome (h : l ∈ defined s.items) : ∃ a, s.address? l = some a := by
  obtain ⟨o, ho⟩ := offsetOf_isSome h 0
  exact ⟨s.base + o, by rw [address?, ho]; rfl⟩

theorem symbols_eq {a : Nat} (h : s.address? l = some a) : s.symbols l = .ofNat 32 a := by
  rw [symbols, h]

theorem bytesFrom_add {a : Nat} (hbase : s.base ≤ a) (k : Nat) :
    s.bytesFrom (a + k) = (s.bytesFrom a).drop k := by
  have hsub : a + k - s.base = (a - s.base) + k := by omega
  rw [bytesFrom, bytesFrom, if_pos hbase, if_pos (Nat.le_add_right_of_le hbase), hsub,
    ← List.drop_drop]

theorem word?_of_bytesFrom {a k offset : Nat} {i : Item} {w : Word} {rest : Bytes}
    (hbase : s.base ≤ a) (hbytes : s.bytesFrom a = encode s.symbols offset body ++ rest)
    (hwords : ∀ j ∈ body.take k, j.isWord = true) (hi : body[k]? = some i)
    (hw : i.value? s.symbols = some w) : s.word? (a + wordSize * k) = some w := by
  rw [word?, bytesFrom_add hbase, hbytes]
  exact wordOf_encode hwords hi hw

theorem notMem_of_split {pre rest : List Item} (hnd : (defined s.items).Nodup)
    (hsplit : s.items = pre ++ .globalLabel l :: rest) : l ∉ defined pre := by
  rw [hsplit, defined_append] at hnd
  exact fun hmem => List.disjoint_of_nodup_append hnd hmem List.mem_cons_self

theorem address?_of_split {pre rest : List Item} (hnd : (defined s.items).Nodup)
    (hsplit : s.items = pre ++ .globalLabel l :: rest) :
    s.address? l = some (s.base + span 0 pre) := by
  have hself : (Item.globalLabel l).defines? = some l := rfl
  rw [address?, hsplit, offsetOf_append (notMem_of_split hnd hsplit), offsetOf, if_pos hself]
  rfl

/-- An aligned label is where the words before it end. -/
theorem address?_next {before after : List Item} {l' : Label} (hnd : (defined s.items).Nodup)
    (hsplit : s.items =
      before ++ .align 2 :: .globalLabel l :: (body ++ .align 2 :: .globalLabel l' :: after))
    (hwords : ∀ i ∈ body, i.isWord = true) :
    ∃ a, s.address? l = some a ∧ s.address? l' = some (a + wordSize * body.length) := by
  have hfirst : s.items = (before ++ [.align 2]) ++
      .globalLabel l :: (body ++ .align 2 :: .globalLabel l' :: after) := by
    rw [hsplit, List.append_assoc]
    rfl
  have hsecond : s.items = (before ++ [.align 2] ++ (.globalLabel l :: body) ++ [.align 2]) ++
      .globalLabel l' :: after := by
    rw [hsplit]
    simp
  refine ⟨_, address?_of_split hnd hfirst, ?_⟩
  have haligned : span 0 (before ++ [.align 2]) % 4 = 0 := by
    rw [span_append]
    exact span_align _
  rw [address?_of_split hnd hsecond, span_append, span_append]
  generalize span 0 (before ++ [.align 2]) = offset at haligned ⊢
  have hbody : span offset (.globalLabel l :: body) = offset + 4 * body.length :=
    span_words hwords
  have hspan : span (offset + 4 * body.length) [.align 2] = offset + 4 * body.length := by
    show offset + 4 * body.length + (4 - (offset + 4 * body.length) % 4) % 4 = _
    rw [Nat.add_mul_mod_self_left, haligned]
    rfl
  rw [hbody, hspan, Nat.add_assoc]
  rfl

/-- Where the body of an object is and how many words it takes. -/
theorem placed (hbase : s.base % wordSize = 0) (hnd : (defined s.items).Nodup)
    (h : HasObject s.items l body) : ∃ a offset rest, s.address? l = some a ∧
      a % wordSize = 0 ∧ s.base ≤ a ∧ s.bytesFrom a = encode s.symbols offset body ++ rest ∧
      s.words l = (span 0 body + 3) / wordSize := by
  obtain ⟨before, after, hitems, hbody, hafter⟩ := h
  obtain ⟨pre, hsplit, haligned⟩ : ∃ pre, s.items = pre ++ .globalLabel l :: (body ++ after) ∧
      span 0 pre % wordSize = 0 := by
    refine ⟨before ++ [.align 2], by rw [hitems, List.append_assoc]; rfl, ?_⟩
    rw [span_append]
    exact span_align _
  have hlen : (encode s.symbols 0 pre).length = span 0 pre := by
    rw [← length_encode s.symbols, Nat.zero_add]
  have hfrom : s.bytes.drop (span 0 pre) = encode s.symbols (span 0 pre) body ++
      encode s.symbols (span (span 0 pre) body) after := by
    rw [bytes, hsplit, encode_append s.symbols 0 pre, List.drop_left' hlen, encode, encode_append]
    rfl
  have hdrop : s.items.dropWhile (·.defines? != some l) = .globalLabel l :: (body ++ after) := by
    rw [hsplit, List.dropWhile_append_of_pos]
    · rw [List.dropWhile_cons_of_neg]
      simp [Item.defines?]
    · intro i hi
      rw [bne_iff_ne]
      exact fun hdef => notMem_of_split hnd hsplit (List.mem_filterMap.2 ⟨i, hi, hdef⟩)
  have htake : (body ++ after).takeWhile (!·.isBoundary) = body := by
    rw [List.takeWhile_append_of_pos fun i hi => by rw [hbody i hi]; rfl]
    cases after with
    | nil => exact List.append_nil _
    | cons i is =>
      rw [List.takeWhile_cons_of_neg, List.append_nil]
      rw [hafter i rfl]
      exact Bool.false_ne_true
  refine ⟨s.base + span 0 pre, span 0 pre, encode s.symbols (span (span 0 pre) body) after,
    address?_of_split hnd hsplit, ?_, Nat.le_add_right _ _, ?_, ?_⟩
  · rw [Nat.add_mod, hbase, haligned]
    rfl
  · rw [bytesFrom, if_pos (Nat.le_add_right _ _), Nat.add_sub_cancel_left]
    exact hfrom
  · rw [words, contents, hdrop, List.drop_one, List.tail_cons, htake]

/-- An object begins with words, among them its size and the third one. -/
theorem object_of_body {m : Nat} {n : Int} {c : Bytes} {third : Item} {w : Word}
    (hbase : s.base % wordSize = 0) (hnd : (defined s.items).Nodup) (h : HasObject s.items l body)
    (hwords : ∀ i ∈ body.take m, i.isWord = true) (hm : headerWords ≤ m) (hlen : m ≤ body.length)
    (hsize : body[1]? = some (.word n c))
    (hn : BitVec.ofInt 32 n = .ofNat 32 ((span 0 body + 3) / wordSize))
    (hthird : body[2]? = some third) (hw : third.value? s.symbols = some w) :
    ∃ a offset rest, s.Object l a w ∧ (∀ k i v, k < m → body[k]? = some i →
      i.value? s.symbols = some v → s.word? (a + wordSize * k) = some v) ∧
      s.bytesFrom (a + wordSize * m) = encode s.symbols offset (body.drop m) ++ rest := by
  obtain ⟨a, offset, rest, haddress, haligned, hle, hbytes, hwordCount⟩ := placed hbase hnd h
  have hfield (k : Nat) (i : Item) (v : Word) (hk : k < m) (hi : body[k]? = some i)
      (hv : i.value? s.symbols = some v) : s.word? (a + wordSize * k) = some v := by
    refine word?_of_bytesFrom hle hbytes (fun j hj => hwords j ?_) hi hv
    exact (List.take_prefix_take_left (Nat.le_of_lt hk)).subset hj
  have hsizeWord := hfield 1 _ _ (Nat.lt_of_lt_of_le (by decide) hm) hsize rfl
  rw [hn, ← hwordCount] at hsizeWord
  refine ⟨a, span offset (body.take m), rest, ⟨haddress, haligned, hsizeWord, ?_⟩, hfield, ?_⟩
  · exact hfield 2 _ _ (Nat.lt_of_lt_of_le (by decide) hm) hthird hw
  · have hspan : span offset (body.take m) = offset + wordSize * m := by
      rw [span_words hwords, List.length_take_of_le hlen]
    have hhead : (encode s.symbols offset (body.take m)).length = wordSize * m := by
      have hencode := length_encode s.symbols offset (body.take m)
      omega
    rw [bytesFrom_add hle, hbytes]
    conv_lhs => rw [← List.take_append_drop m body, encode_append, List.append_assoc]
    rw [List.drop_left' hhead]

end Segment

end ChocoRv.Asm
