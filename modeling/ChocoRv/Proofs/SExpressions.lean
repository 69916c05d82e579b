import ChocoRv.Proofs.Scanning
import ChocoRv.Tree.Dump

/-!
# S-expressions

The texts that a dump is made of: words, quoted strings and groups. A word is kept apart from what
follows it by a blank or a parenthesis, a string by its closing quote and a group by its closing
parenthesis, so a text stands for one s-expression only. This is proved with any text after it: that
is what a part of a group needs.
-/

namespace ChocoRv

inductive Sexp where
  | word (bytes : Bytes)
  | str (content : Bytes)
  | node (parts : List Sexp)

namespace Sexp

mutual

def text : Sexp → Bytes
  | word bytes => bytes
  | str content => content.printable
  | node parts => group (texts parts)

def texts : List Sexp → List Bytes
  | [] => []
  | x :: xs => x.text :: texts xs

end

/-- Bytes that a word can have. -/
def isAtom (b : UInt8) : Bool :=
  b != ' '.toUInt8 && b != '"'.toUInt8 && b != '('.toUInt8 && b != ')'.toUInt8

/-- Bytes that a string literal can denote. -/
def Plain (b : UInt8) : Prop := (32 ≤ b ∧ b ≤ 126) ∨ b = '\t'.toUInt8 ∨ b = '\n'.toUInt8

instance (b : UInt8) : Decidable (Plain b) := inferInstanceAs (Decidable (_ ∨ _))

mutual

/-- Words have no byte that ends them and strings are such as literals denote. -/
def Sound : Sexp → Prop
  | word bytes => bytes ≠ [] ∧ bytes.all isAtom = true
  | str content => ∀ b ∈ content, Plain b
  | node parts => AllSound parts

def AllSound : List Sexp → Prop
  | [] => True
  | x :: xs => x.Sound ∧ AllSound xs

end

theorem allSound_iff {xs : List Sexp} : AllSound xs ↔ ∀ x ∈ xs, x.Sound := by
  induction xs with
  | nil => simp [AllSound]
  | cons x xs ih => simp [AllSound, ih]

theorem texts_eq_map (xs : List Sexp) : texts xs = xs.map text := by
  induction xs with
  | nil => rfl
  | cons x xs ih => simp [texts, ih]

/-! ### Strings -/

theorem plain_cases {b : UInt8} (h : Plain b) :
    (∃ d, Bytes.escape b = ['\\'.toUInt8, d] ∧ Bytes.unescape? d = some b) ∨
      (Bytes.escape b = [b] ∧ b ≠ '"'.toUInt8 ∧ b ≠ '\\'.toUInt8 ∧ 32 ≤ b ∧ b ≤ 126) := by
  by_cases hquote : b = '"'.toUInt8
  · subst hquote; exact .inl ⟨'"'.toUInt8, by decide⟩
  by_cases hback : b = '\\'.toUInt8
  · subst hback; exact .inl ⟨'\\'.toUInt8, by decide⟩
  rcases h with hprint | rfl | rfl
  · have hnewline : b ≠ '\n'.toUInt8 := by rintro rfl; exact absurd hprint.1 (by decide)
    have htab : b ≠ '\t'.toUInt8 := by rintro rfl; exact absurd hprint.1 (by decide)
    refine .inr ⟨?_, hquote, hback, hprint⟩
    rw [Bytes.escape, if_neg hquote, if_neg hback, if_neg hnewline, if_neg htab]
  · exact .inl ⟨'t'.toUInt8, by decide⟩
  · exact .inl ⟨'n'.toUInt8, by decide⟩

/-- What `escape` writes denotes the bytes again. -/
theorem unescapes_escape {s : Bytes} (h : ∀ b ∈ s, Plain b) :
    Unescapes (s.flatMap Bytes.escape) s := by
  induction s with
  | nil => exact .nil
  | cons b s ih =>
    obtain ⟨hb, hs⟩ := List.forall_mem_cons.1 h
    rw [List.flatMap_cons]
    rcases plain_cases hb with ⟨d, hescape, hunescape⟩ | ⟨hescape, hquote, hback, hprint⟩
    · rw [hescape]
      exact .escape (Bytes.mem_escapes hunescape) (ih hs)
    · rw [hescape]
      exact .plain hprint hquote hback (ih hs)

/-- What a string literal denotes is printed with the escapes of a literal. -/
theorem printableForm_plain : ∀ n < 256, Plain (UInt8.ofNat n) →
    n < 128 ∧ Bytes.printableForm n [UInt8.ofNat n] = Bytes.escape (UInt8.ofNat n) := by
  decide +kernel

theorem printableBody_plain {s : Bytes} (h : ∀ b ∈ s, Plain b) :
    Bytes.printableBody s = s.flatMap Bytes.escape := by
  induction s with
  | nil => rw [Bytes.printableBody]; rfl
  | cons b s ih =>
    obtain ⟨hb, hs⟩ := List.forall_mem_cons.1 h
    have hform := printableForm_plain b.toNat b.toNat_lt
    rw [UInt8.ofNat_toNat] at hform
    obtain ⟨hlt, hform⟩ := hform hb
    have hascii : b < 0x80 := UInt8.lt_iff_toNat_lt.2 hlt
    have hpoint : Bytes.codePoint? (b :: s) = some (b.toNat, 1) := by
      rw [Bytes.codePoint?.eq_def]
      exact if_pos hascii
    rw [Bytes.printableBody, hpoint]
    simp only [List.take_succ_cons, List.take_zero, Nat.sub_self, List.drop_zero]
    rw [hform, ih hs, List.flatMap_cons]

theorem printable_plain {s : Bytes} (h : ∀ b ∈ s, Plain b) : s.printable = s.quote := by
  rw [Bytes.printable, Bytes.quote, printableBody_plain h]

theorem quote_append_inj {s s' r r' : Bytes} (hs : ∀ b ∈ s, Plain b) (hs' : ∀ b ∈ s', Plain b)
    (h : s.quote ++ r = s'.quote ++ r') : s = s' ∧ r = r' := by
  have hshape (s r : Bytes) : s.quote ++ r =
      '"'.toUInt8 :: (s.flatMap Bytes.escape ++ '"'.toUInt8 :: r) := by
    simp [Bytes.quote]
  rw [hshape, hshape] at h
  have h := (List.cons.inj h).2
  have hread := Lexer.stringBody_of_unescapes (unescapes_escape hs) r
  rw [h, Lexer.stringBody_of_unescapes (unescapes_escape hs') r'] at hread
  obtain rfl := (Prod.mk.inj (Except.ok.inj hread)).1
  exact ⟨rfl, (List.cons.inj (List.append_cancel_left h)).2⟩

/-! ### A text stands for one s-expression -/

/-- What follows does not extend a word. -/
def Ends (rest : Bytes) : Prop := ∀ b ∈ rest.head?, isAtom b = false

theorem word_append_inj {w w' r r' : Bytes} (hw : w.all isAtom = true)
    (hw' : w'.all isAtom = true) (hr : Ends r) (hr' : Ends r') (h : w ++ r = w' ++ r') :
    w = w' ∧ r = r' := by
  have hword {w r : Bytes} (hw : w.all isAtom = true) (hr : Ends r) :
      (w ++ r).takeWhile isAtom = w := Lexer.takeWhile_of_closed (List.all_eq_true.1 hw) hr
  obtain rfl : w = w' := by rw [← hword hw hr, h, hword hw' hr']
  exact ⟨rfl, List.append_cancel_left h⟩

/-- The byte that a string or a group starts with; that of a word is none of them. -/
def opening : Sexp → Option UInt8
  | word _ => none
  | str _ => some '"'.toUInt8
  | node _ => some '('.toUInt8

theorem text_starts {x : Sexp} (h : x.Sound) :
    ∃ b rest, x.text = b :: rest ∧ x.opening = if isAtom b then none else some b := by
  cases x with
  | word w =>
    simp only [Sound] at h
    obtain ⟨b, rest, rfl⟩ := List.exists_cons_of_ne_nil h.1
    exact ⟨b, rest, by rw [text], by rw [if_pos (List.all_eq_true.1 h.2 b List.mem_cons_self), opening]⟩
  | str s => exact ⟨_, _, by rw [text, Bytes.printable, List.cons_append], rfl⟩
  | node parts => exact ⟨_, _, by rw [text, group]; rfl, rfl⟩

theorem opening_eq {x y : Sexp} {r r' : Bytes} (hx : x.Sound) (hy : y.Sound)
    (h : x.text ++ r = y.text ++ r') : x.opening = y.opening := by
  obtain ⟨b, rest, hb, hxb⟩ := text_starts hx
  obtain ⟨b', rest', hb', hyb⟩ := text_starts hy
  rw [hb, hb'] at h
  obtain rfl : b = b' := (List.cons.inj h).1
  rw [hxb, hyb]

/-- A group without parts does not go on like one with parts. -/
theorem text_append_ne_close {x : Sexp} {r r' : Bytes} (hx : x.Sound) :
    x.text ++ r ≠ ')'.toUInt8 :: r' := by
  obtain ⟨b, rest, hb, hopen⟩ := text_starts hx
  intro h
  rw [hb] at h
  obtain rfl : b = ')'.toUInt8 := (List.cons.inj h).1
  cases x with
  | word | str | node => exact absurd hopen (by simp only [opening]; decide)

/-- The parts of a group after the first one. -/
def tail : List Sexp → Bytes
  | [] => []
  | x :: xs => ' '.toUInt8 :: (x.text ++ tail xs)

theorem text_node_nil : text (node []) = txt "()" := by
  simp only [text, texts]
  rfl

theorem text_node_cons (x : Sexp) (xs : List Sexp) :
    text (node (x :: xs)) = '('.toUInt8 :: (x.text ++ (tail xs ++ [')'.toUInt8])) := by
  have hjoin (xs : List Sexp) (b : Bytes) :
      Bytes.join (txt " ") (b :: texts xs) = b ++ tail xs := by
    induction xs generalizing b with
    | nil => simp [texts, tail, Bytes.join]
    | cons x xs ih =>
      rw [texts, Bytes.join, List.intercalate_cons_cons, ← Bytes.join, ih, tail]
      simp [txt]
  simp only [text, texts, group, hjoin, List.append_assoc]
  rfl

theorem ends_tail (xs : List Sexp) (rest : Bytes) : Ends (tail xs ++ ')'.toUInt8 :: rest) := by
  cases xs with
  | nil => intro b hb; obtain rfl := Option.some.inj hb; decide
  | cons x xs => intro b hb; obtain rfl := Option.some.inj hb; decide

mutual

theorem text_append_inj : ∀ {x y : Sexp} {r r' : Bytes}, x.Sound → y.Sound → Ends r → Ends r' →
    x.text ++ r = y.text ++ r' → x = y ∧ r = r'
  | word w, word w', r, r', hx, hy, hr, hr', h => by
    simp only [Sound] at hx hy
    simp only [text] at h
    obtain ⟨rfl, hr⟩ := word_append_inj hx.2 hy.2 hr hr' h
    exact ⟨rfl, hr⟩
  | str s, str s', r, r', hx, hy, hr, hr', h => by
    simp only [Sound] at hx hy
    simp only [text, printable_plain hx, printable_plain hy] at h
    obtain ⟨rfl, hr⟩ := quote_append_inj hx hy h
    exact ⟨rfl, hr⟩
  | node [], node [], r, r', hx, hy, hr, hr', h => ⟨rfl, List.append_cancel_left h⟩
  | node (x :: xs), node (y :: ys), r, r', hx, hy, hr, hr', h => by
    simp only [Sound, AllSound] at hx hy
    rw [text_node_cons, text_node_cons] at h
    simp only [List.cons_append, List.append_assoc, List.nil_append, List.cons.injEq,
      true_and] at h
    obtain ⟨hfirst, htail⟩ := text_append_inj hx.1 hy.1 (ends_tail xs r) (ends_tail ys r') h
    obtain ⟨hrest, hr⟩ := tail_append_inj hx.2 hy.2 htail
    exact ⟨by rw [hfirst, hrest], hr⟩
  | node [], node (y :: ys), r, r', hx, hy, hr, hr', h => by
    simp only [Sound, AllSound] at hy
    rw [text_node_nil, text_node_cons, List.cons_append, List.append_assoc] at h
    exact absurd (List.cons.inj h).2.symm (text_append_ne_close hy.1)
  | node (x :: xs), node [], r, r', hx, hy, hr, hr', h => by
    simp only [Sound, AllSound] at hx
    rw [text_node_nil, text_node_cons, List.cons_append, List.append_assoc] at h
    exact absurd (List.cons.inj h).2 (text_append_ne_close hx.1)
  | word _, str _, r, r', hx, hy, hr, hr', h | str _, word _, r, r', hx, hy, hr, hr', h
  | word _, node _, r, r', hx, hy, hr, hr', h | node _, word _, r, r', hx, hy, hr, hr', h => by
    cases opening_eq hx hy h
  | str _, node _, r, r', hx, hy, hr, hr', h | node _, str _, r, r', hx, hy, hr, hr', h => by
    exact absurd (Option.some.inj (opening_eq hx hy h)) (by decide)

theorem tail_append_inj : ∀ {xs ys : List Sexp} {r r' : Bytes}, AllSound xs → AllSound ys →
    tail xs ++ ')'.toUInt8 :: r = tail ys ++ ')'.toUInt8 :: r' → xs = ys ∧ r = r'
  | [], [], r, r', hx, hy, h => ⟨rfl, (List.cons.inj h).2⟩
  | x :: xs, y :: ys, r, r', hx, hy, h => by
    simp only [AllSound] at hx hy
    simp only [tail, List.cons_append, List.append_assoc, List.cons.injEq, true_and] at h
    obtain ⟨hfirst, htail⟩ := text_append_inj hx.1 hy.1 (ends_tail xs r) (ends_tail ys r') h
    obtain ⟨hrest, hr⟩ := tail_append_inj hx.2 hy.2 htail
    exact ⟨by rw [hfirst, hrest], hr⟩
  | [], y :: ys, r, r', hx, hy, h => by cases (List.cons.inj h).1
  | x :: xs, [], r, r', hx, hy, h => by cases (List.cons.inj h).1

end

/-- Two sound s-expressions with one text are the same. -/
theorem text_injective {x y : Sexp} (hx : x.Sound) (hy : y.Sound) (h : x.text = y.text) :
    x = y := by
  have hnil : Ends [] := by intro b hb; cases hb
  exact (text_append_inj hx hy hnil hnil (congrArg (· ++ []) h)).1

end Sexp

end ChocoRv
