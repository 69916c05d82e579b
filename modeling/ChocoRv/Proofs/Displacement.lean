import ChocoRv.Proofs.Emitting
import Mathlib.Algebra.Ring.Int.Defs

/-!
# Displacement of the stack pointer

Code that is tidy moves `sp` only by constants and reaches into the stack only where it has put a
word. Its labels stand at a displacement of `sp`, and a jump to a label is made at the displacement
of the label. The code of every expression and statement is tidy and leaves `sp` where it was.
-/

namespace ChocoRv

open Asm

namespace Asm

theorem wordSize_eq : (wordSize : Int) = 4 := rfl

theorem wordSize_mul (n : Nat) : ((wordSize * n : Nat) : Int) = 4 * n := by
  rw [Int.natCast_mul, wordSize_eq]

/-! ### One item -/

namespace Instr

/-- The register that an instruction itself writes. -/
def dest? : Instr → Option Reg
  | op _ rd _ _ | opImm _ rd _ _ | move _ rd _ | li rd _ | la rd _ | load _ rd _ _
  | loadLabel rd _ | storeLabel _ _ rd => some rd
  | jal _ | jalr _ => some .ra
  | store .. | branch .. | branchZero .. | j _ | jr _ | ecall => none

/-- The offset of an access to the stack. -/
def stackSlot? : Instr → Option Int
  | load _ _ .sp k | store _ _ .sp k => some k
  | _ => none

/-- The label of the code that an instruction may go on with. -/
def jump? : Instr → Option Label
  | branch _ _ _ l | branchZero _ _ l | j l => some l
  | _ => none

/-- Whether the instruction leaves the code for good. -/
def isExit : Instr → Bool
  | jr _ | ecall => true
  | _ => false

/-- By how much an instruction moves `sp`. -/
def shift : Instr → Int
  | opImm .addi .sp .sp k => k
  | _ => 0

/-- The instruction is in order where `sp` is displaced by `d`. `lev` tells the displacement at
which labels stand. -/
structure Tidy (lev : Label → Int → Prop) (d : Int) (i : Instr) : Prop where
  moves : i.dest? = some .sp → ∃ k, i = .opImm .addi .sp .sp k
  top : d + i.shift ≤ 0
  slot : ∀ k, i.stackSlot? = some k → 0 ≤ k ∧ k + wordSize ≤ -d
  jump : ∀ l, i.jump? = some l → lev l d
  stays : i.isExit = false

variable {lev : Label → Int → Prop} {d : Int} {i : Instr}

/-- Nothing to do with `sp` and no jump. -/
def isPlain (i : Instr) : Bool :=
  i.dest? != some .sp && i.stackSlot?.isNone && i.jump?.isNone && !i.isExit

theorem shift_of_isPlain (h : i.isPlain = true) : i.shift = 0 := by
  unfold shift
  split
  · cases h
  · rfl

theorem tidy_of_isPlain (h : i.isPlain = true) (hd : d ≤ 0) : i.Tidy lev d := by
  have hshift := shift_of_isPlain h
  simp only [isPlain, Bool.and_eq_true, bne_iff_ne, ne_eq, Option.isNone_iff_eq_none,
    Bool.not_eq_true'] at h
  obtain ⟨⟨⟨hdest, hslot⟩, hjump⟩, hexit⟩ := h
  exact ⟨fun h => absurd h hdest, by omega, by simp [hslot], by simp [hjump], hexit⟩

theorem shift_of_jump {l : Label} (h : i.jump? = some l) : i.shift = 0 := by
  cases i <;> first | rfl | cases h

theorem tidy_of_jump {l : Label} (h : i.jump? = some l) (hd : d ≤ 0) (hl : lev l d) :
    i.Tidy lev d := by
  have hshift := shift_of_jump h
  have hplain : i.dest? = none ∧ i.stackSlot? = none ∧ i.isExit = false := by
    cases i <;> simp_all [jump?, dest?, stackSlot?, isExit]
  obtain ⟨hdest, hslot, hexit⟩ := hplain
  refine ⟨by simp [hdest], by omega, by simp [hslot], fun l' hl' => ?_, hexit⟩
  obtain rfl := Option.some.inj (h.symm.trans hl')
  exact hl

/-- Room is made or given back. -/
theorem tidy_addi (k : Int) (h : d + k ≤ 0) : (opImm .addi .sp .sp k).Tidy lev d :=
  ⟨fun _ => ⟨k, rfl⟩, h, by simp [stackSlot?], by simp [jump?], rfl⟩

theorem tidy_store (r : Reg) {k : Int} (hk : 0 ≤ k) (hd : k + wordSize ≤ -d) :
    (store .sw r .sp k).Tidy lev d := by
  refine ⟨by simp [dest?], by simp only [shift]; omega, fun k' hk' => ?_, by simp [jump?], rfl⟩
  obtain rfl : k = k' := by simpa [stackSlot?] using hk'
  exact ⟨hk, hd⟩

theorem tidy_load {r : Reg} (hr : r ≠ .sp) {k : Int} (hk : 0 ≤ k) (hd : k + wordSize ≤ -d) :
    (load .lw r .sp k).Tidy lev d := by
  refine ⟨by simp [dest?, hr], by simp only [shift]; omega, fun k' hk' => ?_, by simp [jump?], rfl⟩
  obtain rfl : k = k' := by simpa [stackSlot?] using hk'
  exact ⟨hk, hd⟩

end Instr

namespace Item

/-- By how much an item moves `sp`. -/
def shift : Item → Int
  | .instr i _ => i.shift
  | _ => 0

/-- Code of a body consists of instructions and labels. -/
def Tidy (lev : Label → Int → Prop) (d : Int) : Item → Prop
  | .instr i _ => i.Tidy lev d
  | .label _ _ => True
  | _ => False

@[simp] theorem shift_instr (i : Instr) (c : Bytes) : (Item.instr i c).shift = i.shift := rfl

@[simp] theorem shift_label (l : Label) (c : Bytes) : (Item.label l c).shift = 0 := rfl

end Item

/-! ### Code -/

/-- By how much code moves `sp` from its start to its end. -/
def net (code : List Item) : Int := (code.map Item.shift).sum

@[simp] theorem net_nil : net [] = 0 := rfl

@[simp] theorem net_cons (i : Item) (code : List Item) : net (i :: code) = i.shift + net code := by
  simp [net]

@[simp] theorem net_append (code more : List Item) : net (code ++ more) = net code + net more := by
  simp [net]

/-- Every item is in order at the displacement it stands at, from `d` on. -/
def Tidy (lev : Label → Int → Prop) : Int → List Item → Prop
  | _, [] => True
  | d, i :: code => i.Tidy lev d ∧ Tidy lev (d + i.shift) code

/-- The labels of the code with the displacements at which they stand, from `d` on. -/
def levels : Int → List Item → List (Label × Int)
  | _, [] => []
  | d, i :: code => (i.defines?.map (·, d)).toList ++ levels (d + i.shift) code

variable {lev lev' : Label → Int → Prop} {d d₁ d₂ : Int} {code more : List Item}

@[simp] theorem tidy_nil (d : Int) : Tidy lev d [] := trivial

@[simp] theorem tidy_cons (d : Int) (i : Item) (code : List Item) :
    Tidy lev d (i :: code) ↔ i.Tidy lev d ∧ Tidy lev (d + i.shift) code := Iff.rfl

@[simp] theorem tidy_append : Tidy lev d (code ++ more) ↔
    Tidy lev d code ∧ Tidy lev (d + net code) more := by
  induction code generalizing d with
  | nil => simp
  | cons i code ih => simp [ih, and_assoc, Int.add_assoc]

@[simp] theorem levels_nil (d : Int) : levels d [] = [] := rfl

@[simp] theorem levels_instr (d : Int) (i : Instr) (c : Bytes) (code : List Item) :
    levels d (.instr i c :: code) = levels (d + i.shift) code := rfl

@[simp] theorem levels_label (d : Int) (l : Label) (c : Bytes) (code : List Item) :
    levels d (.label l c :: code) = (l, d) :: levels d code := by
  simp [levels, Item.defines?]

@[simp] theorem levels_append : levels d (code ++ more) =
    levels d code ++ levels (d + net code) more := by
  induction code generalizing d with
  | nil => simp
  | cons i code ih => simp [levels, ih, Int.add_assoc]

/-- `lev` tells the displacements of the labels of the code. -/
def Levels (lev : Label → Int → Prop) (d : Int) (code : List Item) : Prop :=
  ∀ x ∈ levels d code, lev x.1 x.2

@[simp] theorem levels_nil' (d : Int) : Levels lev d [] := by simp [Levels]

@[simp] theorem levels_instr' (d : Int) (i : Instr) (c : Bytes) (code : List Item) :
    Levels lev d (.instr i c :: code) ↔ Levels lev (d + i.shift) code := Iff.rfl

@[simp] theorem levels_label' (d : Int) (l : Label) (c : Bytes) (code : List Item) :
    Levels lev d (.label l c :: code) ↔ lev l d ∧ Levels lev d code := by
  simp [Levels]

@[simp] theorem levels_append' : Levels lev d (code ++ more) ↔
    Levels lev d code ∧ Levels lev (d + net code) more := by
  simp only [Levels, levels_append, List.forall_mem_append]

/-- The code moves `sp` from `d` to `d₁` and is tidy, given the displacements of its labels. -/
structure Moves (lev : Label → Int → Prop) (d : Int) (code : List Item) (d₁ : Int) : Prop where
  net : d + net code = d₁
  tidy : Levels lev d code → Tidy lev d code

namespace Moves

theorem append (h : Moves lev d code d₁) (h' : Moves lev d₁ more d₂) :
    Moves lev d (code ++ more) d₂ := by
  have hnet := h.net
  have hnet' := h'.net
  refine ⟨by rw [net_append]; omega, fun hl => ?_⟩
  rw [levels_append', h.net] at hl
  rw [tidy_append, h.net]
  exact ⟨h.tidy hl.1, h'.tidy hl.2⟩

theorem net_eq_zero (h : Moves lev d code d) : Asm.net code = 0 := by
  have hnet := h.net
  omega

end Moves

end Asm

/-! ### Rules for emitting -/

namespace Emit

variable {α β : Type} {lev : Label → Int → Prop} {d d₁ d₂ : Int}

/-- All that the computation emits moves `sp` from `d` to `d₁`. -/
def Moves (lev : Label → Int → Prop) (d : Int) (x : Emit α) (d₁ : Int) : Prop :=
  ∀ s, All x s fun _ code _ => Asm.Moves lev d code d₁

/-- Wherever `sp` is, the code of the computation leaves it there. -/
def Steady (lev : Label → Int → Prop) (x : Emit α) : Prop := ∀ d ≤ 0, Moves lev d x d

namespace Moves

theorem bind {x : Emit α} {f : α → Emit β} (hx : Moves lev d x d₁)
    (hf : ∀ a, Moves lev d₁ (f a) d₂) : Moves lev d (x >>= f) d₂ := by
  intro s
  rw [all_bind]
  exact fun a code s₁ h b more s₂ h' => (hx s a code s₁ h).append (hf a s₁ b more s₂ h')

theorem cast {x : Emit α} (h : Moves lev d x d₁) (heq : d₁ = d₂) : Moves lev d x d₂ := heq ▸ h

theorem silent {x : Emit α} (h : ∀ s, All x s fun _ code _ => code = []) : Moves lev d x d := by
  intro s a code s' hx
  rw [h s a code s' hx]
  exact ⟨by simp, fun _ => tidy_nil d⟩

theorem pure (a : α) : Moves lev d (pure a) d :=
  silent fun _ => (all_pure a).2 rfl

theorem fail (e : CodegenFault) : Moves lev d (fail e : Emit α) d₁ := fun _ => all_fail e

theorem need (a? : Option α) (e : CodegenFault) : Moves lev d (need a? e) d :=
  silent fun _ => (all_need a? e).2 fun _ _ => rfl

theorem ofExcept (r : Except CodegenFault α) : Moves lev d (ofExcept r) d :=
  silent fun _ => (all_ofExcept r).2 fun _ _ => rfl

theorem fresh (stem : String) : Moves lev d (fresh stem) d :=
  silent fun _ => (all_fresh stem).2 rfl

theorem intConstant (n : Int) : Moves lev d (intConstant n) d :=
  silent fun _ => (all_intConstant n).2 rfl

theorem strConstant (v : Bytes) : Moves lev d (strConstant v) d :=
  silent fun _ => (all_strConstant v).2 rfl

theorem item {i : Item} (h : i.Tidy lev d) : Moves lev d (items [i]) (d + i.shift) := by
  intro s
  rw [all_items]
  exact ⟨by simp, fun _ => ⟨h, tidy_nil _⟩⟩

theorem label (l : Label) (c : Bytes) : Moves lev d (items [.label l c]) d :=
  cast (item (i := .label l c) trivial) (Int.add_zero d)

theorem instr {i : Instr} {c : String} (h : i.Tidy lev d) :
    Moves lev d (instr i c) (d + i.shift) := item (i := .instr i _) h

theorem plain {i : Instr} {c : String} (h : i.isPlain = true) (hd : d ≤ 0) :
    Moves lev d (Emit.instr i c) d :=
  cast (instr (i.tidy_of_isPlain h hd)) (by rw [i.shift_of_isPlain h, Int.add_zero])

theorem plainOf {i : Instr} {c : String} {x : Name} (h : i.isPlain = true) (hd : d ≤ 0) :
    Moves lev d (Emit.instrOf i c x) d :=
  cast (item (i := .instr i _) (i.tidy_of_isPlain h hd))
    (by rw [Item.shift_instr, i.shift_of_isPlain h, Int.add_zero])

theorem jump {i : Instr} {c : String} {l : Label} (h : i.jump? = some l) (hd : d ≤ 0)
    (hl : lev l d) : Moves lev d (Emit.instr i c) d :=
  cast (instr (i.tidy_of_jump h hd hl)) (by rw [i.shift_of_jump h, Int.add_zero])

theorem addi (k : Int) {c : String} (h : d + k ≤ 0) : Moves lev d (addi .sp .sp k c) (d + k) :=
  instr (Instr.tidy_addi k h)

theorem push (r : Reg) {c : String} (hd : d ≤ 0) : Moves lev d (push r c) (d - 4) := by
  refine .bind (addi (-4) (by omega)) fun _ => cast (instr (Instr.tidy_store r ?_ ?_)) ?_
  · omega
  · rw [wordSize_eq]
    omega
  · simp only [Instr.shift]
    omega

/-- A word of the stack is loaded. -/
theorem load {r : Reg} (hr : r ≠ .sp) {k : Int} {c : String} (hk : 0 ≤ k) (hd : k + 4 ≤ -d) :
    Moves lev d (lw r .sp k c) d :=
  cast (instr (Instr.tidy_load hr hk hd)) (Int.add_zero d)

theorem pop {r : Reg} (hr : r ≠ .sp) (hd : d + 4 ≤ 0) : Moves lev d (pop r) (d + 4) :=
  .bind (load hr (Int.le_refl 0) (by omega)) fun _ => addi 4 hd

theorem popDiscard (n : Nat) (hd : d + 4 * n ≤ 0) : Moves lev d (popDiscard n) (d + 4 * n) := by
  have hwords : d + (wordSize * n : Nat) = d + 4 * n := by rw [wordSize_mul]
  exact cast (addi _ (hwords ▸ hd)) hwords

theorem forM {γ : Type} {f : γ → Emit Unit} (hf : ∀ c, Moves lev d (f c) d) :
    ∀ cs : List γ, Moves lev d (cs.forM f) d
  | [] => .pure ()
  | c :: cs => by
    show Moves lev d (f c >>= fun _ => cs.forM f) d
    exact .bind (hf c) fun _ => forM hf cs

end Moves

end Emit

end ChocoRv
