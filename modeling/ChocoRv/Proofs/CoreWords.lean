import ChocoRv.Proofs.CoreLanguage
import ChocoRv.Proofs.Machine
import Mathlib.Tactic.SplitIfs

/-!
# Values as words

The word that stands for a value, and the operations of the machine on such words: each gives the
word of the result. Division and remainder toward zero are put right where the signs differ.
-/

namespace ChocoRv.Core

open Rv32

namespace Value

def word : Value → Word
  | int n => BitVec.ofInt 32 n
  | bool b => ofBool b

def ty : Value → Ty
  | int _ => .int
  | bool _ => .bool

/-- Integers are numbers of 32 bits. -/
def Fits : Value → Prop
  | int n => wrap n = n
  | bool _ => True

end Value

theorem wrap_wrap (n : Int) : wrap (wrap n) = wrap n := Int.bmod_bmod

theorem ofInt_wrap (n : Int) : BitVec.ofInt 32 (wrap n) = BitVec.ofInt 32 n := by
  rw [← BitVec.toInt_inj, BitVec.toInt_ofInt, BitVec.toInt_ofInt]
  exact Int.bmod_bmod

theorem toInt_of_fits {n : Int} (h : wrap n = n) : (BitVec.ofInt 32 n).toInt = n := by
  rw [BitVec.toInt_ofInt]
  exact h

theorem ofInt_inj {a b : Int} (ha : wrap a = a) (hb : wrap b = b) :
    BitVec.ofInt 32 a = BitVec.ofInt 32 b ↔ a = b := by
  rw [← BitVec.toInt_inj, toInt_of_fits ha, toInt_of_fits hb]

theorem slt_ofInt {a b : Int} (ha : wrap a = a) (hb : wrap b = b) :
    (BitVec.ofInt 32 a).slt (BitVec.ofInt 32 b) = decide (a < b) := by
  rw [BitVec.slt_eq_decide, toInt_of_fits ha, toInt_of_fits hb]

theorem ofInt_eq_zero {a : Int} (ha : wrap a = a) : BitVec.ofInt 32 a = 0 ↔ a = 0 :=
  ofInt_inj (b := 0) ha rfl

/-- A remainder that is not 0 has the sign of the dividend. -/
theorem tmod_neg_iff {a b : Int} (h : a.tmod b ≠ 0) : a.tmod b < 0 ↔ a < 0 := by
  rcases Int.le_total 0 a with ha | ha
  · have := Int.tmod_nonneg b ha
    omega
  · have hneg := Int.tmod_nonneg (a := -a) b (by omega)
    rw [Int.neg_tmod] at hneg
    have ha₀ : a ≠ 0 := fun ha₀ => h (by simp [ha₀])
    omega

/-- Division that rounds down, from division toward zero. -/
theorem fdiv_eq_tdiv_sub (a : Int) {b : Int} (hb : b ≠ 0) :
    a.fdiv b = if a.tmod b = 0 ∨ (a.tmod b < 0 ↔ b < 0) then a.tdiv b else a.tdiv b - 1 := by
  rw [Int.fdiv_eq_tdiv]
  simp only [Int.dvd_iff_tmod_eq_zero]
  by_cases h₀ : a.tmod b = 0
  · simp [h₀]
  · simp only [tmod_neg_iff h₀]
    rcases Int.lt_or_gt_of_ne hb with hb | hb
    · rw [Int.sign_eq_neg_one_of_neg hb]
      split_ifs <;> omega
    · rw [Int.sign_eq_one_of_pos hb]
      split_ifs <;> omega

theorem fmod_eq_tmod_add (a b : Int) :
    a.fmod b = if a.tmod b = 0 ∨ (a.tmod b < 0 ↔ b < 0) then a.tmod b else a.tmod b + b := by
  rw [Int.fmod_eq_tmod]
  simp only [Int.dvd_iff_tmod_eq_zero]
  by_cases h₀ : a.tmod b = 0
  · simp [h₀]
  · simp only [tmod_neg_iff h₀]
    split_ifs <;> omega

section
variable {a b : Int}

theorem wrap_toInt (w : Word) : wrap w.toInt = w.toInt := by
  have h := congrArg BitVec.toInt (BitVec.ofInt_toInt (x := w))
  rwa [BitVec.toInt_ofInt] at h

theorem wrap_tmod (ha : wrap a = a) (hb : wrap b = b) : wrap (a.tmod b) = a.tmod b := by
  have h := wrap_toInt ((BitVec.ofInt 32 a).srem (BitVec.ofInt 32 b))
  rwa [BitVec.toInt_srem, toInt_of_fits ha, toInt_of_fits hb] at h

theorem div_ofInt (ha : wrap a = a) (hb : wrap b = b) (h₀ : b ≠ 0) :
    div (BitVec.ofInt 32 a) (BitVec.ofInt 32 b) = BitVec.ofInt 32 (a.tdiv b) := by
  rw [div, if_neg (mt (ofInt_eq_zero hb).1 h₀), ← BitVec.toInt_inj, BitVec.toInt_sdiv,
    toInt_of_fits ha, toInt_of_fits hb, BitVec.toInt_ofInt]

theorem rem_ofInt (ha : wrap a = a) (hb : wrap b = b) (h₀ : b ≠ 0) :
    rem (BitVec.ofInt 32 a) (BitVec.ofInt 32 b) = BitVec.ofInt 32 (a.tmod b) := by
  rw [rem, if_neg (mt (ofInt_eq_zero hb).1 h₀), ← BitVec.toInt_inj, BitVec.toInt_srem,
    toInt_of_fits ha, toInt_of_fits hb, toInt_of_fits (wrap_tmod ha hb)]

/-- The exclusive or of two words is negative if one of them is and the other is not. -/
theorem slt_xor_zero (ha : wrap a = a) (hb : wrap b = b) :
    (BitVec.ofInt 32 a ^^^ BitVec.ofInt 32 b).slt 0 = !decide (a < 0 ↔ b < 0) := by
  rw [show (0 : Word) = 0#32 from rfl, BitVec.slt_zero_eq_msb, BitVec.msb_xor, BitVec.msb_eq_toInt,
    BitVec.msb_eq_toInt, toInt_of_fits ha, toInt_of_fits hb]
  by_cases h : a < 0 <;> by_cases h' : b < 0 <;> simp [h, h']

end

end ChocoRv.Core
