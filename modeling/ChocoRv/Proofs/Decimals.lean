import ChocoRv.Text.Class
import Mathlib.Data.List.Induction
import Mathlib.Logic.Function.Basic

/-!
# Decimal numbers

`decimal` writes a number and `Bytes.value` reads it back. The other way round, a run of digits
without a leading zero is the decimal text of its value.
-/

namespace ChocoRv

theorem Byte.isDigit_iff {b : UInt8} : Byte.isDigit b = true ↔ 48 ≤ b.toNat ∧ b.toNat ≤ 57 := by
  rw [isDigit, Bool.and_eq_true, decide_eq_true_eq, decide_eq_true_eq, UInt8.le_iff_toNat_le,
    UInt8.le_iff_toNat_le]
  exact Iff.rfl

theorem toNat_toUInt8_of_isDigit {c : Char} (h : c.isDigit = true) :
    c.toUInt8.toNat = c.toNat := by
  have h₉ : c.toNat ≤ 57 := (Char.isDigit_iff_toNat.1 h).2
  rw [Char.toUInt8, UInt32.toNat_toUInt8]
  exact Nat.mod_eq_of_lt (by show c.toNat < 2 ^ 8; omega)

theorem isDigit_of_mem_decimal {n : Nat} {b : UInt8} (h : b ∈ decimal n) :
    Byte.isDigit b = true := by
  obtain ⟨c, hc, rfl⟩ := List.mem_map.1 h
  have hdigit := Nat.isDigit_of_mem_toDigits (by omega) (by omega) hc
  rw [Byte.isDigit_iff, toNat_toUInt8_of_isDigit hdigit]
  exact Char.isDigit_iff_toNat.1 hdigit

theorem value_map_toUInt8 {cs : List Char} (h : ∀ c ∈ cs, c.isDigit = true) (acc : Nat) :
    (cs.map Char.toUInt8).foldl (fun acc d => 10 * acc + (d.toNat - '0'.toNat)) acc =
      Nat.ofDigitChars 10 cs acc := by
  induction cs generalizing acc with
  | nil => rfl
  | cons c cs ih =>
    obtain ⟨hc, hcs⟩ := List.forall_mem_cons.1 h
    rw [List.map_cons, List.foldl_cons, ih hcs, Nat.ofDigitChars_cons, toNat_toUInt8_of_isDigit hc]

theorem value_decimal (n : Nat) : Bytes.value (decimal n) = n := by
  rw [Bytes.value, decimal, value_map_toUInt8, Nat.ofDigitChars_ten_toDigits]
  exact fun c hc => Nat.isDigit_of_mem_toDigits (by omega) (by omega) hc

theorem decimal_injective : Function.Injective decimal :=
  Function.LeftInverse.injective value_decimal

namespace Bytes

theorem value_append_singleton (ds : Bytes) (d : UInt8) :
    value (ds ++ [d]) = 10 * value ds + (d.toNat - '0'.toNat) := by
  rw [value, List.foldl_append]
  rfl

theorem value_le_value_append (ds es : Bytes) : value ds ≤ value (ds ++ es) := by
  induction es using List.reverseRecOn with
  | nil => simp
  | append_singleton es e ih =>
    rw [← List.append_assoc, value_append_singleton]
    omega

/-- A number that does not start with a zero is not zero. -/
theorem value_pos {d : UInt8} {ds : Bytes} (hd : Byte.isDigit d = true) (hne : d ≠ '0'.toUInt8) :
    0 < value (d :: ds) := by
  have hle := value_le_value_append [d] ds
  have h₀ : 48 ≤ d.toNat := (Byte.isDigit_iff.1 hd).1
  have hne : d.toNat ≠ 48 := fun h => hne (UInt8.toNat_inj.1 h)
  have hd : value [d] = d.toNat - 48 := by simp [value]
  rw [hd] at hle
  rw [← List.singleton_append]
  omega

end Bytes

theorem decimal_digit {d : UInt8} (hd : Byte.isDigit d = true) :
    decimal (d.toNat - '0'.toNat) = [d] := by
  obtain ⟨h₀, h₉⟩ := Byte.isDigit_iff.1 hd
  have key : ∀ k : Nat, k < 10 → decimal k = [UInt8.ofNat (k + 48)] := by decide
  rw [show '0'.toNat = 48 from rfl, key _ (by omega), Nat.sub_add_cancel h₀, UInt8.ofNat_toNat]

/-- Digits without a leading zero are the decimal text of their value. -/
theorem decimal_value {ds : Bytes} (hne : ds ≠ []) (hds : ∀ d ∈ ds, Byte.isDigit d = true)
    (hzero : ds.head? = some '0'.toUInt8 → ds.length = 1) : decimal (Bytes.value ds) = ds := by
  induction ds using List.reverseRecOn with
  | nil => exact absurd rfl hne
  | append_singleton init d ih =>
    have hd : Byte.isDigit d = true := hds d (by simp)
    rw [Bytes.value_append_singleton]
    cases init with
    | nil => simpa [Bytes.value] using decimal_digit hd
    | cons e es =>
      have he : e ≠ '0'.toUInt8 := by
        rintro rfl
        simpa using hzero rfl
      have hpos : 0 < Bytes.value (e :: es) := Bytes.value_pos (hds e (by simp)) he
      have hlt : d.toNat - '0'.toNat < 10 := by
        have h₉ := (Byte.isDigit_iff.1 hd).2
        rw [show '0'.toNat = 48 from rfl]
        omega
      have ih := ih (by simp) (fun b hb => hds b (List.mem_append_left _ hb))
        (fun h => absurd (Option.some.inj h) he)
      rw [decimal, ← Nat.toDigits_append_toDigits (by decide) hpos hlt, List.map_append]
      exact congrArg₂ (· ++ ·) ih (decimal_digit hd)

end ChocoRv
