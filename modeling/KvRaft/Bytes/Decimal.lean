import KvRaft.Bytes.Basic
import Mathlib.Data.Nat.Digits.Defs

/-!
# Decimal numbers

`decimal` is `std::to_string`: the digits of an integer, after a minus sign if it is negative.
Different integers have different numerals (`Bytes.decimal_inj`).
-/

namespace KvRaft

namespace Bytes

/-- The numeral of a digit. -/
def digit (d : ℕ) : UInt8 := UInt8.ofNat (0x30 + d)

/-- The digits of a number, the last one first. -/
def digitsOf (n : ℕ) : List ℕ := if n = 0 then [0] else Nat.digits 10 n

def decimalNat (n : ℕ) : Bytes := (digitsOf n).reverse.map digit

/-- `std::to_string`. -/
def decimal : ℤ → Bytes
  | .ofNat n => decimalNat n
  | .negSucc n => 0x2d :: decimalNat (n + 1)

/-- A digit or the minus sign. -/
def IsDecimal (b : UInt8) : Prop := b = 0x2d ∨ 0x30 ≤ b.toNat ∧ b.toNat ≤ 0x39

variable {n m : ℕ} {i j : ℤ} {b : UInt8}

theorem digitsOf_lt {d : ℕ} (h : d ∈ digitsOf n) : d < 10 := by
  unfold digitsOf at h
  split_ifs at h
  · rw [List.mem_singleton.1 h]
    decide
  · exact Nat.digits_lt_base (by decide) h

theorem ofDigits_digitsOf (n : ℕ) : Nat.ofDigits 10 (digitsOf n) = n := by
  unfold digitsOf
  split_ifs with h
  · rw [h]
    rfl
  · exact Nat.ofDigits_digits 10 n

theorem toNat_digit {d : ℕ} (h : d < 10) : (digit d).toNat = 0x30 + d := by
  rw [digit, UInt8.toNat_ofNat']
  omega

/-- The digits can be read back. -/
theorem map_digit (n : ℕ) :
    (decimalNat n).reverse.map (fun b => b.toNat - 0x30) = digitsOf n := by
  rw [decimalNat, ← List.map_reverse, List.reverse_reverse, List.map_map]
  conv_rhs => rw [← List.map_id (digitsOf n)]
  refine List.map_congr_left fun d hd => ?_
  rw [Function.comp_apply, toNat_digit (digitsOf_lt hd), id]
  omega

theorem decimalNat_inj (h : decimalNat n = decimalNat m) : n = m := by
  have hdigits : digitsOf n = digitsOf m := by
    rw [← map_digit n, ← map_digit m, h]
  rw [← ofDigits_digitsOf n, ← ofDigits_digitsOf m, hdigits]

theorem mem_decimalNat (h : b ∈ decimalNat n) : 0x30 ≤ b.toNat ∧ b.toNat ≤ 0x39 := by
  obtain ⟨d, hd, rfl⟩ := List.mem_map.1 h
  have hlt := digitsOf_lt (List.mem_reverse.1 hd)
  rw [toNat_digit hlt]
  omega

theorem mem_decimal (h : b ∈ decimal i) : IsDecimal b := by
  cases i with
  | ofNat n => exact .inr (mem_decimalNat h)
  | negSucc n =>
    rcases List.mem_cons.1 h with rfl | h
    · exact .inl rfl
    · exact .inr (mem_decimalNat h)

/-- A numeral without a sign does not start with one. -/
theorem decimalNat_ne_cons (n : ℕ) (s : Bytes) : decimalNat n ≠ 0x2d :: s := by
  intro h
  have hminus : (0x2d : UInt8) ∈ decimalNat n := h ▸ List.mem_cons_self
  exact absurd (mem_decimalNat hminus).1 (by decide)

/-- **Different integers have different numerals.** -/
theorem decimal_inj : decimal i = decimal j ↔ i = j := by
  refine ⟨fun h => ?_, fun h => h ▸ rfl⟩
  cases i with
  | ofNat n =>
    cases j with
    | ofNat m => rw [decimalNat_inj h]
    | negSucc m => exact absurd h (decimalNat_ne_cons n _)
  | negSucc n =>
    cases j with
    | ofNat m => exact absurd h.symm (decimalNat_ne_cons m _)
    | negSucc m => rw [Nat.succ_injective (decimalNat_inj (List.cons.inj h).2)]

end Bytes

end KvRaft
