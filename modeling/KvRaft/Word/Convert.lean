import Mathlib.Algebra.Group.Int.Defs
import Mathlib.Algebra.Group.Nat.Defs

/-!
# Conversions of machine integers

Conversions between `uint64_t` and `int`, modulo `2 ^ 32` and `2 ^ 64`: narrowing keeps the low
bits, and widening extends the sign.
-/

namespace KvRaft

namespace Word

/-- A `uint64_t` as an `int`. -/
def narrow (v : UInt64) : Int32 := v.toInt64.toInt32

/-- An `int` as a `uint64_t`. -/
def widen (v : Int32) : UInt64 := v.toInt64.toUInt64

@[simp] theorem narrow_widen (v : Int32) : narrow (widen v) = v := by
  simp [narrow, widen]

theorem toInt_narrow (v : UInt64) : (narrow v).toInt = (v.toNat : ℤ).bmod (2 ^ 32) := by
  have hsigned : v.toInt64.toInt = (v.toNat : ℤ).bmod (2 ^ 64) := BitVec.toInt_eq_toNat_bmod _
  rw [narrow, Int64.toInt_toInt32, hsigned]
  exact Int.bmod_bmod_of_dvd ⟨2 ^ 32, rfl⟩

/-- The value of a narrowed number: its low bits, if the upper one of them is not set. -/
theorem toInt_narrow_of_lt {v : UInt64} (h : v.toNat % 2 ^ 32 < 2 ^ 31) :
    (narrow v).toInt = (v.toNat % 2 ^ 32 : ℕ) := by
  rw [toInt_narrow, Int.bmod_def]
  omega

theorem toInt_narrow_of_ge {v : UInt64} (h : 2 ^ 31 ≤ v.toNat % 2 ^ 32) :
    (narrow v).toInt = (v.toNat % 2 ^ 32 : ℕ) - 2 ^ 32 := by
  rw [toInt_narrow, Int.bmod_def]
  omega

/-- The value of a widened number: that of the number, if it is not negative. -/
theorem toNat_widen (v : Int32) :
    ((widen v).toNat : ℤ) = if v.toInt < 0 then v.toInt + 2 ^ 64 else v.toInt := by
  have hsigned : v.toInt64.toBitVec.toInt = v.toInt := v.toInt_toInt64
  rw [BitVec.toInt_eq_toNat_cond] at hsigned
  have hwiden : (widen v).toNat = v.toInt64.toBitVec.toNat := rfl
  have hlt := (widen v).toNat_lt
  split at hsigned <;> split <;> omega

end Word

end KvRaft
