import Mathlib.Data.List.TakeWhile
import Mathlib.Data.Nat.Notation

/-!
# Strings of bytes

Strings are lists of bytes.  `firstWord` is what `>>` takes from a stream, `rawUInt32` the four
bytes of an unsigned integer as they lie in the memory of a little-endian machine.
-/

namespace KvRaft

/-- A string of bytes. -/
abbrev Bytes := List UInt8

namespace Bytes

/-! ### Words -/

/-- `isspace` in the C locale. -/
def isSpace (b : UInt8) : Bool := b = 0x20 || (0x09 ≤ b && b ≤ 0x0d)

/-- What `>>` into a string takes from a stream: white space is skipped, and the next one ends
the word. -/
def firstWord (data : Bytes) : Bytes := (data.dropWhile isSpace).takeWhile (! isSpace ·)

/-- **A string survives `>>` exactly if it has no white space.** -/
theorem firstWord_eq_self_iff {data : Bytes} :
    firstWord data = data ↔ ∀ b ∈ data, isSpace b = false := by
  constructor
  · intro h b hb
    rw [← h] at hb
    simpa using List.mem_takeWhile_imp hb
  · intro h
    have hdrop : data.dropWhile isSpace = data := by
      cases data with
      | nil => rfl
      | cons b data => rw [List.dropWhile_cons_of_neg]; simpa using h b List.mem_cons_self
    rw [firstWord, hdrop, List.takeWhile_eq_self_iff]
    exact fun b hb => by simp [h b hb]

/-! ### Integers -/

/-- The memory of a 32-bit unsigned integer. -/
def rawUInt32 (n : ℕ) : Bytes :=
  [UInt8.ofNat n, UInt8.ofNat (n / 256), UInt8.ofNat (n / 65536), UInt8.ofNat (n / 16777216)]

end Bytes

end KvRaft
