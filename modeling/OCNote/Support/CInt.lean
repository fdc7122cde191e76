import Mathlib.Data.Rat.Floor
import Mathlib.Tactic.Common

/-! # Integer conversions of C on a 64-bit platform

`int` is 32 bits wide and two's complement, `NSUInteger` is 64 bits wide. Mixed
operands are converted to the wider unsigned type before they are compared or used
as an index. A floating point number loses its fraction, and is converted only if what
is left is in the range of the type. -/

namespace OCNote.Support
set_option autoImplicit false

/-- Conversion to `NSUInteger`. -/
def toNSUInteger (z : Int) : Nat := (z % 2 ^ 64).toNat

/-- Conversion to `int`. -/
def toInt32 (z : Int) : Int := z.bmod (2 ^ 32)

theorem toNSUInteger_of_nat {n : Nat} (h : n < 2 ^ 64) : toNSUInteger n = n := by
  unfold toNSUInteger
  omega

theorem toInt32_of_range {z : Int} (h : -2 ^ 31 ≤ z) (h' : z < 2 ^ 31) : toInt32 z = z := by
  unfold toInt32
  rw [Int.bmod_eq_of_le] <;> omega

/-- What is left of a number without its fraction. -/
def truncate (q : Rat) : Int := if 0 ≤ q then ⌊q⌋ else ⌈q⌉

theorem truncate_nonneg_iff {q : Rat} : 0 ≤ truncate q ↔ -1 < q := by
  unfold truncate
  split
  · rename_i hq
    exact iff_of_true (Int.floor_nonneg.mpr hq) (by linarith)
  · have h : -1 < ⌈q⌉ ↔ ((-1 : Int) : Rat) < q := Int.lt_ceil
    rw [Int.cast_neg, Int.cast_one] at h
    exact h

theorem truncate_lt_iff {q : Rat} {n : Int} (hn : 0 < n) : truncate q < n ↔ q < n := by
  unfold truncate
  split
  · exact Int.floor_lt
  · rename_i hq
    have hn' : (0 : Rat) < n := Int.cast_pos.mpr hn
    refine iff_of_true ?_ ((not_le.mp hq).trans hn')
    exact (Int.ceil_le.mpr (by simpa using (not_le.mp hq).le)).trans_lt hn

theorem one_le_truncate_iff {q : Rat} : 1 ≤ truncate q ↔ 1 ≤ q := by
  have h := truncate_lt_iff (q := q) Int.one_pos
  rw [Int.cast_one] at h
  exact not_iff_not.mp (by rw [not_le, not_le, h])

end OCNote.Support
