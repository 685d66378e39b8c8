import Mathlib.Order.Bounds.Defs
import Rexv6.Buddy.Sized
import Rexv6.Klib.VectorCells

/-!
Contract: the two ways in which the kernel rounds a size up to a power of two.

Owns: the agreement of `roundup_powerof2` with `Vector::get_capacity`, what both compute,
and the orders that `buddy_get_order` takes from it.

Does not own: the loops of the two functions.
-/

namespace Rexv6.Buddy

open Rexv6.Klib.Vector

def powersFrom (n : Nat) : Set Nat := { p | p.isPowerOfTwo ∧ n ≤ p }

def ordersFrom (n : Nat) : Set Nat := { order | minOrd ≤ order ∧ order ≤ maxOrd ∧ n ≤ 2 ^ order }

theorem pow_clog_isLeast (n : Nat) : IsLeast (powersFrom n) (2 ^ Nat.clog 2 n) := by
  constructor
  · exact ⟨⟨_, rfl⟩, Nat.le_pow_clog Nat.one_lt_two n⟩
  · rintro power ⟨⟨k, isPower⟩, covers⟩
    rw [isPower] at covers ⊢
    exact Nat.pow_le_pow_right (by decide) ((Nat.clog_le_iff_le_pow Nat.one_lt_two).mpr covers)

theorem max_clog_isLeast {n : Nat} (fits : n ≤ 2 ^ maxOrd) :
    IsLeast (ordersFrom n) (max minOrd (Nat.clog 2 n)) := by
  constructor
  · refine ⟨le_max_left _ _, ?_, ?_⟩
    · exact max_le (by decide) ((Nat.clog_le_iff_le_pow Nat.one_lt_two).mpr fits)
    · exact (Nat.clog_le_iff_le_pow Nat.one_lt_two).mp (le_max_right _ _)
  · rintro order ⟨atLeast, -, covers⟩
    exact max_le atLeast ((Nat.clog_le_iff_le_pow Nat.one_lt_two).mpr covers)

theorem roundupPowerof2_eq_getCapacity (v : BitVec 32) :
    (roundupPowerof2 v).toNat = getCapacity v.toNat := by
  by_cases zero : v = 0#32
  · rw [zero]
    decide
  · have some : v.toNat ≠ 0 := by
      intro isZero
      exact zero (BitVec.eq_of_toNat_eq isZero)
    rw [toNat_roundupPowerof2 (Nat.pos_of_ne_zero some), getCapacity_eq some v.isLt]

/-- Up to `2 ^ 31` the next power of two fits in a word. -/
theorem roundupPowerof2_isLeast {v : BitVec 32} (positive : 1 ≤ v.toNat)
    (small : v.toNat ≤ 2 ^ 31) : IsLeast (powersFrom v.toNat) (roundupPowerof2 v).toNat := by
  have fits : 2 ^ Nat.clog 2 v.toNat ≤ 2 ^ 31 :=
    Nat.pow_le_pow_right (by decide) ((Nat.clog_le_iff_le_pow Nat.one_lt_two).mpr small)
  rw [toNat_roundupPowerof2 positive, Nat.mod_eq_of_lt (by omega)]
  exact pow_clog_isLeast v.toNat

/-- The two roundings agree on all words. From `1` to `2 ^ 31` both give the least power of
two that is large enough. `buddy_get_order` refuses `0` and what no block can hold, and gives
the least order that is large enough otherwise. -/
theorem roundings_agree (v : BitVec 32) :
    (roundupPowerof2 v).toNat = getCapacity v.toNat ∧
      (1 ≤ v.toNat → v.toNat ≤ 2 ^ 31 →
        IsLeast (powersFrom v.toNat) (roundupPowerof2 v).toNat ∧
          IsLeast (powersFrom v.toNat) (getCapacity v.toNat)) ∧
      (v.toNat = 0 ∨ 2 ^ maxOrd < v.toNat →
        buddyGetOrder v = .error (.panic "buddy_get_order: order too big!")) ∧
      (1 ≤ v.toNat → v.toNat ≤ 2 ^ maxOrd →
        ∃ order, buddyGetOrder v = .ok order ∧ IsLeast (ordersFrom v.toNat) order) := by
  have agree := roundupPowerof2_eq_getCapacity v
  refine ⟨agree, ?_, ?_, ?_⟩
  · intro positive small
    rw [← agree]
    exact ⟨roundupPowerof2_isLeast positive small, roundupPowerof2_isLeast positive small⟩
  · rintro (isZero | large)
    · rw [show v = 0#32 from BitVec.eq_of_toNat_eq isZero]
      exact buddyGetOrder_zero
    · exact buddyGetOrder_high large
  · intro positive fits
    refine ⟨_, ?_, max_clog_isLeast fits⟩
    rw [buddyGetOrder_eq positive, if_pos fits]

end Rexv6.Buddy
