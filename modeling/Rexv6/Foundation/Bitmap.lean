import Mathlib.Logic.Function.Basic
import Rexv6.Foundation.LittleEndian

/-!
Contract: bit sets stored in byte arrays, eight bits a byte, lowest bit first.

Owns: testing, setting and clearing a bit with the usual mask, and the laws
between them.

Does not own: what a bit stands for.
-/

namespace Rexv6.Foundation.Bitmap

open Rexv6.Foundation.LittleEndian

/-- `1 << (bit % 8)`. -/
def mask (bit : Nat) : UInt8 := UInt8.ofBitVec (BitVec.twoPow 8 (bit % 8))

/-- `(data[bit / 8] & mask) != 0`. -/
def getBit (data : Bytes) (bit : Nat) : Bool := data (bit / 8) &&& mask bit ≠ 0

/-- `data[bit / 8] |= mask`. -/
def setBit (data : Bytes) (bit : Nat) : Bytes :=
  Function.update data (bit / 8) (data (bit / 8) ||| mask bit)

/-- `data[bit / 8] &= ~mask`. -/
def clearBit (data : Bytes) (bit : Nat) : Bytes :=
  Function.update data (bit / 8) (data (bit / 8) &&& ~~~mask bit)

theorem getBit_eq (data : Bytes) (bit : Nat) :
    getBit data bit = (data (bit / 8)).toBitVec.getLsbD (bit % 8) := by
  have below : bit % 8 < 8 := Nat.mod_lt _ (by decide)
  rw [Bool.eq_iff_iff]
  unfold getBit
  rw [decide_eq_true_iff, ne_eq, ← UInt8.toBitVec_inj]
  constructor
  · intro nonzero
    by_contra clear
    apply nonzero
    apply BitVec.eq_of_getLsbD_eq
    intro index _
    by_cases same : bit % 8 = index
    · subst same
      simp [mask, Bool.eq_false_iff.mpr clear]
    · simp [mask, same]
  · intro isSet zero
    have bitZero := congrArg (fun byte => BitVec.getLsbD byte (bit % 8)) zero
    simp only [mask, UInt8.toBitVec_and, BitVec.getLsbD_and, isSet, Bool.true_and,
      BitVec.getLsbD_twoPow, below, decide_true] at bitZero
    simp at bitZero

theorem getBit_setBit (data : Bytes) (bit other : Nat) :
    getBit (setBit data bit) other = (getBit data other || decide (other = bit)) := by
  rw [getBit_eq, getBit_eq]
  unfold setBit
  by_cases sameByte : other / 8 = bit / 8
  · rw [sameByte, Function.update_self]
    have sameBit : (other % 8 = bit % 8) = (other = bit) := by
      apply propext
      omega
    simp [mask, Nat.mod_lt, sameBit]
  · have different : other ≠ bit := by
      rintro rfl
      exact sameByte rfl
    rw [Function.update_of_ne sameByte]
    simp [different]

end Rexv6.Foundation.Bitmap
