import Mathlib.Data.Nat.Basic
import Mathlib.Algebra.Order.Group.Nat
import Mathlib.Tactic.Ring

/-!
Contract: byte arrays and the little-endian integers stored in them.

Owns: reading and writing a `width`-byte little-endian integer at a byte
offset, the read-after-write law, and the frame law for writes that do not
touch the bytes that are read.

Does not own: any record layout. A caller fixes offsets and widths and obtains
its field lemmas from the two laws below.
-/

namespace Rexv6.Foundation.LittleEndian

/-- A byte array, indexed by offset. Callers bound the offsets they use. -/
abbrev Bytes := Nat → UInt8

/-- The little-endian integer in the `width` bytes from `offset`. -/
def getLe (bytes : Bytes) : (offset width : Nat) → Nat
  | _, 0 => 0
  | offset, width + 1 => (bytes offset).toNat + 256 * getLe bytes (offset + 1) width

/-- Store `value` little-endian in the `width` bytes from `offset`. -/
def setLe (bytes : Bytes) (offset width value : Nat) : Bytes := fun index =>
  if offset ≤ index ∧ index < offset + width then
    UInt8.ofNat (value / 256 ^ (index - offset))
  else
    bytes index

theorem getLe_congr {left right : Bytes} {offset width : Nat}
    (agree : ∀ index, offset ≤ index → index < offset + width → left index = right index) :
    getLe left offset width = getLe right offset width := by
  induction width generalizing offset with
  | zero => rfl
  | succ width ih =>
    simp only [getLe]
    rw [agree offset (by omega) (by omega), ih]
    intro index low high
    exact agree index (by omega) (by omega)

theorem getLe_lt (bytes : Bytes) (offset width : Nat) :
    getLe bytes offset width < 256 ^ width := by
  induction width generalizing offset with
  | zero => simp [getLe]
  | succ width ih =>
    have head := (bytes offset).toNat_lt
    have tail := ih (offset + 1)
    simp only [getLe, pow_succ]
    omega

theorem setLe_outside (bytes : Bytes) {offset width value index : Nat}
    (outside : index < offset ∨ offset + width ≤ index) :
    setLe bytes offset width value index = bytes index := by
  unfold setLe
  rw [if_neg (by omega)]

/-- Frame law: a read that shares no byte with the write is unchanged. -/
theorem getLe_setLe_disjoint (bytes : Bytes) {offset width value start count : Nat}
    (disjoint : start + count ≤ offset ∨ offset + width ≤ start) :
    getLe (setLe bytes offset width value) start count = getLe bytes start count := by
  apply getLe_congr
  intro index low high
  exact setLe_outside bytes (by omega)

private theorem getLe_eq_mod (bytes : Bytes) (value width : Nat) :
    ∀ offset, (∀ index, index < width →
      (bytes (offset + index)).toNat = value / 256 ^ index % 256) →
      getLe bytes offset width = value % 256 ^ width := by
  induction width generalizing value with
  | zero => intro offset _; simp [getLe, Nat.mod_one]
  | succ width ih =>
    intro offset stored
    have head := stored 0 (by omega)
    have tail : getLe bytes (offset + 1) width = value / 256 % 256 ^ width := by
      apply ih (value / 256) (offset + 1)
      intro index below
      rw [show offset + 1 + index = offset + (index + 1) by omega,
        stored (index + 1) (by omega), pow_succ, Nat.mul_comm, Nat.div_div_eq_div_mul]
    simp only [getLe]
    rw [tail, show offset = offset + 0 by omega, head, pow_zero, Nat.div_one, pow_succ,
      Nat.mul_comm (256 ^ width), Nat.mod_mul]

theorem getLe_setLe (bytes : Bytes) (offset width value : Nat) :
    getLe (setLe bytes offset width value) offset width = value % 256 ^ width := by
  apply getLe_eq_mod
  intro index below
  unfold setLe
  rw [if_pos (by omega), Nat.add_sub_cancel_left, UInt8.toNat_ofNat']

theorem getLe_setLe_of_lt (bytes : Bytes) {offset width value : Nat}
    (fits : value < 256 ^ width) :
    getLe (setLe bytes offset width value) offset width = value := by
  rw [getLe_setLe, Nat.mod_eq_of_lt fits]

end Rexv6.Foundation.LittleEndian
