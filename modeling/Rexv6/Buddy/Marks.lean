import Mathlib.Tactic.Ring
import Rexv6.Buddy.Machine

/-!
Contract: the mark array as one array of marks for each order.

Owns: what the packed links and the bitmaps store, where the marks of each
order lie, and which mark a store changes.

Does not own: any property of the free lists.
-/

namespace Rexv6.Buddy

/-! ## Links -/

theorem and_low (value : Nat) : value &&& 65535 = value % 65536 :=
  Nat.and_two_pow_sub_one_eq_mod value 16

theorem lnks_toNat (pre next : Nat) :
    (lnks pre next).toNat = (pre % 65536) * 65536 + next % 65536 := by
  have high : (pre % 2 ^ 32) <<< 16 % 2 ^ 32 = (pre % 65536) <<< 16 := by
    omega
  have low : next % 2 ^ 32 &&& 65535 = next % 65536 := by
    rw [and_low]
    omega
  have sum := Nat.shiftLeft_add_eq_or_of_lt (i := 16) (b := next % 65536)
    (Nat.mod_lt _ (by decide)) (pre % 65536)
  simp only [lnks, BitVec.toNat_or, BitVec.toNat_shiftLeft, BitVec.toNat_and, BitVec.toNat_ofNat]
  rw [high]
  rw [low, ← sum, Nat.shiftLeft_eq]

theorem preLnk_lnks (pre next : Nat) : preLnk (lnks pre next) = pre % 65536 := by
  rw [preLnk, BitVec.toNat_ushiftRight, lnks_toNat, Nat.shiftRight_eq_div_pow]
  omega

theorem nextLnk_lnks (pre next : Nat) : nextLnk (lnks pre next) = next % 65536 := by
  rw [nextLnk, BitVec.toNat_and, lnks_toNat]
  change _ &&& 65535 = _
  rw [and_low]
  omega

/-! ## Bits -/

theorem available_eq (bitmap : BitVec 32) (blkId : Nat) :
    available bitmap blkId = bitmap.getLsbD (blkId % 32) := by
  have small : blkId % 32 < 32 := Nat.mod_lt _ (by decide)
  rw [available, bit, ← BitVec.twoPow_eq, BitVec.and_twoPow]
  cases isSet : bitmap.getLsbD (blkId % 32) with
  | false => simp
  | true =>
    refine bne_iff_ne.mpr fun zero => ?_
    have sameBit := congrArg (fun word => word.getLsbD (blkId % 32)) zero
    simp [small] at sameBit

theorem available_or_bit (bitmap : BitVec 32) (blkId other : Nat) :
    available (bitmap ||| bit blkId) other =
      (available bitmap other || decide (other % 32 = blkId % 32)) := by
  simp only [available_eq, BitVec.getLsbD_or, bit, ← BitVec.twoPow_eq, BitVec.getLsbD_twoPow]
  congr 1
  by_cases same : other % 32 = blkId % 32
  · simp [same, Nat.mod_lt]
  · simp [same, Ne.symm same]

theorem available_and_not_bit (bitmap : BitVec 32) (blkId other : Nat) :
    available (bitmap &&& ~~~ bit blkId) other =
      (available bitmap other && decide (other % 32 ≠ blkId % 32)) := by
  have small : other % 32 < 32 := Nat.mod_lt _ (by decide)
  simp only [available_eq, BitVec.getLsbD_and, BitVec.getLsbD_not, bit, ← BitVec.twoPow_eq,
    BitVec.getLsbD_twoPow, small]
  by_cases same : other % 32 = blkId % 32
  · simp [same, Nat.mod_lt]
  · simp [same, Ne.symm same]

theorem bitmap_ne_zero_iff (bitmap : BitVec 32) :
    bitmap ≠ 0#32 ↔ ∃ i < 32, available bitmap i = true := by
  constructor
  · intro nonzero
    by_contra none
    apply nonzero
    apply BitVec.eq_of_getLsbD_eq
    intro i small
    rw [BitVec.getLsbD_zero]
    have unset : available bitmap i ≠ true := fun isSet => none ⟨i, small, isSet⟩
    rw [available_eq, Nat.mod_eq_of_lt small] at unset
    exact Bool.eq_false_of_not_eq_true unset
  · rintro ⟨i, -, isSet⟩ rfl
    simp [available_eq] at isSet

/-! ## Where the marks lie -/

def InRange (order : Nat) : Prop := minOrd ≤ order ∧ order ≤ maxOrd

instance (order : Nat) : Decidable (InRange order) := by
  unfold InRange
  infer_instance

/-- The number of marks of an order, when the highest order has `n`. -/
def markCount (n order : Nat) : Nat := n * 2 ^ (maxOrd - order)

/-- The offsets that `buddy_init` gives the orders. -/
def Layout (n : Nat) (k : Kmem) : Prop :=
  ∀ order, InRange order → (k.ord order).offset + n = markCount n order

theorem markCount_lower {n low high : Nat} (below : low < high) (inRange : high ≤ maxOrd) :
    2 * markCount n high ≤ markCount n low := by
  unfold markCount
  have gap : maxOrd - low = (maxOrd - high) + (high - low - 1) + 1 := by omega
  have one : 1 ≤ 2 ^ (high - low - 1) := Nat.one_le_two_pow
  rw [gap, pow_succ, pow_add]
  calc 2 * (n * 2 ^ (maxOrd - high)) = n * (2 ^ (maxOrd - high) * 1 * 2) := by ring
    _ ≤ n * (2 ^ (maxOrd - high) * 2 ^ (high - low - 1) * 2) := by gcongr

section Layout

variable {n : Nat} {k : Kmem}

/-- Marks of different orders, or different marks of one order, lie apart. -/
theorem Layout.injective (layout : Layout n k) {order other idx otherIdx : Nat}
    (range : InRange order) (otherRange : InRange other) (inside : idx < markCount n order)
    (otherInside : otherIdx < markCount n other)
    (same : (k.ord order).offset + idx = (k.ord other).offset + otherIdx) :
    order = other ∧ idx = otherIdx := by
  have offset := layout order range
  have otherOffset := layout other otherRange
  rcases Nat.lt_trichotomy order other with below | rfl | above
  · have gap := markCount_lower (n := n) below otherRange.2
    omega
  · exact ⟨rfl, by omega⟩
  · have gap := markCount_lower (n := n) above range.2
    omega

@[simp] theorem Kmem.ord_setMark (order idx other : Nat) (mark : Mark) :
    (k.setMark order idx mark).ord other = k.ord other := rfl

theorem Kmem.ord_setHead {order other : Nat} (head : Nat) (range : InRange order)
    (otherRange : InRange other) :
    (k.setHead order head).ord other =
      if other = order then { k.ord order with head } else k.ord other := by
  obtain ⟨low, -⟩ := range
  obtain ⟨otherLow, -⟩ := otherRange
  by_cases same : other = order
  · subst same
    simp [Kmem.setHead, Kmem.ord]
  · have apart : other - minOrd ≠ order - minOrd := by omega
    simp [Kmem.setHead, Kmem.ord, Function.update_of_ne apart, same]

theorem Kmem.offset_setHead {order other : Nat} (head : Nat) (range : InRange order)
    (otherRange : InRange other) :
    ((k.setHead order head).ord other).offset = (k.ord other).offset := by
  rw [Kmem.ord_setHead head range otherRange]
  split
  · subst_vars
    rfl
  · rfl

theorem Kmem.getMark_setHead {order other : Nat} (head idx : Nat) (range : InRange order)
    (otherRange : InRange other) :
    (k.setHead order head).getMark other idx = k.getMark other idx := by
  unfold Kmem.getMark
  rw [Kmem.offset_setHead head range otherRange]
  rfl

theorem Layout.setMark (layout : Layout n k) (order idx : Nat) (mark : Mark) :
    Layout n (k.setMark order idx mark) := layout

theorem Layout.setHead (layout : Layout n k) {order : Nat} (range : InRange order) (head : Nat) :
    Layout n (k.setHead order head) := by
  intro other otherRange
  rw [Kmem.offset_setHead head range otherRange]
  exact layout other otherRange

theorem Layout.getMark_setMark (layout : Layout n k) {order other idx otherIdx : Nat}
    (range : InRange order) (otherRange : InRange other) (inside : idx < markCount n order)
    (otherInside : otherIdx < markCount n other) (mark : Mark) :
    (k.setMark order idx mark).getMark other otherIdx =
      if other = order ∧ otherIdx = idx then mark else k.getMark other otherIdx := by
  unfold Kmem.getMark
  rw [Kmem.ord_setMark]
  simp only [Kmem.setMark]
  by_cases same : other = order ∧ otherIdx = idx
  · obtain ⟨rfl, rfl⟩ := same
    simp
  · rw [if_neg same, Function.update_of_ne]
    intro clash
    exact same (layout.injective otherRange range otherInside inside clash)

end Layout

end Rexv6.Buddy
