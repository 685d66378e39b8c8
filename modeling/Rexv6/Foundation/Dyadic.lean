import Mathlib.Algebra.Order.Group.Nat
import Mathlib.Algebra.Ring.Nat

/-!
Contract: sets of dyadic blocks in which no two halves of a block are left apart.

Owns: the block of an order that holds a place, packed sets of blocks, and the
fact that a packed set is determined by the places it covers.

Does not own: any allocator.
-/

namespace Rexv6.Foundation.Dyadic

/-! Block `id` of order `order` is the set of places `x` with
`x / 2 ^ order = id`. -/

/-- A set of blocks of orders `low` to `high`, no two of them over one place and
no two of them the halves of one block. -/
structure Packed (low high : Nat) (free : Nat → Nat → Prop) : Prop where
  range : ∀ order id, free order id → low ≤ order ∧ order ≤ high
  once : ∀ x first second, free first (x / 2 ^ first) → free second (x / 2 ^ second) →
    first = second
  merged : ∀ order id, order < high → free order (2 * id) → ¬ free order (2 * id + 1)

/-- Every place of the block is in a block of the set. -/
def Covered (free : Nat → Nat → Prop) (order id : Nat) : Prop :=
  ∀ x, x / 2 ^ order = id → ∃ other, free other (x / 2 ^ other)

theorem div_succ (x order : Nat) : x / 2 ^ (order + 1) = x / 2 ^ order / 2 := by
  rw [pow_succ, Nat.div_div_eq_div_mul]

theorem div_first (order id : Nat) : id * 2 ^ order / 2 ^ order = id :=
  Nat.mul_div_cancel id (Nat.two_pow_pos order)

theorem div_above {x y order other : Nat} (above : order ≤ other)
    (same : x / 2 ^ order = y / 2 ^ order) : x / 2 ^ other = y / 2 ^ other := by
  obtain ⟨more, rfl⟩ := Nat.exists_eq_add_of_le above
  rw [pow_add, ← Nat.div_div_eq_div_mul, ← Nat.div_div_eq_div_mul, same]

section Packing

variable {low high : Nat} {free : Nat → Nat → Prop}

/-- A block whose places are all covered by blocks no larger than it is itself
in the set. -/
theorem Packed.full (packed : Packed low high free) {order : Nat} (above : low ≤ order)
    (below : order ≤ high) {id : Nat}
    (covered : ∀ x, x / 2 ^ order = id → ∃ other, other ≤ order ∧ free other (x / 2 ^ other)) :
    free order id := by
  induction order, above using Nat.le_induction generalizing id with
  | base =>
    obtain ⟨other, small, isFree⟩ := covered (id * 2 ^ low) (div_first low id)
    have isLow : other = low := le_antisymm small (packed.range _ _ isFree).1
    rw [isLow, div_first] at isFree
    exact isFree
  | succ order above ih =>
    by_contra notFree
    -- Neither half may be covered by the block itself, so both are in the set.
    have half : ∀ child, child / 2 = id → free order child := by
      intro child isHalf
      apply ih (by omega)
      intro x isChild
      have inBlock : x / 2 ^ (order + 1) = id := by rw [div_succ, isChild, isHalf]
      obtain ⟨other, small, isFree⟩ := covered x inBlock
      rcases Nat.eq_or_lt_of_le small with rfl | less
      · rw [inBlock] at isFree
        exact absurd isFree notFree
      · exact ⟨other, Nat.le_of_lt_succ less, isFree⟩
    exact packed.merged order id below (half (2 * id) (by omega)) (half (2 * id + 1) (by omega))

/-- A covered block lies in one block of the set. -/
theorem Packed.above (packed : Packed low high free) {order id : Nat} (least : low ≤ order)
    (most : order ≤ high) (covered : Covered free order id) :
    ∃ other, order ≤ other ∧ ∀ x, x / 2 ^ order = id → free other (x / 2 ^ other) := by
  by_cases larger : ∃ x other, x / 2 ^ order = id ∧ order ≤ other ∧ free other (x / 2 ^ other)
  · obtain ⟨x, other, isBlock, above, isFree⟩ := larger
    refine ⟨other, above, fun y sameBlock => ?_⟩
    rw [div_above above (sameBlock.trans isBlock.symm)]
    exact isFree
  · have isFree : free order id := by
      apply packed.full least most
      intro x isBlock
      obtain ⟨other, isFree⟩ := covered x isBlock
      exact ⟨other, Nat.le_of_not_le fun above => larger ⟨x, other, isBlock, above, isFree⟩, isFree⟩
    refine ⟨order, le_rfl, fun x isBlock => ?_⟩
    rw [isBlock]
    exact isFree

/-- The blocks of a packed set are the largest blocks it covers. -/
theorem Packed.free_iff (packed : Packed low high free) {order id : Nat} (least : low ≤ order)
    (most : order ≤ high) :
    free order id ↔
      Covered free order id ∧ (order = high ∨ ¬ Covered free (order + 1) (id / 2)) := by
  constructor
  · intro isFree
    have own : ∀ x, x / 2 ^ order = id → free order (x / 2 ^ order) := by
      intro x isBlock
      rw [isBlock]
      exact isFree
    refine ⟨fun x isBlock => ⟨order, own x isBlock⟩, ?_⟩
    by_cases isHigh : order = high
    · exact Or.inl isHigh
    · right
      intro covered
      obtain ⟨other, above, larger⟩ := packed.above (by omega) (by omega) covered
      have first := div_first order id
      have inParent : id * 2 ^ order / 2 ^ (order + 1) = id / 2 := by rw [div_succ, first]
      have same := packed.once _ _ _ (own _ first) (larger _ inParent)
      omega
  · intro both
    obtain ⟨covered, largest⟩ := both
    obtain ⟨other, above, isFree⟩ := packed.above least most covered
    have first := div_first order id
    rcases Nat.eq_or_lt_of_le above with rfl | more
    · have own := isFree _ first
      rw [first] at own
      exact own
    · have high := (packed.range _ _ (isFree _ first)).2
      have uncovered := largest.resolve_left (by omega)
      refine absurd (fun x isParent => ⟨other, ?_⟩) uncovered
      have inParent : id * 2 ^ order / 2 ^ (order + 1) = id / 2 := by rw [div_succ, first]
      rw [div_above more (isParent.trans inParent.symm)]
      exact isFree _ first

end Packing

end Rexv6.Foundation.Dyadic
