import Mathlib.Data.Nat.Bitwise
import Rexv6.Foundation.Counting
import Rexv6.Buddy.FreeLists

/-!
Contract: which bytes of the heap the available blocks cover.

Owns: the number of available blocks over a byte, and what freeing a block with
merging and allocating one with splitting do to it.

Does not own: the blocks that are allocated, and `buddy_init`.
-/

namespace Rexv6.Buddy

open Rexv6.Foundation.Counting

/-! ## The heap -/

def Kmem.heapSize (k : Kmem) : Nat := k.end_ - k.startHeap

/-- A heap of whole pages below the top of the address space, small enough that
the highest order needs `n` marks and that every mark index fits a link. -/
structure Heap (n : Nat) (k : Kmem) : Prop where
  positive : 0 < k.startHeap
  aligned : k.startHeap % 2 ^ maxOrd = 0
  ordered : k.startHeap ≤ k.end_
  pages : k.heapSize % 2 ^ maxOrd = 0
  top : k.end_ < 2 ^ 32
  marks : k.heapSize ≤ n * 2 ^ (maxOrd + 5)
  links : 2 * k.heapSize ≤ nil * 2 ^ maxOrd

/-- A well-formed state whose available blocks lie in the heap. -/
structure Sound (n : Nat) (k : Kmem) : Prop where
  wf : Wf n k
  heap : Heap n k
  inside : ∀ order blkId, InRange order → blkId >>> 5 < markCount n order →
    k.free order blkId = true → (blkId + 1) * 2 ^ order ≤ k.heapSize

/-- Below the highest order, no block is available together with its buddy. -/
def Coalesced (n : Nat) (k : Kmem) : Prop :=
  ∀ order blkId, InRange order → order ≠ maxOrd → blkId >>> 5 < markCount n order →
    k.free order blkId = true → k.free order (blkId ^^^ 1) = false

def allOrders : List Nat := List.range' minOrd nOrd

theorem mem_allOrders {order : Nat} : order ∈ allOrders ↔ InRange order := by
  rw [allOrders, List.mem_range'_1]
  unfold InRange nOrd maxOrd minOrd
  omega

theorem allOrders_nodup : allOrders.Nodup := List.nodup_range'

/-- The number of available blocks over the byte at offset `x` of the heap. -/
def Kmem.cover (k : Kmem) (x : Nat) : Nat :=
  allOrders.countP fun order => k.free order (x / 2 ^ order)

def spans (order blkId x : Nat) : Nat := if x / 2 ^ order = blkId then 1 else 0

section Cover

variable {n : Nat} {k : Kmem} {order blkId : Nat}

theorem Heap.congr {after : Kmem} (heap : Heap n k) (same : k.SameHeap after) : Heap n after := by
  obtain ⟨positive, aligned, ordered, pages, top, marks, links⟩ := heap
  have size : after.heapSize = k.heapSize := by
    rw [Kmem.heapSize, Kmem.heapSize, same.startHeap, same.end_]
  refine ⟨?_, ?_, ?_, ?_, ?_, ?_, ?_⟩
  · rw [same.startHeap]; exact positive
  · rw [same.startHeap]; exact aligned
  · rw [same.startHeap, same.end_]; exact ordered
  · rw [size]; exact pages
  · rw [same.end_]; exact top
  · rw [size]; exact marks
  · rw [size]; exact links

theorem Kmem.SameHeap.heapSize {after : Kmem} (same : k.SameHeap after) :
    after.heapSize = k.heapSize := by
  rw [Kmem.heapSize, Kmem.heapSize, same.startHeap, same.end_]

theorem two_pow_mul {low high : Nat} (below : low ≤ high) :
    2 ^ (high - low) * 2 ^ low = 2 ^ high := by
  rw [← pow_add, Nat.sub_add_cancel below]

theorem Heap.mark_inside (heap : Heap n k) (range : InRange order)
    (fits : (blkId + 1) * 2 ^ order ≤ k.heapSize) : blkId >>> 5 < markCount n order := by
  have marks := heap.marks
  have positive : 0 < 2 ^ order := Nat.two_pow_pos order
  have power : n * 2 ^ (maxOrd + 5) = (markCount n order * 32) * 2 ^ order := by
    rw [markCount, pow_add, ← two_pow_mul range.2]
    ring
  have bound : blkId + 1 ≤ markCount n order * 32 :=
    Nat.le_of_mul_le_mul_right (by rw [← power]; exact fits.trans marks) positive
  omega

theorem Heap.mark_small (heap : Heap n k) (range : InRange order)
    (fits : (blkId + 1) * 2 ^ order ≤ k.heapSize) : blkId >>> 5 < nil := by
  have links := heap.links
  have low : 2 ^ minOrd ≤ 2 ^ order := Nat.pow_le_pow_right (by decide) range.1
  have scaled : (blkId + 1) * 2 ^ minOrd ≤ (blkId + 1) * 2 ^ order :=
    Nat.mul_le_mul_left _ low
  unfold nil maxOrd minOrd at *
  omega

theorem Heap.byte_inside (heap : Heap n k) (range : InRange order) {x : Nat}
    (below : x < k.heapSize) : (x / 2 ^ order) >>> 5 < markCount n order := by
  refine heap.mark_inside range ?_
  have positive : 0 < 2 ^ order := Nat.two_pow_pos order
  have whole : k.heapSize % 2 ^ order = 0 := by
    have divides : 2 ^ order ∣ 2 ^ maxOrd := Nat.pow_dvd_pow 2 range.2
    exact Nat.mod_eq_zero_of_dvd (divides.trans (Nat.dvd_of_mod_eq_zero heap.pages))
  obtain ⟨count, isCount⟩ := Nat.dvd_of_mod_eq_zero whole
  have low : x / 2 ^ order < count := by
    rw [Nat.div_lt_iff_lt_mul positive, Nat.mul_comm, ← isCount]
    exact below
  rw [isCount, Nat.mul_comm (2 ^ order)]
  exact Nat.mul_le_mul_right _ low

/-- Two heaps whose bits for `x` differ in one block at most, which only the second has. -/
theorem cover_gain {less more : Kmem} {x : Nat} (range : InRange order)
    (agree : ∀ other ∈ allOrders, ¬ (other = order ∧ x / 2 ^ other = blkId) →
      more.free other (x / 2 ^ other) = less.free other (x / 2 ^ other))
    (unset : x / 2 ^ order = blkId → less.free order (x / 2 ^ order) = false)
    (isSet : x / 2 ^ order = blkId → more.free order (x / 2 ^ order) = true) :
    more.cover x = less.cover x + spans order blkId x := by
  unfold Kmem.cover spans
  by_cases here : x / 2 ^ order = blkId
  · rw [if_pos here]
    apply countP_gain allOrders_nodup (mem_allOrders.mpr range) _ (unset here) (isSet here)
    intro other isOrder notSame
    exact agree other isOrder fun both => notSame both.1
  · rw [if_neg here, Nat.add_zero]
    apply List.countP_congr
    intro other isOrder
    rw [agree other isOrder]
    rintro ⟨rfl, same⟩
    exact here same

section Flip

variable {after : Kmem} {value : Bool} {x : Nat} (heap : Heap n k) (below : x < k.heapSize)
include heap below

theorem Flipped.free_at (flipped : Flipped n k after order blkId value) {other : Nat}
    (isOrder : other ∈ allOrders) : after.free other (x / 2 ^ other) =
      if other = order ∧ x / 2 ^ other = blkId then value else k.free other (x / 2 ^ other) :=
  flipped.free other (x / 2 ^ other) (mem_allOrders.mp isOrder)
    (heap.byte_inside (mem_allOrders.mp isOrder) below)

/-- Setting the bit of an unavailable block covers its bytes once more. -/
theorem Flipped.cover_mark (range : InRange order)
    (flipped : Flipped n k after order blkId true) (unset : k.free order blkId = false) :
    after.cover x = k.cover x + spans order blkId x := by
  apply cover_gain range
  · intro other isOrder notSame
    rw [flipped.free_at heap below isOrder, if_neg notSame]
  · intro here
    rw [here, unset]
  · intro here
    rw [flipped.free_at heap below (mem_allOrders.mpr range), if_pos ⟨rfl, here⟩]

/-- Clearing the bit of an available block uncovers its bytes once. -/
theorem Flipped.cover_unmark (range : InRange order)
    (flipped : Flipped n k after order blkId false) (isSet : k.free order blkId = true) :
    k.cover x = after.cover x + spans order blkId x := by
  apply cover_gain range
  · intro other isOrder notSame
    rw [flipped.free_at heap below isOrder, if_neg notSame]
  · intro here
    rw [flipped.free_at heap below (mem_allOrders.mpr range), if_pos ⟨rfl, here⟩]
  · intro here
    rw [here, isSet]

end Flip

theorem Kmem.cover_pos (range : InRange order) {x : Nat}
    (isSet : k.free order (x / 2 ^ order) = true) : 0 < k.cover x :=
  List.countP_pos_iff.mpr ⟨order, mem_allOrders.mpr range, isSet⟩

theorem Sound.flip {after : Kmem} {value : Bool} (sound : Sound n k)
    (fits : value = true → (blkId + 1) * 2 ^ order ≤ k.heapSize)
    (flipped : Flipped n k after order blkId value) : Sound n after where
  wf := flipped.wf
  heap := sound.heap.congr flipped.same
  inside := by
    intro other otherId otherRange otherInside isSet
    rw [flipped.same.heapSize]
    rw [flipped.free other otherId otherRange otherInside] at isSet
    split at isSet
    · rename_i same
      obtain ⟨rfl, rfl⟩ := same
      exact fits isSet
    · exact sound.inside other otherId otherRange otherInside isSet

theorem Sound.unmark {after : Kmem} (sound : Sound n k)
    (flipped : Flipped n k after order blkId false) : Sound n after :=
  sound.flip (fun isTrue => absurd isTrue Bool.false_ne_true) flipped

/-! ## Addresses -/

def Kmem.addr (k : Kmem) (order blkId : Nat) : Nat := k.startHeap + blkId * 2 ^ order

theorem Heap.addr_le (heap : Heap n k) (fits : (blkId + 1) * 2 ^ order ≤ k.heapSize) :
    k.addr order blkId + 2 ^ order ≤ k.end_ := by
  have ordered := heap.ordered
  unfold Kmem.addr
  unfold Kmem.heapSize at fits
  rw [Nat.add_one_mul] at fits
  omega

theorem Heap.blkid2mem (heap : Heap n k) (fits : (blkId + 1) * 2 ^ order ≤ k.heapSize) :
    k.blkid2mem order blkId = k.addr order blkId := by
  have below : k.addr order blkId < 2 ^ 32 :=
    lt_of_le_of_lt ((Nat.le_add_right _ _).trans (heap.addr_le fits)) heap.top
  rw [Kmem.blkid2mem, addU, Nat.mul_comm (2 ^ order)]
  exact Nat.mod_eq_of_lt below

theorem Heap.mem2blkid (heap : Heap n k) (fits : (blkId + 1) * 2 ^ order ≤ k.heapSize) :
    k.mem2blkid order (k.addr order blkId) = blkId := by
  have below : k.addr order blkId < 2 ^ 32 :=
    lt_of_le_of_lt ((Nat.le_add_right _ _).trans (heap.addr_le fits)) heap.top
  have offset : (k.addr order blkId + 2 ^ 32 - k.startHeap) % 2 ^ 32 = blkId * 2 ^ order := by
    have isAddr : k.addr order blkId + 2 ^ 32 - k.startHeap = blkId * 2 ^ order + 2 ^ 32 := by
      unfold Kmem.addr
      omega
    rw [isAddr, Nat.add_mod_right]
    exact Nat.mod_eq_of_lt (lt_of_le_of_lt (Nat.le_add_left _ _) below)
  rw [Kmem.mem2blkid, offset, Nat.shiftRight_eq_div_pow, Nat.mul_div_cancel _ (Nat.two_pow_pos _)]

/-! ## Buddies -/

theorem buddy_cases (blkId : Nat) :
    (blkId % 2 = 0 ∧ blkId ^^^ 1 = blkId + 1) ∨ (blkId % 2 = 1 ∧ blkId ^^^ 1 = blkId - 1) := by
  have half : (blkId ^^^ 1) / 2 = blkId / 2 := by
    rw [Nat.xor_div_two]
    simp
  have low : (blkId ^^^ 1) % 2 = (blkId + 1) % 2 := Nat.xor_mod_two_eq
  omega

/-- The two halves of a block of the next order. -/
theorem spans_parent (order blkId x : Nat) :
    spans (order + 1) (blkId / 2) x = spans order blkId x + spans order (blkId ^^^ 1) x := by
  have half : x / 2 ^ (order + 1) = x / 2 ^ order / 2 := by
    rw [pow_succ, Nat.div_div_eq_div_mul]
  unfold spans
  rcases buddy_cases blkId with ⟨even, isBuddy⟩ | ⟨odd, isBuddy⟩ <;> rw [isBuddy] <;>
    split_ifs <;> omega

theorem buddy_same_mark (blkId : Nat) : (blkId ^^^ 1) >>> 5 = blkId >>> 5 := by
  rcases buddy_cases blkId with ⟨even, isBuddy⟩ | ⟨odd, isBuddy⟩ <;> rw [isBuddy] <;> omega

theorem spans_le_one (order blkId x : Nat) : spans order blkId x ≤ 1 := by
  unfold spans
  split_ifs <;> omega

theorem spans_first : spans order blkId (blkId * 2 ^ order) = 1 :=
  if_pos (Nat.mul_div_cancel _ (Nat.two_pow_pos order))

theorem parent_fits {size : Nat} (fits : (blkId + 1) * 2 ^ order ≤ size)
    (buddyFits : ((blkId ^^^ 1) + 1) * 2 ^ order ≤ size) :
    (blkId / 2 + 1) * 2 ^ (order + 1) ≤ size := by
  have twice : (blkId / 2 + 1) * 2 ^ (order + 1) = (2 * (blkId / 2) + 2) * 2 ^ order := by
    ring
  rw [twice]
  rcases buddy_cases blkId with ⟨even, isBuddy⟩ | ⟨odd, isBuddy⟩
  · rw [isBuddy] at buddyFits
    have same : 2 * (blkId / 2) + 2 = blkId + 1 + 1 := by omega
    rw [same]
    exact buddyFits
  · have same : 2 * (blkId / 2) + 2 = blkId + 1 := by omega
    rw [same]
    exact fits

theorem addr_parent : k.addr order (blkId - blkId % 2) = k.addr (order + 1) (blkId / 2) := by
  unfold Kmem.addr
  have twice : blkId - blkId % 2 = blkId / 2 * 2 := by omega
  rw [twice, pow_succ]
  ring

theorem buddy_buddy (blkId : Nat) : blkId ^^^ 1 ^^^ 1 = blkId := by
  rw [Nat.xor_assoc, Nat.xor_self, Nat.xor_zero]

theorem buddy_ne (blkId : Nat) : blkId ^^^ 1 ≠ blkId := by
  rcases buddy_cases blkId with ⟨even, isBuddy⟩ | ⟨odd, isBuddy⟩ <;> rw [isBuddy] <;> omega

/-- A block whose buddy is unavailable, or that has none, may become available, and any block
may become unavailable. -/
theorem Coalesced.flip {after : Kmem} {value : Bool} (coalesced : Coalesced n k)
    (flipped : Flipped n k after order blkId value)
    (alone : value = true → ¬ k.free order (blkId ^^^ 1) = true ∨ order = maxOrd) :
    Coalesced n after := by
  intro other otherId range notMax inside isFree
  have buddyInside : (otherId ^^^ 1) >>> 5 < markCount n other := by
    rw [buddy_same_mark]
    exact inside
  rw [flipped.free other otherId range inside] at isFree
  rw [flipped.free other _ range buddyInside]
  by_cases own : other = order ∧ otherId = blkId
  · obtain ⟨rfl, rfl⟩ := own
    rw [if_pos ⟨rfl, rfl⟩] at isFree
    rw [if_neg fun both => buddy_ne otherId both.2]
    exact eq_false_of_ne_true ((alone isFree).resolve_right notMax)
  · rw [if_neg own] at isFree
    by_cases isBuddy : other = order ∧ otherId ^^^ 1 = blkId
    · obtain ⟨rfl, rfl⟩ := isBuddy
      rw [if_pos ⟨rfl, rfl⟩]
      rw [buddy_buddy] at alone
      exact eq_false_of_ne_true fun isSet => (alone isSet).elim (absurd isFree) notMax
    · rw [if_neg isBuddy]
      exact coalesced other otherId range notMax inside isFree

theorem Coalesced.unmark {after : Kmem} (coalesced : Coalesced n k)
    (flipped : Flipped n k after order blkId false) : Coalesced n after :=
  coalesced.flip flipped fun isTrue => absurd isTrue Bool.false_ne_true

/-! ## Freeing -/

theorem Sound.unset (range : InRange order) (fits : (blkId + 1) * 2 ^ order ≤ k.heapSize)
    (uncovered : ∀ x < k.heapSize, spans order blkId x = 1 → k.cover x = 0) :
    k.free order blkId = false := by
  have positive : 0 < 2 ^ order := Nat.two_pow_pos order
  have below : blkId * 2 ^ order < k.heapSize := by
    rw [Nat.add_one_mul] at fits
    omega
  have zero := uncovered _ below spans_first
  by_contra isSet
  have counted : 0 < k.cover (blkId * 2 ^ order) := by
    refine Kmem.cover_pos range ?_
    simpa using isSet
  omega

end Cover

/-- `__internal_kfree` of a block that nothing covers: its bytes are covered
once afterwards, by the block itself or by a larger one it was merged into, and
no two buddies are left that could be merged. -/
theorem internalKfree_spec {n : Nat} : ∀ (fuel : Nat) {k : Kmem} {order blkId : Nat},
    Sound n k → InRange order → maxOrd < order + fuel →
      (blkId + 1) * 2 ^ order ≤ k.heapSize →
      (∀ x < k.heapSize, spans order blkId x = 1 → k.cover x = 0) →
      (∀ x < k.heapSize, k.cover x ≤ 1) →
      ∃ after, Kmem.internalKfree fuel k (k.addr order blkId) order = .ok after ∧
        Sound n after ∧ (Coalesced n k → Coalesced n after) ∧ k.SameHeap after ∧
        ∀ x < k.heapSize, after.cover x = k.cover x + spans order blkId x
  | 0, _, _, _, _, range, enough, _, _, _ => absurd range.2 (by omega)
  | fuel + 1, k, order, blkId, sound, range, enough, fits, uncovered, once => by
      have heap := sound.heap
      have inside := heap.mark_inside range fits
      have unset := Sound.unset range fits uncovered
      have isUnset : available (k.getMark order (blkId >>> 5)).bitmap blkId = false := unset
      have isBuddy : available (k.getMark order (blkId >>> 5)).bitmap (blkId ^^^ 1) =
          k.free order (blkId ^^^ 1) := by rw [Kmem.free, buddy_same_mark]
      unfold Kmem.internalKfree
      simp only [heap.mem2blkid fits, isUnset, isBuddy, Bool.false_eq_true, if_false]
      by_cases alone : ¬ k.free order (blkId ^^^ 1) = true ∨ order = maxOrd
      · rw [if_pos alone]
        obtain ⟨after, marked, flipped⟩ :=
          markBlk_spec sound.wf range inside (heap.mark_small range fits) unset
        exact ⟨after, marked, sound.flip (fun _ => fits) flipped,
          fun before => before.flip flipped fun _ => alone, flipped.same,
          fun x below => flipped.cover_mark heap below range unset⟩
      · rw [if_neg alone]
        obtain ⟨buddyFree, notMax⟩ := not_or.mp alone
        rw [not_not] at buddyFree
        have buddyInside : (blkId ^^^ 1) >>> 5 < markCount n order := by
          rw [buddy_same_mark]
          exact inside
        have buddyFits := sound.inside order _ range buddyInside buddyFree
        have parent := parent_fits fits buddyFits
        obtain ⟨middle, unmarked, flipped⟩ :=
          unmarkBlk_spec sound.wf range buddyInside buddyFree
        have middleSound := sound.unmark flipped
        have size := flipped.same.heapSize
        have covers : ∀ x < k.heapSize,
            k.cover x = middle.cover x + spans order (blkId ^^^ 1) x := fun x below =>
          flipped.cover_unmark heap below range buddyFree
        have parentRange : InRange (order + 1) := by
          obtain ⟨low, high⟩ := range
          exact ⟨by omega, by omega⟩
        have lower : (blkId - blkId % 2 + 1) * 2 ^ order ≤ middle.heapSize := by
          rw [size]
          exact le_trans (Nat.mul_le_mul_right _ (by omega)) fits
        obtain ⟨after, freed, afterSound, coalesces, same, result⟩ :=
          internalKfree_spec fuel middleSound parentRange (by omega) (by rw [size]; exact parent)
            (by
              intro x below isParent
              rw [size] at below
              have split := spans_parent order blkId x
              have whole := covers x below
              have atMost := once x below
              have ownZero := uncovered x below
              omega)
            (by
              intro x below
              rw [size] at below
              have whole := covers x below
              have atMost := once x below
              omega)
        refine ⟨after, ?_, afterSound, fun before => coalesces (before.unmark flipped),
          flipped.same.trans same, ?_⟩
        · simp only [unmarked, bind, Except.bind]
          rw [middleSound.heap.blkid2mem lower, addr_parent]
          exact freed
        · intro x below
          rw [result x (by rw [size]; exact below), covers x below, spans_parent]
          omega

/-! ## Allocating -/

/-- What an allocation of one block does to the cover. -/
structure Taken (n : Nat) (k after : Kmem) (order blkId : Nat) : Prop where
  sound : Sound n after
  same : k.SameHeap after
  fits : (blkId + 1) * 2 ^ order ≤ k.heapSize
  cover : ∀ x < k.heapSize, k.cover x = after.cover x + spans order blkId x

section Allocating

variable {n : Nat} {k : Kmem} {order : Nat}

theorem getBlk_taken (sound : Sound n k) (range : InRange order)
    (nonempty : (k.ord order).head ≠ nil) :
    ∃ blkId after, k.getBlk order = .ok (k.addr order blkId, after) ∧
      Taken n k after order blkId ∧ (Coalesced n k → Coalesced n after) := by
  obtain ⟨blkId, after, got, inside, isFree, flipped⟩ := getBlk_spec sound.wf range nonempty
  have fits := sound.inside order blkId range inside isFree
  refine ⟨blkId, after, ?_, ⟨sound.unmark flipped, flipped.same, fits, fun x below =>
    flipped.cover_unmark sound.heap below range isFree⟩, fun before => before.unmark flipped⟩
  rw [got, sound.heap.blkid2mem fits]

/-- Taking a block of the next order and freeing its upper half takes its lower
half. -/
theorem Taken.split {middle : Kmem} {parent : Nat}
    (taken : Taken n k middle (order + 1) parent) (range : InRange order)
    (once : ∀ x < k.heapSize, k.cover x ≤ 1) :
    ∃ after, Kmem.internalKfree nOrd middle
        (addU (k.addr (order + 1) parent) (2 ^ order)) order = .ok after ∧
      Taken n k after order (2 * parent) ∧ (Coalesced n middle → Coalesced n after) := by
  have size := taken.same.heapSize
  have twice : (parent + 1) * 2 ^ (order + 1) = (2 * parent + 1 + 1) * 2 ^ order := by
    ring
  have upperFits : (2 * parent + 1 + 1) * 2 ^ order ≤ middle.heapSize := by
    rw [size, ← twice]
    exact taken.fits
  have upper : addU (k.addr (order + 1) parent) (2 ^ order) =
      middle.addr order (2 * parent + 1) := by
    have isAddr : k.addr (order + 1) parent + 2 ^ order = middle.addr order (2 * parent + 1) := by
      unfold Kmem.addr
      rw [taken.same.startHeap, pow_succ]
      ring
    rw [addU, isAddr]
    exact Nat.mod_eq_of_lt (lt_of_le_of_lt ((Nat.le_add_right _ _).trans
      (taken.sound.heap.addr_le upperFits)) taken.sound.heap.top)
  have halves : ∀ x, spans (order + 1) parent x =
      spans order (2 * parent) x + spans order (2 * parent + 1) x := by
    intro x
    have split := spans_parent order (2 * parent) x
    rcases buddy_cases (2 * parent) with ⟨-, isBuddy⟩ | ⟨odd, -⟩
    · rw [isBuddy, Nat.mul_div_cancel_left parent (by decide)] at split
      exact split
    · omega
  obtain ⟨after, freed, sound, coalesces, same, cover⟩ := internalKfree_spec nOrd taken.sound range
    (by obtain ⟨low, -⟩ := range; unfold nOrd maxOrd minOrd at *; omega) upperFits
    (by
      intro x below isUpper
      rw [size] at below
      have whole := taken.cover x below
      have atMost := once x below
      have parts := halves x
      omega)
    (by
      intro x below
      rw [size] at below
      have whole := taken.cover x below
      have atMost := once x below
      omega)
  refine ⟨after, by rw [upper]; exact freed, ⟨sound, taken.same.trans same, ?_, ?_⟩, coalesces⟩
  · rw [← size]
    exact le_trans (Nat.mul_le_mul_right _ (by omega)) upperFits
  · intro x below
    rw [taken.cover x below, cover x (by rw [size]; exact below), halves x]
    omega

end Allocating

/-- `__internal_kmalloc` takes a block of the order asked for, or returns null and
changes nothing when no order from there up has a block. -/
theorem internalKmalloc_spec {n : Nat} : ∀ (fuel : Nat) {k : Kmem} {order : Nat},
    Sound n k → InRange order → maxOrd < order + fuel → k.initialized = true →
      (∀ x < k.heapSize, k.cover x ≤ 1) →
      (Kmem.internalKmalloc fuel k order = .ok (0, k) ∧
          ∀ other, order ≤ other → other ≤ maxOrd → (k.ord other).head = nil) ∨
        ∃ blkId after, Kmem.internalKmalloc fuel k order = .ok (k.addr order blkId, after) ∧
          Taken n k after order blkId ∧ (Coalesced n k → Coalesced n after)
  | 0, _, _, _, range, enough, _, _ => absurd range.2 (by omega)
  | fuel + 1, k, order, sound, range, enough, ready, once => by
      unfold Kmem.internalKmalloc
      rw [if_neg (by simp [ready])]
      by_cases nonempty : (k.ord order).head ≠ nil
      · rw [if_pos nonempty]
        exact Or.inr (getBlk_taken sound range nonempty)
      · rw [if_neg nonempty]
        by_cases splittable : order < maxOrd
        · rw [if_pos splittable]
          have parentRange : InRange (order + 1) := ⟨le_trans range.1 (by omega), splittable⟩
          rcases internalKmalloc_spec fuel sound parentRange (by omega) ready once with
            ⟨none, empty⟩ | ⟨parent, middle, got, taken, coalesces⟩
          · left
            refine ⟨by simp [none, bind, Except.bind], fun other low high => ?_⟩
            rcases Nat.eq_or_lt_of_le low with rfl | above
            · exact not_not.mp nonempty
            · exact empty other above high
          · right
            obtain ⟨after, freed, result, splits⟩ := taken.split range once
            have positive := sound.heap.positive
            have real : k.addr (order + 1) parent ≠ 0 := by
              unfold Kmem.addr
              omega
            have lower : k.addr (order + 1) parent = k.addr order (2 * parent) := by
              unfold Kmem.addr
              ring
            refine ⟨2 * parent, after, ?_, result, fun before => splits (coalesces before)⟩
            simp only [got, bind, Except.bind]
            rw [if_pos real, freed]
            simp only [lower]
        · rw [if_neg splittable]
          refine Or.inl ⟨rfl, fun other low high => ?_⟩
          obtain rfl : other = order := by omega
          exact not_not.mp nonempty

end Rexv6.Buddy
