import Rexv6.Foundation.Dyadic
import Rexv6.Buddy.Conservation

/-!
Contract: what complete merging gives. The available blocks are the largest
blocks without a live byte, so the live blocks determine every bitmap, an
allocation fails only when it must, and a second free is noticed only while the
block has not been merged.

Owns: the available blocks as a packed set, the comparison of two runs, when
`buddy_kmalloc` returns null, and when a second `buddy_kmfree` panics.

Does not own: that merging is complete after every call (`Cover`, `Conservation`).
-/

namespace Rexv6.Buddy

open Rexv6.Foundation
open Rexv6.Foundation.Execution (Along)
open Rexv6.Foundation.Dyadic (Packed Covered)

/-! ## The available blocks as a packed set -/

def System.Live (s : System) (address : Nat) : Prop :=
  ∃ block ∈ s.live, block.contains address = true

def Kmem.Available (k : Kmem) (order blkId : Nat) : Prop :=
  InRange order ∧ (blkId + 1) * 2 ^ order ≤ k.heapSize ∧ k.free order blkId = true

section Packing

variable {s : System} {order blkId : Nat}

theorem block_byte {size x : Nat} (fits : (x / 2 ^ order + 1) * 2 ^ order ≤ size) : x < size :=
  lt_of_lt_of_le (Nat.lt_mul_of_div_lt (Nat.lt_succ_self _) (Nat.two_pow_pos order)) fits

theorem Heap.block_fits {n : Nat} {k : Kmem} (heap : Heap n k) (range : InRange order) {x : Nat}
    (below : x < k.heapSize) : (x / 2 ^ order + 1) * 2 ^ order ≤ k.heapSize := by
  have divides : 2 ^ order ∣ k.heapSize :=
    (Nat.pow_dvd_pow 2 range.2).trans (Nat.dvd_of_mod_eq_zero heap.pages)
  obtain ⟨count, isCount⟩ := divides
  have low : x / 2 ^ order < count := by
    rw [Nat.div_lt_iff_lt_mul (Nat.two_pow_pos order), Nat.mul_comm, ← isCount]
    exact below
  rw [isCount, Nat.mul_comm (2 ^ order)]
  exact Nat.mul_le_mul_right _ low

theorem Conserved.cover_eq_one (conserved : Conserved s) {x : Nat}
    (isFree : s.kmem.Available order (x / 2 ^ order)) : s.kmem.cover x = 1 := by
  have below := block_byte isFree.2.1
  have positive := Kmem.cover_pos isFree.1 isFree.2.2
  have once := conserved.once x below
  omega

theorem Conserved.packed (conserved : Conserved s) (merged : s.Merged) :
    Packed minOrd maxOrd s.kmem.Available where
  range := fun order blkId isFree => isFree.1
  once := by
    intro x first second firstFree secondFree
    exact Counting.eq_of_countP_le_one (conserved.cover_eq_one firstFree).le
      (mem_allOrders.mpr firstFree.1) (mem_allOrders.mpr secondFree.1) firstFree.2.2
      secondFree.2.2
  merged := by
    intro order id below lower upper
    have inside := conserved.sound.heap.mark_inside lower.1 lower.2.1
    have apart := merged order (2 * id) lower.1 (by omega) inside lower.2.2
    rcases buddy_cases (2 * id) with ⟨-, isBuddy⟩ | ⟨odd, -⟩
    · rw [isBuddy, upper.2.2] at apart
      cases apart
    · omega

theorem Conserved.live_or_available (conserved : Conserved s) {x : Nat}
    (below : x < s.kmem.heapSize) :
    (∃ order, s.kmem.Available order (x / 2 ^ order)) ↔ ¬ s.Live (s.kmem.startHeap + x) := by
  have once := conserved.once x below
  constructor
  · intro available
    obtain ⟨order, isFree⟩ := available
    have one := conserved.cover_eq_one isFree
    intro live
    have counted : 0 < s.live.countP (·.contains (s.kmem.startHeap + x)) :=
      List.countP_pos_iff.mpr live
    omega
  · intro notLive
    have none : s.live.countP (·.contains (s.kmem.startHeap + x)) = 0 := by
      rw [List.countP_eq_zero]
      intro block member holds
      exact notLive ⟨block, member, holds⟩
    have positive : 0 < s.kmem.cover x := by omega
    obtain ⟨order, isOrder, isFree⟩ := List.countP_pos_iff.mp positive
    have range := mem_allOrders.mp isOrder
    exact ⟨order, range, conserved.sound.heap.block_fits range below, isFree⟩

/-- The bytes of a block are in available blocks exactly if the block lies in the
heap and none of them is live. -/
theorem Conserved.covered_iff (conserved : Conserved s) (range : InRange order) :
    Covered s.kmem.Available order blkId ↔
      (blkId + 1) * 2 ^ order ≤ s.kmem.heapSize ∧
        ∀ x, x / 2 ^ order = blkId → ¬ s.Live (s.kmem.startHeap + x) := by
  constructor
  · intro covered
    have inHeap : ∀ x, x / 2 ^ order = blkId → x < s.kmem.heapSize := by
      intro x isBlock
      obtain ⟨other, isFree⟩ := covered x isBlock
      exact block_byte isFree.2.1
    refine ⟨?_, fun x isBlock => ?_⟩
    · have first := Dyadic.div_first order blkId
      have fits := conserved.sound.heap.block_fits range (inHeap _ first)
      rw [first] at fits
      exact fits
    · exact (conserved.live_or_available (inHeap x isBlock)).mp (covered x isBlock)
  · intro both
    obtain ⟨fits, idle⟩ := both
    intro x isBlock
    rw [← isBlock] at fits
    exact (conserved.live_or_available (block_byte fits)).mpr (idle x isBlock)

/-- The available blocks are the largest blocks of the heap without a live byte. -/
theorem Conserved.available_iff (conserved : Conserved s) (merged : s.Merged)
    (range : InRange order) :
    s.kmem.Available order blkId ↔
      Covered s.kmem.Available order blkId ∧
        (order = maxOrd ∨ ¬ Covered s.kmem.Available (order + 1) (blkId / 2)) :=
  (conserved.packed merged).free_iff range.1 range.2

end Packing

/-! ## Two runs -/

def Kmem.SameBitmaps (k after : Kmem) : Prop :=
  ∀ order idx, InRange order → idx < markCount (topMarks k.start k.end_) order →
    (after.getMark order idx).bitmap = (k.getMark order idx).bitmap

section Comparing

variable {s t : System}

theorem bitmap_ext {first second : BitVec 32}
    (same : ∀ i < 32, available first i = available second i) : first = second := by
  apply BitVec.eq_of_getLsbD_eq
  intro i below
  have bits := same i below
  rw [available_eq, available_eq, Nat.mod_eq_of_lt below] at bits
  exact bits

theorem SameBitmaps.of_available {n : Nat} (soundFirst : Sound n s.kmem)
    (soundSecond : Sound n t.kmem)
    (marks : n = topMarks s.kmem.start s.kmem.end_)
    (same : ∀ order blkId, InRange order →
      (s.kmem.Available order blkId ↔ t.kmem.Available order blkId)) :
    s.kmem.SameBitmaps t.kmem := by
  intro order idx range inside
  rw [← marks] at inside
  apply bitmap_ext
  intro i below
  have mark : (32 * idx + i) >>> 5 = idx := by
    omega
  have isFree : ∀ {k : Kmem}, Sound n k →
      (available (k.getMark order idx).bitmap i = true ↔ k.Available order (32 * idx + i)) := by
    intro k sound
    have asFree : available (k.getMark order idx).bitmap i = k.free order (32 * idx + i) := by
      rw [Kmem.free, mark, available_eq, available_eq, Nat.mul_add_mod]
    rw [asFree]
    exact ⟨fun free => ⟨range, sound.inside order _ range (by rw [mark]; exact inside) free, free⟩,
      fun free => free.2.2⟩
  rw [Bool.eq_iff_iff, isFree soundFirst, isFree soundSecond]
  exact (same order _ range).symm

theorem Conserved.sameBitmaps (first : Conserved s) (firstMerged : s.Merged) (second : Conserved t)
    (secondMerged : t.Merged) (same : s.kmem.start = t.kmem.start ∧
      s.kmem.startHeap = t.kmem.startHeap ∧ s.kmem.end_ = t.kmem.end_)
    (live : ∀ block, block ∈ s.live ↔ block ∈ t.live) : s.kmem.SameBitmaps t.kmem := by
  obtain ⟨start, startHeap, end_⟩ := same
  have secondSound := second.sound
  rw [← start, ← end_] at secondSound
  have size : s.kmem.heapSize = t.kmem.heapSize := by
    rw [Kmem.heapSize, Kmem.heapSize, startHeap, end_]
  have bytes : ∀ address, s.Live address ↔ t.Live address := by
    intro address
    unfold System.Live
    simp only [live]
  have covered : ∀ order blkId, InRange order →
      (Covered s.kmem.Available order blkId ↔ Covered t.kmem.Available order blkId) := by
    intro order blkId range
    rw [first.covered_iff range, second.covered_iff range, size, startHeap]
    simp only [bytes]
  apply SameBitmaps.of_available first.sound secondSound rfl
  intro order blkId range
  rw [first.available_iff firstMerged range, second.available_iff secondMerged range,
    covered order blkId range]
  by_cases top : order = maxOrd
  · simp [top]
  · have above : InRange (order + 1) := ⟨le_trans range.1 (by omega), by have := range.2; omega⟩
    rw [covered (order + 1) (blkId / 2) above]

/-- A block that is allocated and freed again leaves the bitmaps as they were. -/
theorem Conserved.restores (conserved : Conserved s) (merged : s.Merged) {order mem : Nat}
    {kmem : Kmem} (range : InRange order) (got : s.kmem.buddyKmalloc order = .ok (mem, kmem))
    (real : mem ≠ 0) :
    ∃ after, kmem.buddyKmfree mem order = .ok after ∧ s.kmem.SameBitmaps after := by
  obtain ⟨middle, allocated, middleConserved, merges, same⟩ := conserved.kmalloc range
  simp only [System.step, got, if_neg real, Except.ok.injEq] at allocated
  subst allocated
  have live : (⟨mem, order⟩ : Block) ∈ (⟨mem, order⟩ :: s.live : List Block) := by simp
  obtain ⟨final, freed, finalConserved, finalMerges, finalSame⟩ := middleConserved.kmfree live
  obtain ⟨after, run, rfl⟩ := System.step_kmfree freed
  rw [List.erase_cons_head] at finalConserved finalMerges
  have whole := same.trans finalSame
  refine ⟨after, run, ?_⟩
  exact conserved.sameBitmaps merged finalConserved (finalMerges (merges merged))
    ⟨whole.start.symm, whole.startHeap.symm, whole.end_.symm⟩ fun block => Iff.rfl

end Comparing

/-- What the live blocks of a state determine, over all runs on one pool: in
every state no two buddies below the highest order are both available; two runs
that end with the same live blocks end with the same bitmaps; and freeing a block
just allocated restores them. -/
theorem bitmaps_of_live_set {vstart vend : Nat} (pool : Pool vstart vend)
    (fit : ∀ order, InRange order → markCount (topMarks vstart vend) order ≤ 65535)
    (marks otherMarks : Nat → Mark) :
    ∃ k other, Kmem.buddyInit marks vstart vend = .ok k ∧
      Kmem.buddyInit otherMarks vstart vend = .ok other ∧
      ∀ calls, Along System.step System.Valid ⟨k, []⟩ calls →
        ∃ s, System.run ⟨k, []⟩ calls = .ok s ∧ s.Merged ∧
          (∀ otherCalls t, Along System.step System.Valid ⟨other, []⟩ otherCalls →
            System.run ⟨other, []⟩ otherCalls = .ok t →
            (∀ block, block ∈ s.live ↔ block ∈ t.live) → s.kmem.SameBitmaps t.kmem) ∧
          ∀ order mem kmem, InRange order → s.kmem.buddyKmalloc order = .ok (mem, kmem) →
            mem ≠ 0 →
            ∃ after, kmem.buddyKmfree mem order = .ok after ∧ s.kmem.SameBitmaps after := by
  have links := links_of_marks pool fit
  obtain ⟨k, initialized, startHeap, start, end_, conserved, merged⟩ :=
    Conserved.init pool links marks
  obtain ⟨other, otherInitialized, otherStartHeap, otherStart, otherEnd, otherConserved,
    otherMerged⟩ := Conserved.init pool links otherMarks
  refine ⟨k, other, initialized, otherInitialized, fun calls valid => ?_⟩
  obtain ⟨s, run, after, merges, same⟩ := conserved.run valid
  refine ⟨s, run, merges merged, ?_, ?_⟩
  · intro otherCalls t otherValid otherRun live
    obtain ⟨final, finalRun, finalConserved, finalMerges, finalSame⟩ :=
      otherConserved.run otherValid
    obtain rfl : final = t := Except.ok.inj (finalRun.symm.trans otherRun)
    refine after.sameBitmaps (merges merged) finalConserved (finalMerges otherMerged) ⟨?_, ?_, ?_⟩
      live
    · rw [same.start, finalSame.start, start, otherStart]
    · rw [same.startHeap, finalSame.startHeap, startHeap, otherStartHeap]
    · rw [same.end_, finalSame.end_, end_, otherEnd]
  · intro order mem kmem range got real
    exact after.restores (merges merged) range got real

theorem bitmaps_of_live_set_three_pages :
    ∃ k, Kmem.buddyInit (fun _ => ⟨0#32, 0#32⟩) 4096 16384 = .ok k ∧
      ∃ s, System.run ⟨k, []⟩ [.kmalloc 6] = .ok s ∧ s.Merged ∧
        ∀ order mem kmem, InRange order → s.kmem.buddyKmalloc order = .ok (mem, kmem) →
          mem ≠ 0 →
          ∃ after, kmem.buddyKmfree mem order = .ok after ∧ s.kmem.SameBitmaps after := by
  obtain ⟨k, other, initialized, -, runs⟩ := bitmaps_of_live_set pool_three_pages marks_three_pages
    (fun _ => ⟨0#32, 0#32⟩) fun _ => ⟨0#32, 0#32⟩
  obtain ⟨s, run, merged, -, restores⟩ := runs _ (valid_kmalloc (by decide : InRange 6))
  exact ⟨k, initialized, s, run, merged, restores⟩

/-! ## Failing allocations -/

section Failing

variable {s : System} {order : Nat}

theorem Heap.exists_block {n : Nat} {k : Kmem} (heap : Heap n k) (range : InRange order)
    {first : Nat} (aligned : first % 2 ^ order = 0) (low : k.startHeap ≤ first)
    (high : first + 2 ^ order ≤ k.end_) :
    ∃ blkId, first = k.addr order blkId ∧ (blkId + 1) * 2 ^ order ≤ k.heapSize := by
  have start : 2 ^ order ∣ k.startHeap :=
    (Nat.pow_dvd_pow 2 range.2).trans (Nat.dvd_of_mod_eq_zero heap.aligned)
  have whole : 2 ^ order ∣ first - k.startHeap :=
    Nat.dvd_sub (Nat.dvd_of_mod_eq_zero aligned) start
  obtain ⟨blkId, isBlock⟩ := whole
  refine ⟨blkId, ?_, ?_⟩
  · rw [Kmem.addr, Nat.mul_comm, ← isBlock]
    omega
  · rw [Nat.add_one_mul, Nat.mul_comm blkId, ← isBlock, Kmem.heapSize]
    omega

/-- An aligned range of `2 ^ order` bytes of the heap without a live byte. -/
def System.Idle (s : System) (order first : Nat) : Prop :=
  first % 2 ^ order = 0 ∧ s.kmem.startHeap ≤ first ∧ first + 2 ^ order ≤ s.kmem.end_ ∧
    ∀ address, first ≤ address → address < first + 2 ^ order → ¬ s.Live address

theorem addr_bytes {k : Kmem} {blkId : Nat} (x : Nat) :
    k.addr order blkId ≤ k.startHeap + x ∧ k.startHeap + x < k.addr order blkId + 2 ^ order ↔
      x / 2 ^ order = blkId := by
  have contains : Block.contains ⟨k.addr order blkId, order⟩ (k.startHeap + x) = _ :=
    contains_addr x
  rw [Block.contains, decide_eq_decide] at contains
  exact contains

/-- A range without a live byte is a block whose bytes are all available. -/
theorem Conserved.idle_iff (conserved : Conserved s) (range : InRange order) (first : Nat) :
    s.Idle order first ↔
      ∃ blkId, first = s.kmem.addr order blkId ∧ Covered s.kmem.Available order blkId := by
  constructor
  · intro idle
    obtain ⟨aligned, low, high, quiet⟩ := idle
    obtain ⟨blkId, isBlock, fits⟩ := conserved.sound.heap.exists_block range aligned low high
    refine ⟨blkId, isBlock, (conserved.covered_iff range).mpr ⟨fits, fun x inBlock => ?_⟩⟩
    obtain ⟨above, below⟩ := addr_bytes (k := s.kmem) x |>.mpr inBlock
    rw [← isBlock] at above below
    exact quiet _ above below
  · intro block
    obtain ⟨blkId, rfl, covered⟩ := block
    obtain ⟨fits, quiet⟩ := (conserved.covered_iff range).mp covered
    refine ⟨conserved.sound.heap.addr_aligned range, Nat.le_add_right _ _,
      conserved.sound.heap.addr_le fits, fun address above below => ?_⟩
    obtain ⟨x, rfl⟩ := Nat.exists_eq_add_of_le ((Nat.le_add_right _ _).trans above)
    exact quiet x ((addr_bytes x).mp ⟨above, below⟩)

theorem Sound.not_available {n : Nat} {k : Kmem} (sound : Sound n k) (range : InRange order)
    (empty : (k.ord order).head = nil) (blkId : Nat) : ¬ k.Available order blkId := by
  intro available
  obtain ⟨-, fits, isFree⟩ := available
  have inside := sound.heap.mark_inside range fits
  obtain ⟨list, listed⟩ := sound.wf.lists order range
  have member := (listed.mem _ inside).mpr ((bitmap_ne_zero_iff _).mpr
    ⟨blkId % 32, Nat.mod_lt _ (by decide), by
      rw [available_eq, Nat.mod_mod, ← available_eq]
      exact isFree⟩)
  rw [listed.chain.eq_nil_iff.mp empty] at member
  simp at member

/-- `buddy_kmalloc` returns null exactly if no range of the size is idle. -/
theorem Conserved.kmalloc_null_iff (conserved : Conserved s) (merged : s.Merged)
    (range : InRange order) :
    ∃ mem kmem, s.kmem.buddyKmalloc order = .ok (mem, kmem) ∧
      (mem = 0 ↔ ¬ ∃ first, s.Idle order first) := by
  rcases buddyKmalloc_spec conserved.sound range conserved.ready
      (fun x below => by have := conserved.once x below; omega) with
    ⟨null, empty⟩ | ⟨blkId, kmem, got, taken, -⟩
  · refine ⟨0, s.kmem, null, ⟨fun _ some => ?_, fun _ => rfl⟩⟩
    obtain ⟨first, idle⟩ := some
    obtain ⟨blkId, -, covered⟩ := (conserved.idle_iff range first).mp idle
    obtain ⟨other, above, isFree⟩ := (conserved.packed merged).above range.1 range.2 covered
    have available := isFree _ (Dyadic.div_first order blkId)
    exact conserved.sound.not_available available.1 (empty other above available.1.2) _ available
  · refine ⟨_, kmem, got, ⟨fun null => ?_, fun none => ?_⟩⟩
    · have positive := conserved.sound.heap.positive
      rw [Kmem.addr] at null
      omega
    · refine absurd ⟨_, (conserved.idle_iff range _).mpr ⟨blkId, rfl, ?_⟩⟩ none
      refine (conserved.covered_iff range).mpr ⟨taken.fits, fun x inBlock live => ?_⟩
      have below : x < s.kmem.heapSize := by
        have fits := taken.fits
        rw [← inBlock] at fits
        exact block_byte fits
      have once := conserved.once x below
      have cover := taken.cover x below
      rw [spans, if_pos inBlock] at cover
      have counted : 0 < s.live.countP (·.contains (s.kmem.startHeap + x)) :=
        List.countP_pos_iff.mpr live
      omega

end Failing

/-- The allocator fails only when it must: in every state that valid calls reach,
`buddy_kmalloc` of an order in range returns null exactly if every aligned range
of that size in the heap has a live byte. -/
theorem kmalloc_fails_iff {vstart vend : Nat} (pool : Pool vstart vend)
    (fit : ∀ order, InRange order → markCount (topMarks vstart vend) order ≤ 65535)
    (marks : Nat → Mark) :
    ∃ k, Kmem.buddyInit marks vstart vend = .ok k ∧
      ∀ calls, Along System.step System.Valid ⟨k, []⟩ calls →
        ∃ s, System.run ⟨k, []⟩ calls = .ok s ∧ ∀ order, InRange order →
          ∃ mem kmem, s.kmem.buddyKmalloc order = .ok (mem, kmem) ∧
            (mem = 0 ↔ ¬ ∃ first, s.Idle order first) := by
  obtain ⟨k, initialized, -, -, -, conserved, merged⟩ :=
    Conserved.init pool (links_of_marks pool fit) marks
  refine ⟨k, initialized, fun calls valid => ?_⟩
  obtain ⟨s, run, after, merges, -⟩ := conserved.run valid
  exact ⟨s, run, fun order range => after.kmalloc_null_iff (merges merged) range⟩

theorem kmalloc_fails_iff_three_pages :
    ∃ k, Kmem.buddyInit (fun _ => ⟨0#32, 0#32⟩) 4096 16384 = .ok k ∧
      ∃ s, System.run ⟨k, []⟩ [.kmalloc 6] = .ok s ∧
        ∃ mem kmem, s.kmem.buddyKmalloc 12 = .ok (mem, kmem) ∧
          (mem = 0 ↔ ¬ ∃ first, s.Idle 12 first) := by
  obtain ⟨k, initialized, runs⟩ := kmalloc_fails_iff pool_three_pages marks_three_pages
    fun _ => ⟨0#32, 0#32⟩
  obtain ⟨s, run, fails⟩ := runs _ (valid_kmalloc (by decide : InRange 6))
  exact ⟨k, initialized, s, run, fails 12 (by decide)⟩

end Rexv6.Buddy
