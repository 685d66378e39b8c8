import Rexv6.Foundation.Execution
import Rexv6.Buddy.Initialization

/-!
Contract: conservation of the heap over whole sequences of calls.

Owns: the record of live blocks, valid call sequences, the blocks of a state,
and the theorem that they partition the heap after every call and that no call
panics.

Does not own: the shape of the free lists (`Links`), or the sized interface.
-/

namespace Rexv6.Buddy

open Rexv6.Foundation
open Rexv6.Foundation.Execution (Along)
open Rexv6.Foundation.Counting

/-! ## Calls -/

structure Block where
  mem : Nat
  order : Nat
deriving DecidableEq, Repr

def Block.contains (block : Block) (address : Nat) : Bool :=
  decide (block.mem ≤ address ∧ address < block.mem + 2 ^ block.order)

inductive Call where
  | kmalloc (order : Nat)
  | kmfree (mem order : Nat)
deriving DecidableEq, Repr

structure System where
  kmem : Kmem
  live : List Block

def System.step (s : System) : Call → Except Halt System
  | .kmalloc order =>
    match s.kmem.buddyKmalloc order with
    | .ok (mem, kmem) => .ok ⟨kmem, if mem = 0 then s.live else ⟨mem, order⟩ :: s.live⟩
    | .error halt => .error halt
  | .kmfree mem order =>
    match s.kmem.buddyKmfree mem order with
    | .ok kmem => .ok ⟨kmem, s.live.erase ⟨mem, order⟩⟩
    | .error halt => .error halt

theorem System.step_kmfree {s t : System} {mem order : Nat}
    (freed : s.step (.kmfree mem order) = .ok t) :
    ∃ kmem, s.kmem.buddyKmfree mem order = .ok kmem ∧ t = ⟨kmem, s.live.erase ⟨mem, order⟩⟩ := by
  simp only [System.step] at freed
  cases run : s.kmem.buddyKmfree mem order with
  | error halt =>
    rw [run] at freed
    cases freed
  | ok kmem =>
    rw [run] at freed
    exact ⟨kmem, rfl, (Except.ok.inj freed).symm⟩

def System.run (s : System) (calls : List Call) : Except Halt System :=
  calls.foldlM System.step s

/-- Calls with an order in range that free only blocks that are live. -/
def System.Valid (s : System) : Call → Prop
  | .kmalloc order => InRange order
  | .kmfree mem order => ⟨mem, order⟩ ∈ s.live

instance (s : System) (call : Call) : Decidable (s.Valid call) := by
  cases call <;> unfold System.Valid <;> infer_instance

/-! ## The blocks of a state -/

/-- The blocks whose bit is set in the bitmap of their order. -/
def Kmem.freeBlocks (k : Kmem) : List Block :=
  allOrders.flatMap fun order =>
    ((List.range (32 * markCount (topMarks k.start k.end_) order)).filter (k.free order)).map
      fun blkId => ⟨k.blkid2mem order blkId, order⟩

def System.blocks (s : System) : List Block := s.live ++ s.kmem.freeBlocks

/-- The live and the available blocks partition the heap. -/
structure Partition (s : System) : Prop where
  inside : ∀ block ∈ s.blocks,
    s.kmem.startHeap ≤ block.mem ∧ block.mem + 2 ^ block.order ≤ s.kmem.end_
  once : ∀ address, s.kmem.startHeap ≤ address → address < s.kmem.end_ →
    s.blocks.countP (·.contains address) = 1

/-! ## The invariant -/

def Kmem.Holds (k : Kmem) (block : Block) : Prop :=
  InRange block.order ∧ ∃ blkId, block.mem = k.addr block.order blkId ∧
    (blkId + 1) * 2 ^ block.order ≤ k.heapSize

/-- Every byte of the heap is in exactly one live or available block. -/
structure Conserved (s : System) : Prop where
  sound : Sound (topMarks s.kmem.start s.kmem.end_) s.kmem
  ready : s.kmem.initialized = true
  held : ∀ block ∈ s.live, s.kmem.Holds block
  once : ∀ x < s.kmem.heapSize,
    s.kmem.cover x + s.live.countP (·.contains (s.kmem.startHeap + x)) = 1

def System.Merged (s : System) : Prop := Coalesced (topMarks s.kmem.start s.kmem.end_) s.kmem

section Blocks

variable {n : Nat} {k : Kmem} {order blkId : Nat}

theorem contains_addr (x : Nat) :
    Block.contains ⟨k.addr order blkId, order⟩ (k.startHeap + x) =
      decide (x / 2 ^ order = blkId) := by
  have positive : 0 < 2 ^ order := Nat.two_pow_pos order
  have split := Nat.div_eq_iff (x := x) (y := blkId) positive
  rw [Block.contains, decide_eq_decide, split]
  simp only [Kmem.addr]
  omega

theorem contains_addr_spans (x : Nat) :
    (if Block.contains ⟨k.addr order blkId, order⟩ (k.startHeap + x) = true then 1 else 0) =
      spans order blkId x := by
  rw [contains_addr, spans]
  simp

theorem Kmem.Holds.congr {after : Kmem} {block : Block} (holds : k.Holds block)
    (same : k.SameHeap after) : after.Holds block := by
  obtain ⟨range, blkId, isAddr, fits⟩ := holds
  refine ⟨range, blkId, ?_, by rw [same.heapSize]; exact fits⟩
  rw [isAddr, Kmem.addr, Kmem.addr, same.startHeap]

theorem Sound.congr_marks {after : Kmem} (same : k.SameHeap after)
    (sound : Sound (topMarks k.start k.end_) after) :
    Sound (topMarks after.start after.end_) after := by
  rw [same.start, same.end_]
  exact sound

theorem Coalesced.congr_marks {after : Kmem} (same : k.SameHeap after)
    (coalesced : Coalesced (topMarks k.start k.end_) after) :
    Coalesced (topMarks after.start after.end_) after := by
  rw [same.start, same.end_]
  exact coalesced

theorem Heap.addr_aligned (heap : Heap n k) (range : InRange order) :
    k.addr order blkId % 2 ^ order = 0 := by
  have divides : 2 ^ order ∣ 2 ^ maxOrd := Nat.pow_dvd_pow 2 range.2
  have start : k.startHeap % 2 ^ order = 0 :=
    Nat.mod_eq_zero_of_dvd (divides.trans (Nat.dvd_of_mod_eq_zero heap.aligned))
  rw [Kmem.addr, Nat.add_mul_mod_self_right]
  exact start

theorem buddyKmalloc_spec (sound : Sound n k) (range : InRange order)
    (ready : k.initialized = true) (once : ∀ x < k.heapSize, k.cover x ≤ 1) :
    (k.buddyKmalloc order = .ok (0, k) ∧
        ∀ other, order ≤ other → other ≤ maxOrd → (k.ord other).head = nil) ∨
      ∃ blkId after, k.buddyKmalloc order = .ok (k.addr order blkId, after) ∧
        Taken n k after order blkId ∧ (Coalesced n k → Coalesced n after) := by
  have enough : maxOrd < order + nOrd := by
    obtain ⟨low, -⟩ := range
    unfold nOrd maxOrd minOrd at *
    omega
  have inRange : ¬ (order > maxOrd ∨ order < minOrd) := by
    obtain ⟨low, high⟩ := range
    omega
  rw [Kmem.buddyKmalloc, if_neg inRange]
  exact internalKmalloc_spec nOrd sound range enough ready once

theorem buddyKmfree_eq (heap : Heap n k) (range : InRange order) :
    k.buddyKmfree (k.addr order blkId) order =
      Kmem.internalKfree nOrd k (k.addr order blkId) order := by
  rw [Kmem.buddyKmfree, if_neg]
  rw [heap.addr_aligned range]
  obtain ⟨low, high⟩ := range
  omega

theorem buddyKmfree_spec (sound : Sound n k) (range : InRange order)
    (fits : (blkId + 1) * 2 ^ order ≤ k.heapSize)
    (uncovered : ∀ x < k.heapSize, spans order blkId x = 1 → k.cover x = 0)
    (once : ∀ x < k.heapSize, k.cover x ≤ 1) :
    ∃ after, k.buddyKmfree (k.addr order blkId) order = .ok after ∧ Sound n after ∧
      (Coalesced n k → Coalesced n after) ∧ k.SameHeap after ∧
        ∀ x < k.heapSize, after.cover x = k.cover x + spans order blkId x := by
  have enough : maxOrd < order + nOrd := by
    obtain ⟨low, -⟩ := range
    unfold nOrd maxOrd minOrd at *
    omega
  rw [buddyKmfree_eq sound.heap range]
  exact internalKfree_spec nOrd sound range enough fits uncovered once

end Blocks

/-! ## One call -/

theorem Conserved.kmalloc {s : System} (conserved : Conserved s) {order : Nat}
    (range : InRange order) : ∃ after, s.step (.kmalloc order) = .ok after ∧ Conserved after ∧
      (s.Merged → after.Merged) ∧ s.kmem.SameHeap after.kmem := by
  obtain ⟨sound, ready, held, once⟩ := conserved
  rcases buddyKmalloc_spec sound range ready (fun x below => by have := once x below; omega) with
    ⟨none, -⟩ | ⟨blkId, kmem, got, taken, coalesces⟩
  · refine ⟨s, ?_, ⟨sound, ready, held, once⟩, fun before => before, .refl s.kmem⟩
    simp only [System.step, none, if_true]
  · have positive := sound.heap.positive
    have real : s.kmem.addr order blkId ≠ 0 := by
      unfold Kmem.addr
      omega
    refine ⟨⟨kmem, ⟨s.kmem.addr order blkId, order⟩ :: s.live⟩, ?_,
      ⟨Sound.congr_marks taken.same taken.sound, taken.same.initialized.trans ready, ?_, ?_⟩,
      fun before => Coalesced.congr_marks taken.same (coalesces before), taken.same⟩
    · simp only [System.step, got, if_neg real]
    · intro block member
      rcases List.mem_cons.mp member with rfl | old
      · exact Kmem.Holds.congr ⟨range, blkId, rfl, taken.fits⟩ taken.same
      · exact (held block old).congr taken.same
    · intro x below
      simp only [taken.same.heapSize] at below
      have whole := taken.cover x below
      have before := once x below
      simp only [taken.same.startHeap, List.countP_cons, contains_addr_spans]
      omega

theorem Conserved.kmfree {s : System} (conserved : Conserved s) {mem order : Nat}
    (live : ⟨mem, order⟩ ∈ s.live) :
    ∃ after, s.step (.kmfree mem order) = .ok after ∧ Conserved after ∧
      (s.Merged → after.Merged) ∧ s.kmem.SameHeap after.kmem := by
  obtain ⟨sound, ready, held, once⟩ := conserved
  obtain ⟨range, blkId, isAddr, fits⟩ := held _ live
  simp only at range isAddr fits
  subst isAddr
  have counted : ∀ x, spans order blkId x ≤
      s.live.countP (·.contains (s.kmem.startHeap + x)) := by
    intro x
    by_cases here : Block.contains ⟨s.kmem.addr order blkId, order⟩ (s.kmem.startHeap + x) = true
    · have some : 0 < s.live.countP (·.contains (s.kmem.startHeap + x)) :=
        List.countP_pos_iff.mpr ⟨_, live, here⟩
      exact le_trans (spans_le_one order blkId x) some
    · rw [← contains_addr_spans (k := s.kmem), if_neg here]
      exact Nat.zero_le _
  obtain ⟨kmem, freed, afterSound, coalesces, same, cover⟩ := buddyKmfree_spec sound range fits
    (fun x below isBlock => by
      have before := once x below
      have some := counted x
      omega)
    (fun x below => by have := once x below; omega)
  refine ⟨⟨kmem, s.live.erase ⟨s.kmem.addr order blkId, order⟩⟩, ?_,
    ⟨Sound.congr_marks same afterSound, same.initialized.trans ready, ?_, ?_⟩,
    fun before => Coalesced.congr_marks same (coalesces before), same⟩
  · simp only [System.step, freed]
  · intro block member
    exact (held block (List.mem_of_mem_erase member)).congr same
  · intro x below
    simp only [same.heapSize] at below
    have before := once x below
    have some := counted x
    simp only [same.startHeap, List.countP_erase, live, true_and, contains_addr_spans,
      cover x below]
    omega

theorem Conserved.step {s : System} (conserved : Conserved s) {call : Call}
    (valid : s.Valid call) : ∃ after, s.step call = .ok after ∧ Conserved after ∧
      (s.Merged → after.Merged) ∧ s.kmem.SameHeap after.kmem := by
  cases call with
  | kmalloc order => exact conserved.kmalloc valid
  | kmfree mem order => exact conserved.kmfree valid

/-! ## The partition -/

section Partitions

variable {k : Kmem}

theorem mark_of_lt {blkId marks : Nat} : blkId < 32 * marks ↔ blkId >>> 5 < marks := by
  omega

theorem countP_order (sound : Sound (topMarks k.start k.end_) k) {order x : Nat}
    (range : InRange order) (below : x < k.heapSize) :
    (((List.range (32 * markCount (topMarks k.start k.end_) order)).filter (k.free order)).map
      fun blkId => Block.mk (k.blkid2mem order blkId) order).countP
        (·.contains (k.startHeap + x)) =
      if k.free order (x / 2 ^ order) = true then 1 else 0 := by
  have inside := mark_of_lt.mpr (sound.heap.byte_inside range below)
  have counted := countP_range_eq (32 * markCount (topMarks k.start k.end_) order) (x / 2 ^ order)
    (k.free order)
  simp only [inside, true_and] at counted
  rw [List.countP_map, List.countP_filter, ← counted]
  refine List.countP_congr fun blkId member => ?_
  cases isFree : k.free order blkId with
  | false => simp
  | true =>
    have fits := sound.inside order blkId range
      (mark_of_lt.mp (List.mem_range.mp member)) isFree
    simp only [Function.comp_apply, sound.heap.blkid2mem fits, contains_addr, Bool.and_true,
      Bool.true_and, decide_eq_true_eq]
    exact eq_comm

theorem countP_freeBlocks (sound : Sound (topMarks k.start k.end_) k) {x : Nat}
    (below : x < k.heapSize) :
    k.freeBlocks.countP (·.contains (k.startHeap + x)) = k.cover x := by
  rw [Kmem.freeBlocks, List.countP_flatMap, Kmem.cover, countP_eq_sum]
  congr 1
  refine List.map_congr_left fun order member => ?_
  exact countP_order sound (mem_allOrders.mp member) below

theorem freeBlocks_held (sound : Sound (topMarks k.start k.end_) k) {block : Block}
    (member : block ∈ k.freeBlocks) : k.Holds block := by
  obtain ⟨order, isOrder, inOrder⟩ := List.mem_flatMap.mp member
  obtain ⟨blkId, found, rfl⟩ := List.mem_map.mp inOrder
  obtain ⟨isRange, isFree⟩ := List.mem_filter.mp found
  have range := mem_allOrders.mp isOrder
  have fits := sound.inside order blkId range (mark_of_lt.mp (List.mem_range.mp isRange)) isFree
  exact ⟨range, blkId, sound.heap.blkid2mem fits, fits⟩

theorem Kmem.Holds.bounds {n : Nat} {block : Block} (heap : Heap n k) (holds : k.Holds block) :
    k.startHeap ≤ block.mem ∧ block.mem + 2 ^ block.order ≤ k.end_ := by
  obtain ⟨-, blkId, isAddr, fits⟩ := holds
  rw [isAddr]
  exact ⟨Nat.le_add_right _ _, heap.addr_le fits⟩

theorem Conserved.partition {s : System} (conserved : Conserved s) : Partition s where
  inside := by
    intro block member
    refine Kmem.Holds.bounds conserved.sound.heap ?_
    rcases List.mem_append.mp member with isLive | isFree
    · exact conserved.held block isLive
    · exact freeBlocks_held conserved.sound isFree
  once := by
    intro address low high
    obtain ⟨x, rfl⟩ := Nat.exists_eq_add_of_le low
    have below : x < s.kmem.heapSize := by
      unfold Kmem.heapSize
      omega
    rw [System.blocks, List.countP_append, countP_freeBlocks conserved.sound below, Nat.add_comm]
    exact conserved.once x below

end Partitions

/-! ## Whole runs -/

theorem Conserved.init {vstart vend : Nat} (pool : Pool vstart vend)
    (links : 2 * heapPages vstart vend ≤ nil) (marks : Nat → Mark) :
    ∃ k, Kmem.buddyInit marks vstart vend = .ok k ∧ k.startHeap = heapStart vstart vend ∧
      k.start = vstart ∧ k.end_ = vend ∧ Conserved ⟨k, []⟩ ∧ System.Merged ⟨k, []⟩ := by
  obtain ⟨k, run, sound, coalesced, ready, start, startHeap, end_, covered⟩ :=
    buddyInit_spec pool links marks
  refine ⟨k, run, startHeap, start, end_, ⟨?_, ready, by simp, fun x below => ?_⟩, ?_⟩
  · simp only [start, end_]
    exact sound
  · exact covered x below
  · simp only [System.Merged, start, end_]
    exact coalesced

theorem Conserved.run {s : System} (conserved : Conserved s) {calls : List Call}
    (valid : Along System.step System.Valid s calls) :
    ∃ after, s.run calls = .ok after ∧ Conserved after ∧ (s.Merged → after.Merged) ∧
      s.kmem.SameHeap after.kmem := by
  refine Execution.foldlM_progress System.Valid
    (fun state => Conserved state ∧ (s.Merged → state.Merged) ∧ s.kmem.SameHeap state.kmem)
    ?_ calls valid ⟨conserved, fun before => before, .refl s.kmem⟩
  rintro before call isValid ⟨now, merged, same⟩
  obtain ⟨after, stepped, next, merges, sameNext⟩ := now.step isValid
  exact ⟨after, stepped, next, fun start => merges (merged start), same.trans sameNext⟩

/-- A pool with at most 65535 marks of the lowest order has links for all. -/
theorem links_of_marks {vstart vend : Nat} (pool : Pool vstart vend)
    (fit : ∀ order, InRange order → markCount (topMarks vstart vend) order ≤ 65535) :
    2 * heapPages vstart vend ≤ nil := by
  have low := fit minOrd (by decide)
  obtain ⟨afterMarks, -, -, -⟩ := heapStart_spec pool
  unfold heapPages
  unfold markCount topMarks at *
  unfold nOrd maxOrd minOrd nil at *
  omega

/-- Conservation and disjointness. For a pool whose orders have at most 65535
marks each, `buddy_init` and every valid sequence of calls return; every live
block is aligned to its size and lies in the heap; and the live and available
blocks partition the heap. -/
theorem buddy_conservation {vstart vend : Nat} (pool : Pool vstart vend)
    (fit : ∀ order, InRange order → markCount (topMarks vstart vend) order ≤ 65535)
    (marks : Nat → Mark) :
    ∃ k, Kmem.buddyInit marks vstart vend = .ok k ∧
      ∀ calls, Along System.step System.Valid ⟨k, []⟩ calls →
        ∃ s, System.run ⟨k, []⟩ calls = .ok s ∧
          s.kmem.startHeap = heapStart vstart vend ∧ s.kmem.end_ = vend ∧ Partition s ∧
          ∀ block ∈ s.live, block.mem % 2 ^ block.order = 0 ∧
            s.kmem.startHeap ≤ block.mem ∧ block.mem + 2 ^ block.order ≤ s.kmem.end_ := by
  obtain ⟨k, initialized, startHeap, -, end_, conserved, -⟩ :=
    Conserved.init pool (links_of_marks pool fit) marks
  refine ⟨k, initialized, fun calls valid => ?_⟩
  obtain ⟨s, run, after, -, same⟩ := conserved.run valid
  refine ⟨s, run, same.startHeap.trans startHeap, same.end_.trans end_, after.partition,
    fun block member => ?_⟩
  have held := after.held block member
  refine ⟨?_, held.bounds after.sound.heap⟩
  obtain ⟨range, blkId, isAddr, -⟩ := held
  rw [isAddr]
  exact after.sound.heap.addr_aligned range

theorem pool_three_pages : Pool 4096 16384 := ⟨by decide, by decide, by decide⟩

theorem marks_three_pages :
    ∀ order, InRange order → markCount (topMarks 4096 16384) order ≤ 65535 := by
  have fit : ∀ order ∈ allOrders, markCount (topMarks 4096 16384) order ≤ 65535 := by decide
  exact fun order range => fit order (mem_allOrders.mpr range)

theorem valid_kmalloc {s : System} {order : Nat} (range : InRange order) :
    Along System.step System.Valid s [.kmalloc order] := by
  apply Along.of_forall
  intro call member state
  obtain rfl := List.mem_singleton.mp member
  exact range

/-- A pool of three pages, of which the marks take one, and one allocation. -/
theorem buddy_conservation_three_pages :
    ∃ k, Kmem.buddyInit (fun _ => ⟨0#32, 0#32⟩) 4096 16384 = .ok k ∧
      ∃ s, System.run ⟨k, []⟩ [.kmalloc 6] = .ok s ∧
        s.kmem.startHeap = heapStart 4096 16384 ∧ s.kmem.end_ = 16384 ∧ Partition s ∧
        ∀ block ∈ s.live, block.mem % 2 ^ block.order = 0 ∧
          s.kmem.startHeap ≤ block.mem ∧ block.mem + 2 ^ block.order ≤ s.kmem.end_ := by
  obtain ⟨k, initialized, runs⟩ := buddy_conservation pool_three_pages marks_three_pages
    fun _ => ⟨0#32, 0#32⟩
  exact ⟨k, initialized, runs _ (valid_kmalloc (by decide))⟩

end Rexv6.Buddy
