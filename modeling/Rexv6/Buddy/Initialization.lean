import Rexv6.Buddy.Cover

/-!
Contract: what `buddy_init` leaves behind.

Owns: the layout of the mark array, the start of the heap, and that every page
of the heap ends up as an available block of the highest order.

Does not own: the calls made afterwards.
-/

namespace Rexv6.Buddy

/-! ## Pools -/

/-- A pool of at least one page that ends below the top of the address space at
a page boundary. -/
structure Pool (vstart vend : Nat) : Prop where
  page : vstart + 2 ^ maxOrd ≤ vend
  top : vend < 2 ^ 32
  aligned : vend % 2 ^ maxOrd = 0

def topMarks (vstart vend : Nat) : Nat := (vend - vstart) / 2 ^ (maxOrd + 5) + 1

/-- Where the heap starts: after all the marks, at a page boundary. -/
def heapStart (vstart vend : Nat) : Nat :=
  alignUp (vstart + (topMarks vstart vend * 2 ^ nOrd - topMarks vstart vend) * 8) (2 ^ maxOrd)

def heapPages (vstart vend : Nat) : Nat := (vend - heapStart vstart vend) / 2 ^ maxOrd

section Pools

variable {vstart vend : Nat}

theorem heapStart_spec (pool : Pool vstart vend) :
    vstart + (topMarks vstart vend * 2 ^ nOrd - topMarks vstart vend) * 8 ≤ heapStart vstart vend ∧
      heapStart vstart vend ≤ vend ∧ heapStart vstart vend % 2 ^ maxOrd = 0 ∧
      0 < heapStart vstart vend := by
  obtain ⟨page, top, aligned⟩ := pool
  have marks : vstart + (topMarks vstart vend * 2 ^ nOrd - topMarks vstart vend) * 8 ≤ vend ∧
      0 < vstart + (topMarks vstart vend * 2 ^ nOrd - topMarks vstart vend) * 8 := by
    unfold topMarks nOrd maxOrd minOrd at *
    omega
  unfold heapStart alignUp
  generalize vstart + (topMarks vstart vend * 2 ^ nOrd - topMarks vstart vend) * 8 = marksEnd
    at marks ⊢
  have noWrap : addU marksEnd (2 ^ maxOrd - 1) = marksEnd + (2 ^ maxOrd - 1) := by
    unfold addU maxOrd at *
    omega
  simp only [noWrap]
  unfold maxOrd at *
  omega

end Pools

/-! ## Clearing the marks -/

section Clearing

variable {n : Nat} {k : Kmem}

/-- An order with an empty list and no available block. -/
structure Cleared (n : Nat) (k : Kmem) (order : Nat) : Prop where
  head : (k.ord order).head = nil
  offset : (k.ord order).offset + n = markCount n order
  marks : ∀ idx < markCount n order, k.getMark order idx = ⟨lnks nil nil, 0#32⟩

theorem Cleared.congr {after : Kmem} {order : Nat} (cleared : Cleared n k order)
    (orders : after.orders = k.orders) (marks : after.marks = k.marks) :
    Cleared n after order := by
  have ord : after.ord order = k.ord order := by rw [Kmem.ord, orders, Kmem.ord]
  refine ⟨by rw [ord]; exact cleared.head, by rw [ord]; exact cleared.offset,
    fun idx inside => ?_⟩
  rw [Kmem.getMark, ord, marks]
  exact cleared.marks idx inside

theorem clearMarks_same (order : Nat) : ∀ count : Nat,
    (k.clearMarks order count).orders = k.orders ∧
      (k.clearMarks order count).start = k.start ∧ (k.clearMarks order count).end_ = k.end_
  | 0 => ⟨rfl, rfl, rfl⟩
  | count + 1 => clearMarks_same order count

theorem clearMarks_marks (order : Nat) : ∀ count position : Nat,
    (k.clearMarks order count).marks position =
      if (k.ord order).offset ≤ position ∧ position < (k.ord order).offset + count then
        ⟨lnks nil nil, 0#32⟩
      else k.marks position
  | 0, position => by
      rw [if_neg (by omega)]
      rfl
  | count + 1, position => by
      have offset : ((k.clearMarks order count).ord order).offset = (k.ord order).offset := by
        rw [Kmem.ord, (clearMarks_same order count).1]
        rfl
      unfold Kmem.clearMarks
      simp only [Kmem.setMark, offset]
      by_cases last : position = (k.ord order).offset + count
      · rw [last, Function.update_self, if_pos (by omega)]
      · rw [Function.update_of_ne last, clearMarks_marks order count position]
        split_ifs <;> first | rfl | omega

/-- One turn of the outer loop prepares one order and keeps the higher ones. -/
theorem cleared_step {i : Nat}
    (higher : ∀ order, i + 1 + minOrd ≤ order → order ≤ maxOrd → Cleared n k order)
    {order : Nat} (low : i + minOrd ≤ order) (high : order ≤ maxOrd) :
    Cleared n ((k.placeOrder i (markCount n (i + minOrd) - n)).clearMarks (i + minOrd)
      (markCount n (i + minOrd))) order := by
  have ords : ∀ other, ((k.placeOrder i (markCount n (i + minOrd) - n)).clearMarks (i + minOrd)
      (markCount n (i + minOrd))).ord other =
      Function.update k.orders i ⟨nil, markCount n (i + minOrd) - n⟩ (other - minOrd) := by
    intro other
    rw [Kmem.ord, (clearMarks_same _ _).1]
    rfl
  have offset : ((k.placeOrder i (markCount n (i + minOrd) - n)).ord (i + minOrd)).offset =
      markCount n (i + minOrd) - n := by
    simp [Kmem.ord, Kmem.placeOrder]
  have enough : n ≤ markCount n (i + minOrd) := Nat.le_mul_of_pos_right n (Nat.two_pow_pos _)
  by_cases here : order = i + minOrd
  · subst here
    have isOrder : Function.update k.orders i ⟨nil, markCount n (i + minOrd) - n⟩
        (i + minOrd - minOrd) = ⟨nil, markCount n (i + minOrd) - n⟩ := by simp
    refine ⟨by rw [ords, isOrder], by rw [ords, isOrder]; simp only; omega, fun idx inside => ?_⟩
    rw [Kmem.getMark, ords, isOrder, clearMarks_marks, offset, if_pos]
    simp only
    omega
  · obtain ⟨head, place, marks⟩ := higher order (by omega) high
    have isOrder : Function.update k.orders i ⟨nil, markCount n (i + minOrd) - n⟩
        (order - minOrd) = k.ord order := by
      rw [Function.update_of_ne (by omega)]
      rfl
    refine ⟨by rw [ords, isOrder, head], by rw [ords, isOrder, place], fun idx inside => ?_⟩
    have gap := markCount_lower (n := n) (show i + minOrd < order by omega) high
    rw [Kmem.getMark, ords, isOrder, clearMarks_marks, offset, if_neg (by omega)]
    exact marks idx inside

theorem initOrders_spec (small : n * 2 ^ nOrd < 2 ^ 32) : ∀ (i : Nat) {k : Kmem}, i ≤ nOrd →
    (∀ order, i + minOrd ≤ order → order ≤ maxOrd → Cleared n k order) →
      ∃ after, Kmem.initOrders i k (n * 2 ^ (nOrd - i)) (n * 2 ^ (nOrd - i) - n) =
          (after, n * 2 ^ nOrd - n) ∧
        after.start = k.start ∧ after.end_ = k.end_ ∧
        ∀ order, InRange order → Cleared n after order
  | 0, k, _, cleared => ⟨k, rfl, rfl, rfl, fun order range =>
    cleared order (by simpa using range.1) range.2⟩
  | i + 1, k, below, cleared => by
      have count : n * 2 ^ (nOrd - (i + 1)) = markCount n (i + minOrd) := by
        unfold markCount nOrd
        congr 2
        omega
      have twice : n * 2 ^ (nOrd - i) = 2 * (n * 2 ^ (nOrd - (i + 1))) := by
        have next : nOrd - i = nOrd - (i + 1) + 1 := by omega
        rw [next, pow_succ]
        ring
      have atMost : n * 2 ^ (nOrd - i) ≤ n * 2 ^ nOrd :=
        Nat.mul_le_mul_left n (Nat.pow_le_pow_right (by decide) (Nat.sub_le _ _))
      have enough : n ≤ n * 2 ^ (nOrd - (i + 1)) := Nat.le_mul_of_pos_right n (Nat.two_pow_pos _)
      obtain ⟨after, run, start, end_, all⟩ := initOrders_spec small i (by omega)
        (fun order low high => cleared_step cleared low high)
      refine ⟨after, ?_, ?_, ?_, all⟩
      · have marks : addU (n * 2 ^ (nOrd - (i + 1))) (n * 2 ^ (nOrd - (i + 1))) =
            n * 2 ^ (nOrd - i) := by
          unfold addU
          omega
        have total : addU (n * 2 ^ (nOrd - (i + 1)) - n) (n * 2 ^ (nOrd - (i + 1))) =
            n * 2 ^ (nOrd - i) - n := by
          unfold addU
          omega
        rw [Kmem.initOrders, marks, total, count]
        exact run
      · exact start.trans (clearMarks_same _ _).2.1
      · exact end_.trans (clearMarks_same _ _).2.2

theorem Cleared.listed {order : Nat} (cleared : Cleared n k order) : Listed n k order [] where
  chain := cleared.head
  nodup := List.nodup_nil
  small := by simp
  inside := by simp
  mem := fun idx inside => by simp [cleared.marks idx inside]

theorem Cleared.free {order blkId : Nat} (cleared : Cleared n k order)
    (inside : blkId >>> 5 < markCount n order) : k.free order blkId = false := by
  rw [Kmem.free, cleared.marks _ inside, available_eq]
  simp

theorem Cleared.coalesced (cleared : ∀ order, InRange order → Cleared n k order) :
    Coalesced n k := by
  intro order blkId range _ inside isFree
  rw [(cleared order range).free inside] at isFree
  cases isFree

/-- With all orders cleared nothing is available. -/
theorem Cleared.sound (heap : Heap n k) (cleared : ∀ order, InRange order → Cleared n k order) :
    Sound n k where
  wf := ⟨fun order range => (cleared order range).offset, fun order range =>
    ⟨[], (cleared order range).listed⟩⟩
  heap := heap
  inside := fun order blkId range inside isSet => by
    simp [(cleared order range).free inside] at isSet

theorem Cleared.cover (heap : Heap n k) (cleared : ∀ order, InRange order → Cleared n k order)
    {x : Nat} (below : x < k.heapSize) : k.cover x = 0 := by
  rw [Kmem.cover, List.countP_eq_zero]
  intro order isOrder
  have range := mem_allOrders.mp isOrder
  simp [(cleared order range).free (heap.byte_inside range below)]

end Clearing

/-! ## Freeing the pages -/

theorem two_pow_maxOrd : 2 ^ maxOrd = 4096 := rfl

theorem spans_page (p x : Nat) :
    spans maxOrd p x = if p * 4096 ≤ x ∧ x < p * 4096 + 4096 then 1 else 0 := by
  unfold spans
  rw [two_pow_maxOrd]
  by_cases inside : p * 4096 ≤ x ∧ x < p * 4096 + 4096
  · rw [if_pos inside, if_pos (by omega)]
  · rw [if_neg inside, if_neg (by omega)]

theorem Heap.page_fits {n p : Nat} {k : Kmem} (heap : Heap n k)
    (more : k.addr maxOrd p < k.end_) :
    p * 4096 + 4096 ≤ k.heapSize ∧ k.startHeap + p * 4096 + 4096 ≤ k.end_ := by
  have pages := heap.pages
  rw [Kmem.addr, two_pow_maxOrd] at more
  rw [two_pow_maxOrd] at pages
  unfold Kmem.heapSize at *
  omega

theorem freePage_spec {n p : Nat} {k : Kmem} (sound : Sound n k)
    (fits : p * 4096 + 4096 ≤ k.heapSize)
    (covered : ∀ x < k.heapSize, k.cover x = if x < p * 4096 then 1 else 0) :
    ∃ after, k.buddyKmfree (k.addr maxOrd p) maxOrd = .ok after ∧ Sound n after ∧
      (Coalesced n k → Coalesced n after) ∧ k.SameHeap after ∧
      ∀ x < k.heapSize, after.cover x = if x < p * 4096 + 4096 then 1 else 0 := by
  have aligned : k.addr maxOrd p % 2 ^ maxOrd = 0 := by
    rw [Kmem.addr, Nat.add_mul_mod_self_right]
    exact sound.heap.aligned
  obtain ⟨after, freed, afterSound, coalesces, same, cover⟩ :=
    internalKfree_spec nOrd sound (show InRange maxOrd by decide) (by decide)
      (by rw [two_pow_maxOrd, Nat.add_one_mul]; exact fits)
      (by
        intro x below isPage
        rw [spans_page] at isPage
        rw [covered x below]
        split_ifs at isPage ⊢ <;> omega)
      (by
        intro x below
        rw [covered x below]
        split_ifs <;> omega)
  refine ⟨after, ?_, afterSound, coalesces, same, fun x below => ?_⟩
  · rw [Kmem.buddyKmfree, if_neg]
    · exact freed
    · rw [aligned]
      decide
  · rw [cover x below, covered x below, spans_page]
    split_ifs <;> omega

/-- The last loop of `buddy_init`, when the pages before page `p` are already
available. -/
theorem freePages_spec {n : Nat} (fuel p : Nat) {k : Kmem} (sound : Sound n k)
    (low : p * 4096 ≤ k.heapSize) (high : k.heapSize < (p + fuel) * 4096)
    (covered : ∀ x < k.heapSize, k.cover x = if x < p * 4096 then 1 else 0) :
    ∃ after, Kmem.freePages fuel k (k.addr maxOrd p) = .ok after ∧ Sound n after ∧
      (Coalesced n k → Coalesced n after) ∧ k.SameHeap after ∧
        ∀ x < k.heapSize, after.cover x = 1 := by
  induction fuel generalizing p k with
  | zero => omega
  | succ fuel ih =>
    unfold Kmem.freePages
    by_cases more : k.addr maxOrd p < k.end_
    · rw [if_pos more]
      obtain ⟨fits, inside⟩ := sound.heap.page_fits more
      clear more
      obtain ⟨middle, freed, middleSound, coalesces, same, cover⟩ :=
        freePage_spec sound fits covered
      have size := same.heapSize
      have nextLow : (p + 1) * 4096 ≤ middle.heapSize := by
        rw [size, Nat.add_one_mul]
        exact fits
      have nextHigh : middle.heapSize < (p + 1 + fuel) * 4096 := by
        rw [size, Nat.add_right_comm]
        exact high
      have nextCovered : ∀ x < middle.heapSize,
          middle.cover x = if x < (p + 1) * 4096 then 1 else 0 := by
        intro x below
        rw [size] at below
        rw [cover x below, Nat.add_one_mul]
      obtain ⟨after, rest, afterSound, restCoalesces, afterSame, all⟩ :=
        ih (p + 1) middleSound nextLow nextHigh nextCovered
      refine ⟨after, ?_, afterSound, fun before => restCoalesces (coalesces before),
        same.trans afterSame, fun x below => all x (by rw [size]; exact below)⟩
      have next : addU (k.addr maxOrd p) (2 ^ maxOrd) = middle.addr maxOrd (p + 1) := by
        rw [addU, Kmem.addr, Kmem.addr, same.startHeap, two_pow_maxOrd,
          Nat.mod_eq_of_lt (lt_of_le_of_lt inside sound.heap.top)]
        ring
      simp only [freed, bind, Except.bind]
      rw [next]
      exact rest
    · rw [if_neg more]
      refine ⟨k, rfl, sound, fun before => before, .refl k, fun x below => ?_⟩
      have last : k.heapSize ≤ p * 4096 := by
        rw [Kmem.addr, two_pow_maxOrd] at more
        unfold Kmem.heapSize
        omega
      rw [covered x below, if_pos (lt_of_lt_of_le below last)]

theorem Sound.initialize {n : Nat} {k : Kmem} (sound : Sound n k) :
    Sound n { k with initialized := true } where
  wf := ⟨sound.wf.layout, fun order range =>
    (sound.wf.lists order range).elim fun list listed => ⟨list, listed.congr rfl fun _ _ => rfl⟩⟩
  heap := ⟨sound.heap.1, sound.heap.2, sound.heap.3, sound.heap.4, sound.heap.5, sound.heap.6,
    sound.heap.7⟩
  inside := sound.inside

/-- `buddy_init` of a pool whose heap is small enough for the links: every byte
of the heap is in exactly one available block. -/
theorem buddyInit_spec {vstart vend : Nat} (pool : Pool vstart vend)
    (links : 2 * heapPages vstart vend ≤ nil) (marks : Nat → Mark) :
    ∃ k, Kmem.buddyInit marks vstart vend = .ok k ∧ Sound (topMarks vstart vend) k ∧
      Coalesced (topMarks vstart vend) k ∧ k.initialized = true ∧ k.start = vstart ∧
        k.startHeap = heapStart vstart vend ∧
      k.end_ = vend ∧ ∀ x < k.heapSize, k.cover x = 1 := by
  obtain ⟨afterMarks, beforeEnd, aligned, positive⟩ := heapStart_spec pool
  obtain ⟨page, top, endAligned⟩ := pool
  have len : (vend + 2 ^ 32 - vstart) % 2 ^ 32 = vend - vstart := by
    omega
  have count : addU ((vend - vstart) >>> (maxOrd + 5)) 1 = topMarks vstart vend := by
    unfold addU topMarks
    rw [Nat.shiftRight_eq_div_pow]
    unfold maxOrd at *
    omega
  have small : topMarks vstart vend * 2 ^ nOrd < 2 ^ 32 := by
    unfold topMarks nOrd maxOrd minOrd at *
    omega
  obtain ⟨cleared, run, start, end_, all⟩ := initOrders_spec small nOrd
    (k := ⟨vstart, 0, vend, false, fun _ => ⟨0, 0⟩, marks⟩) le_rfl
    (fun order low high => absurd low (by unfold nOrd minOrd maxOrd at *; omega))
  rw [Nat.sub_self, pow_zero, Nat.mul_one, Nat.sub_self] at run
  have startHeap : alignUp (addU cleared.start
      ((topMarks vstart vend * 2 ^ nOrd - topMarks vstart vend) * 8)) (2 ^ maxOrd) =
      heapStart vstart vend := by
    rw [start, addU, heapStart, Nat.mod_eq_of_lt]
    exact lt_of_le_of_lt (afterMarks.trans beforeEnd) top
  have heap : Heap (topMarks vstart vend)
      { cleared with startHeap := heapStart vstart vend } := by
    have links' := links
    unfold heapPages at links'
    refine ⟨positive, aligned, ?_, ?_, ?_, ?_, ?_⟩
    all_goals simp only [Kmem.heapSize, end_]
    · exact beforeEnd
    · unfold maxOrd at *
      omega
    · exact top
    · unfold topMarks nOrd maxOrd minOrd at *
      omega
    · unfold maxOrd nil at *
      omega
  have clearedAll : ∀ order, InRange order →
      Cleared (topMarks vstart vend) { cleared with startHeap := heapStart vstart vend } order :=
    fun order range => (all order range).congr rfl rfl
  obtain ⟨k, freed, sound, coalesces, same, covered⟩ := freePages_spec Kmem.maxPages 0
    (Cleared.sound heap clearedAll) (by simp) (by
      have isTop := heap.top
      simp only [Kmem.heapSize, Kmem.maxPages] at isTop ⊢
      omega)
    (fun x below => by rw [Cleared.cover heap clearedAll below]; simp)
  have begins : Kmem.addr { cleared with startHeap := heapStart vstart vend } maxOrd 0 =
      heapStart vstart vend := by simp [Kmem.addr]
  rw [begins] at freed
  refine ⟨{ k with initialized := true }, ?_, sound.initialize,
    coalesces (Cleared.coalesced clearedAll), rfl, same.start.trans start,
    same.startHeap, same.end_.trans end_, fun x below => ?_⟩
  · unfold Kmem.buddyInit
    simp only [len, count, run]
    rw [startHeap, freed]
    rfl
  · exact covered x (lt_of_lt_of_eq below same.heapSize)

end Rexv6.Buddy
