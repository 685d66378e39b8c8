import Rexv6.Buddy.Conservation

/-!
Contract: the shape of the free lists over whole sequences of calls.

Owns: the theorem that every order lists exactly its non-empty marks as long as
the mark indices of the heap fit the 16-bit links, the state that `buddy_init`
leaves for an arbitrary pool, and the sequence of calls after which the pool
that `main` passes has a list that leads to an empty mark.

Does not own: conservation of the heap, which is about bitmaps only.
-/

namespace Rexv6.Buddy

open Rexv6.Foundation.Execution (Along)
open Rexv6.Foundation.IndexList
open Function (update update_eq_self_iff update_idem update_of_ne update_self)

/-! ## Heaps whose indices fit the links -/

/-- Following the next links from the head visits each mark with a non-empty
bitmap once and ends at `NIL`, and the previous links go back the same way. -/
def FreeListOk (k : Kmem) (order : Nat) : Prop :=
  ∃ list : List Nat, list.Nodup ∧
    (∀ idx, idx ∈ list ↔ idx < markCount (topMarks k.start k.end_) order ∧
      (k.getMark order idx).bitmap ≠ 0#32) ∧
    Chain nil (k.next order) (k.prev order) nil (k.ord order).head list

theorem Listed.ok {k : Kmem} {order : Nat} {list : List Nat}
    (listed : Listed (topMarks k.start k.end_) k order list) : FreeListOk k order := by
  refine ⟨list, listed.nodup, fun idx => ⟨fun member => ?_, fun both => ?_⟩, listed.chain⟩
  · have inside := listed.inside idx member
    exact ⟨inside, (listed.mem idx inside).mp member⟩
  · exact (listed.mem idx both.1).mpr both.2

/-- With at most 32767 pages of heap every valid sequence of calls returns and
leaves every free list well formed. -/
theorem free_lists_ok {vstart vend : Nat} (pool : Pool vstart vend)
    (links : heapPages vstart vend ≤ 32767) (marks : Nat → Mark) :
    ∃ k, Kmem.buddyInit marks vstart vend = .ok k ∧
      ∀ calls, Along System.step System.Valid ⟨k, []⟩ calls →
        ∃ s, System.run ⟨k, []⟩ calls = .ok s ∧
          ∀ order, InRange order → FreeListOk s.kmem order := by
  have fits : 2 * heapPages vstart vend ≤ nil := by
    unfold nil
    omega
  obtain ⟨k, initialized, -, -, -, conserved, -⟩ := Conserved.init pool fits marks
  refine ⟨k, initialized, fun calls valid => ?_⟩
  obtain ⟨s, run, after, -⟩ := conserved.run valid
  refine ⟨s, run, fun order range => ?_⟩
  obtain ⟨list, listed⟩ := after.sound.wf.lists order range
  exact listed.ok

/-- A pool of three pages, of which the marks take one, and one allocation. -/
theorem free_lists_ok_three_pages :
    ∃ k, Kmem.buddyInit (fun _ => ⟨0#32, 0#32⟩) 4096 16384 = .ok k ∧
      ∃ s, System.run ⟨k, []⟩ [.kmalloc 6] = .ok s ∧
        ∀ order, InRange order → FreeListOk s.kmem order := by
  obtain ⟨k, initialized, runs⟩ := free_lists_ok pool_three_pages (by decide)
    fun _ => ⟨0#32, 0#32⟩
  exact ⟨k, initialized, runs _ (valid_kmalloc (by decide))⟩

/-! ## The state after `buddy_init` -/

/-- The links of the mark at `idx` of the highest order when its first `p` blocks
have been freed in order: the marks are listed from the last to the first. -/
def pageLnks (p idx : Nat) : BitVec 32 :=
  if 32 * idx < p then
    lnks (if 32 * (idx + 1) < p then idx + 1 else nil) (if idx = 0 then nil else idx - 1)
  else lnks nil nil

def pageBitmap (p idx : Nat) : BitVec 32 := BitVec.ofNat 32 (2 ^ min 32 (p - 32 * idx) - 1)

def pageHead (p : Nat) : Nat := if p = 0 then nil else (p - 1) / 32

/-- The first `p` pages of a heap without available blocks have been freed. -/
def Kmem.pagesFreed (k : Kmem) (p : Nat) : Kmem :=
  { k with
    orders := update k.orders (maxOrd - minOrd) ⟨pageHead p, 0⟩
    marks := fun idx => ⟨pageLnks p idx, pageBitmap p idx⟩ }

section Pages

variable {k : Kmem} {p : Nat}

theorem pagesFreed_ord : (k.pagesFreed p).ord maxOrd = ⟨pageHead p, 0⟩ := by
  simp [Kmem.pagesFreed, Kmem.ord]

theorem pagesFreed_getMark (idx : Nat) :
    (k.pagesFreed p).getMark maxOrd idx = ⟨pageLnks p idx, pageBitmap p idx⟩ := by
  rw [Kmem.getMark, pagesFreed_ord, Nat.zero_add]
  rfl

theorem lowBits_available : ∀ count < 32,
    available (BitVec.ofNat 32 (2 ^ count - 1)) count = false := by
  decide

theorem lowBits_or_bit : ∀ count < 32,
    BitVec.ofNat 32 (2 ^ count - 1) ||| bit count = BitVec.ofNat 32 (2 ^ (count + 1) - 1) := by
  decide

theorem lowBits_eq_zero : ∀ count < 32,
    BitVec.ofNat 32 (2 ^ count - 1) = 0#32 ↔ count = 0 := by
  decide

theorem pageBitmap_next : pageBitmap p (p / 32) = BitVec.ofNat 32 (2 ^ (p % 32) - 1) := by
  have low : min 32 (p - 32 * (p / 32)) = p % 32 := by omega
  rw [pageBitmap, low]

theorem pageBitmap_unset : available (pageBitmap p (p / 32)) p = false := by
  have lowest := lowBits_available _ (Nat.mod_lt p (by decide : 32 > 0))
  rw [available_eq, Nat.mod_mod] at lowest
  rw [pageBitmap_next, available_eq]
  exact lowest

theorem pageBitmap_succ (idx : Nat) : pageBitmap (p + 1) idx =
    if idx = p / 32 then pageBitmap p (p / 32) ||| bit p else pageBitmap p idx := by
  split_ifs with here
  · have small : p % 32 < 32 := Nat.mod_lt _ (by decide)
    have sameBit : bit p = bit (p % 32) := by rw [bit, bit, Nat.mod_mod]
    have more : min 32 (p + 1 - 32 * (p / 32)) = p % 32 + 1 := by omega
    rw [here, pageBitmap_next, sameBit, lowBits_or_bit _ small, pageBitmap, more]
  · unfold pageBitmap
    have same : min 32 (p + 1 - 32 * idx) = min 32 (p - 32 * idx) := by omega
    rw [same]

/-- A page in the middle of a mark changes no link. -/
theorem pageLnks_succ_of_partial (partly : p % 32 ≠ 0) (idx : Nat) :
    pageLnks (p + 1) idx = pageLnks p idx := by
  unfold pageLnks
  have listed : 32 * idx < p + 1 ↔ 32 * idx < p := by omega
  have before : 32 * (idx + 1) < p + 1 ↔ 32 * (idx + 1) < p := by omega
  simp only [listed, before]

/-- The first page of a mark puts the mark in front of the list. -/
theorem pageLnks_succ_of_first (first : p % 32 = 0) (small : p / 32 < nil) (idx : Nat) :
    pageLnks (p + 1) idx =
      if idx = p / 32 then lnks nil (pageHead p)
      else if idx = pageHead p ∧ pageHead p ≠ nil then
        lnks (p / 32) (nextLnk (pageLnks p idx))
      else pageLnks p idx := by
  unfold nil at small
  by_cases here : idx = p / 32
  · have listed : 32 * idx < p + 1 := by omega
    have notBefore : ¬ 32 * (idx + 1) < p + 1 := by omega
    have head : (if idx = 0 then nil else idx - 1) = pageHead p := by
      unfold pageHead
      split_ifs <;> omega
    rw [if_pos here, pageLnks, if_pos listed, if_neg notBefore, head]
  · rw [if_neg here]
    by_cases isHead : idx = pageHead p ∧ pageHead p ≠ nil
    · obtain ⟨same, real⟩ := isHead
      have positive : p ≠ 0 := by
        rintro rfl
        exact real rfl
      rw [pageHead, if_neg positive] at same
      have listed : 32 * idx < p := by omega
      have notBefore : ¬ 32 * (idx + 1) < p := by omega
      have before : 32 * (idx + 1) < p + 1 := by omega
      have next : idx + 1 = p / 32 := by omega
      have fits : (if idx = 0 then nil else idx - 1) % 65536 =
          if idx = 0 then nil else idx - 1 := by
        unfold nil
        split_ifs <;> omega
      have old : pageLnks p idx = lnks nil (if idx = 0 then nil else idx - 1) := by
        rw [pageLnks, if_pos listed, if_neg notBefore]
      have new : pageLnks (p + 1) idx = lnks (idx + 1) (if idx = 0 then nil else idx - 1) := by
        rw [pageLnks, if_pos (Nat.lt_succ_of_lt listed), if_pos before]
      rw [if_pos ⟨by rw [pageHead, if_neg positive]; exact same, real⟩, old, new, nextLnk_lnks,
        fits, next]
    · rw [if_neg isHead]
      have notHead : idx + 1 ≠ p / 32 := by
        intro next
        apply isHead
        have positive : p ≠ 0 := by omega
        rw [pageHead, if_neg positive]
        unfold nil
        omega
      unfold pageLnks
      have listed : 32 * idx < p + 1 ↔ 32 * idx < p := by omega
      have before : 32 * (idx + 1) < p + 1 ↔ 32 * (idx + 1) < p := by omega
      simp only [listed, before]

theorem link_eq {order idx head offset : Nat} (ord : k.ord order = ⟨head, offset⟩)
    (apart : head ≠ idx) :
    k.link order idx = { k with
      orders := update k.orders (order - minOrd) ⟨idx, offset⟩
      marks := fun place =>
        if place = offset + idx then { k.marks place with lnks := lnks nil head }
        else if place = offset + head ∧ head ≠ nil then
          { k.marks place with lnks := lnks idx (nextLnk (k.marks place).lnks) }
        else k.marks place } := by
  have notSame : offset + head ≠ offset + idx := by omega
  have ords : ∀ marks, Kmem.ord { k with marks := marks } order = ⟨head, offset⟩ := fun _ => ord
  simp only [Kmem.link, Kmem.setHead, Kmem.getMark, Kmem.setMark, ord, ords]
  by_cases empty : head = nil
  · simp only [empty, ne_eq, not_true_eq_false, if_false, and_false, ords, Kmem.mk.injEq, true_and]
    funext place
    by_cases here : place = offset + idx
    · rw [here, update_self, if_pos rfl]
    · rw [update_of_ne here, if_neg here]
  · simp only [empty, ne_eq, not_false_eq_true, if_true, and_true, ords,
      update_of_ne notSame, Kmem.mk.injEq, true_and]
    funext place
    by_cases isHead : place = offset + head
    · rw [isHead, update_self, if_neg notSame, if_pos rfl]
    · rw [update_of_ne isHead, if_neg isHead]
      by_cases here : place = offset + idx
      · rw [here, update_self, if_pos rfl]
      · rw [update_of_ne here, if_neg here]

theorem markBlk_pagesFreed (small : p / 32 < nil) :
    (k.pagesFreed p).markBlk maxOrd p = .ok (k.pagesFreed (p + 1)) := by
  have low : p % 32 < 32 := Nat.mod_lt _ (by decide)
  have mark : p >>> 5 = p / 32 := Nat.shiftRight_eq_div_pow p 5
  unfold Kmem.markBlk
  simp only [mark, pagesFreed_getMark, pageBitmap_unset, Bool.false_eq_true, if_false]
  by_cases first : p % 32 = 0
  · have empty : pageBitmap p (p / 32) = 0#32 := by
      rw [pageBitmap_next]
      exact (lowBits_eq_zero _ low).mpr first
    rw [if_pos empty]
    have head : pageHead (p + 1) = p / 32 := by
      have half : (p + 1 - 1) / 32 = p / 32 := by omega
      rw [pageHead, if_neg (by omega), half]
    have headNe : pageHead p ≠ p / 32 := by
      rw [pageHead]
      unfold nil
      split_ifs <;> omega
    rw [link_eq ((Kmem.ord_setMark _ _ _ _).trans pagesFreed_ord) headNe]
    simp only [Kmem.setMark, pagesFreed_ord, Nat.zero_add]
    congr 1
    simp only [Kmem.pagesFreed, head, update_idem, Kmem.mk.injEq, true_and]
    funext idx
    rw [pageBitmap_succ, pageLnks_succ_of_first first small]
    by_cases here : idx = p / 32
    · rw [if_pos here, if_pos here, if_pos here, here, update_self]
    · simp only [if_neg here, update_of_ne here]
      split_ifs <;> rfl
  · have nonempty : pageBitmap p (p / 32) ≠ 0#32 := by
      rw [pageBitmap_next]
      exact fun zero => first ((lowBits_eq_zero _ low).mp zero)
    rw [if_neg nonempty]
    have head : pageHead (p + 1) = pageHead p := by
      have half : (p + 1 - 1) / 32 = (p - 1) / 32 := by omega
      rw [pageHead, pageHead, if_neg (by omega), if_neg (by omega), half]
    congr 1
    unfold Kmem.setMark
    rw [pagesFreed_ord]
    simp only [Kmem.pagesFreed, head, Kmem.mk.injEq, true_and]
    funext idx
    rw [pageBitmap_succ, pageLnks_succ_of_partial first, Nat.zero_add]
    by_cases here : idx = p / 32
    · rw [here, update_self, if_pos rfl]
    · rw [update_of_ne here, if_neg here]

theorem buddyKmfree_pagesFreed (small : p / 32 < nil) (aligned : k.startHeap % 4096 = 0)
    (top : k.startHeap + p * 4096 < 2 ^ 32) :
    (k.pagesFreed p).buddyKmfree (k.startHeap + p * 4096) maxOrd =
      .ok (k.pagesFreed (p + 1)) := by
  have mark : p >>> 5 = p / 32 := Nat.shiftRight_eq_div_pow p 5
  have blkId : (k.pagesFreed p).mem2blkid maxOrd (k.startHeap + p * 4096) = p := by
    have offset : (k.startHeap + p * 4096 + 2 ^ 32 - k.startHeap) % 2 ^ 32 = p * 4096 := by omega
    rw [Kmem.mem2blkid]
    simp only [Kmem.pagesFreed, offset]
    rw [Nat.shiftRight_eq_div_pow, two_pow_maxOrd, Nat.mul_div_cancel _ (by decide)]
  have allowed : ¬ (maxOrd > maxOrd ∨ maxOrd < minOrd ∨
      (k.startHeap + p * 4096) % 2 ^ maxOrd ≠ 0) := by
    rw [two_pow_maxOrd, Nat.add_mul_mod_self_right, aligned]
    decide
  rw [Kmem.buddyKmfree, if_neg allowed, nOrd, Kmem.internalKfree]
  simp only [blkId, mark, pagesFreed_getMark, pageBitmap_unset, Bool.false_eq_true, if_false,
    or_true, if_true]
  exact markBlk_pagesFreed small

/-- The last loop of `buddy_init` on a heap without available blocks. -/
theorem freePages_pagesFreed (aligned : k.startHeap % 4096 = 0) {pages : Nat}
    (ends : k.end_ = k.startHeap + pages * 4096) (top : k.end_ < 2 ^ 32)
    (small : pages / 32 < nil) :
    ∀ (remaining fuel p : Nat), p + remaining = pages → remaining < fuel →
      Kmem.freePages fuel (k.pagesFreed p) (k.startHeap + p * 4096) = .ok (k.pagesFreed pages)
  | _, 0, _, _, enough => absurd enough (Nat.not_lt_zero _)
  | 0, fuel + 1, p, last, _ => by
      obtain rfl : p = pages := last
      rw [Kmem.freePages, if_neg]
      change ¬ k.startHeap + p * 4096 < k.end_
      omega
  | remaining + 1, fuel + 1, p, last, enough => by
      have inHeap : k.startHeap + p * 4096 < (k.pagesFreed p).end_ := by
        change k.startHeap + p * 4096 < k.end_
        omega
      have next : addU (k.startHeap + p * 4096) (2 ^ maxOrd) = k.startHeap + (p + 1) * 4096 := by
        rw [addU, two_pow_maxOrd, Nat.mod_eq_of_lt (by omega), Nat.add_one_mul, Nat.add_assoc]
      have freed := buddyKmfree_pagesFreed (k := k) (p := p)
        (lt_of_le_of_lt (Nat.div_le_div_right (by omega)) small) aligned (by omega)
      rw [Kmem.freePages, if_pos inHeap, freed]
      simp only [bind, Except.bind]
      rw [next]
      exact freePages_pagesFreed aligned ends top small remaining fuel (p + 1) (by omega) (by omega)

theorem clearMarks_of_clear (order : Nat) (clear : k.marks = fun _ => ⟨lnks nil nil, 0#32⟩) :
    ∀ count : Nat, k.clearMarks order count = k
  | 0 => rfl
  | count + 1 => by
      have same : update k.marks ((k.ord order).offset + count) ⟨lnks nil nil, 0#32⟩ =
          k.marks := by
        rw [clear]
        exact update_eq_self_iff.mpr rfl
      rw [Kmem.clearMarks, clearMarks_of_clear order clear count, Kmem.setMark, same]

end Pages

/-! ## The pool of `main` -/

/-- `P2V(4 * 1024 * 1024)` and `P2V(PHYSTOP)`. -/
def mainStart : Nat := 0x80400000

def mainEnd : Nat := 0x8E000000

/-- The allocator of `main` before any page is freed, on memory that holds empty
marks already. -/
def mainCleared : Kmem where
  start := mainStart
  startHeap := 0x805b5000
  end_ := mainEnd
  initialized := false
  orders := fun i => if i < 7 then ⟨nil, 1761 * 2 ^ (6 - i) - 1761⟩ else ⟨0, 0⟩
  marks := fun _ => ⟨lnks nil nil, 0#32⟩

def mainHeap : Kmem := { mainCleared.pagesFreed 55883 with initialized := true }

theorem main_initOrders :
    Kmem.initOrders nOrd ⟨mainStart, 0, mainEnd, false, fun _ => ⟨0, 0⟩,
      fun _ => ⟨lnks nil nil, 0#32⟩⟩ 1761 0 = ({ mainCleared with startHeap := 0 }, 223647) := by
  change Kmem.initOrders 7 _ 1761 0 = _
  simp only [Kmem.initOrders, Kmem.placeOrder, clearMarks_of_clear, Prod.mk.injEq, mainCleared,
    Kmem.mk.injEq, true_and, and_true]
  refine ⟨?_, by decide⟩
  funext i
  rcases i with _ | _ | _ | _ | _ | _ | _ | i <;> rfl

theorem mainCleared_pagesFreed : mainCleared.pagesFreed 0 = mainCleared := by
  have orders : update mainCleared.orders (maxOrd - minOrd) ⟨pageHead 0, 0⟩ =
      mainCleared.orders := update_eq_self_iff.mpr rfl
  have marks : (fun idx => (⟨pageLnks 0 idx, pageBitmap 0 idx⟩ : Mark)) = mainCleared.marks := by
    funext idx
    simp [pageLnks, pageBitmap, mainCleared]
  rw [Kmem.pagesFreed, orders, marks]

/-- What `initmem` leaves in `main`. -/
theorem main_buddyInit :
    Kmem.buddyInit (fun _ => ⟨lnks nil nil, 0#32⟩) mainStart mainEnd = .ok mainHeap := by
  have len : (mainEnd + 2 ^ 32 - mainStart) % 2 ^ 32 = 0xDC00000 := by decide
  have count : addU (0xDC00000 >>> (maxOrd + 5)) 1 = 1761 := by decide
  have startHeap : alignUp (addU mainCleared.start (223647 * 8)) (2 ^ maxOrd) =
      mainCleared.startHeap := by decide
  have freed : Kmem.freePages Kmem.maxPages (mainCleared.pagesFreed 0)
      (mainCleared.startHeap + 0 * 4096) = .ok (mainCleared.pagesFreed 55883) :=
    freePages_pagesFreed (by decide) (by decide) (by decide) (by decide) 55883 Kmem.maxPages 0
      (by decide) (by decide)
  rw [mainCleared_pagesFreed, Nat.zero_mul, Nat.add_zero] at freed
  unfold Kmem.buddyInit
  simp only [len, count, main_initOrders]
  rw [startHeap, freed]
  rfl

/-- Split one page until blocks of both of its marks of the lowest order have
been handed out, keep one of the second mark available and free one of the
first. -/
def splittingCalls : List Call :=
  [.kmalloc 6, .kmalloc 6, .kmalloc 7, .kmalloc 8, .kmalloc 9, .kmalloc 10, .kmalloc 6,
    .kmfree 0x8DFF5040 6]

/-- The links of the list that these calls leave: the head is mark 111744, and
the link to mark 111745 has lost its upper bits. -/
theorem main_splitting :
    Along System.step System.Valid ⟨mainHeap, []⟩ splittingCalls ∧
      (System.run ⟨mainHeap, []⟩ splittingCalls).toOption.map (fun s =>
        ((s.kmem.ord 6).head, s.kmem.next 6 111744, (s.kmem.getMark 6 46209).bitmap)) =
        some (111744, 46209, 0#32) := by
  decide +kernel

/-- A list whose head leads to an empty mark is not well formed. -/
theorem not_freeListOk {k : Kmem} {order head next : Nat} (isHead : (k.ord order).head = head)
    (isNext : k.next order head = next) (empty : (k.getMark order next).bitmap = 0#32)
    (realHead : head ≠ nil) (realNext : next ≠ nil) : ¬ FreeListOk k order := by
  rintro ⟨list, -, members, chain⟩
  rw [isHead] at chain
  have inList := (chain.next_mem head (chain.here_mem realHead)).resolve_left
    (by rw [isNext]; exact realNext)
  rw [isNext] at inList
  exact ((members next).mp inList).2 empty

/-- In the pool that `main` passes a valid sequence of calls breaks the list of
the lowest order. -/
theorem main_free_list_broken :
    ∃ k s, Kmem.buddyInit (fun _ => ⟨lnks nil nil, 0#32⟩) mainStart mainEnd = .ok k ∧
      Along System.step System.Valid ⟨k, []⟩ splittingCalls ∧
      System.run ⟨k, []⟩ splittingCalls = .ok s ∧ ¬ FreeListOk s.kmem 6 := by
  obtain ⟨valid, links⟩ := main_splitting
  cases run : System.run ⟨mainHeap, []⟩ splittingCalls with
  | error halt => simp [run, Except.toOption] at links
  | ok s =>
    simp only [run, Except.toOption, Option.map_some, Option.some.injEq, Prod.mk.injEq] at links
    exact ⟨mainHeap, s, main_buddyInit, valid, run,
      not_freeListOk links.1 links.2.1 links.2.2 (by decide) (by decide)⟩

end Rexv6.Buddy
