import Rexv6.Foundation.IndexList
import Rexv6.Buddy.Marks

/-!
Contract: the free list of every order.

Owns: what it means that a list of marks is linked, that an order lists exactly
its marks with free blocks, and that `mark_blk`, `unmark_blk` and `get_blk`
keep it so and change the freeness of one block.

Does not own: which blocks may be marked or unmarked, and the merging and
splitting above.
-/

namespace Rexv6.Buddy

open Rexv6.Foundation.IndexList

/-! ## Lists of marks -/

def Kmem.next (k : Kmem) (order idx : Nat) : Nat := nextLnk (k.getMark order idx).lnks

def Kmem.prev (k : Kmem) (order idx : Nat) : Nat := preLnk (k.getMark order idx).lnks

/-- The links of an order run through `list`, and every index in it fits a
16-bit link. -/
structure Linked (n : Nat) (k : Kmem) (order : Nat) (list : List Nat) : Prop where
  chain : Chain nil (k.next order) (k.prev order) nil (k.ord order).head list
  nodup : list.Nodup
  small : ∀ idx ∈ list, idx < nil
  inside : ∀ idx ∈ list, idx < markCount n order

/-- The free list of an order holds exactly its marks with a free block. -/
structure Listed (n : Nat) (k : Kmem) (order : Nat) (list : List Nat) : Prop extends
    Linked n k order list where
  mem : ∀ idx < markCount n order, idx ∈ list ↔ (k.getMark order idx).bitmap ≠ 0#32

/-- Every order has its marks in place and a well-formed free list. -/
structure Wf (n : Nat) (k : Kmem) : Prop where
  layout : Layout n k
  lists : ∀ order, InRange order → ∃ list, Listed n k order list

def Kmem.free (k : Kmem) (order blkId : Nat) : Bool :=
  available (k.getMark order (blkId >>> 5)).bitmap blkId

/-- What no call changes after `buddy_init`. -/
structure Kmem.SameHeap (k after : Kmem) : Prop where
  start : after.start = k.start
  startHeap : after.startHeap = k.startHeap
  end_ : after.end_ = k.end_
  initialized : after.initialized = k.initialized

theorem Kmem.SameHeap.refl (k : Kmem) : k.SameHeap k := ⟨rfl, rfl, rfl, rfl⟩

theorem Kmem.SameHeap.trans {k middle after : Kmem} (first : k.SameHeap middle)
    (second : middle.SameHeap after) : k.SameHeap after :=
  ⟨second.1.trans first.1, second.2.trans first.2, second.3.trans first.3,
    second.4.trans first.4⟩

section Lists

variable {n : Nat} {k : Kmem} {order : Nat} {list : List Nat}

theorem Linked.congr {after : Kmem} (linked : Linked n k order list)
    (head : (after.ord order).head = (k.ord order).head)
    (same : ∀ idx < markCount n order,
      (after.getMark order idx).lnks = (k.getMark order idx).lnks) :
    Linked n after order list where
  chain := by
    rw [head]
    refine linked.chain.congr fun idx member => ?_
    have sameLinks := same idx (linked.inside idx member)
    simp only [Kmem.next, Kmem.prev, sameLinks, and_self]
  nodup := linked.nodup
  small := linked.small
  inside := linked.inside

theorem Listed.congr {after : Kmem} (listed : Listed n k order list)
    (head : (after.ord order).head = (k.ord order).head)
    (same : ∀ idx < markCount n order, after.getMark order idx = k.getMark order idx) :
    Listed n after order list where
  toLinked := listed.toLinked.congr head fun idx inside => by rw [same idx inside]
  mem := fun idx inside => by
    rw [same idx inside]
    exact listed.mem idx inside

theorem Linked.head_cases (linked : Linked n k order list) :
    (k.ord order).head = nil ∨ (k.ord order).head ∈ list := by
  by_cases empty : (k.ord order).head = nil
  · exact Or.inl empty
  · exact Or.inr (linked.chain.here_mem empty)

/-- What a link field stores of an index that is `NIL` or listed. -/
theorem Linked.mod_eq (linked : Linked n k order list) {idx : Nat}
    (place : idx = nil ∨ idx ∈ list) :
    idx % 65536 = idx := by
  apply Nat.mod_eq_of_lt
  rcases place with rfl | member
  · decide
  · exact lt_trans (linked.small idx member) (by decide)

/-! ## Inserting a mark -/

theorem Layout.getMark_link (layout : Layout n k) (range : InRange order) {idx : Nat}
    (inside : idx < markCount n order)
    (headInside : (k.ord order).head ≠ nil →
      (k.ord order).head < markCount n order ∧ (k.ord order).head ≠ idx)
    {other otherIdx : Nat} (otherRange : InRange other)
    (otherInside : otherIdx < markCount n other) :
    (k.link order idx).getMark other otherIdx =
      if other = order ∧ otherIdx = idx then
        { k.getMark order idx with lnks := lnks nil (k.ord order).head }
      else if other = order ∧ otherIdx = (k.ord order).head ∧ (k.ord order).head ≠ nil then
        { k.getMark order (k.ord order).head with
          lnks := lnks idx (k.next order (k.ord order).head) }
      else k.getMark other otherIdx := by
  unfold Kmem.link
  rw [Kmem.getMark_setHead _ _ range otherRange]
  by_cases empty : (k.ord order).head = nil
  · simp only [empty, ne_eq, not_true_eq_false, if_false, and_false]
    rw [layout.getMark_setMark range otherRange inside otherInside]
  · obtain ⟨headIn, headNe⟩ := headInside empty
    have headMark := layout.getMark_setMark range range inside headIn
      { k.getMark order idx with lnks := lnks nil (k.ord order).head }
    rw [if_neg fun clash => headNe clash.2] at headMark
    rw [if_pos empty, (layout.setMark _ _ _).getMark_setMark range otherRange headIn otherInside,
      headMark, layout.getMark_setMark range otherRange inside otherInside]
    by_cases isIdx : other = order ∧ otherIdx = idx
    · have notHead : ¬ (other = order ∧ otherIdx = (k.ord order).head) := fun isHead =>
        headNe (isHead.2.symm.trans isIdx.2)
      rw [if_neg notHead, if_pos isIdx, if_pos isIdx]
    · rw [if_neg isIdx, if_neg isIdx]
      simp only [Kmem.next, empty, not_false_eq_true, ne_eq, and_true]

theorem Kmem.ord_link {idx other : Nat} (range : InRange order) (otherRange : InRange other) :
    (k.link order idx).ord other =
      if other = order then { k.ord order with head := idx } else k.ord other := by
  unfold Kmem.link
  rw [Kmem.ord_setHead _ range otherRange]
  split <;> split <;> rfl

theorem Kmem.sameHeap_link (idx : Nat) : k.SameHeap (k.link order idx) := by
  unfold Kmem.link
  simp only
  split <;> exact ⟨rfl, rfl, rfl, rfl⟩

theorem Linked.link (linked : Linked n k order list) (layout : Layout n k) (range : InRange order)
    {idx : Nat} (inside : idx < markCount n order) (small : idx < nil) (fresh : idx ∉ list) :
    Linked n (k.link order idx) order (idx :: list) := by
  have headInside : (k.ord order).head ≠ nil →
      (k.ord order).head < markCount n order ∧ (k.ord order).head ≠ idx := fun more =>
    ⟨linked.inside _ (linked.chain.here_mem more), fun same =>
      fresh (same ▸ linked.chain.here_mem more)⟩
  have marks := fun other (otherIn : other < markCount n order) =>
    layout.getMark_link range inside headInside range otherIn
  have idxFits : idx % 65536 = idx := Nat.mod_eq_of_lt (lt_trans small (by decide))
  refine ⟨?_, List.nodup_cons.mpr ⟨fresh, linked.nodup⟩, ?_, ?_⟩
  · rw [Kmem.ord_link range range, if_pos rfl]
    refine linked.chain.push linked.nodup (Nat.ne_of_lt small) ?_ ?_ ?_ ?_
    · rw [Kmem.next, marks idx inside, if_pos ⟨rfl, rfl⟩, nextLnk_lnks,
        linked.mod_eq linked.head_cases]
    · rw [Kmem.prev, marks idx inside, if_pos ⟨rfl, rfl⟩, preLnk_lnks]
      rfl
    · intro other member
      have notIdx : ¬ (order = order ∧ other = idx) := fun same => fresh (same.2 ▸ member)
      rw [Kmem.next, marks other (linked.inside other member), if_neg notIdx]
      split
      · rename_i isHead
        obtain ⟨-, rfl, -⟩ := isHead
        rw [nextLnk_lnks, linked.mod_eq (linked.chain.next_mem _ member)]
      · rfl
    · intro other member
      have notIdx : ¬ (order = order ∧ other = idx) := fun same => fresh (same.2 ▸ member)
      rw [Kmem.prev, marks other (linked.inside other member), if_neg notIdx]
      by_cases isHead : other = (k.ord order).head
      · have real : (k.ord order).head ≠ nil := isHead ▸ linked.chain.ne_nil other member
        rw [if_pos ⟨rfl, isHead, real⟩, if_pos isHead, preLnk_lnks, idxFits]
      · rw [if_neg fun same => isHead same.2.1, if_neg isHead, Kmem.prev]
  · intro other member
    rcases List.mem_cons.mp member with rfl | old
    · exact small
    · exact linked.small other old
  · intro other member
    rcases List.mem_cons.mp member with rfl | old
    · exact inside
    · exact linked.inside other old

/-! ## Deleting a mark -/

/-- The first store of `unlink`: the successor of the previous mark, or the
head of the list. -/
theorem Layout.unlink_prev (layout : Layout n k) (range : InRange order) {idx prev next : Nat}
    (prevIn : prev ≠ nil → prev < markCount n order) {after : Kmem}
    (isAfter : after =
      if prev ≠ nil then
        k.setMark order prev
          { k.getMark order prev with lnks := lnks (k.prev order prev) next }
      else if (k.ord order).head = idx then k.setHead order next
      else k) :
    Layout n after ∧ ∀ other otherIdx, InRange other → otherIdx < markCount n other →
      after.getMark other otherIdx =
        if other = order ∧ otherIdx = prev ∧ prev ≠ nil then
          { k.getMark order prev with lnks := lnks (k.prev order prev) next }
        else k.getMark other otherIdx := by
  subst isAfter
  by_cases first : prev = nil
  · simp only [first, ne_eq, not_true_eq_false, if_false, and_false]
    split
    · exact ⟨layout.setHead range _, fun other otherIdx otherRange _ =>
        Kmem.getMark_setHead _ _ range otherRange⟩
    · exact ⟨layout, fun _ _ _ _ => rfl⟩
  · rw [if_pos first]
    refine ⟨layout.setMark _ _ _, fun other otherIdx otherRange otherInside => ?_⟩
    rw [layout.getMark_setMark range otherRange (prevIn first) otherInside]
    simp only [first, ne_eq, not_false_eq_true, and_true]

/-- The second store of `unlink`: the predecessor of the next mark. -/
theorem Layout.unlink_next (layout : Layout n k) (range : InRange order) {prev next : Nat}
    (nextIn : next ≠ nil → next < markCount n order) {after : Kmem}
    (isAfter : after =
      if next ≠ nil then
        k.setMark order next
          { k.getMark order next with lnks := lnks prev (k.next order next) }
      else k) :
    Layout n after ∧ ∀ other otherIdx, InRange other → otherIdx < markCount n other →
      after.getMark other otherIdx =
        if other = order ∧ otherIdx = next ∧ next ≠ nil then
          { k.getMark order next with lnks := lnks prev (k.next order next) }
        else k.getMark other otherIdx := by
  subst isAfter
  by_cases last : next = nil
  · simp only [last, ne_eq, not_true_eq_false, if_false, and_false]
    exact ⟨layout, fun _ _ _ _ => trivial⟩
  · rw [if_pos last]
    refine ⟨layout.setMark _ _ _, fun other otherIdx otherRange otherInside => ?_⟩
    rw [layout.getMark_setMark range otherRange (nextIn last) otherInside]
    simp only [last, ne_eq, not_false_eq_true, and_true]

/-- The three stores of `unlink` go to three different marks. -/
theorem Layout.getMark_unlink (layout : Layout n k) (range : InRange order) {idx : Nat}
    (linked : Linked n k order list) (member : idx ∈ list) {other otherIdx : Nat}
    (otherRange : InRange other) (otherInside : otherIdx < markCount n other) :
    (k.unlink order idx).getMark other otherIdx =
      if other = order ∧ otherIdx = idx then { k.getMark order idx with lnks := lnks nil nil }
      else if other = order ∧ otherIdx = k.next order idx ∧ k.next order idx ≠ nil then
        { k.getMark order (k.next order idx) with
          lnks := lnks (k.prev order idx) (k.next order (k.next order idx)) }
      else if other = order ∧ otherIdx = k.prev order idx ∧ k.prev order idx ≠ nil then
        { k.getMark order (k.prev order idx) with
          lnks := lnks (k.prev order (k.prev order idx)) (k.next order idx) }
      else k.getMark other otherIdx := by
  have outside : nil ∉ list := fun isMember => linked.chain.ne_nil nil isMember rfl
  obtain ⟨prevNe, nextNe, apart⟩ := linked.chain.neighbours linked.nodup outside idx member
  have inside := linked.inside idx member
  have prevIn : k.prev order idx ≠ nil → k.prev order idx < markCount n order := fun real => by
    rcases linked.chain.prev_mem linked.nodup idx member with ⟨-, isNil⟩ | ⟨-, earlier⟩
    · exact absurd isNil real
    · exact linked.inside _ earlier
  have nextIn : k.next order idx ≠ nil → k.next order idx < markCount n order := fun real =>
    linked.inside _ ((linked.chain.next_mem idx member).resolve_left real)
  obtain ⟨first, isFirst⟩ : ∃ first, first =
      if k.prev order idx ≠ nil then
        k.setMark order (k.prev order idx) { k.getMark order (k.prev order idx) with
          lnks := lnks (k.prev order (k.prev order idx)) (k.next order idx) }
      else if (k.ord order).head = idx then k.setHead order (k.next order idx)
      else k := ⟨_, rfl⟩
  obtain ⟨firstLayout, firstMarks⟩ := layout.unlink_prev range prevIn isFirst
  obtain ⟨second, isSecond⟩ : ∃ second, second =
      if k.next order idx ≠ nil then
        first.setMark order (k.next order idx) { first.getMark order (k.next order idx) with
          lnks := lnks (k.prev order idx) (first.next order (k.next order idx)) }
      else first := ⟨_, rfl⟩
  obtain ⟨secondLayout, secondMarks⟩ := firstLayout.unlink_next range nextIn isSecond
  have unfolded : k.unlink order idx =
      second.setMark order idx { second.getMark order idx with lnks := lnks nil nil } := by
    rw [isSecond, isFirst]
    rfl
  have sameIdx : second.getMark order idx = k.getMark order idx := by
    rw [secondMarks order idx range inside, if_neg fun same => nextNe same.2.1.symm,
      firstMarks order idx range inside, if_neg fun same => prevNe same.2.1.symm]
  rw [unfolded, secondLayout.getMark_setMark range otherRange inside otherInside, sameIdx,
    secondMarks other otherIdx otherRange otherInside,
    firstMarks other otherIdx otherRange otherInside]
  by_cases more : k.next order idx = nil
  · simp only [more, ne_eq, not_true_eq_false, and_false, if_false]
  · have sameNext : first.getMark order (k.next order idx) =
        k.getMark order (k.next order idx) := by
      rw [firstMarks order _ range (nextIn more), if_neg fun same => apart more same.2.1.symm]
    simp only [Kmem.next] at sameNext ⊢
    rw [sameNext]

theorem Kmem.sameHeap_unlink (idx : Nat) : k.SameHeap (k.unlink order idx) := by
  unfold Kmem.unlink
  simp only
  split <;> split <;> (try split) <;> exact ⟨rfl, rfl, rfl, rfl⟩

theorem Kmem.ord_unlink {idx other : Nat} (range : InRange order) (otherRange : InRange other)
    (linked : Linked n k order list) (member : idx ∈ list) :
    (k.unlink order idx).ord other =
      if other = order then
        { k.ord order with
          head := if k.prev order idx = nil then k.next order idx else (k.ord order).head }
      else k.ord other := by
  have heads : (k.unlink order idx).ord other =
      (if k.prev order idx ≠ nil then k
        else if (k.ord order).head = idx then k.setHead order (k.next order idx)
        else k).ord other := by
    unfold Kmem.unlink Kmem.prev Kmem.next
    simp only
    split_ifs <;> rfl
  rw [heads]
  by_cases first : k.prev order idx = nil
  · have isHead : (k.ord order).head = idx := by
      rcases linked.chain.prev_mem linked.nodup idx member with ⟨same, -⟩ | ⟨-, earlier⟩
      · exact same.symm
      · exact absurd first (linked.chain.ne_nil _ earlier)
    rw [if_neg (not_not.mpr first), if_pos isHead, if_pos first,
      Kmem.ord_setHead _ range otherRange]
  · rw [if_pos first, if_neg first]
    split
    · subst_vars
      rfl
    · rfl

theorem Linked.unlink (linked : Linked n k order list) (layout : Layout n k) (range : InRange order)
    {idx : Nat} (member : idx ∈ list) : Linked n (k.unlink order idx) order (list.erase idx) := by
  have marks := fun other (otherIn : other < markCount n order) =>
    layout.getMark_unlink range linked member range otherIn
  have prevFits : ∀ other ∈ list, k.prev order other % 65536 = k.prev order other := by
    intro other isMember
    refine linked.mod_eq ?_
    rcases linked.chain.prev_mem linked.nodup other isMember with ⟨-, isNil⟩ | ⟨-, earlier⟩
    · exact Or.inl isNil
    · exact Or.inr earlier
  have nextFits : ∀ other ∈ list, k.next order other % 65536 = k.next order other :=
    fun other isMember => linked.mod_eq (linked.chain.next_mem other isMember)
  have real := linked.chain.ne_nil
  have apart := (linked.chain.neighbours linked.nodup (fun isMember => real nil isMember rfl)
    idx member).2.2
  refine ⟨?_, linked.nodup.erase idx, fun other isMember =>
    linked.small other (List.mem_of_mem_erase isMember), fun other isMember =>
    linked.inside other (List.mem_of_mem_erase isMember)⟩
  rw [Kmem.ord_unlink range range linked member, if_pos rfl]
  refine linked.chain.erase linked.nodup member ?_ ?_
  · intro other isMember notIdx
    rw [Kmem.next, marks other (linked.inside other isMember), if_neg fun same => notIdx same.2]
    by_cases isNext : other = k.next order idx
    · have notPrev : other ≠ k.prev order idx := fun same =>
        apart (isNext ▸ real other isMember) (same.symm.trans isNext)
      rw [if_pos ⟨rfl, isNext, isNext ▸ real other isMember⟩, if_neg notPrev, nextLnk_lnks,
        ← isNext, nextFits other isMember]
    · rw [if_neg fun same => isNext same.2.1]
      by_cases isPrev : other = k.prev order idx
      · rw [if_pos ⟨rfl, isPrev, isPrev ▸ real other isMember⟩, if_pos isPrev, nextLnk_lnks,
          nextFits idx member]
      · rw [if_neg fun same => isPrev same.2.1, if_neg isPrev, Kmem.next]
  · intro other isMember notIdx
    rw [Kmem.prev, marks other (linked.inside other isMember), if_neg fun same => notIdx same.2]
    by_cases isNext : other = k.next order idx
    · rw [if_pos ⟨rfl, isNext, isNext ▸ real other isMember⟩, if_pos isNext, preLnk_lnks,
        prevFits idx member]
    · rw [if_neg fun same => isNext same.2.1, if_neg isNext]
      by_cases isPrev : other = k.prev order idx
      · rw [if_pos ⟨rfl, isPrev, isPrev ▸ real other isMember⟩, preLnk_lnks, ← isPrev,
          prevFits other isMember]
      · rw [if_neg fun same => isPrev same.2.1, Kmem.prev]

theorem Layout.bitmap_link (layout : Layout n k) (range : InRange order) {idx : Nat}
    (inside : idx < markCount n order) (linked : Linked n k order list) (fresh : idx ∉ list)
    {other otherIdx : Nat} (otherRange : InRange other)
    (otherInside : otherIdx < markCount n other) :
    ((k.link order idx).getMark other otherIdx).bitmap = (k.getMark other otherIdx).bitmap := by
  rw [layout.getMark_link range inside
    (fun more => ⟨linked.inside _ (linked.chain.here_mem more), fun same =>
      fresh (same ▸ linked.chain.here_mem more)⟩) otherRange otherInside]
  split_ifs with isIdx isHead
  · obtain ⟨rfl, rfl⟩ := isIdx
    rfl
  · obtain ⟨rfl, rfl, -⟩ := isHead
    rfl
  · rfl

theorem Layout.bitmap_unlink (layout : Layout n k) (range : InRange order) {idx : Nat}
    (linked : Linked n k order list) (member : idx ∈ list) {other otherIdx : Nat}
    (otherRange : InRange other) (otherInside : otherIdx < markCount n other) :
    ((k.unlink order idx).getMark other otherIdx).bitmap = (k.getMark other otherIdx).bitmap := by
  rw [layout.getMark_unlink range linked member otherRange otherInside]
  split_ifs with isIdx isNext isPrev
  · obtain ⟨rfl, rfl⟩ := isIdx
    rfl
  · obtain ⟨rfl, rfl, -⟩ := isNext
    rfl
  · obtain ⟨rfl, rfl, -⟩ := isPrev
    rfl
  · rfl

end Lists

/-! ## Marking and unmarking a block -/

/-- The state after a block of a well-formed state has become available or
unavailable, and nothing else. -/
structure Flipped (n : Nat) (k after : Kmem) (order blkId : Nat) (value : Bool) : Prop where
  wf : Wf n after
  same : k.SameHeap after
  free : ∀ other otherId, InRange other → otherId >>> 5 < markCount n other →
    after.free other otherId =
      if other = order ∧ otherId = blkId then value else k.free other otherId

section Blocks

variable {n : Nat} {k : Kmem} {order blkId : Nat}

theorem blkId_eq_iff (first second : Nat) :
    first = second ↔ first >>> 5 = second >>> 5 ∧ first % 32 = second % 32 := by
  omega

theorem Layout.free_setBitmap (layout : Layout n k) (range : InRange order)
    (inside : blkId >>> 5 < markCount n order) (bitmap : BitVec 32) {other otherId : Nat}
    (otherRange : InRange other) (otherInside : otherId >>> 5 < markCount n other) :
    (k.setMark order (blkId >>> 5)
        { k.getMark order (blkId >>> 5) with bitmap := bitmap }).free other otherId =
      if other = order ∧ otherId >>> 5 = blkId >>> 5 then available bitmap otherId
      else k.free other otherId := by
  unfold Kmem.free
  rw [layout.getMark_setMark range otherRange inside otherInside]
  split_ifs <;> rfl

theorem Layout.free_flip (layout : Layout n k) (range : InRange order)
    (inside : blkId >>> 5 < markCount n order) {bitmap : BitVec 32} {value : Bool}
    (flips : ∀ other, available bitmap other =
      if other % 32 = blkId % 32 then value
      else available (k.getMark order (blkId >>> 5)).bitmap other)
    {other otherId : Nat} (otherRange : InRange other)
    (otherInside : otherId >>> 5 < markCount n other) :
    (k.setMark order (blkId >>> 5)
        { k.getMark order (blkId >>> 5) with bitmap := bitmap }).free other otherId =
      if other = order ∧ otherId = blkId then value else k.free other otherId := by
  rw [layout.free_setBitmap range inside bitmap otherRange otherInside, flips]
  by_cases sameMark : other = order ∧ otherId >>> 5 = blkId >>> 5
  · obtain ⟨rfl, mark⟩ := sameMark
    have asFree : available (k.getMark other (blkId >>> 5)).bitmap otherId =
        k.free other otherId := by rw [Kmem.free, mark]
    rw [if_pos ⟨rfl, mark⟩, asFree]
    by_cases sameBit : otherId % 32 = blkId % 32
    · rw [if_pos sameBit, if_pos ⟨rfl, (blkId_eq_iff _ _).mpr ⟨mark, sameBit⟩⟩]
    · rw [if_neg sameBit, if_neg fun both => sameBit (by rw [both.2])]
  · rw [if_neg sameMark, if_neg fun both => sameMark ⟨both.1, by rw [both.2]⟩]

theorem Kmem.sameHeap_setMark (idx : Nat) (mark : Mark) : k.SameHeap (k.setMark order idx mark) :=
  ⟨rfl, rfl, rfl, rfl⟩

/-- The other orders keep their lists when only this order's marks change. -/
theorem Wf.of_order (order : Nat) {after : Kmem} (wf : Wf n k) (layout : Layout n after)
    (heads : ∀ other, InRange other → other ≠ order → (after.ord other).head = (k.ord other).head)
    (marks : ∀ other, InRange other → other ≠ order → ∀ idx < markCount n other,
      after.getMark other idx = k.getMark other idx)
    (here : ∃ list, Listed n after order list) : Wf n after where
  layout := layout
  lists := by
    intro other otherRange
    by_cases same : other = order
    · rw [same]
      exact here
    · obtain ⟨list, listed⟩ := wf.lists other otherRange
      exact ⟨list, listed.congr (heads other otherRange same) (marks other otherRange same)⟩

/-- One bitmap is replaced: the links and the heads of the lists stay. -/
structure Refilled (n : Nat) (k : Kmem) (order idx : Nat) (bitmap : BitVec 32) (filled : Kmem) :
    Prop where
  layout : Layout n filled
  marks : ∀ {other otherIdx}, InRange other → otherIdx < markCount n other →
    filled.getMark other otherIdx = if other = order ∧ otherIdx = idx then
      { k.getMark order idx with bitmap := bitmap } else k.getMark other otherIdx
  heads : ∀ other, filled.ord other = k.ord other

theorem Wf.refilled (wf : Wf n k) (range : InRange order) {idx : Nat}
    (inside : idx < markCount n order) (bitmap : BitVec 32) : Refilled n k order idx bitmap
      (k.setMark order idx { k.getMark order idx with bitmap := bitmap }) :=
  ⟨wf.layout.setMark _ _ _, fun otherRange otherInside =>
    wf.layout.getMark_setMark range otherRange inside otherInside _, fun _ => rfl⟩

theorem Refilled.linked {idx : Nat} {bitmap : BitVec 32} {filled : Kmem} {list : List Nat}
    (refilled : Refilled n k order idx bitmap filled) (range : InRange order)
    (linked : Linked n k order list) : Linked n filled order list := by
  refine linked.congr (congrArg Order.head (refilled.heads order)) fun otherIdx otherInside => ?_
  rw [refilled.marks range otherInside]
  split_ifs with same
  · rw [same.2]
  · rfl

/-- Changing a bitmap without making it empty or non-empty keeps the lists. -/
theorem Wf.setBitmap (wf : Wf n k) (range : InRange order) {idx : Nat}
    (inside : idx < markCount n order) {bitmap : BitVec 32}
    (nonempty : bitmap ≠ 0#32 ↔ (k.getMark order idx).bitmap ≠ 0#32) :
    Wf n (k.setMark order idx { k.getMark order idx with bitmap := bitmap }) := by
  have refilled := wf.refilled range inside bitmap
  refine wf.of_order order refilled.layout (fun _ _ _ => rfl) ?_ ?_
  · intro other otherRange notSame otherIdx otherInside
    rw [refilled.marks otherRange otherInside, if_neg fun same => notSame same.1]
  · obtain ⟨list, listed⟩ := wf.lists order range
    refine ⟨list, refilled.linked range listed.toLinked, ?_⟩
    intro otherIdx otherInside
    rw [refilled.marks range otherInside, listed.mem otherIdx otherInside]
    split_ifs with same
    · rw [same.2]
      exact nonempty.symm
    · rfl

theorem Wf.link (wf : Wf n k) (range : InRange order) {idx : Nat}
    (inside : idx < markCount n order) (small : idx < nil) {bitmap : BitVec 32}
    (nonempty : bitmap ≠ 0#32) (wasEmpty : (k.getMark order idx).bitmap = 0#32) {filled : Kmem}
    (refilled : Refilled n k order idx bitmap filled) :
    Wf n (filled.link order idx) ∧
      ∀ other otherIdx, InRange other → otherIdx < markCount n other →
        ((filled.link order idx).getMark other otherIdx).bitmap =
          (filled.getMark other otherIdx).bitmap := by
  obtain ⟨list, listed⟩ := wf.lists order range
  have fresh : idx ∉ list := fun member => (listed.mem idx inside).mp member wasEmpty
  have layout := refilled.layout
  have linked := refilled.linked range listed.toLinked
  have headInside : (filled.ord order).head ≠ nil →
      (filled.ord order).head < markCount n order ∧ (filled.ord order).head ≠ idx := fun more =>
    ⟨linked.inside _ (linked.chain.here_mem more), fun same =>
      fresh (same ▸ linked.chain.here_mem more)⟩
  have bitmaps := fun other otherIdx (otherRange : InRange other)
      (otherInside : otherIdx < markCount n other) =>
    layout.bitmap_link range inside linked fresh otherRange otherInside
  refine ⟨wf.of_order order ?_ ?_ ?_ ⟨idx :: list, linked.link layout range inside small fresh, ?_⟩,
    bitmaps⟩
  · intro other otherRange
    rw [Kmem.ord_link range otherRange]
    split_ifs with same
    · subst same
      exact layout other otherRange
    · exact layout other otherRange
  · intro other otherRange notSame
    rw [Kmem.ord_link range otherRange, if_neg notSame, refilled.heads]
  · intro other otherRange notSame otherIdx otherInside
    rw [layout.getMark_link range inside headInside otherRange otherInside,
      if_neg fun same => notSame same.1, if_neg fun same => notSame same.1,
      refilled.marks otherRange otherInside, if_neg fun same => notSame same.1]
  · intro otherIdx otherInside
    rw [bitmaps order otherIdx range otherInside, refilled.marks range otherInside,
      List.mem_cons, listed.mem otherIdx otherInside]
    by_cases same : otherIdx = idx
    · rw [if_pos ⟨rfl, same⟩]
      exact iff_of_true (Or.inl same) nonempty
    · simp [same]

theorem Wf.unlink (wf : Wf n k) (range : InRange order) {idx : Nat}
    (inside : idx < markCount n order) (wasNonempty : (k.getMark order idx).bitmap ≠ 0#32)
    {cleared : Kmem} (refilled : Refilled n k order idx 0#32 cleared) :
    Wf n (cleared.unlink order idx) ∧
      ∀ other otherIdx, InRange other → otherIdx < markCount n other →
        ((cleared.unlink order idx).getMark other otherIdx).bitmap =
          (cleared.getMark other otherIdx).bitmap := by
  obtain ⟨list, listed⟩ := wf.lists order range
  have member : idx ∈ list := (listed.mem idx inside).mpr wasNonempty
  have layout := refilled.layout
  have linked := refilled.linked range listed.toLinked
  have bitmaps := fun other otherIdx (otherRange : InRange other)
      (otherInside : otherIdx < markCount n other) =>
    layout.bitmap_unlink range linked member otherRange otherInside
  refine ⟨wf.of_order order ?_ ?_ ?_ ⟨list.erase idx, linked.unlink layout range member, ?_⟩,
    bitmaps⟩
  · intro other otherRange
    rw [Kmem.ord_unlink range otherRange linked member]
    split_ifs with same
    · subst same
      exact layout other otherRange
    · subst same
      exact layout other otherRange
    · exact layout other otherRange
  · intro other otherRange notSame
    rw [Kmem.ord_unlink range otherRange linked member, if_neg notSame, refilled.heads]
  · intro other otherRange notSame otherIdx otherInside
    rw [layout.getMark_unlink range linked member otherRange otherInside,
      if_neg fun same => notSame same.1, if_neg fun same => notSame same.1,
      if_neg fun same => notSame same.1, refilled.marks otherRange otherInside,
      if_neg fun same => notSame same.1]
  · intro otherIdx otherInside
    rw [bitmaps order otherIdx range otherInside, refilled.marks range otherInside,
      listed.nodup.mem_erase_iff, listed.mem otherIdx otherInside]
    by_cases same : otherIdx = idx
    · simp [same]
    · simp [same]

theorem markBlk_spec (wf : Wf n k) (range : InRange order)
    (inside : blkId >>> 5 < markCount n order) (small : blkId >>> 5 < nil)
    (unset : k.free order blkId = false) :
    ∃ after, k.markBlk order blkId = .ok after ∧ Flipped n k after order blkId true := by
  have flips : ∀ other,
      available ((k.getMark order (blkId >>> 5)).bitmap ||| bit blkId) other =
        if other % 32 = blkId % 32 then true
        else available (k.getMark order (blkId >>> 5)).bitmap other := by
    intro other
    rw [available_or_bit]
    by_cases same : other % 32 = blkId % 32 <;> simp [same]
  have nonempty : (k.getMark order (blkId >>> 5)).bitmap ||| bit blkId ≠ 0#32 :=
    (bitmap_ne_zero_iff _).mpr ⟨blkId % 32, Nat.mod_lt _ (by decide), by simp [flips]⟩
  unfold Kmem.markBlk
  rw [if_neg (by rw [← Kmem.free, unset]; simp)]
  by_cases empty : (k.getMark order (blkId >>> 5)).bitmap = 0#32
  · rw [if_pos empty]
    obtain ⟨linkedWf, bitmaps⟩ := wf.link range inside small nonempty empty
      (wf.refilled range inside _)
    refine ⟨_, rfl, linkedWf, (Kmem.sameHeap_setMark _ _).trans (Kmem.sameHeap_link _), ?_⟩
    intro other otherId otherRange otherInside
    rw [Kmem.free, bitmaps other _ otherRange otherInside]
    exact wf.layout.free_flip range inside flips otherRange otherInside
  · rw [if_neg empty]
    exact ⟨_, rfl, wf.setBitmap range inside (iff_of_true nonempty empty),
      Kmem.sameHeap_setMark _ _, fun other otherId otherRange otherInside =>
        wf.layout.free_flip range inside flips otherRange otherInside⟩

theorem unmarkBlk_spec (wf : Wf n k) (range : InRange order)
    (inside : blkId >>> 5 < markCount n order) (isSet : k.free order blkId = true) :
    ∃ after, k.unmarkBlk order blkId = .ok after ∧ Flipped n k after order blkId false := by
  have flips : ∀ other,
      available ((k.getMark order (blkId >>> 5)).bitmap &&& ~~~ bit blkId) other =
        if other % 32 = blkId % 32 then false
        else available (k.getMark order (blkId >>> 5)).bitmap other := by
    intro other
    rw [available_and_not_bit]
    by_cases same : other % 32 = blkId % 32 <;> simp [same]
  have wasNonempty : (k.getMark order (blkId >>> 5)).bitmap ≠ 0#32 := by
    refine (bitmap_ne_zero_iff _).mpr ⟨blkId % 32, Nat.mod_lt _ (by decide), ?_⟩
    rw [available_eq, Nat.mod_mod, ← available_eq]
    exact isSet
  unfold Kmem.unmarkBlk
  rw [if_neg (by rw [← Kmem.free, isSet]; simp)]
  by_cases empty : (k.getMark order (blkId >>> 5)).bitmap &&& ~~~ bit blkId = 0#32
  · rw [empty] at flips
    rw [if_pos empty, empty]
    obtain ⟨unlinkedWf, bitmaps⟩ := wf.unlink range inside wasNonempty
      (wf.refilled range inside _)
    refine ⟨_, rfl, unlinkedWf, (Kmem.sameHeap_setMark _ _).trans (Kmem.sameHeap_unlink _), ?_⟩
    intro other otherId otherRange otherInside
    rw [Kmem.free, bitmaps other _ otherRange otherInside]
    exact wf.layout.free_flip range inside flips otherRange otherInside
  · rw [if_neg empty]
    exact ⟨_, rfl, wf.setBitmap range inside (iff_of_true empty wasNonempty),
      Kmem.sameHeap_setMark _ _, fun other otherId otherRange otherInside =>
        wf.layout.free_flip range inside flips otherRange otherInside⟩

/-! ## Taking a block off the list -/

theorem lowestBit_spec (bitmap : BitVec 32) : ∀ remaining i,
    (∃ j, i ≤ j ∧ j < i + remaining ∧ available bitmap j = true) →
      ∃ j, Kmem.lowestBit bitmap remaining i = some j ∧ j < i + remaining ∧
        available bitmap j = true
  | 0, i, ⟨j, low, high, _⟩ => absurd low (by omega)
  | remaining + 1, i, ⟨j, low, high, isSet⟩ => by
      unfold Kmem.lowestBit
      by_cases here : available bitmap i = true
      · rw [if_pos here]
        exact ⟨i, rfl, by omega, here⟩
      · rw [if_neg here]
        have later : i + 1 ≤ j := by
          rcases Nat.eq_or_lt_of_le low with rfl | above
          · exact absurd isSet here
          · exact above
        obtain ⟨found, isFound, below, available⟩ :=
          lowestBit_spec bitmap remaining (i + 1) ⟨j, later, by omega, isSet⟩
        exact ⟨found, isFound, by omega, available⟩

theorem getBlk_spec (wf : Wf n k) (range : InRange order) (nonempty : (k.ord order).head ≠ nil) :
    ∃ blkId after, k.getBlk order = .ok (k.blkid2mem order blkId, after) ∧
      blkId >>> 5 < markCount n order ∧ k.free order blkId = true ∧
      Flipped n k after order blkId false := by
  obtain ⟨list, listed⟩ := wf.lists order range
  have member := listed.chain.here_mem nonempty
  have inside := listed.inside _ member
  have bitmap := (listed.mem _ inside).mp member
  obtain ⟨i, below, isSet⟩ := (bitmap_ne_zero_iff _).mp bitmap
  obtain ⟨found, isFound, foundBelow, foundSet⟩ :=
    lowestBit_spec _ 32 0 ⟨i, by omega, by omega, isSet⟩
  have mark : ((k.ord order).head * 32 + found) >>> 5 = (k.ord order).head := by
    omega
  have isFree : k.free order ((k.ord order).head * 32 + found) = true := by
    rw [Kmem.free, mark, available_eq]
    have low : ((k.ord order).head * 32 + found) % 32 = found % 32 := by omega
    rw [low, ← available_eq]
    exact foundSet
  obtain ⟨after, unmarked, flipped⟩ := unmarkBlk_spec wf range (by rw [mark]; exact inside) isFree
  refine ⟨_, after, ?_, by rw [mark]; exact inside, isFree, flipped⟩
  unfold Kmem.getBlk
  rw [if_neg bitmap, isFound]
  simp only [unmarked, bind, Except.bind]
  rw [Kmem.blkid2mem, Kmem.blkid2mem, flipped.same.startHeap]

end Blocks

end Rexv6.Buddy
