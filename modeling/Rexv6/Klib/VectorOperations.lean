import Mathlib.Data.List.InsertIdx
import Rexv6.Klib.VectorCells

/-!
Contract: what each operation of `Vector` does to the list its vector owns.

Owns: the list a vector owns in memory, the buffers an operation leaves alone, and
one rule for each operation, with reallocation stated once.

Does not own: programs with several vectors (`VectorLists`), or which buffers are
released (`VectorBuffers`).
-/

namespace Rexv6.Klib.Vector

open Rexv6.Foundation.Program

/-! ## The list a vector owns -/

section Owning

variable {α : Type}

def Memory.Wf (m : Memory α) : Prop := ∀ p ∈ m.released, p < m.next

/-- The vector's buffer is live, at least as long as its capacity, and starts with
the elements of `list`, of which some may have no value yet. -/
structure Owns (m : Memory α) (vec : Vec) (list : List (Option α)) : Prop where
  allocated : vec.data < m.next
  live : vec.data ∉ m.released
  size : vec.size = list.length
  small : vec.size < 2 ^ 31
  room : vec.size ≤ vec.capacity
  length : vec.capacity ≤ (m.cells vec.data).length
  elements : ∀ j < list.length, (m.cells vec.data)[j]? = list[j]?

/-- The buffers of `m` other than `p` are as they were. -/
structure Frame (p : Nat) (m after : Memory α) : Prop where
  next : m.next ≤ after.next
  cells : ∀ q < m.next, q ≠ p → after.cells q = m.cells q
  released : ∀ q < m.next, q ≠ p → (q ∈ after.released ↔ q ∈ m.released)

/-- A call on `vec` has returned `result`, which owns `list`, and has left the
buffers of the other vectors alone. -/
structure Becomes (m : Memory α) (vec : Vec) (list : List (Option α)) (result : Vec)
    (after : Memory α) : Prop where
  owns : Owns after result list
  wf : after.Wf
  frame : Frame vec.data m after
  data : result.data = vec.data ∨ m.next ≤ result.data

variable {m after : Memory α} {vec result : Vec} {list list' : List (Option α)}

theorem Memory.Wf.next_live (wf : m.Wf) : m.next ∉ m.released := fun member =>
  Nat.lt_irrefl _ (wf _ member)

theorem Memory.Wf.grown (wf : m.Wf) (size : Nat) : (m.grown size).Wf := fun p member =>
  Nat.lt_succ_of_lt (wf p member)

theorem Memory.grown_new (m : Memory α) (size : Nat) :
    (m.grown size).cells m.next = List.replicate size none :=
  Function.update_self ..

theorem Memory.grown_old {q : Nat} (size : Nat) (old : q ≠ m.next) :
    (m.grown size).cells q = m.cells q :=
  Function.update_of_ne old ..

theorem Frame.refl (p : Nat) (m : Memory α) : Frame p m m :=
  ⟨le_rfl, fun _ _ _ => rfl, fun _ _ _ => Iff.rfl⟩

theorem Becomes.refl (owns : Owns m vec list) (wf : m.Wf) : Becomes m vec list vec m :=
  ⟨owns, wf, .refl vec.data m, Or.inl rfl⟩

/-- The result of a call may still get other contents and another size. -/
theorem Becomes.put (becomes : Becomes m vec list result after) {cells : List (Option α)}
    {size : Nat} (isSize : size = list'.length) (small : size < 2 ^ 31)
    (room : size ≤ result.capacity) (length : result.capacity ≤ cells.length)
    (elements : ∀ j < list'.length, cells[j]? = list'[j]?) :
    Becomes m vec list' { result with size } (after.put result.data cells) := by
  obtain ⟨owns, wf, frame, data⟩ := becomes
  refine ⟨⟨owns.allocated, owns.live, isSize, small, room, ?_, ?_⟩, wf, ⟨frame.next, ?_,
    frame.released⟩, data⟩
  · rw [Memory.put_same]
    exact length
  · rw [Memory.put_same]
    exact elements
  · intro q old different
    rw [Memory.put_other _ (by omega)]
    exact frame.cells q old different

/-! ## Reallocation -/

/-- The elements are moved to a new buffer; the old one is released. -/
theorem moveTo_meets (owns : Owns m vec list) (wf : m.Wf) {capacity : Nat}
    (enough : vec.size ≤ capacity) :
    Meets (moveTo vec capacity) m (fun result after => Becomes m vec list result after ∧
      result.size = vec.size ∧ result.capacity = capacity) fun _ => False := by
  have old : vec.data ≠ m.next := Nat.ne_of_lt owns.allocated
  rw [moveTo, meets_bind, meets_allocate, meets_bind]
  apply (copyLoop_meets m.next vec.data old vec.size 0 (m.grown vec.size) wf.next_live owns.live
    (by rw [Memory.grown_new, List.length_replicate]; omega)
    (by rw [Memory.grown_old _ old]; have := owns.room; have := owns.length; omega)).mono
  intro _ copied first
  obtain ⟨⟨tempCells, rfl⟩, tempLength, tempMoved, -⟩ := first
  rw [Memory.put_same, Memory.grown_new, List.length_replicate] at tempLength
  rw [Memory.put_same, Memory.grown_old _ old] at tempMoved
  rw [meets_bind, meets_release, meets_bind, meets_allocate, meets_bind]
  -- `temp` is buffer `m.next`, and the new `data_` the one after it.
  have isNext : (((m.grown vec.size).put m.next tempCells).freed vec.data).next = m.next + 1 := rfl
  have cells : ((((m.grown vec.size).put m.next tempCells).freed vec.data).grown capacity).cells
      m.next = tempCells := by
    rw [Memory.grown_old _ (by rw [isNext]; omega)]
    exact Memory.put_same ..
  have others : ∀ q < m.next,
      ((((m.grown vec.size).put m.next tempCells).freed vec.data).grown capacity).cells q =
        m.cells q := by
    intro q isOld
    rw [Memory.grown_old _ (by rw [isNext]; omega)]
    exact (Memory.put_other _ (by omega)).trans (Memory.grown_old _ (by omega))
  have tempLive : m.next ∉ vec.data :: m.released := by
    rw [List.mem_cons, not_or]
    exact ⟨fun same => old same.symm, wf.next_live⟩
  have dataLive : m.next + 1 ∉ vec.data :: m.released := by
    rw [List.mem_cons, not_or]
    exact ⟨by have := owns.allocated; omega, fun member => by have := wf _ member; omega⟩
  apply (copyLoop_meets (m.next + 1) m.next (by omega) vec.size 0
    ((((m.grown vec.size).put m.next tempCells).freed vec.data).grown capacity) dataLive tempLive
    (by rw [← isNext, Memory.grown_new, List.length_replicate]; omega)
    (by rw [cells, tempLength]; omega)).mono
  intro _ copied second
  obtain ⟨⟨dataCells, rfl⟩, length, moved, -⟩ := second
  rw [Memory.put_same, ← isNext, Memory.grown_new, List.length_replicate] at length
  rw [Memory.put_same, cells] at moved
  rw [meets_pure, isNext]
  refine ⟨⟨⟨?_, dataLive, owns.size, owns.small, enough, ?_, ?_⟩, ?_, ⟨?_, ?_, ?_⟩, Or.inr ?_⟩, rfl,
    rfl⟩
  · exact Nat.lt_succ_self (m.next + 1)
  · rw [Memory.put_same, length]
  · intro j below
    have inside : 0 ≤ j ∧ j < 0 + vec.size := by
      rw [owns.size]
      omega
    rw [Memory.put_same, moved j inside, id, tempMoved j inside, id]
    exact owns.elements j below
  · intro p member
    cases List.mem_cons.mp member with
    | inl isData =>
      rw [isData]
      exact lt_of_lt_of_le owns.allocated (Nat.le_add_right _ 2)
    | inr old => exact lt_of_lt_of_le (wf p old) (Nat.le_add_right _ 2)
  · exact Nat.le_add_right _ 2
  · intro q isOld _
    rw [Memory.put_other _ (by omega), others q isOld]
  · intro q _ different
    exact List.mem_cons.trans (or_iff_right different)
  · exact Nat.le_succ m.next

theorem reserve_meets (owns : Owns m vec list) (wf : m.Wf) {nsz : Nat} (small : nsz ≤ 2 ^ 31) :
    Meets (reserve vec nsz) m (fun result after => Becomes m vec list result after ∧
      result.size = vec.size ∧ (vec.capacity ≤ nsz → result.capacity = getCapacity nsz))
      fun _ => False := by
  rw [reserve]
  by_cases grows : nsz ≥ vec.capacity
  · rw [if_pos grows]
    have enough := le_getCapacity small
    have room := owns.room
    apply (moveTo_meets owns wf (by omega)).mono
    intro result after all
    obtain ⟨becomes, size, capacity⟩ := all
    exact ⟨becomes, size, fun _ => capacity⟩
  · rw [if_neg grows, meets_pure]
    exact ⟨.refl owns wf, rfl, fun low => absurd low grows⟩

theorem makeRoom_meets (owns : Owns m vec list) (wf : m.Wf) (small : vec.size + 1 < 2 ^ 31) :
    Meets (makeRoom vec) m (fun result after => Becomes m vec list result after ∧
      result.size = vec.size ∧ vec.size + 1 ≤ result.capacity) fun _ => False := by
  have noWrap : (vec.size + 1) % 2 ^ 32 = vec.size + 1 := Nat.mod_eq_of_lt (by omega)
  rw [makeRoom, noWrap]
  by_cases full : vec.size + 1 ≥ vec.capacity
  · rw [if_pos full]
    apply (reserve_meets owns wf (by omega)).mono
    intro result after all
    obtain ⟨becomes, size, capacity⟩ := all
    have enough := le_getCapacity (by omega : vec.size + 1 ≤ 2 ^ 31)
    exact ⟨becomes, size, by rw [capacity full]; exact enough⟩
  · rw [if_neg full, meets_pure]
    exact ⟨.refl owns wf, rfl, by omega⟩

/-! ## Operations -/

theorem pushBack_meets (owns : Owns m vec list) (wf : m.Wf) (val : α)
    (small : vec.size + 1 < 2 ^ 31) :
    Meets (pushBack vec val) m (fun result after => Becomes m vec (list ++ [some val]) result after)
      fun _ => False := by
  rw [pushBack, meets_bind]
  apply (makeRoom_meets owns wf small).mono
  intro middle grown all
  obtain ⟨becomes, size, room⟩ := all
  have isLength := becomes.owns.size
  have length := becomes.owns.length
  have noWrap : (middle.size + 1) % 2 ^ 32 = middle.size + 1 := Nat.mod_eq_of_lt (by omega)
  have last : (middle.size + 1 + 2 ^ 32 - 1) % 2 ^ 32 = middle.size := by omega
  simp only [noWrap, last]
  rw [meets_bind, meets_store becomes.owns.live (by omega), meets_pure]
  apply becomes.put (by rw [List.length_append, isLength]; rfl) (by omega) (by omega)
    (by rw [List.length_set]; exact length)
  intro j below
  rw [List.length_append, List.length_singleton] at below
  by_cases isLast : j = middle.size
  · subst isLast
    rw [List.getElem?_set_self (by omega), isLength, List.getElem?_concat_length]
  · rw [List.getElem?_set_ne (Ne.symm isLast), List.getElem?_append_left (by omega)]
    exact becomes.owns.elements j (by omega)

theorem popBack_meets (owns : Owns m vec list) (wf : m.Wf) :
    Meets (popBack vec) m (fun result after => Becomes m vec list.dropLast result after)
      fun _ => False := by
  have isLength := owns.size
  rw [popBack]
  by_cases none : vec.size = 0
  · rw [if_pos none, meets_pure]
    have isNil : list = [] := List.length_eq_zero_iff.mp (by omega)
    subst isNil
    exact .refl owns wf
  · rw [if_neg none, meets_pure]
    refine ⟨⟨owns.allocated, owns.live, ?_, ?_, ?_, owns.length, ?_⟩, wf, .refl vec.data m,
      Or.inl rfl⟩
    · rw [List.length_dropLast, isLength]
    · exact lt_of_le_of_lt (Nat.sub_le _ 1) owns.small
    · exact (Nat.sub_le _ 1).trans owns.room
    · intro j below
      rw [List.length_dropLast] at below
      rw [List.getElem?_dropLast, if_pos below]
      exact owns.elements j (by omega)

theorem clear_meets (owns : Owns m vec list) (wf : m.Wf) :
    Meets (clear vec) m (fun result after => Becomes m vec [] result after) fun _ => False := by
  refine ⟨⟨Nat.lt_succ_self _, ?_, rfl, Nat.two_pow_pos 31, Nat.le_refl 0, Nat.zero_le _, ?_⟩, ?_,
    ⟨?_, ?_, ?_⟩, Or.inr le_rfl⟩
  · intro member
    cases List.mem_cons.mp member with
    | inl same => exact absurd same (Nat.ne_of_gt owns.allocated)
    | inr isOld => exact wf.next_live isOld
  · intro j below
    simp at below
  · intro p member
    cases List.mem_cons.mp member with
    | inl isData =>
      rw [isData]
      exact Nat.lt_succ_of_lt owns.allocated
    | inr isOld => exact Nat.lt_succ_of_lt (wf p isOld)
  · exact Nat.le_succ _
  · intro q isOld _
    exact Memory.grown_old _ (Nat.ne_of_lt isOld)
  · intro q _ different
    exact List.mem_cons.trans (or_iff_right different)

theorem shrinkToFit_meets (owns : Owns m vec list) (wf : m.Wf) :
    Meets (shrinkToFit vec) m (fun result after => Becomes m vec list result after)
      fun _ => False := by
  have small := owns.small
  exact (moveTo_meets owns wf (le_getCapacity (by omega))).mono fun _ _ all => all.1

theorem erase_meets (owns : Owns m vec list) (wf : m.Wf) {current : Nat}
    (inside : current < vec.size) :
    Meets (erase vec current) m
      (fun result after => Becomes m vec (list.eraseIdx current) result after)
      fun _ => False := by
  have isLength := owns.size
  have small := owns.small
  have room := owns.room
  have length := owns.length
  have last : (vec.size + 2 ^ 32 - 1) % 2 ^ 32 = vec.size - 1 := by omega
  rw [erase, if_neg (by omega), last, meets_bind]
  apply (eraseLoop_meets vec.data (vec.size - 1 - current) current m owns.live (by omega)).mono
  intro _ after shifted
  obtain ⟨⟨cells, rfl⟩, sameLength, moved, kept⟩ := shifted
  rw [Memory.put_same] at sameLength moved kept
  apply (Becomes.refl owns wf).put (by rw [List.length_eraseIdx_of_lt (by omega), isLength])
    (by omega) (by omega) (by omega)
  intro j below
  rw [List.length_eraseIdx_of_lt (by omega)] at below
  rw [List.getElem?_eraseIdx]
  by_cases before : j < current
  · rw [if_pos before, kept j (by omega)]
    exact owns.elements j (by omega)
  · rw [if_neg before, moved j (by omega)]
    exact owns.elements (j + 1) (by omega)

theorem insert_meets (owns : Owns m vec list) (wf : m.Wf) (val : α) {current : Nat}
    (inside : current ≤ vec.size) (small : vec.size + 1 < 2 ^ 31) :
    Meets (insert vec current val) m
      (fun result after => Becomes m vec (list.insertIdx current (some val)) result after)
      fun _ => False := by
  rw [insert, if_neg (by omega), meets_bind]
  apply (makeRoom_meets owns wf small).mono
  intro middle grown all
  obtain ⟨becomes, size, room⟩ := all
  have isLength := becomes.owns.size
  have length := becomes.owns.length
  rw [meets_bind]
  apply (insertLoop_meets middle.data (middle.size - current) middle.size grown becomes.owns.live
    (by omega) (by omega)).mono
  intro _ after shifted
  obtain ⟨⟨cells, rfl⟩, sameLength, moved, kept⟩ := shifted
  rw [Memory.put_same] at sameLength moved kept
  have noWrap : (middle.size + 1) % 2 ^ 32 = middle.size + 1 := Nat.mod_eq_of_lt (by omega)
  simp only [noWrap]
  rw [meets_bind, meets_store (by exact becomes.owns.live) (by rw [Memory.put_same]; omega),
    meets_pure, Memory.put_put, Memory.put_same]
  have newLength : (list.insertIdx current (some val)).length = middle.size + 1 := by
    rw [List.length_insertIdx, if_pos (by omega), isLength]
  apply becomes.put newLength.symm (by omega) (by omega) (by rw [List.length_set]; omega)
  intro j below
  rw [List.getElem?_insertIdx]
  by_cases before : j < current
  · rw [if_pos before, List.getElem?_set_ne (by omega), kept j (by omega)]
    exact becomes.owns.elements j (by omega)
  · rw [if_neg before]
    by_cases isPlace : j = current
    · subst isPlace
      rw [List.getElem?_set_self (by omega), if_pos rfl, if_pos (by omega)]
    · rw [if_neg isPlace, List.getElem?_set_ne (Ne.symm isPlace), moved j (by omega)]
      exact becomes.owns.elements (j - 1) (by omega)

/-- A new vector owns its list and leaves every buffer alone. -/
structure Makes (m : Memory α) (list : List (Option α)) (result : Vec) (after : Memory α) :
    Prop where
  owns : Owns after result list
  wf : after.Wf
  frame : Frame m.next m after
  data : m.next ≤ result.data

/-- The buffer of a new vector has one element, without a value. -/
theorem construct_meets (wf : m.Wf) {s : Nat} (atMostOne : s ≤ 1) :
    Meets (construct s) m (fun result after => Makes m (List.replicate s none) result after)
      fun _ => False := by
  by_cases none : s = 0
  · subst none
    refine ⟨⟨Nat.lt_succ_self m.next, wf.next_live, rfl, Nat.two_pow_pos 31, le_rfl, Nat.zero_le _,
      fun j below => absurd below (Nat.not_lt_zero j)⟩, wf.grown 1, ⟨Nat.le_succ _, ?_,
      fun _ _ _ => Iff.rfl⟩, le_rfl⟩
    exact fun q old _ => Memory.grown_old _ (Nat.ne_of_lt old)
  · obtain rfl : s = 1 := by omega
    show Makes m [Option.none] ⟨1, getCapacity 1, m.next + 1⟩ ((m.grown (getCapacity 1)).grown 1)
    have isOne : getCapacity 1 = 1 := rfl
    rw [isOne]
    refine ⟨⟨Nat.lt_succ_self (m.next + 1), (wf.grown 1).next_live, rfl,
      Nat.one_lt_two_pow (by decide), le_rfl, ?_, fun j below => ?_⟩, (wf.grown 1).grown 1,
      ⟨Nat.le_add_right _ 2, fun q old _ => ?_, fun _ _ _ => Iff.rfl⟩, Nat.le_succ _⟩
    · exact (congrArg List.length (Memory.grown_new (m.grown 1) 1)).ge
    · exact congrArg (·[j]?) (Memory.grown_new (m.grown 1) 1)
    · exact (Memory.grown_old (m := m.grown 1) 1 (Nat.ne_of_lt (Nat.lt_succ_of_lt old))).trans
        (Memory.grown_old 1 (Nat.ne_of_lt old))

theorem copyOf_meets (owns : Owns m vec list) (wf : m.Wf) :
    Meets (copyOf vec) m (fun result after => Makes m list result after) fun _ => False := by
  have old : vec.data ≠ m.next := Nat.ne_of_lt owns.allocated
  have room := owns.room
  have length := owns.length
  rw [copyOf, meets_bind, meets_allocate, meets_bind]
  apply (copyLoop_meets m.next vec.data old vec.size 0 (m.grown vec.capacity) wf.next_live owns.live
    (by rw [Memory.grown_new, List.length_replicate]; omega)
    (by rw [Memory.grown_old _ old]; omega)).mono
  intro _ after shifted
  obtain ⟨⟨cells, rfl⟩, sameLength, moved, -⟩ := shifted
  rw [Memory.put_same, Memory.grown_new, List.length_replicate] at sameLength
  rw [Memory.put_same, Memory.grown_old _ old] at moved
  refine ⟨⟨Nat.lt_succ_self m.next, wf.next_live, owns.size, owns.small, room, ?_, ?_⟩,
    wf.grown vec.capacity,
    ⟨Nat.le_succ _, ?_, fun _ _ _ => Iff.rfl⟩, le_rfl⟩
  · rw [Memory.put_same, sameLength]
  · intro j below
    rw [Memory.put_same, moved j (by rw [owns.size]; omega)]
    exact owns.elements j below
  · intro q isOld different
    rw [Memory.put_other _ different, Memory.grown_old _ different]

end Owning

end Rexv6.Klib.Vector
