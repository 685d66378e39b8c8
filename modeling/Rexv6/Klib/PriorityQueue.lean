import Mathlib.Data.List.GetD
import Mathlib.Data.Multiset.AddSub
import Rexv6.Foundation.BinaryHeap

/-!
Contract: the `PriorityQueue` of `klib/queue.h`, over any element type and any
comparison.

Owns: `push`, `pop`, `top` and the two constructors on a 1-based container whose
position `0` holds a placeholder, the loops that move an element up or down, and
what each operation does to the stored elements.

Does not own: the container, which is here a sequence with `push_back`, `pop_back`
and an `operator[]` that is checked, and sequences of operations (`QueueRuns`).
Sizes are natural numbers: no container of `2 ^ 31` elements fits the kernel's half
of the address space.
-/

namespace Rexv6.Klib

open Rexv6.Foundation
open Rexv6.Foundation.BinaryHeap

/-- Why an operation does not finish: an index outside the container, a loop
longer than the bound it is run with, or a queue that does not exist. -/
inductive QueueFault where
  | outOfBounds
  | depth
  | noQueue
deriving DecidableEq, Repr

/-- The members of `PriorityQueue` that change. -/
structure PriorityQueue (α : Type) where
  container : List α
  placeholder0 : α
  nelement : Nat
deriving Repr

namespace PriorityQueue

variable {α : Type}

/-! ## The container -/

def access (container : List α) (i : Nat) : Except QueueFault α :=
  match container[i]? with
  | some element => .ok element
  | none => .error .outOfBounds

def swap (container : List α) (i j : Nat) : Except QueueFault (List α) := do
  let first ← access container i
  let second ← access container j
  .ok ((container.set i second).set j first)

/-! ## The queue -/

/-- `PriorityQueue()`. The placeholder is whatever its memory held. -/
def new (junk : α) : PriorityQueue α := ⟨[junk], junk, 0⟩

/-- `PriorityQueue(const PriorityQueue &)`, which leaves its own placeholder as it
found it. -/
def copy (junk : α) (prq : PriorityQueue α) : PriorityQueue α :=
  ⟨prq.container.foldl (fun container element => container ++ [element]) [], junk, prq.nelement⟩

def size (q : PriorityQueue α) : Nat := q.nelement

def empty (q : PriorityQueue α) : Bool := q.nelement == 0

def top (q : PriorityQueue α) : Except QueueFault α := access q.container 1

variable (comp : α → α → Bool)

/-- The loop of `push`, with a bound on its turns. -/
def siftUp : (fuel : Nat) → List α → (p : Nat) → Except QueueFault (List α)
  | 0, _, _ => .error .depth
  | fuel + 1, container, p =>
    if 1 < p then do
      let child ← access container p
      let parent ← access container (p / 2)
      if ¬ comp child parent then
        let container ← swap container p (p / 2)
        siftUp fuel container (p / 2)
      else .ok container
    else .ok container

/-- The index of the child that `pop` compares with. -/
def pickChild (container : List α) (s n : Nat) : Except QueueFault Nat :=
  if s < n then do
    let left ← access container s
    let right ← access container (s + 1)
    .ok (if comp left right then s + 1 else s)
  else .ok s

/-- The loop of `pop`, with a bound on its turns. -/
def siftDown : (fuel : Nat) → List α → (p s n : Nat) → Except QueueFault (List α)
  | 0, _, _, _, _ => .error .depth
  | fuel + 1, container, p, s, n =>
    if s ≤ n then do
      let s ← pickChild comp container s n
      let child ← access container s
      let parent ← access container p
      if ¬ comp child parent then
        let container ← swap container s p
        siftDown fuel container s (s * 2) n
      else .ok container
    else .ok container

def push (q : PriorityQueue α) (element : α) : Except QueueFault (PriorityQueue α) := do
  let container := if q.container.isEmpty then q.container ++ [q.placeholder0] else q.container
  let container := container ++ [element]
  let nelement := q.nelement + 1
  let container ← siftUp comp nelement container nelement
  .ok { q with container, nelement }

def pop (q : PriorityQueue α) : Except QueueFault (PriorityQueue α) :=
  if q.nelement = 0 then .ok q
  else do
    let container ← swap q.container 1 q.nelement
    let container := container.dropLast
    let nelement := q.nelement - 1
    let container ← siftDown comp (nelement + 1) container 1 2 nelement
    .ok { q with container, nelement }

/-- The values of `top` while popping until the queue is empty. -/
def drain : (fuel : Nat) → PriorityQueue α → Except QueueFault (List α)
  | 0, q => if q.empty then .ok [] else .error .depth
  | fuel + 1, q =>
    if q.empty then .ok []
    else do
      let first ← q.top
      let q ← q.pop comp
      let rest ← drain fuel q
      .ok (first :: rest)

def contents (q : PriorityQueue α) : Multiset α := ((q.container.drop 1).take q.nelement : List α)

/-! ## Swaps -/

section Swapping

variable {container : List α} {i j n : Nat}

theorem access_ok (d : α) (inside : i < container.length) :
    access container i = .ok (container.getD i d) := by
  rw [access, List.getElem?_eq_getElem inside, List.getD_eq_getElem?_getD,
    List.getElem?_eq_getElem inside]
  rfl

structure Swapped (d : α) (container after : List α) (i j : Nat) : Prop where
  perm : after.Perm container
  at_ : ∀ k, after.getD k d = container.getD (Equiv.swap i j k) d

theorem getD_set (d element : α) (inside : i < container.length) (k : Nat) :
    (container.set i element).getD k d = if k = i then element else container.getD k d := by
  rw [List.getD_eq_getElem?_getD, List.getD_eq_getElem?_getD, List.getElem?_set]
  by_cases same : i = k
  · subst same
    simp [inside]
  · rw [if_neg same, if_neg (Ne.symm same)]

theorem swap_spec (d : α) (first : i < container.length) (second : j < container.length) :
    ∃ after, swap container i j = .ok after ∧ Swapped d container after i j := by
  refine ⟨(container.set i (container.getD j d)).set j (container.getD i d), ?_, ?_, ?_⟩
  · rw [swap, access_ok d first, access_ok d second]
    rfl
  · rw [List.getD_eq_getElem _ d first, List.getD_eq_getElem _ d second]
    exact List.set_set_perm first second
  · intro k
    rw [getD_set d _ (by rw [List.length_set]; exact second), getD_set d _ first]
    by_cases isSecond : k = j
    · subst isSecond
      rw [if_pos rfl, Equiv.swap_apply_right]
    · rw [if_neg isSecond]
      by_cases isFirst : k = i
      · subst isFirst
        rw [if_pos rfl, Equiv.swap_apply_left]
      · rw [if_neg isFirst, Equiv.swap_apply_of_ne_of_ne isFirst isSecond]

structure Rearranged (d : α) (container after : List α) : Prop where
  perm : after.Perm container
  first : after.getD 0 d = container.getD 0 d

theorem Rearranged.refl (d : α) (container : List α) : Rearranged d container container :=
  ⟨.refl container, rfl⟩

theorem Rearranged.trans {d : α} {middle after : List α} (first : Rearranged d container middle)
    (second : Rearranged d middle after) : Rearranged d container after :=
  ⟨second.perm.trans first.perm, second.first.trans first.first⟩

theorem Swapped.rearranged {d : α} {after : List α} (swapped : Swapped d container after i j)
    (first : 1 ≤ i) (second : 1 ≤ j) : Rearranged d container after :=
  ⟨swapped.perm, by rw [swapped.at_, Equiv.swap_apply_of_ne_of_ne (by omega) (by omega)]⟩

theorem Rearranged.tail {d : α} {after : List α} (rearranged : Rearranged d container after) :
    (after.drop 1).Perm (container.drop 1) := by
  obtain ⟨perm, first⟩ := rearranged
  cases container with
  | nil =>
    rw [List.perm_nil.mp perm]
  | cons head rest =>
    cases after with
    | nil => exact absurd perm.length_eq (by simp)
    | cons head' rest' =>
      subst first
      exact perm.cons_inv

end Swapping

/-! ## The loops -/

section Loops

variable {comp : α → α → Bool} [IsStrictWeakOrder α fun a b => comp a b = true]
  {container : List α} {n p s : Nat} (d : α)

theorem comp_irrefl (a : α) : ¬ comp a a = true :=
  Std.Irrefl.irrefl (r := fun a b => comp a b = true) a

theorem comp_asymm {a b : α} (less : comp a b = true) : ¬ comp b a = true :=
  @not_lt_of_lt α (fun a b => comp a b = true) _ a b less

theorem comp_trans {a b c : α} (first : ¬ comp a b = true) (second : ¬ comp b c = true) :
    ¬ comp a c = true :=
  @not_lt_trans α (fun a b => comp a b = true) _ a b c first second

abbrev OrderedTo (comp : α → α → Bool) (d : α) (container : List α) (n : Nat) : Prop :=
  Ordered (fun a b => comp a b = true) (fun i => container.getD i d) n

theorem siftUp_spec (fuel : Nat) {container : List α} {p : Nat} (low : 1 ≤ p) (enough : p ≤ fuel)
    (high : p ≤ n) (inside : n < container.length)
    (rising : Rising (fun a b => comp a b = true) (fun i => container.getD i d) n p) :
    ∃ after, siftUp comp fuel container p = .ok after ∧ Rearranged d container after ∧
      OrderedTo comp d after n := by
  induction fuel generalizing container p with
  | zero => omega
  | succ fuel ih =>
    rw [siftUp]
    by_cases more : 1 < p
    · rw [if_pos more, access_ok d (by omega), access_ok d (by omega)]
      simp only [bind, Except.bind]
      by_cases above : comp (container.getD p d) (container.getD (p / 2) d) = true
      · rw [if_neg (not_not.mpr above)]
        exact ⟨container, rfl, .refl d container, rising.finish (Or.inr above)⟩
      · rw [if_pos above]
        obtain ⟨middle, swapped, isSwap⟩ := swap_spec d (by omega : p < container.length)
          (by omega : p / 2 < container.length)
        have moved := rising.swap more high above
        simp only [← isSwap.at_] at moved
        obtain ⟨after, rest, rearranged, ordered⟩ := ih (by omega) (by omega)
          (by omega) (by rw [isSwap.perm.length_eq]; exact inside) moved
        rw [swapped]
        exact ⟨after, rest, (isSwap.rearranged (by omega) (by omega)).trans rearranged, ordered⟩
    · rw [if_neg more]
      exact ⟨container, rfl, .refl d container, rising.finish (Or.inl (by omega))⟩

variable (comp) in
theorem pickChild_spec (isLeft : s = p * 2) (high : s ≤ n) (inside : n < container.length) :
    ∃ picked, pickChild comp container s n = .ok picked ∧ picked / 2 = p ∧ picked ≤ n ∧
      ∀ i, i ≤ n → i / 2 = p → ¬ comp (container.getD picked d) (container.getD i d) = true := by
  unfold pickChild
  by_cases both : s < n
  · rw [if_pos both, access_ok d (by omega), access_ok d (by omega)]
    simp only [bind, Except.bind]
    by_cases right : comp (container.getD s d) (container.getD (s + 1) d) = true
    · refine ⟨s + 1, by rw [if_pos right], by omega, by omega, fun i most isChild => ?_⟩
      have cases : i = s ∨ i = s + 1 := by omega
      rcases cases with rfl | rfl
      · exact comp_asymm right
      · exact comp_irrefl _
    · refine ⟨s, by rw [if_neg right], by omega, by omega, fun i most isChild => ?_⟩
      have cases : i = s ∨ i = s + 1 := by omega
      rcases cases with rfl | rfl
      · exact comp_irrefl _
      · exact right
  · rw [if_neg both]
    refine ⟨s, rfl, by omega, high, fun i most isChild => ?_⟩
    obtain rfl : i = s := by omega
    exact comp_irrefl _

theorem siftDown_spec (fuel : Nat) {container : List α} {p s : Nat} (low : 1 ≤ p)
    (isLeft : s = p * 2) (enough : n < p + fuel) (some : 0 < fuel)
    (inside : n < container.length)
    (sinking : Sinking (fun a b => comp a b = true) (fun i => container.getD i d) n p) :
    ∃ after, siftDown comp fuel container p s n = .ok after ∧ Rearranged d container after ∧
      OrderedTo comp d after n := by
  induction fuel generalizing container p s with
  | zero => omega
  | succ fuel ih =>
    rw [siftDown]
    by_cases more : s ≤ n
    · obtain ⟨picked, isPicked, isChild, most, larger⟩ := pickChild_spec comp d isLeft more inside
      rw [if_pos more, isPicked]
      simp only [bind, Except.bind]
      rw [access_ok d (by omega), access_ok d (by omega)]
      simp only
      by_cases below : comp (container.getD picked d) (container.getD p d) = true
      · rw [if_neg (not_not.mpr below)]
        refine ⟨container, rfl, .refl d container, sinking.finish fun i high two child => ?_⟩
        exact comp_trans (comp_asymm below) (larger i high child)
      · rw [if_pos below]
        obtain ⟨middle, swapped, isSwap⟩ := swap_spec d (by omega : picked < container.length)
          (by omega : p < container.length)
        have moved := sinking.swap isChild low most larger below
        simp only [← isSwap.at_] at moved
        obtain ⟨after, rest, rearranged, ordered⟩ := ih (by omega) rfl (by omega)
          (by omega) (by rw [isSwap.perm.length_eq]; exact inside) moved
        rw [swapped]
        exact ⟨after, rest, (isSwap.rearranged (by omega) (by omega)).trans rearranged, ordered⟩
    · rw [if_neg more]
      refine ⟨container, rfl, .refl d container, sinking.finish fun i high two child => ?_⟩
      omega

end Loops

/-! ## The operations -/

/-- A queue between two operations: one position for the placeholder and one for
each element, in heap order. -/
structure Valid (comp : α → α → Bool) (q : PriorityQueue α) : Prop where
  length : q.container.length = q.nelement + 1
  ordered : OrderedTo comp q.placeholder0 q.container q.nelement

section Operations

variable {comp : α → α → Bool} {q : PriorityQueue α}

theorem Valid.contents_eq (valid : Valid comp q) : q.contents = (q.container.drop 1 : List α) := by
  rw [contents, List.take_of_length_le]
  rw [List.length_drop, valid.length]
  omega

theorem Valid.card_contents (valid : Valid comp q) : q.contents.card = q.size := by
  rw [valid.contents_eq, Multiset.coe_card, List.length_drop, valid.length]
  rfl

theorem new_valid (junk : α) : Valid comp (new junk) := ⟨rfl, fun i low high => by
  simp only [new] at high
  omega⟩

/-- Appending the elements one by one copies a container. -/
theorem foldl_push_back (front rest : List α) :
    rest.foldl (fun container element => container ++ [element]) front = front ++ rest := by
  induction rest generalizing front with
  | nil => simp
  | cons head rest ih =>
    rw [List.foldl_cons, ih, List.append_assoc, List.singleton_append]

theorem copy_eq (junk : α) (q : PriorityQueue α) :
    copy junk q = { q with placeholder0 := junk } := by
  rw [copy, foldl_push_back, List.nil_append]

/-- Heap order does not depend on what a position outside the container reads as. -/
theorem OrderedTo.congr {container : List α} {n : Nat} {d : α}
    (ordered : OrderedTo comp d container n)
    (inside : n < container.length) (d' : α) : OrderedTo comp d' container n := by
  intro i low high
  have parent : container.getD (i / 2) d' = container.getD (i / 2) d := by
    rw [List.getD_eq_getElem _ _ (by omega), List.getD_eq_getElem _ _ (by omega)]
  have child : container.getD i d' = container.getD i d := by
    rw [List.getD_eq_getElem _ _ (by omega), List.getD_eq_getElem _ _ (by omega)]
  simp only [parent, child]
  exact ordered i low high

theorem Valid.copy (valid : Valid comp q) (junk : α) : Valid comp (copy junk q) := by
  rw [copy_eq]
  exact ⟨valid.length, valid.ordered.congr (by rw [valid.length]; omega) junk⟩

theorem copy_contents (junk : α) (q : PriorityQueue α) : (copy junk q).contents = q.contents := by
  rw [copy_eq]
  rfl

theorem pop_empty (none : q.nelement = 0) : q.pop comp = .ok q := by
  rw [PriorityQueue.pop, if_pos none]

theorem Valid.contents_zero (valid : Valid comp q) (none : q.nelement = 0) : q.contents = 0 := by
  rw [← Multiset.card_eq_zero, valid.card_contents]
  exact none

variable [IsStrictWeakOrder α fun a b => comp a b = true]

/-- `top` of a queue with elements is one of them, and none is above it. -/
theorem Valid.top (valid : Valid comp q) (some : q.nelement ≠ 0) :
    ∃ first, q.top = .ok first ∧ first ∈ q.contents ∧
      ∀ element ∈ q.contents, comp first element = false := by
  have inside : 1 < q.container.length := by rw [valid.length]; omega
  refine ⟨q.container.getD 1 q.placeholder0, access_ok _ inside, ?_, ?_⟩
  · rw [valid.contents_eq, Multiset.mem_coe, List.getD_eq_getElem _ _ inside]
    apply List.mem_iff_getElem?.mpr
    exact ⟨0, by rw [List.getElem?_drop, List.getElem?_eq_getElem inside]⟩
  · intro element member
    rw [valid.contents_eq, Multiset.mem_coe] at member
    obtain ⟨i, isAt⟩ := List.mem_iff_getElem?.mp member
    rw [List.getElem?_drop] at isAt
    obtain ⟨below, isElement⟩ := List.getElem?_eq_some_iff.mp isAt
    have first := valid.ordered.top (1 + i) (by omega) (by rw [valid.length] at below; omega)
    simp only [List.getD_eq_getElem _ _ below, isElement] at first
    exact eq_false_of_ne_true first

theorem Valid.push (valid : Valid comp q) (element : α) :
    ∃ after, q.push comp element = .ok after ∧ Valid comp after ∧
      after.contents = element ::ₘ q.contents := by
  have nonempty : q.container.isEmpty = false := by
    rw [List.isEmpty_eq_false_iff]
    intro isNil
    have length := valid.length
    rw [isNil] at length
    simp at length
  have length : (q.container ++ [element]).length = q.nelement + 2 := by
    rw [List.length_append, valid.length]
    rfl
  have ordered : OrderedTo comp q.placeholder0 (q.container ++ [element]) q.nelement := by
    intro i low high
    simp only [List.getD_append _ _ _ _ (by rw [valid.length]; omega : i / 2 < q.container.length),
      List.getD_append _ _ _ _ (by rw [valid.length]; omega : i < q.container.length)]
    exact valid.ordered i low high
  obtain ⟨container, sifted, rearranged, sorted⟩ := siftUp_spec q.placeholder0 (q.nelement + 1)
    (by omega) le_rfl le_rfl (by omega) ordered.rising
  have after : Valid comp ⟨container, q.placeholder0, q.nelement + 1⟩ :=
    ⟨by rw [rearranged.perm.length_eq, length], sorted⟩
  refine ⟨_, ?_, after, ?_⟩
  · unfold PriorityQueue.push
    simp only [nonempty, Bool.false_eq_true, if_false, sifted, bind, Except.bind]
  · rw [after.contents_eq, valid.contents_eq, Multiset.coe_eq_coe.mpr rearranged.tail,
      List.drop_append_of_le_length (by rw [valid.length]; omega)]
    exact Multiset.coe_eq_coe.mpr (List.perm_append_singleton element _)

theorem dropLast_concat (d : α) {container : List α} {n : Nat}
    (length : container.length = n + 1) :
    container.dropLast ++ [container.getD n d] = container := by
  have nonempty : container ≠ [] := by
    intro isNil
    rw [isNil] at length
    simp at length
  have last : container.getD n d = container.getLast nonempty := by
    rw [List.getD_eq_getElem _ _ (by omega), List.getLast_eq_getElem]
    simp only [length, Nat.add_sub_cancel]
  rw [last]
  exact List.dropLast_append_getLast nonempty

theorem Valid.pop (valid : Valid comp q) (some : q.nelement ≠ 0) :
    ∃ first after, q.top = .ok first ∧ q.pop comp = .ok after ∧ Valid comp after ∧
      q.contents = first ::ₘ after.contents := by
  have length := valid.length
  obtain ⟨middle, swapped, isSwap⟩ := swap_spec q.placeholder0
    (by omega : 1 < q.container.length) (by omega : q.nelement < q.container.length)
  have middleLength : middle.length = q.nelement + 1 := isSwap.perm.length_eq.trans length
  have whole := dropLast_concat q.placeholder0 middleLength
  have shorter : middle.dropLast.length = q.nelement := by
    rw [List.length_dropLast, middleLength]
    rfl
  -- Off the top, the shorter container reads as the old one.
  have same : ∀ i, 2 ≤ i → i ≤ q.nelement - 1 →
      middle.dropLast.getD i q.placeholder0 = q.container.getD i q.placeholder0 := by
    intro i low high
    have kept : middle.dropLast.getD i q.placeholder0 = middle.getD i q.placeholder0 := by
      rw [← List.getD_append middle.dropLast [middle.getD q.nelement q.placeholder0] _ _
        (by omega), whole]
    rw [kept, isSwap.at_, Equiv.swap_apply_of_ne_of_ne (by omega) (by omega)]
  have sinking := valid.ordered.sinking (by omega) same
  obtain ⟨container, sifted, rearranged, sorted⟩ := siftDown_spec q.placeholder0
    (q.nelement - 1 + 1) le_rfl rfl (by omega) (by omega) (by omega) sinking
  have after : Valid comp ⟨container, q.placeholder0, q.nelement - 1⟩ :=
    ⟨by rw [rearranged.perm.length_eq, shorter]; dsimp only; omega, sorted⟩
  refine ⟨_, _, access_ok q.placeholder0 (by omega), ?_, after, ?_⟩
  · unfold PriorityQueue.pop
    rw [if_neg some, swapped]
    simp only [bind, Except.bind, sifted]
  · have last : middle.getD q.nelement q.placeholder0 = q.container.getD 1 q.placeholder0 := by
      rw [isSwap.at_, Equiv.swap_apply_right]
    have tail := (isSwap.rearranged le_rfl (by omega)).tail
    rw [last] at whole
    rw [← whole, List.drop_append_of_le_length (by omega)] at tail
    rw [after.contents_eq, valid.contents_eq, Multiset.coe_eq_coe.mpr rearranged.tail,
      ← Multiset.coe_eq_coe.mpr tail]
    exact Multiset.coe_eq_coe.mpr (List.perm_append_singleton _ _)

/-- Popping until empty gives the contents, none of them below a later one. -/
theorem Valid.drain (fuel : Nat) {q : PriorityQueue α} (valid : Valid comp q)
    (enough : q.nelement ≤ fuel) :
    ∃ tops, drain comp fuel q = .ok tops ∧ (tops : Multiset α) = q.contents ∧
      tops.Pairwise fun first later => comp first later = false := by
  induction fuel generalizing q with
  | zero =>
    have none : q.nelement = 0 := by omega
    refine ⟨[], ?_, (valid.contents_zero none).symm, .nil⟩
    simp [PriorityQueue.drain, PriorityQueue.empty, none]
  | succ fuel ih =>
    by_cases none : q.nelement = 0
    · refine ⟨[], ?_, (valid.contents_zero none).symm, .nil⟩
      simp [PriorityQueue.drain, PriorityQueue.empty, none]
    · obtain ⟨first, after, isTop, popped, afterValid, contents⟩ := valid.pop none
      have fewer : after.nelement + 1 = q.nelement := by
        have card := valid.card_contents
        rw [contents, Multiset.card_cons, afterValid.card_contents] at card
        exact card
      obtain ⟨rest, drained, isRest, sorted⟩ := ih afterValid (by omega)
      refine ⟨first :: rest, ?_, ?_, List.pairwise_cons.mpr ⟨fun later member => ?_, sorted⟩⟩
      · simp [PriorityQueue.drain, PriorityQueue.empty, none, isTop, popped, drained, bind,
          Except.bind]
      · rw [← Multiset.cons_coe, isRest, contents]
      · obtain ⟨largest, isLargest, -, above⟩ := valid.top none
        obtain rfl : largest = first := Except.ok.inj (isLargest.symm.trans isTop)
        apply above
        rw [contents, ← isRest]
        exact Multiset.mem_cons_of_mem member

end Operations

end PriorityQueue

end Rexv6.Klib
