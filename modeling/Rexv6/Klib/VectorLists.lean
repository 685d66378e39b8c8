import Rexv6.Foundation.Execution
import Rexv6.Klib.VectorOperations

/-!
Contract: a `Vector` behaves as the list of its elements.

Owns: programs on lists, and the theorem that every program with
default-constructed vectors and their copies refines the same program on lists
without leaving a buffer.

Does not own: the rules of the single operations (`VectorOperations`).
-/

namespace Rexv6.Klib.Vector

open Rexv6.Foundation
open Rexv6.Foundation.Execution (Along)
open Rexv6.Foundation.Program

/-! ## Programs on lists -/

section Refinement

variable {α β : Type}

/-- What a call does to the lists that the vectors stand for. -/
def listStep (lists : List (Option (List α))) : Op α → List (Option (List α))
  | .construct _ => lists ++ [some []]
  | .copy obj => lists ++ [lists[obj]?.join]
  | .assign v obj => lists.set v lists[obj]?.join
  | .pushBack v val => lists.modify v (Option.map (· ++ [val]))
  | .popBack v => lists.modify v (Option.map List.dropLast)
  | .insert v current val => lists.modify v (Option.map (·.insertIdx current val))
  | .erase v current => lists.modify v (Option.map (·.eraseIdx current))
  | .clear v => lists.modify v (Option.map fun _ => [])
  | .reserve v _ => lists.modify v (Option.map id)
  | .shrinkToFit v => lists.modify v (Option.map id)
  | .destroy v => lists.modify v fun _ => none

/-- The calls of a program on vectors of fewer than `2 ^ 31` elements: only default
construction and copying make vectors, none is assigned to another, positions lie in
the vector, and no more than `2 ^ 31` elements are reserved. -/
def Legal (s : State α) : Op α → Prop
  | .construct size => size = 0
  | .copy obj => (s.vectors[obj]?.join).isSome
  | .assign _ _ => False
  | .pushBack v _ => ∃ vec ∈ s.vectors[v]?.join, vec.size + 1 < 2 ^ 31
  | .popBack v => (s.vectors[v]?.join).isSome
  | .insert v current _ => ∃ vec ∈ s.vectors[v]?.join, current ≤ vec.size ∧ vec.size + 1 < 2 ^ 31
  | .erase v current => ∃ vec ∈ s.vectors[v]?.join, current < vec.size
  | .clear v => (s.vectors[v]?.join).isSome
  | .reserve v nsz => (s.vectors[v]?.join).isSome ∧ nsz ≤ 2 ^ 31
  | .shrinkToFit v => (s.vectors[v]?.join).isSome
  | .destroy v => (s.vectors[v]?.join).isSome

instance (s : State α) (op : Op α) : Decidable (Legal s op) := by
  cases op <;> unfold Legal <;> infer_instance

/-- Every vector owns the list it stands for, in a buffer of its own. The elements of
the list are in the buffer as `embed` has them. -/
structure Refines (embed : β → Option α) (s : State α) (lists : List (Option (List β))) : Prop where
  wf : s.memory.Wf
  length : s.vectors.length = lists.length
  owns : ∀ (v : Nat) vec, s.vectors[v]?.join = some vec →
    ∃ list, lists[v]?.join = some list ∧ Owns s.memory vec (list.map embed)
  apart : ∀ (v w : Nat) vec other, v ≠ w → s.vectors[v]?.join = some vec →
    s.vectors[w]?.join = some other → vec.data ≠ other.data

variable {embed : β → Option α} {s : State α} {lists : List (Option (List β))}

theorem Refines.start (embed : β → Option α) : Refines embed Vector.start [] := by
  refine ⟨fun p member => by simp [Vector.start] at member, rfl, ?_, ?_⟩
  · intro v vec isVec
    simp [Vector.start] at isVec
  · intro v w vec other different isVec
    simp [Vector.start] at isVec

/-- A vector keeps its list when no other vector's call touches its buffer. -/
theorem Owns.frame {m after : Memory α} {vec : Vec} {list : List (Option α)}
    {p : Nat} (owns : Owns m vec list) (frame : Frame p m after) (different : vec.data ≠ p) :
    Owns after vec list := by
  have cells := frame.cells vec.data owns.allocated different
  refine ⟨lt_of_lt_of_le owns.allocated frame.next, ?_, owns.size, owns.small, owns.room, ?_, ?_⟩
  · rw [frame.released vec.data owns.allocated different]
    exact owns.live
  · rw [cells]
    exact owns.length
  · rw [cells]
    exact owns.elements

theorem join_set {vectors : List (Option Vec)} {v w : Nat} {vec : Option Vec}
    (inside : v < vectors.length) :
    (vectors.set v vec)[w]?.join = if w = v then vec else vectors[w]?.join := by
  by_cases same : w = v
  · subst same
    rw [List.getElem?_set_self inside, if_pos rfl]
    rfl
  · rw [List.getElem?_set_ne (Ne.symm same), if_neg same]

theorem join_modify {v w : Nat} (change : Option (List β) → Option (List β))
    (inside : v < lists.length) :
    (lists.modify v change)[w]?.join =
      if w = v then change lists[w]?.join else lists[w]?.join := by
  rw [List.getElem?_modify]
  by_cases same : w = v
  · subst same
    rw [if_pos rfl, List.getElem?_eq_getElem inside]
    simp
  · rw [if_neg same]
    simp [Ne.symm same]

theorem join_append {β : Type} (front : List (Option β)) (last : Option β) (w : Nat) :
    (front ++ [last])[w]?.join = if w = front.length then last else front[w]?.join := by
  rw [List.getElem?_append]
  by_cases isLast : w = front.length
  · subst isLast
    rw [if_neg (Nat.lt_irrefl _), if_pos rfl, Nat.sub_self]
    rfl
  · rw [if_neg isLast]
    by_cases below : w < front.length
    · rw [if_pos below]
    · have behind : [last].length ≤ w - front.length := by
        rw [List.length_singleton]
        omega
      rw [if_neg below, List.getElem?_eq_none behind, List.getElem?_eq_none (by omega)]

theorem lt_of_join {β : Type} {entries : List (Option β)} {v : Nat} {entry : β}
    (isEntry : entries[v]?.join = some entry) : v < entries.length := by
  by_contra outside
  rw [List.getElem?_eq_none (Nat.le_of_not_lt outside)] at isEntry
  cases isEntry

theorem Refines.change (refines : Refines embed s lists) {v : Nat} {vec : Vec}
    (isVec : s.vectors[v]?.join = some vec) {call : Vec → Run α Vec} {f : List β → List β}
    (spec : ∀ list : List β, Owns s.memory vec (list.map embed) → Meets (call vec) s.memory
      (fun result after => Becomes s.memory vec ((f list).map embed) result after) fun _ => False) :
    ∃ after, s.change v call = .ok after ∧
      Refines embed after (lists.modify v (Option.map f)) := by
  obtain ⟨list, isList, owns⟩ := refines.owns v vec isVec
  obtain ⟨result, memory, run, becomes⟩ := (spec list owns).returns
  have inside := lt_of_join isVec
  have listInside := lt_of_join isList
  refine ⟨⟨memory, s.vectors.set v (some result)⟩, ?_, ⟨becomes.wf, ?_, ?_, ?_⟩⟩
  · rw [State.change, isVec]
    simp only [run, Except.map]
  · rw [List.length_set, List.length_modify, refines.length]
  · intro w other isOther
    rw [join_set inside] at isOther
    rw [join_modify _ listInside]
    by_cases same : w = v
    · subst same
      rw [if_pos rfl] at isOther ⊢
      obtain rfl := Option.some.inj isOther
      exact ⟨f list, by rw [isList]; rfl, becomes.owns⟩
    · rw [if_neg same] at isOther ⊢
      obtain ⟨otherList, isOtherList, otherOwns⟩ := refines.owns w other isOther
      exact ⟨otherList, isOtherList, otherOwns.frame becomes.frame
        (refines.apart w v other vec same isOther isVec)⟩
  · -- The result's buffer is the old one or newer than every other.
    have fresh : ∀ (w : Nat) other, w ≠ v → s.vectors[w]?.join = some other →
        result.data ≠ other.data := by
      intro w other different isOther
      have old := refines.apart w v other vec different isOther isVec
      obtain ⟨_, -, otherOwns⟩ := refines.owns w other isOther
      have allocated := otherOwns.allocated
      have data := becomes.data
      omega
    intro w x first second different isFirst isSecond
    simp only [join_set inside] at isFirst isSecond
    by_cases firstIs : w = v
    · rw [if_pos firstIs] at isFirst
      rw [if_neg (by omega)] at isSecond
      obtain rfl := Option.some.inj isFirst
      exact fresh x second (by omega) isSecond
    · rw [if_neg firstIs] at isFirst
      by_cases secondIs : x = v
      · rw [if_pos secondIs] at isSecond
        obtain rfl := Option.some.inj isSecond
        exact (fresh w first firstIs isFirst).symm
      · rw [if_neg secondIs] at isSecond
        exact refines.apart w x first second different isFirst isSecond

theorem Refines.make (refines : Refines embed s lists) {call : Run α Vec} {list : List β}
    (spec : Meets call s.memory (fun result after => Makes s.memory (list.map embed) result after)
      fun _ => False) :
    ∃ after, s.make call = .ok after ∧ Refines embed after (lists ++ [some list]) := by
  obtain ⟨result, memory, run, makes⟩ := spec.returns
  have kept : ∀ (w : Nat) other, s.vectors[w]?.join = some other →
      ∃ list, lists[w]?.join = some list ∧
        Owns memory other (list.map embed) ∧ other.data < s.memory.next := by
    intro w other isOther
    obtain ⟨otherList, isOtherList, otherOwns⟩ := refines.owns w other isOther
    exact ⟨otherList, isOtherList, otherOwns.frame makes.frame (Nat.ne_of_lt otherOwns.allocated),
      otherOwns.allocated⟩
  have data := makes.data
  refine ⟨⟨memory, s.vectors ++ [some result]⟩, ?_, ⟨makes.wf, ?_, ?_, ?_⟩⟩
  · rw [State.make]
    simp only [run, Except.map]
  · rw [List.length_append, List.length_append, refines.length]
    rfl
  · intro w other isOther
    rw [join_append] at isOther
    rw [join_append, ← refines.length]
    by_cases isLast : w = s.vectors.length
    · rw [if_pos isLast] at isOther ⊢
      obtain rfl := Option.some.inj isOther
      exact ⟨list, rfl, makes.owns⟩
    · rw [if_neg isLast] at isOther ⊢
      obtain ⟨otherList, isOtherList, otherOwns, -⟩ := kept w other isOther
      exact ⟨otherList, isOtherList, otherOwns⟩
  · intro w x first second different isFirst isSecond
    simp only [join_append] at isFirst isSecond
    by_cases firstIs : w = s.vectors.length
    · rw [if_pos firstIs] at isFirst
      rw [if_neg (by omega)] at isSecond
      obtain rfl := Option.some.inj isFirst
      obtain ⟨-, -, -, old⟩ := kept x second isSecond
      omega
    · rw [if_neg firstIs] at isFirst
      obtain ⟨-, -, -, old⟩ := kept w first isFirst
      by_cases secondIs : x = s.vectors.length
      · rw [if_pos secondIs] at isSecond
        obtain rfl := Option.some.inj isSecond
        omega
      · rw [if_neg secondIs] at isSecond
        exact refines.apart w x first second different isFirst isSecond

theorem Refines.destroy (refines : Refines embed s lists) {v : Nat} {vec : Vec}
    (isVec : s.vectors[v]?.join = some vec) :
    ∃ after, s.step (.destroy v) = .ok after ∧
      Refines embed after (lists.modify v fun _ => none) := by
  obtain ⟨list, isList, owns⟩ := refines.owns v vec isVec
  have inside := lt_of_join isVec
  have frame : Frame vec.data s.memory (s.memory.freed vec.data) :=
    ⟨le_rfl, fun _ _ _ => rfl, fun q _ different => List.mem_cons.trans (or_iff_right different)⟩
  refine ⟨⟨s.memory.freed vec.data, s.vectors.set v none⟩, ?_, ⟨?_, ?_, ?_, ?_⟩⟩
  · simp only [State.step, isVec]
    rfl
  · intro p member
    cases List.mem_cons.mp member with
    | inl isData =>
      rw [isData]
      exact owns.allocated
    | inr isOld => exact refines.wf p isOld
  · rw [List.length_set, List.length_modify, refines.length]
  · intro w other isOther
    rw [join_set inside] at isOther
    rw [join_modify _ (lt_of_join isList)]
    by_cases same : w = v
    · rw [if_pos same] at isOther
      cases isOther
    · rw [if_neg same] at isOther ⊢
      obtain ⟨otherList, isOtherList, otherOwns⟩ := refines.owns w other isOther
      exact ⟨otherList, isOtherList, otherOwns.frame frame
        (refines.apart w v other vec same isOther isVec)⟩
  · intro w x first second different isFirst isSecond
    simp only [join_set inside] at isFirst isSecond
    by_cases firstIs : w = v
    · rw [if_pos firstIs] at isFirst
      cases isFirst
    · by_cases secondIs : x = v
      · rw [if_pos secondIs] at isSecond
        cases isSecond
      · rw [if_neg firstIs] at isFirst
        rw [if_neg secondIs] at isSecond
        exact refines.apart w x first second different isFirst isSecond

variable {elements : List (Option (List α))}

/-- Every legal call stays inside the buffers and does to the list what it says. -/
theorem Refines.step (refines : Refines some s elements) {op : Op α} (legal : Legal s op) :
    ∃ after, s.step op = .ok after ∧ Refines some after (listStep elements op) := by
  have wf := refines.wf
  cases op with
  | construct size =>
    obtain rfl : size = 0 := legal
    exact refines.make (construct_meets wf (Nat.zero_le 1))
  | copy obj =>
    obtain ⟨vec, isVec⟩ := Option.isSome_iff_exists.mp legal
    obtain ⟨list, isList, owns⟩ := refines.owns obj vec isVec
    obtain ⟨after, made, next⟩ := refines.make (copyOf_meets owns wf)
    refine ⟨after, by simp only [State.step, isVec, made], ?_⟩
    rw [listStep, isList]
    exact next
  | assign v obj => exact legal.elim
  | pushBack v val =>
    obtain ⟨vec, isVec, small⟩ := legal
    refine refines.change isVec fun list owns => ?_
    rw [List.map_append]
    exact pushBack_meets owns wf val small
  | popBack v =>
    obtain ⟨vec, isVec⟩ := Option.isSome_iff_exists.mp legal
    refine refines.change isVec fun list owns => ?_
    rw [List.map_dropLast]
    exact popBack_meets owns wf
  | insert v current val =>
    obtain ⟨vec, isVec, inside, small⟩ := legal
    refine refines.change isVec fun list owns => ?_
    rw [List.map_insertIdx]
    exact insert_meets owns wf val inside small
  | erase v current =>
    obtain ⟨vec, isVec, inside⟩ := legal
    refine refines.change isVec fun list owns => ?_
    rw [← List.eraseIdx_map]
    exact erase_meets owns wf inside
  | clear v =>
    obtain ⟨vec, isVec⟩ := Option.isSome_iff_exists.mp legal
    exact refines.change isVec fun list owns => clear_meets owns wf
  | reserve v nsz =>
    obtain ⟨vec, isVec⟩ := Option.isSome_iff_exists.mp legal.1
    exact refines.change isVec fun list owns =>
      (reserve_meets owns wf legal.2).mono fun _ _ all => all.1
  | shrinkToFit v =>
    obtain ⟨vec, isVec⟩ := Option.isSome_iff_exists.mp legal
    exact refines.change isVec fun list owns => shrinkToFit_meets owns wf
  | destroy v =>
    obtain ⟨vec, isVec⟩ := Option.isSome_iff_exists.mp legal
    exact refines.destroy isVec

theorem Refines.run {ops : List (Op α)} (refines : Refines some s elements)
    (legal : Along State.step Legal s ops) :
    ∃ after, s.run ops = .ok after ∧ Refines some after (ops.foldl listStep elements) := by
  induction ops generalizing s elements with
  | nil => exact ⟨s, rfl, refines⟩
  | cons op rest ih =>
    obtain ⟨middle, stepped, next⟩ := refines.step legal.head
    obtain ⟨after, run, final⟩ := ih next (legal.tail stepped)
    exact ⟨after, Execution.foldlM_cons_of stepped run, final⟩

theorem Owns.take_eq {m : Memory α} {vec : Vec} {list : List (Option α)} (owns : Owns m vec list) :
    (m.cells vec.data).take vec.size = list := by
  apply List.ext_getElem?
  intro j
  rw [List.getElem?_take]
  by_cases below : j < vec.size
  · rw [if_pos below, owns.elements j (by rw [← owns.size]; exact below)]
  · rw [if_neg below, List.getElem?_eq_none (by rw [← owns.size]; omega)]

end Refinement

/-- A vector refines a list. Every legal program returns without an access outside
a buffer or to a released one, and afterwards every vector holds the elements of the
list that the same calls make, within its capacity. -/
theorem vectors_refine_lists {α : Type} (ops : List (Op α))
    (legal : Along State.step Legal start ops) :
    ∃ s : State α, start.run ops = .ok s ∧ ∀ (v : Nat) vec, s.vectors[v]?.join = some vec →
      ∃ list, (ops.foldl listStep [])[v]?.join = some list ∧ vec.size = list.length ∧
        (s.memory.cells vec.data).take vec.size = list.map some ∧ vec.size ≤ vec.capacity := by
  obtain ⟨s, run, refines⟩ := (Refines.start some).run legal
  refine ⟨s, run, fun v vec isVec => ?_⟩
  obtain ⟨list, isList, owns⟩ := refines.owns v vec isVec
  exact ⟨list, isList, by rw [owns.size, List.length_map], owns.take_eq, owns.room⟩

/-- Two elements, the second erased, with a copy in between. -/
theorem vectors_refine_lists_copy :
    ∃ s : State Nat,
      start.run [.construct 0, .pushBack 0 7, .insert 0 0 8, .copy 0, .erase 0 1] = .ok s ∧
      ∀ (v : Nat) vec, s.vectors[v]?.join = some vec →
        ∃ list, ([some [8], some [8, 7]] : List (Option (List Nat)))[v]?.join = some list ∧
          vec.size = list.length ∧
          (s.memory.cells vec.data).take vec.size = list.map some ∧ vec.size ≤ vec.capacity :=
  vectors_refine_lists [.construct 0, .pushBack 0 7, .insert 0 0 8, .copy 0, .erase 0 1]
    (by decide +kernel)

end Rexv6.Klib.Vector
