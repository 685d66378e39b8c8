import Rexv6.Foundation.Execution
import Rexv6.Klib.PriorityQueue

/-!
Contract: sequences of operations on a `PriorityQueue` and its copies.

Owns: the record of what has been pushed and popped, and the theorem that every
sequence of `push`, `pop` and copy construction stays inside the containers and
leaves every queue a correct priority queue.

Does not own: the loops of `push` and `pop` (`PriorityQueue`).
-/

namespace Rexv6.Klib.PriorityQueue

open Rexv6.Foundation
open Rexv6.Foundation.Execution (Along)

variable {α : Type}

/-! ## Queues and their copies -/

/-- A queue with the elements pushed on it and popped from it. -/
structure Entry (α : Type) where
  queue : PriorityQueue α
  pushed : Multiset α
  popped : Multiset α

/-- An operation on the `i`-th queue. A copy becomes the last queue. -/
inductive Op (α : Type) where
  | push (i : Nat) (element : α)
  | pop (i : Nat)
  | copy (i : Nat) (junk : α)

def Entry.push (comp : α → α → Bool) (entry : Entry α) (element : α) :
    Except QueueFault (Entry α) := do
  let queue ← entry.queue.push comp element
  .ok { entry with queue, pushed := element ::ₘ entry.pushed }

/-- `pop`, which removes the element that `top` returns if there is one. -/
def Entry.pop (comp : α → α → Bool) (entry : Entry α) : Except QueueFault (Entry α) :=
  if entry.queue.empty then do
    let queue ← entry.queue.pop comp
    .ok { entry with queue }
  else do
    let first ← entry.queue.top
    let queue ← entry.queue.pop comp
    .ok { entry with queue, popped := first ::ₘ entry.popped }

def step (comp : α → α → Bool) (entries : List (Entry α)) :
    Op α → Except QueueFault (List (Entry α))
  | .push i element =>
    match entries[i]? with
    | none => .error .noQueue
    | some entry => (entry.push comp element).map (entries.set i)
  | .pop i =>
    match entries[i]? with
    | none => .error .noQueue
    | some entry => (entry.pop comp).map (entries.set i)
  | .copy i junk =>
    match entries[i]? with
    | none => .error .noQueue
    | some entry => .ok (entries ++ [{ entry with queue := entry.queue.copy junk }])

def start (junk : α) : List (Entry α) := [⟨new junk, 0, 0⟩]

def Legal (entries : List (Entry α)) : Op α → Prop
  | .push i _ => i < entries.length
  | .pop i => i < entries.length
  | .copy i _ => i < entries.length

instance (entries : List (Entry α)) (op : Op α) : Decidable (Legal entries op) := by
  cases op <;> unfold Legal <;> infer_instance

/-- What a priority queue promises between two operations. -/
structure Correct (comp : α → α → Bool) (entry : Entry α) : Prop where
  stored : entry.queue.contents + entry.popped = entry.pushed
  sized : entry.queue.size = entry.queue.contents.card
  largest : entry.queue.size ≠ 0 → ∃ first, entry.queue.top = .ok first ∧
    first ∈ entry.queue.contents ∧ ∀ element ∈ entry.queue.contents, comp first element = false
  emptyPop : entry.queue.size = 0 → entry.queue.pop comp = .ok entry.queue
  sorted : ∃ tops, drain comp entry.queue.size entry.queue = .ok tops ∧
    (tops : Multiset α) = entry.queue.contents ∧
    tops.Pairwise fun first later => comp first later = false
  copied : ∀ junk, drain comp (copy junk entry.queue).size (copy junk entry.queue) =
    drain comp entry.queue.size entry.queue

section Runs

variable {comp : α → α → Bool}

structure Entry.Ok (comp : α → α → Bool) (entry : Entry α) : Prop where
  valid : Valid comp entry.queue
  stored : entry.queue.contents + entry.popped = entry.pushed

theorem pop_placeholder (q : PriorityQueue α) (junk : α) :
    ({ q with placeholder0 := junk } : PriorityQueue α).pop comp =
      (q.pop comp).map fun after => { after with placeholder0 := junk } := by
  unfold PriorityQueue.pop
  by_cases none : q.nelement = 0
  · rw [if_pos none, if_pos none]
    rfl
  · rw [if_neg none, if_neg none]
    cases swap q.container 1 q.nelement with
    | error fault => rfl
    | ok container =>
      simp only [bind, Except.bind]
      cases siftDown comp (q.nelement - 1 + 1) container.dropLast 1 2 (q.nelement - 1) <;> rfl

theorem drain_placeholder (fuel : Nat) (q : PriorityQueue α) (junk : α) :
    drain comp fuel { q with placeholder0 := junk } = drain comp fuel q := by
  induction fuel generalizing q with
  | zero => rfl
  | succ fuel ih =>
    simp only [drain, pop_placeholder]
    cases popped : q.pop comp with
    | error fault => rfl
    | ok after =>
      simp only [Except.map, bind, Except.bind, ih after]
      rfl

theorem Entry.Ok.copy {entry : Entry α} (ok : entry.Ok comp) (junk : α) :
    Entry.Ok comp { entry with queue := entry.queue.copy junk } :=
  ⟨ok.valid.copy junk, by simp only [copy_contents, ok.stored]⟩

theorem all_set {Holds : Entry α → Prop} {entries : List (Entry α)} {i : Nat} {after : Entry α}
    (all : ∀ entry ∈ entries, Holds entry) (new : Holds after) :
    ∀ entry ∈ entries.set i after, Holds entry := by
  intro entry member
  cases List.mem_or_eq_of_mem_set member with
  | inl old => exact all entry old
  | inr isNew => exact isNew ▸ new

variable [IsStrictWeakOrder α fun a b => comp a b = true] {entry : Entry α}

theorem Entry.Ok.correct (ok : entry.Ok comp) : Correct comp entry where
  stored := ok.stored
  sized := ok.valid.card_contents.symm
  largest := fun some => ok.valid.top some
  emptyPop := fun none => pop_empty none
  sorted := ok.valid.drain entry.queue.size le_rfl
  copied := fun junk => by
    rw [copy_eq]
    exact drain_placeholder entry.queue.size entry.queue junk

theorem Entry.Ok.push (ok : entry.Ok comp) (element : α) :
    ∃ after, entry.push comp element = .ok after ∧ after.Ok comp := by
  obtain ⟨queue, pushed, valid, contents⟩ := ok.valid.push element
  refine ⟨_, by rw [Entry.push, pushed]; rfl, valid, ?_⟩
  simp only [contents, Multiset.cons_add, ok.stored]

theorem Entry.Ok.pop (ok : entry.Ok comp) :
    ∃ after, entry.pop comp = .ok after ∧ after.Ok comp := by
  rw [Entry.pop]
  by_cases none : entry.queue.nelement = 0
  · refine ⟨entry, ?_, ok⟩
    rw [if_pos (by simp [PriorityQueue.empty, none]), pop_empty none]
    rfl
  · obtain ⟨first, queue, isTop, popped, valid, contents⟩ := ok.valid.pop none
    refine ⟨⟨queue, entry.pushed, first ::ₘ entry.popped⟩, ?_, valid, ?_⟩
    · rw [if_neg (by simp [PriorityQueue.empty, none]), isTop]
      simp only [bind, Except.bind, popped]
    · have stored := ok.stored
      rw [contents, Multiset.cons_add] at stored
      simp only [Multiset.add_cons, stored]

theorem step_ok {entries : List (Entry α)} (all : ∀ entry ∈ entries, entry.Ok comp) {op : Op α}
    (legal : Legal entries op) :
    ∃ after, step comp entries op = .ok after ∧ ∀ entry ∈ after, entry.Ok comp := by
  cases op with
  | push i element =>
    have isEntry := List.getElem?_eq_getElem (l := entries) legal
    obtain ⟨after, pushed, ok⟩ := (all _ (List.getElem_mem legal)).push element
    exact ⟨entries.set i after, by simp only [step, isEntry, pushed]; rfl, all_set all ok⟩
  | pop i =>
    have isEntry := List.getElem?_eq_getElem (l := entries) legal
    obtain ⟨after, popped, ok⟩ := (all _ (List.getElem_mem legal)).pop
    exact ⟨entries.set i after, by simp only [step, isEntry, popped]; rfl, all_set all ok⟩
  | copy i junk =>
    have inside : i < entries.length := legal
    have isEntry := List.getElem?_eq_getElem inside
    refine ⟨entries ++ [⟨entries[i].queue.copy junk, entries[i].pushed, entries[i].popped⟩],
      by simp only [step, isEntry], fun entry member => ?_⟩
    cases List.mem_append.mp member with
    | inl old => exact all entry old
    | inr new =>
      rw [List.mem_singleton.mp new]
      exact (all _ (List.getElem_mem legal)).copy junk

end Runs

/-- Every sequence of `push`, `pop` and copy construction from an empty queue
stays inside the containers and leaves every queue a correct priority queue. -/
theorem queues_correct {comp : α → α → Bool} [IsStrictWeakOrder α fun a b => comp a b = true]
    (junk : α) (ops : List (Op α)) (legal : Along (step comp) Legal (start junk) ops) :
    ∃ entries, ops.foldlM (step comp) (start junk) = .ok entries ∧
      ∀ entry ∈ entries, Correct comp entry := by
  have initial : ∀ entry ∈ start junk, Entry.Ok comp entry := by
    intro entry member
    rw [List.mem_singleton.mp member]
    exact ⟨new_valid junk, rfl⟩
  obtain ⟨entries, run, all⟩ := Execution.foldlM_progress Legal
    (fun entries => ∀ entry ∈ entries, Entry.Ok comp entry)
    (fun _ _ isLegal all => step_ok all isLegal) ops legal initial
  exact ⟨entries, run, fun entry member => (all entry member).correct⟩

theorem less_weak_order : IsStrictWeakOrder Nat fun a b => decide (a < b) = true where
  irrefl := fun a => by simp
  trans := fun a b c first second => by
    simp only [decide_eq_true_eq] at *
    omega
  incomp_trans := fun a b c first second => by
    simp only [decide_eq_true_eq] at *
    omega

theorem queues_correct_two_queues :
    ∃ entries : List (Entry Nat),
      [Op.push 0 3, .push 0 5, .copy 0 7, .pop 1].foldlM (step fun a b => decide (a < b))
        (start 9) =
        .ok entries ∧
      ∀ entry ∈ entries, Correct (fun a b => decide (a < b)) entry := by
  have := less_weak_order
  exact queues_correct 9 _ (by decide)

end Rexv6.Klib.PriorityQueue
