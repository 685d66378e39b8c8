import Mathlib.Data.List.Nodup

/-!
Contract: doubly linked lists threaded through an array by index.

Owns: the chain predicate over a next and a previous link function, and what
pushing a cell in front and unlinking a cell do to it.

Does not own: how a machine stores the two links of a cell; the lemmas take the
new links by what they are on each cell, so that packed or truncating storage
can be used.
-/

namespace Rexv6.Foundation.IndexList

universe u

variable {Index : Type u} {nil : Index} {next prev : Index → Index}

/-- From `here` the next links run through `list` to `nil`, no cell of it is
`nil`, and the previous links run back to `before`. -/
def Chain (nil : Index) (next prev : Index → Index) : Index → Index → List Index → Prop
  | _, here, [] => here = nil
  | before, here, cell :: rest =>
    here = cell ∧ cell ≠ nil ∧ prev cell = before ∧ Chain nil next prev cell (next cell) rest

theorem Chain.congr {next' prev' : Index → Index} :
    ∀ {before here : Index} {list : List Index}, Chain nil next prev before here list →
      (∀ cell ∈ list, next' cell = next cell ∧ prev' cell = prev cell) →
      Chain nil next' prev' before here list
  | _, _, [], chain, _ => chain
  | before, here, cell :: rest, ⟨isHere, real, back, chain⟩, same => by
      obtain ⟨sameNext, samePrev⟩ := same cell (by simp)
      refine ⟨isHere, real, samePrev.trans back, ?_⟩
      rw [sameNext]
      exact chain.congr fun other member => same other (by simp [member])

theorem Chain.ne_nil : ∀ {before here : Index} {list : List Index},
    Chain nil next prev before here list → ∀ cell ∈ list, cell ≠ nil
  | _, _, [], _, _, member => by simp at member
  | _, _, first :: rest, ⟨_, real, _, chain⟩, cell, member => by
      rcases List.mem_cons.mp member with rfl | inRest
      · exact real
      · exact chain.ne_nil cell inRest

theorem Chain.eq_nil_iff {before here : Index} {list : List Index}
    (chain : Chain nil next prev before here list) : here = nil ↔ list = [] := by
  cases list with
  | nil => exact iff_of_true chain rfl
  | cons cell rest =>
    obtain ⟨rfl, real, -⟩ := chain
    simpa using real

theorem Chain.here_mem {before here : Index} {list : List Index}
    (chain : Chain nil next prev before here list) (real : here ≠ nil) : here ∈ list := by
  cases list with
  | nil => exact absurd chain real
  | cons cell rest =>
    obtain ⟨rfl, -⟩ := chain
    simp

/-- A next link leads to a later cell or to the end. -/
theorem Chain.next_mem : ∀ {before here : Index} {list : List Index},
    Chain nil next prev before here list → ∀ cell ∈ list, next cell = nil ∨ next cell ∈ list
  | _, _, [], _, _, member => by simp at member
  | _, _, first :: rest, ⟨_, _, _, chain⟩, cell, member => by
      rcases List.mem_cons.mp member with rfl | inRest
      · by_cases last : next cell = nil
        · exact Or.inl last
        · exact Or.inr (List.mem_cons_of_mem _ (chain.here_mem last))
      · rcases chain.next_mem cell inRest with last | later
        · exact Or.inl last
        · exact Or.inr (List.mem_cons_of_mem _ later)

theorem Chain.prev_mem : ∀ {before here : Index} {list : List Index},
    Chain nil next prev before here list → list.Nodup → ∀ cell ∈ list,
      (cell = here ∧ prev cell = before) ∨ (cell ≠ here ∧ prev cell ∈ list)
  | _, _, [], _, _, _, member => by simp at member
  | before, here, first :: rest, ⟨isHere, _, back, chain⟩, nodup, cell, member => by
      obtain ⟨absent, restNodup⟩ := List.nodup_cons.mp nodup
      subst isHere
      rcases List.mem_cons.mp member with rfl | inRest
      · exact Or.inl ⟨rfl, back⟩
      · refine Or.inr ⟨fun same => absent (same ▸ inRest), ?_⟩
        rcases chain.prev_mem restNodup cell inRest with ⟨-, isFirst⟩ | ⟨-, earlier⟩
        · simp [isFirst]
        · exact List.mem_cons_of_mem _ earlier

theorem Chain.neighbours : ∀ {before here : Index} {list : List Index},
    Chain nil next prev before here list → list.Nodup → before ∉ list → ∀ cell ∈ list,
      prev cell ≠ cell ∧ next cell ≠ cell ∧ (next cell ≠ nil → prev cell ≠ next cell)
  | _, _, [], _, _, _, _, member => by simp at member
  | before, here, first :: rest, ⟨isHere, real, back, chain⟩, nodup, outside, cell, member => by
      obtain ⟨absent, restNodup⟩ := List.nodup_cons.mp nodup
      rcases List.mem_cons.mp member with rfl | inRest
      · refine ⟨fun same => outside (by simp [← back, same]), fun same => ?_, fun more same => ?_⟩
        · have later := chain.here_mem (by rw [same]; exact real)
          rw [same] at later
          exact absent later
        · rw [back] at same
          exact outside (by simp [same, chain.here_mem more])
      · exact chain.neighbours restNodup absent cell inRest

theorem Chain.push {head cell : Index} {list : List Index} {next' prev' : Index → Index}
    [DecidableEq Index] (chain : Chain nil next prev nil head list) (nodup : list.Nodup)
    (fresh : cell ≠ nil) (nextCell : next' cell = head) (prevCell : prev' cell = nil)
    (sameNext : ∀ other ∈ list, next' other = next other)
    (samePrev : ∀ other ∈ list, prev' other = if other = head then cell else prev other) :
    Chain nil next' prev' nil cell (cell :: list) := by
  refine ⟨rfl, fresh, prevCell, ?_⟩
  rw [nextCell]
  cases list with
  | nil => exact chain
  | cons first rest =>
    obtain ⟨rfl, real, -, rest_⟩ := chain
    refine ⟨rfl, real, by simp [samePrev], ?_⟩
    rw [sameNext _ (by simp)]
    refine rest_.congr fun other member => ⟨sameNext other (by simp [member]), ?_⟩
    have notHead : other ≠ head := fun same => (List.nodup_cons.mp nodup).1 (same ▸ member)
    rw [samePrev other (by simp [member]), if_neg notHead]

section Erase

variable [DecidableEq Index] {next' prev' : Index → Index} {target : Index}

/-- Unlinking a cell: its neighbours are linked to each other, and if it was
the first one the chain starts at its successor. -/
theorem Chain.eraseFrom : ∀ {before here : Index} {list : List Index},
    Chain nil next prev before here list → list.Nodup → before ∉ list → target ∈ list →
      (∀ cell ∈ list, cell ≠ target →
        next' cell = if cell = prev target then next target else next cell) →
      (∀ cell ∈ list, cell ≠ target →
        prev' cell = if cell = next target then prev target else prev cell) →
      Chain nil next' prev' before (if here = target then next target else here)
        (list.erase target)
  | _, _, [], _, _, _, member, _, _ => by simp at member
  | before, here, first :: rest, ⟨isHere, real, back, chain⟩, nodup, outside, member, nexts,
      prevs => by
      obtain ⟨absent, restNodup⟩ := List.nodup_cons.mp nodup
      subst isHere
      by_cases isFirst : here = target
      · subst isFirst
        rw [if_pos rfl, List.erase_cons_head]
        cases rest with
        | nil => exact chain
        | cons second tail =>
          obtain ⟨isNext, realNext, backNext, chainTail⟩ := chain
          have secondNe : second ≠ here := fun same => absent (by simp [same])
          refine ⟨isNext, realNext, ?_, ?_⟩
          · rw [prevs second (by simp) secondNe, if_pos isNext.symm, back]
          · rw [nexts second (by simp) secondNe, back,
              if_neg fun same => outside (by simp [← same])]
            refine chainTail.congr fun cell inTail => ?_
            have cellNe : cell ≠ here := fun same => absent (by simp [← same, inTail])
            rw [nexts cell (by simp [inTail]) cellNe, prevs cell (by simp [inTail]) cellNe, back,
              if_neg fun same => outside (by simp [← same, inTail]), if_neg]
            · exact ⟨rfl, rfl⟩
            · intro same
              exact (List.nodup_cons.mp restNodup).1 (by rw [← isNext, ← same]; exact inTail)
      · have inRest : target ∈ rest := (List.mem_cons.mp member).resolve_left (Ne.symm isFirst)
        rw [if_neg isFirst, List.erase_cons_tail (by simpa using isFirst)]
        have notNext : here ≠ next target := fun same => by
          rcases chain.next_mem target inRest with last | later
          · exact real (same.trans last)
          · exact absent (same ▸ later)
        refine ⟨rfl, real, ?_, ?_⟩
        · rw [prevs here (by simp) isFirst, if_neg notNext, back]
        · have step := chain.eraseFrom restNodup absent inRest
            (fun cell inTail => nexts cell (by simp [inTail]))
            (fun cell inTail => prevs cell (by simp [inTail]))
          rw [nexts here (by simp) isFirst]
          rcases chain.prev_mem restNodup target inRest with ⟨second, isBack⟩ | ⟨later, isBack⟩
          · rw [if_pos isBack.symm]
            rw [if_pos second.symm] at step
            exact step
          · rw [if_neg fun same => absent (by rw [same]; exact isBack)]
            rw [if_neg (Ne.symm later)] at step
            exact step

theorem Chain.erase {head : Index} {list : List Index} (chain : Chain nil next prev nil head list)
    (nodup : list.Nodup) (member : target ∈ list)
    (nexts : ∀ cell ∈ list, cell ≠ target →
      next' cell = if cell = prev target then next target else next cell)
    (prevs : ∀ cell ∈ list, cell ≠ target →
      prev' cell = if cell = next target then prev target else prev cell) :
    Chain nil next' prev' nil (if prev target = nil then next target else head)
      (list.erase target) := by
  have outside : nil ∉ list := fun isMember => chain.ne_nil nil isMember rfl
  have unlinked := chain.eraseFrom nodup outside member nexts prevs
  rcases chain.prev_mem nodup target member with ⟨isHead, isBack⟩ | ⟨notHead, isBack⟩
  · rw [if_pos isBack]
    rw [if_pos isHead.symm] at unlinked
    exact unlinked
  · rw [if_neg (chain.ne_nil _ isBack)]
    rw [if_neg (Ne.symm notHead)] at unlinked
    exact unlinked

end Erase

end Rexv6.Foundation.IndexList
