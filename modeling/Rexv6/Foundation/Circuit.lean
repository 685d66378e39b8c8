import Mathlib.Data.List.Nodup
import Mathlib.Data.List.Rotate
import Mathlib.Logic.Function.Basic
import Mathlib.Order.Lattice

/-!
Contract: cells linked by one next field each, in a line or in a circle.

Owns: the cells that links lead through, where a circle is entered at any of its
cells, the loop that follows the links until a test succeeds, and what a changed link
does to the cells it leads through.

Does not own: what a cell holds besides its link.
-/

namespace Rexv6.Foundation

universe u

variable {Index : Type u} {next next' : Index → Index} {start finish cell : Index}
  {cells front back : List Index}

/-- The links lead from `start` through the cells to `finish`. They close a circle if
`finish` is `start`. -/
def Leads (next : Index → Index) : Index → List Index → Index → Prop
  | start, [], finish => next start = finish
  | start, cell :: cells, finish => next start = cell ∧ Leads next cell cells finish

theorem leads_append : Leads next start (front ++ cell :: back) finish ↔
    Leads next start front cell ∧ Leads next cell back finish := by
  induction front generalizing start with
  | nil => exact Iff.rfl
  | cons first front ih =>
    exact (and_congr_right fun _ => ih).trans and_assoc.symm

namespace Leads

theorem congr (leads : Leads next start cells finish)
    (same : ∀ x ∈ start :: cells, next' x = next x) : Leads next' start cells finish := by
  induction cells generalizing start with
  | nil => exact (same start List.mem_cons_self).trans leads
  | cons first cells ih =>
    refine ⟨(same start List.mem_cons_self).trans leads.1, ih leads.2 ?_⟩
    intro x isMember
    exact same x (List.mem_cons_of_mem _ isMember)

theorem map_eq (leads : Leads next start cells finish) :
    (start :: cells).map next = cells ++ [finish] := by
  induction cells generalizing start with
  | nil => exact congrArg (fun x => [x]) leads
  | cons first cells ih =>
    rw [List.map_cons, leads.1, ih leads.2]
    rfl

theorem last (leads : Leads next start cells finish) : next (cells.getLastD start) = finish := by
  induction cells generalizing start with
  | nil => exact leads
  | cons first cells ih =>
    have later := ih leads.2
    rw [List.getLastD_cons]
    exact later

theorem before (leads : Leads next start (front ++ back) finish) :
    ∃ target, Leads next start front target := by
  cases back with
  | nil => exact ⟨finish, List.append_nil front ▸ leads⟩
  | cons first back => exact ⟨first, (leads_append.mp leads).1⟩

theorem behind (leads : Leads next start (front ++ back) finish) :
    Leads next (front.getLastD start) back finish := by
  induction front generalizing start with
  | nil => exact leads
  | cons first front ih =>
    have later := ih leads.2
    rw [List.getLastD_cons]
    exact later

theorem injective (leads : Leads next start cells finish) (nodup : (cells ++ [finish]).Nodup)
    {x y : Index} (isFirst : x ∈ start :: cells) (isSecond : y ∈ start :: cells)
    (same : next x = next y) : x = y := by
  rw [← leads.map_eq] at nodup
  exact List.inj_on_of_nodup_map nodup isFirst isSecond same

theorem enter (circle : Leads next start cells start) (isMember : cell ∈ start :: cells) :
    ∃ others, Leads next cell others cell ∧ (cell :: others) ~r (start :: cells) := by
  rcases List.mem_cons.mp isMember with isStart | isLater
  · rw [isStart]
    exact ⟨cells, circle, List.IsRotated.refl _⟩
  · obtain ⟨front, back, isSplit⟩ := List.append_of_mem isLater
    rw [isSplit] at circle ⊢
    obtain ⟨before, after⟩ := leads_append.mp circle
    refine ⟨back ++ start :: front, leads_append.mpr ⟨after, before⟩, ?_⟩
    show ((cell :: back) ++ (start :: front)) ~r ((start :: front) ++ (cell :: back))
    exact List.isRotated_append

variable [DecidableEq Index]

theorem redirect (leads : Leads next start cells finish) (nodup : (start :: cells).Nodup)
    (target : Index) :
    Leads (Function.update next (cells.getLastD start) target) start cells target := by
  induction cells generalizing start with
  | nil => exact Function.update_self start target next
  | cons first cells ih =>
    obtain ⟨isNew, later⟩ := List.nodup_cons.mp nodup
    rw [List.getLastD_cons]
    refine ⟨?_, ih leads.2 later⟩
    have notLast : start ≠ cells.getLastD first := by
      intro same
      refine isNew (same ▸ ?_)
      cases cells with
      | nil => exact List.mem_singleton_self first
      | cons second rest =>
        rw [List.getLastD_cons]
        exact List.mem_cons_of_mem _ List.getLastD_mem_cons
    rw [Function.update_of_ne notLast]
    exact leads.1

end Leads

/-- The cells behind `cell` follow on where its link is copied to. -/
theorem Leads.attach (before : Leads next start front (next' cell))
    (after : Leads next' cell back finish) (same : ∀ x ∈ back, next x = next' x) :
    Leads next start (front ++ back) finish := by
  cases back with
  | nil =>
    have isFinish : next' cell = finish := after
    rw [List.append_nil, ← isFinish]
    exact before
  | cons first back =>
    rw [after.1] at before
    exact leads_append.mpr ⟨before, after.2.congr same⟩

/-- In increasing order, the link of a cell is the next greater cell, or the cell is the
greatest one and its link the last one. -/
theorem Leads.successor [LinearOrder Index] (leads : Leads next start cells finish)
    (sorted : (start :: cells).Pairwise (· < ·)) (isMember : cell ∈ start :: cells) :
    (next cell = finish ∧ ∀ x ∈ start :: cells, x ≤ cell) ∨
      (cell < next cell ∧ next cell ∈ cells ∧ ∀ x ∈ start :: cells, x ≤ cell ∨ next cell ≤ x) := by
  induction cells generalizing start with
  | nil =>
    rw [List.mem_singleton] at isMember
    rw [isMember]
    refine Or.inl ⟨leads, ?_⟩
    intro x isStart
    exact le_of_eq (List.mem_singleton.mp isStart)
  | cons first cells ih =>
    obtain ⟨isLeast, later⟩ := List.pairwise_cons.mp sorted
    rcases List.mem_cons.mp isMember with isStart | isLater
    · rw [isStart, leads.1]
      refine Or.inr ⟨isLeast first List.mem_cons_self, List.mem_cons_self, ?_⟩
      intro x isCell
      rcases List.mem_cons.mp isCell with isFirst | isRest
      · exact Or.inl (le_of_eq isFirst)
      · rcases List.mem_cons.mp isRest with same | isBehind
        · exact Or.inr (le_of_eq same.symm)
        · exact Or.inr (le_of_lt ((List.pairwise_cons.mp later).1 x isBehind))
    · have below : start < cell := isLeast cell isLater
      rcases ih leads.2 later isLater with ⟨isLast, greatest⟩ | ⟨less, isCell, gap⟩
      · refine Or.inl ⟨isLast, ?_⟩
        intro x isAny
        rcases List.mem_cons.mp isAny with same | isRest
        · exact same ▸ le_of_lt below
        · exact greatest x isRest
      · refine Or.inr ⟨less, List.mem_cons_of_mem _ isCell, ?_⟩
        intro x isAny
        rcases List.mem_cons.mp isAny with same | isRest
        · exact Or.inl (same ▸ le_of_lt below)
        · exact gap x isRest

theorem le_getLastD [LinearOrder Index] (sorted : (start :: cells).Pairwise (· < ·))
    (isMember : cell ∈ start :: cells) : cell ≤ cells.getLastD start := by
  induction cells generalizing start cell with
  | nil => exact le_of_eq (List.mem_singleton.mp isMember)
  | cons first cells ih =>
    obtain ⟨isLeast, later⟩ := List.pairwise_cons.mp sorted
    rw [List.getLastD_cons]
    rcases List.mem_cons.mp isMember with isStart | isLater
    · rw [isStart]
      exact le_trans (le_of_lt (isLeast first List.mem_cons_self))
        (ih later List.mem_cons_self)
    · exact ih later isLater

/-! ## Following the links -/

/-- Follow the links until a test succeeds. -/
def seek (next : Index → Index) (stop : Index → Bool) : Nat → Index → Option Index
  | 0, _ => none
  | fuel + 1, index => if stop index = true then some index else seek next stop fuel (next index)

variable {stop : Index → Bool} {fuel : Nat}

theorem seek_leads (leads : Leads next start cells finish)
    (passes : ∀ x ∈ start :: cells, stop x = false) (stops : stop finish = true)
    (enough : cells.length + 1 < fuel) : seek next stop fuel start = some finish := by
  induction cells generalizing start fuel with
  | nil =>
    obtain ⟨fuel, rfl⟩ := Nat.exists_eq_add_of_lt enough
    have isFinish : next start = finish := leads
    have isFuel : ([] : List Index).length + 1 + fuel + 1 = fuel + 1 + 1 := by
      rw [List.length_nil]
      omega
    rw [isFuel, seek, if_neg (Bool.eq_false_iff.mp (passes start List.mem_cons_self)),
      isFinish, seek,
      if_pos stops]
  | cons first cells ih =>
    cases fuel with
    | zero => exact absurd enough (Nat.not_lt_zero _)
    | succ fuel =>
      rw [seek, if_neg (Bool.eq_false_iff.mp (passes start List.mem_cons_self)), leads.1]
      refine ih leads.2 ?_ (Nat.lt_of_succ_lt_succ enough)
      intro x isMember
      exact passes x (List.mem_cons_of_mem _ isMember)

/-- In a circle with one cell at which the test succeeds, that cell is found from any other. -/
theorem seek_circle {target : Index} (circle : Leads next start cells start)
    (nodup : (start :: cells).Nodup) (isMember : target ∈ start :: cells)
    (only : ∀ x ∈ start :: cells, stop x = true ↔ x = target) (enough : cells.length < fuel) :
    seek next stop fuel start = some target := by
  rcases List.mem_cons.mp isMember with isStart | isLater
  · obtain ⟨fuel, rfl⟩ := Nat.exists_eq_add_of_lt enough
    rw [seek, if_pos ((only start List.mem_cons_self).mpr isStart.symm), isStart]
  · obtain ⟨front, back, isSplit⟩ := List.append_of_mem isLater
    rw [isSplit] at circle nodup only enough
    have isNew : target ∉ start :: front := by
      have split : ((start :: front) ++ target :: back).Nodup := nodup
      have apart := List.nodup_middle.mp split
      intro isBefore
      exact (List.nodup_cons.mp apart).1 (List.mem_append_left _ isBefore)
    refine seek_leads (leads_append.mp circle).1 ?_ ?_ ?_
    · intro x isBefore
      rw [Bool.eq_false_iff]
      intro stops
      have isNode : x ∈ start :: (front ++ target :: back) := by
        rcases List.mem_cons.mp isBefore with isStart | isFront
        · exact isStart ▸ List.mem_cons_self
        · exact List.mem_cons_of_mem _ (List.mem_append_left _ isFront)
      exact isNew ((only x isNode).mp stops ▸ isBefore)
    · refine (only target (List.mem_cons_of_mem _ ?_)).mpr rfl
      exact List.mem_append_right _ List.mem_cons_self
    · rw [List.length_append, List.length_cons] at enough
      omega

end Rexv6.Foundation
