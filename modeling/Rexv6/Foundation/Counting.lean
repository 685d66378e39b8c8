import Mathlib.Algebra.Ring.Nat
import Mathlib.Data.List.Count
import Mathlib.Data.List.Nodup

/-!
Contract: counting the elements of a list that have a property.

Owns: how the count changes when the property changes at one element, the
elements with a property that is counted once, and the count of the numbers below
a bound that equal a given one.

Does not own: anything `List.countP` already has in the library.
-/

namespace Rexv6.Foundation.Counting

universe u

variable {α : Type u}

/-- A property gained at exactly one element of a list without repetitions. -/
theorem countP_gain {first second : α → Bool} {element : α} :
    ∀ {list : List α}, list.Nodup → element ∈ list →
      (∀ other ∈ list, other ≠ element → second other = first other) →
      first element = false → second element = true →
      list.countP second = list.countP first + 1
  | [], _, member, _, _, _ => by simp at member
  | head :: rest, nodup, member, same, lacks, gains => by
      obtain ⟨absent, restNodup⟩ := List.nodup_cons.mp nodup
      by_cases isHead : head = element
      · subst isHead
        have restSame : rest.countP second = rest.countP first :=
          List.countP_congr fun other inRest => by
            rw [same other (by simp [inRest]) fun isElement => absent (isElement ▸ inRest)]
        rw [List.countP_cons, List.countP_cons, restSame, lacks, gains]
        simp
      · have inRest : element ∈ rest := (List.mem_cons.mp member).resolve_left (Ne.symm isHead)
        have step := countP_gain restNodup inRest
          (fun other isMember => same other (by simp [isMember])) lacks gains
        rw [List.countP_cons, List.countP_cons, step, same head (by simp) isHead]
        omega

/-- A property that changes at one element at most. -/
theorem countP_change {first second : α → Bool} {element : α} {list : List α}
    (nodup : list.Nodup) (member : element ∈ list)
    (same : ∀ other ∈ list, other ≠ element → second other = first other) :
    list.countP second + (first element).toNat = list.countP first + (second element).toNat := by
  have all (unchanged : second element = first element) :
      list.countP second = list.countP first := by
    refine List.countP_congr fun other inList => ?_
    by_cases isElement : other = element
    · rw [isElement, unchanged]
    · rw [same other inList isElement]
  cases before : first element <;> cases after : second element
  · rw [all (after.trans before.symm)]
  · have gain := countP_gain nodup member same before after
    simp [gain]
  · have gain := countP_gain nodup member
      (fun other inList different => (same other inList different).symm) after before
    simp [gain]
  · rw [all (after.trans before.symm)]

theorem countP_eq_sum (property : α → Bool) : ∀ list : List α,
    list.countP property = (list.map fun element => if property element = true then 1 else 0).sum
  | [] => rfl
  | head :: rest => by
      rw [List.countP_cons, countP_eq_sum property rest, List.map_cons, List.sum_cons]
      exact Nat.add_comm _ _

theorem eq_of_countP_le_one {property : α → Bool} {list : List α} (few : list.countP property ≤ 1)
    {first second : α} (firstMember : first ∈ list) (secondMember : second ∈ list)
    (firstHas : property first = true) (secondHas : property second = true) : first = second := by
  induction list with
  | nil => simp at firstMember
  | cons head rest ih =>
    rw [List.countP_cons] at few
    have inRest : ∀ element ∈ rest, property element = true → 0 < rest.countP property :=
      fun element member has => List.countP_pos_iff.mpr ⟨element, member, has⟩
    cases List.mem_cons.mp firstMember with
    | inl firstHead =>
      cases List.mem_cons.mp secondMember with
      | inl secondHead => rw [firstHead, secondHead]
      | inr secondRest =>
        have some := inRest second secondRest secondHas
        rw [if_pos (firstHead ▸ firstHas)] at few
        omega
    | inr firstRest =>
      have some := inRest first firstRest firstHas
      cases List.mem_cons.mp secondMember with
      | inl secondHead =>
        rw [if_pos (secondHead ▸ secondHas)] at few
        omega
      | inr secondRest => exact ih (by omega) firstRest secondRest

theorem countP_range_eq (bound value : Nat) (property : Nat → Bool) :
    (List.range bound).countP (fun index => property index && decide (index = value)) =
      if value < bound ∧ property value = true then 1 else 0 := by
  have asCount : (List.range bound).countP
      (fun index => property index && decide (index = value)) =
      if property value = true then (List.range bound).count value else 0 := by
    split
    · rename_i holds
      refine List.countP_congr fun index _ => ?_
      by_cases same : index = value
      · simp [same, holds]
      · simp [same]
    · rename_i fails
      rw [List.countP_eq_zero]
      intro index _
      by_cases same : index = value
      · simpa [same] using fails
      · simp [same]
  rw [asCount, List.Nodup.count List.nodup_range]
  by_cases holds : property value = true <;> by_cases below : value < bound <;>
    simp [holds, below]

end Rexv6.Foundation.Counting
