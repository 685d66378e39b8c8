import Mathlib.Data.Finset.Card

/-!
Contract: how many have a property, of which only finitely many have it.

Owns: the number, and its change when one of them moves to another point.

Does not own: who they are, and what the points are.
-/

namespace Rexv6.Foundation

open Function (update update_of_ne update_self)

universe u v

def Headcount {ι : Type u} (holds : ι → Prop) (n : Int) : Prop :=
  ∃ those : Finset ι, (∀ i, i ∈ those ↔ holds i) ∧ n = those.card

namespace Headcount

section Property

variable {ι : Type u} {holds holds' : ι → Prop} {n : Int} {i : ι}

theorem nobody (lacks : ∀ i, ¬ holds i) : Headcount holds 0 :=
  ⟨∅, fun i => iff_of_false (Finset.notMem_empty i) (lacks i), rfl⟩

theorem nonneg (headcount : Headcount holds n) : 0 ≤ n := by
  obtain ⟨those, _, isCard⟩ := headcount
  rw [isCard]
  exact Int.natCast_nonneg _

theorem positive (headcount : Headcount holds n) (isOne : holds i) : 1 ≤ n := by
  obtain ⟨those, isMember, isCard⟩ := headcount
  have some : 0 < those.card := Finset.card_pos.mpr ⟨i, (isMember i).mpr isOne⟩
  rw [isCard]
  exact_mod_cast some

theorem eq_zero (headcount : Headcount holds n) (lacks : ∀ i, ¬ holds i) : n = 0 := by
  obtain ⟨those, isMember, isCard⟩ := headcount
  have empty : those = ∅ := by
    apply Finset.eq_empty_of_forall_notMem
    intro i member
    exact lacks i ((isMember i).mp member)
  rw [isCard, empty]
  rfl

theorem congr (headcount : Headcount holds n) (same : ∀ i, holds' i ↔ holds i) :
    Headcount holds' n := by
  obtain ⟨those, isMember, isCard⟩ := headcount
  exact ⟨those, fun i => (isMember i).trans (same i).symm, isCard⟩

end Property

section Points

variable {ι : Type u} {Point : Type v} [DecidableEq ι] {point : ι → Point}
  {n : Int} {here : ι} {next : Point}

theorem move (holds : Point → Prop) (headcount : Headcount (fun i => holds (point i)) n)
    (same : holds next ↔ holds (point here)) :
    Headcount (fun i => holds (update point here next i)) n := by
  apply headcount.congr
  intro i
  by_cases isHere : i = here
  · rw [isHere, update_self]
    exact same
  · rw [update_of_ne isHere]

theorem join (holds : Point → Prop) (headcount : Headcount (fun i => holds (point i)) n)
    (lacked : ¬ holds (point here)) (joins : holds next) :
    Headcount (fun i => holds (update point here next i)) (n + 1) := by
  obtain ⟨those, isMember, isCard⟩ := headcount
  have new : here ∉ those := by
    rw [isMember]
    exact lacked
  refine ⟨insert here those, ?_, ?_⟩
  · intro i
    rw [Finset.mem_insert]
    beta_reduce
    by_cases isHere : i = here
    · rw [isHere, update_self]
      exact iff_of_true (Or.inl rfl) joins
    · rw [update_of_ne isHere]
      exact (or_iff_right isHere).trans (isMember i)
  · rw [Finset.card_insert_of_notMem new, isCard]
    rfl

theorem leave (holds : Point → Prop) (headcount : Headcount (fun i => holds (point i)) n)
    (had : holds (point here)) (leaves : ¬ holds next) :
    Headcount (fun i => holds (update point here next i)) (n - 1) := by
  obtain ⟨those, isMember, isCard⟩ := headcount
  have old : here ∈ those := (isMember here).mpr had
  refine ⟨those.erase here, ?_, ?_⟩
  · intro i
    rw [Finset.mem_erase]
    beta_reduce
    by_cases isHere : i = here
    · rw [isHere, update_self]
      exact iff_of_false (fun both => both.1 rfl) leaves
    · rw [update_of_ne isHere]
      exact (and_iff_right isHere).trans (isMember i)
  · have some : 0 < those.card := Finset.card_pos.mpr ⟨here, old⟩
    rw [Finset.card_erase_of_mem old, isCard]
    omega

end Points

end Headcount

end Rexv6.Foundation
