import Mathlib.Logic.Function.Basic

/-!
Contract: a lock and the program points between taking and releasing it.

Owns: the agreement of the recorded holder with who stands inside the critical
section, and how taking, releasing and moving inside or outside keep it.

Does not own: waiting, fairness, and what the lock protects.
-/

namespace Rexv6.Foundation

universe u v

/-- The holder of a lock is exactly the one inside its critical section. -/
def Held {ι : Type u} (holder : Option ι) (inside : ι → Prop) : Prop :=
  ∀ i, holder = some i ↔ inside i

namespace Held

variable {ι : Type u} {holder : Option ι} {inside inside' : ι → Prop} {here : ι}

theorem alone (held : Held holder inside) {i j : ι} (first : inside i) (second : inside j) :
    i = j := by
  have one := (held i).mpr first
  have two := (held j).mpr second
  rw [one] at two
  exact Option.some.inj two

theorem nobody (held : Held none inside) (i : ι) : ¬ inside i := by
  intro isInside
  have impossible := (held i).mpr isInside
  cases impossible

theorem empty (outside : ∀ i, ¬ inside i) : Held none inside :=
  fun i => iff_of_false nofun (outside i)

theorem keep (held : Held holder inside) (same : ∀ i, inside' i ↔ inside i) :
    Held holder inside' := by
  intro i
  rw [same]
  exact held i

theorem enter (held : Held none inside) (entered : inside' here)
    (others : ∀ i, i ≠ here → (inside' i ↔ inside i)) : Held (some here) inside' := by
  intro i
  by_cases same : i = here
  · rw [same]
    exact iff_of_true rfl entered
  · rw [others i same]
    refine iff_of_false ?_ (held.nobody i)
    intro isSome
    exact same (Option.some.inj isSome).symm

theorem leave (held : Held holder inside) (inside_here : inside here) (left : ¬ inside' here)
    (others : ∀ i, i ≠ here → (inside' i ↔ inside i)) : Held none inside' := by
  refine empty fun i => ?_
  by_cases same : i = here
  · rw [same]
    exact left
  · rw [others i same]
    intro isInside
    exact same (held.alone isInside inside_here)

/-! ## Program points

One process moves from the point where it stands to the point `next`; `inside` says
which points are inside the critical section. -/

section Points

variable {Point : Type v} [DecidableEq ι] {point : ι → Point} {inside : Point → Bool} {next : Point}

theorem other_point {i : ι} (different : i ≠ here) :
    inside (Function.update point here next i) = true ↔ inside (point i) = true := by
  rw [Function.update_of_ne different]

theorem move (held : Held holder fun i => inside (point i) = true)
    (same : inside next = inside (point here)) :
    Held holder fun i => inside (Function.update point here next i) = true := by
  refine held.keep ?_
  intro i
  by_cases isHere : i = here
  · rw [isHere, Function.update_self, same]
  · exact other_point isHere

theorem take (held : Held none fun i => inside (point i) = true) (entered : inside next = true) :
    Held (some here) fun i => inside (Function.update point here next i) = true := by
  refine held.enter ?_ fun i => other_point
  rw [Function.update_self]
  exact entered

theorem release (held : Held holder fun i => inside (point i) = true)
    (was : inside (point here) = true) (left : inside next = false) :
    Held none fun i => inside (Function.update point here next i) = true := by
  refine held.leave was ?_ fun i => other_point
  rw [Function.update_self, left]
  exact Bool.false_ne_true

end Points

end Held

end Rexv6.Foundation
