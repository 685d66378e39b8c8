import Mathlib.Logic.Function.Basic

/-!
Contract: processes at program points, some of them asleep, and one that rouses them.

Owns: where a process stands once it has been roused, and what rousing one or all of
them leaves as it was.

Does not own: what they sleep on, and the locks that are held meanwhile.
-/

namespace Rexv6.Foundation

open Function (update update_eq_self update_of_ne update_self)

universe u v w

variable {ι : Type u} {Point : Type v} [DecidableEq Point] {asleep awake : Point}

/-- Where a process stands once it has been made runnable. -/
def rouse (asleep awake point : Point) : Point := if point = asleep then awake else point

theorem rouse_of_ne {point : Point} (isAwake : point ≠ asleep) :
    rouse asleep awake point = point := if_neg isAwake

theorem rouse_ne (differ : awake ≠ asleep) (point : Point) : rouse asleep awake point ≠ asleep := by
  unfold rouse
  split
  · exact differ
  · assumption

/-- What does not distinguish the two points is kept. -/
theorem rouse_same {Value : Type w} {value : Point → Value} (same : value awake = value asleep)
    (point : Point) : value (rouse asleep awake point) = value point := by
  unfold rouse
  split
  next isAsleep => rw [isAsleep, same]
  next => rfl

variable [DecidableEq ι] {point : ι → Point} {here : ι} {next : Point}

/-- One process goes on to `next` and rouses the others. -/
theorem rouse_all_same {Value : Type w} {value : Point → Value} (same : value awake = value asleep)
    (kept : value next = value (point here)) (i : ι) :
    value (update (fun j => rouse asleep awake (point j)) here next i) = value (point i) := by
  by_cases isHere : i = here
  · rw [isHere, update_self, kept]
  · rw [update_of_ne isHere]
    exact rouse_same same _

theorem rouse_one_of_ne (isAwake : point here ≠ asleep) :
    update point here (rouse asleep awake (point here)) = point := by
  rw [rouse_of_ne isAwake, update_eq_self]

end Rexv6.Foundation
