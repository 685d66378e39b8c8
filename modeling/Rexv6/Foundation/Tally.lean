import Mathlib.Algebra.Ring.Int.Defs

/-!
Contract: what a place adds to the number of places that hold a thing.

Owns: the number for one place.

Does not own: any kind of place or thing. A place holds one thing at most.
-/

namespace Rexv6.Foundation.Tally

universe v

variable {Thing : Type v} [DecidableEq Thing]

def one (held : Option Thing) (thing : Thing) : Int := if held = some thing then 1 else 0

@[simp] theorem one_some_self (thing : Thing) : one (some thing) thing = 1 := if_pos rfl

theorem one_some_other {thing other : Thing} (different : other ≠ thing) :
    one (some thing) other = 0 :=
  if_neg fun same => different (Option.some.inj same).symm

theorem one_nonneg (held : Option Thing) (thing : Thing) : 0 ≤ one held thing := by
  unfold one
  split <;> omega

end Rexv6.Foundation.Tally
