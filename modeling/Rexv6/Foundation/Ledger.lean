import Rexv6.Foundation.Holdings

/-!
Contract: exclusive ownership of resources that are taken from and released to
a pool, each counted by the number of times it was taken and released.

Owns: the balance between the counters and a map from places to the resource
each of them holds, and the three ways in which the map moves: a place acquires
a resource, a place gives its resource back, a resource changes place.

Does not own: what a place is, or how a program finds the resource of a place.
-/

namespace Rexv6.Foundation.Ledger

open Function (update update_apply update_of_ne update_self)
open Rexv6.Foundation.Holdings (holds_update once_update)

universe u v

variable {Place : Type u} {Resource : Type v}

def bump [DecidableEq Resource] (count : Resource → Nat) (resource : Resource) : Resource → Nat :=
  update count resource (count resource + 1)

theorem bump_self [DecidableEq Resource] (count : Resource → Nat) (resource : Resource) :
    bump count resource resource = count resource + 1 :=
  update_self resource _ count

theorem bump_other [DecidableEq Resource] (count : Resource → Nat) {resource other : Resource}
    (different : other ≠ resource) : bump count resource other = count other :=
  update_of_ne different _ count

theorem lt_bump [DecidableEq Resource] {count : Resource → Nat} {resource : Resource} :
    count resource < bump count resource resource := by
  rw [bump_self]
  exact Nat.lt_succ_self _

theorem le_bump [DecidableEq Resource] {count : Resource → Nat} {resource : Resource}
    (other : Resource) : count other ≤ bump count resource other := by
  by_cases same : other = resource
  · rw [same]
    exact Nat.le_of_lt lt_bump
  · exact Nat.le_of_eq (bump_other count same).symm

/-- Every resource is held by one place and taken once more than released, or
is held nowhere and has been released as often as it was taken. -/
structure Balanced (own : Place → Option Resource) (taken released : Resource → Nat) : Prop where
  once : ∀ {left right resource}, own left = some resource → own right = some resource →
    left = right
  held : ∀ {place resource}, own place = some resource →
    taken resource = released resource + 1
  idle : ∀ {resource}, (∀ place, own place ≠ some resource) →
    taken resource = released resource

section Moves

variable {own : Place → Option Resource} {taken released : Resource → Nat} {place : Place}
  {resource : Resource}

/-- A resource that was released as often as it was taken is held nowhere. -/
theorem Balanced.unheld (balanced : Balanced own taken released)
    (equal : taken resource = released resource) (place : Place) :
    own place ≠ some resource := by
  intro holds
  have more := balanced.held holds
  omega

variable [DecidableEq Place] [DecidableEq Resource]

theorem Balanced.acquire (balanced : Balanced own taken released)
    (free : own place = none) (equal : taken resource = released resource) :
    Balanced (update own place (some resource)) (bump taken resource) released := by
  have unheld := balanced.unheld equal
  constructor
  · exact once_update unheld balanced.once
  · intro other found holds
    rcases holds_update unheld holds with ⟨_, isResource⟩ | ⟨ownHolds, different⟩
    · rw [isResource, bump_self, equal]
    · rw [bump_other taken different]
      exact balanced.held ownHolds
  · intro found nowhere
    have different : found ≠ resource := by
      intro isResource
      exact nowhere place (by rw [update_self, isResource])
    rw [bump_other taken different]
    apply balanced.idle
    intro other holds
    apply nowhere other
    rw [update_of_ne _, holds]
    intro isPlace
    rw [isPlace, free] at holds
    exact absurd holds (by simp)

theorem Balanced.release (balanced : Balanced own taken released)
    (holds : own place = some resource) :
    Balanced (update own place none) taken (bump released resource) := by
  have cases : ∀ {other found}, update own place none other = some found →
      own other = some found ∧ found ≠ resource := by
    intro other found after
    have notPlace : other ≠ place := by
      intro isPlace
      rw [isPlace, update_self] at after
      exact absurd after (by simp)
    rw [update_of_ne notPlace] at after
    refine ⟨after, ?_⟩
    intro isResource
    exact notPlace (balanced.once after (isResource ▸ holds))
  constructor
  · intro left right found leftHolds rightHolds
    exact balanced.once (cases leftHolds).1 (cases rightHolds).1
  · intro other found after
    rw [bump_other released (cases after).2]
    exact balanced.held (cases after).1
  · intro found nowhere
    by_cases isResource : found = resource
    · rw [isResource, bump_self, balanced.held holds]
    · rw [bump_other released isResource]
      apply balanced.idle
      intro other otherHolds
      apply nowhere other
      rw [update_of_ne _, otherHolds]
      intro isPlace
      rw [isPlace, holds] at otherHolds
      exact isResource (Option.some.inj otherHolds).symm

omit [DecidableEq Place] [DecidableEq Resource] in
theorem Balanced.shift {taken' released' : Resource → Nat}
    (balanced : Balanced own taken released)
    (same : ∀ resource, taken' resource + released resource =
      taken resource + released' resource) : Balanced own taken' released' := by
  refine ⟨balanced.once, ?_, ?_⟩
  · intro place resource holds
    have more := balanced.held holds
    have shifted := same resource
    omega
  · intro resource nowhere
    have equal := balanced.idle nowhere
    have shifted := same resource
    omega

/-- A resource changes place as if it were given back and taken again. -/
theorem Balanced.move {target : Place} (balanced : Balanced own taken released)
    (holds : own place = some resource) (free : own target = none) :
    Balanced (update (update own place none) target (some resource))
      taken released := by
  have empty : update own place none target = none := by
    rw [update_apply, free, ite_self]
  refine ((balanced.release holds).acquire empty
    (by rw [bump_self, balanced.held holds])).shift fun other => ?_
  by_cases isResource : other = resource
  · rw [isResource, bump_self, bump_self]
    omega
  · rw [bump_other _ isResource, bump_other _ isResource]

end Moves

end Rexv6.Foundation.Ledger
