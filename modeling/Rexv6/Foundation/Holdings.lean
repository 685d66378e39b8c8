import Mathlib.Logic.Function.Basic

/-!
Contract: resources that are marked as used exactly while a place holds them.

Owns: the agreement of a mark on resources with a map from places to resources,
and how it survives that a place takes an unused resource.

Does not own: how often a resource was taken; that is counted in `Ledger`.
-/

namespace Rexv6.Foundation.Holdings

open Function (update update_of_ne update_self)

universe u v

variable {Place : Type u} {Resource : Type v}

/-- Who holds what once `place` has taken a resource that nobody held. -/
theorem holds_update [DecidableEq Place] {own : Place → Option Resource} {place other : Place}
    {resource found : Resource} (unheld : ∀ place, own place ≠ some resource)
    (holds : update own place (some resource) other = some found) :
    (other = place ∧ found = resource) ∨ (own other = some found ∧ found ≠ resource) := by
  by_cases same : other = place
  · rw [same, update_self] at holds
    exact Or.inl ⟨same, (Option.some.inj holds).symm⟩
  · rw [update_of_ne same] at holds
    exact Or.inr ⟨holds, fun isResource => unheld other (isResource ▸ holds)⟩

theorem once_update [DecidableEq Place] {own : Place → Option Resource} {place left right : Place}
    {resource found : Resource} (unheld : ∀ place, own place ≠ some resource)
    (once : ∀ {left right resource}, own left = some resource → own right = some resource →
      left = right)
    (leftHolds : update own place (some resource) left = some found)
    (rightHolds : update own place (some resource) right = some found) : left = right := by
  rcases holds_update unheld leftHolds with ⟨leftPlace, leftFound⟩ | ⟨leftOwn, leftOther⟩ <;>
    rcases holds_update unheld rightHolds with ⟨rightPlace, rightFound⟩ | ⟨rightOwn, rightOther⟩
  · exact leftPlace.trans rightPlace.symm
  · exact absurd leftFound rightOther
  · exact absurd rightFound leftOther
  · exact once leftOwn rightOwn

/-- No two places hold one resource, and the used resources are those that some
place holds. -/
structure Exact (own : Place → Option Resource) (used : Resource → Prop) : Prop where
  once : ∀ {left right resource}, own left = some resource → own right = some resource →
    left = right
  used : ∀ resource, used resource ↔ ∃ place, own place = some resource

namespace Exact

variable {own : Place → Option Resource} {used used' : Resource → Prop} {place : Place}
  {resource : Resource}

theorem congr (exact_ : Exact own used) (same : ∀ other, used' other ↔ used other) :
    Exact own used' :=
  ⟨exact_.once, fun other => (same other).trans (exact_.used other)⟩

theorem not_held (exact_ : Exact own used) (unused : ¬ used resource) (place : Place) :
    own place ≠ some resource := by
  intro holds
  exact unused ((exact_.used resource).mpr ⟨place, holds⟩)

variable [DecidableEq Place]

theorem take (exact_ : Exact own used) (empty : own place = none) (unused : ¬ used resource) :
    Exact (update own place (some resource))
      fun other => other = resource ∨ used other := by
  have unheld := exact_.not_held unused
  constructor
  · exact once_update unheld exact_.once
  · intro other
    constructor
    · rintro (isResource | isUsed)
      · exact ⟨place, by rw [update_self, isResource]⟩
      · obtain ⟨holder, holds⟩ := (exact_.used other).mp isUsed
        refine ⟨holder, ?_⟩
        rw [update_of_ne, holds]
        rintro rfl
        rw [empty] at holds
        cases holds
    · rintro ⟨holder, holds⟩
      rcases holds_update unheld holds with ⟨_, isResource⟩ | ⟨owns, _⟩
      · exact Or.inl isResource
      · exact Or.inr ((exact_.used other).mpr ⟨holder, owns⟩)

end Exact

end Rexv6.Foundation.Holdings
