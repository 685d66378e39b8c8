import Mathlib.Algebra.Order.Group.Nat
import Mathlib.Logic.Equiv.Basic
import Mathlib.Order.Defs.Unbundled

/-!
Contract: binary heaps in positions `1` to `n`, with the largest value at the top.

Owns: heap order over a strict weak order, the two forms of it that have one
position out of place, and what moving that position up or down by one does.

Does not own: any container or any loop. The parent of position `i` is `i / 2`.
-/

namespace Rexv6.Foundation.BinaryHeap

universe u

variable {α : Type u} (lt : α → α → Prop)

/-- No position up to `n` is above its parent in the order. -/
def Ordered (at_ : Nat → α) (n : Nat) : Prop :=
  ∀ i, 2 ≤ i → i ≤ n → ¬ lt (at_ (i / 2)) (at_ i)

/-- Heap order except that position `p` may be above its parent. -/
structure Rising (at_ : Nat → α) (n p : Nat) : Prop where
  others : ∀ i, 2 ≤ i → i ≤ n → i ≠ p → ¬ lt (at_ (i / 2)) (at_ i)
  across : ∀ i, i ≤ n → i / 2 = p → 2 ≤ p → ¬ lt (at_ (p / 2)) (at_ i)

/-- Heap order except that position `p` may be below its children. -/
structure Sinking (at_ : Nat → α) (n p : Nat) : Prop where
  others : ∀ i, 2 ≤ i → i ≤ n → i / 2 ≠ p → ¬ lt (at_ (i / 2)) (at_ i)
  across : ∀ i, i ≤ n → i / 2 = p → 2 ≤ p → ¬ lt (at_ (p / 2)) (at_ i)

section Order

variable {lt : α → α → Prop} [IsStrictWeakOrder α lt] {a b c : α}

theorem not_lt_of_lt (less : lt a b) : ¬ lt b a := fun greater =>
  Std.Irrefl.irrefl a (IsTrans.trans a b a less greater)

theorem not_lt_trans (first : ¬ lt a b) (second : ¬ lt b c) : ¬ lt a c := by
  intro less
  by_cases greater : lt b a
  · exact second (IsTrans.trans b a c greater less)
  · by_cases more : lt c b
    · exact first (IsTrans.trans a c b less more)
    · exact (IsStrictWeakOrder.incomp_trans a b c ⟨first, greater⟩ ⟨second, more⟩).1 less

end Order

section Moves

variable {lt : α → α → Prop} {at_ : Nat → α} {n p : Nat}

/-- A value added behind a heap may only be above its parent. -/
theorem Ordered.rising (ordered : Ordered lt at_ n) : Rising lt at_ (n + 1) (n + 1) where
  others := fun i low high other => ordered i low (by omega)
  across := fun i high isChild low => absurd isChild (by omega)

/-- A heap whose top has been replaced may only be below the top's children. -/
theorem Ordered.sinking {before : Nat → α} (ordered : Ordered lt before n) {m : Nat} (fewer : m ≤ n)
    (same : ∀ i, 2 ≤ i → i ≤ m → at_ i = before i) : Sinking lt at_ m 1 where
  others := by
    intro i low high notTop
    rw [same i low high, same (i / 2) (by omega) (by omega)]
    exact ordered i low (by omega)
  across := fun i high isChild low => absurd low (by omega)

/-- The position moves down past its larger child, which it is not above. -/
theorem Sinking.swap (sinking : Sinking lt at_ n p) {s : Nat} (isChild : s / 2 = p) (top : 1 ≤ p)
    (high : s ≤ n) (larger : ∀ i, i ≤ n → i / 2 = p → ¬ lt (at_ s) (at_ i))
    (above : ¬ lt (at_ s) (at_ p)) : Sinking lt (fun i => at_ (Equiv.swap s p i)) n s := by
  have atSelf : Equiv.swap s p p = s := Equiv.swap_apply_right s p
  have atChild : Equiv.swap s p s = p := Equiv.swap_apply_left s p
  have elsewhere : ∀ i, i ≠ s → i ≠ p → Equiv.swap s p i = i := fun i notChild notSelf =>
    Equiv.swap_apply_of_ne_of_ne notChild notSelf
  constructor
  · intro i two most notBelow
    by_cases isS : i = s
    · subst isS
      rw [isChild, atSelf, atChild]
      exact above
    · by_cases isSelf : i = p
      · subst isSelf
        rw [elsewhere (i / 2) (by omega) (by omega), atSelf]
        exact sinking.across s high isChild two
      · rw [elsewhere i isS isSelf]
        by_cases sibling : i / 2 = p
        · rw [sibling, atSelf]
          exact larger i most sibling
        · rw [elsewhere (i / 2) notBelow sibling]
          exact sinking.others i two most sibling
  · intro i most below two
    rw [isChild, atSelf, elsewhere i (by omega) (by omega), ← below]
    exact sinking.others i (by omega) most (by omega)

/-- A position that is above its larger child, or has none, is in place. -/
theorem Sinking.finish (sinking : Sinking lt at_ n p)
    (inPlace : ∀ i, i ≤ n → 2 ≤ i → i / 2 = p → ¬ lt (at_ p) (at_ i)) : Ordered lt at_ n := by
  intro i low high
  by_cases child : i / 2 = p
  · rw [child]
    exact inPlace i high low child
  · exact sinking.others i low high child

variable [IsStrictWeakOrder α lt]

/-- The position moves up past a parent it is not below. -/
theorem Rising.swap (rising : Rising lt at_ n p) (low : 2 ≤ p) (high : p ≤ n)
    (above : ¬ lt (at_ p) (at_ (p / 2))) :
    Rising lt (fun i => at_ (Equiv.swap p (p / 2) i)) n (p / 2) := by
  have different : p / 2 ≠ p := by omega
  have atParent : Equiv.swap p (p / 2) (p / 2) = p := Equiv.swap_apply_right p (p / 2)
  have atSelf : Equiv.swap p (p / 2) p = p / 2 := Equiv.swap_apply_left p (p / 2)
  have elsewhere : ∀ i, i ≠ p → i ≠ p / 2 → Equiv.swap p (p / 2) i = i := fun i notSelf notParent =>
    Equiv.swap_apply_of_ne_of_ne notSelf notParent
  -- The parent's other child is not above the parent either.
  have sibling : ∀ i, 2 ≤ i → i ≤ n → i ≠ p → i / 2 = p / 2 → ¬ lt (at_ (p / 2)) (at_ i) := by
    intro i two most notSelf isChild
    rw [← isChild]
    exact rising.others i two most notSelf
  constructor
  · intro i two most notParent
    by_cases isSelf : i = p
    · subst isSelf
      simp only [atParent, atSelf]
      exact above
    · rw [elsewhere i isSelf notParent]
      by_cases child : i / 2 = p
      · rw [child, atSelf]
        exact rising.across i most child low
      · by_cases isSibling : i / 2 = p / 2
        · rw [isSibling, atParent]
          exact not_lt_trans above (sibling i two most isSelf isSibling)
        · rw [elsewhere (i / 2) child isSibling]
          exact rising.others i two most isSelf
  · intro i most isChild two
    have above : ¬ lt (at_ (p / 2 / 2)) (at_ (p / 2)) :=
      rising.others (p / 2) two (by omega) different
    rw [elsewhere (p / 2 / 2) (by omega) (by omega)]
    by_cases isSelf : i = p
    · subst isSelf
      rw [atSelf]
      exact above
    · rw [elsewhere i isSelf (by omega)]
      exact not_lt_trans above (sibling i (by omega) most isSelf isChild)

/-- A position at the top, or below its parent, is in place. -/
theorem Rising.finish (rising : Rising lt at_ n p) (inPlace : p ≤ 1 ∨ lt (at_ p) (at_ (p / 2))) :
    Ordered lt at_ n := by
  intro i low high
  by_cases isSelf : i = p
  · subst isSelf
    cases inPlace with
    | inl top => omega
    | inr below => exact not_lt_of_lt below
  · exact rising.others i low high isSelf

theorem Ordered.top (ordered : Ordered lt at_ n) (i : Nat) (low : 1 ≤ i) (high : i ≤ n) :
    ¬ lt (at_ 1) (at_ i) := by
  induction i using Nat.strongRecOn with
  | ind i ih =>
    by_cases isTop : i = 1
    · subst isTop
      exact Std.Irrefl.irrefl (at_ 1)
    · exact not_lt_trans (ih (i / 2) (by omega) (by omega) (by omega))
        (ordered i (by omega) high)

end Moves

end Rexv6.Foundation.BinaryHeap
