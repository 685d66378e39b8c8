import Mathlib.Data.List.Basic
import Mathlib.Order.Nat

/-!
Contract: a list that is overwritten from a position on, and grows if need be.

Owns: the elements and the length of the result, and writes that follow each
other.

Does not own: what the lists stand for.
-/

namespace Rexv6.Foundation

universe u

variable {α : Type u} {old : List α} {off : Nat}

/-- The list `old` after `data` has been written at `off`. -/
def overwrite (old : List α) (off : Nat) (data : List α) : List α :=
  old.take off ++ data ++ old.drop (off + data.length)

theorem getElem?_overwrite (inside : off ≤ old.length) (data : List α) (i : Nat) :
    (overwrite old off data)[i]? =
      if off ≤ i ∧ i < off + data.length then data[i - off]? else old[i]? := by
  have taken : (old.take off).length = off := by
    rw [List.length_take]
    omega
  unfold overwrite
  rw [List.append_assoc]
  by_cases before : i < off
  · rw [List.getElem?_append_left (by omega), List.getElem?_take, if_pos before, if_neg (by omega)]
  · rw [List.getElem?_append_right (by omega), taken]
    by_cases stored : i < off + data.length
    · rw [List.getElem?_append_left (by omega), if_pos (by omega)]
    · have position : off + data.length + (i - off - data.length) = i := by omega
      rw [List.getElem?_append_right (by omega), List.getElem?_drop, if_neg (by omega), position]

theorem length_overwrite (inside : off ≤ old.length) (data : List α) :
    (overwrite old off data).length = max old.length (off + data.length) := by
  unfold overwrite
  rw [List.length_append, List.length_append, List.length_take, List.length_drop]
  omega

/-- Two writes, one behind the other, are one write. -/
theorem overwrite_append (inside : off ≤ old.length) (first second : List α) :
    overwrite (overwrite old off first) (off + first.length) second =
      overwrite old off (first ++ second) := by
  have front : (old.take off ++ first).length = off + first.length := by
    rw [List.length_append, List.length_take]
    omega
  unfold overwrite
  rw [List.take_append_of_le_length front.ge, List.take_of_length_le front.le, List.drop_append,
    List.drop_drop, front, List.drop_eq_nil_of_le (by omega), List.nil_append, List.length_append]
  simp [Nat.add_assoc]

theorem overwrite_nil (old : List α) (off : Nat) : overwrite old off [] = old := by
  simp [overwrite]

theorem overwrite_end (data : List α) : overwrite old old.length data = old ++ data := by
  simp [overwrite]

end Rexv6.Foundation
