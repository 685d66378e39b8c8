import Mathlib.Algebra.Order.Group.Nat
import Mathlib.Data.Nat.Bitwise
import Mathlib.Data.Nat.Log
import Rexv6.Klib.Vector

/-!
Contract: capacities, single accesses to a buffer, and the loops over one.

Owns: the capacities `get_capacity` computes, what `allocate`, `release`, a read
and a write do, and each loop as a change of one buffer.

Does not own: vectors.
-/

namespace Rexv6.Klib.Vector

open Rexv6.Foundation.Program

/-! ## Capacities -/

/-- The highest bit is found among the lowest `k + 1`. -/
theorem topMask_spec {n : Nat} (fuel k : Nat) (some : n ≠ 0) (below : n < 2 ^ (k + 1))
    (enough : k < fuel) :
    ∃ j, topMask n fuel (2 ^ k) = 2 ^ j ∧ 2 ^ j ≤ n ∧ n < 2 ^ (j + 1) := by
  induction fuel generalizing k with
  | zero => omega
  | succ fuel ih =>
    rw [topMask]
    by_cases small : n < 2 ^ k
    · have clear : 2 ^ k &&& n = 0 := by
        rw [Nat.and_comm, Nat.and_two_pow, Nat.testBit_lt_two_pow small]
        simp
      rw [if_pos clear]
      cases k with
      | zero =>
        omega
      | succ k =>
        have half : 2 ^ (k + 1) >>> 1 = 2 ^ k := by
          rw [Nat.shiftRight_one, Nat.pow_succ, Nat.mul_div_cancel _ (by decide)]
        rw [half]
        exact ih k small (by omega)
    · have isSet : 2 ^ k &&& n ≠ 0 := by
        have one : n / 2 ^ k = 1 := by
          rw [Nat.div_eq_iff (Nat.two_pow_pos k)]
          omega
        rw [Nat.and_comm, Nat.and_two_pow, Nat.testBit_eq_decide_div_mod_eq, one]
        simp
      rw [if_neg isSet]
      exact ⟨k, rfl, Nat.le_of_not_lt small, below⟩

/-- The next power of two, or `0` when it does not fit in a word. -/
theorem getCapacity_eq {n : Nat} (some : n ≠ 0) (word : n < 2 ^ 32) :
    getCapacity n = 2 ^ Nat.clog 2 n % 2 ^ 32 := by
  obtain ⟨j, isMask, low, high⟩ := topMask_spec 32 31 some word (by decide)
  rw [getCapacity, if_neg some]
  simp only [isMask]
  by_cases power : 2 ^ j = n
  · rw [if_neg (not_not.mpr power), ← power, Nat.clog_pow 2 j Nat.one_lt_two, power,
      Nat.mod_eq_of_lt word]
  · have isLog : Nat.clog 2 n = j + 1 := by
      apply le_antisymm
      · exact (Nat.clog_le_iff_le_pow Nat.one_lt_two).mpr high.le
      · exact (Nat.lt_clog_iff_pow_lt Nat.one_lt_two).mpr (lt_of_le_of_ne low power)
    rw [if_pos power, isLog, Nat.shiftLeft_eq, Nat.pow_one, ← Nat.pow_succ]

theorem le_getCapacity {n : Nat} (small : n ≤ 2 ^ 31) : n ≤ getCapacity n := by
  by_cases none : n = 0
  · rw [none]
    exact Nat.zero_le _
  · have fits : 2 ^ Nat.clog 2 n ≤ 2 ^ 31 :=
      Nat.pow_le_pow_right (by decide) ((Nat.clog_le_iff_le_pow Nat.one_lt_two).mpr small)
    rw [getCapacity_eq none (by omega), Nat.mod_eq_of_lt (by omega)]
    exact Nat.le_pow_clog Nat.one_lt_two n

/-! ## Buffers -/

section Buffers

variable {α : Type} {m : Memory α}

def Memory.put (m : Memory α) (p : Nat) (cells : List (Option α)) : Memory α :=
  { m with cells := Function.update m.cells p cells }

@[simp] theorem Memory.put_same (p : Nat) (cells : List (Option α)) :
    (m.put p cells).cells p = cells :=
  Function.update_self ..

theorem Memory.put_other {p q : Nat} (cells : List (Option α)) (different : q ≠ p) :
    (m.put p cells).cells q = m.cells q :=
  Function.update_of_ne different ..

@[simp] theorem Memory.put_put (p : Nat) (first second : List (Option α)) :
    (m.put p first).put p second = m.put p second := by
  unfold Memory.put
  simp

theorem Memory.put_self (p : Nat) : m.put p (m.cells p) = m := by
  unfold Memory.put
  simp

def Memory.grown (m : Memory α) (size : Nat) : Memory α :=
  { m with next := m.next + 1,
           cells := Function.update m.cells m.next (List.replicate size none) }

def Memory.freed (m : Memory α) (p : Nat) : Memory α := { m with released := p :: m.released }

variable {post : Nat → Memory α → Prop} {done : Unit → Memory α → Prop}
  {read : Option α → Memory α → Prop} {stops : Fault → Prop}

theorem meets_allocate {size : Nat} :
    Meets (allocate size) m post stops ↔ post m.next (m.grown size) := Iff.rfl

theorem meets_release {p : Nat} : Meets (release p) m done stops ↔ done () (m.freed p) := Iff.rfl

theorem meets_load {p i : Nat} {value : Option α} (live : p ∉ m.released)
    (isAt : (m.cells p)[i]? = some value) :
    Meets (load p i) m read stops ↔ read value m := by
  rw [load, meets_bind, meets_get, if_neg live, isAt]
  exact Iff.rfl

theorem meets_store {p i : Nat} {value : Option α} (live : p ∉ m.released)
    (inside : i < (m.cells p).length) :
    Meets (store p i value) m done stops ↔ done () (m.put p ((m.cells p).set i value)) := by
  rw [store, meets_bind, meets_get, if_neg live, if_pos inside]
  exact Iff.rfl

theorem load_returns (p i : Nat) :
    Meets (load p i) m (fun _ after => after = m) fun _ => True := by
  rw [load, meets_bind, meets_get]
  split
  · trivial
  · cases (m.cells p)[i]? with
    | none => trivial
    | some value => rfl

theorem store_returns (p i : Nat) (value : Option α) :
    Meets (store p i value) m (fun _ after => after = m.put p ((m.cells p).set i value))
      fun _ => True := by
  rw [store, meets_bind, meets_get]
  split
  · trivial
  · split
    · rfl
    · trivial

theorem load_outside {p i : Nat} (outside : (m.cells p).length ≤ i) :
    Meets (load p i) m (fun _ _ => False) fun _ => True := by
  rw [load, meets_bind, meets_get]
  split
  · trivial
  · rw [List.getElem?_eq_none outside]
    trivial

end Buffers

/-! ## Loops -/

section Loops

variable {α : Type} {stops : Fault → Prop}

/-- A loop that moves cell `from_ j` of `source` to cell `j` of `target` for the
`j` with `Moved j` changes only `target`. -/
structure Shifted (m after : Memory α) (target source : Nat) (Moved : Nat → Prop)
    (from_ : Nat → Nat) : Prop where
  isPut : ∃ cells, after = m.put target cells
  length : (after.cells target).length = (m.cells target).length
  moved : ∀ j, Moved j → (after.cells target)[j]? = (m.cells source)[from_ j]?
  kept : ∀ j, ¬ Moved j → (after.cells target)[j]? = (m.cells target)[j]?

theorem Shifted.refl (m : Memory α) (target source : Nat) {Moved : Nat → Prop} {from_ : Nat → Nat}
    (none : ∀ j, ¬ Moved j) : Shifted m m target source Moved from_ :=
  ⟨⟨_, (m.put_self target).symm⟩, rfl, fun j isMoved => absurd isMoved (none j), fun _ _ => rfl⟩

/-- A loop that stores one cell and then moves the rest, of which it reads none from that
cell. -/
theorem Shifted.of_store {m after : Memory α} {target source i : Nat} {value : Option α}
    {Moved Rest : Nat → Prop} {from_ : Nat → Nat} (inside : i < (m.cells target).length)
    (isAt : (m.cells source)[from_ i]? = some value) (first : ∀ j, Moved j ↔ j = i ∨ Rest j)
    (notAgain : ¬ Rest i) (unread : source = target → ∀ j, Rest j → from_ j ≠ i)
    (shifted :
      Shifted (m.put target ((m.cells target).set i value)) after target source Rest from_) :
    Shifted m after target source Moved from_ := by
  obtain ⟨⟨cells, isPut⟩, length, moved, kept⟩ := shifted
  rw [Memory.put_same] at length kept
  refine ⟨⟨cells, by rw [isPut, Memory.put_put]⟩, by rw [length, List.length_set], ?_, ?_⟩
  · intro j isMoved
    by_cases isFirst : j = i
    · rw [isFirst, kept i notAgain, List.getElem?_set_self inside, isAt]
    · have later := ((first j).mp isMoved).resolve_left isFirst
      rw [moved j later]
      by_cases own : source = target
      · rw [own, Memory.put_same, List.getElem?_set_ne (unread own j later).symm]
      · rw [Memory.put_other _ own]
  · intro j outside
    obtain ⟨other, notLater⟩ := not_or.mp (mt (first j).mpr outside)
    rw [kept j notLater, List.getElem?_set_ne (Ne.symm other)]

theorem copyLoop_meets (target source : Nat) (different : source ≠ target) (remaining i : Nat)
    (m : Memory α) (targetLive : target ∉ m.released) (sourceLive : source ∉ m.released)
    (room : i + remaining ≤ (m.cells target).length)
    (filled : i + remaining ≤ (m.cells source).length) :
    Meets (copyLoop target source remaining i) m
      (fun _ after => Shifted m after target source (fun j => i ≤ j ∧ j < i + remaining) id)
      stops := by
  induction remaining generalizing i m with
  | zero => exact Shifted.refl m target source fun j both => by omega
  | succ remaining ih =>
    have isAt := List.getElem?_eq_getElem (by omega : i < (m.cells source).length)
    rw [copyLoop, meets_bind, meets_load sourceLive isAt, meets_bind,
      meets_store targetLive (by omega)]
    have rest := ih (i + 1)
      (m.put target ((m.cells target).set i (m.cells source)[i])) targetLive sourceLive
      (by rw [Memory.put_same, List.length_set]; omega)
      (by rw [Memory.put_other _ different]; omega)
    apply rest.mono
    intro _ after shifted
    exact shifted.of_store (by omega) isAt (by omega) (by omega)
      fun same => absurd same different

theorem eraseLoop_meets (data remaining i : Nat) (m : Memory α) (live : data ∉ m.released)
    (inside : i + remaining < (m.cells data).length) :
    Meets (eraseLoop data remaining i) m
      (fun _ after => Shifted m after data data (fun j => i ≤ j ∧ j < i + remaining) (· + 1))
      stops := by
  induction remaining generalizing i m with
  | zero => exact Shifted.refl m data data fun j both => by omega
  | succ remaining ih =>
    have isAt := List.getElem?_eq_getElem (by omega : i + 1 < (m.cells data).length)
    rw [eraseLoop, meets_bind, meets_load live isAt, meets_bind, meets_store live (by omega)]
    have rest := ih (i + 1)
      (m.put data ((m.cells data).set i (m.cells data)[i + 1])) live
      (by rw [Memory.put_same, List.length_set]; omega)
    apply rest.mono
    intro _ after shifted
    exact shifted.of_store (by omega) isAt (by omega) (by omega) (by omega)

theorem insertLoop_meets (data remaining i : Nat) (m : Memory α) (live : data ∉ m.released)
    (low : remaining ≤ i) (inside : i < (m.cells data).length) :
    Meets (insertLoop data remaining i) m
      (fun _ after => Shifted m after data data (fun j => i - remaining < j ∧ j ≤ i) (· - 1))
      stops := by
  induction remaining generalizing i m with
  | zero => exact Shifted.refl m data data fun j both => by omega
  | succ remaining ih =>
    have isAt := List.getElem?_eq_getElem (by omega : i - 1 < (m.cells data).length)
    rw [insertLoop, meets_bind, meets_load live isAt, meets_bind, meets_store live inside]
    have rest := ih (i - 1)
      (m.put data ((m.cells data).set i (m.cells data)[i - 1])) live (by omega)
      (by rw [Memory.put_same, List.length_set]; omega)
    apply rest.mono
    intro _ after shifted
    exact shifted.of_store (by omega) isAt (by omega) (by omega) (by omega)

end Loops

end Rexv6.Klib.Vector
