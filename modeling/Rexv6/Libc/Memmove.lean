import Mathlib.Algebra.Ring.Nat
import Mathlib.Logic.Function.Basic

/-!
Contract: the two `memmove` of the repository, the kernel's in `lib/libc/string.c`
and that of user programs in `lib/ulibc/ulib.c`.

Owns: their loops over a byte memory, what they leave behind, and for which ranges
the second one copies.

Does not own: addresses that wrap around, and which addresses a program may use.
-/

namespace Rexv6.Libc

open Function (update update_self update_of_ne)

abbrev Memory := Nat → UInt8

/-- `while(n-- > 0) *d++ = *s++`. -/
def copyForward : (n d s : Nat) → Memory → Memory
  | 0, _, _, mem => mem
  | n + 1, d, s, mem => copyForward n (d + 1) (s + 1) (update mem d (mem s))

/-- `while(n-- > 0) *--d = *--s`. -/
def copyBackward : (n d s : Nat) → Memory → Memory
  | 0, _, _, mem => mem
  | n + 1, d, s, mem => copyBackward n (d - 1) (s - 1) (update mem (d - 1) (mem (s - 1)))

/-- The kernel's `memmove`. The end of the source is a 32-bit pointer. -/
def memmove (dst src n : Nat) (mem : Memory) : Memory :=
  if src < dst ∧ (src + n) % 2 ^ 32 > dst then copyBackward n (dst + n) (src + n) mem
  else copyForward n dst src mem

/-- The `memmove` of user programs, whose `n` is an `int`. -/
def userMemmove (dst src : Nat) (n : Int) (mem : Memory) : Memory := copyForward n.toNat dst src mem

def moved (dst src n : Nat) (mem : Memory) : Memory := fun a =>
  if dst ≤ a ∧ a < dst + n then mem (src + (a - dst)) else mem a

section Copying

variable {n d s : Nat} {mem : Memory}

theorem copyForward_outside {a : Nat} (outside : a < d ∨ d + n ≤ a) :
    copyForward n d s mem a = mem a := by
  induction n generalizing d s mem with
  | zero => rfl
  | succ n ih =>
    rw [copyForward, ih (by omega), update_of_ne (by omega)]

theorem copyForward_add (first second : Nat) :
    copyForward (first + second) d s mem =
      copyForward second (d + first) (s + first) (copyForward first d s mem) := by
  induction first generalizing d s mem with
  | zero => rw [Nat.zero_add, Nat.add_zero, Nat.add_zero, copyForward]
  | succ first ih =>
    rw [Nat.add_right_comm, copyForward, ih, copyForward, Nat.add_assoc,
      Nat.add_assoc, Nat.add_comm 1]

/-- From the front, a byte is read before it is overwritten unless the destination
begins behind the source and inside it. -/
theorem copyForward_eq (apart : ¬ (s < d ∧ d < s + n)) :
    copyForward n d s mem = moved d s n mem := by
  induction n generalizing d s mem with
  | zero =>
    funext a
    rw [copyForward, moved, if_neg (by omega)]
  | succ n ih =>
    rw [copyForward, ih (by omega)]
    funext a
    unfold moved
    by_cases isFirst : a = d
    · rw [if_neg (by omega), if_pos (by omega), isFirst, update_self, Nat.sub_self, Nat.add_zero]
    by_cases inside : d ≤ a ∧ a < d + (n + 1)
    · rw [if_pos (by omega), if_pos inside, update_of_ne (by omega)]
      congr 1
      omega
    · rw [if_neg (by omega), if_neg inside, update_of_ne isFirst]

/-- From the end, a byte is read before it is overwritten if the destination begins
behind the source. -/
theorem copyBackward_eq (behind : s ≤ d) :
    copyBackward n (d + n) (s + n) mem = moved d s n mem := by
  induction n generalizing mem with
  | zero =>
    funext a
    rw [copyBackward, moved, if_neg (by omega)]
  | succ n ih =>
    rw [copyBackward, ← Nat.add_assoc, ← Nat.add_assoc, Nat.add_sub_cancel, Nat.add_sub_cancel,
      ih]
    funext a
    unfold moved
    by_cases isLast : a = d + n
    · rw [if_neg (by omega), if_pos (by omega), isLast, update_self]
      congr 1
      omega
    by_cases inside : d ≤ a ∧ a < d + (n + 1)
    · rw [if_pos (by omega), if_pos inside, update_of_ne (by omega)]
    · rw [if_neg (by omega), if_neg inside, update_of_ne isLast]

/-- The first byte is copied into the source when the destination begins inside it,
and copied again from there. -/
theorem copyForward_repeats (behind : s < d) (inside : d < s + n) :
    copyForward n d s mem (d + (d - s)) = mem s := by
  have turns : n = (d - s) + ((n - (d - s) - 1) + 1) := by omega
  have reached : s + (d - s) = d := by omega
  rw [turns, copyForward_add, reached, copyForward, copyForward_outside (by omega), update_self,
    copyForward_eq (by omega), moved, if_pos (by omega), Nat.sub_self, Nat.add_zero]

end Copying

/-- The kernel's `memmove` moves the bytes for all ranges. That of user programs does
so, for all memories, exactly for the ranges whose destination does not begin inside
the source and behind its start. -/
theorem memmoves_agree_iff {dst src n : Nat} (dstFits : dst + n ≤ 2 ^ 32)
    (srcFits : src + n ≤ 2 ^ 32) :
    (∀ mem, memmove dst src n mem = moved dst src n mem) ∧
    ((∀ mem, userMemmove dst src n mem = moved dst src n mem) ↔ ¬ (src < dst ∧ dst < src + n)) := by
  constructor
  · intro mem
    unfold memmove
    by_cases overlap : src < dst ∧ (src + n) % 2 ^ 32 > dst
    · rw [if_pos overlap, copyBackward_eq (by omega)]
    · rw [if_neg overlap, copyForward_eq]
      rintro ⟨behind, inside⟩
      apply overlap ⟨behind, _⟩
      -- The source ends below the top of memory, as the destination lies behind it.
      rw [Nat.mod_eq_of_lt (by omega)]
      exact inside
  · constructor
    · rintro same ⟨behind, inside⟩
      have copied := congrFun (same fun a => if a = src then 1 else 0) (dst + (dst - src))
      rw [userMemmove, Int.toNat_natCast, copyForward_repeats behind inside, moved, if_pos rfl,
        if_pos (by omega), if_neg (by omega)] at copied
      exact absurd copied (by decide)
    · intro apart mem
      rw [userMemmove, Int.toNat_natCast, copyForward_eq apart]

/-- Two bytes moved up by one place: the first one is copied twice. -/
theorem userMemmove_repeats_first :
    userMemmove 1 0 2 (fun a => if a = 0 then 7 else 9) 2 = 7 ∧
      memmove 1 0 2 (fun a => if a = 0 then 7 else 9) 2 = 9 ∧
      moved 1 0 2 (fun a => if a = 0 then 7 else 9) 2 = 9 := by
  decide

/-- Two bytes moved down by one place. -/
theorem memmoves_agree_iff_down :
    userMemmove 0 1 2 (fun a => if a = 0 then 7 else 9) =
      moved 0 1 2 fun a => if a = 0 then 7 else 9 :=
  (memmoves_agree_iff (by decide : 0 + 2 ≤ 2 ^ 32) (by decide : 1 + 2 ≤ 2 ^ 32)).2.mpr (by decide) _

end Rexv6.Libc
