import Mathlib.Data.Nat.Log
import Rexv6.Buddy.Links

/-!
Contract: allocation by size, from `operator new` over the dispatch table of
`kern/mm/kalloc.c` to `buddy_kmalloc2` and back.

Owns: `kmalloc`, `kmfree`, `buddy_kmalloc2`, `buddy_kmfree2`,
`buddy_get_order`, and the exact sizes for which `kmalloc` terminates.

Does not own: `kalloc` and `kfree`, which the table sends to the page calls.
-/

namespace Rexv6.Buddy

/-! ## The dispatch table -/

inductive AllocatorId where
  | freelist
  | buddy
deriving DecidableEq, Repr

/-- The `is_dyn` column of `allocators`. -/
def AllocatorId.isDyn : AllocatorId → Bool
  | .freelist => false
  | .buddy => true

/-- The current allocator, the buddy allocator with its live blocks, and the
`order` fields of the `mblock_t` headers in the heap, by address. -/
structure Kernel where
  currentAllocator : AllocatorId
  buddy : System
  headers : Nat → Nat

/-! ## Orders of sizes -/

def roundupPowerof2 (v : BitVec 32) : BitVec 32 :=
  let v := v - 1#32
  let v := v ||| v >>> 1
  let v := v ||| v >>> 2
  let v := v ||| v >>> 4
  let v := v ||| v >>> 8
  let v := v ||| v >>> 16
  v + 1#32

/-- The loop of `buddy_get_order`: the lowest set bit, or the end. -/
def lowestOrd (v : BitVec 32) : (remaining ord : Nat) → Nat
  | 0, ord => ord
  | remaining + 1, ord =>
    if v &&& (1#32 <<< ord) ≠ 0#32 then ord else lowestOrd v remaining (ord + 1)

def buddyGetOrder (v : BitVec 32) : Except Halt Nat :=
  let ord := lowestOrd (roundupPowerof2 v) 32 0
  if ord < minOrd then .ok minOrd
  else if ord > maxOrd then .error (.panic "buddy_get_order: order too big!")
  else .ok ord

/-! ## Sized calls -/

/-- `buddy_kmalloc2`, over the function that the name `kmalloc` is bound to. A
header is `sizeof(mblock_t)` bytes, and one `char` is added. -/
def buddyKmalloc2 (kmalloc : Kernel → Nat → Except Halt (Nat × Kernel)) (st : Kernel)
    (size : Nat) : Except Halt (Nat × Kernel) := do
  let order ← buddyGetOrder (BitVec.ofNat 32 (size + 4 + 1))
  let (blk, st) ← kmalloc st order
  if blk = 0 then .error .fault
  else .ok (blk + 4, { st with headers := Function.update st.headers blk order })

/-- `kmalloc`, with a bound on the recursion through the table. -/
def kmalloc : (fuel : Nat) → Kernel → (size : Nat) → Except Halt (Nat × Kernel)
  | 0, _, _ => .error .depth
  | fuel + 1, st, size =>
    if ¬ st.currentAllocator.isDyn then
      .error (.panic "Current allocator doesn't support dynamic size.")
    else buddyKmalloc2 (kmalloc fuel) st size

/-- `operator new` and `operator new[]`. -/
def operatorNew (fuel : Nat) (st : Kernel) (size : Nat) : Except Halt (Nat × Kernel) :=
  kmalloc fuel st size

def buddyKmfree2 (st : Kernel) (v : Nat) : Except Halt Kernel :=
  let blk := v - 4
  (st.buddy.step (.kmfree blk (st.headers blk))).map fun buddy => { st with buddy }

/-- `kmfree`, which `operator delete` calls. -/
def kmfree (st : Kernel) (v : Nat) : Except Halt Kernel :=
  if ¬ st.currentAllocator.isDyn then
    .error (.panic "Current allocator doesn't support dynamic size.")
  else buddyKmfree2 st v

/-! ## What a sized allocation promises -/

/-- The `size` bytes from `p` lie in one live block that overlaps no other, and
`kmfree p` frees exactly that block with its order. -/
def Serves (size p : Nat) (st : Kernel) : Prop :=
  ∃ block ∈ st.buddy.live, block.mem ≤ p ∧ p + size ≤ block.mem + 2 ^ block.order ∧
    (∀ other ∈ st.buddy.live.erase block, ∀ address,
      ¬ (block.contains address = true ∧ other.contains address = true)) ∧
    kmfree st p =
      (st.buddy.step (.kmfree block.mem block.order)).map fun buddy => { st with buddy }

def SizedCallOk (st : Kernel) (size : Nat) : Prop :=
  ∃ fuel, kmalloc fuel st size ≠ .error .depth ∧
    ∀ p after, kmalloc fuel st size = .ok (p, after) → p = 0 ∨ Serves size p after

/-! ## The order of a size -/

theorem getLsbD_or_shift {v w : BitVec 32} {reach : Nat}
    (smeared : ∀ i, v.getLsbD i = true ↔ ∃ d < reach, w.getLsbD (i + d) = true) (i : Nat) :
    (v ||| v >>> reach).getLsbD i = true ↔ ∃ d < reach + reach, w.getLsbD (i + d) = true := by
  rw [BitVec.getLsbD_or, BitVec.getLsbD_ushiftRight, Bool.or_eq_true, smeared, smeared]
  constructor
  · rintro (⟨d, below, isSet⟩ | ⟨d, below, isSet⟩)
    · exact ⟨d, by omega, isSet⟩
    · exact ⟨reach + d, by omega, by rwa [← Nat.add_assoc, Nat.add_comm i reach]⟩
  · rintro ⟨d, below, isSet⟩
    by_cases near : d < reach
    · exact Or.inl ⟨d, near, isSet⟩
    · refine Or.inr ⟨d - reach, by omega, ?_⟩
      have same : reach + i + (d - reach) = i + d := by omega
      rw [same]
      exact isSet

/-- The five shifts of `roundup_powerof2` copy every set bit to all lower
places. -/
theorem getLsbD_smear (w : BitVec 32) (i : Nat) :
    let v := w ||| w >>> 1
    let v := v ||| v >>> 2
    let v := v ||| v >>> 4
    let v := v ||| v >>> 8
    let v := v ||| v >>> 16
    v.getLsbD i = true ↔ ∃ d < 32, w.getLsbD (i + d) = true := by
  have start : ∀ j, w.getLsbD j = true ↔ ∃ d < 1, w.getLsbD (j + d) = true := by
    intro j
    constructor
    · exact fun isSet => ⟨0, by decide, isSet⟩
    · rintro ⟨d, below, isSet⟩
      obtain rfl : d = 0 := by omega
      exact isSet
  exact getLsbD_or_shift (getLsbD_or_shift (getLsbD_or_shift (getLsbD_or_shift
    (getLsbD_or_shift start)))) i

/-- All places below the highest set bit, which is place `k - 1`, are filled. -/
theorem toNat_smear {w : BitVec 32} {k : Nat} (below : w.toNat < 2 ^ k)
    (above : ∀ i < k, 2 ^ i ≤ w.toNat) :
    let v := w ||| w >>> 1
    let v := v ||| v >>> 2
    let v := v ||| v >>> 4
    let v := v ||| v >>> 8
    let v := v ||| v >>> 16
    v.toNat = 2 ^ k - 1 := by
  have bits := getLsbD_smear w
  intro s₁ s₂ s₄ s₈ s₁₆
  apply Nat.eq_of_testBit_eq
  intro i
  rw [Nat.testBit_two_pow_sub_one, BitVec.testBit_toNat]
  by_cases low : i < k
  · obtain ⟨top, atLeast, isTop⟩ := Nat.exists_ge_and_testBit_of_ge_two_pow (above i low)
    have inside : top < 32 := BitVec.lt_of_getLsbD isTop
    have isSet : s₁₆.getLsbD i = true := by
      refine (bits i).mpr ⟨top - i, by omega, ?_⟩
      rw [Nat.add_sub_cancel' atLeast]
      exact isTop
    simp [low, isSet]
  · have unset : ¬ s₁₆.getLsbD i = true := by
      intro isSet
      obtain ⟨d, -, isHigh⟩ := (bits i).mp isSet
      have small : w.toNat < 2 ^ (i + d) :=
        lt_of_lt_of_le below (Nat.pow_le_pow_right (by decide) (by omega))
      rw [← BitVec.testBit_toNat, Nat.testBit_lt_two_pow small] at isHigh
      cases isHigh
    simp [low, unset]

theorem toNat_roundupPowerof2 {v : BitVec 32} (positive : 0 < v.toNat) :
    (roundupPowerof2 v).toNat = 2 ^ Nat.clog 2 v.toNat % 2 ^ 32 := by
  have predecessor : (v - 1#32).toNat = v.toNat - 1 := by
    rw [BitVec.toNat_sub]
    simp only [BitVec.toNat_ofNat]
    omega
  have below : (v - 1#32).toNat < 2 ^ Nat.clog 2 v.toNat := by
    have covered := Nat.le_pow_clog Nat.one_lt_two v.toNat
    omega
  have above : ∀ i < Nat.clog 2 v.toNat, 2 ^ i ≤ (v - 1#32).toNat := by
    intro i low
    have under := (Nat.lt_clog_iff_pow_lt Nat.one_lt_two).mp low
    omega
  have filled := toNat_smear below above
  have some := Nat.two_pow_pos (Nat.clog 2 v.toNat)
  unfold roundupPowerof2
  extract_lets at filled ⊢
  rw [BitVec.toNat_add, filled, BitVec.toNat_ofNat, Nat.add_mod_mod, Nat.sub_add_cancel some]

theorem lowestOrd_ge {v : BitVec 32} {bound : Nat} (clear : ∀ i < bound, v.getLsbD i = false) :
    ∀ remaining ord : Nat, bound ≤ ord + remaining → bound ≤ lowestOrd v remaining ord
  | 0, ord, enough => enough
  | remaining + 1, ord, enough => by
      unfold lowestOrd
      by_cases unset : v.getLsbD ord = false
      · have zero : v &&& 1#32 <<< ord = 0#32 := by
          rw [← BitVec.twoPow_eq, BitVec.and_twoPow, unset]
          rfl
        rw [if_neg (not_not.mpr zero)]
        exact lowestOrd_ge clear remaining (ord + 1) (by omega)
      · have beyond : bound ≤ ord := by
          by_contra inside
          exact unset (clear ord (by omega))
        split
        · exact beyond
        · exact lowestOrd_ge clear remaining (ord + 1) (by omega)

theorem lowestOrd_le {v : BitVec 32} {found : Nat} (isSet : v.getLsbD found = true) :
    ∀ remaining ord : Nat, ord ≤ found → lowestOrd v remaining ord ≤ max found ord
  | 0, ord, _ => le_max_right _ _
  | remaining + 1, ord, atMost => by
      unfold lowestOrd
      split
      · exact le_max_right _ _
      · rename_i unset
        have later : ord ≠ found := by
          rintro rfl
          apply unset
          rw [← BitVec.twoPow_eq, BitVec.and_twoPow, isSet, if_pos rfl]
          intro zero
          have sameBit := congrArg (fun word => word.getLsbD ord) zero
          simp [BitVec.lt_of_getLsbD isSet] at sameBit
        have rest := lowestOrd_le isSet remaining (ord + 1) (by omega)
        omega

/-- The order of a size: the first whose blocks are large enough. -/
theorem buddyGetOrder_eq {v : BitVec 32} (positive : 0 < v.toNat) :
    buddyGetOrder v = if v.toNat ≤ 2 ^ maxOrd then .ok (max minOrd (Nat.clog 2 v.toNat))
      else .error (.panic "buddy_get_order: order too big!") := by
  have rounded := toNat_roundupPowerof2 positive
  have atLeast : Nat.clog 2 v.toNat ≤ lowestOrd (roundupPowerof2 v) 32 0 := by
    apply lowestOrd_ge
    · intro i low
      rw [← BitVec.testBit_toNat, rounded, Nat.testBit_mod_two_pow, Nat.testBit_two_pow]
      simp [Nat.ne_of_gt low]
    · rw [Nat.zero_add, Nat.clog_le_iff_le_pow Nat.one_lt_two]
      exact v.isLt.le
  unfold buddyGetOrder
  by_cases fits : v.toNat ≤ 2 ^ maxOrd
  · have small := (Nat.clog_le_iff_le_pow Nat.one_lt_two).mpr fits
    have isSet : (roundupPowerof2 v).getLsbD (Nat.clog 2 v.toNat) = true := by
      rw [← BitVec.testBit_toNat, rounded, Nat.testBit_mod_two_pow, Nat.testBit_two_pow]
      unfold maxOrd at small
      simp only [decide_true, Bool.and_true, decide_eq_true_eq]
      omega
    have atMost := lowestOrd_le isSet 32 0 (Nat.zero_le _)
    have found : lowestOrd (roundupPowerof2 v) 32 0 = Nat.clog 2 v.toNat := by omega
    rw [found, if_pos fits]
    by_cases tiny : Nat.clog 2 v.toNat < minOrd
    · rw [if_pos tiny, max_eq_left tiny.le]
    · rw [if_neg tiny, if_neg (by omega), max_eq_right (Nat.le_of_not_lt tiny)]
  · have large : maxOrd < Nat.clog 2 v.toNat := by
      rw [Nat.lt_clog_iff_pow_lt Nat.one_lt_two]
      exact Nat.lt_of_not_le fits
    rw [if_neg fits, if_neg (by unfold minOrd; unfold maxOrd at large; omega), if_pos (by omega)]

theorem buddyGetOrder_high {v : BitVec 32} (high : 4096 < v.toNat) :
    buddyGetOrder v = .error (.panic "buddy_get_order: order too big!") := by
  rw [buddyGetOrder_eq (by omega)]
  exact if_neg (Nat.not_le_of_lt high)

/-- A size whose sum with the header wraps to zero has no order either. -/
theorem buddyGetOrder_zero :
    buddyGetOrder 0#32 = .error (.panic "buddy_get_order: order too big!") := by
  decide

theorem buddyGetOrder_low {v : BitVec 32} (positive : 0 < v.toNat) (low : v.toNat ≤ 4096) :
    ∃ order ≤ maxOrd, buddyGetOrder v = .ok order := by
  refine ⟨max minOrd (Nat.clog 2 v.toNat), ?_, ?_⟩
  · rw [max_le_iff, Nat.clog_le_iff_le_pow Nat.one_lt_two]
    exact ⟨by decide, low⟩
  · rw [buddyGetOrder_eq positive]
    exact if_pos low

/-! ## Termination -/

/-- With the header added, an order is a size that has an order again. -/
theorem kmalloc_order_diverges {st : Kernel} (buddy : st.currentAllocator = .buddy) :
    ∀ (fuel size : Nat), 0 < (size + 5) % 2 ^ 32 → (size + 5) % 2 ^ 32 ≤ 4096 →
      kmalloc fuel st size = .error .depth
  | 0, _, _, _ => rfl
  | fuel + 1, size, positive, low => by
      have word : (BitVec.ofNat 32 (size + 4 + 1)).toNat = (size + 5) % 2 ^ 32 :=
        BitVec.toNat_ofNat _ _
      obtain ⟨order, small, isOrder⟩ := buddyGetOrder_low (by rw [word]; exact positive)
        (by rw [word]; exact low)
      have again := kmalloc_order_diverges buddy fuel order (by unfold maxOrd at small; omega)
        (by unfold maxOrd at small; omega)
      unfold kmalloc buddyKmalloc2
      rw [if_neg (by simp [buddy, AllocatorId.isDyn]), isOrder]
      simp only [bind, Except.bind, again]

theorem kmalloc_high_panics {st : Kernel} (buddy : st.currentAllocator = .buddy) {size : Nat}
    (high : (size + 5) % 2 ^ 32 = 0 ∨ 4096 < (size + 5) % 2 ^ 32) (fuel : Nat) :
    kmalloc (fuel + 1) st size = .error (.panic "buddy_get_order: order too big!") := by
  have noOrder : buddyGetOrder (BitVec.ofNat 32 (size + 4 + 1)) =
      .error (.panic "buddy_get_order: order too big!") := by
    rcases high with zero | large
    · have word : BitVec.ofNat 32 (size + 4 + 1) = 0#32 := by
        apply BitVec.eq_of_toNat_eq
        simpa using zero
      rw [word]
      exact buddyGetOrder_zero
    · exact buddyGetOrder_high (by simpa using large)
  unfold kmalloc buddyKmalloc2
  rw [if_neg (by simp [buddy, AllocatorId.isDyn]), noOrder]
  rfl

/-- With the buddy allocator current, a sized allocation keeps its promise
exactly for the sizes that are too large, for which it panics: for every other
size `kmalloc` calls itself without end. -/
theorem sizedCallOk_iff {st : Kernel} (buddy : st.currentAllocator = .buddy) {size : Nat}
    (word : size < 2 ^ 32) : SizedCallOk st size ↔ 4092 ≤ size ∧ size + 5 ≤ 2 ^ 32 := by
  constructor
  · rintro ⟨fuel, returns, -⟩
    by_contra small
    exact returns (kmalloc_order_diverges buddy fuel size (by omega) (by omega))
  · intro large
    have panics := kmalloc_high_panics buddy (show (size + 5) % 2 ^ 32 = 0 ∨ _ by omega) 0
    refine ⟨1, by rw [panics]; simp, fun p after returns => ?_⟩
    rw [panics] at returns
    simp at returns

/-- The kernel after `initmem` in `main`. -/
def mainKernel : Kernel where
  currentAllocator := .buddy
  buddy := ⟨mainHeap, []⟩
  headers := fun _ => 0

theorem sizedCallOk_page : 4096 < 2 ^ 32 ∧ SizedCallOk mainKernel 4096 :=
  ⟨by decide, (sizedCallOk_iff rfl (by decide)).mpr (by decide)⟩

/-- `new char` never returns. -/
theorem one_byte_never_returns :
    mainKernel.currentAllocator = .buddy ∧ mainKernel.buddy.kmem.initialized = true ∧
      ¬ SizedCallOk mainKernel 1 := by
  refine ⟨rfl, rfl, ?_⟩
  rintro ⟨fuel, returns, -⟩
  exact returns (kmalloc_order_diverges rfl fuel 1 (by decide) (by decide))

end Rexv6.Buddy
