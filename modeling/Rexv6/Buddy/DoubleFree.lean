import Rexv6.Buddy.Coalescing

/-!
Contract: when a second `buddy_kmfree` of a block is noticed.

Owns: blocks that have been freed and not handed out again, and the state of the
allocator in which freeing such a block once more panics. The check of
`__internal_kfree` reads the block's own bit, which merging clears.

Does not own: frees of addresses that were never handed out.
-/

namespace Rexv6.Buddy

open Rexv6.Foundation
open Rexv6.Foundation.Execution (Along)
open Rexv6.Foundation.Dyadic (Packed Covered)

/-! ## Blocks at rest -/

def System.handsOut (s : System) : Call → Option Block
  | .kmalloc order =>
    match s.kmem.buddyKmalloc order with
    | .ok (mem, _) => if mem = 0 then none else some ⟨mem, order⟩
    | .error _ => none
  | .kmfree _ _ => none

def System.Spares (block : Block) (s : System) (call : Call) : Prop :=
  ∀ other ∈ s.handsOut call, ∀ address, block.contains address = true →
    ¬ other.contains address = true

def System.Rests (s : System) (block : Block) : Prop :=
  ∀ address, block.contains address = true → ¬ s.Live address

/-- The other half of the block that `__internal_kfree` would merge `block` into. -/
def Kmem.buddy (k : Kmem) (block : Block) : Block :=
  ⟨k.blkid2mem block.order (k.mem2blkid block.order block.mem ^^^ 1), block.order⟩

section Resting

variable {s t : System} {block : Block}

theorem step_live {call : Call} (stepped : s.step call = .ok t) :
    ∀ other ∈ t.live, other ∈ s.live ∨ other ∈ s.handsOut call := by
  intro other member
  cases call with
  | kmalloc order =>
    simp only [System.step] at stepped
    cases got : s.kmem.buddyKmalloc order with
    | error halt =>
      rw [got] at stepped
      cases stepped
    | ok result =>
      rw [got] at stepped
      simp only [Except.ok.injEq] at stepped
      subst stepped
      simp only [System.handsOut, got]
      by_cases null : result.1 = 0
      · simp only [null, if_true] at member
        exact Or.inl member
      · simp only [null, if_false, List.mem_cons] at member
        simp only [null, if_false, Option.mem_def, Option.some.injEq]
        cases member with
        | inl new => exact Or.inr new.symm
        | inr old => exact Or.inl old
  | kmfree mem order =>
    obtain ⟨kmem, -, rfl⟩ := System.step_kmfree stepped
    exact Or.inl (List.mem_of_mem_erase member)

theorem System.Rests.step {call : Call} (rests : s.Rests block) (spares : s.Spares block call)
    (stepped : s.step call = .ok t) : t.Rests block := by
  intro address inBlock live
  obtain ⟨other, member, holds⟩ := live
  cases step_live stepped other member with
  | inl old => exact rests address inBlock ⟨other, old, holds⟩
  | inr new => exact spares other new address inBlock holds

/-- A block no byte of which is handed out stays at rest. -/
theorem System.Rests.run {calls : List Call} (rests : s.Rests block)
    (spares : Along System.step (System.Spares block) s calls) (run : s.run calls = .ok t) :
    t.Rests block :=
  Execution.foldlM_invariant (System.Spares block) (System.Rests · block)
    (fun _ _ _ spared before stepped => before.step spared stepped) calls spares rests run

theorem Kmem.Holds.offset {n : Nat} {k : Kmem} (heap : Heap n k) (holds : k.Holds block)
    {address : Nat} (inBlock : block.contains address = true) :
    ∃ x < k.heapSize, address = k.startHeap + x := by
  obtain ⟨low, high⟩ := holds.bounds heap
  simp only [Block.contains, decide_eq_true_eq] at inBlock
  refine ⟨address - k.startHeap, ?_, by omega⟩
  unfold Kmem.heapSize
  omega

theorem Conserved.rests {mem order : Nat} (conserved : Conserved s)
    (live : ⟨mem, order⟩ ∈ s.live) (stepped : s.step (.kmfree mem order) = .ok t) :
    t.Rests ⟨mem, order⟩ := by
  intro address inBlock stillLive
  obtain ⟨x, below, rfl⟩ :=
    (conserved.held _ live).offset conserved.sound.heap inBlock
  obtain ⟨kmem, -, rfl⟩ := System.step_kmfree stepped
  have once := conserved.once x below
  have rest : 0 < (s.live.erase ⟨mem, order⟩).countP (·.contains (s.kmem.startHeap + x)) :=
    List.countP_pos_iff.mpr stillLive
  rw [List.countP_erase, if_pos ⟨live, inBlock⟩] at rest
  omega

end Resting

/-! ## The second free -/

section Twice

variable {s : System} {order blkId : Nat}

end Twice

end Rexv6.Buddy
