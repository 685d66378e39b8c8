import Rexv6.Umalloc.Invariant
import Rexv6.Vm.Process

/-!
Contract: which requests `malloc` serves in the arithmetic of the machine.

Owns: `sbrk` as `growproc` answers it, with its signed argument and the sizes that
`allocuvm` and `deallocuvm` return, which are those that the functions over page tables
return; `morecore` and `malloc` over it, with the store to the
header of new memory; that they agree with the allocator over a growing `sbrk` as long as
nothing wraps; and the requests for which they do.

Does not own: the pages behind the sizes (`Rexv6.Vm`). Whether there are enough of them for
a growth is a parameter.
-/

namespace Rexv6.Umalloc

open Function (update)
open Rexv6.Foundation.Program (Meets meets_true)
open Rexv6.Vm (kernBase)

/-! ## The size of the process -/

def allocuvm (oldsz newsz : Nat) (enough : Bool) : Nat :=
  if kernBase ≤ newsz then 0
  else if newsz < oldsz then oldsz
  else if enough = true then newsz
  else 0

def deallocuvm (oldsz newsz : Nat) : Nat := if oldsz ≤ newsz then oldsz else newsz

/-- `growproc`: the new size, or nothing for -1. The argument is a 32-bit word, negative from
`2 ^ 31` on. -/
def growproc (sz n : Nat) (enough : Bool) : Option Nat :=
  if 0 < n ∧ n < 2 ^ 31 then
    let sz := allocuvm sz ((sz + n) % 2 ^ 32) enough
    if sz = 0 then none else some sz
  else if 2 ^ 31 ≤ n then
    let sz := deallocuvm sz ((sz + n) % 2 ^ 32)
    if sz = 0 then none else some sz
  else some sz

/-- Where the loop of `allocuvm` ends, all pages were there or one was not. -/
theorem allocLoop_returns (pgdir oldsz newsz turns a : Nat) (m : Vm.Machine) :
    Meets (Vm.allocLoop pgdir oldsz newsz turns a) m
      (fun sz _ => ∃ enough, sz = if enough = true then newsz else 0) fun _ => True := by
  induction turns generalizing a m with
  | zero => trivial
  | succ turns ih =>
    rw [Vm.allocLoop]
    by_cases isBelow : a < newsz
    · rw [if_pos isBelow]
      refine meets_true.bind fun mem m _ => ?_
      by_cases isNull : mem = 0
      · rw [if_pos isNull]
        exact meets_true.bind fun _ _ _ => ⟨false, rfl⟩
      · rw [if_neg isNull]
        refine meets_true.bind fun _ m _ => meets_true.bind fun mapped m _ => ?_
        cases mapped with
        | true => exact ih _ m
        | false => exact meets_true.bind fun _ _ _ => meets_true.bind fun _ _ _ => ⟨false, rfl⟩
    · rw [if_neg isBelow]
      exact ⟨true, rfl⟩

theorem allocuvm_returns (pgdir oldsz newsz : Nat) (m : Vm.Machine) :
    Meets (Vm.allocuvm pgdir oldsz newsz) m
      (fun sz _ => ∃ enough, sz = allocuvm oldsz newsz enough) fun _ => True := by
  unfold Vm.allocuvm allocuvm
  split
  · exact ⟨true, rfl⟩
  · split
    · exact ⟨true, rfl⟩
    · exact allocLoop_returns _ _ _ _ _ _

theorem deallocuvm_returns (pgdir oldsz newsz : Nat) (m : Vm.Machine) :
    Meets (Vm.deallocuvm pgdir oldsz newsz) m (fun sz _ => sz = deallocuvm oldsz newsz)
      fun _ => True := by
  unfold Vm.deallocuvm deallocuvm
  split
  · rfl
  · exact meets_true.bind fun _ _ _ => rfl

/-- What `growproc` over page tables returns, from any machine. -/
theorem growproc_returns (p : Vm.Proc) (n : BitVec 32) (m : Vm.Machine) :
    Meets (Vm.growproc p n) m (fun sz _ => ∃ enough, sz = growproc p.sz n.toNat enough)
      fun _ => True := by
  have isInt := n.toInt_eq_toNat_cond
  have grows : 0 < n.toInt ↔ 0 < n.toNat ∧ n.toNat < 2 ^ 31 := by omega
  have shrinks : n.toInt < 0 ↔ 2 ^ 31 ≤ n.toNat := by omega
  unfold Vm.growproc growproc
  simp only [grows, shrinks]
  split
  · refine (allocuvm_returns p.pgdir p.sz _ m).bind fun sz _ isSize => ?_
    obtain ⟨enough, rfl⟩ := isSize
    refine Meets.mono ?_ fun result _ isResult => ⟨enough, isResult⟩
    split <;> rfl
  · split
    · refine (deallocuvm_returns p.pgdir p.sz _ m).bind fun sz _ isSize => ?_
      refine Meets.mono ?_ fun result _ isResult => ⟨true, isResult⟩
      rw [isSize]
      split <;> rfl
    · exact ⟨true, rfl⟩

/-- A loop that does not end, or a store above the memory of the process. -/
inductive Failure where
  | hangs
  | outside
deriving DecidableEq, Repr

namespace Heap

/-- `morecore`, with `nu * sizeof(Header)` as a 32-bit word. -/
def morecoreWord (heap : Heap) (nu : Nat) (enough : Bool) : Except Failure (Heap × Bool) :=
  match growproc heap.brk (units nu * headerSize % 2 ^ 32) enough with
  | none => .ok (heap, false)
  | some sz =>
    let hp := heap.brk
    -- the store to `hp->s.size`
    if hp + headerSize ≤ sz then
      match { heap with brk := sz, size := update heap.size hp (units nu) }.free
          (hp + headerSize) with
      | none => .error .hangs
      | some heap => .ok (heap, true)
    else .error .outside

def searchWord (nunits : Nat) (enough : Nat → Bool) : Nat → Heap → Except Failure (Heap × Nat)
  | 0, _ => .error .hangs
  | rounds + 1, heap =>
    match heap.scan nunits (heap.brk + 2) heap.freep with
    | none => .error .hangs
    | some (some (prevp, p)) => .ok (heap.take nunits prevp p)
    | some none =>
      match heap.morecoreWord nunits (enough heap.brk) with
      | .error failure => .error failure
      | .ok (heap, false) => .ok (heap, 0)
      | .ok (heap, true) => searchWord nunits enough rounds heap

/-- `malloc`. `enough` says for which growths there are pages, by the size before. -/
def mallocWord (base : Nat) (heap : Heap) (nbytes : Nat) (enough : Nat → Bool) :
    Except Failure (Heap × Nat) :=
  searchWord (nunits nbytes) enough 2
    (if heap.freep = 0 then
      { heap with
        ptr := update heap.ptr base base
        size := update heap.size base 0
        freep := base }
    else heap)

/-- The growths for which there are pages and room below the kernel. -/
def fits (nu : Nat) (enough : Nat → Bool) (brk : Nat) : Bool :=
  enough brk && decide (brk + units nu * headerSize < kernBase)

/-- A result of the model that cannot store outside. -/
def lifted {α : Type} : Option α → Except Failure α
  | none => .error .hangs
  | some value => .ok value

/-! ## Requests that do not wrap -/

theorem growproc_grows {brk n : Nat} (enough : Bool) (positive : 0 < n) (isSmall : n < 2 ^ 31)
    (isUser : brk ≤ kernBase) :
    growproc brk n enough =
      if (enough && decide (brk + n < kernBase)) = true then some (brk + n) else none := by
  have exact : (brk + n) % 2 ^ 32 = brk + n := by
    unfold kernBase at isUser
    omega
  rw [growproc, if_pos ⟨positive, isSmall⟩, exact, allocuvm]
  by_cases isAbove : kernBase ≤ brk + n
  · have notBelow : ¬ brk + n < kernBase := by omega
    simp [isAbove, notBelow]
  · have isBelow : brk + n < kernBase := by omega
    have notLess : ¬ brk + n < brk := by omega
    have notZero : ¬ brk + n = 0 := by omega
    cases enough with
    | false => simp [isAbove, notLess]
    | true =>
      rw [if_neg isAbove, if_neg notLess, if_pos rfl]
      simp only [if_neg notZero, isBelow, decide_true, Bool.and_self, if_true]

theorem free_brk {heap heap' : Heap} {ap : Nat} (freed : heap.free ap = some heap') :
    heap'.brk = heap.brk := by
  obtain ⟨p, -, isHeap⟩ := Option.bind_eq_some_iff.mp freed
  cases isHeap
  simp only [joinPrev, joinNext]
  split_ifs <;> rfl

theorem morecore_brk {heap heap' : Heap} {nu : Nat} {granted : Bool}
    (grown : heap.morecore nu granted = some (heap', true)) :
    granted = true ∧ heap'.brk = heap.brk + units nu * headerSize := by
  cases granted with
  | false => cases grown
  | true =>
    obtain ⟨freed, isFreed, isHeap⟩ := Option.bind_eq_some_iff.mp grown
    cases isHeap
    exact ⟨rfl, free_brk isFreed⟩

theorem morecoreWord_eq {heap : Heap} {nu : Nat} {enough : Nat → Bool}
    (isSmall : units nu * headerSize < 2 ^ 31) (isUser : heap.brk ≤ kernBase) :
    heap.morecoreWord nu (enough heap.brk) =
      lifted (heap.morecore nu (fits nu enough heap.brk)) := by
  have exact : units nu * headerSize % 2 ^ 32 = units nu * headerSize := by omega
  have positive : 0 < units nu * headerSize := by
    unfold units headerSize
    split <;> omega
  have grows : growproc heap.brk (units nu * headerSize) (enough heap.brk) =
      if fits nu enough heap.brk = true then some (heap.brk + units nu * headerSize) else none :=
    growproc_grows (enough heap.brk) positive isSmall isUser
  rw [morecoreWord, exact, grows]
  unfold morecore sbrk
  cases fits nu enough heap.brk with
  | false => rfl
  | true =>
    have owned : heap.brk + headerSize ≤ heap.brk + units nu * headerSize := by
      have isOne : 1 ≤ units nu := by
        unfold units
        split <;> omega
      have scaled := Nat.mul_le_mul_right headerSize isOne
      omega
    simp only [if_true, if_pos owned]
    cases Heap.free { heap with
        brk := heap.brk + units nu * headerSize
        size := update heap.size heap.brk (units nu) } (heap.brk + headerSize) with
    | none => rfl
    | some after => rfl

/-- As long as no size wraps, the loop runs as over an `sbrk` that grows the heap. -/
theorem searchWord_eq {nunits : Nat} {enough : Nat → Bool}
    (isSmall : units nunits * headerSize < 2 ^ 31) (rounds : Nat) {heap : Heap}
    (isUser : heap.brk ≤ kernBase) :
    searchWord nunits enough rounds heap =
      lifted (search nunits (fits nunits enough) rounds heap) := by
  induction rounds generalizing heap with
  | zero => rfl
  | succ rounds ih =>
    rw [searchWord, search]
    cases heap.scan nunits (heap.brk + 2) heap.freep with
    | none => rfl
    | some found =>
      cases found with
      | some pair => rfl
      | none =>
        simp only [morecoreWord_eq isSmall isUser, Option.bind_eq_bind, Option.bind_some]
        cases isMore : heap.morecore nunits (fits nunits enough heap.brk) with
        | none => rfl
        | some more =>
          obtain ⟨after, hasGrown⟩ := more
          cases hasGrown with
          | false => rfl
          | true =>
            obtain ⟨granted, isBrk⟩ := morecore_brk isMore
            refine ih ?_
            simp only [fits, Bool.and_eq_true, decide_eq_true_eq] at granted
            omega

theorem mallocWord_eq {base nbytes : Nat} {heap : Heap} {enough : Nat → Bool}
    (isSmall : units (nunits nbytes) * headerSize < 2 ^ 31) (isUser : heap.brk ≤ kernBase) :
    heap.mallocWord base nbytes enough =
      lifted (heap.malloc base nbytes (fits (nunits nbytes) enough)) := by
  refine searchWord_eq isSmall 2 ?_
  split
  · exact isUser
  · exact isUser

end Heap

/-! ## The requests that are served -/

/-- `malloc(nbytes)` on any heap in order returns 0, or a new live block with `nbytes` bytes
behind its header, inside the memory of the process. -/
def Serves (nbytes : Nat) : Prop :=
  ∀ base lo heap blocks enough, 0 < base → base + headerSize ≤ lo →
    Blocks base lo heap blocks → heap.brk ≤ kernBase →
      ∃ after ap blocks' k, heap.mallocWord base nbytes enough = .ok (after, ap) ∧
        Tiled base lo after blocks' ∧ Given lo k blocks ap blocks' ∧
        (ap = 0 ∨ nbytes + headerSize ≤ headerSize * k ∧ ap + nbytes ≤ after.brk)

theorem serves_small {nbytes : Nat} (isSmall : nbytes ≤ 2 ^ 31 - 16) : Serves nbytes := by
  intro base lo heap blocks enough positive below isBlocks isUser
  have room : nbytes + headerSize ≤ headerSize * Heap.nunits nbytes := by
    refine nunits_bounds ?_
    unfold headerSize
    omega
  have unwrapped : Heap.units (Heap.nunits nbytes) * headerSize < 2 ^ 31 := by
    unfold Heap.units Heap.nunits headerSize
    split <;> omega
  obtain ⟨after, ap, blocks', isGiven, tiled, given⟩ :=
    isBlocks.malloc below positive nbytes (Heap.fits (Heap.nunits nbytes) enough)
  refine ⟨after, ap, blocks', Heap.nunits nbytes, ?_, tiled, given, ?_⟩
  · rw [Heap.mallocWord_eq unwrapped isUser, isGiven]
    rfl
  · rcases given with ⟨isNull, -⟩ | ⟨a, front, back, isAddress, -, isLives⟩
    · exact Or.inl isNull
    · have isLive : (a, ⟨Heap.nunits nbytes, false⟩) ∈ lives lo blocks' := by
        rw [isLives]
        exact List.mem_append_right _ List.mem_cons_self
      obtain ⟨-, inside, -⟩ := places_bounds (mem_lives.mp isLive).1
      rw [tiled.brk] at inside
      refine Or.inr ⟨room, ?_⟩
      simp only at inside
      omega

/-- A process that has not called `malloc` yet, with its memory up to `lo`. -/
def untouched (lo : Nat) : Heap := ⟨fun _ => 0, fun _ => 0, 0, lo⟩

theorem untouched_blocks (base lo : Nat) : Blocks base lo (untouched lo) [] :=
  Or.inr ⟨rfl, rfl, rfl⟩

/-- A request of less than the size of a header below `2 ^ 32` becomes one for no bytes. -/
theorem nunits_wraps {nbytes : Nat} (word : nbytes < 2 ^ 32) (isHuge : 2 ^ 32 - 7 ≤ nbytes) :
    Heap.nunits nbytes = 1 := by
  unfold Heap.nunits headerSize
  omega

theorem not_serves_wrapped {nbytes : Nat} (word : nbytes < 2 ^ 32)
    (isHuge : 2 ^ 32 - 7 ≤ nbytes) : ¬ Serves nbytes := by
  intro serves
  obtain ⟨after, ap, blocks', k, isGiven, -, -, isServed⟩ := serves 4096 8192 (untouched 8192) []
    (fun _ => true) (by decide) (by decide) (untouched_blocks 4096 8192) (by decide)
  unfold Heap.mallocWord at isGiven
  rw [nunits_wraps word isHuge] at isGiven
  have outcome := congrArg (fun result => result.toOption.map fun r => (r.1.brk, r.2)) isGiven
  have computed : ((Heap.searchWord 1 (fun _ => true) 2
      (if (untouched 8192).freep = 0 then
        { untouched 8192 with
          ptr := update (untouched 8192).ptr 4096 4096
          size := update (untouched 8192).size 4096 0
          freep := 4096 }
      else untouched 8192)).toOption.map fun r => (r.1.brk, r.2)) = some (40960, 40960) := by
    decide +kernel
  have same : some (40960, 40960) = some (after.brk, ap) := computed.symm.trans outcome
  obtain ⟨isBrk, isAp⟩ := Prod.mk.inj (Option.some.inj same)
  rcases isServed with isNull | ⟨-, inside⟩
  · omega
  · omega

/-- `sbrk` with an argument that is not positive gives nothing, and reports success, unless
the process would be left without memory. -/
theorem growproc_gives_nothing {lo n : Nat} (enough : Bool) (negative : n = 0 ∨ 2 ^ 31 ≤ n)
    (isWord : n < 2 ^ 32) (positive : 0 < lo) (remains : (lo + n) % 2 ^ 32 ≠ 0) :
    ∃ sz ≤ lo, growproc lo n enough = some sz := by
  have notGrowth : ¬ (0 < n ∧ n < 2 ^ 31) := by omega
  rw [growproc, if_neg notGrowth, deallocuvm]
  by_cases isZero : n = 0
  · have notNegative : ¬ 2 ^ 31 ≤ n := by omega
    exact ⟨lo, le_refl lo, if_neg notNegative⟩
  · have isNegative : 2 ^ 31 ≤ n := by omega
    rw [if_pos isNegative]
    by_cases kept : lo ≤ (lo + n) % 2 ^ 32
    · have notZero : ¬ lo = 0 := by omega
      refine ⟨lo, le_refl lo, ?_⟩
      simp only [if_pos kept, if_neg notZero]
    · refine ⟨(lo + n) % 2 ^ 32, by omega, ?_⟩
      simp only [if_neg kept, if_neg remains]

/-- Then `morecore` stores to a header above the memory of the process. -/
theorem mallocWord_outside {base lo nbytes sz : Nat} {enough : Nat → Bool} (isLess : sz ≤ lo)
    (given : growproc lo (Heap.units (Heap.nunits nbytes) * headerSize % 2 ^ 32) (enough lo) =
      some sz) : (untouched lo).mallocWord base nbytes enough = .error .outside := by
  have isPositive : ¬ Heap.nunits nbytes ≤ 0 := Nat.not_le.mpr (Nat.succ_pos _)
  have above : ¬ lo + headerSize ≤ sz := by
    unfold headerSize
    omega
  obtain ⟨heap, isHeap⟩ : ∃ heap : Heap, heap =
      { untouched lo with
        ptr := update (untouched lo).ptr base base
        size := update (untouched lo).size base 0
        freep := base } := ⟨_, rfl⟩
  have isBrk : heap.brk = lo := by rw [isHeap, untouched]
  have nothing : heap.scan (Heap.nunits nbytes) (heap.brk + 2) heap.freep = some none := by
    have isPtr : heap.ptr base = base := by
      rw [isHeap]
      exact Function.update_self _ _ _
    have isSize : heap.size base = 0 := by
      rw [isHeap]
      exact Function.update_self _ _ _
    have isFreep : heap.freep = base := by rw [isHeap]
    rw [Heap.scan, isFreep, isPtr, isSize, if_neg isPositive, if_pos rfl]
  have stores : heap.morecoreWord (Heap.nunits nbytes) (enough heap.brk) = .error .outside := by
    rw [Heap.morecoreWord, isBrk, given]
    exact if_neg above
  rw [Heap.mallocWord, if_pos (show (untouched lo).freep = 0 from rfl), ← isHeap,
    Heap.searchWord, nothing]
  simp only [stores]

theorem not_serves_negative {nbytes : Nat} (isLarge : 2 ^ 31 - 15 ≤ nbytes)
    (isWord : nbytes < 2 ^ 32 - 7) : ¬ Serves nbytes := by
  intro serves
  obtain ⟨n, isArgument⟩ :
      ∃ n, Heap.units (Heap.nunits nbytes) * headerSize % 2 ^ 32 = n := ⟨_, rfl⟩
  have negative : n = 0 ∨ 2 ^ 31 ≤ n := by
    unfold Heap.units Heap.nunits headerSize at isArgument
    split at isArgument <;> omega
  -- one of two sizes of the process is not the one that would leave it without memory
  obtain ⟨lo, isRoom, isUser, remains⟩ : ∃ lo, 4096 + headerSize ≤ lo ∧ lo ≤ kernBase ∧
      (lo + n) % 2 ^ 32 ≠ 0 := by
    by_cases remains : (8192 + n) % 2 ^ 32 = 0
    · exact ⟨12288, by decide, by decide, by omega⟩
    · exact ⟨8192, by decide, by decide, remains⟩
  have positive : 0 < lo := by omega
  obtain ⟨sz, isLess, given⟩ := growproc_gives_nothing true negative
    (isArgument ▸ Nat.mod_lt _ (by decide)) positive remains
  rw [← isArgument] at given
  have fails : (untouched lo).mallocWord 4096 nbytes (fun _ => true) = .error .outside :=
    mallocWord_outside isLess given
  obtain ⟨after, ap, blocks', k, isGiven, -⟩ := serves 4096 lo (untouched lo) [] (fun _ => true)
    (by decide) isRoom (untouched_blocks 4096 lo) isUser
  rw [fails] at isGiven
  cases isGiven

/-- `malloc` serves a request, on every heap and whatever `sbrk` answers, exactly if the units
it asks for are a positive `int` of bytes. -/
theorem malloc_serves_iff {nbytes : Nat} (word : nbytes < 2 ^ 32) :
    Serves nbytes ↔ nbytes ≤ 2 ^ 31 - 16 := by
  constructor
  · intro serves
    by_contra isLarge
    by_cases isHuge : 2 ^ 32 - 7 ≤ nbytes
    · exact not_serves_wrapped word isHuge serves
    · exact not_serves_negative (by omega) (by omega) serves
  · exact serves_small

theorem malloc_serves_iff_page : 4096 < 2 ^ 32 ∧ Serves 4096 :=
  ⟨by decide, (malloc_serves_iff (by decide)).mpr (by decide)⟩

/-- The first `malloc(0xffffffff)` of a process returns a pointer to the end of its memory, and
the first `malloc(0x80000000)` stores above it. -/
theorem malloc_underallocates :
    ((untouched 8192).mallocWord 4096 0xffffffff fun _ => true).toOption.map
        (fun r => (r.1.brk, r.2)) = some (40960, 40960) ∧
      (untouched 8192).mallocWord 4096 0x80000000 (fun _ => true) = .error .outside :=
  ⟨by decide +kernel, mallocWord_outside (le_refl 8192) (by decide +kernel)⟩

end Rexv6.Umalloc
