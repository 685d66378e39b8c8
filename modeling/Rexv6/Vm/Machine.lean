import Mathlib.Logic.Function.Basic
import Rexv6.Foundation.LittleEndian
import Rexv6.Foundation.Ledger
import Rexv6.Foundation.Program

/-!
Contract: the page tables of `kern/mm/vm.c` over the page allocator behind
`kalloc` and `kfree`.

Owns: physical memory as bytes of pages, the counters of pages handed out and
taken back, and the functions of `vm.c` that build, grow, shrink, copy and free
an address space.

Does not own: which page `kalloc` returns. The machine carries the answers the
allocator will give; an answer that is no page of the pool, or a page that is
still handed out, stands for a failed call.

A kernel pointer to a page is represented by the number of the physical page
it points to, which `P2V` maps one to one to kernel addresses.
-/

namespace Rexv6.Vm

open Rexv6.Foundation
open Rexv6.Foundation.LittleEndian (Bytes getLe setLe)
open Rexv6.Foundation.Ledger (bump)

/-! ## Constants of `mmu.h` and `memlayout.h` -/

def pgSize : Nat := 4096

def extMem : Nat := 0x100000

def physTop : Nat := 0xE000000

def devSpace : Nat := 0xFE000000

def kernBase : Nat := 0x80000000

def kernLink : Nat := kernBase + extMem

def v2p (a : Nat) : Nat := a - kernBase

def p2v (a : Nat) : Nat := a + kernBase

def pdx (va : Nat) : Nat := va / 2 ^ 22 % 1024

def ptx (va : Nat) : Nat := va / 2 ^ 12 % 1024

/-- `PGADDR`: construct virtual address from indexes and offset. -/
def pgAddr (d t o : Nat) : Nat := (d <<< 22 ||| t <<< 12 ||| o) % 2 ^ 32

def pgRoundUp (sz : Nat) : Nat := (sz + pgSize - 1) % 2 ^ 32 / pgSize * pgSize

def pgRoundDown (a : Nat) : Nat := a / pgSize * pgSize

def pteP : Nat := 0x001

def pteW : Nat := 0x002

def pteU : Nat := 0x004

/-- `PTE_ADDR`: address in page table or page directory entry. -/
def pteAddr (pte : Nat) : Nat := pte / pgSize * pgSize

def pteFlags (pte : Nat) : Nat := pte % pgSize

/-- The flag tests of the source, `*pte & flag`. -/
def has (pte flag : Nat) : Bool := pte &&& flag != 0

/-- The number of pages of a 32-bit address space, a bound on the turns of
every loop over pages. -/
def addressPages : Nat := 2 ^ 20

/-! ## Physical memory and its allocator -/

/-- Why the kernel does not go on: a panic with its message, an access through
a null pointer, or a loop that visits more pages than there are. -/
inductive Stop
  | panic (message : String)
  | fault
  | loop
  deriving DecidableEq, Repr

structure Machine where
  /-- The bytes of every physical page. -/
  bytes : Nat → Bytes
  /-- What the allocator behind `kalloc` answers next. -/
  answers : List Nat
  /-- How often `kalloc` returned a page. -/
  allocs : Nat → Nat
  /-- How often a page was passed to `kfree`. -/
  frees : Nat → Nat

abbrev M := Program Machine Stop

namespace Machine

def word (m : Machine) (page index : Nat) : Nat := getLe (m.bytes page) (4 * index) 4

def setWord (m : Machine) (page index value : Nat) : Machine :=
  { m with bytes := Function.update m.bytes page (setLe (m.bytes page) (4 * index) 4 value) }

def fill (m : Machine) (page : Nat) (content : Bytes) : Machine :=
  { m with bytes := Function.update m.bytes page content }

/-- The allocator can return `page`: it is not physical page 0, lies below
`PHYSTOP` and is not handed out. -/
def Available (m : Machine) (page : Nat) : Prop :=
  0 < page ∧ page < physTop / pgSize ∧ m.allocs page = m.frees page

instance (m : Machine) (page : Nat) : Decidable (m.Available page) := by
  unfold Available
  infer_instance

end Machine

/-- `kalloc`, which returns 0 when it fails. -/
def kalloc : M Nat := do
  let m ← get
  match m.answers with
  | [] => return 0
  | page :: rest =>
    if m.Available page then
      set { m with answers := rest, allocs := bump m.allocs page }
      return page
    else
      set { m with answers := rest }
      return 0

def kfree (page : Nat) : M Unit :=
  modify fun m => { m with frees := bump m.frees page }

def memset (page : Nat) : M Unit :=
  modify fun m => m.fill page fun _ => 0

def memmove (target source : Nat) : M Unit :=
  modify fun m => m.fill target (m.bytes source)

/-- Copy `data` into a page from `offset` on. -/
def store (page offset : Nat) (data : List UInt8) : M Unit :=
  modify fun m => m.fill page fun index =>
    if offset ≤ index then data.getD (index - offset) (m.bytes page index) else m.bytes page index

/-! ## Page tables -/

/-- `walkpgdir`: the page and the index of the PTE in page table `pgdir` that
corresponds to virtual address `va`. -/
def walkpgdir (pgdir va : Nat) (alloc : Bool) : M (Option (Nat × Nat)) := do
  let pde := (← get).word pgdir (pdx va)
  if has pde pteP then
    return some (pteAddr pde / pgSize, ptx va)
  else if alloc then
    let pgtab ← kalloc
    if pgtab = 0 then
      return none
    memset pgtab
    modify fun m => m.setWord pgdir (pdx va) (pgtab * pgSize ||| pteP ||| pteW ||| pteU)
    return some (pgtab, ptx va)
  else
    return none

def mapLoop (pgdir last perm : Nat) : (turns a pa : Nat) → M Bool
  | 0, _, _ => throw .loop
  | turns + 1, a, pa => do
    match ← walkpgdir pgdir a true with
    | none => return false
    | some (page, index) =>
      if has ((← get).word page index) pteP then
        throw (.panic "remap")
      modify fun m => m.setWord page index (pa ||| perm ||| pteP)
      if a = last then
        return true
      else
        mapLoop pgdir last perm turns ((a + pgSize) % 2 ^ 32) ((pa + pgSize) % 2 ^ 32)

/-- `mappages`, which returns false for -1. -/
def mappages (pgdir va size pa perm : Nat) : M Bool :=
  mapLoop pgdir (pgRoundDown ((va + size + (2 ^ 32 - 1)) % 2 ^ 32)) perm addressPages
    (pgRoundDown va) pa

/-! ## User memory -/

/-- The loop of `deallocuvm`. -/
def deallocLoop (pgdir oldsz : Nat) : (turns a : Nat) → M Unit
  | 0, _ => throw .loop
  | turns + 1, a =>
    if a < oldsz then do
      match ← walkpgdir pgdir a false with
      | none =>
        let a := (pgAddr (pdx a + 1) 0 0 + (2 ^ 32 - pgSize)) % 2 ^ 32
        deallocLoop pgdir oldsz turns ((a + pgSize) % 2 ^ 32)
      | some (page, index) =>
        let pte := (← get).word page index
        if has pte pteP then
          let pa := pteAddr pte
          if pa = 0 then
            throw (.panic "kfree")
          kfree (pa / pgSize)
          modify fun m => m.setWord page index 0
        deallocLoop pgdir oldsz turns ((a + pgSize) % 2 ^ 32)
    else
      return ()

def deallocuvm (pgdir oldsz newsz : Nat) : M Nat := do
  if newsz ≥ oldsz then
    return oldsz
  deallocLoop pgdir oldsz addressPages (pgRoundUp newsz)
  return newsz

def allocLoop (pgdir oldsz newsz : Nat) : (turns a : Nat) → M Nat
  | 0, _ => throw .loop
  | turns + 1, a =>
    if a < newsz then do
      let mem ← kalloc
      if mem = 0 then
        let _ ← deallocuvm pgdir newsz oldsz
        return 0
      memset mem
      if ← mappages pgdir a pgSize (mem * pgSize) (pteW ||| pteU) then
        allocLoop pgdir oldsz newsz turns ((a + pgSize) % 2 ^ 32)
      else
        let _ ← deallocuvm pgdir newsz oldsz
        kfree mem
        return 0
    else
      return newsz

def allocuvm (pgdir oldsz newsz : Nat) : M Nat := do
  if newsz ≥ kernBase then
    return 0
  if newsz < oldsz then
    return oldsz
  allocLoop pgdir oldsz newsz addressPages (pgRoundUp oldsz)

/-- The loop of `freevm` over the entries of the page directory. -/
def freeTables (pgdir : Nat) : (left i : Nat) → M Unit
  | 0, _ => return ()
  | left + 1, i => do
    let pde := (← get).word pgdir i
    if has pde pteP then
      kfree (pteAddr pde / pgSize)
    freeTables pgdir left (i + 1)

def freevm (pgdir : Nat) : M Unit := do
  if pgdir = 0 then
    throw (.panic "freevm: no pgdir")
  let _ ← deallocuvm pgdir kernBase 0
  freeTables pgdir 1024 0
  kfree pgdir

/-! ## Address spaces -/

/-- The kernel image: where the linker script puts the symbol `data`, at a page
boundary behind the kernel's text. -/
structure KernelImage where
  data : Nat
  aligned : data % pgSize = 0
  behindText : kernLink < data
  belowTop : data < p2v physTop

structure Kmap where
  virt : Nat
  physStart : Nat
  physEnd : Nat
  perm : Nat

/-- `kmap`: the kernel's mappings, which are present in every process's page
table. -/
def kmap (kernel : KernelImage) : List Kmap :=
  [⟨kernBase, 0, extMem, pteW⟩,
    ⟨kernLink, v2p kernLink, v2p kernel.data, 0⟩,
    ⟨kernel.data, v2p kernel.data, physTop, pteW⟩,
    ⟨devSpace, devSpace, 0, pteW⟩]

def setupKmap (pgdir : Nat) : List Kmap → M Nat
  | [] => return pgdir
  | k :: rest => do
    if ← mappages pgdir k.virt ((k.physEnd + (2 ^ 32 - k.physStart)) % 2 ^ 32) k.physStart
        k.perm then
      setupKmap pgdir rest
    else
      freevm pgdir
      return 0

/-- `setupkvm`: set up kernel part of a page table, or return 0. -/
def setupkvm (kernel : KernelImage) : M Nat := do
  let pgdir ← kalloc
  if pgdir = 0 then
    return 0
  memset pgdir
  if p2v physTop > devSpace then
    throw (.panic "PHYSTOP too high")
  setupKmap pgdir (kmap kernel)

/-- The loop of `copyuvm`. -/
def copyLoop (pgdir sz d : Nat) : (turns i : Nat) → M Nat
  | 0, _ => throw .loop
  | turns + 1, i =>
    if i < sz then do
      match ← walkpgdir pgdir i false with
      | none => throw (.panic "copyuvm: pte should exist")
      | some (page, index) =>
        let pte := (← get).word page index
        if !has pte pteP then
          throw (.panic "copyuvm: page not present")
        let pa := pteAddr pte
        let flags := pteFlags pte
        let mem ← kalloc
        if mem = 0 then
          freevm d
          return 0
        memmove mem (pa / pgSize)
        if ← mappages d i pgSize (mem * pgSize) flags then
          copyLoop pgdir sz d turns ((i + pgSize) % 2 ^ 32)
        else
          kfree mem
          freevm d
          return 0
    else
      return d

/-- `copyuvm`: given a parent process's page table, create a copy of it for a
child. -/
def copyuvm (kernel : KernelImage) (pgdir sz : Nat) : M Nat := do
  let d ← setupkvm kernel
  if d = 0 then
    return 0
  copyLoop pgdir sz d addressPages 0

end Rexv6.Vm
