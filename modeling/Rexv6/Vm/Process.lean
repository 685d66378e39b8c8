import Rexv6.Vm.Machine

/-!
Contract: the address spaces of processes, as `userinit`, `growproc` and `fork`
of `kern/sched/proc.cc` and `exec` of `kern/sched/exec.c` build and change them.

Owns: the functions of `vm.c` that only these callers use, the process table
with the page directory, size and kernel stack of each process, and the system
calls `sbrk`, `fork` and `exec` on it.

Does not own: the file that `exec` reads, which is any file, and the parts of a
process that have no bearing on its memory (trap frame, open files, name).
-/

namespace Rexv6.Vm

open Rexv6.Foundation
open Rexv6.Foundation.LittleEndian (Bytes getLe setLe)

/-! ## The rest of `vm.c` -/

/-- `inituvm`: load the initcode into address 0 of `pgdir`. What `mappages`
returns is not looked at. -/
def inituvm (pgdir : Nat) (init : List UInt8) : M Unit := do
  if init.length ≥ pgSize then
    throw (.panic "inituvm: more than a page")
  let mem ← kalloc
  if mem = 0 then
    throw .fault
  memset mem
  let _ ← mappages pgdir 0 pgSize (mem * pgSize) (pteW ||| pteU)
  store mem 0 init

/-- A file as `readi` sees it: the bytes read at an offset, at most as many as
asked for, or nothing if `readi` returns -1. -/
structure File where
  readi : (off n : Nat) → Option (List UInt8)
  bounded : ∀ off n data, readi off n = some data → data.length ≤ n

/-- The loop of `loaduvm`. -/
def loadLoop (pgdir addr : Nat) (ip : File) (offset sz : Nat) : (turns i : Nat) → M Bool
  | 0, _ => throw .loop
  | turns + 1, i =>
    if i < sz then do
      match ← walkpgdir pgdir ((addr + i) % 2 ^ 32) false with
      | none => throw (.panic "loaduvm: address should exist")
      | some (page, index) =>
        let pa := pteAddr ((← get).word page index)
        let n := if sz - i < pgSize then sz - i else pgSize
        match ip.readi ((offset + i) % 2 ^ 32) n with
        | none => return false
        | some data =>
          store (pa / pgSize) 0 data
          if data.length = n then
            loadLoop pgdir addr ip offset sz turns ((i + pgSize) % 2 ^ 32)
          else
            return false
    else
      return true

/-- `loaduvm`: load a program segment into `pgdir`; false for -1. -/
def loaduvm (pgdir addr : Nat) (ip : File) (offset sz : Nat) : M Bool := do
  if addr % pgSize ≠ 0 then
    throw (.panic "loaduvm: addr must be page aligned")
  loadLoop pgdir addr ip offset sz addressPages 0

/-- `clearpteu`: clear `PTE_U` on a page. -/
def clearpteu (pgdir uva : Nat) : M Unit := do
  match ← walkpgdir pgdir uva false with
  | none => throw (.panic "clearpteu")
  | some (page, index) =>
    modify fun m => m.setWord page index (m.word page index &&& (2 ^ 32 - 1 - pteU))

/-- `uva2ka`: map user virtual address to kernel address, nothing for 0 if it is
not a user page. The entry that `walkpgdir` returns is read without a test for
null. -/
def uva2ka (pgdir uva : Nat) : M (Option Nat) := do
  match ← walkpgdir pgdir uva false with
  | none => throw .fault
  | some (page, index) =>
    let pte := (← get).word page index
    if !has pte pteP then
      return none
    if !has pte pteU then
      return none
    return some (pteAddr pte / pgSize)

/-- The loop of `copyout`; each turn copies at least one byte. -/
def copyoutLoop (pgdir : Nat) : (turns va : Nat) → List UInt8 → M Bool
  | _, _, [] => return true
  | 0, _, _ => throw .loop
  | turns + 1, va, data => do
    let va0 := pgRoundDown va
    match ← uva2ka pgdir va0 with
    | none => return false
    | some pa0 =>
      let n := pgSize - (va - va0)
      let n := if n > data.length then data.length else n
      store pa0 (va - va0) (data.take n)
      copyoutLoop pgdir turns ((va0 + pgSize) % 2 ^ 32) (data.drop n)

/-- `copyout`: copy bytes to user address `va` in page table `pgdir`; false for
-1. -/
def copyout (pgdir va : Nat) (data : List UInt8) : M Bool :=
  copyoutLoop pgdir data.length va data

/-! ## `growproc` -/

structure Proc where
  pgdir : Nat
  sz : Nat
  kstack : Nat
  deriving DecidableEq, Repr

/-- `growproc`: the new size, or nothing for -1. -/
def growproc (p : Proc) (n : BitVec 32) : M (Option Nat) := do
  if 0 < n.toInt then
    let sz ← allocuvm p.pgdir p.sz ((p.sz + n.toNat) % 2 ^ 32)
    if sz = 0 then
      return none
    return some sz
  else if n.toInt < 0 then
    let sz ← deallocuvm p.pgdir p.sz ((p.sz + n.toNat) % 2 ^ 32)
    if sz = 0 then
      return none
    return some sz
  else
    return some p.sz

/-! ## `fork` -/

/-- The part of `fork` that concerns memory: the kernel stack from `allocproc`
and the copied address space, or nothing for -1. -/
def fork (kernel : KernelImage) (p : Proc) : M (Option Proc) := do
  let kstack ← kalloc
  if kstack = 0 then
    return none
  let pgdir ← copyuvm kernel p.pgdir p.sz
  if pgdir = 0 then
    kfree kstack
    return none
  return some ⟨pgdir, p.sz, kstack⟩

/-! ## `exec` -/

/-- The field of `width` bytes at `offset` of a structure read from a file. -/
def field (data : List UInt8) (offset width : Nat) : Nat :=
  getLe (fun index => data.getD index 0) offset width

def elfhdrSize : Nat := 52

def proghdrSize : Nat := 32

def elfMagic : Nat := 0x464C457F

def elfProgLoad : Nat := 1

def maxArg : Nat := 32

/-- The loop of `exec` that loads the program: the size reached, or nothing for
`goto bad`. -/
def loadProgram (pgdir : Nat) (ip : File) : (left off sz : Nat) → M (Option Nat)
  | 0, _, sz => return some sz
  | left + 1, off, sz => do
    match ip.readi off proghdrSize with
    | none => return none
    | some ph =>
      if ph.length ≠ proghdrSize then
        return none
      else if field ph 0 4 ≠ elfProgLoad then
        loadProgram pgdir ip left ((off + proghdrSize) % 2 ^ 32) sz
      else
        let phOff := field ph 4 4
        let vaddr := field ph 8 4
        let filesz := field ph 16 4
        let memsz := field ph 20 4
        if memsz < filesz then
          return none
        else if (vaddr + memsz) % 2 ^ 32 < vaddr then
          return none
        else
          let sz ← allocuvm pgdir sz ((vaddr + memsz) % 2 ^ 32)
          if sz = 0 then
            return none
          else if vaddr % pgSize ≠ 0 then
            return none
          else if ← loaduvm pgdir vaddr ip phOff filesz then
            loadProgram pgdir ip left ((off + proghdrSize) % 2 ^ 32) sz
          else
            return none

/-- The loop of `exec` that pushes the argument strings: the stack pointer and
the addresses of the strings, or nothing for `goto bad`. -/
def pushArgs (pgdir : Nat) : List (List UInt8) → (sp : Nat) → (ustack : List Nat) →
    M (Option (Nat × List Nat))
  | [], sp, ustack => return some (sp, ustack)
  | arg :: rest, sp, ustack => do
    if ustack.length ≥ maxArg then
      return none
    else
      let sp := (sp + (2 ^ 32 - (arg.length + 1) % 2 ^ 32)) % 2 ^ 32 / 4 * 4
      if ← copyout pgdir sp (arg ++ [0]) then
        pushArgs pgdir rest sp (ustack ++ [sp])
      else
        return none

def wordBytes (value : Nat) : List UInt8 :=
  (List.range 4).map (setLe (fun _ => 0) 0 4 value)

/-- `ustack`: fake return PC, argc, argv pointer, the addresses of the strings
and a null pointer. -/
def ustackWords (sp : Nat) (args : List Nat) : List Nat :=
  [0xffffffff, args.length, (sp + (2 ^ 32 - (args.length + 1) * 4)) % 2 ^ 32] ++ args ++ [0]

/-- The user stack that `exec` builds in the last page of the image: the stack
pointer, or nothing for `goto bad`. -/
def userStack (pgdir sz : Nat) (argv : List (List UInt8)) : M (Option Nat) := do
  clearpteu pgdir (sz - 2 * pgSize)
  match ← pushArgs pgdir argv sz [] with
  | none => return none
  | some (sp, args) =>
    let esp := (sp + (2 ^ 32 - (3 + args.length + 1) * 4)) % 2 ^ 32
    if ← copyout pgdir esp ((ustackWords sp args).flatMap wordBytes) then
      return some esp
    else
      return none

/-- The part of `exec` behind the loop: two more pages and the user stack in the
last of them. The size and the stack pointer, or nothing for `goto bad`. -/
@[irreducible] def stackImage (pgdir sz : Nat) (argv : List (List UInt8)) :
    M (Option (Nat × Nat)) := do
  let sz ← allocuvm pgdir (pgRoundUp sz) ((pgRoundUp sz + 2 * pgSize) % 2 ^ 32)
  if sz = 0 then
    return none
  else
    return (← userStack pgdir sz argv).map fun esp => (sz, esp)

/-- The part of `exec` from the new page directory on: the size of the new
image, or nothing for `goto bad`. -/
def buildImage (pgdir : Nat) (ip : File) (elf : List UInt8) (argv : List (List UInt8)) :
    M (Option Nat) := do
  match ← loadProgram pgdir ip (field elf 44 2) (field elf 28 4) 0 with
  | none => return none
  | some sz => return (← stackImage pgdir sz argv).map Prod.fst

/-- `exec` of a file that `namei` found: the new directory and size with the old
image freed, or nothing for -1. -/
def exec (kernel : KernelImage) (p : Proc) (ip : File) (argv : List (List UInt8)) :
    M (Option Proc) := do
  match ip.readi 0 elfhdrSize with
  | none => return none
  | some elf =>
    if elf.length ≠ elfhdrSize then
      return none
    else if field elf 0 4 ≠ elfMagic then
      return none
    else
      let pgdir ← setupkvm kernel
      if pgdir = 0 then
        return none
      else
        match ← buildImage pgdir ip elf argv with
        | none =>
          freevm pgdir
          return none
        | some sz =>
          freevm p.pgdir
          return some ⟨pgdir, sz, p.kstack⟩

/-! ## The process table -/

structure Procs where
  machine : Machine
  /-- The processes, by slot of the process table. -/
  procs : Nat → Option Proc
  /-- What the last system call returned to its caller; -1 for a failure. -/
  returned : Int

/-- A system call of the process in `slot`. For `fork`, `child` is the slot that
`allocproc` finds, and a slot in use means that it finds none. -/
inductive Call
  | sbrk (slot : Nat) (n : BitVec 32)
  | fork (slot child : Nat)
  | exec (slot : Nat) (ip : File) (argv : List (List UInt8))

namespace Procs

/-- The memory of the first user process, as `userinit` sets it up. -/
def firstProc (kernel : KernelImage) (initcode : List UInt8) : M Proc := do
  let kstack ← kalloc
  if kstack = 0 then
    throw .fault
  let pgdir ← setupkvm kernel
  if pgdir = 0 then
    throw (.panic "userinit: out of memory?")
  inituvm pgdir initcode
  return ⟨pgdir, pgSize, kstack⟩

/-- `userinit`: set up the first user process. -/
def userinit (kernel : KernelImage) (initcode : List UInt8) (m : Machine) : Except Stop Procs :=
  ((firstProc kernel initcode).run m).map fun result =>
    ⟨result.2, Function.update (fun _ => none) 0 (some result.1), 0⟩

/-- One system call. A call by a slot that holds no process does not happen. -/
def step (kernel : KernelImage) (s : Procs) : Call → Except Stop Procs
  | .sbrk slot n =>
    match s.procs slot with
    | none => .ok s
    | some p => ((growproc p n).run s.machine).map fun result =>
      match result.1 with
      | none => ⟨result.2, s.procs, -1⟩
      | some sz => ⟨result.2, Function.update s.procs slot (some { p with sz := sz }), p.sz⟩
  | .fork slot child =>
    match s.procs slot, s.procs child with
    | some p, none => ((fork kernel p).run s.machine).map fun result =>
      match result.1 with
      | none => ⟨result.2, s.procs, -1⟩
      | some np => ⟨result.2, Function.update s.procs child (some np), child⟩
    | some _, some _ => .ok { s with returned := -1 }
    | none, _ => .ok s
  | .exec slot ip argv =>
    match s.procs slot with
    | none => .ok s
    | some p => ((exec kernel p ip argv).run s.machine).map fun result =>
      match result.1 with
      | none => ⟨result.2, s.procs, -1⟩
      | some np => ⟨result.2, Function.update s.procs slot (some np), 0⟩

def run (kernel : KernelImage) (s : Procs) (calls : List Call) : Except Stop Procs :=
  calls.foldlM (step kernel) s

end Procs

end Rexv6.Vm
