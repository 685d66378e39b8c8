import Rexv6.Calls.Machine
import Rexv6.Vm.Process

/-!
Contract: `exec` of `kern/sched/exec.c`, on files and memory together.

Owns: the process that calls it, the order in which it takes and gives back its
inode, its transaction and its page directories, and all its exits.

Does not own: the functions that it calls, which `Rexv6.Fs` and `Rexv6.Vm` have,
and the fields of the process and of its trap frame that it does not touch.
-/

namespace Rexv6.Exec

open Rexv6.Foundation
open Rexv6.Fs (Slot slash)

/-! ## State -/

structure Trapframe where
  eip : Nat
  esp : Nat

structure Proc where
  pgdir : Nat
  sz : Nat
  kstack : Nat
  tf : Trapframe
  name : List UInt8
  ofile : Calls.Fd → Option Calls.Desc
  cwd : Slot

structure State where
  fs : Fs.State
  memory : Vm.Machine
  /-- `log.outstanding`: system calls between `begin_op` and `end_op`. -/
  outstanding : Int
  /-- `myproc()`. -/
  proc : Proc

inductive Stop where
  | fs (stop : Fs.Stop)
  | memory (stop : Vm.Stop)
  | panic (message : String)
deriving DecidableEq

abbrev X := Program State Stop

def onFs {α : Type} (task : Fs.M α) : X α :=
  Program.embed State.fs (fun k fs => { k with fs := fs }) Stop.fs (Fs.run task)

def onVm {α : Type} (program : Vm.M α) : X α :=
  Program.embed State.memory (fun k memory => { k with memory := memory }) Stop.memory program

/-! ## `exec` -/

def beginOp : X Unit := modify fun k => { k with outstanding := k.outstanding + 1 }

def endOp : X Unit := modify fun k => { k with outstanding := k.outstanding - 1 }

/-- The file that `readi` reads when the inode is locked. The reader of a device
stores at most the `n` bytes that it is asked for. -/
def fileOf (fs : Fs.State) (ip : Slot) : Vm.File where
  readi off n :=
    match Fs.run (Fs.readi ip off n) fs with
    | .ok (bytes, _) => bytes.map (List.take n)
    | .error _ => none
  bounded := by
    intro off n data read
    split at read
    · obtain ⟨bytes, _, rfl⟩ := Option.map_eq_some_iff.mp read
      exact List.length_take_le n bytes
    · cases read

/-- The name of the program: what is behind the last slash, as `safestrcpy` copies
it to 16 bytes. -/
def programName (path : List UInt8) : List UInt8 :=
  (((path.takeWhile (· ≠ 0)).reverse.takeWhile (· ≠ slash)).reverse).take 15

/-- `switchuvm`: the checks that it makes. -/
def switchuvm : X Unit := do
  let p := (← get).proc
  if p.kstack = 0 then
    throw (.panic "switchuvm: no kstack")
  else if p.pgdir = 0 then
    throw (.panic "switchuvm: no pgdir")
  else
    return ()

/-- The end of `exec`: commit to the new image and free the old one. -/
def commit (pgdir sz eip esp : Nat) (path : List UInt8) : X Bool := do
  let oldpgdir := (← get).proc.pgdir
  modify fun k => { k with proc := { k.proc with
    pgdir := pgdir, sz := sz, tf := ⟨eip, esp⟩, name := programName path } }
  switchuvm
  onVm (Vm.freevm oldpgdir)
  return true

/-- `iunlockput` and `end_op` of the inode that is read, if it is still held. -/
def release : Option Slot → X Unit
  | none => return ()
  | some ip => do
    onFs (Fs.iunlockput ip)
    endOp

/-- `exec` from the label `bad` on. -/
def bad (pgdir : Nat) (ip : Option Slot) : X Bool := do
  if pgdir ≠ 0 then
    onVm (Vm.freevm pgdir)
  release ip
  return false

/-- `exec` from the locked inode on. -/
def load (kernel : Vm.KernelImage) (ip : Slot) (path : List UInt8) (argv : List (List UInt8)) :
    X Bool := do
  let file := fileOf (← get).fs ip
  match file.readi 0 Vm.elfhdrSize with
  | none => bad 0 (some ip)
  | some elf =>
    if elf.length ≠ Vm.elfhdrSize then
      bad 0 (some ip)
    else if Vm.field elf 0 4 ≠ Vm.elfMagic then
      bad 0 (some ip)
    else
      let pgdir ← onVm (Vm.setupkvm kernel)
      if pgdir = 0 then
        bad 0 (some ip)
      else
        match ← onVm (Vm.loadProgram pgdir file (Vm.field elf 44 2) (Vm.field elf 28 4) 0) with
        | none => bad pgdir (some ip)
        | some sz =>
          release (some ip)
          match ← onVm (Vm.stackImage pgdir sz argv) with
          | none => bad pgdir none
          | some (sz, esp) => commit pgdir sz (Vm.field elf 24 4) esp path

/-- `exec`: true for 0 and false for -1. -/
def exec (kernel : Vm.KernelImage) (path : List UInt8) (argv : List (List UInt8)) : X Bool := do
  beginOp
  match ← onFs (Fs.namei (← get).proc.cwd path) with
  | none =>
    endOp
    return false
  | some ip =>
    onFs (Fs.ilock ip)
    load kernel ip path argv

end Rexv6.Exec
