import Rexv6.Fs.Machine

/-!
Contract: the tables of open files and of processes, and the calls that read and write a
file.

Owns: `ftable`, the descriptors and the current directory of a process, and `fileread` and
`filewrite` of `fs/sfs/file.c`.

Does not own: how files and descriptors are allocated, and the bytes in a pipe: what
`piperead` and `pipewrite` return is a parameter of a call.
-/

namespace Rexv6.Calls

open Rexv6.Foundation.Resumption
open Rexv6.Fs (Slot Stop Wait)

/-! ## State -/

def nFile : Nat := 100

def nOFile : Nat := 16

/-- A `struct file *` into `ftable.file`. -/
abbrev Desc := Fin nFile

abbrev Fd := Fin nOFile

/-- A `struct proc *` into `ptable.proc`. -/
abbrev Pid := Fin nProc

/-- The `type` of a `struct file`, with the pointer that goes with it. A pipe is
known by the number of pipes allocated before it. -/
inductive Filetype where
  | none
  | pipe (pipe : Nat)
  | inode (ip : Slot)
deriving DecidableEq

structure File where
  type : Filetype
  ref : Int
  readable : Bool
  writable : Bool
  off : Nat

/-- `struct pipe`, with the number of times that its page has been freed. -/
structure Pipe where
  readopen : Bool
  writeopen : Bool
  freed : Nat
deriving DecidableEq

/-- The states of a process: `RUNNING` stands for all that are not named. -/
inductive ProcState where
  | unused
  | running
  | zombie
deriving DecidableEq

structure Proc where
  state : ProcState
  ofile : Fd → Option Desc
  cwd : Option Slot

structure State where
  fs : Fs.State
  file : Desc → File
  pipe : List Pipe
  proc : Pid → Proc

abbrev C (α : Type) : Type := Task State Stop Wait α

def onFs {α : Type} (task : Fs.M α) : C α :=
  Task.lift State.fs (fun k fs => { k with fs := fs }) task

def ready (on : Wait) (k : State) : Bool := Fs.ready on k.fs

abbrev Meets {α : Type} (task : C α) (k : State) (post : α → State → Prop)
    (stops : Stop → Prop) : Prop :=
  Foundation.Resumption.Meets ready (fun _ => Stop.deadlock) task k post stops

def run {α : Type} (task : C α) (k : State) : Except Stop (α × State) :=
  (task k).run ready fun _ => Stop.deadlock

def panic {α : Type} (message : String) : C α := Task.halt (.panic message)

def setFile (f : Desc) (change : File → File) : C Unit :=
  modify fun k => { k with file := Function.update k.file f (change (k.file f)) }

def State.withFs (k : State) (fs : Fs.State) : State := { k with fs := fs }

def State.withFile (k : State) (f : Desc) (file : File) : State :=
  { k with file := Function.update k.file f file }

section Rules

variable {α : Type} {k : State} {stops : Stop → Prop}

theorem meets_onFs {task : Fs.M α} {post : α → State → Prop} :
    Meets (onFs task) k post stops ↔
      Fs.Meets task k.fs (fun value fs => post value (k.withFs fs)) stops := by
  have part_put : ∀ (k : State) fs, (k.withFs fs).fs = fs := fun _ _ => rfl
  have put_put : ∀ (k : State) first second, (k.withFs first).withFs second = k.withFs second :=
    fun _ _ _ => rfl
  exact meets_lift part_put put_put

theorem meets_setFile {f : Desc} {change : File → File} {post : Unit → State → Prop} :
    Meets (setFile f change) k post stops ↔ post () (k.withFile f (change (k.file f))) :=
  Iff.rfl

end Rules

/-! ## Files -/

/-- The inode file part of `fileread`. -/
def readInode (f : Desc) (ip : Slot) (n : Nat) : C (Option (List UInt8)) := do
  onFs (Fs.ilock ip)
  let bytes ← onFs (Fs.readi ip ((← get).file f).off n)
  setFile f fun file => { file with off := (file.off + (bytes.getD []).length) % 2 ^ 32 }
  onFs (Fs.iunlock ip)
  return bytes

/-- `fileread`, where `piped` is what `piperead` returns; nothing for -1. -/
def fileread (f : Desc) (n : Nat) (piped : Option (List UInt8)) : C (Option (List UInt8)) := do
  let file := (← get).file f
  if file.readable = false then
    return none
  else
    match file.type with
    | .pipe _ => return piped
    | .inode ip => readInode f ip n
    | .none => panic "fileread"

/-- `max` of `filewrite`: the bytes that one transaction may write. -/
def maxWrite : Nat := (maxOpBlocks - 1 - 1 - 2) / 2 * 512

/-- The loop of `filewrite`; false for -1. -/
def writeChunks (f : Desc) (ip : Slot) : (turns : Nat) → List UInt8 → C Bool
  | _, [] => return true
  | 0, _ :: _ => Task.halt .loop
  | turns + 1, src => do
    let chunk := src.take maxWrite
    onFs (Fs.ilock ip)
    let written ← onFs (Fs.writei ip chunk ((← get).file f).off)
    setFile f fun file => { file with off := (file.off + written.getD 0) % 2 ^ 32 }
    onFs (Fs.iunlock ip)
    match written with
    | none => return false
    | some r =>
      if r ≠ chunk.length then panic "short filewrite"
      else writeChunks f ip turns (src.drop maxWrite)

/-- `filewrite`, where `piped` is what `pipewrite` returns; false for -1. -/
def filewrite (f : Desc) (src : List UInt8) (piped : Bool) : C Bool := do
  let file := (← get).file f
  if file.writable = false then
    return false
  else
    match file.type with
    | .pipe _ => return piped
    | .inode ip => writeChunks f ip src.length src
    | .none => panic "filewrite"

end Rexv6.Calls
