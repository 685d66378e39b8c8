import Mathlib.Logic.Function.Basic
import Rexv6.Param
import Rexv6.Foundation.LittleEndian

/-!
Contract: the redo log of `fs/sfs/log.c` over a buffer cache and a disk, as one
machine whose events are the log calls of concurrent FS operations, the single
disk block writes of `commit` and `recover_from_log`, buffer recycling, and
power loss.

Owns: the in-memory and on-disk log header, `begin_op`, `log_write`, `end_op`,
the write sequences of `commit` and `recover_from_log`, and what a crash keeps.

Does not own: waking sleepers (a `begin_op` that has to sleep is an event that
cannot happen yet), the LRU list of `bio.c` (any clean buffer may be recycled
at any time), and the device number, which is constant.
-/

namespace Rexv6.Logging

open Rexv6.Foundation.LittleEndian
open Function (update)

abbrev Block := Bytes

/-- `struct logheader`, the block numbers of one transaction. -/
structure LogHeader where
  n : Nat
  block : Nat → Nat

structure Log where
  start : Nat
  size : Nat
  outstanding : Int
  committing : Bool
  lh : LogHeader

/-- What `struct buf` holds for the log: the data and the `B_DIRTY` bit. -/
structure Buf where
  data : Block
  dirty : Bool

/-- One FS operation: before `begin_op`, between `begin_op` and `end_op` with
the distinct blocks it has passed to `log_write` and whether it is inside
`log_write` past the tests there, after its call of `end_op`, or cut off by a
crash. -/
inductive OpState where
  | idle
  | active (logged : List Nat) (inLogWrite : Bool)
  | ended
  | lost
deriving DecidableEq, Repr

/-- Where the thread inside `recover_from_log` or `commit` stands. `running`
means that neither is being executed. -/
inductive Control where
  | readHead
  | recoverInstall (tail : Nat)
  | running
  | commit
  | writeLog (tail : Nat)
  | install (tail : Nat)
  | returned
deriving DecidableEq, Repr

structure Machine where
  disk : Nat → Block
  cache : Nat → Option Buf
  log : Log
  ops : Nat → OpState
  control : Control

inductive Event where
  | tick
  | beginOp (op : Nat)
  | logCheck (op : Nat)
  | logWrite (op b : Nat) (data : Block)
  | endOp (op : Nat)
  | evict (b : Nat)
  | crash

/-- Why an event did not happen. `undefined` is a store past the end of
`log.lh.block`, to which C gives no meaning. -/
inductive Stop where
  | panic (message : String)
  | undefined
  | sleeping
  | disabled
deriving DecidableEq, Repr

/-! ## The log header on disk -/

def headN (data : Block) : Nat := getLe data 0 4

def headBlock (data : Block) (index : Nat) : Nat := getLe data (4 * (index + 1)) 4

/-- The loop of `write_head` that copies the block numbers. -/
def storeBlocks (lh : LogHeader) : Nat → Block → Block
  | 0, data => data
  | index + 1, data =>
    setLe (storeBlocks lh index data) (4 * (index + 1)) 4 (lh.block index)

/-- `write_head` up to its `bwrite`: overwrite the count and the listed block
numbers, and keep the rest of the block. -/
def storeHead (lh : LogHeader) (data : Block) : Block :=
  storeBlocks lh lh.n (setLe data 0 4 lh.n)

/-- `read_head`. The count is an `int`: a negative one makes both loops that
read it empty, as zero does. -/
def loadHead (lh : LogHeader) (data : Block) : LogHeader :=
  let n := if headN data < 2 ^ 31 then headN data else 0
  { n := n
    block := fun index => if index < n then headBlock data index else lh.block index }

/-! ## Buffer cache -/

/-- The data `bread` returns: the cached copy, or else the disk block. -/
def Machine.contents (m : Machine) (b : Nat) : Block :=
  match m.cache b with
  | some buf => buf.data
  | none => m.disk b

/-- `bread`: a block that is not cached is read into a clean buffer. -/
def Machine.bread (m : Machine) (b : Nat) : Machine :=
  match m.cache b with
  | some _ => m
  | none => { m with cache := update m.cache b (some ⟨m.disk b, false⟩) }

/-- `bwrite` of a buffer that now holds `data`: one disk block write, which
clears `B_DIRTY`. -/
def Machine.bwrite (m : Machine) (b : Nat) (data : Block) : Machine :=
  { m with
    disk := update m.disk b data
    cache := update m.cache b (some ⟨data, false⟩) }

/-- Recycling of a buffer by `bget`: never one with `B_DIRTY` set. -/
def Machine.evict (m : Machine) (b : Nat) : Except Stop Machine :=
  match m.cache b with
  | some buf =>
    if buf.dirty then .error .disabled
    else .ok { m with cache := update m.cache b none }
  | none => .error .disabled

/-! ## Calls made by FS operations -/

def Control.recovering : Control → Bool
  | .readHead => true
  | .recoverInstall _ => true
  | _ => false

def Log.IsHome (log : Log) (b : Nat) : Prop :=
  b < log.start ∨ log.start + log.size ≤ b

instance (log : Log) (b : Nat) : Decidable (log.IsHome b) := by
  unfold Log.IsHome
  infer_instance

/-- `begin_op`, once it stops sleeping. -/
def Machine.beginOp (m : Machine) (op : Nat) : Except Stop Machine :=
  if m.control.recovering then .error .disabled
  else if m.ops op ≠ .idle then .error .disabled
  else if m.log.committing then .error .sleeping
  else if (m.log.lh.n : Int) + (m.log.outstanding + 1) * maxOpBlocks > logSize then
    .error .sleeping
  else
    .ok { m with
      log := { m.log with outstanding := m.log.outstanding + 1 }
      ops := update m.ops op (.active [] false) }

/-- The scan of `log_write`: the first of the `remaining` indices from `index`
on that lists `b`, or the end. -/
def scan (block : Nat → Nat) (b : Nat) : (remaining index : Nat) → Nat
  | 0, index => index
  | remaining + 1, index =>
    if block index = b then index else scan block b remaining (index + 1)

/-- Log absorption: an already listed block keeps its slot. -/
def LogHeader.absorb (lh : LogHeader) (b : Nat) : LogHeader :=
  let index := scan lh.block b lh.n 0
  { n := if index = lh.n then lh.n + 1 else lh.n
    block := update lh.block index b }

def addLogged (logged : List Nat) (b : Nat) : List Nat :=
  if b ∈ logged then logged else b :: logged

/-- The two tests at the start of `log_write`, made before the lock is taken:
other operations may log blocks between them and the rest of the call. -/
def Machine.logCheck (m : Machine) (op : Nat) : Except Stop Machine :=
  match m.ops op with
  | .active logged false =>
    if logSize ≤ m.log.lh.n ∨ (m.log.size : Int) - 1 ≤ m.log.lh.n then
      .error (.panic "too big a transaction")
    else if m.log.outstanding < 1 then .error (.panic "log_write outside of trans")
    else .ok { m with ops := update m.ops op (.active logged true) }
  | _ => .error .disabled

/-- The rest of `log_write`, under the lock, of the held buffer for block `b`
whose data the caller has changed to `data`. Callers log home blocks only, and
block numbers are `uint`. -/
def Machine.logWrite (m : Machine) (op b : Nat) (data : Block) : Except Stop Machine :=
  match m.ops op with
  | .active logged true =>
    if ¬ m.log.IsHome b ∨ 2 ^ 32 ≤ b then .error .disabled
    else if logSize ≤ scan m.log.lh.block b m.log.lh.n 0 then .error .undefined
    else
      .ok { m with
        log := { m.log with lh := m.log.lh.absorb b }
        cache := update m.cache b (some ⟨data, true⟩)
        ops := update m.ops op (.active (addLogged logged b) false) }
  | _ => .error .disabled

/-- `end_op` up to its call of `commit`. -/
def Machine.endOp (m : Machine) (op : Nat) : Except Stop Machine :=
  match m.ops op with
  | .active _ false =>
    if m.log.committing then .error (.panic "log.committing")
    else if m.log.outstanding - 1 = 0 then
      .ok { m with
        log := { m.log with outstanding := m.log.outstanding - 1, committing := true }
        ops := update m.ops op .ended
        control := .commit }
    else
      .ok { m with
        log := { m.log with outstanding := m.log.outstanding - 1 }
        ops := update m.ops op .ended }
  | _ => .error .disabled

/-! ## Block writes of `commit` and `recover_from_log` -/

def Machine.writeHead (m : Machine) : Machine :=
  let m := m.bread m.log.start
  m.bwrite m.log.start (storeHead m.log.lh (m.contents m.log.start))

/-- `log.lh.n = 0; write_head()`. -/
def Machine.clearHead (m : Machine) : Machine :=
  Machine.writeHead { m with log := { m.log with lh := { m.log.lh with n := 0 } } }

/-- One turn of the loop of `write_log`. -/
def Machine.writeLogBlock (m : Machine) (tail : Nat) : Machine :=
  let m := (m.bread (m.log.start + tail + 1)).bread (m.log.lh.block tail)
  m.bwrite (m.log.start + tail + 1) (m.contents (m.log.lh.block tail))

/-- One turn of the loop of `install_trans`. -/
def Machine.installBlock (m : Machine) (tail : Nat) : Machine :=
  let m := (m.bread (m.log.start + tail + 1)).bread (m.log.lh.block tail)
  m.bwrite (m.log.lh.block tail) (m.contents (m.log.start + tail + 1))

/-- The next step of the thread inside `recover_from_log` or `commit`. Every
step writes at most one disk block. -/
def Machine.tick (m : Machine) : Except Stop Machine :=
  match m.control with
  | .readHead =>
    let m := m.bread m.log.start
    .ok { m with
      log := { m.log with lh := loadHead m.log.lh (m.contents m.log.start) }
      control := .recoverInstall 0 }
  | .recoverInstall tail =>
    if tail < m.log.lh.n then
      .ok { m.installBlock tail with control := .recoverInstall (tail + 1) }
    else
      .ok { m.clearHead with control := .running }
  | .running => .error .disabled
  | .commit =>
    if 0 < m.log.lh.n then .ok { m with control := .writeLog 0 }
    else .ok { m with control := .returned }
  | .writeLog tail =>
    if tail < m.log.lh.n then
      .ok { m.writeLogBlock tail with control := .writeLog (tail + 1) }
    else
      .ok { m.writeHead with control := .install 0 }
  | .install tail =>
    if tail < m.log.lh.n then
      .ok { m.installBlock tail with control := .install (tail + 1) }
    else
      .ok { m.clearHead with control := .returned }
  | .returned =>
    .ok { m with log := { m.log with committing := false }, control := .running }

/-! ## Boot and crash -/

/-- `initlog` on a freshly booted kernel: nothing is cached, and `log` is zero
except for the two superblock fields. -/
def boot (start size : Nat) (disk : Nat → Block) (ops : Nat → OpState) : Machine where
  disk := disk
  cache := fun _ => none
  log := { start, size, outstanding := 0, committing := false, lh := ⟨0, fun _ => 0⟩ }
  ops := ops
  control := .readHead

/-- An operation that was running when the power failed never resumes. -/
def OpState.cut : OpState → OpState
  | .active _ _ => .lost
  | state => state

/-- Power loss and reboot: only the disk survives. -/
def Machine.crash (m : Machine) : Machine :=
  boot m.log.start m.log.size m.disk (fun op => (m.ops op).cut)

def step (m : Machine) : Event → Except Stop Machine
  | .tick => m.tick
  | .beginOp op => m.beginOp op
  | .logCheck op => m.logCheck op
  | .logWrite op b data => m.logWrite op b data
  | .endOp op => m.endOp op
  | .evict b => m.evict b
  | .crash => .ok m.crash

end Rexv6.Logging
