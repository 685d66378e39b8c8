import Mathlib.Algebra.Ring.Nat
import Mathlib.Logic.Function.Basic
import Rexv6.Param

/-!
Contract: the buffer cache over the disk driver and a device that may fail.

Owns: `bget`, `bread`, `bwrite` and `brelse` of `fs/sfs/bio.c`; `idewait`, `idestart`,
`ideintr` and `iderw` of `drivers/ide/ide.c`; and the device, which completes each command with
any status, ready or not, and may change it until the next command. What a process does while
it holds a spinlock is one step.

Does not own: `sleep` and `wakeup`: a process in the loop of `iderw` goes on at any time after
its test can succeed. The ports `0x1f3` to `0x1f6` are the one number that they hold together.
-/

namespace Rexv6.Disk

open Function (update)

variable {ι δ : Type}

/-- `struct buf`, with the two bits of `flags` apart and a block of data as one value. -/
structure Buf (δ : Type) where
  dev : Nat
  blockno : Nat
  valid : Bool
  dirty : Bool
  refcnt : Nat
  data : δ

inductive Stop where
  | panic (message : String)
  | disabled
deriving DecidableEq, Repr

/-! ## The device -/

def ideBsy : BitVec 8 := 0x80#8

def ideDrdy : BitVec 8 := 0x40#8

def ideDf : BitVec 8 := 0x20#8

def ideErr : BitVec 8 := 0x01#8

/-- The status with which `idewait` leaves its loop. -/
def ready (status : BitVec 8) : Bool := status &&& (ideBsy ||| ideDrdy) = ideDrdy

def failed (status : BitVec 8) : Bool := status &&& (ideDf ||| ideErr) ≠ 0#8

/-- `idewait`, when the port reads `r`. It returns nothing while its loop goes on. -/
def idewait (checkerr : Bool) (r : BitVec 8) : Option Int :=
  if ready r = false then none
  else if checkerr = true ∧ failed r = true then some (-1)
  else some 0

def sectorSize : Nat := 512

def sectorPerBlock : Nat := bSize / sectorSize

def Buf.drive (buf : Buf δ) : Nat := buf.dev % 2

/-- The sector whose 28 bits `idestart` writes to the ports. -/
def Buf.sector (buf : Buf δ) : Nat := buf.blockno * sectorPerBlock % 2 ^ 28

/-- What `idestart` tells the device, with the data of a write. -/
structure Command (δ : Type) where
  drive : Nat
  sector : Nat
  write : Option δ

def Command.ofBuf (buf : Buf δ) : Command δ where
  drive := buf.drive
  sector := buf.sector
  write := if buf.dirty = true then some buf.data else none

/-- The device has nothing to do, works on a command, or has raised its interrupt, with the
data of a read to be taken. -/
inductive Device (δ : Type) where
  | idle (status : BitVec 8)
  | busy (command : Command δ)
  | done (status : BitVec 8) (reply : δ)

/-- What the port `0x1f7` reads. -/
def Device.inb : Device δ → BitVec 8
  | .idle status | .done status _ => status
  | .busy _ => ideBsy

/-- The data that a command without error has read from a sector or written to it. -/
structure Transfer (δ : Type) where
  drive : Nat
  sector : Nat
  data : δ
deriving DecidableEq

/-! ## The kernel -/

/-- Where a process stands: in `bread` before `acquiresleep` or after it, in the loop of
`iderw`, or in `brelse` after `releasesleep`. -/
inductive Pc where
  | out
  | locking (b : Fin nBuf)
  | locked (b : Fin nBuf)
  | waiting (b : Fin nBuf)
  | releasing (b : Fin nBuf)
deriving DecidableEq, Repr

structure State (ι δ : Type) where
  buf : Fin nBuf → Buf δ
  lock : Fin nBuf → Option ι
  /-- The list of `bcache.head`, the most recently used buffer first. -/
  order : List (Fin nBuf)
  /-- The list of `idequeue`. -/
  queue : List (Fin nBuf)
  havedisk1 : Bool
  device : Device δ
  /-- The sectors of the two drives. -/
  disk : Nat → Nat → δ
  pc : ι → Pc
  /-- The holder has changed the data since the last request for the buffer. -/
  edited : Fin nBuf → Bool
  completed : List (Transfer δ)
  /-- The contents of the drives so far. -/
  past : List (Nat → Nat → δ)

/-- `next` goes on with the function a process is in. `write` is a change of the data by the
holder of the buffer, and `logWrite` the `b->flags |= B_DIRTY` of `log_write`. `complete` and
`report` are steps of the device; after an error the sector of a write and the data of a read are
whatever `content` says. -/
inductive Action (ι δ : Type) where
  | bread (p : ι) (dev blockno : Nat)
  | next (p : ι)
  | write (p : ι) (b : Fin nBuf) (data : δ)
  | logWrite (p : ι) (b : Fin nBuf)
  | iderw (p : ι) (b : Fin nBuf)
  | bwrite (p : ι) (b : Fin nBuf)
  | brelse (p : ι) (b : Fin nBuf)
  | complete (status : BitVec 8) (content : δ)
  | report (status : BitVec 8)
  | ideintr

namespace State

/-- After `binit` and `ideinit`. -/
def boot (havedisk1 : Bool) (disk : Nat → Nat → δ) (blank : δ) : State ι δ where
  buf _ := ⟨0, 0, false, false, 0, blank⟩
  lock _ := none
  order := (List.finRange nBuf).reverse
  queue := []
  havedisk1 := havedisk1
  device := .idle ideDrdy
  disk := disk
  pc _ := .out
  edited _ := false
  completed := []
  past := [disk]

def setBuf (s : State ι δ) (b : Fin nBuf) (buf : Buf δ) : State ι δ :=
  { s with buf := update s.buf b buf }

/-- The buffer that `bget` takes, and what becomes of it. -/
def bget (s : State ι δ) (dev blockno : Nat) : Except Stop (Fin nBuf × Buf δ) :=
  match s.order.find? fun b => (s.buf b).dev = dev ∧ (s.buf b).blockno = blockno with
  | some b => .ok (b, { s.buf b with refcnt := (s.buf b).refcnt + 1 })
  | none =>
    match s.order.reverse.find? fun b => (s.buf b).refcnt = 0 ∧ (s.buf b).dirty = false with
    | some b =>
      .ok (b, { s.buf b with dev, blockno, valid := false, dirty := false, refcnt := 1 })
    | none => .error (.panic "bget: no buffers")

def idestart (s : State ι δ) (b : Fin nBuf) : Except Stop (State ι δ) :=
  if fsSize ≤ (s.buf b).blockno then .error (.panic "incorrect blockno")
  else if 7 < sectorPerBlock then .error (.panic "idestart")
  else
    match idewait false s.device.inb with
    | none => .error .disabled
    | some _ => .ok { s with device := .busy (.ofBuf (s.buf b)) }

/-- The buffer after `ideintr`, when the port reads `status`. -/
def settle (status : BitVec 8) (reply : δ) (buf : Buf δ) : Option (Buf δ) :=
  let flags := { buf with valid := true, dirty := false }
  if buf.dirty = true then some flags
  else (idewait true status).map fun r => if 0 ≤ r then { flags with data := reply } else flags

def ideintr (s : State ι δ) : Except Stop (State ι δ) :=
  match s.device with
  | .done status reply =>
    match s.queue with
    | [] => .ok { s with device := .idle status }
    | b :: rest =>
      match settle status reply (s.buf b) with
      | none => .error .disabled
      | some buf =>
        let s := { s.setBuf b buf with
          queue := rest
          edited := update s.edited b false
          device := .idle status }
        match rest with
        | [] => .ok s
        | head :: _ => s.idestart head
  | _ => .error .disabled

/-- What the sector of a command holds when the command has ended. -/
def stored (s : State ι δ) (command : Command δ) (status : BitVec 8) (content : δ) : δ :=
  match command.write with
  | none => s.disk command.drive command.sector
  | some data => if failed status = true then content else data

def complete (s : State ι δ) (status : BitVec 8) (content : δ) : Except Stop (State ι δ) :=
  match s.device with
  | .busy command =>
    let stored := s.stored command status content
    let disk := update s.disk command.drive
      (update (s.disk command.drive) command.sector stored)
    .ok { s with
      disk
      device := .done status (if failed status = true then content else stored)
      completed :=
        if failed status = true then s.completed
        else ⟨command.drive, command.sector, stored⟩ :: s.completed
      past := disk :: s.past }
  | _ => .error .disabled

/-- The status changes while the device works on no command. -/
def report (s : State ι δ) (status : BitVec 8) : Except Stop (State ι δ) :=
  match s.device with
  | .idle _ => .ok { s with device := .idle status }
  | .done _ reply => .ok { s with device := .done status reply }
  | .busy _ => .error .disabled

/-- `(b->flags & (B_VALID|B_DIRTY)) == B_VALID`. -/
def synced (s : State ι δ) (b : Fin nBuf) : Bool := (s.buf b).valid && !(s.buf b).dirty

variable [DecidableEq ι]

def goto (s : State ι δ) (p : ι) (pc : Pc) : State ι δ := { s with pc := update s.pc p pc }

/-- `iderw` up to its loop. -/
def iderw (s : State ι δ) (p : ι) (b : Fin nBuf) : Except Stop (State ι δ) :=
  if s.lock b ≠ some p then .error (.panic "iderw: buf not locked")
  else if s.synced b = true then .error (.panic "iderw: nothing to do")
  else if (s.buf b).dev ≠ 0 ∧ s.havedisk1 = false then
    .error (.panic "iderw: ide disk 1 not present")
  else
    let s := { s.goto p (.waiting b) with queue := s.queue ++ [b] }
    if s.queue.head? = some b then s.idestart b else .ok s

def next (s : State ι δ) (p : ι) : Except Stop (State ι δ) :=
  match s.pc p with
  | .locking b =>
    if s.lock b = none then .ok { s.goto p (.locked b) with lock := update s.lock b (some p) }
    else .error .disabled
  | .locked b => if (s.buf b).valid = false then s.iderw p b else .ok (s.goto p .out)
  | .waiting b => if s.synced b = true then .ok (s.goto p .out) else .error .disabled
  | .releasing b =>
    let refcnt := (s.buf b).refcnt - 1
    let s := (s.goto p .out).setBuf b { s.buf b with refcnt }
    .ok (if refcnt = 0 then { s with order := b :: s.order.erase b } else s)
  | .out => .error .disabled

/-- A process outside of the functions does something with a buffer that it holds. -/
def holding (s : State ι δ) (p : ι) (b : Fin nBuf) (otherwise : Stop)
    (result : Except Stop (State ι δ)) : Except Stop (State ι δ) :=
  if s.pc p ≠ .out then .error .disabled
  else if s.lock b ≠ some p then .error otherwise
  else result

def step (s : State ι δ) : Action ι δ → Except Stop (State ι δ)
  | .bread p dev blockno =>
    if s.pc p ≠ .out then .error .disabled
    else do
      let (b, buf) ← s.bget dev blockno
      pure ((s.goto p (.locking b)).setBuf b buf)
  | .next p => s.next p
  | .write p b data =>
    s.holding p b .disabled (.ok { s.setBuf b { s.buf b with data } with
      edited := update s.edited b true })
  | .logWrite p b => s.holding p b .disabled (.ok (s.setBuf b { s.buf b with dirty := true }))
  | .iderw p b => s.holding p b (.panic "iderw: buf not locked") (s.iderw p b)
  | .bwrite p b =>
    s.holding p b (.panic "bwrite") ((s.setBuf b { s.buf b with dirty := true }).iderw p b)
  | .brelse p b =>
    s.holding p b (.panic "brelse") (.ok { s.goto p (.releasing b) with
      lock := update s.lock b none })
  | .complete status content => s.complete status content
  | .report status => s.report status
  | .ideintr => s.ideintr

end State

end Rexv6.Disk
