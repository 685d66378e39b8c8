import Mathlib.Data.List.FinRange
import Mathlib.Logic.Function.Basic
import Rexv6.Param

/-!
Contract: the process table of `kern/sched/proc.cc` on any number of CPUs, with
the per-CPU schedulers and the calls that change a process's state.

Owns: `scheduler`, `sched`, `yield`, `sleep`, `wakeup`, `kill`, `fork`, `exit`
and `wait`, with `ptable.lock` handed over at each `swtch`. What a CPU does while
it holds the lock is one action, except that the scheduler's loop takes one
action for each slot and the thread it switches to goes on with an action of its
own. The assignments that `fork` makes without the lock are actions of their own.

Does not own: kernel stacks, page tables, files, and locks other than
`ptable.lock`. Whether `kalloc` and `copyuvm` succeed is a parameter of the
action.
-/

namespace Rexv6.Sched

/-- An index into `ptable.proc`, for a `struct proc *`. -/
abbrev Slot := Fin nProc

def slots : List Slot := List.finRange nProc

inductive ProcState where
  | unused
  | embryo
  | sleeping
  | runnable
  | running
  | zombie
deriving DecidableEq, Repr

/-- An address to sleep on: a slot of the table, or any other object. -/
inductive Chan where
  | proc (slot : Slot)
  | other (address : Nat)
deriving DecidableEq

/-- Where a thread goes on when the scheduler switches to `p->context`: at the
start of `forkret`, or after the call of `sched` in `yield` or in `sleep`, which
was called by other code or by `wait`. -/
inductive Context where
  | forkret
  | yield
  | sleep
  | wait
deriving DecidableEq, Repr

/-- How far a call of `fork` has come: it holds an `EMBRYO` without a kernel
stack, one without memory, or one that is complete. -/
inductive Fork where
  | kalloc (np : Slot)
  | copyuvm (np : Slot)
  | ready (np : Slot)
deriving DecidableEq

def Fork.np : Fork → Slot
  | .kalloc np | .copyuvm np | .ready np => np

/-- `struct proc`, as far as `proc.cc` reads it, and the thread's own progress in
`fork`. -/
structure Proc where
  state : ProcState
  pid : BitVec 32
  parent : Option Slot
  chan : Option Chan
  killed : Bool
  context : Context
  fork : Option Fork
deriving DecidableEq

/-- Where `scheduler` stands on a CPU: before `acquire`, at a slot of its loop,
or inside the `swtch` to a slot's thread. -/
inductive SchedPc where
  | idle
  | loop (next : Nat)
  | away (slot : Slot)
deriving DecidableEq

/-- `struct cpu`, as far as `proc.cc` reads it, and its scheduler. -/
structure Cpu where
  proc : Option Slot
  scheduler : SchedPc
deriving DecidableEq

inductive Event where
  | forked (parent child : Slot) (result : BitVec 32)
  | exited (slot : Slot) (pid : BitVec 32)
  | waited (slot : Slot) (result : BitVec 32)
  | killed (pid : BitVec 32) (result : BitVec 32)
deriving DecidableEq

structure State (ncpu : Nat) where
  procs : Slot → Proc
  initproc : Slot
  nextpid : BitVec 32
  cpus : Fin ncpu → Cpu
  /-- The CPU that holds `ptable.lock`. -/
  lock : Option (Fin ncpu)
  history : List Event

inductive Stop where
  | panic (message : String)
  | disabled
deriving DecidableEq, Repr

/-! ## The process table -/

def wakeup1 (procs : Slot → Proc) (chan : Option Chan) (slot : Slot) : Proc :=
  let p := procs slot
  if p.state = .sleeping ∧ p.chan = chan then { p with state := .runnable } else p

/-- One round of the loop in which `exit` passes abandoned children to init. -/
def adopt (curproc initproc : Slot) (procs : Slot → Proc) (slot : Slot) : Slot → Proc :=
  let p := procs slot
  if p.parent = some curproc then
    let procs := Function.update procs slot { p with parent := some initproc }
    if p.state = .zombie then wakeup1 procs (some (.proc initproc)) else procs
  else procs

/-- What `wait` does to the slot of the child it found. -/
def reaped (p : Proc) : Proc :=
  { p with pid := 0, parent := none, killed := false, state := .unused }

/-- The exited child that the loop of `wait` finds. -/
def zombieChild (procs : Slot → Proc) (curproc : Slot) : Option Slot :=
  slots.find? fun slot => (procs slot).parent = some curproc ∧ (procs slot).state = .zombie

/-- `havekids` after the loop of `wait`. -/
def havekids (procs : Slot → Proc) (curproc : Slot) : Bool :=
  slots.any fun slot => (procs slot).parent = some curproc

namespace State

variable {ncpu : Nat}

def setProc (s : State ncpu) (slot : Slot) (p : Proc) : State ncpu :=
  { s with procs := Function.update s.procs slot p }

def setCpu (s : State ncpu) (c : Fin ncpu) (cpu : Cpu) : State ncpu :=
  { s with cpus := Function.update s.cpus c cpu }

def log (s : State ncpu) (event : Event) : State ncpu :=
  { s with history := s.history ++ [event] }

def acquire (s : State ncpu) (c : Fin ncpu) : Except Stop (State ncpu) :=
  if s.lock = none then .ok { s with lock := some c } else .error .disabled

def release (s : State ncpu) : State ncpu := { s with lock := none }

/-- `myproc()` of a thread that is not inside one of the sections that hold
`ptable.lock`. -/
def current (s : State ncpu) (c : Fin ncpu) : Except Stop Slot :=
  match (s.cpus c).proc with
  | some p => if s.lock = some c then .error .disabled else .ok p
  | none => .error .disabled

/-! ## Switching -/

/-- `sched`: the scheduler of the CPU goes on after its `swtch`. -/
def sched (s : State ncpu) (c : Fin ncpu) (p : Slot) : Except Stop (State ncpu) :=
  if s.lock ≠ some c then .error (.panic "sched ptable.lock")
  else if (s.procs p).state = .running then .error (.panic "sched running")
  else
    match (s.cpus c).scheduler with
    | .away slot => .ok (s.setCpu c { proc := none, scheduler := .loop (slot.val + 1) })
    | _ => .error .disabled

/-- One step of `scheduler`. -/
def schedule (s : State ncpu) (c : Fin ncpu) : Except Stop (State ncpu) :=
  match (s.cpus c).scheduler with
  | .idle => do
    let s ← s.acquire c
    pure (s.setCpu c { proc := none, scheduler := .loop 0 })
  | .loop next =>
    if inTable : next < nProc then
      let slot : Slot := ⟨next, inTable⟩
      let p := s.procs slot
      if p.state = .runnable then
        .ok ((s.setProc slot { p with state := .running }).setCpu c
          { proc := some slot, scheduler := .away slot })
      else .ok (s.setCpu c { proc := none, scheduler := .loop (next + 1) })
    else .ok (s.setCpu c { proc := none, scheduler := .idle }).release
  | .away _ => .error .disabled

def yield (s : State ncpu) (c : Fin ncpu) : Except Stop (State ncpu) := do
  let p ← s.current c
  let s ← s.acquire c
  (s.setProc p { s.procs p with state := .runnable, context := .yield }).sched c p

/-- `sleep` up to its call of `sched`, with `ptable.lock` held. -/
def fallAsleep (s : State ncpu) (c : Fin ncpu) (p : Slot) (chan : Chan) (context : Context) :
    Except Stop (State ncpu) :=
  let asleep := { s.procs p with chan := some chan, state := .sleeping, context := context }
  (s.setProc p asleep).sched c p

/-- `sleep(chan, lk)` for a lock other than `ptable.lock`. A call of `fork` does
not sleep. -/
def sleep (s : State ncpu) (c : Fin ncpu) (chan : Chan) : Except Stop (State ncpu) := do
  let p ← s.current c
  if (s.procs p).fork ≠ none then .error .disabled
  else
    let s ← s.acquire c
    s.fallAsleep c p chan .sleep

/-- `wakeup`, which interrupt handlers call too. -/
def wakeup (s : State ncpu) (c : Fin ncpu) (chan : Chan) : Except Stop (State ncpu) := do
  let s ← s.acquire c
  pure { s with procs := wakeup1 s.procs (some chan) }.release

def kill (s : State ncpu) (c : Fin ncpu) (pid : BitVec 32) : Except Stop (State ncpu) := do
  let _ ← s.current c
  let s ← s.acquire c
  match slots.find? fun slot => (s.procs slot).pid = pid with
  | some slot =>
    let p := { s.procs slot with killed := true }
    let p := if p.state = .sleeping then { p with state := .runnable } else p
    pure ((s.setProc slot p).log (.killed pid 0)).release
  | none => pure (s.log (.killed pid (-1))).release

/-! ## Processes come and go -/

/-- `fork` up to the end of `allocproc`'s first section. -/
def fork (s : State ncpu) (c : Fin ncpu) : Except Stop (State ncpu) := do
  let p ← s.current c
  if (s.procs p).fork ≠ none then .error .disabled
  else
    let s ← s.acquire c
    match slots.find? fun slot => (s.procs slot).state = .unused with
    | none => pure (s.log (.forked p p (-1))).release
    | some np =>
      let s := s.setProc np { s.procs np with state := .embryo, pid := s.nextpid }
      let s := { s with nextpid := s.nextpid + 1 }
      pure (s.setProc p { s.procs p with fork := some (.kalloc np) }).release

/-- `np->state = UNUSED; return -1;` in `allocproc` and in `fork`. -/
def abandon (s : State ncpu) (p np : Slot) : State ncpu :=
  let s := s.setProc np { s.procs np with state := .unused }
  (s.setProc p { s.procs p with fork := none }).log (.forked p np (-1))

/-- `fork` after that, up to its next point: `allocproc` with the result of
`kalloc`, the copying with the result of `copyuvm`, and the last section. -/
def forkNext (s : State ncpu) (c : Fin ncpu) (success : Bool) : Except Stop (State ncpu) := do
  let p ← s.current c
  match (s.procs p).fork with
  | none => .error .disabled
  | some (.kalloc np) =>
    if success = true then
      let s := s.setProc np { s.procs np with context := .forkret, fork := none }
      pure (s.setProc p { s.procs p with fork := some (.copyuvm np) })
    else pure (s.abandon p np)
  | some (.copyuvm np) =>
    if success = true then
      let s := s.setProc np { s.procs np with parent := some p }
      pure (s.setProc p { s.procs p with fork := some (.ready np) })
    else pure (s.abandon p np)
  | some (.ready np) =>
    let s ← s.acquire c
    let s := s.setProc np { s.procs np with state := .runnable }
    pure ((s.setProc p { s.procs p with fork := none }).log
      (.forked p np (s.procs np).pid)).release

def exit (s : State ncpu) (c : Fin ncpu) : Except Stop (State ncpu) := do
  let p ← s.current c
  if (s.procs p).fork ≠ none then .error .disabled
  else if p = s.initproc then .error (.panic "init exiting")
  else
    let s ← s.acquire c
    let procs := wakeup1 s.procs ((s.procs p).parent.map .proc)
    let s := { s with procs := slots.foldl (adopt p s.initproc) procs }
    let s := s.setProc p { s.procs p with state := .zombie }
    (s.log (.exited p (s.procs p).pid)).sched c p

/-- One round of `wait` with `ptable.lock` held. -/
def waitLocked (s : State ncpu) (c : Fin ncpu) (p : Slot) : Except Stop (State ncpu) :=
  match zombieChild s.procs p with
  | some child =>
    .ok ((s.setProc child (reaped (s.procs child))).log
      (.waited p (s.procs child).pid)).release
  | none =>
    if havekids s.procs p = false ∨ (s.procs p).killed = true then
      .ok (s.log (.waited p (-1))).release
    else s.fallAsleep c p (.proc p) .wait

/-- `wait`, up to its return or its first `sched`. -/
def wait (s : State ncpu) (c : Fin ncpu) : Except Stop (State ncpu) := do
  let p ← s.current c
  if (s.procs p).fork ≠ none then .error .disabled
  else
    let s ← s.acquire c
    s.waitLocked c p

/-- What the thread that the scheduler has just switched to does with
`ptable.lock`, which it now holds. -/
def resume (s : State ncpu) (c : Fin ncpu) : Except Stop (State ncpu) :=
  if s.lock = some c then
    match (s.cpus c).scheduler with
    | .away p =>
      let awake := s.setProc p { s.procs p with chan := none }
      match (s.procs p).context with
      | .forkret | .yield => .ok s.release
      | .sleep => .ok awake.release
      | .wait => awake.waitLocked c p
    | _ => .error .disabled
  else .error .disabled

end State

/-! ## Runs -/

inductive Action (ncpu : Nat) where
  | schedule (c : Fin ncpu)
  | resume (c : Fin ncpu)
  | yield (c : Fin ncpu)
  | sleep (c : Fin ncpu) (chan : Chan)
  | wakeup (c : Fin ncpu) (chan : Chan)
  | kill (c : Fin ncpu) (pid : BitVec 32)
  | fork (c : Fin ncpu)
  | forkNext (c : Fin ncpu) (success : Bool)
  | exit (c : Fin ncpu)
  | wait (c : Fin ncpu)

namespace State

variable {ncpu : Nat}

def step (s : State ncpu) : Action ncpu → Except Stop (State ncpu)
  | .schedule c => s.schedule c
  | .resume c => s.resume c
  | .yield c => s.yield c
  | .sleep c chan => s.sleep c chan
  | .wakeup c chan => s.wakeup c chan
  | .kill c pid => s.kill c pid
  | .fork c => s.fork c
  | .forkNext c success => s.forkNext c success
  | .exit c => s.exit c
  | .wait c => s.wait c

def run (s : State ncpu) (actions : List (Action ncpu)) : Except Stop (State ncpu) :=
  actions.foldlM step s

def freeSlot : Proc :=
  { state := .unused
    pid := 0
    parent := none
    chan := none
    killed := false
    context := .forkret
    fork := none }

/-- The first process after `userinit`. -/
def firstProc : Proc := { freeSlot with state := .runnable, pid := 1 }

/-- The machine after `userinit`, with every CPU at the start of `scheduler`. -/
def boot (ncpu : Nat) : State ncpu :=
  { procs := Function.update (fun _ => freeSlot) ⟨0, by decide⟩ firstProc
    initproc := ⟨0, by decide⟩
    nextpid := 2
    cpus := fun _ => { proc := none, scheduler := .idle }
    lock := none
    history := [] }

end State

end Rexv6.Sched
