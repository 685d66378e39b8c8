import Mathlib.Data.List.Infix
import Mathlib.Tactic.Linarith
import Rexv6.Foundation.Execution
import Rexv6.Foundation.Headcount

/-!
Contract: interrupts are off while a spinlock is held, and each kernel thread finds them
again as it left them.

Owns: `pushcli`, `popcli`, `holding`, `acquire` and `release` of `kern/locking/spinlock.c`,
and `sched` with the `swtch` of `scheduler`, on any CPUs, threads and locks. `yield`, `sleep`
and `wait` are sequences of these calls. A call is cut where another CPU can tell: `acquire`
before each `xchg`, and `release` before its `popcli`. An interrupt between the `readeflags`
and the `cli` of `pushcli` is one before the call: its `iret` restores the flag.

Does not own: what the locks protect, which thread the scheduler chooses, and that a trap
handler has released its locks before `iret`.
-/

namespace Rexv6.Locking.Interrupts

open Rexv6.Foundation (Headcount)
open Rexv6.Foundation.Execution (Along else_ok foldlM_cons_ok foldlM_keeps then_ok)
open Function (update update_self update_of_ne)

/-- Where a CPU stands: outside of the calls, at the loop of `acquire`, or before the
`popcli` of `release`. -/
inductive Pc (κ : Type) where
  | ready
  | spinning (lk : κ)
  | releasing
deriving DecidableEq

/-- The `pushcli` of a call that has no lock to show for it. -/
def Pc.pending {κ : Type} : Pc κ → Nat
  | .ready => 0
  | .spinning _ => 1
  | .releasing => 1

/-- `struct cpu`, as far as it is read here, with `FL_IF` of its flags. -/
structure Cpu (τ κ : Type) where
  ncli : Int
  intena : Bool
  flag : Bool
  proc : Option τ
  pc : Pc κ

inductive Stop where
  | panic (message : String)
  | disabled
deriving DecidableEq, Repr

section Cli

variable {τ κ : Type}

def pushcli (cpu : Cpu τ κ) : Cpu τ κ :=
  { cpu with
    flag := false
    intena := if cpu.ncli = 0 then cpu.flag else cpu.intena
    ncli := cpu.ncli + 1 }

def popcli (cpu : Cpu τ κ) : Except Stop (Cpu τ κ) :=
  if cpu.flag = true then .error (.panic "popcli - interruptible")
  else if cpu.ncli - 1 < 0 then .error (.panic "popcli")
  else if cpu.ncli - 1 = 0 ∧ cpu.intena = true then
    .ok { cpu with ncli := cpu.ncli - 1, flag := true }
  else .ok { cpu with ncli := cpu.ncli - 1 }

end Cli

/-- Where a thread is: on a CPU, in the `swtch` of `sched` with its local `intena`, or
before `forkret`, where a new thread starts. -/
inductive Place (ι : Type) where
  | running (cpu : ι)
  | sched (intena : Bool)
  | forkret
deriving DecidableEq

inductive Context (ι τ : Type) where
  | scheduler (cpu : ι)
  | thread (t : τ)
deriving DecidableEq

structure State (ι τ κ : Type) where
  cpus : ι → Cpu τ κ
  /-- `lk->cpu` of a lock with `lk->locked`. -/
  owner : κ → Option ι
  place : τ → Place ι
  /-- `FL_IF` in the trap frames on a stack, the last one first. -/
  frames : Context ι τ → List Bool

/-- What a CPU does next. `xchg` and `leave` go on with `acquire` and `release`; `myproc` is
any function that calls `pushcli` and `popcli` once. -/
inductive Call (τ κ : Type) where
  | acquire (lk : κ)
  | xchg
  | release (lk : κ)
  | leave
  | myproc
  | interrupt
  | syscall
  | iret
  | sti
  | sched
  | swtch (t : τ)

namespace State

variable {ι τ κ : Type} [DecidableEq ι] [DecidableEq τ] [DecidableEq κ]

def setCpu (s : State ι τ κ) (c : ι) (cpu : Cpu τ κ) : State ι τ κ :=
  { s with cpus := update s.cpus c cpu }

def context (s : State ι τ κ) (c : ι) : Context ι τ :=
  match (s.cpus c).proc with
  | none => .scheduler c
  | some t => .thread t

def setFrames (s : State ι τ κ) (c : ι) (frames : List Bool) : State ι τ κ :=
  { s with frames := update s.frames (s.context c) frames }

/-- Thread `t` leaves the CPU, or comes to it. -/
def setPlace (s : State ι τ κ) (c : ι) (cpu : Cpu τ κ) (t : τ) (place : Place ι) : State ι τ κ :=
  { s.setCpu c cpu with place := update s.place t place }

/-- The test of `holding`, between its `pushcli` and its `popcli`. -/
def holding (s : State ι τ κ) (c : ι) (lk : κ) : Bool := decide (s.owner lk = some c)

/-- `acquire` up to its loop. -/
def acquire (s : State ι τ κ) (c : ι) (lk : κ) : Except Stop (State ι τ κ) :=
  if (s.cpus c).pc = .ready then do
    let cpu ← popcli (pushcli (pushcli (s.cpus c)))
    if s.holding c lk = true then .error (.panic "acquire")
    else .ok (s.setCpu c { cpu with pc := .spinning lk })
  else .error .disabled

/-- One round of the loop of `acquire`, with what follows when it ends. -/
def xchg (s : State ι τ κ) (c : ι) : Except Stop (State ι τ κ) :=
  match (s.cpus c).pc with
  | .spinning lk =>
    if s.owner lk = none then
      .ok { s.setCpu c { s.cpus c with pc := .ready } with owner := update s.owner lk (some c) }
    else .ok s
  | _ => .error .disabled

/-- `release` up to its `popcli`. -/
def release (s : State ι τ κ) (c : ι) (lk : κ) : Except Stop (State ι τ κ) :=
  if (s.cpus c).pc = .ready then do
    let cpu ← popcli (pushcli (s.cpus c))
    if s.holding c lk = true then
      .ok { s.setCpu c { cpu with pc := .releasing } with owner := update s.owner lk none }
    else .error (.panic "release")
  else .error .disabled

/-- The `popcli` of `release`. -/
def leave (s : State ι τ κ) (c : ι) : Except Stop (State ι τ κ) :=
  if (s.cpus c).pc = .releasing then do
    let cpu ← popcli (s.cpus c)
    .ok (s.setCpu c { cpu with pc := .ready })
  else .error .disabled

def myproc (s : State ι τ κ) (c : ι) : Except Stop (State ι τ κ) :=
  if (s.cpus c).pc = .ready then do
    let cpu ← popcli (pushcli (s.cpus c))
    .ok (s.setCpu c cpu)
  else .error .disabled

/-- An interrupt arrives: its gate saves the flag and clears it. -/
def interrupt (s : State ι τ κ) (c : ι) : Except Stop (State ι τ κ) :=
  if (s.cpus c).flag = true then
    .ok ((s.setFrames c (true :: s.frames (s.context c))).setCpu c
      { s.cpus c with flag := false })
  else .error .disabled

/-- A system call: its gate saves the flag and leaves it as it is. -/
def syscall (s : State ι τ κ) (c : ι) : Except Stop (State ι τ κ) :=
  if (s.cpus c).pc = .ready ∧ (s.cpus c).ncli = 0 then
    .ok (s.setFrames c ((s.cpus c).flag :: s.frames (s.context c)))
  else .error .disabled

/-- The end of a trap, with no lock held. -/
def iret (s : State ι τ κ) (c : ι) : Except Stop (State ι τ κ) :=
  if (s.cpus c).pc = .ready ∧ (s.cpus c).ncli = 0 then
    match s.frames (s.context c) with
    | [] => .error .disabled
    | saved :: rest => .ok ((s.setFrames c rest).setCpu c { s.cpus c with flag := saved })
  else .error .disabled

/-- The `sti` at the head of the loop of `scheduler`. -/
def sti (s : State ι τ κ) (c : ι) : Except Stop (State ι τ κ) :=
  if (s.cpus c).pc = .ready ∧ (s.cpus c).ncli = 0 ∧ (s.cpus c).proc = none then
    .ok (s.setCpu c { s.cpus c with flag := true })
  else .error .disabled

/-- `sched` up to its `swtch`. -/
def sched (ptable : κ) (s : State ι τ κ) (c : ι) : Except Stop (State ι τ κ) :=
  match (s.cpus c).proc with
  | none => .error .disabled
  | some t =>
    if (s.cpus c).pc = .ready then do
      let cpu ← popcli (pushcli (s.cpus c))
      let cpu ← popcli (pushcli cpu)
      if s.holding c ptable = false then .error (.panic "sched ptable.lock")
      else if cpu.ncli ≠ 1 then .error (.panic "sched locks")
      else if cpu.flag = true then .error (.panic "sched interruptible")
      else
        .ok (s.setPlace c { cpu with proc := none } t (.sched cpu.intena))
    else .error .disabled

/-- The `swtch` of `scheduler`, which holds `ptable.lock` and no other lock, and what `sched`
does when it comes back. -/
def swtch (ptable : κ) (s : State ι τ κ) (c : ι) (t : τ) : Except Stop (State ι τ κ) :=
  if (s.cpus c).pc = .ready ∧ (s.cpus c).proc = none ∧ s.owner ptable = some c ∧
      (s.cpus c).ncli = 1 then
    match s.place t with
    | .running _ => .error .disabled
    | .sched intena =>
      .ok (s.setPlace c { s.cpus c with proc := some t, intena := intena } t (.running c))
    | .forkret => .ok (s.setPlace c { s.cpus c with proc := some t } t (.running c))
  else .error .disabled

def step (ptable : κ) (s : State ι τ κ) (action : ι × Call τ κ) : Except Stop (State ι τ κ) :=
  match action.2 with
  | .acquire lk => s.acquire action.1 lk
  | .xchg => s.xchg action.1
  | .release lk => s.release action.1 lk
  | .leave => s.leave action.1
  | .myproc => s.myproc action.1
  | .interrupt => s.interrupt action.1
  | .syscall => s.syscall action.1
  | .iret => s.iret action.1
  | .sti => s.sti action.1
  | .sched => s.sched ptable action.1
  | .swtch t => s.swtch ptable action.1 t

def run (ptable : κ) (s : State ι τ κ) (actions : List (ι × Call τ κ)) :
    Except Stop (State ι τ κ) :=
  actions.foldlM (step ptable) s

/-- Every CPU before its first `sti`, with interrupts off and zeros in `struct cpu`. A new
thread has a trap frame with `FL_IF`. -/
def boot : State ι τ κ where
  cpus _ := { ncli := 0, intena := false, flag := false, proc := none, pc := .ready }
  owner _ := none
  place _ := .forkret
  frames
    | .scheduler _ => []
    | .thread _ => [true]

end State

/-! ## One CPU -/

namespace Cpu

variable {τ κ : Type}

/-- What the flag will be when all is released. -/
def value (cpu : Cpu τ κ) : Bool := if cpu.ncli = 0 then cpu.flag else cpu.intena

/-- `ncli` is not negative, and interrupts are off when it is positive. -/
structure Masked (cpu : Cpu τ κ) : Prop where
  nonneg : 0 ≤ cpu.ncli
  off : 0 < cpu.ncli → cpu.flag = false

theorem Masked.of_free {cpu : Cpu τ κ} (free : cpu.ncli = 0) : cpu.Masked := by
  refine ⟨le_of_eq free.symm, ?_⟩
  intro nested
  rw [free] at nested
  exact absurd nested (lt_irrefl 0)

theorem Masked.noted {cpu : Cpu τ κ} (masked : cpu.Masked) :
    ({ cpu with intena := cpu.value } : Cpu τ κ).Masked :=
  ⟨masked.nonneg, masked.off⟩

theorem pushcli_eq (cpu : Cpu τ κ) :
    pushcli cpu = { cpu with flag := false, intena := cpu.value, ncli := cpu.ncli + 1 } := rfl

theorem Masked.popcli {cpu : Cpu τ κ} (masked : cpu.Masked) (nested : 0 < cpu.ncli) :
    Interrupts.popcli cpu =
      .ok { cpu with ncli := cpu.ncli - 1, flag := decide (cpu.ncli = 1) && cpu.intena } := by
  have off := masked.off nested
  have notFlag : ¬ cpu.flag = true := by
    rw [off]
    exact Bool.false_ne_true
  have notNegative : ¬ cpu.ncli - 1 < 0 := by omega
  rw [Interrupts.popcli, if_neg notFlag, if_neg notNegative]
  by_cases last : cpu.ncli = 1
  · cases isIntena : cpu.intena <;> simp [last, off]
  · have notLast : ¬ cpu.ncli - 1 = 0 := by omega
    simp [last, notLast, off]

theorem Masked.popped {cpu : Cpu τ κ} (nested : 0 < cpu.ncli) :
    ({ cpu with ncli := cpu.ncli - 1, flag := decide (cpu.ncli = 1) && cpu.intena } :
      Cpu τ κ).Masked := by
  constructor
  · simp only
    omega
  · intro still
    have notLast : ¬ cpu.ncli = 1 := by
      simp only at still
      omega
    simp [notLast]

theorem Masked.pushcli {cpu : Cpu τ κ} (masked : cpu.Masked) : (pushcli cpu).Masked := by
  have nonneg := masked.nonneg
  refine ⟨?_, fun _ => rfl⟩
  simp only [Interrupts.pushcli]
  omega

theorem Masked.value_pushcli {cpu : Cpu τ κ} (masked : cpu.Masked) :
    (Interrupts.pushcli cpu).value = cpu.value := by
  have nonneg := masked.nonneg
  have inside : ¬ (Interrupts.pushcli cpu).ncli = 0 := by
    simp only [Interrupts.pushcli]
    omega
  rw [value, if_neg inside, pushcli_eq]

/-- A `pushcli` and its `popcli` leave the flag and `ncli` as they are. -/
theorem Masked.paired {cpu : Cpu τ κ} (masked : cpu.Masked) :
    Interrupts.popcli (Interrupts.pushcli cpu) = .ok { cpu with intena := cpu.value } := by
  have nonneg := masked.nonneg
  have nested : 0 < (Interrupts.pushcli cpu).ncli := by
    simp only [Interrupts.pushcli]
    omega
  rw [masked.pushcli.popcli nested, pushcli_eq]
  by_cases outermost : cpu.ncli = 0
  · simp [value, outermost]
  · have off := masked.off (by omega)
    simp [outermost, off]

@[simp] theorem value_noted (cpu : Cpu τ κ) :
    value { cpu with intena := cpu.value } = cpu.value := by
  unfold value
  split
  · rfl
  · rfl

end Cpu

/-! ## The invariant -/

section Invariant

variable {ι τ κ : Type} {s s' : State ι τ κ} {c : ι} {t : τ} {ptable : κ}

/-- `ncli` counts the locks of a CPU, and the call it is in. -/
def Nested (s : State ι τ κ) (c : ι) : Prop :=
  ∃ held : Finset κ, (∀ lk, lk ∈ held ↔ s.owner lk = some c) ∧
    (s.cpus c).ncli = held.card + (s.cpus c).pc.pending

structure Inv (s : State ι τ κ) : Prop where
  nested : ∀ c, Nested s c
  masked : ∀ c, (s.cpus c).Masked
  placed : ∀ c t, (s.cpus c).proc = some t ↔ s.place t = .running c

/-- The stack of flags of a thread gains or loses one on top, or none. -/
inductive Turns : List Bool → List Bool → Prop
  | stay (flags : List Bool) : Turns flags flags
  | push (flag : Bool) (flags : List Bool) : Turns flags (flag :: flags)
  | pop (flag : Bool) (flags : List Bool) : Turns (flag :: flags) flags

/-- The flag that a thread will have when it holds no lock, over those of its frames. A new
thread has its frames only. -/
def State.stack (s : State ι τ κ) (t : τ) : List Bool :=
  match s.place t with
  | .running c => (s.cpus c).value :: s.frames (.thread t)
  | .sched intena => intena :: s.frames (.thread t)
  | .forkret => s.frames (.thread t)

theorem State.stack_started (started : s.place t ≠ .forkret) :
    ∃ flag, s.stack t = flag :: s.frames (.thread t) := by
  unfold State.stack
  cases isPlace : s.place t with
  | running c => exact ⟨_, rfl⟩
  | sched intena => exact ⟨_, rfl⟩
  | forkret => exact absurd isPlace started

/-- What the call of a CPU can do that does not switch to another context. -/
structure Local (s : State ι τ κ) (c : ι) (s' : State ι τ κ) : Prop where
  others : ∀ d, d ≠ c → s'.cpus d = s.cpus d
  proc : (s'.cpus c).proc = (s.cpus c).proc
  place : s'.place = s.place
  masked : (s'.cpus c).Masked
  owners : ∀ d, d ≠ c → ∀ lk, s'.owner lk = some d ↔ s.owner lk = some d
  nested : Nested s' c
  frames : ∀ context, context ≠ s.context c → s'.frames context = s.frames context
  turns : ∀ t, (s.cpus c).proc = some t →
    Turns ((s.cpus c).value :: s.frames (.thread t)) ((s'.cpus c).value :: s'.frames (.thread t))

theorem Inv.locks (inv : Inv s) (c : ι) : Headcount (fun lk => s.owner lk = some c)
    ((s.cpus c).ncli - (s.cpus c).pc.pending) := by
  obtain ⟨held, isHeld, counted⟩ := inv.nested c
  exact ⟨held, isHeld, by omega⟩

theorem Inv.held_pos (inv : Inv s) {lk : κ}
    (owned : s.owner lk = some c) : 0 < (s.cpus c).ncli := by
  have positive := (inv.locks c).positive owned
  omega

theorem Inv.local (inv : Inv s) (moved : Local s c s') : Inv s' := by
  refine ⟨?_, ?_, ?_⟩
  · intro d
    by_cases here : d = c
    · rw [here]
      exact moved.nested
    · obtain ⟨held, isHeld, counted⟩ := inv.nested d
      refine ⟨held, ?_, ?_⟩
      · intro lk
        rw [moved.owners d here]
        exact isHeld lk
      · rw [moved.others d here]
        exact counted
  · intro d
    by_cases here : d = c
    · rw [here]
      exact moved.masked
    · rw [moved.others d here]
      exact inv.masked d
  · intro d t
    rw [moved.place, ← inv.placed]
    by_cases here : d = c
    · rw [here, moved.proc]
    · rw [moved.others d here]

theorem Inv.turns_local (inv : Inv s) (moved : Local s c s') (t : τ) :
    Turns (s.stack t) (s'.stack t) := by
  have elsewhere : s.place t ≠ .running c → s'.frames (.thread t) = s.frames (.thread t) := by
    intro away
    refine moved.frames _ ?_
    intro isContext
    refine away ((inv.placed c t).mp ?_)
    cases isProc : (s.cpus c).proc with
    | none =>
      simp only [State.context, isProc] at isContext
      cases isContext
    | some u =>
      simp only [State.context, isProc] at isContext
      cases isContext
      rfl
  unfold State.stack
  rw [moved.place]
  cases isPlace : s.place t with
  | running d =>
    by_cases here : d = c
    · rw [here] at isPlace ⊢
      exact moved.turns t ((inv.placed c t).mpr isPlace)
    · simp only [moved.others d here]
      rw [elsewhere (fun same => here (Place.running.inj (isPlace.symm.trans same)))]
      exact Turns.stay _
  | sched intena | forkret =>
    rw [elsewhere (by rw [isPlace]; nofun)]
    exact Turns.stay _

/-- What every step keeps, of the machine and of the flags of each thread. -/
structure Kept (s s' : State ι τ κ) : Prop where
  inv : Inv s'
  turns : ∀ t, Turns (s.stack t) (s'.stack t)
  started : ∀ t, s.place t ≠ .forkret → s'.place t ≠ .forkret

theorem Inv.kept (inv : Inv s) (moved : Local s c s') : Kept s s' :=
  ⟨inv.local moved, inv.turns_local moved, fun _ started => moved.place ▸ started⟩

theorem Inv.boot : Inv (State.boot : State ι τ κ) where
  nested _ := ⟨∅, fun _ => iff_of_false (Finset.notMem_empty _) nofun, rfl⟩
  masked _ := Cpu.Masked.of_free rfl
  placed _ _ := iff_of_false nofun nofun

/-- Thread `t` runs on the CPU, in no call and without a lock. -/
structure Unlocked (s : State ι τ κ) (t : τ) (c : ι) : Prop where
  running : s.place t = .running c
  ready : (s.cpus c).pc = .ready
  free : ∀ lk, s.owner lk ≠ some c

theorem Inv.unlocked_stack (inv : Inv s)
    (unlocked : Unlocked s t c) : s.stack t = (s.cpus c).flag :: s.frames (.thread t) := by
  have none := (inv.locks c).eq_zero unlocked.free
  rw [unlocked.ready] at none
  have isZero : (s.cpus c).ncli = 0 := sub_eq_zero.mp none
  simp only [State.stack, unlocked.running, Cpu.value, if_pos isZero]

variable [DecidableEq ι]

/-- A call that changes `struct cpu` and the locks only, and not the value of the flag. -/
theorem Local.quiet {cpu : Cpu τ κ} {owner : κ → Option ι}
    (proc : cpu.proc = (s.cpus c).proc) (value : cpu.value = (s.cpus c).value)
    (masked : cpu.Masked) (owners : ∀ d, d ≠ c → ∀ lk, owner lk = some d ↔ s.owner lk = some d)
    (nested : ∃ held : Finset κ, (∀ lk, lk ∈ held ↔ owner lk = some c) ∧
      cpu.ncli = held.card + cpu.pc.pending) :
    Local s c { s.setCpu c cpu with owner := owner } where
  others d elsewhere := by simp only [State.setCpu, update_of_ne elsewhere]
  proc := by
    simp only [State.setCpu, update_self]
    exact proc
  place := rfl
  masked := by
    simp only [State.setCpu, update_self]
    exact masked
  owners := owners
  nested := by
    simp only [Nested, State.setCpu, update_self]
    exact nested
  frames _ _ := rfl
  turns t _ := by
    simp only [State.setCpu, update_self, value]
    exact Turns.stay _

/-- A call between a `pushcli` and its `popcli` changes nothing else. -/
theorem Inv.noted (inv : Inv s) (c : ι) :
    Local s c (s.setCpu c { s.cpus c with intena := (s.cpus c).value }) :=
  Local.quiet rfl (Cpu.value_noted _) (inv.masked c).noted
    (fun _ _ _ => Iff.rfl) (inv.nested c)

section Locks

variable [DecidableEq κ]

theorem Inv.acquire {lk : κ} (inv : Inv s)
    (stepped : s.acquire c lk = .ok s') : Local s c s' := by
  unfold State.acquire at stepped
  rw [(inv.masked c).pushcli.paired] at stepped
  obtain ⟨held, isHeld, counted⟩ := inv.nested c
  obtain ⟨ready, stepped⟩ := then_ok stepped
  rw [ready] at counted
  obtain ⟨-, stepped⟩ := else_ok stepped
  cases stepped
  refine Local.quiet rfl ?_ ⟨?_, fun _ => rfl⟩ (fun _ _ _ => Iff.rfl) ⟨held, isHeld, ?_⟩
  · exact (Cpu.value_noted _).trans (inv.masked c).value_pushcli
  · simp only [pushcli]
    omega
  · simp only [pushcli, Pc.pending] at counted ⊢
    omega

theorem Inv.xchg (inv : Inv s) (stepped : s.xchg c = .ok s') :
    Local s c s' := by
  unfold State.xchg at stepped
  split at stepped
  · rename_i lk spinning
    split at stepped
    · rename_i free
      cases stepped
      have lacked : ¬ s.owner lk = some c := by
        rw [free]
        nofun
      obtain ⟨held, isHeld, grown⟩ :=
        (inv.locks c).join (fun owner => owner = some c) lacked rfl
      rw [spinning] at grown
      refine Local.quiet rfl rfl ⟨(inv.masked c).nonneg, (inv.masked c).off⟩ ?_
        ⟨held, isHeld, ?_⟩
      · intro d elsewhere other
        by_cases same : other = lk
        · rw [same, update_self, free]
          refine iff_of_false ?_ nofun
          intro isOwner
          exact elsewhere (Option.some.inj isOwner).symm
        · rw [update_of_ne same]
      · simp only [Pc.pending] at grown ⊢
        omega
    · cases stepped
      exact ⟨fun _ _ => rfl, rfl, rfl, inv.masked c, fun _ _ _ => Iff.rfl, inv.nested c,
        fun _ _ => rfl, fun _ _ => Turns.stay _⟩
  · cases stepped

theorem Inv.release {lk : κ} (inv : Inv s)
    (stepped : s.release c lk = .ok s') : Local s c s' := by
  unfold State.release at stepped
  rw [(inv.masked c).paired] at stepped
  obtain ⟨ready, stepped⟩ := then_ok stepped
  obtain ⟨isOwner, stepped⟩ := then_ok stepped
  have owned : s.owner lk = some c := of_decide_eq_true isOwner
  have left : ¬ (none : Option ι) = some c := nofun
  obtain ⟨held, isHeld, shrunk⟩ := (inv.locks c).leave (fun owner => owner = some c) owned left
  rw [ready] at shrunk
  cases stepped
  refine Local.quiet rfl (Cpu.value_noted (s.cpus c))
    ⟨(inv.masked c).nonneg, (inv.masked c).off⟩ ?_ ⟨held, isHeld, ?_⟩
  · intro d elsewhere other
    by_cases same : other = lk
    · rw [same, update_self, owned]
      refine iff_of_false nofun ?_
      intro isOther
      exact elsewhere (Option.some.inj isOther).symm
    · rw [update_of_ne same]
  · simp only [Pc.pending] at shrunk ⊢
    omega

theorem Inv.leave (inv : Inv s) (stepped : s.leave c = .ok s') : Local s c s' := by
  obtain ⟨held, isHeld, counted⟩ := inv.nested c
  obtain ⟨releasing, stepped⟩ := then_ok stepped
  rw [releasing] at counted
  have nested : 0 < (s.cpus c).ncli := by
    simp only [Pc.pending] at counted
    omega
  have inside : ¬ (s.cpus c).ncli = 0 := by omega
  rw [(inv.masked c).popcli nested] at stepped
  cases stepped
  refine Local.quiet rfl ?_ ⟨(Cpu.Masked.popped nested).nonneg, (Cpu.Masked.popped nested).off⟩
    (fun _ _ _ => Iff.rfl) ⟨held, isHeld, ?_⟩
  · simp only [Cpu.value, if_neg inside]
    by_cases last : (s.cpus c).ncli = 1
    · simp [last]
    · rw [if_neg (by omega)]
  · simp only [Pc.pending] at counted ⊢
    omega

theorem Inv.myproc (inv : Inv s) (stepped : s.myproc c = .ok s') : Local s c s' := by
  unfold State.myproc at stepped
  rw [(inv.masked c).paired] at stepped
  obtain ⟨-, stepped⟩ := then_ok stepped
  cases stepped
  exact inv.noted c

theorem Inv.sti (inv : Inv s) (stepped : s.sti c = .ok s') : Local s c s' := by
  obtain ⟨⟨-, free, idle⟩, stepped⟩ := then_ok stepped
  cases stepped
  refine ⟨?_, ?_, rfl, ?_, fun _ _ _ => Iff.rfl, ?_, fun _ _ => rfl, ?_⟩
  · intro d elsewhere
    simp only [State.setCpu, update_of_ne elsewhere]
  · simp only [State.setCpu, update_self]
  · simp only [State.setCpu, update_self]
    exact Cpu.Masked.of_free free
  · simp only [Nested, State.setCpu, update_self]
    exact inv.nested c
  · intro t isProc
    rw [idle] at isProc
    cases isProc

end Locks

variable [DecidableEq τ]

/-- A trap or its end: the frames and the flag change while no lock is held. -/
theorem Local.trap (inv : Inv s) {flag : Bool} {frames : List Bool}
    (free : (s.cpus c).ncli = 0)
    (turns : Turns ((s.cpus c).flag :: s.frames (s.context c)) (flag :: frames)) :
    Local s c ((s.setFrames c frames).setCpu c { s.cpus c with flag := flag }) where
  others d elsewhere := by simp only [State.setCpu, State.setFrames, update_of_ne elsewhere]
  proc := by simp only [State.setCpu, update_self]
  place := rfl
  masked := by
    simp only [State.setCpu, update_self]
    exact Cpu.Masked.of_free free
  owners _ _ _ := Iff.rfl
  nested := by
    simp only [Nested, State.setCpu, State.setFrames, update_self]
    exact inv.nested c
  frames _ elsewhere := by simp only [State.setCpu, State.setFrames, update_of_ne elsewhere]
  turns t isProc := by
    have isContext : s.context c = .thread t := by rw [State.context, isProc]
    rw [isContext] at turns
    simp only [State.setCpu, State.setFrames, isContext, update_self, Cpu.value, if_pos free]
    exact turns

theorem Inv.interrupt (inv : Inv s) (stepped : s.interrupt c = .ok s') : Local s c s' := by
  obtain ⟨isOn, stepped⟩ := then_ok stepped
  cases stepped
  have free : (s.cpus c).ncli = 0 := by
    by_contra nested
    have off := (inv.masked c).off (lt_of_le_of_ne (inv.masked c).nonneg (Ne.symm nested))
    rw [isOn] at off
    cases off
  refine Local.trap inv free ?_
  rw [isOn]
  exact Turns.push false _

/-- A switch to the scheduler or from it: thread `t` leaves the CPU or enters it, and no
other thread is there. -/
theorem Inv.switch {cpu : Cpu τ κ} {here : Place ι}
    (inv : Inv s) (ncli : cpu.ncli = (s.cpus c).ncli) (flag : cpu.flag = (s.cpus c).flag)
    (pc : cpu.pc = (s.cpus c).pc) (alone : ∀ u, u ≠ t → s.place u ≠ .running c ∧ cpu.proc ≠ some u)
    (only : ∀ d, d ≠ c → s.place t ≠ .running d ∧ here ≠ .running d)
    (placed : cpu.proc = some t ↔ here = .running c) (started : here ≠ .forkret)
    (turns : Turns (s.stack t) ((s.setPlace c cpu t here).stack t)) :
    Kept s (s.setPlace c cpu t here) := by
  refine ⟨⟨?_, ?_, ?_⟩, ?_, ?_⟩
  · intro d
    obtain ⟨held, isHeld, counted⟩ := inv.nested d
    refine ⟨held, isHeld, ?_⟩
    by_cases same : d = c
    · rw [same] at counted ⊢
      simp only [State.setPlace, State.setCpu, update_self, ncli, pc]
      exact counted
    · simp only [State.setPlace, State.setCpu, update_of_ne same]
      exact counted
  · intro d
    by_cases same : d = c
    · rw [same]
      simp only [State.setPlace, State.setCpu, update_self]
      exact ⟨ncli ▸ (inv.masked c).nonneg, ncli ▸ flag ▸ (inv.masked c).off⟩
    · simp only [State.setPlace, State.setCpu, update_of_ne same]
      exact inv.masked d
  · intro d u
    by_cases sameCpu : d = c
    · rw [sameCpu]
      simp only [State.setPlace, State.setCpu, update_self]
      by_cases sameThread : u = t
      · rw [sameThread, update_self]
        exact placed
      · rw [update_of_ne sameThread]
        exact iff_of_false (alone u sameThread).2 (alone u sameThread).1
    · simp only [State.setPlace, State.setCpu, update_of_ne sameCpu]
      rw [inv.placed]
      by_cases sameThread : u = t
      · rw [sameThread, update_self]
        exact iff_of_false (only d sameCpu).1 (only d sameCpu).2
      · rw [update_of_ne sameThread]
  · intro u
    by_cases sameThread : u = t
    · rw [sameThread]
      exact turns
    · have same : (s.setPlace c cpu t here).stack u = s.stack u := by
        simp only [State.stack, State.setPlace, update_of_ne sameThread]
        cases isPlace : s.place u with
        | running d =>
          have elsewhere : d ≠ c := by
            rintro rfl
            exact (alone u sameThread).1 isPlace
          simp only [State.setCpu, update_of_ne elsewhere]
        | sched intena => rfl
        | forkret => rfl
      rw [same]
      exact Turns.stay _
  · intro u wasStarted
    by_cases sameThread : u = t
    · simp only [State.setPlace, sameThread, update_self]
      exact started
    · simp only [State.setPlace, update_of_ne sameThread]
      exact wasStarted

variable [DecidableEq κ]

theorem Inv.syscall (inv : Inv s) (stepped : s.syscall c = .ok s') : Local s c s' := by
  obtain ⟨allowed, stepped⟩ := then_ok stepped
  cases stepped
  have same : s.setFrames c ((s.cpus c).flag :: s.frames (s.context c)) =
      (s.setFrames c ((s.cpus c).flag :: s.frames (s.context c))).setCpu c
        { s.cpus c with flag := (s.cpus c).flag } := by
    simp only [State.setCpu, State.setFrames, Function.update_eq_self]
  rw [same]
  exact Local.trap inv allowed.2 (Turns.push _ _)

theorem Inv.iret (inv : Inv s) (stepped : s.iret c = .ok s') : Local s c s' := by
  obtain ⟨allowed, stepped⟩ := then_ok stepped
  split at stepped
  · cases stepped
  · rename_i saved rest isFrames
    cases stepped
    refine Local.trap inv allowed.2 ?_
    rw [isFrames]
    exact Turns.pop _ _

theorem Inv.sched (inv : Inv s) (stepped : s.sched ptable c = .ok s') : Kept s s' := by
  unfold State.sched at stepped
  split at stepped
  · cases stepped
  · rename_i t isProc
    have isPlace := (inv.placed c t).mp isProc
    have noted := (inv.masked c).noted
    rw [(inv.masked c).paired] at stepped
    simp only [bind, Except.bind, noted.paired, Cpu.value_noted] at stepped
    obtain ⟨-, stepped⟩ := then_ok stepped
    obtain ⟨-, stepped⟩ := else_ok stepped
    obtain ⟨-, stepped⟩ := else_ok stepped
    obtain ⟨-, stepped⟩ := else_ok stepped
    cases stepped
    refine inv.switch rfl rfl rfl ?_ ?_ (iff_of_false nofun nofun) nofun ?_
    · intro u other
      refine ⟨?_, nofun⟩
      intro isHere
      have isOther := (inv.placed c u).mpr isHere
      rw [isProc] at isOther
      exact other (Option.some.inj isOther).symm
    · intro d elsewhere
      refine ⟨?_, nofun⟩
      rw [isPlace]
      intro same
      exact elsewhere (Place.running.inj same).symm
    · simp only [State.stack, State.setPlace, State.setCpu, isPlace, update_self]
      exact Turns.stay _

theorem Inv.swtch (inv : Inv s) (stepped : s.swtch ptable c t = .ok s') : Kept s s' := by
  obtain ⟨⟨-, idle, -, isOne⟩, stepped⟩ := then_ok stepped
  have nobody : ∀ u, s.place u ≠ .running c := by
    intro u isHere
    have isProc := (inv.placed c u).mpr isHere
    rw [idle] at isProc
    cases isProc
  have inside : ¬ (s.cpus c).ncli = 0 := by omega
  -- The thread that comes is nowhere, and the CPU has no other one.
  have comes : ∀ intena, (∀ d, s.place t ≠ .running d) →
      Turns (s.stack t) (intena :: s.frames (.thread t)) →
      Kept s (s.setPlace c { s.cpus c with proc := some t, intena := intena } t (.running c)) := by
    intro intena away turns
    refine inv.switch rfl rfl rfl ?_ ?_ (iff_of_true rfl rfl) nofun ?_
    · intro u other
      exact ⟨nobody u, fun same => other (Option.some.inj same).symm⟩
    · intro d elsewhere
      exact ⟨away d, fun same => elsewhere (Place.running.inj same).symm⟩
    · simpa only [State.stack, State.setPlace, State.setCpu, update_self, Cpu.value, if_neg inside]
        using turns
  split at stepped
  · cases stepped
  · rename_i intena isPlace
    cases stepped
    refine comes intena (by rw [isPlace]; nofun) ?_
    simp only [State.stack, isPlace]
    exact Turns.stay _
  · rename_i isPlace
    cases stepped
    refine comes _ (by rw [isPlace]; nofun) ?_
    simp only [State.stack, isPlace]
    exact Turns.push _ _

/-! ## Runs -/

theorem Inv.step {action : ι × Call τ κ} (inv : Inv s)
    (stepped : s.step ptable action = .ok s') : Kept s s' := by
  obtain ⟨c, call⟩ := action
  cases call with
  | acquire lk => exact inv.kept (inv.acquire stepped)
  | xchg => exact inv.kept (inv.xchg stepped)
  | release lk => exact inv.kept (inv.release stepped)
  | leave => exact inv.kept (inv.leave stepped)
  | myproc => exact inv.kept (inv.myproc stepped)
  | interrupt => exact inv.kept (inv.interrupt stepped)
  | syscall => exact inv.kept (inv.syscall stepped)
  | iret => exact inv.kept (inv.iret stepped)
  | sti => exact inv.kept (inv.sti stepped)
  | sched => exact inv.sched stepped
  | swtch t => exact inv.swtch stepped

theorem Inv.run {actions : List (ι × Call τ κ)} (inv : Inv s)
    (ran : s.run ptable actions = .ok s') : Inv s' :=
  foldlM_keeps Inv (fun _ _ _ inv stepped => (inv.step stepped).inv) actions inv ran

/-- A thread that does not return from the traps it is in keeps the flags it has. -/
theorem Inv.run_stack {flag : Bool} {base : List Bool}
    {actions : List (ι × Call τ κ)} (inv : Inv s)
    (started : s.place t ≠ .forkret) {pushed : List Bool}
    (isStack : s.stack t = pushed ++ flag :: base) (ran : s.run ptable actions = .ok s')
    (inside : Along (State.step ptable) (fun s _ => base <:+ s.frames (.thread t)) s actions)
    (ends : base <:+ s'.frames (.thread t)) :
    ∃ pushed, s'.stack t = pushed ++ flag :: base := by
  induction actions generalizing s pushed with
  | nil =>
    cases ran
    exact ⟨pushed, isStack⟩
  | cons action rest ih =>
    obtain ⟨middle, stepped, restRan⟩ := foldlM_cons_ok ran
    have kept := inv.step stepped
    have restInside := inside.tail stepped
    have middleInside : base <:+ middle.frames (.thread t) := by
      cases rest with
      | nil =>
        cases restRan
        exact ends
      | cons next rest => exact restInside.head
    obtain ⟨pushed', isMiddle⟩ : ∃ pushed', middle.stack t = pushed' ++ flag :: base := by
      have turns := kept.turns t
      rw [isStack] at turns
      generalize before : pushed ++ flag :: base = flags at turns
      generalize after : middle.stack t = flags' at turns
      cases turns with
      | stay => exact ⟨pushed, before.symm⟩
      | push top => exact ⟨top :: pushed, congrArg (top :: ·) before.symm⟩
      | pop top =>
        cases pushed with
        | cons first others => exact ⟨others, (List.cons.inj before).2.symm⟩
        | nil =>
          -- then the frame below `flag` would be gone
          have isBase : base = flags' := (List.cons.inj before).2
          obtain ⟨top', isTop⟩ := State.stack_started (kept.started t started)
          have short := middleInside.length_le
          rw [isBase, ← after, isTop, List.length_cons] at short
          omega
    exact ih kept.inv (kept.started t started) isMiddle restRan restInside

/-! ## The flag of a thread -/

/-- The panics that a step can end in. -/
theorem Inv.panics {action : ι × Call τ κ} {message : String}
    (inv : Inv s) (stepped : s.step ptable action = .error (.panic message)) :
    message ∈ ["acquire", "release", "sched ptable.lock", "sched locks",
      "sched interruptible"] := by
  obtain ⟨c, call⟩ := action
  have noted := (inv.masked c).noted
  cases call with
  | acquire lk =>
    simp only [State.step, State.acquire, (inv.masked c).pushcli.paired, bind, Except.bind]
      at stepped
    split_ifs at stepped <;> cases stepped
    decide
  | xchg =>
    simp only [State.step, State.xchg] at stepped
    split at stepped
    · split_ifs at stepped
    · cases stepped
  | release lk =>
    simp only [State.step, State.release, (inv.masked c).paired, bind, Except.bind] at stepped
    split_ifs at stepped <;> cases stepped
    decide
  | leave =>
    simp only [State.step, State.leave] at stepped
    split_ifs at stepped with releasing
    · obtain ⟨held, -, counted⟩ := inv.nested c
      rw [releasing, Pc.pending] at counted
      rw [(inv.masked c).popcli (by omega)] at stepped
      cases stepped
    · cases stepped
  | myproc =>
    simp only [State.step, State.myproc, (inv.masked c).paired, bind, Except.bind] at stepped
    split_ifs at stepped
    cases stepped
  | interrupt =>
    simp only [State.step, State.interrupt] at stepped
    split_ifs at stepped
    cases stepped
  | syscall =>
    simp only [State.step, State.syscall] at stepped
    split_ifs at stepped
    cases stepped
  | iret =>
    simp only [State.step, State.iret] at stepped
    split_ifs at stepped
    · split at stepped <;> cases stepped
    · cases stepped
  | sti =>
    simp only [State.step, State.sti] at stepped
    split_ifs at stepped
    cases stepped
  | sched =>
    simp only [State.step, State.sched, (inv.masked c).paired, noted.paired, bind, Except.bind]
      at stepped
    split at stepped
    · cases stepped
    · split_ifs at stepped <;> cases stepped <;> decide
  | swtch t =>
    simp only [State.step, State.swtch] at stepped
    split_ifs at stepped
    · split at stepped <;> cases stepped
    · cases stepped

/-- In every run on any CPUs: interrupts are off on a CPU that holds a lock or has a positive
`ncli`; `popcli` never panics; and a thread without locks that goes on, with any calls, on any
CPUs and among any other threads, and is without locks again, has interrupts on exactly if it
had them on. In between it may take interrupts, but does not return from the trap it is in. -/
theorem interrupts_follow_thread {ptable : κ} {before : List (ι × Call τ κ)} {s : State ι τ κ}
    (reached : State.boot.run ptable before = .ok s) :
    (∀ c, (0 < (s.cpus c).ncli ∨ ∃ lk, s.owner lk = some c) → (s.cpus c).flag = false) ∧
    (∀ action message, s.step ptable action = .error (.panic message) →
      message ≠ "popcli" ∧ message ≠ "popcli - interruptible") ∧
    ∀ t c c' actions s', Unlocked s t c → s.run ptable actions = .ok s' →
      Along (State.step ptable) (fun during _ => s.frames (.thread t) <:+ during.frames (.thread t))
        s actions →
      s'.frames (.thread t) = s.frames (.thread t) → Unlocked s' t c' →
      (s'.cpus c').flag = (s.cpus c).flag := by
  have inv : Inv s := Inv.boot.run reached
  refine ⟨?_, ?_, ?_⟩
  · intro c locked
    refine (inv.masked c).off (locked.elim id ?_)
    intro owned
    obtain ⟨lk, isOwner⟩ := owned
    exact inv.held_pos isOwner
  · intro action message panics
    have among := inv.panics panics
    refine ⟨?_, ?_⟩
    · rintro rfl
      revert among
      decide
    · rintro rfl
      revert among
      decide
  · intro t c c' actions s' unlocked ran inside ends unlocked'
    have started : s.place t ≠ .forkret := by
      rw [unlocked.running]
      nofun
    have isBase : s.stack t = [] ++ (s.cpus c).flag :: s.frames (.thread t) :=
      inv.unlocked_stack unlocked
    obtain ⟨pushed, isStack⟩ := inv.run_stack started isBase ran inside
      (ends ▸ List.suffix_refl _)
    rw [(inv.run ran).unlocked_stack unlocked', ends] at isStack
    have lengths := congrArg List.length isStack
    simp only [List.length_append, List.length_cons] at lengths
    have nothing : pushed = [] := List.eq_nil_of_length_eq_zero (by omega)
    rw [nothing] at isStack
    exact (List.cons.inj isStack).1

/-- A new thread gets to the first of two CPUs and releases `ptable.lock`. -/
def arrives : List (Bool × Call Unit Unit) :=
  [(false, .sti), (false, .acquire ()), (false, .xchg), (false, .swtch ()),
    (false, .release ()), (false, .leave)]

/-- It yields, and the scheduler of the other CPU takes it up. -/
def migrates : List (Bool × Call Unit Unit) :=
  [(false, .acquire ()), (false, .xchg), (false, .sched), (false, .release ()), (false, .leave),
    (true, .acquire ()), (true, .xchg), (true, .swtch ()), (true, .release ()), (true, .leave)]

def reach (actions : List (Bool × Call Unit Unit)) : State Bool Unit Unit :=
  match State.boot.run () actions with
  | .ok s => s
  | .error _ => State.boot

theorem interrupts_follow_thread_migrates :
    State.boot.run () arrives = .ok (reach arrives) ∧
      (reach arrives).run () migrates = .ok (reach (arrives ++ migrates)) ∧
      Unlocked (reach arrives) () false ∧ Unlocked (reach (arrives ++ migrates)) () true ∧
      ((reach (arrives ++ migrates)).cpus true).flag = ((reach arrives).cpus false).flag := by
  have reached : State.boot.run () arrives = .ok (reach arrives) := rfl
  have ran : (reach arrives).run () migrates = .ok (reach (arrives ++ migrates)) := rfl
  have before : Unlocked (reach arrives) () false := ⟨rfl, rfl, fun _ => nofun⟩
  have after : Unlocked (reach (arrives ++ migrates)) () true := ⟨rfl, rfl, fun _ => nofun⟩
  have same := (interrupts_follow_thread reached).2.2 () false true migrates _ before ran
    (by decide) rfl after
  exact ⟨reached, ran, before, after, same⟩

end Invariant

end Rexv6.Locking.Interrupts
