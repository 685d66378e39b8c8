import Rexv6.Foundation.Execution
import Rexv6.Sched.Machine

/-!
Contract: what one action can do to the process table and to the CPUs.

Owns: the five shapes of a step, the invariant that ties `p->state`, the CPUs'
current processes, `p->chan` and the slots that `fork` is filling together, and
that every step from a state with the invariant has one of the shapes.

Does not own: parents, pids and the results of calls.
-/

namespace Rexv6.Sched

open Rexv6.Foundation.Execution (bind_ok else_ok then_ok)
open Function (update update_of_ne update_self)

variable {ncpu : Nat}

def Context.asleep : Context → Bool
  | .sleep | .wait => true
  | .forkret | .yield => false

/-- How the code may change `p->state`. -/
inductive Edge : ProcState → ProcState → Prop
  | allocated : Edge .unused .embryo
  | ready : Edge .embryo .runnable
  | dispatched : Edge .runnable .running
  | yielded : Edge .running .runnable
  | slept : Edge .running .sleeping
  | exited : Edge .running .zombie
  | woken : Edge .sleeping .runnable
  | reaped : Edge .zombie .unused
  | abandoned : Edge .embryo .unused

def Moves (before after : ProcState) : Prop := after = before ∨ Edge before after

/-! ## The invariant -/

structure Inv (s : State ncpu) : Prop where
  away : ∀ c p, (s.cpus c).scheduler = .away p ↔ (s.cpus c).proc = some p
  looping : ∀ c next, (s.cpus c).scheduler = .loop next → s.lock = some c
  running : ∀ p, (s.procs p).state = .running ↔ ∃ c, (s.cpus c).proc = some p
  alone : ∀ c d p, (s.cpus c).proc = some p → (s.cpus d).proc = some p → c = d
  /-- The last case is a woken thread that has got its CPU but has not cleared
  `p->chan` yet. -/
  chan : ∀ p, (s.procs p).chan ≠ none → (s.procs p).context.asleep = true ∧
    ((s.procs p).state = .sleeping ∨ (s.procs p).state = .runnable ∨
      ((s.procs p).state = .running ∧ ∃ c, s.lock = some c ∧ (s.cpus c).proc = some p))
  embryo : ∀ p f, (s.procs p).fork = some f → (s.procs f.np).state = .embryo
  owner : ∀ p q f g, (s.procs p).fork = some f → (s.procs q).fork = some g → f.np = g.np → p = q

namespace Inv

variable {s : State ncpu} {c : Fin ncpu} {p : Slot}

/-- A CPU whose scheduler is not inside `swtch` has no current process. -/
theorem proc_eq_none (inv : Inv s) (here : ∀ p, (s.cpus c).scheduler ≠ .away p) :
    (s.cpus c).proc = none := by
  cases found : (s.cpus c).proc with
  | none => rfl
  | some p => exact absurd ((inv.away c p).mpr found) (here p)

theorem state_of_current (inv : Inv s) (current : (s.cpus c).proc = some p) :
    (s.procs p).state = .running :=
  (inv.running p).mpr ⟨c, current⟩

/-- A thread that does not hold `ptable.lock` has no channel. -/
theorem chan_of_current (inv : Inv s) (current : (s.cpus c).proc = some p)
    (outside : s.lock ≠ some c) : (s.procs p).chan = none := by
  by_contra set
  have running := inv.state_of_current current
  rcases (inv.chan p set).2 with asleep | runnable | ⟨_, d, held, onD⟩
  · rw [running] at asleep
    cases asleep
  · rw [running] at runnable
    cases runnable
  · rw [inv.alone c d p current onD] at outside
    exact outside held

/-- Slots that are free or being filled have no channel. -/
theorem chan_of_new (inv : Inv s)
    (new : (s.procs p).state = .unused ∨ (s.procs p).state = .embryo) :
    (s.procs p).chan = none := by
  by_contra set
  rcases (inv.chan p set).2 with asleep | runnable | ⟨running, _⟩ <;> rcases new with new | new <;>
    simp_all

theorem ne_of_new (inv : Inv s) {np : Slot} (current : (s.cpus c).proc = some p)
    (new : (s.procs np).state = .unused ∨ (s.procs np).state = .embryo) : np ≠ p := by
  intro same
  have running := inv.state_of_current current
  rw [same, running] at new
  rcases new with new | new <;> cases new

end Inv

/-! ## Shapes -/

/-- What `wakeup1`, `kill`, the loop of `exit`, the end of `sleep` and `wait` do
to a slot. -/
structure Kept (p q : Proc) : Prop where
  state : q.state = p.state ∨ (p.state = .sleeping ∧ q.state = .runnable) ∨
    (p.state = .zombie ∧ q.state = .unused)
  chan : q.chan = p.chan ∨ q.chan = none
  context : q.context = p.context
  fork : q.fork = p.fork

namespace Kept

variable {p q r : Proc}

theorem refl (p : Proc) : Kept p p := ⟨Or.inl rfl, Or.inl rfl, rfl, rfl⟩

theorem trans (first : Kept p q) (second : Kept q r) : Kept p r := by
  obtain ⟨state, chan, context, fork⟩ := first
  obtain ⟨state', chan', context', fork'⟩ := second
  refine ⟨?_, ?_, context'.trans context, fork'.trans fork⟩
  · rcases state with same | ⟨was, is⟩ | ⟨was, is⟩
    · rw [same] at state'
      exact state'
    · rw [is] at state'
      simp only [reduceCtorEq, false_and, or_false] at state'
      exact Or.inr (Or.inl ⟨was, state'⟩)
    · rw [is] at state'
      simp only [reduceCtorEq, false_and, or_false] at state'
      exact Or.inr (Or.inr ⟨was, state'⟩)
  · rcases chan' with same | cleared
    · rw [same]
      exact chan
    · exact Or.inr cleared

/-- A slot keeps any state other than `SLEEPING` and `ZOMBIE`. -/
theorem state_iff (kept : Kept p q) {state : ProcState}
    (other : state = .running ∨ state = .embryo) : q.state = state ↔ p.state = state := by
  rcases kept.state with same | ⟨was, is⟩ | ⟨was, is⟩
  · rw [same]
  · rcases other with rfl | rfl <;> simp [was, is]
  · rcases other with rfl | rfl <;> simp [was, is]

theorem moves (kept : Kept p q) : Moves p.state q.state := by
  rcases kept.state with same | ⟨was, is⟩ | ⟨was, is⟩
  · exact Or.inl same
  · rw [was, is]
    exact Or.inr .woken
  · rw [was, is]
    exact Or.inr .reaped

end Kept

/-- What a process that leaves its CPU has made of itself. -/
structure Left (p q : Proc) : Prop where
  state : q.state = .runnable ∨ q.state = .sleeping ∨ q.state = .zombie
  chan : q.chan ≠ none → q.state = .sleeping ∧ q.context.asleep = true
  fork : q.fork = p.fork

/-- A step of the call of `fork` of which `p` is the caller's slot before it, and
`np` and `np'` are the new slot before and after it. -/
structure Fills (p np np' : Proc) (slot : Slot) (fork' : Option Fork) : Prop where
  moves : Moves np.state np'.state
  before : (np.state = .unused ∧ p.fork = none) ∨
    (np.state = .embryo ∧ ∃ f, p.fork = some f ∧ f.np = slot)
  after : np'.state = .unused ∨ np'.state = .embryo ∨ np'.state = .runnable
  chan : np'.chan = np.chan
  fork : np'.fork = np.fork ∨ np'.fork = none
  owned : ∀ f, fork' = some f → f.np = slot ∧ np'.state = .embryo

inductive Transition (s s' : State ncpu) : Prop
  /-- A scheduler goes on without a process. -/
  | turn (c : Fin ncpu) (cpu : Cpu) (procs : s'.procs = s.procs)
      (cpus : s'.cpus = update s.cpus c cpu) (was : (s.cpus c).proc = none)
      (is : cpu.proc = none) (here : ∀ p, cpu.scheduler ≠ .away p)
      (before : s.lock = none ∨ s.lock = some c) (after : s'.lock = none ∨ s'.lock = some c)
      (looping : ∀ next, cpu.scheduler = .loop next → s'.lock = some c)
  /-- A scheduler switches to a process. -/
  | dispatch (c : Fin ncpu) (p : Slot)
      (procs : s'.procs = update s.procs p { s.procs p with state := .running })
      (cpus : s'.cpus = update s.cpus c { proc := some p, scheduler := .away p })
      (was : (s.cpus c).proc = none) (runnable : (s.procs p).state = .runnable)
      (before : s.lock = some c) (after : s'.lock = some c)
  /-- A process switches to the scheduler. -/
  | leave (c : Fin ncpu) (p : Slot) (q : Proc) (table : Slot → Proc) (next : Nat)
      (procs : s'.procs = update table p q)
      (cpus : s'.cpus = update s.cpus c { proc := none, scheduler := .loop next })
      (was : (s.cpus c).proc = some p) (kept : ∀ slot, Kept (s.procs slot) (table slot))
      (left : Left (s.procs p) q) (before : s.lock = none ∨ s.lock = some c)
      (after : s'.lock = some c)
  /-- A section that ends with `release`. -/
  | settle (cpus : s'.cpus = s.cpus) (kept : ∀ slot, Kept (s.procs slot) (s'.procs slot))
      (before : s.lock = none ∨
        ∃ c p, s.lock = some c ∧ (s.cpus c).proc = some p ∧ (s'.procs p).chan = none)
      (after : s'.lock = none)
  /-- A step of `fork`. -/
  | fill (c : Fin ncpu) (p np : Slot) (np' : Proc) (fork' : Option Fork)
      (procs : s'.procs =
        update (update s.procs np np') p { s.procs p with fork := fork' })
      (cpus : s'.cpus = s.cpus) (was : (s.cpus c).proc = some p)
      (fills : Fills (s.procs p) (s.procs np) np' np fork') (lock : s'.lock = s.lock)

/-! ## The table operations -/

theorem wakeup1_kept (procs : Slot → Proc) (chan : Option Chan) (slot : Slot) :
    Kept (procs slot) (wakeup1 procs chan slot) := by
  unfold wakeup1
  by_cases woken : (procs slot).state = .sleeping ∧ (procs slot).chan = chan
  · simp only [woken, and_self, if_true]
    exact ⟨Or.inr (Or.inl ⟨woken.1, rfl⟩), Or.inl woken.2.symm, rfl, rfl⟩
  · simp only [woken, if_false]
    exact Kept.refl _

theorem kept_update {procs : Slot → Proc} {slot : Slot} {q : Proc} (kept : Kept (procs slot) q)
    (other : Slot) : Kept (procs other) (update procs slot q other) := by
  by_cases same : other = slot
  · rw [same, update_self]
    exact kept
  · rw [update_of_ne same]
    exact Kept.refl _

theorem adopt_kept (curproc initproc : Slot) (procs : Slot → Proc) (child slot : Slot) :
    Kept (procs slot) (adopt curproc initproc procs child slot) := by
  have renamed : ∀ other, Kept (procs other)
      (update procs child { procs child with parent := some initproc } other) :=
    kept_update ⟨Or.inl rfl, Or.inl rfl, rfl, rfl⟩
  unfold adopt
  by_cases isChild : (procs child).parent = some curproc
  · by_cases exited : (procs child).state = .zombie
    · rw [if_pos isChild, if_pos exited]
      exact (renamed slot).trans (wakeup1_kept _ _ slot)
    · rw [if_pos isChild, if_neg exited]
      exact renamed slot
  · rw [if_neg isChild]
    exact Kept.refl _

theorem adopt_all_kept (curproc initproc : Slot) (children : List Slot) :
    ∀ (procs : Slot → Proc) (slot : Slot),
      Kept (procs slot) (children.foldl (adopt curproc initproc) procs slot) := by
  induction children with
  | nil =>
    intro procs slot
    exact Kept.refl _
  | cons child rest ih =>
    intro procs slot
    exact (adopt_kept curproc initproc procs child slot).trans (ih _ slot)

theorem zombieChild_state {procs : Slot → Proc} {curproc child : Slot}
    (found : zombieChild procs curproc = some child) :
    (procs child).parent = some curproc ∧ (procs child).state = .zombie := by
  have holds := List.find?_some found
  simpa using holds

/-! ## Every step has a shape -/

section Shapes

variable {s s' : State ncpu} {c : Fin ncpu} {p : Slot}

section Statements

variable {α : Type} {result : α}

theorem current_ok {rest : Slot → Except Stop α} (ran : s.current c >>= rest = .ok result) :
    ∃ p, (s.cpus c).proc = some p ∧ s.lock ≠ some c ∧ rest p = .ok result := by
  obtain ⟨p, found, ran⟩ := bind_ok ran
  unfold State.current at found
  split at found
  · rename_i q onCpu
    obtain ⟨outside, found⟩ := else_ok found
    cases found
    exact ⟨p, onCpu, outside, ran⟩
  · cases found

theorem acquire_ok {rest : State ncpu → Except Stop α}
    (ran : s.acquire c >>= rest = .ok result) :
    s.lock = none ∧ rest { s with lock := some c } = .ok result := by
  obtain ⟨locked, taken, ran⟩ := bind_ok ran
  obtain ⟨free, taken⟩ := then_ok taken
  cases taken
  exact ⟨free, ran⟩

end Statements

theorem sched_ok (switched : s.sched c p = .ok s') :
    s.lock = some c ∧ ∃ next, s' = s.setCpu c { proc := none, scheduler := .loop next } := by
  obtain ⟨held, switched⟩ := else_ok switched
  obtain ⟨-, switched⟩ := else_ok switched
  split at switched
  · exact ⟨not_not.mp held, _, (Except.ok.inj switched).symm⟩
  · cases switched

theorem schedule_transition (inv : Inv s) (stepped : s.schedule c = .ok s') :
    Transition s s' := by
  unfold State.schedule at stepped
  split at stepped
  · rename_i idle
    obtain ⟨free, stepped⟩ := acquire_ok stepped
    cases stepped
    refine .turn c _ rfl rfl (inv.proc_eq_none ?_) rfl (by simp) (Or.inl free) (Or.inr rfl) ?_
    · simp [idle]
    · intro _ _
      rfl
  · rename_i next looping
    have held := inv.looping c next looping
    have alone : (s.cpus c).proc = none := inv.proc_eq_none (by simp [looping])
    by_cases inTable : next < nProc
    · simp only [inTable, dite_true] at stepped
      split at stepped
      · rename_i runnable
        cases stepped
        exact .dispatch c ⟨next, inTable⟩ rfl rfl alone runnable held held
      · cases stepped
        refine .turn c _ rfl rfl alone rfl (by simp) (Or.inr held) (Or.inr held) ?_
        intro _ _
        exact held
    · simp only [inTable, dite_false] at stepped
      cases stepped
      exact .turn c _ rfl rfl alone rfl (by simp) (Or.inr held) (Or.inl rfl) (by simp)
  · cases stepped

/-- A process that changes itself and calls `sched`, after changes that keep the
other slots. -/
theorem sched_transition {table : Slot → Proc} {q : Proc} {middle : State ncpu}
    (switched : middle.sched c p = .ok s') (was : (s.cpus c).proc = some p)
    (kept : ∀ slot, Kept (s.procs slot) (table slot))
    (procs : middle.procs = update table p q) (cpus : middle.cpus = s.cpus)
    (before : s.lock = none ∨ s.lock = some c) (left : Left (s.procs p) q) :
    Transition s s' := by
  obtain ⟨held, next, rfl⟩ := sched_ok switched
  refine .leave c p q table next procs ?_ was kept left before held
  simp [State.setCpu, cpus]

theorem waitLocked_transition {middle : State ncpu} (stepped : middle.waitLocked c p = .ok s')
    (was : (s.cpus c).proc = some p) (before : s.lock = none ∨ s.lock = some c)
    (kept : ∀ slot, Kept (s.procs slot) (middle.procs slot)) (cpus : middle.cpus = s.cpus)
    (chan : (middle.procs p).chan = none) : Transition s s' := by
  -- Both ends of the section that release the lock leave the caller's channel empty.
  have settled : ∀ (cpus' : s'.cpus = s.cpus)
      (kept' : ∀ slot, Kept (middle.procs slot) (s'.procs slot)) (after : s'.lock = none),
      Transition s s' := by
    intro cpus' kept' after
    refine .settle cpus' (fun slot => (kept slot).trans (kept' slot)) ?_ after
    refine before.imp id fun held => ⟨c, p, held, was, ?_⟩
    rcases (kept' p).chan with same | cleared
    · rw [same]
      exact chan
    · exact cleared
  unfold State.waitLocked at stepped
  split at stepped
  · rename_i child found
    have exited := (zombieChild_state found).2
    cases stepped
    apply settled cpus _ rfl
    exact kept_update ⟨Or.inr (Or.inr ⟨exited, rfl⟩), Or.inl rfl, rfl, rfl⟩
  · split at stepped
    · cases stepped
      exact settled cpus (fun slot => Kept.refl _) rfl
    · refine sched_transition stepped was kept rfl cpus before ?_
      exact ⟨Or.inr (Or.inl rfl), fun _ => ⟨rfl, rfl⟩, (kept p).fork⟩

theorem resume_transition (inv : Inv s) (stepped : s.resume c = .ok s') : Transition s s' := by
  obtain ⟨held, stepped⟩ := then_ok stepped
  split at stepped
  · rename_i p away
    have was := (inv.away c p).mp away
    -- A thread that was not in `sleep` has no channel to clear.
    have released : (s.procs p).context.asleep = false → Transition s s.release := by
      intro awake
      refine .settle rfl (fun slot => Kept.refl _) (Or.inr ⟨c, p, held, was, ?_⟩) rfl
      by_contra set
      have asleep := (inv.chan p set).1
      rw [awake] at asleep
      cases asleep
    have cleared : ∀ slot, Kept (s.procs slot)
        ((s.setProc p { s.procs p with chan := none }).procs slot) :=
      kept_update ⟨Or.inl rfl, Or.inr rfl, rfl, rfl⟩
    split at stepped
    · rename_i context
      cases stepped
      exact released (by rw [context]; rfl)
    · rename_i context
      cases stepped
      exact released (by rw [context]; rfl)
    · cases stepped
      refine .settle rfl cleared (Or.inr ⟨c, p, held, was, ?_⟩) rfl
      simp [State.setProc, State.release]
    · refine waitLocked_transition stepped was (Or.inr held) cleared rfl ?_
      simp [State.setProc]
  · cases stepped

theorem yield_transition (inv : Inv s) (stepped : s.yield c = .ok s') : Transition s s' := by
  obtain ⟨p, was, outside, stepped⟩ := current_ok stepped
  obtain ⟨free, stepped⟩ := acquire_ok stepped
  refine sched_transition stepped was (fun slot => Kept.refl _) rfl rfl (Or.inl free) ?_
  refine ⟨Or.inl rfl, ?_, rfl⟩
  intro set
  exact absurd (inv.chan_of_current was outside) set

theorem sleep_transition {chan : Chan} (stepped : s.sleep c chan = .ok s') : Transition s s' := by
  obtain ⟨p, was, _, stepped⟩ := current_ok stepped
  obtain ⟨-, stepped⟩ := else_ok stepped
  obtain ⟨free, stepped⟩ := acquire_ok stepped
  refine sched_transition stepped was (fun slot => Kept.refl _) rfl rfl (Or.inl free) ?_
  exact ⟨Or.inr (Or.inl rfl), fun _ => ⟨rfl, rfl⟩, rfl⟩

theorem wakeup_transition {chan : Chan} (stepped : s.wakeup c chan = .ok s') :
    Transition s s' := by
  obtain ⟨free, stepped⟩ := acquire_ok stepped
  cases stepped
  exact .settle rfl (fun slot => wakeup1_kept _ _ slot) (Or.inl free) rfl

theorem kill_transition {pid : BitVec 32} (stepped : s.kill c pid = .ok s') :
    Transition s s' := by
  obtain ⟨p, _, _, stepped⟩ := current_ok stepped
  obtain ⟨free, stepped⟩ := acquire_ok stepped
  split at stepped
  · rename_i slot target
    cases stepped
    refine .settle rfl (kept_update ?_) (Or.inl free) rfl
    by_cases asleep : (s.procs slot).state = .sleeping
    · simp only [asleep, if_true]
      exact ⟨Or.inr (Or.inl ⟨asleep, rfl⟩), Or.inl rfl, rfl, rfl⟩
    · simp only [asleep, if_false]
      exact ⟨Or.inl rfl, Or.inl rfl, rfl, rfl⟩
  · cases stepped
    exact .settle rfl (fun slot => Kept.refl _) (Or.inl free) rfl

theorem exit_transition (inv : Inv s) (stepped : s.exit c = .ok s') : Transition s s' := by
  obtain ⟨p, was, outside, stepped⟩ := current_ok stepped
  obtain ⟨-, stepped⟩ := else_ok stepped
  obtain ⟨-, stepped⟩ := else_ok stepped
  obtain ⟨free, stepped⟩ := acquire_ok stepped
  have kept : ∀ slot, Kept (s.procs slot) (slots.foldl (adopt p s.initproc)
      (wakeup1 s.procs ((s.procs p).parent.map .proc)) slot) := by
    intro slot
    exact (wakeup1_kept _ _ slot).trans (adopt_all_kept p s.initproc slots _ slot)
  dsimp only at stepped
  generalize slots.foldl (adopt p s.initproc)
    (wakeup1 s.procs ((s.procs p).parent.map .proc)) = table at stepped kept
  refine sched_transition stepped was kept rfl rfl (Or.inl free) ?_
  refine ⟨Or.inr (Or.inr rfl), ?_, (kept p).fork⟩
  intro set
  refine absurd ?_ set
  have none := inv.chan_of_current was outside
  rcases (kept p).chan with same | cleared
  · exact same.trans none
  · exact cleared

theorem wait_transition (inv : Inv s) (stepped : s.wait c = .ok s') : Transition s s' := by
  obtain ⟨p, was, outside, stepped⟩ := current_ok stepped
  obtain ⟨-, stepped⟩ := else_ok stepped
  obtain ⟨free, stepped⟩ := acquire_ok stepped
  exact waitLocked_transition stepped was (Or.inl free) (fun slot => Kept.refl _) rfl
    (inv.chan_of_current was outside)

theorem fork_transition (inv : Inv s) (stepped : s.fork c = .ok s') : Transition s s' := by
  obtain ⟨p, was, _, stepped⟩ := current_ok stepped
  obtain ⟨idle, stepped⟩ := else_ok stepped
  obtain ⟨free, stepped⟩ := acquire_ok stepped
  split at stepped
  · cases stepped
    exact .settle rfl (fun slot => Kept.refl _) (Or.inl free) rfl
  · rename_i np isFree
    have unused : (s.procs np).state = .unused := by simpa using List.find?_some isFree
    have different := inv.ne_of_new was (Or.inl unused)
    cases stepped
    refine .fill c p np { s.procs np with state := .embryo, pid := s.nextpid }
      (some (.kalloc np)) ?_ rfl was ?_ free.symm
    · simp [State.setProc, State.release, different.symm]
    · refine ⟨?_, Or.inl ⟨unused, not_not.mp idle⟩, by simp, rfl, Or.inl rfl, by simp [Fork.np]⟩
      rw [unused]
      exact Or.inr .allocated

/-- A call of `fork` goes on with the slot that it fills. -/
theorem filling_transition {f : Fork} (inv : Inv s) (was : (s.cpus c).proc = some p)
    (filling : (s.procs p).fork = some f) (np' : Proc) (fork' : Option Fork)
    (procs : p ≠ f.np →
      s'.procs = update (update s.procs f.np np') p { s.procs p with fork := fork' })
    (cpus : s'.cpus = s.cpus) (lock : s'.lock = s.lock)
    (moves : Moves (s.procs f.np).state np'.state) (chan : np'.chan = (s.procs f.np).chan)
    (fork : np'.fork = (s.procs f.np).fork ∨ np'.fork = none)
    (owned : ∀ g, fork' = some g → g.np = f.np ∧ np'.state = (s.procs f.np).state) :
    Transition s s' := by
  have embryo := inv.embryo p f filling
  have different := inv.ne_of_new was (Or.inr embryo)
  refine .fill c p f.np np' fork' (procs different.symm) cpus was
    ⟨moves, Or.inr ⟨embryo, f, filling, rfl⟩, ?_, chan, fork, embryo ▸ owned⟩ lock
  rw [embryo] at moves
  generalize np'.state = state at moves
  rcases moves with rfl | ⟨_⟩ | ⟨_⟩
  · exact Or.inr (Or.inl rfl)
  · exact Or.inr (Or.inr rfl)
  · exact Or.inl rfl

theorem forkNext_transition {success : Bool} (inv : Inv s)
    (stepped : s.forkNext c success = .ok s') : Transition s s' := by
  obtain ⟨p, was, _, stepped⟩ := current_ok stepped
  have abandoned : ∀ f, (s.procs p).fork = some f → Transition s (s.abandon p f.np) := by
    intro f filling
    refine filling_transition inv was filling { s.procs f.np with state := .unused } none ?_
      rfl rfl ?_ rfl (Or.inl rfl) (by simp)
    · intro different
      simp [State.abandon, State.setProc, State.log, different]
    · rw [inv.embryo p f filling]
      exact Or.inr .abandoned
  split at stepped
  · cases stepped
  · rename_i np filling
    split at stepped
    · cases stepped
      refine filling_transition inv was filling
        { s.procs np with context := .forkret, fork := none } (some (.copyuvm np)) ?_ rfl rfl
        (Or.inl rfl) rfl (Or.inr rfl) (by simp [Fork.np])
      intro (different : p ≠ np)
      simp [State.setProc, Fork.np, different]
    · cases stepped
      exact abandoned _ filling
  · rename_i np filling
    split at stepped
    · cases stepped
      refine filling_transition inv was filling { s.procs np with parent := some p }
        (some (.ready np)) ?_ rfl rfl (Or.inl rfl) rfl (Or.inl rfl) (by simp [Fork.np])
      intro (different : p ≠ np)
      simp [State.setProc, Fork.np, different]
    · cases stepped
      exact abandoned _ filling
  · rename_i np filling
    obtain ⟨free, stepped⟩ := acquire_ok stepped
    cases stepped
    refine filling_transition inv was filling { s.procs np with state := .runnable } none ?_ rfl
      free.symm ?_ rfl (Or.inl rfl) (by simp)
    · intro (different : p ≠ np)
      simp [State.setProc, State.log, State.release, Fork.np, different]
    · rw [inv.embryo p _ filling]
      exact Or.inr .ready

theorem step_transition {action : Action ncpu} (inv : Inv s) (stepped : s.step action = .ok s') :
    Transition s s' := by
  cases action with
  | schedule c => exact schedule_transition inv stepped
  | resume c => exact resume_transition inv stepped
  | yield c => exact yield_transition inv stepped
  | sleep c chan => exact sleep_transition stepped
  | wakeup c chan => exact wakeup_transition stepped
  | kill c pid => exact kill_transition stepped
  | fork c => exact fork_transition inv stepped
  | forkNext c success => exact forkNext_transition inv stepped
  | exit c => exact exit_transition inv stepped
  | wait c => exact wait_transition inv stepped

end Shapes

end Rexv6.Sched
