import Rexv6.Foundation.Execution
import Rexv6.Sched.Transitions

/-!
Contract: no process runs on two CPUs.

Owns: that every shape of a step keeps the invariant and moves `p->state` along
the edges only, and what follows for every state that the machine reaches after
boot, on any number of CPUs.

Does not own: which process is chosen, and whether one is ever chosen.
-/

namespace Rexv6.Sched

open Rexv6.Foundation
open Function (update update_of_ne update_self)

variable {ncpu : Nat} {s s' : State ncpu}

/-- A process that waits on a channel sleeps or can be run, before a step and after what the
step may do to it, unless it is the process of the CPU that holds the lock. -/
theorem Inv.waits (inv : Inv s) {slot : Slot} {q : Proc} (kept : Kept (s.procs slot) q)
    (set : q.chan ≠ none) (apart : ∀ d, s.lock = some d → (s.cpus d).proc ≠ some slot)
    (holds : Prop) :
    q.context.asleep = true ∧ (q.state = .sleeping ∨ q.state = .runnable ∨ holds) := by
  have setBefore : (s.procs slot).chan ≠ none := by
    rcases kept.chan with same | cleared
    · rwa [same] at set
    · exact absurd cleared set
  obtain ⟨asleep, state⟩ := inv.chan slot setBefore
  rw [kept.context]
  refine ⟨asleep, ?_⟩
  rcases kept.state with same | ⟨_, is⟩ | ⟨exited, _⟩
  · rw [same]
    refine state.imp id (Or.imp id ?_)
    rintro ⟨_, d, held, onD⟩
    exact absurd onD (apart d held)
  · exact Or.inr (Or.inl is)
  · simp [exited] at state

/-! ## A scheduler turns -/

section Cpus

variable {c : Fin ncpu} {cpu : Cpu}

theorem update_proc_iff (was : (s.cpus c).proc = none) (is : cpu.proc = none) (d : Fin ncpu)
    (p : Slot) :
    (update s.cpus c cpu d).proc = some p ↔ (s.cpus d).proc = some p := by
  by_cases same : d = c
  · rw [same, update_self, is, was]
  · rw [update_of_ne same]

/-- When `c` has the lock or it is free, nobody else has it. -/
theorem holder_eq (lock : s.lock = none ∨ s.lock = some c) {d : Fin ncpu}
    (held : s.lock = some d) : d = c := by
  rcases lock with free | mine
  · rw [free] at held
    cases held
  · rw [mine] at held
    exact (Option.some.inj held).symm

/-- The scheduler of `c` gets the record `cpu`, which agrees with itself. -/
theorem away_update (away : ∀ d p, (s.cpus d).scheduler = .away p ↔ (s.cpus d).proc = some p)
    (agrees : ∀ p, cpu.scheduler = .away p ↔ cpu.proc = some p) (d : Fin ncpu) (p : Slot) :
    (update s.cpus c cpu d).scheduler = .away p ↔
      (update s.cpus c cpu d).proc = some p := by
  by_cases same : d = c
  · rw [same, update_self]
    exact agrees p
  · rw [update_of_ne same]
    exact away d p

theorem looping_update (inv : Inv s) (before : s.lock = none ∨ s.lock = some c)
    {lock : Option (Fin ncpu)} (loops : ∀ next, cpu.scheduler = .loop next → lock = some c)
    (d : Fin ncpu) (next : Nat)
    (looping : (update s.cpus c cpu d).scheduler = .loop next) : lock = some d := by
  by_cases same : d = c
  · rw [same, update_self] at looping
    rw [same]
    exact loops next looping
  · rw [update_of_ne same] at looping
    exact absurd (holder_eq before (inv.looping d next looping)) same

theorem Inv.turn (inv : Inv s) (procs : s'.procs = s.procs)
    (cpus : s'.cpus = update s.cpus c cpu) (was : (s.cpus c).proc = none)
    (is : cpu.proc = none) (here : ∀ p, cpu.scheduler ≠ .away p)
    (before : s.lock = none ∨ s.lock = some c)
    (looping : ∀ next, cpu.scheduler = .loop next → s'.lock = some c) : Inv s' := by
  have same := update_proc_iff was is
  constructor
  · rw [cpus]
    exact away_update inv.away fun p => iff_of_false (here p) (by simp [is])
  · rw [cpus]
    exact looping_update inv before looping
  · intro p
    rw [procs, cpus]
    simp only [same]
    exact inv.running p
  · intro d e p onD onE
    rw [cpus, same] at onD onE
    exact inv.alone d e p onD onE
  · intro p set
    rw [procs] at set ⊢
    refine inv.waits (Kept.refl _) set ?_ _
    -- The holder can only be `c`, which has no process.
    intro d held onD
    rw [holder_eq before held, was] at onD
    cases onD
  · rw [procs]
    exact inv.embryo
  · rw [procs]
    exact inv.owner

end Cpus

/-! ## A process gets a CPU, and leaves it -/

section Switch

variable {c : Fin ncpu} {p : Slot}

theorem embryos_keep (inv : Inv s) (fork : ∀ q, (s'.procs q).fork = (s.procs q).fork)
    (embryo : ∀ q, (s.procs q).state = .embryo → (s'.procs q).state = .embryo) :
    (∀ q f, (s'.procs q).fork = some f → (s'.procs f.np).state = .embryo) ∧
      ∀ q r f g, (s'.procs q).fork = some f → (s'.procs r).fork = some g → f.np = g.np → q = r := by
  constructor
  · intro q f filling
    rw [fork] at filling
    exact embryo _ (inv.embryo q f filling)
  · intro q r f g first second same
    rw [fork] at first second
    exact inv.owner q r f g first second same

theorem Inv.dispatch (inv : Inv s)
    (procs : s'.procs = update s.procs p { s.procs p with state := .running })
    (cpus : s'.cpus = update s.cpus c { proc := some p, scheduler := .away p })
    (was : (s.cpus c).proc = none) (runnable : (s.procs p).state = .runnable)
    (before : s.lock = some c) (after : s'.lock = some c) : Inv s' := by
  have nowhere : ∀ d, (s.cpus d).proc ≠ some p := by
    intro d onD
    have running := inv.state_of_current onD
    rw [runnable] at running
    cases running
  have onC : (s'.cpus c).proc = some p := by rw [cpus, update_self]
  have others : ∀ d, d ≠ c → s'.cpus d = s.cpus d := by
    intro d other
    rw [cpus, update_of_ne other]
  have other : ∀ q, q ≠ p → s'.procs q = s.procs q := by
    intro q different
    rw [procs, update_of_ne different]
  have here : s'.procs p = { s.procs p with state := .running } := by
    rw [procs, update_self]
  have fork : ∀ q, (s'.procs q).fork = (s.procs q).fork := by
    intro q
    by_cases isP : q = p
    · rw [isP, here]
    · rw [other q isP]
  have embryo : ∀ q, (s.procs q).state = .embryo → (s'.procs q).state = .embryo := by
    intro q isEmbryo
    rw [other q (by rintro rfl; simp [runnable] at isEmbryo)]
    exact isEmbryo
  obtain ⟨embryos, owners⟩ := embryos_keep inv fork embryo
  refine ⟨?_, ?_, ?_, ?_, ?_, embryos, owners⟩
  · rw [cpus]
    exact away_update inv.away fun q => by simp
  · rw [cpus]
    exact looping_update inv (Or.inr before) (by simp)
  · intro q
    by_cases isP : q = p
    · rw [isP, here]
      exact iff_of_true rfl ⟨c, onC⟩
    · rw [other q isP, inv.running q]
      refine exists_congr fun d => ?_
      by_cases isC : d = c
      · rw [isC, onC, was]
        simp [Ne.symm isP]
      · rw [others d isC]
  · intro d e q onD onE
    by_cases isC : d = c <;> by_cases isC' : e = c
    · rw [isC, isC']
    · rw [isC, onC] at onD
      rw [others e isC', ← onD] at onE
      exact absurd onE (nowhere e)
    · rw [isC', onC] at onE
      rw [others d isC, ← onE] at onD
      exact absurd onD (nowhere d)
    · rw [others d isC] at onD
      rw [others e isC'] at onE
      exact inv.alone d e q onD onE
  · intro q set
    by_cases isP : q = p
    · rw [isP, here] at set ⊢
      exact ⟨(inv.chan p set).1, Or.inr (Or.inr ⟨rfl, c, after, onC⟩)⟩
    · rw [other q isP] at set ⊢
      refine inv.waits (Kept.refl _) set ?_ _
      intro d held onD
      rw [holder_eq (Or.inr before) held, was] at onD
      cases onD

theorem Inv.leave (inv : Inv s) {q : Proc} {table : Slot → Proc} {next : Nat}
    (procs : s'.procs = update table p q)
    (cpus : s'.cpus = update s.cpus c { proc := none, scheduler := .loop next })
    (was : (s.cpus c).proc = some p) (kept : ∀ slot, Kept (s.procs slot) (table slot))
    (left : Left (s.procs p) q) (before : s.lock = none ∨ s.lock = some c)
    (after : s'.lock = some c) : Inv s' := by
  have onC : (s'.cpus c).proc = none := by rw [cpus, update_self]
  have others : ∀ d, d ≠ c → s'.cpus d = s.cpus d := by
    intro d other
    rw [cpus, update_of_ne other]
  have other : ∀ slot, slot ≠ p → s'.procs slot = table slot := by
    intro slot different
    rw [procs, update_of_ne different]
  have here : s'.procs p = q := by rw [procs, update_self]
  have ran := inv.state_of_current was
  have fork : ∀ slot, (s'.procs slot).fork = (s.procs slot).fork := by
    intro slot
    by_cases isP : slot = p
    · rw [isP, here]
      exact left.fork
    · rw [other slot isP]
      exact (kept slot).fork
  have embryo : ∀ slot, (s.procs slot).state = .embryo → (s'.procs slot).state = .embryo := by
    intro slot isEmbryo
    rw [other slot (by rintro rfl; simp [ran] at isEmbryo)]
    exact ((kept slot).state_iff (Or.inr rfl)).mpr isEmbryo
  obtain ⟨embryos, owners⟩ := embryos_keep inv fork embryo
  refine ⟨?_, ?_, ?_, ?_, ?_, embryos, owners⟩
  · rw [cpus]
    exact away_update inv.away fun q => by simp
  · rw [cpus]
    exact looping_update inv before fun _ _ => after
  · intro slot
    by_cases isP : slot = p
    · rw [isP, here]
      refine iff_of_false ?_ ?_
      · rcases left.state with state | state | state <;> simp [state]
      · rintro ⟨d, onD⟩
        by_cases isC : d = c
        · rw [isC, onC] at onD
          cases onD
        · rw [others d isC] at onD
          exact isC (inv.alone d c p onD was)
    · rw [other slot isP, (kept slot).state_iff (Or.inl rfl), inv.running slot]
      refine exists_congr fun d => ?_
      by_cases isC : d = c
      · rw [isC, onC, was]
        simp [Ne.symm isP]
      · rw [others d isC]
  · intro d e slot onD onE
    by_cases isC : d = c
    · rw [isC, onC] at onD
      cases onD
    · by_cases isC' : e = c
      · rw [isC', onC] at onE
        cases onE
      · rw [others d isC] at onD
        rw [others e isC'] at onE
        exact inv.alone d e slot onD onE
  · intro slot set
    by_cases isP : slot = p
    · rw [isP, here] at set ⊢
      obtain ⟨asleep, context⟩ := left.chan set
      exact ⟨context, Or.inl asleep⟩
    · rw [other slot isP] at set ⊢
      refine inv.waits (kept slot) set ?_ _
      intro d held onD
      rw [holder_eq before held, was] at onD
      exact isP (Option.some.inj onD).symm

end Switch

/-! ## Sections that end with a release, and the steps of fork -/

theorem Inv.settle (inv : Inv s) (cpus : s'.cpus = s.cpus)
    (kept : ∀ slot, Kept (s.procs slot) (s'.procs slot))
    (before : s.lock = none ∨
      ∃ c p, s.lock = some c ∧ (s.cpus c).proc = some p ∧ (s'.procs p).chan = none) :
    Inv s' := by
  have embryo : ∀ slot, (s.procs slot).state = .embryo → (s'.procs slot).state = .embryo :=
    fun slot isEmbryo => ((kept slot).state_iff (Or.inr rfl)).mpr isEmbryo
  obtain ⟨embryos, owners⟩ := embryos_keep inv (fun slot => (kept slot).fork) embryo
  refine ⟨?_, ?_, ?_, ?_, ?_, embryos, owners⟩
  · rw [cpus]
    exact inv.away
  · intro d next looping
    rw [cpus] at looping
    -- The holder is inside `swtch`, so no scheduler is in its loop.
    have held := inv.looping d next looping
    rcases before with free | ⟨c, p, mine, was, _⟩
    · rw [free] at held
      cases held
    · rw [mine] at held
      rw [Option.some.inj held] at was
      rw [(inv.away d p).mpr was] at looping
      cases looping
  · intro slot
    rw [(kept slot).state_iff (Or.inl rfl), cpus]
    exact inv.running slot
  · rw [cpus]
    exact inv.alone
  · intro slot set
    refine inv.waits (kept slot) set ?_ _
    intro d held onD
    rcases before with free | ⟨c, p, mine, was, cleared⟩
    · rw [free] at held
      cases held
    · rw [mine] at held
      rw [Option.some.inj held, onD] at was
      rw [Option.some.inj was] at set
      exact absurd cleared set

section Fill

variable {c : Fin ncpu} {p np : Slot} {np' : Proc} {fork' : Option Fork}

theorem Fills.new {q r r' : Proc} {slot : Slot} (fills : Fills q r r' slot fork') :
    r.state = .unused ∨ r.state = .embryo :=
  fills.before.imp And.left And.left

/-- Nobody but the caller fills the slot. -/
theorem Inv.not_owned (inv : Inv s) (fills : Fills (s.procs p) (s.procs np) np' np fork')
    {q : Slot} {f : Fork} (other : q ≠ p) (filling : (s.procs q).fork = some f) : f.np ≠ np := by
  intro same
  rcases fills.before with ⟨unused, _⟩ | ⟨_, g, mine, isNp⟩
  · have embryo := inv.embryo q f filling
    rw [same, unused] at embryo
    cases embryo
  · exact other (inv.owner q p f g filling mine (same.trans isNp.symm))

theorem Inv.fill (inv : Inv s)
    (procs : s'.procs =
      update (update s.procs np np') p { s.procs p with fork := fork' })
    (cpus : s'.cpus = s.cpus) (was : (s.cpus c).proc = some p)
    (fills : Fills (s.procs p) (s.procs np) np' np fork') (lock : s'.lock = s.lock) : Inv s' := by
  have different := inv.ne_of_new was fills.new
  have atP : s'.procs p = { s.procs p with fork := fork' } := by rw [procs, update_self]
  have atNp : s'.procs np = np' := by
    rw [procs, update_of_ne different, update_self]
  have other : ∀ q, q ≠ p → q ≠ np → s'.procs q = s.procs q := by
    intro q notP notNp
    rw [procs, update_of_ne notP, update_of_ne notNp]
  -- A call of `fork` after the step is the caller's, or was there before.
  have filling : ∀ q f, (s'.procs q).fork = some f →
      (q = p ∧ fork' = some f) ∨ (q ≠ p ∧ (s.procs q).fork = some f) := by
    intro q f hasFork
    by_cases isP : q = p
    · rw [isP, atP] at hasFork
      exact Or.inl ⟨isP, hasFork⟩
    · refine Or.inr ⟨isP, ?_⟩
      by_cases isNp : q = np
      · rw [isNp, atNp] at hasFork
        rw [isNp]
        rcases fills.fork with same | cleared
        · rwa [same] at hasFork
        · rw [cleared] at hasFork
          cases hasFork
      · rwa [other q isP isNp] at hasFork
  refine ⟨?_, ?_, ?_, ?_, ?_, ?_, ?_⟩
  · rw [cpus]
    exact inv.away
  · rw [cpus, lock]
    exact inv.looping
  · intro q
    rw [cpus, ← inv.running q]
    by_cases isP : q = p
    · rw [isP, atP]
    · by_cases isNp : q = np
      · rw [isNp, atNp]
        refine iff_of_false ?_ ?_
        · rcases fills.after with state | state | state <;> simp [state]
        · rcases fills.new with state | state <;> simp [state]
      · rw [other q isP isNp]
  · rw [cpus]
    exact inv.alone
  · intro q set
    rw [cpus, lock]
    by_cases isP : q = p
    · rw [isP, atP] at set ⊢
      exact inv.chan p set
    · by_cases isNp : q = np
      · rw [isNp, atNp, fills.chan] at set
        exact absurd (inv.chan_of_new fills.new) set
      · rw [other q isP isNp] at set ⊢
        exact inv.chan q set
  · intro q f hasFork
    rcases filling q f hasFork with ⟨_, mine⟩ | ⟨isP, theirs⟩
    · obtain ⟨isNp, embryo⟩ := fills.owned f mine
      rw [isNp, atNp]
      exact embryo
    · have embryo := inv.embryo q f theirs
      have notNp := inv.not_owned fills isP theirs
      have notP : f.np ≠ p := inv.ne_of_new was (Or.inr embryo)
      rw [other _ notP notNp]
      exact embryo
  · intro q r f g first second same
    rcases filling q f first with ⟨isP, mine⟩ | ⟨isP, theirs⟩ <;>
      rcases filling r g second with ⟨isP', mine'⟩ | ⟨isP', theirs'⟩
    · rw [isP, isP']
    · exact absurd (same ▸ (fills.owned f mine).1) (inv.not_owned fills isP' theirs')
    · exact absurd (same ▸ (fills.owned g mine').1) (inv.not_owned fills isP theirs)
    · exact inv.owner q r f g theirs theirs' same

end Fill

/-! ## Runs -/

theorem Inv.step {action : Action ncpu} (inv : Inv s) (stepped : s.step action = .ok s') :
    Inv s' := by
  cases step_transition inv stepped with
  | turn c cpu procs cpus was is here before after looping =>
    exact inv.turn procs cpus was is here before looping
  | dispatch c p procs cpus was runnable before after =>
    exact inv.dispatch procs cpus was runnable before after
  | leave c p q table next procs cpus was kept left before after =>
    exact inv.leave procs cpus was kept left before after
  | settle cpus kept before after => exact inv.settle cpus kept before
  | fill c p np np' fork' procs cpus was fills lock => exact inv.fill procs cpus was fills lock

theorem Inv.moves {action : Action ncpu} (inv : Inv s) (stepped : s.step action = .ok s')
    (slot : Slot) : Moves (s.procs slot).state (s'.procs slot).state := by
  cases step_transition inv stepped with
  | turn c cpu procs cpus was is here before after looping =>
    rw [procs]
    exact Or.inl rfl
  | dispatch c p procs cpus was runnable before after =>
    rw [procs]
    by_cases isP : slot = p
    · rw [isP, update_self, runnable]
      exact Or.inr .dispatched
    · rw [update_of_ne isP]
      exact Or.inl rfl
  | leave c p q table next procs cpus was kept left before after =>
    rw [procs]
    by_cases isP : slot = p
    · rw [isP, update_self, inv.state_of_current was]
      rcases left.state with state | state | state <;> rw [state]
      · exact Or.inr .yielded
      · exact Or.inr .slept
      · exact Or.inr .exited
    · rw [update_of_ne isP]
      exact (kept slot).moves
  | settle cpus kept before after => exact (kept slot).moves
  | fill c p np np' fork' procs cpus was fills lock =>
    rw [procs]
    by_cases isP : slot = p
    · rw [isP, update_self]
      exact Or.inl rfl
    · rw [update_of_ne isP]
      by_cases isNp : slot = np
      · rw [isNp, update_self]
        exact fills.moves
      · rw [update_of_ne isNp]
        exact Or.inl rfl

theorem Inv.boot : Inv (State.boot ncpu) := by
  have state : ∀ p, ((State.boot ncpu).procs p).state = .runnable ∨
      ((State.boot ncpu).procs p).state = .unused := by
    intro p
    by_cases isFirst : p = ⟨0, by decide⟩
    · rw [isFirst]
      exact Or.inl rfl
    · refine Or.inr ?_
      simp [State.boot, update_of_ne isFirst, State.freeSlot]
  have clear : ∀ p, ((State.boot ncpu).procs p).chan = none ∧
      ((State.boot ncpu).procs p).fork = none := by
    intro p
    by_cases isFirst : p = ⟨0, by decide⟩
    · rw [isFirst]
      exact ⟨rfl, rfl⟩
    · simp [State.boot, update_of_ne isFirst, State.freeSlot]
  constructor
  · simp [State.boot]
  · simp [State.boot]
  · intro p
    refine iff_of_false ?_ (by simp [State.boot])
    rcases state p with isState | isState <;> simp [isState]
  · simp [State.boot]
  · intro p set
    exact absurd (clear p).1 set
  · intro p f filling
    rw [(clear p).2] at filling
    cases filling
  · intro p q f g filling
    rw [(clear p).2] at filling
    cases filling

theorem Inv.run {actions : List (Action ncpu)} (ran : (State.boot ncpu).run actions = .ok s) :
    Inv s :=
  Execution.foldlM_keeps Inv (fun _ _ _ inv stepped => inv.step stepped) actions Inv.boot ran

/-- The thread has been made runnable inside `sleep` and has not gone on. -/
def Proc.WokenNotResumed (p : Proc) : Prop :=
  p.state = .runnable ∧ p.context.asleep = true

/-- After any run of the machine on any number of CPUs: whenever `ptable.lock` is
free, the `RUNNING` processes are exactly those that one CPU has as its current
process, a CPU without one is in its scheduler, and only processes in `sleep` have
a channel; and the next action, whatever it is, moves each process along the
edges only. -/
theorem runs_on_one_cpu (actions : List (Action ncpu)) (s : State ncpu)
    (ran : (State.boot ncpu).run actions = .ok s) :
    (s.lock = none →
      (∀ p, (s.procs p).state = .running ↔ ∃! c, (s.cpus c).proc = some p) ∧
      (∀ c, (s.cpus c).proc = none → (s.cpus c).scheduler = .idle) ∧
      ∀ p, (s.procs p).chan ≠ none →
        (s.procs p).state = .sleeping ∨ (s.procs p).WokenNotResumed) ∧
    ∀ action s', s.step action = .ok s' → ∀ p, Moves (s.procs p).state (s'.procs p).state := by
  have inv := Inv.run ran
  refine ⟨fun free => ⟨?_, ?_, ?_⟩, fun action s' stepped => inv.moves stepped⟩
  · intro p
    rw [inv.running p]
    constructor
    · rintro ⟨c, onC⟩
      exact ⟨c, onC, fun d onD => inv.alone d c p onD onC⟩
    · intro one
      exact one.exists
  · intro c empty
    cases at_ : (s.cpus c).scheduler with
    | idle => rfl
    | loop next =>
      have held := inv.looping c next at_
      rw [free] at held
      cases held
    | away p =>
      have onC := (inv.away c p).mp at_
      rw [empty] at onC
      cases onC
  · intro p set
    obtain ⟨asleep, state⟩ := inv.chan p set
    rcases state with sleeping | runnable | ⟨_, c, held, _⟩
    · exact Or.inl sleeping
    · exact Or.inr ⟨runnable, asleep⟩
    · rw [free] at held
      cases held

/-- On two CPUs, the first one switches to init. -/
def initRuns : List (Action 2) := [.schedule 0, .schedule 0, .resume 0]

theorem runs_on_one_cpu_init :
    ∃ s, (State.boot 2).run initRuns = .ok s ∧ s.lock = none ∧
      ∃! c, (s.cpus c).proc = some s.initproc :=
  ⟨_, rfl, rfl, (((runs_on_one_cpu initRuns _ rfl).1 rfl).1 _).mp rfl⟩

/-- The slot that a call of `fork` fills without the lock is `EMBRYO`, on no CPU, and filled by
no other call. -/
theorem fork_fills_alone (actions : List (Action ncpu))
    (ran : (State.boot ncpu).run actions = .ok s) {p : Slot} {f : Fork}
    (filling : (s.procs p).fork = some f) :
    (s.procs f.np).state = .embryo ∧ (∀ c, (s.cpus c).proc ≠ some f.np) ∧
      ∀ q g, (s.procs q).fork = some g → g.np = f.np → q = p := by
  have inv := Inv.run ran
  have embryo := inv.embryo p f filling
  refine ⟨embryo, ?_, fun q g other => inv.owner q p g f other filling⟩
  intro c current
  rw [inv.state_of_current current] at embryo
  cases embryo

theorem fork_fills_alone_init :
    ∃ s f, (State.boot 2).run (initRuns ++ [.fork 0]) = .ok s ∧
      (s.procs s.initproc).fork = some f ∧ (s.procs f.np).state = .embryo :=
  ⟨_, .kalloc ⟨1, by decide⟩, rfl, rfl,
    (fork_fills_alone (initRuns ++ [.fork 0]) rfl (p := ⟨0, by decide⟩) rfl).1⟩

end Rexv6.Sched
