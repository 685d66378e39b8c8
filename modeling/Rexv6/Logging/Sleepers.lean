import Rexv6.Foundation.Execution
import Rexv6.Foundation.Headcount
import Rexv6.Foundation.Mutex
import Rexv6.Foundation.Rousing
import Rexv6.Param

/-!
Contract: `begin_op` of `fs/sfs/log.c` strands no caller.

Owns: `begin_op`, `log_write` and `end_op` with `commit`, and the parts of `sleep`,
`wakeup` and `kill` that they meet, for any set of processes; the invariant of
their steps; and what holds of the log after every run. What a process does while
it holds `log.lock` is one step, except where it has to take `ptable.lock`.

Does not own: the blocks' contents and the disk writes of `commit`, which
`Rexv6.Logging.Machine` has, and the budget of an operation: what is said here
holds for any number of logged blocks.
-/

namespace Rexv6.Logging.Sleepers

open Rexv6.Foundation
open Rexv6.Foundation.Execution (else_ok foldlM_keeps then_ok)
open Function (update update_of_ne update_self)

/-- The next step of a process. `out` is outside of an operation, `active` between
`begin_op` and `end_op`, `writing` in `log_write` past the tests that are made
without the lock. `sleep` to `woken` are inside `sleep`: before it takes
`ptable.lock`, holding both locks, holding `ptable.lock` only, asleep, and before it
takes `log.lock` again. `wake` is before `wakeup(&log)` with `log.lock` held,
`commit` is inside `commit` before `log.lh.n = 0`, and `cleared` after it. -/
inductive Pc where
  | out
  | sleep
  | sleepLocked
  | falling
  | sleeping
  | woken
  | active
  | writing
  | wake
  | commit
  | cleared
deriving DecidableEq, Repr

namespace Pc

/-- The process holds `log.lock`. -/
def inside : Pc → Bool
  | .sleep | .sleepLocked | .wake => true
  | _ => false

/-- The process holds `ptable.lock`. -/
def tabled : Pc → Bool
  | .sleepLocked | .falling => true
  | _ => false

/-- The process is counted in `log.outstanding`. -/
def counts : Pc → Bool
  | .active | .writing => true
  | _ => false

/-- The process has set `log.committing` and has not cleared it. -/
def commits : Pc → Bool
  | .commit | .cleared => true
  | _ => false

/-- The process has decided to sleep and has not been woken. -/
def waits : Pc → Bool
  | .sleep | .sleepLocked | .falling | .sleeping => true
  | _ => false

def roused (pc : Pc) : Pc := rouse .sleeping .woken pc

end Pc

variable {ι : Type}

/-- `struct log`, with the block numbers of the header as a list, and the two
spinlocks. -/
structure State (ι : Type) where
  size : Nat
  outstanding : Int
  committing : Bool
  lh : List Nat
  /-- The holder of `log.lock`. -/
  spin : Option ι
  /-- The holder of `ptable.lock`, when a process can be found holding it. -/
  ptable : Option ι
  pc : ι → Pc

/-- `logWrite` and `endOp` are the choices of a process inside an operation. -/
inductive Action (ι : Type) where
  | tick (p : ι)
  | logWrite (p : ι)
  | logBlock (p : ι) (b : Nat)
  | endOp (p : ι)
  | kill (p : ι)

/-- Why an action did not happen. `undefined` is a store past the end of
`log.lh.block`. -/
inductive Stop where
  | panic (message : String)
  | undefined
  | disabled
deriving DecidableEq, Repr

namespace State

variable [DecidableEq ι]

def goto (s : State ι) (p : ι) (pc : Pc) : State ι := { s with pc := update s.pc p pc }

/-- A turn of the loop of `begin_op`, from `acquire(&log.lock)` on. -/
def beginOp (s : State ι) (p : ι) : Except Stop (State ι) :=
  if s.spin ≠ none then .error .disabled
  else if s.committing = true then .ok { s.goto p .sleep with spin := some p }
  else if s.lh.length + (s.outstanding + 1) * maxOpBlocks > logSize then
    .ok { s.goto p .sleep with spin := some p }
  else .ok { s.goto p .active with outstanding := s.outstanding + 1 }

/-- The tests at the start of `log_write`. -/
def logWrite (s : State ι) (p : ι) : Except Stop (State ι) :=
  if s.pc p ≠ .active then .error .disabled
  else if logSize ≤ s.lh.length ∨ (s.size : Int) - 1 ≤ s.lh.length then
    .error (.panic "too big a transaction")
  else if s.outstanding < 1 then .error (.panic "log_write outside of trans")
  else .ok (s.goto p .writing)

/-- The rest of `log_write`, under `log.lock`. -/
def logBlock (s : State ι) (p : ι) (b : Nat) : Except Stop (State ι) :=
  if s.pc p ≠ .writing ∨ s.spin ≠ none then .error .disabled
  else if b ∈ s.lh then .ok (s.goto p .active)
  else if logSize ≤ s.lh.length then .error .undefined
  else .ok { s.goto p .active with lh := s.lh ++ [b] }

/-- `end_op` up to its call of `commit` or of `wakeup`. -/
def endOp (s : State ι) (p : ι) : Except Stop (State ι) :=
  if s.pc p ≠ .active ∨ s.spin ≠ none then .error .disabled
  else if s.committing = true then .error (.panic "log.committing")
  else if s.outstanding - 1 = 0 then
    .ok { s.goto p .commit with outstanding := s.outstanding - 1, committing := true }
  else .ok { s.goto p .wake with outstanding := s.outstanding - 1, spin := some p }

/-- `wakeup(&log); release(&log.lock)`. -/
def wakeup (s : State ι) (p : ι) : Except Stop (State ι) :=
  if s.ptable = none then
    .ok { ({ s with pc := fun q => (s.pc q).roused }.goto p .out) with spin := none }
  else .error .disabled

/-- The next step of process `p`, where it has no choice. -/
def tick (s : State ι) (p : ι) : Except Stop (State ι) :=
  match s.pc p with
  | .out => s.beginOp p
  | .sleep =>
    if s.ptable = none then .ok { s.goto p .sleepLocked with ptable := some p }
    else .error .disabled
  | .sleepLocked => .ok { s.goto p .falling with spin := none }
  | .falling => .ok { s.goto p .sleeping with ptable := none }
  | .sleeping => .error .disabled
  | .woken => s.beginOp p
  | .active => .error .disabled
  | .writing => .error .disabled
  | .wake => s.wakeup p
  | .commit => .ok { s.goto p .cleared with lh := [] }
  | .cleared =>
    if s.spin = none then .ok { s.goto p .wake with committing := false, spin := some p }
    else .error .disabled

/-- `kill` of a process: it holds `ptable.lock` from its first to its last step. -/
def kill (s : State ι) (p : ι) : Except Stop (State ι) :=
  if s.ptable = none then .ok (s.goto p (s.pc p).roused) else .error .disabled

def step (s : State ι) : Action ι → Except Stop (State ι)
  | .tick p => s.tick p
  | .logWrite p => s.logWrite p
  | .logBlock p b => s.logBlock p b
  | .endOp p => s.endOp p
  | .kill p => s.kill p

/-- The log after `initlog`, which leaves an empty header. -/
def init (size : Nat) : State ι :=
  { size, outstanding := 0, committing := false, lh := [], spin := none, ptable := none,
    pc := fun _ => .out }

end State

/-! ## The invariant -/

/-- The number of operations that `log.outstanding` counts. -/
def Counted (outstanding : Int) (pc : ι → Pc) : Prop :=
  ∃ ops : Finset ι, (∀ p, p ∈ ops ↔ (pc p).counts = true) ∧ outstanding = ops.card

structure Inv (s : State ι) : Prop where
  spin : Held s.spin fun p => (s.pc p).inside = true
  ptable : Held s.ptable fun p => (s.pc p).tabled = true
  counted : Counted s.outstanding s.pc
  committer : ∃ holder, Held holder (fun p => (s.pc p).commits = true) ∧
    s.committing = holder.isSome
  quiet : s.committing = true → s.outstanding = 0
  /-- A header that lists blocks belongs to running operations or to the commit. -/
  logged : s.lh ≠ [] → 1 ≤ s.outstanding ∨ ∃ p, s.pc p = .commit
  /-- Who waits is waiting for an operation or a commit to end, or for a wake-up
  that is on its way. -/
  waits : ∀ p, (s.pc p).waits = true →
    s.committing = true ∨ 1 ≤ s.outstanding ∨ ∃ q, s.pc q = .wake

namespace Counted

variable {pc : ι → Pc} {outstanding : Int} {p : ι} {next : Pc}

theorem nonneg (counted : Counted outstanding pc) : 0 ≤ outstanding :=
  Headcount.nonneg counted

theorem positive (counted : Counted outstanding pc) (counts : (pc p).counts = true) :
    1 ≤ outstanding :=
  Headcount.positive counted counts

variable [DecidableEq ι]

theorem move (counted : Counted outstanding pc) (same : next.counts = (pc p).counts) :
    Counted outstanding (update pc p next) := by
  apply Headcount.move (fun pc : Pc => pc.counts = true) counted
  rw [same]

theorem join (counted : Counted outstanding pc) (was : (pc p).counts = false)
    (joins : next.counts = true) : Counted (outstanding + 1) (update pc p next) := by
  apply Headcount.join (fun pc : Pc => pc.counts = true) counted _ joins
  rw [was]
  exact Bool.false_ne_true

theorem leave (counted : Counted outstanding pc) (was : (pc p).counts = true)
    (leaves : next.counts = false) : Counted (outstanding - 1) (update pc p next) := by
  apply Headcount.leave (fun pc : Pc => pc.counts = true) counted was
  rw [leaves]
  exact Bool.false_ne_true

end Counted

namespace Inv

variable {s s' : State ι} {p : ι}

theorem init (size : Nat) : Inv (State.init size : State ι) := by
  have nobody : ∀ {inside : Pc → Bool}, inside .out = false →
      Held none fun p : ι => inside ((State.init size : State ι).pc p) = true :=
    fun outside => .empty fun p isInside => Bool.false_ne_true (outside.symm.trans isInside)
  refine ⟨nobody rfl, nobody rfl, Headcount.nobody nofun, ⟨none, nobody rfl, rfl⟩, nofun, ?_, ?_⟩
  · intro nonempty
    exact absurd rfl nonempty
  · intro p isWaiting
    cases isWaiting

theorem committing_of (inv : Inv s) (commits : (s.pc p).commits = true) : s.committing = true := by
  obtain ⟨holder, held, isCommitting⟩ := inv.committer
  rw [isCommitting, (held p).mpr commits]
  rfl

/-- With no commit under way, blocks in the header belong to running operations. -/
theorem outstanding_of_logged (inv : Inv s) (idle : s.committing = false) (nonempty : s.lh ≠ []) :
    1 ≤ s.outstanding := by
  rcases inv.logged nonempty with running | ⟨q, isCommit⟩
  · exact running
  · have committing := inv.committing_of (p := q) (isCommit ▸ rfl)
    rw [idle] at committing
    cases committing

/-- A caller of `begin_op` finds a reason to sleep only while a commit or an
operation is under way. -/
theorem full (inv : Inv s) (idle : s.committing = false)
    (noSpace : (s.lh.length : Int) + (s.outstanding + 1) * maxOpBlocks > logSize) :
    1 ≤ s.outstanding := by
  by_cases empty : s.lh = []
  · rw [empty] at noSpace
    simp only [List.length_nil, maxOpBlocks, logSize] at noSpace
    omega
  · exact inv.outstanding_of_logged idle empty

variable [DecidableEq ι]

/-- A step of `p` that keeps `log` but may move locks. -/
theorem walk (inv : Inv s) {here next : Pc} (isPc : s.pc p = here)
    (log : s'.outstanding = s.outstanding ∧ s'.committing = s.committing ∧ s'.lh = s.lh)
    (pc : s'.pc = update s.pc p next)
    (spin : Held s'.spin fun q => (update s.pc p next q).inside = true)
    (ptable : Held s'.ptable fun q => (update s.pc p next q).tabled = true)
    (counts : next.counts = here.counts) (commits : next.commits = here.commits)
    (commit : here ≠ .commit) (wake : here ≠ .wake)
    (waits : next.waits = true → here.waits = true ∨ s.committing = true ∨ 1 ≤ s.outstanding) :
    Inv s' := by
  obtain ⟨_, _, _, _, _, _, _⟩ := s'
  obtain ⟨rfl, rfl, rfl⟩ := log
  obtain rfl := pc
  obtain ⟨holder, held, isCommitting⟩ := inv.committer
  have other : ∀ {target : Pc}, target ≠ here → (∃ q, s.pc q = target) →
      ∃ q, update s.pc p next q = target := by
    rintro target notHere ⟨q, isTarget⟩
    have isOther : q ≠ p := by
      intro isP
      rw [isP, isPc] at isTarget
      exact notHere isTarget.symm
    exact ⟨q, by rw [update_of_ne isOther, isTarget]⟩
  have kept : ∀ q, (s.pc q).waits = true →
      s.committing = true ∨ 1 ≤ s.outstanding ∨ ∃ r, update s.pc p next r = .wake := by
    intro q isWaiting
    exact (inv.waits q isWaiting).imp id fun rest => rest.imp id (other wake.symm)
  refine ⟨spin, ptable, inv.counted.move (isPc ▸ counts),
    ⟨holder, held.move (isPc ▸ commits), isCommitting⟩, inv.quiet, ?_, ?_⟩ <;> dsimp only
  · intro nonempty
    exact (inv.logged nonempty).imp id (other commit.symm)
  · intro q isWaiting
    by_cases isP : q = p
    · rw [isP, update_self] at isWaiting
      rcases waits isWaiting with before | committing | running
      · exact kept p (isPc ▸ before)
      · exact Or.inl committing
      · exact Or.inr (Or.inl running)
    · rw [update_of_ne isP] at isWaiting
      exact kept q isWaiting

theorem fallAsleep (inv : Inv s) {here : Pc} (isPc : s.pc p = here) (isFree : s.spin = none)
    (start : here = .out ∨ here = .woken) (reason : s.committing = true ∨ 1 ≤ s.outstanding) :
    Inv { s.goto p .sleep with spin := some p } := by
  have profile : Pc.sleep.tabled = here.tabled ∧ Pc.sleep.counts = here.counts ∧
      Pc.sleep.commits = here.commits ∧ here ≠ .commit ∧ here ≠ .wake := by
    rcases start with isOut | isWoken
    · rw [isOut]
      decide
    · rw [isWoken]
      decide
  exact inv.walk isPc ⟨rfl, rfl, rfl⟩ rfl (Held.take (isFree ▸ inv.spin) rfl)
    (inv.ptable.move (isPc ▸ profile.1)) profile.2.1 profile.2.2.1 profile.2.2.2.1 profile.2.2.2.2
    fun _ => Or.inr reason

theorem admits (inv : Inv s) {here : Pc} (isPc : s.pc p = here)
    (start : here = .out ∨ here = .woken) (idle : s.committing = false) :
    Inv { s.goto p .active with outstanding := s.outstanding + 1 } := by
  obtain ⟨holder, held, isCommitting⟩ := inv.committer
  have profile : Pc.active.inside = here.inside ∧ Pc.active.tabled = here.tabled ∧
      here.counts = false ∧ Pc.active.commits = here.commits := by
    rcases start with isOut | isWoken
    · rw [isOut]
      decide
    · rw [isWoken]
      decide
  have positive : 1 ≤ s.outstanding + 1 := by
    have := inv.counted.nonneg
    omega
  refine ⟨inv.spin.move (isPc ▸ profile.1), inv.ptable.move (isPc ▸ profile.2.1),
    inv.counted.join (isPc ▸ profile.2.2.1) rfl, ⟨holder, held.move (isPc ▸ profile.2.2.2),
    isCommitting⟩, ?_, fun _ => Or.inl positive, fun _ _ => Or.inr (Or.inl positive)⟩
  intro committing
  exact absurd (idle.symm.trans committing) Bool.false_ne_true

theorem beginOp (inv : Inv s) {here : Pc} (isPc : s.pc p = here)
    (start : here = .out ∨ here = .woken) (stepped : s.beginOp p = .ok s') : Inv s' := by
  unfold State.beginOp at stepped
  split_ifs at stepped with isHeld committing noSpace <;> cases stepped
  · exact inv.fallAsleep isPc (not_not.mp isHeld) start (Or.inl committing)
  · exact inv.fallAsleep isPc (not_not.mp isHeld) start
      (Or.inr (inv.full (eq_false_of_ne_true committing) noSpace))
  · exact inv.admits isPc start (eq_false_of_ne_true committing)

theorem logWrite (inv : Inv s) (stepped : s.logWrite p = .ok s') : Inv s' := by
  obtain ⟨isActive, stepped⟩ := else_ok stepped
  obtain ⟨-, stepped⟩ := else_ok stepped
  obtain ⟨-, stepped⟩ := else_ok stepped
  have isPc : s.pc p = .active := not_not.mp isActive
  cases stepped
  exact inv.walk isPc ⟨rfl, rfl, rfl⟩ rfl (inv.spin.move (isPc ▸ rfl))
    (inv.ptable.move (isPc ▸ rfl)) rfl rfl nofun nofun nofun

theorem logBlock (inv : Inv s) {b : Nat} (stepped : s.logBlock p b = .ok s') : Inv s' := by
  obtain ⟨enabled, stepped⟩ := else_ok stepped
  have isPc : s.pc p = .writing := not_not.mp (not_or.mp enabled).1
  have walked : Inv (s.goto p .active) :=
    inv.walk isPc ⟨rfl, rfl, rfl⟩ rfl (inv.spin.move (isPc ▸ rfl))
      (inv.ptable.move (isPc ▸ rfl)) rfl rfl nofun nofun nofun
  split_ifs at stepped with absorbed <;> cases stepped
  · exact walked
  · -- The operation itself is counted.
    have running : 1 ≤ s.outstanding := inv.counted.positive (p := p) (isPc ▸ rfl)
    exact ⟨walked.spin, walked.ptable, walked.counted, walked.committer, walked.quiet,
      fun _ => Or.inl running, walked.waits⟩

theorem lastEnds (inv : Inv s) (isPc : s.pc p = .active) (idle : s.committing = false)
    (last : s.outstanding - 1 = 0) :
    Inv { s.goto p .commit with outstanding := s.outstanding - 1, committing := true } := by
  obtain ⟨holder, held, isCommitting⟩ := inv.committer
  rw [idle] at isCommitting
  have nobody : holder = none := Option.not_isSome_iff_eq_none.mp (by rw [← isCommitting]; decide)
  rw [nobody] at held
  refine ⟨inv.spin.move (isPc ▸ rfl), inv.ptable.move (isPc ▸ rfl),
    inv.counted.leave (isPc ▸ rfl) rfl, ⟨some p, held.take rfl, rfl⟩, fun _ => last,
    fun _ => Or.inr ⟨p, update_self _ _ _⟩, fun _ _ => Or.inl rfl⟩

theorem otherEnds (inv : Inv s) (isPc : s.pc p = .active) (isFree : s.spin = none)
    (notLast : s.outstanding - 1 ≠ 0) (idle : s.committing = false) :
    Inv { s.goto p .wake with outstanding := s.outstanding - 1, spin := some p } := by
  obtain ⟨holder, held, isCommitting⟩ := inv.committer
  have running : 1 ≤ s.outstanding := inv.counted.positive (p := p) (isPc ▸ rfl)
  have still : 1 ≤ s.outstanding - 1 := by omega
  refine ⟨Held.take (isFree ▸ inv.spin) rfl, inv.ptable.move (isPc ▸ rfl),
    inv.counted.leave (isPc ▸ rfl) rfl, ⟨holder, held.move (isPc ▸ rfl), isCommitting⟩, ?_,
    fun _ => Or.inl still, fun _ _ => Or.inr (Or.inl still)⟩
  intro committing
  exact absurd (idle.symm.trans committing) Bool.false_ne_true

theorem endOp (inv : Inv s) (stepped : s.endOp p = .ok s') : Inv s' := by
  obtain ⟨enabled, stepped⟩ := else_ok stepped
  obtain ⟨isActive, isFree⟩ := not_or.mp enabled
  obtain ⟨committing, stepped⟩ := else_ok stepped
  have idle := eq_false_of_ne_true committing
  split_ifs at stepped with last <;> cases stepped
  · exact inv.lastEnds (not_not.mp isActive) idle last
  · exact inv.otherEnds (not_not.mp isActive) (not_not.mp isFree) last idle

/-- `wakeup` leaves nobody waiting: it finds `ptable.lock` free, and its caller
holds `log.lock`. -/
theorem wakeup (inv : Inv s) (isPc : s.pc p = .wake) (stepped : s.wakeup p = .ok s') : Inv s' := by
  obtain ⟨isFree, stepped⟩ := then_ok stepped
  cases stepped
  have alone : ∀ q, q ≠ p → (s.pc q).inside ≠ true := by
    intro q other isInside
    exact other (inv.spin.alone isInside (isPc ▸ rfl))
  have profile : ∀ (inside : Pc → Bool), inside .woken = inside .sleeping →
      inside .out = inside .wake → ∀ q,
      inside (update (fun r => (s.pc r).roused) p .out q) = inside (s.pc q) :=
    fun inside same same' => rouse_all_same same (isPc ▸ same')
  have keep : ∀ {inside : Pc → Bool} {holder : Option ι}, inside .woken = inside .sleeping →
      inside .out = inside .wake → Held holder (fun q => inside (s.pc q) = true) →
      Held holder fun q => inside (update (fun r => (s.pc r).roused) p .out q) = true :=
    fun same same' held => held.keep fun q => by rw [profile _ same same' q]
  obtain ⟨ops, isMember, isCard⟩ := inv.counted
  obtain ⟨holder, held, isCommitting⟩ := inv.committer
  refine ⟨.empty fun q isInside => ?_, keep rfl rfl inv.ptable, ⟨ops, ?_, isCard⟩,
    ⟨holder, keep rfl rfl held, isCommitting⟩, inv.quiet, ?_, ?_⟩
  · dsimp only [State.goto] at isInside
    by_cases here : q = p
    · rw [here, update_self] at isInside
      cases isInside
    · rw [update_of_ne here] at isInside
      have notInside := alone q here
      cases isQ : s.pc q <;> rw [isQ] at isInside notInside <;> exact notInside isInside
  · intro q
    dsimp only [State.goto]
    rw [profile Pc.counts rfl rfl]
    exact isMember q
  · intro nonempty
    refine (inv.logged nonempty).imp id ?_
    rintro ⟨q, isCommit⟩
    have notP : q ≠ p := by
      intro here
      rw [here, isPc] at isCommit
      cases isCommit
    refine ⟨q, ?_⟩
    dsimp only [State.goto]
    rw [update_of_ne notP, isCommit]
    rfl
  · intro q isWaiting
    exfalso
    dsimp only [State.goto] at isWaiting
    by_cases here : q = p
    · rw [here, update_self] at isWaiting
      cases isWaiting
    · rw [update_of_ne here] at isWaiting
      have notInside := alone q here
      have notTabled := Held.nobody (isFree ▸ inv.ptable) q
      cases isQ : s.pc q <;> rw [isQ] at isWaiting notInside notTabled <;>
        first | exact notInside rfl | exact notTabled rfl | cases isWaiting

theorem clear (inv : Inv s) (isPc : s.pc p = .commit) :
    Inv { s.goto p .cleared with lh := [] } := by
  obtain ⟨holder, held, isCommitting⟩ := inv.committer
  have committing := inv.committing_of (p := p) (isPc ▸ rfl)
  exact ⟨inv.spin.move (isPc ▸ rfl), inv.ptable.move (isPc ▸ rfl), inv.counted.move (isPc ▸ rfl),
    ⟨holder, held.move (isPc ▸ rfl), isCommitting⟩, inv.quiet, fun nonempty => absurd rfl nonempty,
    fun _ _ => Or.inl committing⟩

/-- The commit is over, and its process is going to wake the sleepers. -/
theorem finish (inv : Inv s) (isPc : s.pc p = .cleared) (isFree : s.spin = none) :
    Inv { s.goto p .wake with committing := false, spin := some p } := by
  obtain ⟨holder, held, isCommitting⟩ := inv.committer
  refine ⟨Held.take (isFree ▸ inv.spin) rfl, inv.ptable.move (isPc ▸ rfl),
    inv.counted.move (isPc ▸ rfl), ⟨none, held.release (isPc ▸ rfl) rfl, rfl⟩, nofun, ?_,
    fun _ _ => Or.inr (Or.inr ⟨p, update_self _ _ _⟩)⟩
  intro nonempty
  refine (inv.logged nonempty).imp id ?_
  rintro ⟨q, isCommit⟩
  -- There is one commit at a time, and it is past this point.
  have same : q = p := held.alone (isCommit ▸ rfl) (isPc ▸ rfl)
  rw [same, isPc] at isCommit
  cases isCommit

theorem tick (inv : Inv s) (stepped : s.tick p = .ok s') : Inv s' := by
  unfold State.tick at stepped
  cases isPc : s.pc p <;> rw [isPc] at stepped <;> dsimp only at stepped
  case out => exact inv.beginOp isPc (Or.inl rfl) stepped
  case sleep =>
    obtain ⟨isFree, stepped⟩ := then_ok stepped
    cases stepped
    exact inv.walk isPc ⟨rfl, rfl, rfl⟩ rfl (inv.spin.move (isPc ▸ rfl))
      (Held.take (isFree ▸ inv.ptable) rfl) rfl rfl nofun nofun fun _ => Or.inl rfl
  case sleepLocked =>
    cases stepped
    exact inv.walk isPc ⟨rfl, rfl, rfl⟩ rfl (inv.spin.release (isPc ▸ rfl) rfl)
      (inv.ptable.move (isPc ▸ rfl)) rfl rfl nofun nofun fun _ => Or.inl rfl
  case falling =>
    cases stepped
    exact inv.walk isPc ⟨rfl, rfl, rfl⟩ rfl (inv.spin.move (isPc ▸ rfl))
      (inv.ptable.release (isPc ▸ rfl) rfl) rfl rfl nofun nofun fun _ => Or.inl rfl
  case sleeping => cases stepped
  case woken => exact inv.beginOp isPc (Or.inr rfl) stepped
  case active => cases stepped
  case writing => cases stepped
  case wake => exact inv.wakeup isPc stepped
  case commit =>
    cases stepped
    exact inv.clear isPc
  case cleared =>
    obtain ⟨isFree, stepped⟩ := then_ok stepped
    cases stepped
    exact inv.finish isPc isFree

theorem kill (inv : Inv s) (stepped : s.kill p = .ok s') : Inv s' := by
  obtain ⟨-, stepped⟩ := then_ok stepped
  cases stepped
  by_cases isPc : s.pc p = .sleeping
  · rw [isPc]
    show Inv (s.goto p .woken)
    exact inv.walk isPc ⟨rfl, rfl, rfl⟩ rfl (inv.spin.move (isPc ▸ rfl))
      (inv.ptable.move (isPc ▸ rfl)) rfl rfl nofun nofun nofun
  · rw [Pc.roused, State.goto, rouse_one_of_ne isPc]
    exact inv

theorem step {action : Action ι} (inv : Inv s) (stepped : s.step action = .ok s') : Inv s' := by
  cases action with
  | tick p => exact inv.tick stepped
  | logWrite p => exact inv.logWrite stepped
  | logBlock p b => exact inv.logBlock stepped
  | endOp p => exact inv.endOp stepped
  | kill p => exact inv.kill stepped

theorem run {size : Nat} (actions : List (Action ι))
    (ran : actions.foldlM State.step (State.init size) = .ok s) : Inv s :=
  foldlM_keeps Inv (fun _ _ _ inv stepped => inv.step stepped) actions (Inv.init size) ran

/-- An operation that ends is counted, so that no commit is under way. -/
theorem endOp_no_panic (inv : Inv s) : s.endOp p ≠ .error (.panic "log.committing") := by
  intro panics
  unfold State.endOp at panics
  split_ifs at panics with disabled committing
  · cases panics
  · have isPc : s.pc p = .active := not_not.mp (not_or.mp disabled).1
    have running : 1 ≤ s.outstanding := inv.counted.positive (p := p) (isPc ▸ rfl)
    have nothing := inv.quiet committing
    omega

end Inv

/-! ## What the log guarantees -/

/-- After any run of any processes, whenever `log.lock` is free: somebody sleeps on
the log only while a commit or an operation is under way, no operation is counted
during a commit, and the header is empty unless one of the two is under way. No
`end_op` panics because of a commit. -/
theorem begin_op_strands_nobody [DecidableEq ι] {size : Nat} {s : State ι}
    (actions : List (Action ι)) (ran : actions.foldlM State.step (State.init size) = .ok s)
    (free : s.spin = none) :
    ((∃ p, s.pc p = .sleeping) → s.committing = true ∨ 1 ≤ s.outstanding) ∧
    (s.committing = true → s.outstanding = 0) ∧
    (0 < s.lh.length → s.committing = true ∨ s.outstanding ≠ 0) ∧
    ∀ p, s.step (.endOp p) ≠ .error (.panic "log.committing") := by
  have inv := Inv.run actions ran
  refine ⟨?_, inv.quiet, ?_, fun p => inv.endOp_no_panic⟩
  · rintro ⟨p, isSleeping⟩
    rcases inv.waits p (isSleeping ▸ rfl) with committing | running | ⟨q, isWake⟩
    · exact Or.inl committing
    · exact Or.inr running
    · exact absurd (isWake ▸ rfl) (Held.nobody (free ▸ inv.spin) q)
  · intro nonempty
    rcases inv.logged (List.ne_nil_of_length_pos nonempty) with running | ⟨p, isCommit⟩
    · exact Or.inr (by omega)
    · exact Or.inl (inv.committing_of (p := p) (isCommit ▸ rfl))

/-- Three operations fill the reservation, and the fourth process falls asleep. -/
theorem begin_op_strands_nobody_four :
    ∃ s : State (Fin 4), ([.tick 0, .tick 1, .tick 2, .tick 3, .tick 3, .tick 3, .tick 3] :
        List (Action (Fin 4))).foldlM State.step (State.init nlog) = .ok s ∧
      s.pc 3 = .sleeping ∧ (s.committing = true ∨ 1 ≤ s.outstanding) := by
  have ran : ([.tick 0, .tick 1, .tick 2, .tick 3, .tick 3, .tick 3, .tick 3] :
      List (Action (Fin 4))).foldlM State.step (State.init nlog) = .ok _ := rfl
  exact ⟨_, ran, rfl, (begin_op_strands_nobody _ ran rfl).1 ⟨3, rfl⟩⟩

/-- Whoever is in `commit` is there alone, and no process is in an operation then. -/
theorem commit_excludes [DecidableEq ι] {size : Nat} {s : State ι} (actions : List (Action ι))
    (ran : actions.foldlM State.step (State.init size) = .ok s) {p : ι}
    (commits : (s.pc p).commits = true) (q : ι) :
    ((s.pc q).commits = true → q = p) ∧ (s.pc q).counts ≠ true := by
  have inv := Inv.run actions ran
  obtain ⟨holder, held, -⟩ := inv.committer
  refine ⟨fun other => held.alone other commits, ?_⟩
  have quiet := inv.quiet (inv.committing_of commits)
  intro counts
  have running := inv.counted.positive counts
  omega

theorem commit_excludes_two :
    ∃ s : State (Fin 2), [.tick 0, .endOp 0, .tick 1].foldlM State.step (State.init nlog) = .ok s ∧
      (s.pc 1).counts ≠ true :=
  ⟨_, rfl, (commit_excludes [.tick 0, .endOp 0, .tick 1] rfl (p := 0) rfl 1).2⟩

end Rexv6.Logging.Sleepers
