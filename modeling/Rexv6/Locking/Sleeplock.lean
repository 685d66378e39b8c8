import Rexv6.Foundation.Execution
import Rexv6.Foundation.Mutex
import Rexv6.Foundation.Rousing

/-!
Contract: a sleep-lock of `kern/locking/sleeplock.c` excludes, and loses no
wake-up.

Owns: `acquiresleep`, `releasesleep` and `holdingsleep` with the parts of `sleep`,
`wakeup` and `kill` that they meet, for any set of processes; the invariant of
their steps; and what holds of the lock after every run.

Does not own: fairness. A process calls `releasesleep` only after its
`acquiresleep` has returned.
-/

namespace Rexv6.Locking

open Rexv6.Foundation
open Rexv6.Foundation.Execution (foldlM_keeps then_ok)
open Function (update update_of_ne update_self)

/-- `struct sleeplock`, without its spinlock and its name. -/
structure Sleeplock where
  locked : Bool
  pid : BitVec 32
deriving DecidableEq

def initsleeplock : Sleeplock := { locked := false, pid := 0 }

def holdingsleep (lk : Sleeplock) (pid : BitVec 32) : Bool := lk.locked && lk.pid == pid

/-- The next step of a process. Outside of the calls a process has the lock
(`holding`) or not (`out`); its next step is then the `acquire(&lk->lk)` of
`releasesleep` or of `acquiresleep`. `sleep` to `woken` are inside `sleep`: before
it takes `ptable.lock`, holding both locks, holding `ptable.lock` only, asleep, and
before it takes `lk->lk` again. -/
inductive Pc where
  | out
  | whileLocked
  | sleep
  | sleepLocked
  | falling
  | sleeping
  | woken
  | setLocked
  | setPid
  | acquired
  | holding
  | clearLocked
  | clearPid
  | wake
  | released
deriving DecidableEq, Repr

namespace Pc

/-- The process holds `lk->lk`. -/
def inside : Pc → Bool
  | .out | .falling | .sleeping | .woken | .holding => false
  | _ => true

/-- The process holds `ptable.lock`. -/
def tabled : Pc → Bool
  | .sleepLocked | .falling => true
  | _ => false

/-- The process has set `lk->locked` and has not cleared it. -/
def owns : Pc → Bool
  | .setPid | .acquired | .holding | .clearLocked => true
  | _ => false

/-- The process has set `lk->pid` and has not cleared it. -/
def names : Pc → Bool
  | .acquired | .holding | .clearLocked | .clearPid => true
  | _ => false

/-- The process has found the lock taken and is about to sleep. -/
def found : Pc → Bool
  | .sleep | .sleepLocked => true
  | _ => false

/-- The process is past the point where it can notice that the lock is free. -/
def waits : Pc → Bool
  | .falling | .sleeping => true
  | _ => false

/-- The process has cleared `lk->locked` and is going to wake the sleepers. -/
def pending : Pc → Bool
  | .clearPid | .wake => true
  | _ => false

theorem inside_of_found {pc : Pc} (isFound : pc.found = true) : pc.inside = true := by
  cases pc
  case sleep => rfl
  case sleepLocked => rfl
  all_goals cases isFound

def roused (pc : Pc) : Pc := rouse .sleeping .woken pc

end Pc

variable {ι : Type}

structure State (ι : Type) where
  lk : Sleeplock
  /-- The holder of `lk->lk`. -/
  spin : Option ι
  /-- The holder of `ptable.lock`, when a process can be found holding it. -/
  ptable : Option ι
  pc : ι → Pc

inductive Action (ι : Type) where
  | tick (p : ι)
  | kill (p : ι)

inductive Stop where
  | disabled
deriving DecidableEq, Repr

namespace State

variable [DecidableEq ι]

def goto (s : State ι) (p : ι) (pc : Pc) : State ι := { s with pc := update s.pc p pc }

def acquire (s : State ι) (p : ι) (pc : Pc) : Except Stop (State ι) :=
  if s.spin = none then .ok { s.goto p pc with spin := some p } else .error .disabled

def release (s : State ι) (p : ι) (pc : Pc) : State ι := { s.goto p pc with spin := none }

/-- `wakeup(lk)` by `p`, which goes on to `pc`. -/
def wakeup (s : State ι) (p : ι) (pc : Pc) : Except Stop (State ι) :=
  if s.ptable = none then .ok ({ s with pc := fun q => (s.pc q).roused }.goto p pc)
  else .error .disabled

/-- The next step of process `p`. -/
def tick (pid : ι → BitVec 32) (s : State ι) (p : ι) : Except Stop (State ι) :=
  match s.pc p with
  | .out => s.acquire p .whileLocked
  | .whileLocked => if s.lk.locked = true then .ok (s.goto p .sleep) else .ok (s.goto p .setLocked)
  | .sleep =>
    if s.ptable = none then .ok { s.goto p .sleepLocked with ptable := some p }
    else .error .disabled
  | .sleepLocked => .ok (s.release p .falling)
  | .falling => .ok { s.goto p .sleeping with ptable := none }
  | .sleeping => .error .disabled
  | .woken => s.acquire p .whileLocked
  | .setLocked => .ok { s.goto p .setPid with lk := { s.lk with locked := true } }
  | .setPid => .ok { s.goto p .acquired with lk := { s.lk with pid := pid p } }
  | .acquired => .ok (s.release p .holding)
  | .holding => s.acquire p .clearLocked
  | .clearLocked => .ok { s.goto p .clearPid with lk := { s.lk with locked := false } }
  | .clearPid => .ok { s.goto p .wake with lk := { s.lk with pid := 0 } }
  | .wake => s.wakeup p .released
  | .released => .ok (s.release p .out)

/-- `kill`: it holds `ptable.lock` from its first to its last step. -/
def kill (s : State ι) (p : ι) : Except Stop (State ι) :=
  if s.ptable = none then .ok (s.goto p (s.pc p).roused) else .error .disabled

def step (pid : ι → BitVec 32) (s : State ι) : Action ι → Except Stop (State ι)
  | .tick p => s.tick pid p
  | .kill p => s.kill p

def run (pid : ι → BitVec 32) (s : State ι) (actions : List (Action ι)) :
    Except Stop (State ι) :=
  actions.foldlM (step pid) s

/-- The lock after `initsleeplock`, with no process in a call. -/
def init : State ι := { lk := initsleeplock, spin := none, ptable := none, pc := fun _ => .out }

end State

/-! ## The invariant -/

structure Inv (pid : ι → BitVec 32) (s : State ι) : Prop where
  spin : Held s.spin fun p => (s.pc p).inside = true
  ptable : Held s.ptable fun p => (s.pc p).tabled = true
  owner : ∃ holder, Held holder (fun p => (s.pc p).owns = true) ∧
    s.lk.locked = holder.isSome
  named : ∃ holder, Held holder (fun p => (s.pc p).names = true) ∧
    s.lk.pid = (holder.map pid).getD 0
  free : ∀ p, s.pc p = .setLocked → s.lk.locked = false
  found : ∀ p, (s.pc p).found = true → s.lk.locked = true
  /-- Who does not look at the lock any more is waiting for a holder, or for a
  wake-up that is on its way. -/
  waits : ∀ p, (s.pc p).waits = true → s.lk.locked = true ∨ ∃ q, (s.pc q).pending = true

namespace Inv

variable {pid : ι → BitVec 32} {s s' : State ι} {p : ι}

theorem init : Inv pid (State.init : State ι) := by
  have nobody : ∀ {inside : Pc → Bool}, inside .out = false →
      Held none fun p : ι => inside ((State.init : State ι).pc p) = true :=
    fun outside => .empty fun p isInside => Bool.false_ne_true (outside.symm.trans isInside)
  refine ⟨nobody rfl, nobody rfl, ⟨none, nobody rfl, rfl⟩, ⟨none, nobody rfl, rfl⟩, ?_, ?_, ?_⟩
  · intro p isFree
    cases isFree
  · intro p isFound
    cases isFound
  · intro p isWaiting
    cases isWaiting

theorem unnamed (inv : Inv pid s) (isPc : s.pc p = .setPid) {q : ι} :
    (s.pc q).names ≠ true := by
  intro names
  have inside : (s.pc p).inside = true := isPc ▸ rfl
  have owns : (s.pc p).owns = true := isPc ▸ rfl
  obtain ⟨_, ownerHeld, _⟩ := inv.owner
  have same : q = p := by
    by_cases isOwner : (s.pc q).owns = true
    · exact ownerHeld.alone isOwner owns
    · refine inv.spin.alone ?_ inside
      cases isQ : s.pc q <;> rw [isQ] at names isOwner
      case clearPid => rfl
      case acquired => rfl
      case clearLocked => rfl
      case holding => exact absurd rfl isOwner
      all_goals cases names
  rw [same, isPc] at names
  cases names

variable [DecidableEq ι]

/-- What a move of `p` leaves of the others who wait. -/
theorem waits_keep (inv : Inv pid s) {next : Pc}
    (stillPending : (s.pc p).pending = true → next.pending = true) {q : ι}
    (waits : (s.pc q).waits = true) :
    s.lk.locked = true ∨ ∃ r, (update s.pc p next r).pending = true := by
  refine (inv.waits q waits).imp id ?_
  intro pending
  obtain ⟨r, isPending⟩ := pending
  refine ⟨r, ?_⟩
  by_cases here : r = p
  · rw [here, update_self]
    rw [here] at isPending
    exact stillPending isPending
  · rw [update_of_ne here]
    exact isPending

/-- A step that does not touch the sleep-lock itself. -/
theorem walk (inv : Inv pid s) {here next : Pc} (isPc : s.pc p = here) (lk : s'.lk = s.lk)
    (pc : s'.pc = update s.pc p next)
    (spin : Held s'.spin fun q => (update s.pc p next q).inside = true)
    (ptable : Held s'.ptable fun q => (update s.pc p next q).tabled = true)
    (owns : next.owns = here.owns) (names : next.names = here.names)
    (pending : next.pending = here.pending) (free : next = .setLocked → s.lk.locked = false)
    (found : next.found = true → s.lk.locked = true)
    (waits : next.waits = true → s.lk.locked = true ∨ here.waits = true) : Inv pid s' := by
  rw [← isPc] at owns names pending waits
  obtain ⟨owner, ownerHeld, isLocked⟩ := inv.owner
  obtain ⟨name, nameHeld, isNamed⟩ := inv.named
  obtain ⟨_, _, _, _⟩ := s'
  obtain rfl := lk
  obtain rfl := pc
  refine ⟨spin, ptable, ⟨owner, ownerHeld.move owns, isLocked⟩,
    ⟨name, nameHeld.move names, isNamed⟩, ?_, ?_, ?_⟩ <;> dsimp only
  · intro q isFree
    by_cases isP : q = p
    · rw [isP, update_self] at isFree
      exact free isFree
    · rw [update_of_ne isP] at isFree
      exact inv.free q isFree
  · intro q isFound
    by_cases isP : q = p
    · rw [isP, update_self] at isFound
      exact found isFound
    · rw [update_of_ne isP] at isFound
      exact inv.found q isFound
  · intro q isWaiting
    have still : (s.pc p).pending = true → next.pending = true := fun was => pending.trans was
    by_cases isP : q = p
    · rw [isP, update_self] at isWaiting
      rcases waits isWaiting with locked | before
      · exact Or.inl locked
      · exact inv.waits_keep still before
    · rw [update_of_ne isP] at isWaiting
      exact inv.waits_keep still isWaiting

theorem acquire (inv : Inv pid s) {here next : Pc} (isPc : s.pc p = here)
    (stepped : s.acquire p next = .ok s') (inside : next.inside = true)
    (tabled : next.tabled = here.tabled) (owns : next.owns = here.owns)
    (names : next.names = here.names) (pending : next.pending = here.pending)
    (free : next ≠ .setLocked) (found : next.found = false) (waits : next.waits = false) :
    Inv pid s' := by
  obtain ⟨isFree, stepped⟩ := then_ok stepped
  cases stepped
  refine inv.walk isPc rfl rfl (Held.take (isFree ▸ inv.spin) inside)
    (inv.ptable.move (isPc ▸ tabled)) owns names pending ?_ ?_ ?_
  · intro isSet
    exact absurd isSet free
  · intro isFound
    rw [found] at isFound
    cases isFound
  · intro isWaiting
    rw [waits] at isWaiting
    cases isWaiting

theorem release (inv : Inv pid s) {here next : Pc} (isPc : s.pc p = here)
    (was : here.inside = true) (left : next.inside = false) (tabled : next.tabled = here.tabled)
    (owns : next.owns = here.owns) (names : next.names = here.names)
    (pending : next.pending = here.pending) (waits : next.waits = true → s.lk.locked = true) :
    Inv pid (s.release p next) := by
  refine inv.walk isPc rfl rfl (inv.spin.release (isPc ▸ was) left)
    (inv.ptable.move (isPc ▸ tabled)) owns names pending ?_ ?_ fun isWaiting =>
      Or.inl (waits isWaiting)
  · intro isSet
    rw [isSet] at left
    cases left
  · intro isFound
    rw [Pc.inside_of_found isFound] at left
    cases left

/-- A step inside the critical section that touches the sleep-lock: nobody else
has just found it taken or free. -/
theorem touch (inv : Inv pid s) {here next : Pc} {lk : Sleeplock} (isPc : s.pc p = here)
    (was : here.inside = true) (inside : next.inside = true) (tabled : next.tabled = here.tabled)
    (owner : ∃ holder, Held holder (fun q => (update s.pc p next q).owns = true) ∧
      lk.locked = holder.isSome)
    (named : ∃ holder, Held holder (fun q => (update s.pc p next q).names = true) ∧
      lk.pid = (holder.map pid).getD 0)
    (free : next ≠ .setLocked) (found : next.found = false) (waits : next.waits = false)
    (woken : ∀ q, q ≠ p → (s.pc q).waits = true →
      lk.locked = true ∨ ∃ r, (update s.pc p next r).pending = true) :
    Inv pid { s.goto p next with lk := lk } := by
  rw [← isPc] at was tabled
  -- Only one process is inside.
  have alone : ∀ {q}, q ≠ p → (s.pc q).inside ≠ true := by
    intro q other isInside
    exact other (inv.spin.alone isInside was)
  refine ⟨inv.spin.move (inside.trans was.symm), inv.ptable.move tabled, owner, named, ?_, ?_, ?_⟩
  · intro q isFree
    dsimp only [State.goto] at isFree
    by_cases isP : q = p
    · rw [isP, update_self] at isFree
      exact absurd isFree free
    · rw [update_of_ne isP] at isFree
      exact absurd (by rw [isFree]; rfl) (alone isP)
  · intro q isFound
    dsimp only [State.goto] at isFound
    by_cases isP : q = p
    · rw [isP, update_self, found] at isFound
      cases isFound
    · rw [update_of_ne isP] at isFound
      refine absurd ?_ (alone isP)
      cases isPc : s.pc q <;> rw [isPc] at isFound <;> first | rfl | cases isFound
  · intro q isWaiting
    dsimp only [State.goto] at isWaiting
    by_cases isP : q = p
    · rw [isP, update_self, waits] at isWaiting
      cases isWaiting
    · rw [update_of_ne isP] at isWaiting
      exact woken q isP isWaiting

theorem wakeup (inv : Inv pid s) (isWake : s.pc p = .wake)
    (stepped : s.wakeup p .released = .ok s') : Inv pid s' := by
  obtain ⟨isFree, stepped⟩ := then_ok stepped
  cases stepped
  have roused : ∀ {inside : Pc → Bool}, inside .woken = inside .sleeping →
      inside .released = inside .wake → ∀ q,
      inside (update (fun r => (s.pc r).roused) p .released q) = inside (s.pc q) :=
    fun same same' => rouse_all_same same (isWake ▸ same')
  have keep : ∀ {inside : Pc → Bool} {holder : Option ι}, inside .woken = inside .sleeping →
      inside .released = inside .wake → Held holder (fun q => inside (s.pc q) = true) →
      Held holder fun q =>
        inside (update (fun r => (s.pc r).roused) p .released q) = true :=
    fun same same' held => held.keep fun q => by rw [roused same same' q]
  obtain ⟨owner, ownerHeld, isLocked⟩ := inv.owner
  obtain ⟨name, nameHeld, isNamed⟩ := inv.named
  refine ⟨keep rfl rfl inv.spin, keep rfl rfl inv.ptable,
    ⟨owner, keep rfl rfl ownerHeld, isLocked⟩, ⟨name, keep rfl rfl nameHeld, isNamed⟩, ?_, ?_, ?_⟩
  · intro q isSet
    have before := @roused (fun pc => pc = .setLocked) rfl rfl q
    rw [Bool.eq_iff_iff] at before
    simp only [decide_eq_true_eq] at before
    exact inv.free q (before.mp isSet)
  · intro q isFound
    exact inv.found q ((roused rfl rfl q).symm.trans isFound)
  · -- Nobody is left: sleepers have been roused, and nobody holds `ptable.lock`.
    intro q isWaiting
    exfalso
    dsimp only [State.goto] at isWaiting
    by_cases here : q = p
    · rw [here, update_self] at isWaiting
      cases isWaiting
    · rw [update_of_ne here] at isWaiting
      have outside := Held.nobody (isFree ▸ inv.ptable) q
      cases isPc : s.pc q <;> rw [isPc] at isWaiting outside <;>
        first | exact outside rfl | cases isWaiting

theorem setLocked (inv : Inv pid s) (isPc : s.pc p = .setLocked) :
    Inv pid { s.goto p .setPid with lk := { s.lk with locked := true } } := by
  obtain ⟨owner, ownerHeld, isLocked⟩ := inv.owner
  obtain ⟨name, nameHeld, isNamed⟩ := inv.named
  rw [inv.free p isPc] at isLocked
  have nobody : owner = none := Option.not_isSome_iff_eq_none.mp (by rw [← isLocked]; decide)
  rw [nobody] at ownerHeld
  exact inv.touch isPc rfl rfl rfl ⟨some p, ownerHeld.take rfl, rfl⟩
    ⟨name, nameHeld.move (isPc ▸ rfl), isNamed⟩ (by decide) rfl rfl fun _ _ _ => Or.inl rfl

theorem setPid (inv : Inv pid s) (isPc : s.pc p = .setPid) :
    Inv pid { s.goto p .acquired with lk := { s.lk with pid := pid p } } := by
  obtain ⟨owner, ownerHeld, isLocked⟩ := inv.owner
  have nobody : Held none fun q => (s.pc q).names = true := .empty fun _ => inv.unnamed isPc
  have keep : (s.pc p).pending = true → Pc.acquired.pending = true := by
    intro pending
    rw [isPc] at pending
    cases pending
  exact inv.touch isPc rfl rfl rfl ⟨owner, ownerHeld.move (isPc ▸ rfl), isLocked⟩
    ⟨some p, nobody.take rfl, rfl⟩ (by decide) rfl rfl fun q _ waits => inv.waits_keep keep waits

theorem clearLocked (inv : Inv pid s) (isPc : s.pc p = .clearLocked) :
    Inv pid { s.goto p .clearPid with lk := { s.lk with locked := false } } := by
  obtain ⟨_, ownerHeld, _⟩ := inv.owner
  obtain ⟨name, nameHeld, isNamed⟩ := inv.named
  refine inv.touch isPc rfl rfl rfl ⟨none, ownerHeld.release (isPc ▸ rfl) rfl, rfl⟩
    ⟨name, nameHeld.move (isPc ▸ rfl), isNamed⟩ (by decide) rfl rfl fun q _ _ => Or.inr ⟨p, ?_⟩
  rw [update_self]
  rfl

theorem clearPid (inv : Inv pid s) (isPc : s.pc p = .clearPid) :
    Inv pid { s.goto p .wake with lk := { s.lk with pid := 0 } } := by
  obtain ⟨owner, ownerHeld, isLocked⟩ := inv.owner
  obtain ⟨_, nameHeld, _⟩ := inv.named
  exact inv.touch isPc rfl rfl rfl ⟨owner, ownerHeld.move (isPc ▸ rfl), isLocked⟩
    ⟨none, nameHeld.release (isPc ▸ rfl) rfl, rfl⟩ (by decide) rfl rfl
    fun q _ waits => inv.waits_keep (fun _ => rfl) waits

theorem tick (inv : Inv pid s) (stepped : s.tick pid p = .ok s') : Inv pid s' := by
  unfold State.tick at stepped
  cases isPc : s.pc p <;> rw [isPc] at stepped <;> dsimp only at stepped
  case out =>
    exact inv.acquire isPc stepped rfl rfl rfl rfl rfl (by decide) rfl rfl
  case whileLocked =>
    split_ifs at stepped with locked <;> cases stepped
    · exact inv.walk isPc rfl rfl (inv.spin.move (isPc ▸ rfl)) (inv.ptable.move (isPc ▸ rfl))
        rfl rfl rfl nofun (fun _ => locked) nofun
    · exact inv.walk isPc rfl rfl (inv.spin.move (isPc ▸ rfl)) (inv.ptable.move (isPc ▸ rfl))
        rfl rfl rfl (fun _ => eq_false_of_ne_true locked) nofun nofun
  case sleep =>
    obtain ⟨isFree, stepped⟩ := then_ok stepped
    cases stepped
    exact inv.walk isPc rfl rfl (inv.spin.move (isPc ▸ rfl)) (Held.take (isFree ▸ inv.ptable) rfl)
      rfl rfl rfl nofun (fun _ => inv.found p (isPc ▸ rfl)) nofun
  case sleepLocked =>
    cases stepped
    exact inv.release isPc rfl rfl rfl rfl rfl rfl fun _ => inv.found p (isPc ▸ rfl)
  case falling =>
    cases stepped
    exact inv.walk isPc rfl rfl (inv.spin.move (isPc ▸ rfl)) (inv.ptable.release (isPc ▸ rfl) rfl)
      rfl rfl rfl nofun nofun fun _ => Or.inr rfl
  case sleeping => cases stepped
  case woken =>
    exact inv.acquire isPc stepped rfl rfl rfl rfl rfl (by decide) rfl rfl
  case setLocked =>
    cases stepped
    exact inv.setLocked isPc
  case setPid =>
    cases stepped
    exact inv.setPid isPc
  case acquired =>
    cases stepped
    exact inv.release isPc rfl rfl rfl rfl rfl rfl nofun
  case holding =>
    exact inv.acquire isPc stepped rfl rfl rfl rfl rfl (by decide) rfl rfl
  case clearLocked =>
    cases stepped
    exact inv.clearLocked isPc
  case clearPid =>
    cases stepped
    exact inv.clearPid isPc
  case wake => exact inv.wakeup isPc stepped
  case released =>
    cases stepped
    exact inv.release isPc rfl rfl rfl rfl rfl rfl nofun

theorem kill (inv : Inv pid s) (stepped : s.kill p = .ok s') : Inv pid s' := by
  obtain ⟨-, stepped⟩ := then_ok stepped
  cases stepped
  by_cases isPc : s.pc p = .sleeping
  · rw [isPc]
    change Inv pid (s.goto p .woken)
    exact inv.walk isPc rfl rfl (inv.spin.move (isPc ▸ rfl)) (inv.ptable.move (isPc ▸ rfl))
      rfl rfl rfl nofun nofun nofun
  · rw [Pc.roused, State.goto, rouse_one_of_ne isPc]
    exact inv

theorem step {action : Action ι} (inv : Inv pid s) (stepped : s.step pid action = .ok s') :
    Inv pid s' := by
  cases action with
  | tick p => exact inv.tick stepped
  | kill p => exact inv.kill stepped

theorem run (actions : List (Action ι)) (ran : State.init.run pid actions = .ok s) : Inv pid s :=
  foldlM_keeps (Inv pid) (fun _ _ _ inv stepped => inv.step stepped) actions Inv.init ran

end Inv

/-! ## What the lock guarantees -/

section Guarantees

variable [DecidableEq ι] {pid : ι → BitVec 32}

/-- After any run of any processes with distinct pids other than 0: at most one is
between a returned `acquiresleep` and its `releasesleep`; `lk->pid` is its pid, and,
whenever `lk->lk` is free, the pid of no other process, which is also what
`holdingsleep` says; and whenever both spinlocks are free, nobody sleeps on the lock
unless somebody has it. -/
theorem sleeplock_excludes (distinct : Function.Injective pid) (real : ∀ p, pid p ≠ 0)
    (actions : List (Action ι)) (s : State ι) (ran : State.init.run pid actions = .ok s) :
    (∀ p q, s.pc p = .holding → s.pc q = .holding → p = q) ∧
    (∀ p, s.pc p = .holding → s.lk.pid = pid p) ∧
    (s.spin = none → ∀ p, (s.lk.pid = pid p ↔ s.pc p = .holding) ∧
      (holdingsleep s.lk (pid p) = true ↔ s.pc p = .holding)) ∧
    (s.spin = none → s.ptable = none → ∀ p, s.pc p = .sleeping → ∃ q, s.pc q = .holding) := by
  have inv := Inv.run actions ran
  obtain ⟨owner, ownerHeld, isLocked⟩ := inv.owner
  obtain ⟨name, nameHeld, isNamed⟩ := inv.named
  have named : ∀ p, s.pc p = .holding → s.lk.pid = pid p := by
    intro p holding
    rw [isNamed, (nameHeld p).mpr (by simp [holding, Pc.names])]
    rfl
  -- With `lk->lk` free, whoever has set a field of the lock has returned.
  have returned : s.spin = none → ∀ {p}, (s.pc p).owns = true ∨ (s.pc p).names = true →
      s.pc p = .holding := by
    intro free p set
    have outside : (s.pc p).inside ≠ true := Held.nobody (free ▸ inv.spin) p
    cases isPc : s.pc p <;> rw [isPc] at set outside
    all_goals first | exact absurd rfl outside | (rcases set with set | set <;> cases set)
  have pids : s.spin = none → ∀ p, s.lk.pid = pid p → s.pc p = .holding := by
    intro free p same
    cases isName : name with
    | none =>
      rw [isNamed, isName] at same
      exact absurd same.symm (real p)
    | some q =>
      rw [isNamed, isName] at same
      have isQ : q = p := distinct same
      exact returned free (Or.inr ((nameHeld p).mp (isQ ▸ isName)))
  have locked : ∀ p, s.pc p = .holding → s.lk.locked = true := by
    intro p holding
    rw [isLocked, (ownerHeld p).mpr (by simp [holding, Pc.owns])]
    rfl
  refine ⟨?_, named, ?_, ?_⟩
  · intro p q first second
    exact ownerHeld.alone (by simp [first, Pc.owns]) (by simp [second, Pc.owns])
  · intro free p
    refine ⟨⟨pids free p, named p⟩, ?_⟩
    rw [holdingsleep, Bool.and_eq_true, beq_iff_eq]
    exact ⟨fun both => pids free p both.2, fun holding => ⟨locked p holding, named p holding⟩⟩
  · intro free _ p sleeping
    rcases inv.waits p (by rw [sleeping]; rfl) with isHeld | ⟨q, pending⟩
    · obtain ⟨q, isOwner⟩ := Option.isSome_iff_exists.mp (isLocked ▸ isHeld)
      exact ⟨q, returned free (Or.inl ((ownerHeld q).mp isOwner))⟩
    · -- The one that is going to wake the sleepers holds `lk->lk`.
      have outside : (s.pc q).inside ≠ true := Held.nobody (free ▸ inv.spin) q
      cases isPc : s.pc q <;> rw [isPc] at pending outside
      case clearPid => exact absurd rfl outside
      case wake => exact absurd rfl outside
      all_goals cases pending

/-- Two processes: the first takes the lock, and the second falls asleep on it. -/
theorem sleeplock_excludes_two :
    ∃ s : State (Fin 2), State.init.run (fun p => BitVec.ofNat 32 (p.val + 1))
        ([.tick 0, .tick 0, .tick 0, .tick 0, .tick 0, .tick 1, .tick 1, .tick 1, .tick 1,
          .tick 1] : List (Action (Fin 2))) = .ok s ∧
      s.pc 1 = .sleeping ∧ s.lk.pid = 1 ∧ ∃ q, s.pc q = .holding := by
  have distinct : Function.Injective fun p : Fin 2 => BitVec.ofNat 32 (p.val + 1) := by
    unfold Function.Injective
    decide
  obtain ⟨_, named, _, waiting⟩ := sleeplock_excludes distinct (by decide)
    [.tick 0, .tick 0, .tick 0, .tick 0, .tick 0, .tick 1, .tick 1, .tick 1, .tick 1, .tick 1] _ rfl
  exact ⟨_, rfl, rfl, named 0 rfl, waiting rfl rfl 1 rfl⟩

end Guarantees

end Rexv6.Locking
