import Rexv6.Locking.Sleeplock
import Rexv6.Logging.Sleepers
import Rexv6.Sched.SysSleep
import Rexv6.Sched.Transitions

/-!
Contract: `sleep`, `wakeup` and `kill` are the same calls in every model.

Owns: how the process table shows which of some processes are asleep on a channel, that
`sleep`, `wakeup` and `kill` on the table keep it that way, and that they are steps of the
models of the sleep-lock, of the log and of `sys_sleep`.

Does not own: what those models say about their callers.
-/

namespace Rexv6.Sched

open Rexv6.Foundation
open Rexv6.Foundation.Execution (else_ok)
open Function (Injective update update_of_ne update_self)

variable {ncpu : Nat} {s s' : State ncpu} {c : Fin ncpu} {chan : Chan} {pid : BitVec 32}
  {ι Pc : Type} {slot : ι → Slot} {p : ι} {asleep : Pc} {pc : ι → Pc} {tabled : Prop}

/-- The table shows processes, each in a slot of its own: those at the point `asleep` sleep
on `chan`, and if one of them has `ptable.lock`, then it is taken. -/
structure Shows (s : State ncpu) (chan : Chan) (slot : ι → Slot) (asleep : Pc) (pc : ι → Pc)
    (tabled : Prop) : Prop where
  slots : Injective slot
  sleeping : ∀ p, pc p = asleep ↔
    (s.procs (slot p)).state = .sleeping ∧ (s.procs (slot p)).chan = some chan
  free : s.lock = none → ¬ tabled

/-- The slot that `kill` finds. -/
def Finds (s : State ncpu) (pid : BitVec 32) (slot : Slot) : Prop :=
  slots.find? (fun i => (s.procs i).pid = pid) = some slot

namespace Shows

variable [DecidableEq ι]

theorem move (shows : Shows s chan slot asleep pc tabled) {next : Pc} {tabled' : Prop}
    (others : ∀ i, i ≠ slot p → s'.procs i = s.procs i)
    (here : next = asleep ↔
      (s'.procs (slot p)).state = .sleeping ∧ (s'.procs (slot p)).chan = some chan)
    (free : s'.lock = none → ¬ tabled') :
    Shows s' chan slot asleep (update pc p next) tabled' := by
  refine ⟨shows.slots, fun q => ?_, free⟩
  by_cases isP : q = p
  · rw [isP, update_self]
    exact here
  · rw [update_of_ne isP, others _ fun same => isP (shows.slots same)]
    exact shows.sleeping q

theorem sleep (shows : Shows s chan slot asleep pc tabled) (p : ι)
    (current : (s.cpus c).proc = some (slot p)) (stepped : s.sleep c chan = .ok s') :
    ¬ tabled ∧ ∀ {tabled'}, Shows s' chan slot asleep (update pc p asleep) tabled' := by
  obtain ⟨q, isCurrent, _, stepped⟩ := current_ok stepped
  obtain rfl : q = slot p := Option.some.inj (isCurrent.symm.trans current)
  obtain ⟨-, stepped⟩ := else_ok stepped
  obtain ⟨free, switched⟩ := acquire_ok stepped
  obtain ⟨_, next, rfl⟩ := sched_ok switched
  refine ⟨shows.free free, shows.move ?_ ?_ nofun⟩
  · intro i other
    exact update_of_ne other _ _
  · simp [State.setCpu, State.setProc]

theorem goes (shows : Shows s chan slot asleep pc tabled) {next : Pc} (was : pc p ≠ asleep)
    (isAwake : next ≠ asleep) : Shows s chan slot asleep (update pc p next) tabled :=
  shows.move (fun _ _ => rfl) (iff_of_false isAwake (was ∘ (shows.sleeping p).mpr)) shows.free

variable [DecidableEq Pc]

omit [DecidableEq ι] in
theorem wakeup (shows : Shows s chan slot asleep pc tabled) (awake : Pc)
    (differ : awake ≠ asleep) (stepped : s.wakeup c chan = .ok s') :
    ¬ tabled ∧ Shows s' chan slot asleep (fun q => rouse asleep awake (pc q)) tabled := by
  obtain ⟨free, stepped⟩ := acquire_ok stepped
  cases stepped
  refine ⟨shows.free free, shows.slots, fun q => iff_of_false (rouse_ne differ _) ?_,
    fun _ => shows.free free⟩
  dsimp only [State.release, wakeup1]
  split
  · nofun
  · assumption

theorem kill (shows : Shows s chan slot asleep pc tabled) (p : ι)
    (found : Finds s pid (slot p)) (awake : Pc) (differ : awake ≠ asleep)
    (stepped : s.kill c pid = .ok s') :
    ¬ tabled ∧ Shows s' chan slot asleep (update pc p (rouse asleep awake (pc p))) tabled := by
  obtain ⟨q, _, _, rest⟩ := current_ok stepped
  obtain ⟨free, rest⟩ := acquire_ok rest
  rw [found] at rest
  cases rest
  refine ⟨shows.free free, shows.move ?_ (iff_of_false (rouse_ne differ _) ?_)
    fun _ => shows.free free⟩
  · intro i other
    exact update_of_ne other _ _
  · simp only [State.release, State.log, State.setProc, update_self]
    split
    · simp
    · rename_i isAwake
      exact fun both => isAwake both.1

end Shows

end Rexv6.Sched

/-! ## The models of the callers -/

namespace Rexv6.Locking

open Rexv6.Foundation (rouse_ne)
open Function (update)

variable {ncpu : Nat} {s s' : Sched.State ncpu} {c : Fin ncpu} {chan : Sched.Chan}
  {ι : Type} [DecidableEq ι] {slot : ι → Sched.Slot} {p : ι} {t : State ι}

/-- The table shows the processes that use the sleep-lock. -/
abbrev Shown (s : Sched.State ncpu) (chan : Sched.Chan) (slot : ι → Sched.Slot) (t : State ι) :
    Prop :=
  Sched.Shows s chan slot .sleeping t.pc (t.ptable ≠ none)

theorem sleep_shown (pid : ι → BitVec 32) (shown : Shown s chan slot t)
    (current : (s.cpus c).proc = some (slot p)) (stepped : s.sleep c chan = .ok s')
    (isPc : t.pc p = .sleep) : ∃ t', Shown s' chan slot t' ∧
      [.tick p, .tick p, .tick p].foldlM (State.step pid) t = .ok t' := by
  obtain ⟨free, slept⟩ := shown.sleep p current stepped
  refine ⟨{ t with spin := none, ptable := none, pc := update t.pc p .sleeping }, slept, ?_⟩
  have isFree : t.ptable = none := not_not.mp free
  simp [State.step, State.tick, State.goto, State.release, isPc, isFree, bind, Except.bind, pure,
    Except.pure]

theorem wakeup_shown (shown : Shown s chan slot t) (stepped : s.wakeup c chan = .ok s') :
    ∃ t', Shown s' chan slot t' ∧ t.wakeup p .released = .ok t' := by
  obtain ⟨free, woken⟩ := shown.wakeup Pc.woken (by decide) stepped
  exact ⟨_, woken.goes (rouse_ne (by decide) _) (by decide), if_pos (not_not.mp free)⟩

theorem kill_shown {pid : BitVec 32} (shown : Shown s chan slot t)
    (found : Sched.Finds s pid (slot p)) (stepped : s.kill c pid = .ok s') :
    ∃ t', Shown s' chan slot t' ∧ t.kill p = .ok t' := by
  obtain ⟨free, killed⟩ := shown.kill p found Pc.woken (by decide) stepped
  exact ⟨t.goto p (t.pc p).roused, killed, if_pos (not_not.mp free)⟩

end Rexv6.Locking

namespace Rexv6.Logging.Sleepers

open Rexv6.Foundation (rouse_ne)
open Function (update)

variable {ncpu : Nat} {s s' : Sched.State ncpu} {c : Fin ncpu} {chan : Sched.Chan}
  {ι : Type} [DecidableEq ι] {slot : ι → Sched.Slot} {p : ι} {t : State ι}

/-- The table shows the processes that call the log. -/
abbrev Shown (s : Sched.State ncpu) (chan : Sched.Chan) (slot : ι → Sched.Slot) (t : State ι) :
    Prop :=
  Sched.Shows s chan slot .sleeping t.pc (t.ptable ≠ none)

theorem sleep_shown (shown : Shown s chan slot t) (current : (s.cpus c).proc = some (slot p))
    (stepped : s.sleep c chan = .ok s') (isPc : t.pc p = .sleep) :
    ∃ t', Shown s' chan slot t' ∧ [.tick p, .tick p, .tick p].foldlM State.step t = .ok t' := by
  obtain ⟨free, slept⟩ := shown.sleep p current stepped
  refine ⟨{ t with spin := none, ptable := none, pc := update t.pc p .sleeping }, slept, ?_⟩
  have isFree : t.ptable = none := not_not.mp free
  simp [State.step, State.tick, State.goto, isPc, isFree, bind, Except.bind, pure, Except.pure]

theorem wakeup_shown (shown : Shown s chan slot t) (stepped : s.wakeup c chan = .ok s') :
    ∃ t', Shown s' chan slot t' ∧ t.wakeup p = .ok t' := by
  obtain ⟨free, woken⟩ := shown.wakeup Pc.woken (by decide) stepped
  exact ⟨_, woken.goes (rouse_ne (by decide) _) (by decide), if_pos (not_not.mp free)⟩

theorem kill_shown {pid : BitVec 32} (shown : Shown s chan slot t)
    (found : Sched.Finds s pid (slot p)) (stepped : s.kill c pid = .ok s') :
    ∃ t', Shown s' chan slot t' ∧ t.kill p = .ok t' := by
  obtain ⟨free, killed⟩ := shown.kill p found Pc.woken (by decide) stepped
  exact ⟨t.goto p (t.pc p).roused, killed, if_pos (not_not.mp free)⟩

end Rexv6.Logging.Sleepers

namespace Rexv6.SysSleep

variable {ncpu : Nat} {s s' : Sched.State ncpu} {c : Fin ncpu} {ticks : Sched.Chan}
  {slot : Sched.Slot} {n : BitVec 32} {t : State}

/-- The table shows the caller of `sys_sleep`. -/
abbrev Shown (s : Sched.State ncpu) (ticks : Sched.Chan) (slot : Sched.Slot) (t : State) : Prop :=
  Sched.Shows s ticks (fun _ : Unit => slot) .sleeping (fun _ => t.pc) (t.ptable = true)

theorem sleep_shown (shown : Shown s ticks slot t) (current : (s.cpus c).proc = some slot)
    (stepped : s.sleep c ticks = .ok s') (isPc : t.pc = .sleep) :
    ∃ t', Shown s' ticks slot t' ∧ [.caller, .caller].foldlM (State.step n) t = .ok t' := by
  obtain ⟨_, slept⟩ := shown.sleep () current stepped
  refine ⟨{ t with pc := .sleeping, ptable := false }, slept, ?_⟩
  simp [State.step, State.caller, isPc, bind, Except.bind, pure, Except.pure]

theorem wakeup_shown (shown : Shown s ticks slot t) (stepped : s.wakeup c ticks = .ok s')
    (pending : t.pending = true) :
    ∃ t', Shown s' ticks slot t' ∧ t.step n .wakeup = .ok t' := by
  obtain ⟨free, woken⟩ := shown.wakeup Pc.woken (by decide) stepped
  exact ⟨_, woken, if_pos ⟨pending, eq_false_of_ne_true free⟩⟩

theorem kill_shown {pid : BitVec 32} (shown : Shown s ticks slot t)
    (found : Sched.Finds s pid slot) (stepped : s.kill c pid = .ok s') :
    ∃ t', Shown s' ticks slot t' ∧ t.step n .kill = .ok t' := by
  obtain ⟨free, killed⟩ := shown.kill () found Pc.woken (by decide) stepped
  exact ⟨{ t with killed := true, pc := State.roused t.pc }, killed,
    if_pos (eq_false_of_ne_true free)⟩

end Rexv6.SysSleep
