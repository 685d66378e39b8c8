import Mathlib.Data.List.Induction
import Rexv6.Foundation.Execution
import Rexv6.Foundation.Rousing

/-!
Contract: `sys_sleep` of `kern/syscall/sysproc.c` against the timer interrupts of
`drivers/timer/timer.cc` and `kern/trap/trap.c`.

Owns: the steps of one call of `sys_sleep` and of the timer, `kill`, and when the
caller can stay asleep although its time is over.

Does not own: other processes. They wake nobody who sleeps on `&ticks`.
-/

namespace Rexv6.SysSleep

open Rexv6.Foundation (rouse rouse_ne rouse_same)
open Rexv6.Foundation.Execution (Along foldlM_append_ok foldlM_concat_ok foldlM_cons_ok)

/-- The next step of the caller: the assignment to `ticks0`, the condition of the
loop, the test of `killed`, `acquire(&ptable.lock)` in `sleep`, and the assignment
to `p->state` with the switch to the scheduler. `woken` is `RUNNABLE` inside
`sleep`. -/
inductive Pc where
  | start
  | whileTicks
  | ifKilled
  | sleep
  | falling
  | sleeping
  | woken
  | returned (result : Int)
deriving DecidableEq, Repr

structure State where
  ticks : BitVec 32
  ticks0 : BitVec 32
  killed : Bool
  pc : Pc
  /-- The caller holds `ptable.lock`. -/
  ptable : Bool
  /-- `timerintr` has counted a tick, and `trap` has not called `wakeup(&ticks)` yet. -/
  pending : Bool
deriving DecidableEq

inductive Action where
  | caller
  | timerintr
  | wakeup
  | kill
deriving DecidableEq, Repr

inductive Stop where
  | disabled
deriving DecidableEq, Repr

namespace State

/-- `sys_sleep` with the argument `n`. The comparison of `uint` with `int` is one of
`uint`. -/
def caller (n : BitVec 32) (s : State) : Except Stop State :=
  match s.pc with
  | .start => .ok { s with ticks0 := s.ticks, pc := .whileTicks }
  | .whileTicks =>
    if (s.ticks - s.ticks0).ult n = true then .ok { s with pc := .ifKilled }
    else .ok { s with pc := .returned 0 }
  | .ifKilled =>
    if s.killed = true then .ok { s with pc := .returned (-1) } else .ok { s with pc := .sleep }
  | .sleep => .ok { s with pc := .falling, ptable := true }
  | .falling => .ok { s with pc := .sleeping, ptable := false }
  | .sleeping => .error .disabled
  | .woken => .ok { s with pc := .whileTicks }
  | .returned _ => .error .disabled

def roused (pc : Pc) : Pc := rouse .sleeping .woken pc

def step (n : BitVec 32) (s : State) : Action → Except Stop State
  | .caller => s.caller n
  | .timerintr =>
    if s.pending = false then .ok { s with ticks := s.ticks + 1, pending := true }
    else .error .disabled
  | .wakeup =>
    if s.pending = true ∧ s.ptable = false then
      .ok { s with pc := roused s.pc, pending := false }
    else .error .disabled
  | .kill =>
    if s.ptable = false then .ok { s with killed := true, pc := roused s.pc }
    else .error .disabled

def run (n : BitVec 32) (s : State) (actions : List Action) : Except Stop State :=
  actions.foldlM (step n) s

def begin (ticks : BitVec 32) (killed pending : Bool) : State :=
  { ticks := ticks, ticks0 := 0, killed := killed, pc := .start, ptable := false,
    pending := pending }

/-- `ticks - ticks0 >= n`. -/
def Enough (n : BitVec 32) (s : State) : Prop := n.toInt ≤ (s.ticks - s.ticks0).toNat

instance (n : BitVec 32) (s : State) : Decidable (s.Enough n) :=
  inferInstanceAs (Decidable (_ ≤ _))

end State

theorem step_cases {n : BitVec 32} {s s' : State} {action : Action}
    (stepped : s.step n action = .ok s') :
    (action = .caller ∧ s.caller n = .ok s') ∨
      (action = .timerintr ∧ s' = { s with ticks := s.ticks + 1, pending := true }) ∨
      (action = .wakeup ∧ s' = { s with pc := State.roused s.pc, pending := false }) ∨
      (action = .kill ∧ s' = { s with killed := true, pc := State.roused s.pc }) := by
  cases action with
  | caller => exact Or.inl ⟨rfl, stepped⟩
  | timerintr =>
    dsimp only [State.step] at stepped
    split at stepped <;> cases stepped
    exact Or.inr (Or.inl ⟨rfl, rfl⟩)
  | wakeup =>
    dsimp only [State.step] at stepped
    split at stepped <;> cases stepped
    exact Or.inr (Or.inr (Or.inl ⟨rfl, rfl⟩))
  | kill =>
    dsimp only [State.step] at stepped
    split at stepped <;> cases stepped
    exact Or.inr (Or.inr (Or.inr ⟨rfl, rfl⟩))

/-! ## What is asked of a step -/

/-- The caller is not asleep when its time is over and the last tick's wake-up has
been made. -/
def Awake (n : BitVec 32) (s : State) : Prop :=
  s.ptable = false → s.Enough n → s.pending = false → s.pc ≠ .sleeping

/-- The step leads to a state where the caller is awake if it should be, and
returns 0 only when the time is over. -/
def Punctual (n : BitVec 32) (s : State) (action : Action) : Prop :=
  ∀ s', s.step n action = .ok s' → Awake n s' ∧
    (s.pc ≠ .returned 0 → s'.pc = .returned 0 → s.Enough n)

/-- When the caller marks itself `SLEEPING`, its time is not over, or the wake-up of
the last tick is still to come. -/
def Timely (n : BitVec 32) (s : State) (action : Action) : Prop :=
  action = .caller → s.pc = .falling → ¬s.Enough n ∨ s.pending = true

instance (n : BitVec 32) (s : State) (action : Action) : Decidable (Timely n s action) :=
  inferInstanceAs (Decidable (_ → _ → _))

/-- The last of the actions that is the timer's. -/
def lastTimer (actions : List Action) : Option Action :=
  actions.reverse.find? fun action => action = .timerintr ∨ action = .wakeup

/-- The ticks of `window` bring `ticks - ticks0` to `n`, and the wake-up of the last of
them is in `window` too. -/
def Overruns (n : BitVec 32) (s : State) (window : List Action) : Prop :=
  n.toInt ≤ (s.ticks - s.ticks0 + BitVec.ofNat 32 (window.count .timerintr)).toNat ∧
    lastTimer window = some .wakeup

/-- No window overruns that lies between the condition of the loop, which is tested in
`s`, and the assignment of `SLEEPING`: in it the caller tests `killed` and takes
`ptable.lock`. -/
def Prompt (n : BitVec 32) (start : State) (actions : List Action) : Prop :=
  ∀ before window after s, actions = before ++ .caller :: (window ++ .caller :: after) →
    start.run n before = .ok s → s.pc = .whileTicks → window.count .caller = 2 →
    ¬ Overruns n s window

/-! ## The invariant -/

/-- A sleeper is going to be woken, or its time is not over. -/
structure Inv (n : BitVec 32) (s : State) : Prop where
  locked : s.ptable = true ↔ s.pc = .falling
  sleeping : s.pc = .sleeping → s.pending = true ∨ ¬s.Enough n

namespace Inv

variable {n : BitVec 32} {s s' : State} {action : Action}

theorem awake (inv : Inv n s) : Awake n s := by
  intro _ enough settled asleep
  rcases inv.sleeping asleep with pending | early
  · rw [settled] at pending
    cases pending
  · exact early enough

theorem roused_ne (pc : Pc) : State.roused pc ≠ .sleeping := rouse_ne (by decide) pc

theorem roused_falling {pc : Pc} : State.roused pc = .falling ↔ pc = .falling :=
  iff_of_eq (@rouse_same Pc _ .sleeping .woken Prop (· = .falling) (by simp) pc)

theorem moved (pc : s'.pc ≠ .sleeping) (outside : s'.pc ≠ .falling) (free : s'.ptable = false) :
    Inv n s' := by
  refine ⟨iff_of_false ?_ outside, fun asleep => absurd asleep pc⟩
  rw [free]
  exact Bool.false_ne_true

theorem caller (inv : Inv n s) (timely : Timely n s .caller) (stepped : s.caller n = .ok s') :
    Inv n s' := by
  -- Only `sleep` itself holds `ptable.lock`.
  have free : s.pc ≠ .falling → s.ptable = false := by
    intro outside
    exact eq_false_of_ne_true fun isLocked => outside (inv.locked.mp isLocked)
  unfold State.caller at stepped
  cases isPc : s.pc <;> rw [isPc] at stepped free <;> dsimp only at stepped
  case start =>
    cases stepped
    exact moved nofun nofun (free nofun)
  case whileTicks =>
    split at stepped <;> cases stepped <;> exact moved nofun nofun (free nofun)
  case ifKilled =>
    split at stepped <;> cases stepped <;> exact moved nofun nofun (free nofun)
  case sleep =>
    cases stepped
    exact ⟨iff_of_true rfl rfl, nofun⟩
  case falling =>
    cases stepped
    exact ⟨iff_of_false Bool.false_ne_true nofun, fun _ => (timely rfl isPc).symm⟩
  case sleeping => cases stepped
  case woken =>
    cases stepped
    exact moved nofun nofun (free nofun)
  case returned => cases stepped

theorem step (inv : Inv n s) (timely : Timely n s action) (stepped : s.step n action = .ok s') :
    Inv n s' := by
  have locked := inv.locked.trans roused_falling.symm
  obtain ⟨rfl, called⟩ | ⟨rfl, rfl⟩ | ⟨rfl, rfl⟩ | ⟨rfl, rfl⟩ := step_cases stepped
  · exact inv.caller timely called
  · exact ⟨inv.locked, fun _ => Or.inl rfl⟩
  · exact ⟨locked, fun asleep => absurd asleep (roused_ne _)⟩
  · exact ⟨locked, fun asleep => absurd asleep (roused_ne _)⟩

theorem begin (ticks : BitVec 32) (killed pending : Bool) :
    Inv n (State.begin ticks killed pending) :=
  moved nofun nofun rfl

end Inv

/-! ## Oversleeping -/

section Oversleeping

variable {n : BitVec 32} {s s' : State} {action : Action}

/-- For `n >= 0` the loop's condition is what it says. -/
theorem ult_iff (natural : 0 ≤ n.toInt) :
    (s.ticks - s.ticks0).ult n = true ↔ ¬s.Enough n := by
  have same : n.toInt = n.toNat := by
    rw [BitVec.toInt_eq_toNat_cond] at natural ⊢
    split
    · rfl
    · rename_i big
      omega
  rw [BitVec.ult, decide_eq_true_eq, State.Enough, same]
  omega

/-- `sys_sleep` returns 0 from the loop's condition only. -/
theorem returns_enough (natural : 0 ≤ n.toInt) (stepped : s.step n action = .ok s')
    (before : s.pc ≠ .returned 0) (after : s'.pc = .returned 0) : s.Enough n := by
  have unmoved : ∀ {pc : Pc}, State.roused pc = .returned 0 → pc = .returned 0 := by
    intro pc isReturned
    cases pc <;> first | exact isReturned | cases isReturned
  obtain ⟨rfl, called⟩ | ⟨rfl, rfl⟩ | ⟨rfl, rfl⟩ | ⟨rfl, rfl⟩ := step_cases stepped
  · unfold State.caller at called
    cases isPc : s.pc <;> rw [isPc] at called <;> dsimp only at called
    case whileTicks =>
      split at called
      · cases called
        cases after
      · rename_i elapsed
        rw [ult_iff natural] at elapsed
        exact Decidable.not_not.mp elapsed
    case ifKilled =>
      split at called <;> cases called <;> cases after
    all_goals
      cases called
      try cases after
  · exact absurd after before
  · exact absurd (unmoved after) before
  · exact absurd (unmoved after) before

theorem punctual_iff (natural : 0 ≤ n.toInt) (inv : Inv n s) :
    Punctual n s action ↔ Timely n s action := by
  constructor
  · intro punctual isCaller falling
    -- The state after the switch to the scheduler shows it.
    have stepped : s.step n action = .ok { s with pc := .sleeping, ptable := false } := by
      rw [isCaller]
      dsimp only [State.step, State.caller]
      rw [falling]
    have awake := (punctual _ stepped).1
    by_cases pending : s.pending = true
    · exact Or.inr pending
    · refine Or.inl fun enough => ?_
      exact awake rfl enough (eq_false_of_ne_true pending) rfl
  · intro timely s' stepped
    exact ⟨(inv.step timely stepped).awake, returns_enough natural stepped⟩

end Oversleeping

/-! ## From the condition of the loop to `SLEEPING` -/

section Windows

variable {n : BitVec 32} {s₀ s s' : State} {action : Action} {window : List Action}

/-- Where the caller stands after `k` steps from the condition of the loop, if neither
the condition nor `killed` makes it return. -/
def Pc.onTheWay : (k : Nat) → Pc
  | 0 => .ifKilled
  | 1 => .sleep
  | _ => .falling

/-- The condition was tested in `s₀`, and `window` led from there to `s`. -/
structure Passed (n : BitVec 32) (s₀ : State) (window : List Action) (s : State) : Prop where
  early : ¬ s₀.Enough n
  few : window.count .caller ≤ 2
  place : s.pc = Pc.onTheWay (window.count .caller)
  elapsed : s.ticks - s.ticks0 =
    s₀.ticks - s₀.ticks0 + BitVec.ofNat 32 (window.count .timerintr)
  waits : s.pending = false → lastTimer window = some .wakeup ∨ window.count .timerintr = 0
  settled : lastTimer window = some .wakeup → s.pending = false

theorem onTheWay_cases (k : Nat) :
    Pc.onTheWay k = .ifKilled ∨ Pc.onTheWay k = .sleep ∨ Pc.onTheWay k = .falling := by
  match k with
  | 0 => exact Or.inl rfl
  | 1 => exact Or.inr (Or.inl rfl)
  | _ + 2 => exact Or.inr (Or.inr rfl)

theorem roused_onTheWay (k : Nat) : State.roused (Pc.onTheWay k) = Pc.onTheWay k := by
  rcases onTheWay_cases k with is | is | is <;> rw [is] <;> rfl

theorem Passed.falling (passed : Passed n s₀ window s) (falling : s.pc = .falling) :
    window.count .caller = 2 := by
  have few := passed.few
  have place := passed.place
  rw [falling] at place
  by_contra notTwo
  obtain isZero | isOne : window.count .caller = 0 ∨ window.count .caller = 1 := by omega
  · rw [isZero] at place
    cases place
  · rw [isOne] at place
    cases place

/-- A step of the caller or of `kill` does not concern the timer. -/
theorem Passed.quiet {pc : Pc} {killed ptable : Bool} (passed : Passed n s₀ window s)
    (isQuiet : action = .caller ∨ action = .kill)
    (few : (window ++ [action]).count .caller ≤ 2)
    (place : pc = Pc.onTheWay ((window ++ [action]).count .caller)) :
    Passed n s₀ (window ++ [action]) { s with pc, killed, ptable } := by
  have sameTicks : (window ++ [action]).count .timerintr = window.count .timerintr := by
    rcases isQuiet with rfl | rfl <;> simp
  have sameLast : lastTimer (window ++ [action]) = lastTimer window := by
    rcases isQuiet with rfl | rfl <;> simp [lastTimer]
  refine ⟨passed.early, few, place, ?_, ?_, ?_⟩
  · rw [sameTicks]
    exact passed.elapsed
  · rw [sameTicks, sameLast]
    exact passed.waits
  · rw [sameLast]
    exact passed.settled

/-- One more step, unless the caller marks itself `SLEEPING` or returns. -/
theorem Passed.step (passed : Passed n s₀ window s) (stepped : s.step n action = .ok s')
    (stays : action = .caller → s.pc ≠ .falling ∧ ∀ result, s'.pc ≠ .returned result) :
    Passed n s₀ (window ++ [action]) s' := by
  have place := passed.place
  have few := passed.few
  have unmoved : State.roused s.pc = s.pc := by rw [place, roused_onTheWay]
  have counts : ∀ other, (window ++ [action]).count other =
      window.count other + [action].count other := fun _ => List.count_append
  obtain ⟨rfl, called⟩ | ⟨rfl, rfl⟩ | ⟨rfl, rfl⟩ | ⟨rfl, rfl⟩ := step_cases stepped
  · obtain ⟨notLast, notReturned⟩ := stays rfl
    dsimp only [State.caller] at called
    obtain isZero | isOne | isTwo : window.count .caller = 0 ∨ window.count .caller = 1 ∨
        window.count .caller = 2 := by omega
    · rw [show s.pc = .ifKilled by rw [place, isZero]; rfl] at called
      dsimp only at called
      split at called
      · cases called
        exact absurd rfl (notReturned (-1))
      · cases called
        exact passed.quiet (Or.inl rfl) (by rw [counts, isZero]; decide)
          (by rw [counts, isZero]; rfl)
    · rw [show s.pc = .sleep by rw [place, isOne]; rfl] at called
      cases called
      exact passed.quiet (Or.inl rfl) (by rw [counts, isOne]; decide) (by rw [counts, isOne]; rfl)
    · exact absurd (by rw [place, isTwo]; rfl) notLast
  · refine ⟨passed.early, by rw [counts]; exact few, by rw [counts]; exact place, ?_, nofun, ?_⟩
    · rw [counts, List.count_singleton_self, BitVec.ofNat_add, ← BitVec.add_assoc, ← passed.elapsed,
        BitVec.sub_eq_add_neg, BitVec.sub_eq_add_neg, BitVec.add_assoc, BitVec.add_comm 1,
        ← BitVec.add_assoc]
      rfl
    · simp [lastTimer]
  · refine ⟨passed.early, by rw [counts]; exact few,
      by rw [counts]; exact unmoved.trans place, ?_, ?_,
      fun _ => rfl⟩
    · rw [counts]
      exact passed.elapsed
    · exact fun _ => Or.inl (by simp [lastTimer])
  · exact passed.quiet (Or.inr rfl) (by rw [counts]; exact few)
      (by rw [counts]; exact unmoved.trans place)

theorem passed_nil (natural : 0 ≤ n.toInt) (atLoop : s₀.pc = .whileTicks)
    (stepped : s₀.step n .caller = .ok s) (notReturned : ∀ result, s.pc ≠ .returned result) :
    Passed n s₀ [] s := by
  dsimp only [State.step, State.caller] at stepped
  rw [atLoop] at stepped
  dsimp only at stepped
  split at stepped
  · rename_i early
    cases stepped
    refine ⟨(ult_iff natural).mp early, Nat.zero_le 2, rfl, ?_, fun _ => Or.inr rfl, nofun⟩
    simp
  · cases stepped
    exact absurd rfl (notReturned 0)

theorem returned_stays {result : Int} (returned : s.pc = .returned result)
    (stepped : s.step n action = .ok s') : s'.pc = .returned result := by
  obtain ⟨rfl, called⟩ | ⟨rfl, rfl⟩ | ⟨rfl, rfl⟩ | ⟨rfl, rfl⟩ := step_cases stepped
  · rw [State.caller, returned] at called
    cases called
  · exact returned
  · exact congrArg State.roused returned
  · exact congrArg State.roused returned

/-- After a window the caller is still on its way, or it has returned. -/
theorem passed_run (natural : 0 ≤ n.toInt) (atLoop : s₀.pc = .whileTicks) (window : List Action)
    {s : State} (few : window.count .caller ≤ 2) (ran : s₀.run n (.caller :: window) = .ok s) :
    Passed n s₀ window s ∨ ∃ result, s.pc = .returned result := by
  induction window using List.reverseRecOn generalizing s with
  | nil =>
    obtain ⟨middle, stepped, rest⟩ := foldlM_cons_ok ran
    obtain rfl : middle = s := Except.ok.inj rest
    by_cases returns : ∃ result, middle.pc = .returned result
    · exact Or.inr returns
    · exact Or.inl (passed_nil natural atLoop stepped (not_exists.mp returns))
  | append_singleton window action ih =>
    rw [State.run, ← List.cons_append] at ran
    obtain ⟨middle, first, stepped⟩ := foldlM_concat_ok ran
    rw [List.count_append] at few
    rcases ih (by omega) first with passed | ⟨result, returned⟩
    · by_cases returns : ∃ result, s.pc = .returned result
      · exact Or.inr returns
      · refine Or.inl (passed.step stepped fun isCaller =>
          ⟨fun falling => ?_, not_exists.mp returns⟩)
        -- Three steps of the caller would be too many.
        rw [isCaller, List.count_singleton_self] at few
        have isTwo := passed.falling falling
        omega
    · exact Or.inr ⟨result, returned_stays returned stepped⟩

/-- Who is on the way was there before, or has just tested the condition. -/
theorem onTheWay_before {k : Nat} (stepped : s.step n action = .ok s')
    (place : s'.pc = Pc.onTheWay k) :
    action = .caller ∧ s.pc = .whileTicks ∨
      (action = .caller → s.pc ≠ .falling) ∧ ∃ j, s.pc = Pc.onTheWay j := by
  have roused : ∀ {pc : Pc}, State.roused pc = Pc.onTheWay k → pc = Pc.onTheWay k := by
    intro pc same
    cases pc
    case sleeping => rcases onTheWay_cases k with is | is | is <;> rw [is] at same <;> cases same
    all_goals exact same
  obtain ⟨rfl, called⟩ | ⟨rfl, rfl⟩ | ⟨rfl, rfl⟩ | ⟨rfl, rfl⟩ := step_cases stepped
  · unfold State.caller at called
    cases isPc : s.pc <;> rw [isPc] at called <;> dsimp only at called
    case whileTicks => exact Or.inl ⟨rfl, rfl⟩
    case ifKilled => exact Or.inr ⟨nofun, 0, rfl⟩
    case sleep => exact Or.inr ⟨nofun, 1, rfl⟩
    all_goals
      cases called
      try rcases onTheWay_cases k with is | is | is <;> rw [is] at place <;> cases place
  · exact Or.inr ⟨nofun, k, place⟩
  · exact Or.inr ⟨nofun, k, roused place⟩
  · exact Or.inr ⟨nofun, k, roused place⟩

/-- Who is on the way has come through a window. -/
theorem exists_window (natural : 0 ≤ n.toInt) {start : State} (atStart : start.pc = .start)
    (actions : List Action) {s : State} {k : Nat} (ran : start.run n actions = .ok s)
    (place : s.pc = Pc.onTheWay k) : ∃ before window s₀, actions = before ++ .caller :: window ∧
      start.run n before = .ok s₀ ∧ s₀.pc = .whileTicks ∧ Passed n s₀ window s := by
  induction actions using List.reverseRecOn generalizing s k with
  | nil =>
    obtain rfl : start = s := Except.ok.inj ran
    rw [atStart] at place
    rcases onTheWay_cases k with is | is | is <;> rw [is] at place <;> cases place
  | append_singleton actions action ih =>
    obtain ⟨middle, first, stepped⟩ := foldlM_concat_ok ran
    have notReturned : ∀ result, s.pc ≠ .returned result := by
      intro result
      rw [place]
      rcases onTheWay_cases k with is | is | is <;> rw [is] <;> nofun
    rcases onTheWay_before stepped place with ⟨rfl, atLoop⟩ | ⟨notLast, j, wasThere⟩
    · exact ⟨actions, [], middle, rfl, first, atLoop, passed_nil natural atLoop stepped notReturned⟩
    · obtain ⟨before, window, s₀, rfl, toLoop, atLoop, passed⟩ :=
        ih first wasThere
      refine ⟨before, window ++ [action], s₀, ?_, toLoop, atLoop,
        passed.step stepped fun isCaller => ⟨notLast isCaller, notReturned⟩⟩
      rw [List.append_assoc, List.cons_append]

/-- The caller is timely exactly if no window overruns. -/
theorem timely_iff_prompt (natural : 0 ≤ n.toInt) {start final : State}
    (atStart : start.pc = .start)
    {actions : List Action} (ran : start.run n actions = .ok final) :
    Along (State.step n) (Timely n) start actions ↔ Prompt n start actions := by
  rw [Along.iff_split]
  constructor
  · rintro timely before window after s₀ rfl toLoop atLoop two ⟨enough, woken⟩
    rw [State.run, ← List.cons_append, ← List.append_assoc] at ran
    obtain ⟨s, first, second⟩ := foldlM_append_ok ran
    obtain ⟨s', stepped, -⟩ := foldlM_cons_ok second
    obtain ⟨_, toLoop', through⟩ := foldlM_append_ok first
    obtain rfl := Except.ok.inj (toLoop.symm.trans toLoop')
    rcases passed_run natural atLoop window (Nat.le_of_eq two) through with passed |
      ⟨result, returned⟩
    · have falling : s.pc = .falling := by rw [passed.place, two]; rfl
      rcases timely _ .caller after s (by simp) first rfl falling with early | pending
      · apply early
        rw [State.Enough, passed.elapsed]
        exact enough
      · rw [passed.settled woken] at pending
        cases pending
    · dsimp only [State.step, State.caller] at stepped
      rw [returned] at stepped
      cases stepped
  · rintro prompt before action after s rfl first rfl falling
    obtain ⟨pre, window, s₀, rfl, toLoop, atLoop, passed⟩ :=
      exists_window natural atStart before (k := 2) first falling
    by_cases pending : s.pending = true
    · exact Or.inr pending
    · refine Or.inl ?_
      rw [State.Enough, passed.elapsed]
      rcases passed.waits (eq_false_of_ne_true pending) with woken | none
      · have kept := prompt pre window after s₀ (by simp) toLoop atLoop (passed.falling falling)
        exact fun enough => kept ⟨enough, woken⟩
      · rw [none, BitVec.add_zero]
        exact passed.early

end Windows

/-- For every `n >= 0`, every number of ticks at the start and every interleaving
with the timer: every state reached has the caller awake if it should be, and 0 is
returned only when the time is over, if and only if no tick that brings `ticks - ticks0`
to `n` is counted between a test of the loop's condition and the assignment of
`SLEEPING` so that the last wake-up is over by then, too. -/
theorem never_oversleeps_iff (n ticks : BitVec 32) (killed pending : Bool)
    (natural : 0 ≤ n.toInt) (actions : List Action) (final : State)
    (ran : (State.begin ticks killed pending).run n actions = .ok final) :
    Along (State.step n) (Punctual n) (State.begin ticks killed pending) actions ↔
      Prompt n (State.begin ticks killed pending) actions := by
  rw [← timely_iff_prompt natural rfl ran]
  exact Along.congr (Inv n) (fun _ _ _ _ timely inv stepped => inv.step timely stepped)
    (fun _ _ inv _ => punctual_iff natural inv) actions _ (Inv.begin ticks killed pending)
    (Along.of_forall actions (fun _ _ _ => trivial) _)

/-- A caller that sleeps for one tick and is woken by it. -/
theorem never_oversleeps_one_tick :
    Along (State.step 1) (Punctual 1) (State.begin 0xffffffff false false)
      [.caller, .caller, .caller, .caller, .caller, .timerintr, .wakeup, .caller, .caller] := by
  have ran : (State.begin 0xffffffff false false).run 1
      [.caller, .caller, .caller, .caller, .caller, .timerintr, .wakeup, .caller, .caller] =
        .ok _ := rfl
  exact (never_oversleeps_iff 1 0xffffffff false false (by decide) _ _ ran).mpr
    ((timely_iff_prompt (by decide) rfl ran).mp (by decide))

/-- The tick falls between the condition of the loop and `sleep`: its wake-up finds
nobody asleep, and the caller of `sleep(1)` then sleeps although its tick is over. -/
theorem tick_before_sleep_lost :
    ∃ s, (State.begin 0 false false).run 1
        [.caller, .caller, .caller, .timerintr, .wakeup, .caller, .caller] = .ok s ∧
      s.ptable = false ∧ s.Enough 1 ∧ s.pending = false ∧ s.pc = .sleeping :=
  ⟨_, rfl, rfl, by decide, rfl, rfl⟩

end Rexv6.SysSleep
