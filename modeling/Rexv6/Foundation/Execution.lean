import Mathlib.Data.List.Basic

/-!
Contract: invariants of finite executions of a fallible step function.

Owns: the induction that carries a property of one step to a whole event list
run with `List.foldlM` in `Except`, the form in which every state machine of
this development executes.

Does not own: any concrete machine, and no liveness.
-/

namespace Rexv6.Foundation.Execution

universe u v w

variable {State : Type u} {Event : Type v} {Stop : Type w}

/-! ## Statements that have returned -/

section Returned

variable {α β : Type u} {rest : Except Stop α} {result : α}

theorem bind_ok {next : α → Except Stop β} {result : β} (ran : rest >>= next = .ok result) :
    ∃ value, rest = .ok value ∧ next value = .ok result := by
  cases rest with
  | error stop => cases ran
  | ok value => exact ⟨value, rfl, ran⟩

variable {p : Prop} [Decidable p] {stop : Stop}

theorem then_ok (ran : (if p then rest else .error stop) = .ok result) :
    p ∧ rest = .ok result := by
  split at ran
  · exact ⟨‹p›, ran⟩
  · cases ran

theorem else_ok (ran : (if p then .error stop else rest) = .ok result) :
    ¬ p ∧ rest = .ok result := by
  split at ran
  · cases ran
  · exact ⟨‹¬ p›, ran⟩

end Returned

/-! ## Runs -/

theorem foldlM_cons_ok {step : State → Event → Except Stop State} {start final : State}
    {event : Event} {rest : List Event}
    (run : (event :: rest).foldlM step start = .ok final) :
    ∃ middle, step start event = .ok middle ∧ rest.foldlM step middle = .ok final := by
  exact bind_ok run

theorem foldlM_cons_of {step : State → Event → Except Stop State} {start middle final : State}
    {event : Event} {rest : List Event} (first : step start event = .ok middle)
    (run : rest.foldlM step middle = .ok final) :
    (event :: rest).foldlM step start = .ok final := by
  rw [List.foldlM_cons, first]
  exact run

theorem foldlM_append_of {step : State → Event → Except Stop State} {start middle final : State}
    {events rest : List Event} (first : events.foldlM step start = .ok middle)
    (run : rest.foldlM step middle = .ok final) :
    (events ++ rest).foldlM step start = .ok final := by
  rw [List.foldlM_append, first]
  exact run

/-- A run and the point where its second part begins. -/
theorem foldlM_append_ok {step : State → Event → Except Stop State} {start final : State}
    {events rest : List Event} (run : (events ++ rest).foldlM step start = .ok final) :
    ∃ middle, events.foldlM step start = .ok middle ∧ rest.foldlM step middle = .ok final := by
  rw [List.foldlM_append] at run
  exact bind_ok run

theorem foldlM_concat_ok {step : State → Event → Except Stop State} {start final : State}
    {events : List Event} {last : Event} (run : (events ++ [last]).foldlM step start = .ok final) :
    ∃ middle, events.foldlM step start = .ok middle ∧ step middle last = .ok final := by
  obtain ⟨middle, first, second⟩ := foldlM_append_ok run
  obtain ⟨next, stepped, rest⟩ := foldlM_cons_ok second
  obtain rfl : next = final := Except.ok.inj rest
  exact ⟨middle, first, stepped⟩

/-- `Holds` is true of every event of the run at the state that takes it. -/
def Along (step : State → Event → Except Stop State) (Holds : State → Event → Prop) :
    State → List Event → Prop
  | _, [] => True
  | state, event :: rest => Holds state event ∧
      match step state event with
      | .ok next => Along step Holds next rest
      | .error _ => True

instance Along.instDecidable (step : State → Event → Except Stop State)
    (Holds : State → Event → Prop) [∀ state event, Decidable (Holds state event)] :
    ∀ state events, Decidable (Along step Holds state events)
  | _, [] => .isTrue trivial
  | state, event :: rest =>
    match stepped : step state event with
    | .ok next =>
      have := Along.instDecidable step Holds next rest
      decidable_of_iff (Holds state event ∧ Along step Holds next rest)
        (by simp [Along, stepped])
    | .error _ => decidable_of_iff (Holds state event) (by simp [Along, stepped])

variable {step : State → Event → Except Stop State}

theorem Along.head {Holds : State → Event → Prop} {state : State} {event : Event}
    {rest : List Event} (along : Along step Holds state (event :: rest)) : Holds state event :=
  along.1

theorem Along.tail {Holds : State → Event → Prop} {state next : State} {event : Event}
    {rest : List Event} (along : Along step Holds state (event :: rest))
    (stepped : step state event = .ok next) : Along step Holds next rest := by
  have rest := along.2
  rw [stepped] at rest
  exact rest

theorem Along.of_forall {Holds : State → Event → Prop} :
    ∀ (events : List Event), (∀ event ∈ events, ∀ state, Holds state event) →
      ∀ state, Along step Holds state events
  | [], _, _ => trivial
  | event :: rest, always, state => by
      refine ⟨always event (by simp) state, ?_⟩
      split
      · exact Along.of_forall rest (fun other member => always other (by simp [member])) _
      · trivial

/-- A property holds along a run if it holds at each event where the run gets that far. -/
theorem Along.iff_split {Holds : State → Event → Prop} (events : List Event) (start : State) :
    Along step Holds start events ↔ ∀ before event after state,
      events = before ++ event :: after → before.foldlM step start = .ok state →
      Holds state event := by
  constructor
  · intro along before
    induction before generalizing start events with
    | nil =>
      rintro event after state rfl ran
      obtain rfl : start = state := Except.ok.inj ran
      exact along.head
    | cons first before ih =>
      rintro event after state rfl ran
      obtain ⟨middle, stepped, rest⟩ := foldlM_cons_ok ran
      exact ih _ middle (along.tail stepped) event after state rfl rest
  · intro always
    induction events generalizing start with
    | nil => trivial
    | cons event rest ih =>
      refine ⟨always [] event rest start rfl rfl, ?_⟩
      split
      · rename_i next stepped
        apply ih
        rintro before other after state rfl ran
        exact always (event :: before) other after state rfl (foldlM_cons_of stepped ran)
      · trivial

/-- Two properties of steps that agree wherever an invariant holds agree along
every allowed run. The invariant need only survive steps with the second. -/
theorem Along.congr {Allowed First Second : State → Event → Prop} (Holds : State → Prop)
    (preserve : ∀ before event after, Allowed before event → Second before event → Holds before →
      step before event = .ok after → Holds after)
    (same : ∀ state event, Holds state → Allowed state event →
      (First state event ↔ Second state event)) :
    ∀ (events : List Event) (state : State), Holds state → Along step Allowed state events →
      (Along step First state events ↔ Along step Second state events)
  | [], _, _, _ => Iff.rfl
  | event :: rest, state, holds, allowed => by
      refine (and_congr_left fun _ => same state event holds allowed.head).trans
        (and_congr_right fun second => ?_)
      split
      · rename_i next stepped
        exact Along.congr Holds preserve same rest next
          (preserve state event next allowed.head second holds stepped) (allowed.tail stepped)
      · exact Iff.rfl

/-- A property kept by every allowed step is kept by every allowed run. -/
theorem foldlM_invariant (Allowed : State → Event → Prop) (Holds : State → Prop)
    (preserve : ∀ before event after, Allowed before event → Holds before →
      step before event = .ok after → Holds after) :
    ∀ (events : List Event) {start final : State}, Along step Allowed start events →
      Holds start → events.foldlM step start = .ok final → Holds final
  | [], start, final, _, holds, run => by
      have same : start = final := Except.ok.inj run
      exact same ▸ holds
  | event :: rest, start, final, allowed, holds, run => by
      obtain ⟨middle, stepped, restRun⟩ := foldlM_cons_ok run
      exact foldlM_invariant Allowed Holds preserve rest (allowed.tail stepped)
        (preserve start event middle allowed.head holds stepped) restRun

/-- A property kept by every step is kept by every run. -/
theorem foldlM_keeps (Holds : State → Prop)
    (preserve : ∀ before event after, Holds before → step before event = .ok after → Holds after)
    (events : List Event) {start final : State} (holds : Holds start)
    (run : events.foldlM step start = .ok final) : Holds final :=
  foldlM_invariant (fun _ _ => True) Holds (fun before event after _ => preserve before event after)
    events (Along.of_forall events (fun _ _ _ => trivial) start) holds run

/-- If every allowed step succeeds and keeps a property, every allowed run
succeeds and keeps it. -/
theorem foldlM_progress (Allowed : State → Event → Prop) (Holds : State → Prop)
    (progress : ∀ before event, Allowed before event → Holds before →
      ∃ after, step before event = .ok after ∧ Holds after) :
    ∀ (events : List Event) {start : State}, Along step Allowed start events → Holds start →
      ∃ final, events.foldlM step start = .ok final ∧ Holds final
  | [], start, _, holds => ⟨start, rfl, holds⟩
  | event :: rest, start, allowed, holds => by
      obtain ⟨middle, stepped, middleHolds⟩ := progress start event allowed.head holds
      obtain ⟨final, run, finalHolds⟩ :=
        foldlM_progress Allowed Holds progress rest (allowed.tail stepped) middleHolds
      exact ⟨final, foldlM_cons_of stepped run, finalHolds⟩

end Rexv6.Foundation.Execution
