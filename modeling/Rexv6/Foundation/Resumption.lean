import Mathlib.Logic.Basic

/-!
Contract: programs that change a shared state, may stop, and may wait.

Owns: a program as a tree of the points where it waits, its run on its own, in
which a wait that cannot end is a reason to stop, and the rules of pre- and
postconditions for such runs.

Does not own: any state, what a program waits for, and how several programs take
turns; the tree leaves every wait open for that.
-/

namespace Rexv6.Foundation.Resumption

variable {State Stop Wait α β : Type}

/-- What is left of a program: a result, a stop, or a wait and the rest of the
program in the state that the wait ends in. -/
inductive Rest (State Stop Wait α : Type) where
  | done (value : α) (state : State)
  | stop (reason : Stop)
  | wait (on : Wait) (state : State) (next : State → Rest State Stop Wait α)

/-- A program, from a state on. -/
def Task (State Stop Wait α : Type) : Type := State → Rest State Stop Wait α

namespace Rest

/-- The rest of a program followed by another program. -/
def andThen (next : α → Task State Stop Wait β) : Rest State Stop Wait α → Rest State Stop Wait β
  | .done value state => next value state
  | .stop reason => .stop reason
  | .wait on state rest => .wait on state fun resumed => (rest resumed).andThen next

/-- The rest of a program on a part of a larger state. -/
def lift {Whole : Type} (part : Whole → State) (put : Whole → State → Whole) :
    Whole → Rest State Stop Wait α → Rest Whole Stop Wait α
  | whole, .done value state => .done value (put whole state)
  | _, .stop reason => .stop reason
  | whole, .wait on state next =>
    .wait on (put whole state) fun resumed => (next (part resumed)).lift part put resumed

theorem andThen_assoc {γ : Type} (first : α → Task State Stop Wait β)
    (second : β → Task State Stop Wait γ) (rest : Rest State Stop Wait α) :
    (rest.andThen first).andThen second =
      rest.andThen fun value state => (first value state).andThen second := by
  induction rest with
  | done value state => rfl
  | stop reason => rfl
  | wait on state next ih =>
    exact congrArg (wait on state) (funext ih)

theorem andThen_done (rest : Rest State Stop Wait α) :
    rest.andThen (fun value state => .done value state) = rest := by
  induction rest with
  | done value state => rfl
  | stop reason => rfl
  | wait on state next ih =>
    exact congrArg (wait on state) (funext ih)

end Rest

namespace Task

instance : Monad (Task State Stop Wait) where
  pure value := fun state => .done value state
  bind task next := fun state => (task state).andThen next

instance : LawfulMonad (Task State Stop Wait) :=
  LawfulMonad.mk' (Task State Stop Wait)
    (fun task => funext fun state => Rest.andThen_done (task state))
    (fun _ _ => rfl)
    (fun task first second => funext fun state => Rest.andThen_assoc first second (task state))

instance : MonadState State (Task State Stop Wait) where
  get := fun state => .done state state
  set state := fun _ => .done () state
  modifyGet change := fun state => .done (change state).1 (change state).2

def halt (reason : Stop) : Task State Stop Wait α := fun _ => .stop reason

def await (on : Wait) : Task State Stop Wait Unit := fun state =>
  .wait on state fun resumed => .done () resumed

def lift {Whole : Type} (part : Whole → State) (put : Whole → State → Whole)
    (task : Task State Stop Wait α) : Task Whole Stop Wait α :=
  fun whole => (task (part whole)).lift part put whole

end Task

/-! ## Running alone -/

section Alone

variable (ready : Wait → State → Bool) (blocked : Wait → Stop)

/-- The run of a program on its own: nothing changes while it waits. -/
def Rest.run : Rest State Stop Wait α → Except Stop (α × State)
  | .done value state => .ok (value, state)
  | .stop reason => .error reason
  | .wait on state next => if ready on state = true then (next state).run else .error (blocked on)

/-- Run alone from `state`, the program returns a value and a state with `post`,
or it stops for a reason with `stops`. -/
def Meets (task : Task State Stop Wait α) (state : State) (post : α → State → Prop)
    (stops : Stop → Prop) : Prop :=
  match (task state).run ready blocked with
  | .ok (value, after) => post value after
  | .error stop => stops stop

variable {ready blocked} {task : Task State Stop Wait α} {state : State}
  {post post' : α → State → Prop} {stops stops' : Stop → Prop}

theorem Meets.imp (meets : Meets ready blocked task state post stops)
    (weaker : ∀ value after, post value after → post' value after)
    (weakerStops : ∀ stop, stops stop → stops' stop) :
    Meets ready blocked task state post' stops' := by
  unfold Meets at meets ⊢
  cases run : (task state).run ready blocked with
  | ok result =>
    rw [run] at meets
    exact weaker _ _ meets
  | error stop =>
    rw [run] at meets
    exact weakerStops stop meets

theorem Meets.mono (meets : Meets ready blocked task state post stops)
    (weaker : ∀ value after, post value after → post' value after) :
    Meets ready blocked task state post' stops :=
  meets.imp weaker fun _ stop => stop

theorem Rest.run_andThen (next : α → Task State Stop Wait β) (rest : Rest State Stop Wait α) :
    (rest.andThen next).run ready blocked =
      match rest.run ready blocked with
      | .ok (value, state) => (next value state).run ready blocked
      | .error reason => .error reason := by
  induction rest with
  | done value state => rfl
  | stop reason => rfl
  | wait on state rest ih =>
    by_cases isReady : ready on state = true
    · simp only [andThen, run, isReady, if_true]
      exact ih state
    · simp [andThen, run, isReady]

/-- Sequencing: the rest of the program meets the postcondition wherever the
first part ends. -/
theorem meets_bind {next : α → Task State Stop Wait β} {post : β → State → Prop} :
    Meets ready blocked (task >>= next) state post stops ↔
      Meets ready blocked task state
        (fun value after => Meets ready blocked (next value) after post stops) stops := by
  have sequenced : ((task >>= next) state).run ready blocked =
      match (task state).run ready blocked with
      | .ok (value, after) => (next value after).run ready blocked
      | .error reason => .error reason := Rest.run_andThen next (task state)
  unfold Meets
  rw [sequenced]
  cases (task state).run ready blocked with
  | ok result => exact Iff.rfl
  | error stop => exact Iff.rfl

theorem Meets.bind {next : α → Task State Stop Wait β} {post : β → State → Prop}
    {middle : α → State → Prop} (meets : Meets ready blocked task state middle stops)
    (rest : ∀ value after, middle value after →
      Meets ready blocked (next value) after post stops) :
    Meets ready blocked (task >>= next) state post stops :=
  meets_bind.mpr (meets.mono rest)

@[simp] theorem meets_pure {value : α} :
    Meets ready blocked (pure value : Task State Stop Wait α) state post stops ↔
      post value state :=
  Iff.rfl

@[simp] theorem meets_get {post : State → State → Prop} :
    Meets ready blocked (get : Task State Stop Wait State) state post stops ↔ post state state :=
  Iff.rfl

@[simp] theorem meets_modify {change : State → State} {post : PUnit → State → Prop} :
    Meets ready blocked (modify change : Task State Stop Wait PUnit) state post stops ↔
      post ⟨⟩ (change state) :=
  Iff.rfl

@[simp] theorem meets_halt {reason : Stop} :
    Meets ready blocked (Task.halt reason : Task State Stop Wait α) state post stops ↔
      stops reason :=
  Iff.rfl

theorem meets_await {on : Wait} {post : Unit → State → Prop} :
    Meets ready blocked (Task.await on) state post stops ↔
      if ready on state = true then post () state else stops (blocked on) := by
  unfold Meets Task.await
  by_cases isReady : ready on state = true
  · simp [Rest.run, isReady]
  · simp [Rest.run, isReady]

theorem Meets.of_run {value : α} {after : State} (meets : Meets ready blocked task state post stops)
    (run : (task state).run ready blocked = .ok (value, after)) : post value after := by
  unfold Meets at meets
  rw [run] at meets
  exact meets

theorem meets_of_run {value : α} {after : State}
    (run : (task state).run ready blocked = .ok (value, after)) (holds : post value after) :
    Meets ready blocked task state post stops := by
  unfold Meets
  rw [run]
  exact holds

theorem Meets.of_stop {stop : Stop} (meets : Meets ready blocked task state post stops)
    (run : (task state).run ready blocked = .error stop) : stops stop := by
  unfold Meets at meets
  rw [run] at meets
  exact meets

theorem meets_run (task : Task State Stop Wait α) (state : State) :
    Meets ready blocked task state
      (fun value after => (task state).run ready blocked = .ok (value, after))
      (fun stop => (task state).run ready blocked = .error stop) := by
  unfold Meets
  cases (task state).run ready blocked with
  | ok result => rfl
  | error stop => rfl

theorem Meets.returns (meets : Meets ready blocked task state post stops)
    (never : ∀ stop, ¬ stops stop) :
    ∃ value after, (task state).run ready blocked = .ok (value, after) ∧ post value after := by
  unfold Meets at meets
  cases run : (task state).run ready blocked with
  | ok result =>
    rw [run] at meets
    exact ⟨result.1, result.2, rfl, meets⟩
  | error stop =>
    rw [run] at meets
    exact absurd meets (never stop)

theorem Meets.and {stops' : Stop → Prop} (first : Meets ready blocked task state post stops)
    (second : Meets ready blocked task state post' stops') :
    Meets ready blocked task state (fun value after => post value after ∧ post' value after)
      (fun stop => stops stop ∧ stops' stop) := by
  unfold Meets at first second ⊢
  cases run : (task state).run ready blocked with
  | ok result | error stop =>
    rw [run] at first second
    exact ⟨first, second⟩

end Alone

/-! ## Programs on a part of the state -/

section Lift

variable {Whole : Type} {part : Whole → State} {put : Whole → State → Whole}
  {ready : Wait → State → Bool} {blocked : Wait → Stop}

theorem Rest.run_lift (part_put : ∀ whole state, part (put whole state) = state)
    (put_put : ∀ whole first second, put (put whole first) second = put whole second)
    (rest : Rest State Stop Wait α) : ∀ whole,
      (rest.lift part put whole).run (fun on whole => ready on (part whole)) blocked =
        (rest.run ready blocked).map fun result => (result.1, put whole result.2) := by
  induction rest with
  | done value state =>
    intro whole
    rfl
  | stop reason =>
    intro whole
    rfl
  | wait on state next ih =>
    intro whole
    rw [lift, run, run, part_put]
    split
    · rw [ih]
      simp only [put_put]
    · rfl

/-- A program on a part of the state does to that part what it does alone. -/
theorem meets_lift {task : Task State Stop Wait α} {whole : Whole} {post : α → Whole → Prop}
    {stops : Stop → Prop} (part_put : ∀ whole state, part (put whole state) = state)
    (put_put : ∀ whole first second, put (put whole first) second = put whole second) :
    Meets (fun on whole => ready on (part whole)) blocked (task.lift part put) whole post stops ↔
      Meets ready blocked task (part whole) (fun value state => post value (put whole state))
        stops := by
  unfold Meets Task.lift
  rw [Rest.run_lift part_put put_put]
  cases (task (part whole)).run ready blocked with
  | ok result => exact Iff.rfl
  | error stop => exact Iff.rfl

end Lift

end Rexv6.Foundation.Resumption
