import Mathlib.Logic.Basic

/-!
Contract: pre- and postconditions of programs that change a state and may stop.

Owns: what it means that a program run from a state meets a postcondition, with
a condition on the ways in which it may stop, the rules for the operations such
programs are built from, and programs that do to a part of their state what another
program does.

Does not own: any state or any reason to stop. A program that must not stop is
one whose condition on stops is never true.
-/

namespace Rexv6.Foundation

universe u

/-- A program over the state `State` that returns an `α` or stops. -/
abbrev Program (State Stop α : Type u) : Type u := StateT State (Except Stop) α

namespace Program

variable {State Stop α β : Type u}

/-- Run from `state`, `program` returns a value and a state with `post`, or it
stops for a reason with `stops`. -/
def Meets (program : Program State Stop α) (state : State) (post : α → State → Prop)
    (stops : Stop → Prop) : Prop :=
  match program.run state with
  | .ok (value, after) => post value after
  | .error stop => stops stop

variable {program : Program State Stop α} {state : State} {post post' : α → State → Prop}
  {stops stops' : Stop → Prop}

theorem Meets.imp (meets : Meets program state post stops)
    (weaker : ∀ value after, post value after → post' value after)
    (weakerStops : ∀ stop, stops stop → stops' stop) : Meets program state post' stops' := by
  unfold Meets at meets ⊢
  cases run : program.run state with
  | ok result =>
    rw [run] at meets
    exact weaker _ _ meets
  | error stop =>
    rw [run] at meets
    exact weakerStops stop meets

theorem Meets.mono (meets : Meets program state post stops)
    (weaker : ∀ value after, post value after → post' value after) :
    Meets program state post' stops :=
  meets.imp weaker fun _ stop => stop

theorem meets_true : Meets program state (fun _ _ => True) fun _ => True := by
  unfold Meets
  split <;> trivial

theorem Meets.and (meets : Meets program state post stops)
    (also : Meets program state post' fun _ => True) :
    Meets program state (fun value after => post value after ∧ post' value after) stops := by
  unfold Meets at meets also ⊢
  cases run : program.run state with
  | ok result =>
    rw [run] at meets also
    exact ⟨meets, also⟩
  | error stop =>
    rw [run] at meets
    exact meets

/-- Sequencing: the rest of the program meets the postcondition wherever the
first part ends. -/
theorem meets_bind {next : α → Program State Stop β} {post : β → State → Prop} :
    Meets (program >>= next) state post stops ↔
      Meets program state (fun value after => Meets (next value) after post stops) stops := by
  unfold Meets
  rw [StateT.run_bind]
  cases program.run state with
  | ok result => exact Iff.rfl
  | error stop => exact Iff.rfl

theorem Meets.bind {next : α → Program State Stop β} {post : β → State → Prop}
    {middle : α → State → Prop} (meets : Meets program state middle stops)
    (rest : ∀ value after, middle value after → Meets (next value) after post stops) :
    Meets (program >>= next) state post stops :=
  meets_bind.mpr (meets.mono rest)

@[simp] theorem meets_pure {value : α} :
    Meets (pure value : Program State Stop α) state post stops ↔ post value state :=
  Iff.rfl

@[simp] theorem meets_get {post : State → State → Prop} :
    Meets (get : Program State Stop State) state post stops ↔ post state state :=
  Iff.rfl

@[simp] theorem meets_set {target : State} {post : PUnit → State → Prop} :
    Meets (set target : Program State Stop PUnit) state post stops ↔ post ⟨⟩ target :=
  Iff.rfl

@[simp] theorem meets_modify {change : State → State} {post : PUnit → State → Prop} :
    Meets (modify change : Program State Stop PUnit) state post stops ↔ post ⟨⟩ (change state) :=
  Iff.rfl

@[simp] theorem meets_throw {stop : Stop} :
    Meets (throw stop : Program State Stop α) state post stops ↔ stops stop :=
  Iff.rfl

theorem Meets.and_run (meets : Meets program state post stops) :
    Meets program state (fun value after => post value after ∧
      program.run state = .ok (value, after)) stops := by
  unfold Meets at meets ⊢
  cases run : program.run state with
  | ok result =>
    rw [run] at meets
    exact ⟨meets, rfl⟩
  | error stop =>
    rw [run] at meets
    exact meets

/-- A program on a part of a larger state, with its stops among the stops of the
whole. -/
def embed {Whole Reason : Type u} (part : Whole → State) (put : Whole → State → Whole)
    (reason : Stop → Reason) (program : Program State Stop α) : Program Whole Reason α :=
  fun whole =>
    match program.run (part whole) with
    | .ok (value, after) => .ok (value, put whole after)
    | .error stop => .error (reason stop)

theorem meets_embed {Whole Reason : Type u} {part : Whole → State} {put : Whole → State → Whole}
    {reason : Stop → Reason} {whole : Whole} {post : α → Whole → Prop} {stops : Reason → Prop} :
    Meets (embed part put reason program) whole post stops ↔
      Meets program (part whole) (fun value after => post value (put whole after))
        fun stop => stops (reason stop) := by
  unfold Meets embed StateT.run
  dsimp only
  cases program (part whole) with
  | ok result => exact Iff.rfl
  | error stop => exact Iff.rfl

section Tracks

variable {Whole Reason γ δ : Type u} {part : Whole → State} {whole : Whole}
  {program : Program Whole Reason α} {other : Program State Stop β}

/-- Where `program` returns, so does `other`, from the part of the state that it works on
and with the part of what `program` leaves. -/
def Tracks (part : Whole → State) (program : Program Whole Reason α)
    (other : Program State Stop β) (whole : Whole) (post : α → β → Whole → Prop) : Prop :=
  Meets program whole (fun value after => ∃ result,
    other.run (part whole) = .ok (result, part after) ∧ post value result after) fun _ => True

theorem Tracks.bind {middle : α → β → Whole → Prop} {next : α → Program Whole Reason γ}
    {next' : β → Program State Stop δ} {post : γ → δ → Whole → Prop}
    (first : Tracks part program other whole middle)
    (rest : ∀ value result after, middle value result after →
      Tracks part (next value) (next' result) after post) :
    Tracks part (program >>= next) (other >>= next') whole post := by
  refine Meets.bind first ?_
  rintro value after ⟨result, ran, holds⟩
  refine (rest value result after holds).mono ?_
  rintro value' after' ⟨result', ran', holds'⟩
  refine ⟨result', ?_, holds'⟩
  rw [StateT.run_bind, ran]
  exact ran'

theorem Tracks.skip {next : α → Program Whole Reason γ} {other : Program State Stop δ}
    {Kept : Whole → Prop} {post : γ → δ → Whole → Prop}
    (first : Meets program whole (fun _ after => part after = part whole ∧ Kept after)
      fun _ => True)
    (rest : ∀ value after, Kept after → Tracks part (next value) other after post) :
    Tracks part (program >>= next) other whole post := by
  refine Meets.bind first ?_
  rintro value after ⟨same, kept⟩
  have tracks := rest value after kept
  unfold Tracks at tracks
  rw [same] at tracks
  exact tracks

theorem tracks_embed {put : Whole → State → Whole} {reason : Stop → Reason}
    (get_put : ∀ state, part (put whole state) = state) :
    Tracks part (embed part put reason other) other whole fun value result after =>
      value = result ∧ ∃ state, after = put whole state :=
  meets_embed.mpr (meets_true.and_run.mono fun value after ran =>
    ⟨value, (get_put after).symm ▸ ran.2, rfl, after, rfl⟩)

end Tracks

theorem Meets.of_run {value : α} {after : State} (meets : Meets program state post stops)
    (run : program.run state = .ok (value, after)) : post value after := by
  unfold Meets at meets
  rw [run] at meets
  exact meets

theorem Meets.of_stop {stop : Stop} (meets : Meets program state post stops)
    (run : program.run state = .error stop) : stops stop := by
  unfold Meets at meets
  rw [run] at meets
  exact meets

/-- The outcome of a run, passed on through `change`. -/
theorem Meets.outcome {change : α × State → β} {Holds : Except Stop β → Prop}
    (meets : Meets program state post stops)
    (returned : ∀ value after, post value after → Holds (.ok (change (value, after))))
    (stopped : ∀ stop, stops stop → Holds (.error stop)) :
    Holds ((program.run state).map change) := by
  cases run : program.run state with
  | ok result => exact returned _ _ (meets.of_run run)
  | error stop => exact stopped stop (meets.of_stop run)

theorem Meets.returns (meets : Meets program state post fun _ => False) :
    ∃ value after, program.run state = .ok (value, after) ∧ post value after := by
  unfold Meets at meets
  cases run : program.run state with
  | ok result =>
    rw [run] at meets
    exact ⟨result.1, result.2, rfl, meets⟩
  | error stop =>
    rw [run] at meets
    exact meets.elim

end Program

end Rexv6.Foundation
