import Rexv6.Logging.CrashAtomicity

/-!
Contract: whether the reservation made by `begin_op` is enough for the blocks
that admitted operations log.

Owns: the budget of an operation, the exact condition under which `log_write`
neither panics nor overruns the log region, and the runs within budget that do.

Does not own: what the file system calls log; that they keep the budget is a
property of their callers.
-/

namespace Rexv6.Logging

open Rexv6.Foundation.Execution (Along)

/-! ## Budget and outcome -/

/-- An event that can happen, by an operation that keeps to at most
`MAXOPBLOCKS` distinct blocks. -/
def Admitted (r : Recorded) (event : Event) : Prop :=
  (match r.step event with
    | .error stop => stop ≠ .disabled
    | .ok _ => True) ∧
  match event with
  | .logWrite op b _ =>
    match r.machine.ops op with
    | .active logged _ => (addLogged logged b).length ≤ maxOpBlocks
    | _ => True
  | _ => True

instance (r : Recorded) (event : Event) : Decidable (Admitted r event) := by
  refine @instDecidableAnd _ _ ?_ ?_
  · cases r.step event <;> infer_instance
  · cases event with
    | logWrite op b data =>
      simp only
      cases r.machine.ops op <;> infer_instance
    | _ => infer_instance

/-- The event does not panic for lack of log space, and leaves no more blocks
in the header than the log region has data blocks. -/
def SpaceSuffices (r : Recorded) (event : Event) : Prop :=
  match r.step event with
  | .ok next => next.machine.log.lh.n ≤ next.machine.log.size - 1
  | .error stop => stop ≠ .panic "too big a transaction"

instance (r : Recorded) (event : Event) : Decidable (SpaceSuffices r event) := by
  unfold SpaceSuffices
  cases r.step event <;> infer_instance

/-- A call of `log_write` finds fewer than `LOGSIZE - 1` distinct blocks in the
open group when it makes its tests, and leaves at most that many. -/
def RoomForWrite (r : Recorded) : Event → Prop
  | .logCheck _ => (blocks r.history.current).card < logSize - 1
  | .logWrite op b data => (blocks (r.history.current ++ [⟨op, b, data⟩])).card ≤ logSize - 1
  | _ => True

instance (r : Recorded) (event : Event) : Decidable (RoomForWrite r event) := by
  cases event <;> unfold RoomForWrite <;> infer_instance

/-! ## The header counts the open group -/

section Counting

variable {disk₀ : Nat → Block} {kept : List (List Write)} {r : Recorded}

theorem Inv.n_lt_size (inv : Inv disk₀ r kept) : r.machine.log.lh.n < r.machine.log.size := by
  have room := inv.recoverable.room
  cases inv.phase with
  | readHead _ _ _ _ fresh => omega
  | recoverInstall _ _ _ _ _ loaded _ => rw [loaded.count]; omega
  | running _ _ _ staged => exact staged.room
  | commit _ _ _ _ _ _ _ _ staged => exact staged.room
  | writeLog _ _ _ _ _ _ _ _ _ staged _ => exact staged.room
  | install _ _ _ _ _ _ _ _ _ _ loaded _ _ => rw [loaded.count]; omega
  | returned _ _ _ _ cleared _ _ _ _ _ _ _ => omega

theorem Inv.n_eq_card (inv : Inv disk₀ r kept) {op : Nat} {logged : List Nat} {inLogWrite : Bool}
    (active : r.machine.ops op = .active logged inLogWrite) :
    r.machine.log.lh.n = (blocks r.history.current).card := by
  obtain ⟨-, -, -, staged⟩ := inv.running_of_active active
  exact LogHeader.n_eq_card staged.distinct staged.lists

/-- Outside `log_write` the open group does not grow. -/
theorem Inv.group_fits (inv : Inv disk₀ r kept) :
    (blocks r.history.current).card < r.machine.log.size := by
  have empty : r.history.current = [] → (blocks r.history.current).card < r.machine.log.size :=
    fun none => by rw [none]; exact inv.positive
  cases inv.phase with
  | running _ _ _ staged =>
    rw [← LogHeader.n_eq_card staged.distinct staged.lists]
    exact staged.room
  | readHead _ quiet | recoverInstall _ _ quiet | commit _ quiet | writeLog _ _ quiet
  | install _ _ quiet | returned _ quiet => exact empty quiet.current

/-! ## One event -/

/-- A group that fits before an event other than `log_write` fits after it. -/
theorem Inv.fits_of_room (inv : Inv disk₀ r kept) {event : Event}
    (region : r.machine.log.size = nlog) (room : RoomForWrite r event) :
    GroupFits r.machine.log.size r event := by
  have fits := inv.group_fits
  rw [region] at fits ⊢
  unfold GroupFits
  cases event with
  | logWrite op b data => exact room
  | tick =>
    simp only [History.next]
    split <;> exact Nat.le_sub_one_of_lt fits
  | endOp op =>
    simp only [History.next]
    split
    · exact Nat.zero_le _
    · exact Nat.le_sub_one_of_lt fits
  | crash => exact Nat.zero_le _
  | _ => exact Nat.le_sub_one_of_lt fits

/-- An event that is not part of `log_write` never lacks space. -/
theorem Inv.suffices_of_ok (inv : Inv disk₀ r kept) {event : Event}
    (region : r.machine.log.size = nlog) (room : RoomForWrite r event)
    (noPanic : r.step event ≠ .error (.panic "too big a transaction")) :
    SpaceSuffices r event := by
  unfold SpaceSuffices
  split
  · rename_i next stepped
    obtain ⟨_, after⟩ := inv.step (inv.fits_of_room region room) stepped
    exact Nat.le_sub_one_of_lt after.n_lt_size
  · rename_i stop stepped
    rintro rfl
    exact noPanic stepped

theorem Recorded.step_error {event : Event} {stop : Stop} :
    r.step event = .error stop ↔ Logging.step r.machine event = .error stop := by
  unfold Recorded.step
  split <;> simp_all

theorem Inv.suffices_logCheck (inv : Inv disk₀ r kept) {op : Nat}
    (region : r.machine.log.size = nlog) (admitted : Admitted r (.logCheck op)) :
    SpaceSuffices r (.logCheck op) ↔ RoomForWrite r (.logCheck op) := by
  cases state : r.machine.ops op with
  | active logged inLogWrite =>
    have count := inv.n_eq_card state
    cases inLogWrite with
    | true => simp [Admitted, Recorded.step, Logging.step, Machine.logCheck, state] at admitted
    | false =>
      constructor
      · intro enough
        by_contra full
        simp only [RoomForWrite, ← count, not_lt] at full
        have panics : r.step (.logCheck op) = .error (.panic "too big a transaction") := by
          rw [Recorded.step_error]
          simp only [Logging.step, Machine.logCheck, state]
          rw [if_pos (Or.inr (by rw [region]; unfold nlog logSize maxOpBlocks at *; omega))]
        simp [SpaceSuffices, panics] at enough
      · intro room
        refine inv.suffices_of_ok region room fun panics => ?_
        simp only [RoomForWrite, ← count] at room
        rw [Recorded.step_error] at panics
        simp only [Logging.step, Machine.logCheck, state] at panics
        rw [if_neg (by rw [region]; unfold nlog logSize maxOpBlocks at *; omega)] at panics
        split at panics <;> simp at panics
  | _ => simp [Admitted, Recorded.step, Logging.step, Machine.logCheck, state] at admitted

theorem Inv.suffices_logWrite (inv : Inv disk₀ r kept) {op b : Nat} {data : Block}
    (region : r.machine.log.size = nlog) (admitted : Admitted r (.logWrite op b data)) :
    SpaceSuffices r (.logWrite op b data) ↔ RoomForWrite r (.logWrite op b data) := by
  cases stepped : r.step (.logWrite op b data) with
  | ok next =>
    obtain ⟨written, -⟩ := Recorded.step_ok stepped
    obtain ⟨logged, active, -, -, -, result⟩ := logWrite_ok written
    obtain ⟨-, -, -, staged⟩ := inv.running_of_active active
    have count := LogHeader.n_eq_card (staged.distinct.absorb b)
      (staged.lists_snoc ⟨op, b, data⟩)
    simp only [SpaceSuffices, stepped, RoomForWrite, result, region, count]
    exact Iff.rfl
  | error stop =>
    have failed := Recorded.step_error.mp stepped
    simp only [Logging.step, Machine.logWrite] at failed
    split at failed
    · rename_i logged active
      split_ifs at failed with notAllowed overrun
      · cases failed
        exact absurd admitted.1 (by simp [stepped])
      · obtain ⟨-, -, -, staged⟩ := inv.running_of_active active
        have room := staged.room
        obtain ⟨-, high, -, -⟩ := scan_spec r.machine.log.lh.block b r.machine.log.lh.n 0
        rw [region] at room
        unfold nlog at room
        omega
    · cases failed
      exact absurd admitted.1 (by simp [stepped])

/-- The exact condition under which one event has the space it needs. -/
theorem Inv.suffices_iff (inv : Inv disk₀ r kept) {event : Event}
    (region : r.machine.log.size = nlog) (admitted : Admitted r event) :
    SpaceSuffices r event ↔ RoomForWrite r event := by
  have always : RoomForWrite r event →
      Logging.step r.machine event ≠ .error (.panic "too big a transaction") →
      (SpaceSuffices r event ↔ RoomForWrite r event) := fun room noPanic =>
    iff_of_true (inv.suffices_of_ok region room (mt Recorded.step_error.mp noPanic)) room
  cases event with
  | logCheck op => exact inv.suffices_logCheck region admitted
  | logWrite op b data => exact inv.suffices_logWrite region admitted
  | tick =>
    refine always trivial fun panics => ?_
    simp only [Logging.step, Machine.tick] at panics
    split at panics <;> (try split at panics) <;> simp at panics
  | beginOp op =>
    refine always trivial fun panics => ?_
    simp only [Logging.step, Machine.beginOp] at panics
    split_ifs at panics <;> simp at panics
  | endOp op =>
    refine always trivial fun panics => ?_
    simp only [Logging.step, Machine.endOp] at panics
    split at panics
    · split_ifs at panics
      simp at panics
    · simp at panics
  | evict b =>
    refine always trivial fun panics => ?_
    simp only [Logging.step, Machine.evict] at panics
    split at panics <;> (try split at panics) <;> simp at panics
  | crash =>
    refine always trivial fun panics => ?_
    simp [Logging.step] at panics

end Counting

/-! ## Whole runs -/

/-- For a log region of the size `mkfs` lays out and operations within their
budget, the log never lacks space exactly in the runs where every `log_write`
finds at most `LOGSIZE - 2` distinct blocks in the open group and leaves at
most `LOGSIZE - 1`. -/
theorem admission_suffices_iff {disk₀ : Nat → Block} {start : Nat}
    (formatted : headN (disk₀ start) = 0) (events : List Event)
    (admitted : Along Recorded.step Admitted (powerOn start nlog disk₀) events) :
    Along Recorded.step SpaceSuffices (powerOn start nlog disk₀) events ↔
      Along Recorded.step RoomForWrite (powerOn start nlog disk₀) events := by
  refine Along.congr (fun state => Region start nlog state.machine ∧
    ∃ kept, Inv disk₀ state kept) ?_ ?_ events _ ⟨⟨rfl, rfl⟩, [], Inv.powerOn (by decide) formatted⟩
    admitted
  · rintro before event after - room ⟨region, kept, inv⟩ stepped
    exact ⟨region.step (Recorded.step_ok stepped).1,
      inv.step (inv.fits_of_room region.2 room) stepped⟩
  · rintro state event ⟨region, kept, inv⟩ isAdmitted
    exact inv.suffices_iff region.2 isAdmitted

/-- Boot on a freshly made file system and start three operations. -/
def threeOperations : List Event := [.tick, .tick, .beginOp 0, .beginOp 1, .beginOp 2]

def logBlocks (op first count : Nat) : List Event :=
  (List.range count).flatMap fun index => [.logCheck op, .logWrite op (first + index) fun _ => 0]

/-- Two operations that fill their budgets always have room. -/
theorem admission_suffices_two :
    Along Recorded.step SpaceSuffices (powerOn 2 nlog fun _ _ => 0)
      (threeOperations ++ logBlocks 0 100 10 ++ logBlocks 1 110 10) :=
  (admission_suffices_iff rfl _ (by decide +kernel)).mpr (by decide +kernel)

/-- Three admitted operations that fill their budgets panic at the last block;
if two of them pass the tests together before either has logged its block, the
header lists one block more than the log region can hold. -/
theorem admission_insufficient :
    (Along Recorded.step Admitted (powerOn 2 nlog fun _ _ => 0)
        (threeOperations ++ logBlocks 0 100 10 ++ logBlocks 1 110 10 ++ logBlocks 2 120 10) ∧
      ¬ Along Recorded.step SpaceSuffices (powerOn 2 nlog fun _ _ => 0)
        (threeOperations ++ logBlocks 0 100 10 ++ logBlocks 1 110 10 ++ logBlocks 2 120 10)) ∧
    (((powerOn 2 nlog fun _ _ => 0).run
        (threeOperations ++ logBlocks 0 100 10 ++ logBlocks 1 110 9 ++ logBlocks 2 120 9 ++
          [.logCheck 1, .logCheck 2, .logWrite 1 119 fun _ => 0,
            .logWrite 2 129 fun _ => 0])).toOption.map
      fun r => (r.machine.log.size, r.machine.log.lh.n)) = some (nlog, logSize) := by
  decide +kernel

end Rexv6.Logging
