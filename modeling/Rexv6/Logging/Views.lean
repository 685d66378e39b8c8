import Rexv6.Exec.Machine
import Rexv6.Logging.Buffers
import Rexv6.Logging.Sleepers

/-!
Contract: `begin_op`, `log_write` and `end_op` are the same calls in every model.

Owns: what the models of the log's sleepers, of the file system and of `exec` see of the log
with its blocks, and that a call there is a call in each of them.

Does not own: what those models say about the calls, and the writes of `commit`.
-/

namespace Rexv6.Logging

open Function (update update_of_ne update_self)

variable {m m' : Machine} {op b : Nat} {data : Block}

/-! ## The sleepers -/

def LogHeader.listed (lh : LogHeader) : List Nat := (List.range lh.n).map lh.block

/-- Where a process stands whose operation is outside or inside of `log_write`. -/
def opPc : Bool → Sleepers.Pc
  | false => .active
  | true => .writing

structure Agrees (t : Sleepers.State Nat) (m : Machine) : Prop where
  size : t.size = m.log.size
  outstanding : t.outstanding = m.log.outstanding
  committing : t.committing = m.log.committing
  lh : t.lh = m.log.lh.listed
  ops : ∀ op inLogWrite, (∃ logged, m.ops op = .active logged inLogWrite) ↔
    t.pc op = opPc inLogWrite

theorem LogHeader.mem_listed {lh : LogHeader} : b ∈ lh.listed ↔ lh.Lists b := by
  simp [listed, Lists]

theorem LogHeader.listed_absorb (lh : LogHeader) (b : Nat) :
    (lh.absorb b).listed = if b ∈ lh.listed then lh.listed else lh.listed ++ [b] := by
  by_cases isListed : lh.Lists b
  · rw [if_pos (mem_listed.mpr isListed), absorb_of_lists isListed]
  · rw [if_neg (mt mem_listed.mp isListed), absorb_of_not_lists isListed, listed,
      List.range_succ, List.map_append, List.map_singleton]
    refine congrArg₂ _ (List.map_congr_left fun i isBelow => update_of_ne ?_ _ _)
      (congrArg (fun last => [last]) (update_self _ _ _))
    exact ne_of_lt (List.mem_range.mp isBelow)

namespace Agrees

variable {t : Sleepers.State Nat}

theorem length (agrees : Agrees t m) : t.lh.length = m.log.lh.n := by
  simp [agrees.lh, LogHeader.listed]

theorem move (agrees : Agrees t m) (op : Nat) {next : Sleepers.Pc} {state : OpState}
    (same : ∀ inLogWrite, (∃ logged, state = .active logged inLogWrite) ↔
      next = opPc inLogWrite) (other : Nat) (inLogWrite : Bool) :
    (∃ logged, update m.ops op state other = .active logged inLogWrite) ↔
      update t.pc op next other = opPc inLogWrite := by
  by_cases isOp : other = op
  · rw [isOp, update_self, update_self]
    exact same inLogWrite
  · rw [update_of_ne isOp, update_of_ne isOp]
    exact agrees.ops other inLogWrite

theorem same_active (logged : List Nat) (inLogWrite inLogWrite' : Bool) :
    (∃ logged', OpState.active logged inLogWrite = .active logged' inLogWrite') ↔
      opPc inLogWrite = opPc inLogWrite' := by
  cases inLogWrite <;> cases inLogWrite' <;> simp [opPc]

theorem same_ended {next : Sleepers.Pc} (isOther : ∀ inLogWrite, next ≠ opPc inLogWrite)
    (inLogWrite : Bool) :
    (∃ logged, OpState.ended = .active logged inLogWrite) ↔ next = opPc inLogWrite :=
  iff_of_false (by simp) (isOther inLogWrite)

theorem beginOp (agrees : Agrees t m) (free : t.spin = none) (begun : m.beginOp op = .ok m') :
    ∃ t', t.beginOp op = .ok t' ∧ Agrees t' m' := by
  obtain ⟨_, _, idle, room, rfl⟩ := beginOp_ok begun
  refine ⟨{ t.goto op .active with outstanding := t.outstanding + 1 }, ?_, agrees.size,
    congrArg (· + 1) agrees.outstanding, agrees.committing, agrees.lh,
    agrees.move op (same_active [] false)⟩
  unfold Sleepers.State.beginOp
  rw [if_neg (not_not.mpr free), agrees.committing, idle, if_neg Bool.false_ne_true,
    agrees.length, agrees.outstanding, if_neg (not_lt.mpr room)]

/-- A call of `begin_op` that cannot happen yet goes to sleep. -/
theorem beginOp_sleeps (agrees : Agrees t m) (free : t.spin = none)
    (sleeps : m.beginOp op = .error .sleeping) :
    t.beginOp op = .ok { t.goto op .sleep with spin := some op } := by
  unfold Machine.beginOp at sleeps
  unfold Sleepers.State.beginOp
  rw [if_neg (not_not.mpr free), agrees.committing, agrees.length, agrees.outstanding]
  split_ifs at sleeps with recovering busy committing full
  · cases sleeps
  · cases sleeps
  · rw [if_pos committing]
  · rw [if_neg committing, if_pos full]

theorem logCheck (agrees : Agrees t m) (checked : m.logCheck op = .ok m') :
    ∃ t', t.logWrite op = .ok t' ∧ Agrees t' m' := by
  unfold Machine.logCheck at checked
  split at checked
  next logged active =>
    split_ifs at checked with tooBig outside
    cases checked
    have isActive : t.pc op = .active := (agrees.ops op false).mp ⟨logged, active⟩
    refine ⟨t.goto op .writing, ?_, agrees.size, agrees.outstanding, agrees.committing, agrees.lh,
      agrees.move op (same_active logged true)⟩
    unfold Sleepers.State.logWrite
    rw [if_neg (not_not.mpr isActive), agrees.length, agrees.size, agrees.outstanding,
      if_neg tooBig, if_neg outside]
  next => cases checked

theorem logWrite (agrees : Agrees t m) (free : t.spin = none)
    (written : m.logWrite op b data = .ok m') :
    ∃ t', t.logBlock op b = .ok t' ∧ Agrees t' m' := by
  obtain ⟨logged, active, _, _, room, rfl⟩ := logWrite_ok written
  have isWriting := (agrees.ops op true).mp ⟨logged, active⟩
  have moved := agrees.move op (same_active (addLogged logged b) false)
  have enters : ¬ (t.pc op ≠ .writing ∨ t.spin ≠ none) :=
    not_or.mpr ⟨not_not.mpr isWriting, not_not.mpr free⟩
  have header := LogHeader.listed_absorb m.log.lh b
  rw [← agrees.lh] at header
  unfold Sleepers.State.logBlock
  rw [if_neg enters]
  by_cases isListed : b ∈ t.lh
  · rw [if_pos isListed] at header ⊢
    exact ⟨_, rfl, agrees.size, agrees.outstanding, agrees.committing, header.symm, moved⟩
  · have notListed : ¬ m.log.lh.Lists b := by
      rw [← LogHeader.mem_listed, ← agrees.lh]
      exact isListed
    rw [LogHeader.scan_of_not_lists notListed, ← agrees.length] at room
    rw [if_neg isListed] at header
    rw [if_neg isListed, if_neg (not_le.mpr room)]
    exact ⟨_, rfl, agrees.size, agrees.outstanding, agrees.committing, header.symm, moved⟩

theorem endOp (agrees : Agrees t m) (free : t.spin = none) (finished : m.endOp op = .ok m') :
    ∃ t', t.endOp op = .ok t' ∧ Agrees t' m' := by
  obtain ⟨logged, active, idle, outcome⟩ := endOp_ok finished
  have isActive := (agrees.ops op false).mp ⟨logged, active⟩
  have enters : ¬ (t.pc op ≠ .active ∨ t.spin ≠ none) :=
    not_or.mpr ⟨not_not.mpr isActive, not_not.mpr free⟩
  unfold Sleepers.State.endOp
  rw [if_neg enters, agrees.committing, idle, if_neg Bool.false_ne_true, agrees.outstanding]
  rcases outcome with ⟨last, rfl⟩ | ⟨notLast, rfl⟩
  · rw [if_pos last]
    exact ⟨_, rfl, agrees.size, rfl, rfl, agrees.lh, agrees.move op (same_ended (by decide))⟩
  · rw [if_neg notLast]
    exact ⟨_, rfl, agrees.size, rfl, agrees.committing, agrees.lh,
      agrees.move op (same_ended (by decide))⟩

end Agrees

/-! ## The file system and `exec` -/

/-- The file system works on the blocks as the buffers have them. -/
theorem logWrite_contents (written : m.logWrite op b data = .ok m') :
    m'.contents = update m.contents b data := by
  obtain ⟨_, _, _, _, _, rfl⟩ := logWrite_ok written
  funext other
  by_cases isB : other = b
  · simp [Machine.contents, isB]
  · simp [Machine.contents, update_of_ne isB]

theorem fs_logWrite {s : Fs.State} (same : s.disk = m.contents)
    (written : m.logWrite op b data = .ok m') :
    ∃ s', Fs.run (Fs.logWrite b data) s = .ok ((), s') ∧ s'.disk = m'.contents :=
  ⟨_, rfl, by rw [logWrite_contents written, ← same]⟩

/-- `exec` counts its transaction. -/
theorem exec_beginOp {k : Exec.State} (same : k.outstanding = m.log.outstanding)
    (begun : m.beginOp op = .ok m') :
    ∃ k', Exec.beginOp.run k = .ok ((), k') ∧ k'.outstanding = m'.log.outstanding := by
  obtain ⟨_, _, _, _, rfl⟩ := beginOp_ok begun
  exact ⟨_, rfl, congrArg (· + 1) same⟩

theorem exec_endOp {k : Exec.State} (same : k.outstanding = m.log.outstanding)
    (finished : m.endOp op = .ok m') :
    ∃ k', Exec.endOp.run k = .ok ((), k') ∧ k'.outstanding = m'.log.outstanding := by
  obtain ⟨_, _, _, outcome⟩ := endOp_ok finished
  rcases outcome with ⟨_, rfl⟩ | ⟨_, rfl⟩ <;> exact ⟨_, rfl, congrArg (· - 1) same⟩

end Rexv6.Logging
