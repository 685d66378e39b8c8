import Mathlib.Data.Finset.Card
import Mathlib.Data.Finset.Dedup
import Rexv6.Logging.Recovery

/-!
Contract: commit groups, the abstract view of the log's work.

Owns: the record of `log_write` calls by group, which groups may or must be in
the home blocks after a crash, and the data that a list of groups leaves.

Does not own: any disk write. A group here is a list of writes that takes
effect as a whole or not at all; `CrashAtomicity` proves that the machine
behaves that way.
-/

namespace Rexv6.Logging

structure Write where
  op : Nat
  block : Nat
  data : Block

/-- The writes between two commits, and whether their `commit()` returned. -/
structure Group where
  writes : List Write
  returned : Bool

/-- The closed groups, latest first, and the writes of the open one. -/
structure History where
  groups : List Group
  current : List Write

def blocks (writes : List Write) : Finset Nat := (writes.map Write.block).toFinset

theorem mem_blocks {writes : List Write} {b : Nat} :
    b ∈ blocks writes ↔ ∃ write ∈ writes, write.block = b := by
  simp [blocks]

theorem LogHeader.n_eq_card {lh : LogHeader} {writes : List Write} (distinct : lh.Distinct)
    (lists : ∀ b, lh.Lists b ↔ ∃ write ∈ writes, write.block = b) :
    lh.n = (blocks writes).card := by
  have image : (Finset.range lh.n).image lh.block = blocks writes := by
    ext b
    rw [mem_blocks, ← lists b]
    simp [LogHeader.Lists]
  rw [← image, Finset.card_image_of_injOn, Finset.card_range]
  intro i iBelow j jBelow same
  exact distinct i (by simpa using iBelow) j (by simpa using jBelow) same

def applyWrites (disk : Nat → Block) (writes : List Write) : Nat → Block :=
  writes.foldl (fun blocks write => Function.update blocks write.block write.data) disk

/-- The blocks after a list of groups, given latest first. -/
def applyGroups (disk : Nat → Block) (groups : List (List Write)) : Nat → Block :=
  applyWrites disk groups.reverse.flatten

@[simp] theorem applyWrites_nil (disk : Nat → Block) : applyWrites disk [] = disk := rfl

theorem applyWrites_append (disk : Nat → Block) (first second : List Write) :
    applyWrites disk (first ++ second) = applyWrites (applyWrites disk first) second := by
  simp [applyWrites, List.foldl_append]

theorem applyWrites_snoc (disk : Nat → Block) (writes : List Write) (write : Write) :
    applyWrites disk (writes ++ [write]) =
      Function.update (applyWrites disk writes) write.block write.data := by
  simp [applyWrites]

theorem applyWrites_other (disk : Nat → Block) {b : Nat} :
    ∀ writes : List Write, (∀ write ∈ writes, write.block ≠ b) →
      applyWrites disk writes b = disk b
  | [], _ => rfl
  | write :: rest, apart => by
      have tail := applyWrites_other (Function.update disk write.block write.data) rest
        fun other member => apart other (by simp [member])
      have head : b ≠ write.block := fun same => apart write (by simp) same.symm
      rw [Function.update_of_ne head] at tail
      exact tail

@[simp] theorem applyGroups_cons (disk : Nat → Block) (group : List Write)
    (groups : List (List Write)) :
    applyGroups disk (group :: groups) = applyWrites (applyGroups disk groups) group := by
  simp [applyGroups, applyWrites_append]

/-- `Included groups kept`: `kept` are the writes of some of the closed groups,
in the same order, and every group whose `commit()` returned is kept. -/
inductive Included : List Group → List (List Write) → Prop where
  | nil : Included [] []
  | keep {groups : List Group} {kept : List (List Write)} (group : Group)
      (rest : Included groups kept) : Included (group :: groups) (group.writes :: kept)
  | drop {groups : List Group} {kept : List (List Write)} (group : Group)
      (open_ : group.returned = false) (rest : Included groups kept) :
      Included (group :: groups) kept

theorem Included.mem {groups : List Group} {kept : List (List Write)}
    (included : Included groups kept) {writes : List Write} (member : writes ∈ kept) :
    ∃ group ∈ groups, group.writes = writes := by
  induction included with
  | nil => simp at member
  | keep group rest ih =>
    rcases List.mem_cons.mp member with rfl | inRest
    · exact ⟨group, by simp, rfl⟩
    · obtain ⟨found, isMember, same⟩ := ih inRest
      exact ⟨found, by simp [isMember], same⟩
  | drop group open_ rest ih =>
    obtain ⟨found, isMember, same⟩ := ih member
    exact ⟨found, by simp [isMember], same⟩

/-- Note that the `commit()` of the latest group has returned. -/
def markReturned : List Group → List Group
  | [] => []
  | group :: groups => { group with returned := true } :: groups

/-- The record after an event that `m` takes: `log_write` extends the open
group, the last `end_op` closes it, and a crash forgets it. -/
def History.next (h : History) (m : Machine) : Event → History
  | .logWrite op b data => { h with current := h.current ++ [⟨op, b, data⟩] }
  | .endOp _ =>
    if m.log.outstanding - 1 = 0 then ⟨⟨h.current, false⟩ :: h.groups, []⟩ else h
  | .tick =>
    match m.control with
    | .returned => { h with groups := markReturned h.groups }
    | _ => h
  | .crash => { h with current := [] }
  | _ => h

structure Recorded where
  machine : Machine
  history : History

def Recorded.step (r : Recorded) (event : Event) : Except Stop Recorded :=
  match Logging.step r.machine event with
  | .ok after => .ok ⟨after, r.history.next r.machine event⟩
  | .error stop => .error stop

def Recorded.run (r : Recorded) (events : List Event) : Except Stop Recorded :=
  events.foldlM Recorded.step r

def powerOn (start size : Nat) (disk : Nat → Block) : Recorded :=
  ⟨boot start size disk fun _ => .idle, ⟨[], []⟩⟩

theorem Recorded.step_ok {before after : Recorded} {event : Event}
    (stepped : before.step event = .ok after) :
    Logging.step before.machine event = .ok after.machine ∧
      after.history = before.history.next before.machine event := by
  unfold Recorded.step at stepped
  split at stepped
  · rename_i machine isOk
    obtain rfl := Except.ok.inj stepped
    exact ⟨isOk, rfl⟩
  · exact absurd stepped (by simp)

end Rexv6.Logging
