import Rexv6.Foundation.Execution
import Rexv6.Logging.History

/-!
Contract: crash atomicity of the log.

Owns: the invariant of every run, one preservation lemma for each event, and
the theorem that recovery after a crash at any point leaves the home blocks as
some whole number of commit groups left them.

Does not own: that `begin_op` admits few enough operations (`Admission`), or
any property of a run in which the machine never crashes and nothing is
recovered.
-/

namespace Rexv6.Logging

open Rexv6.Foundation
open Rexv6.Foundation.Execution (Along)
open Function (update update_of_ne update_self)

/-! ## The invariant -/

/-- The number of operations between `begin_op` and `end_op`. -/
def Counted (m : Machine) : Prop :=
  ∃ running : List Nat, running.Nodup ∧
    (∀ op, op ∈ running ↔ ∃ logged inLogWrite, m.ops op = .active logged inLogWrite) ∧
    (running.length : Int) = m.log.outstanding

/-- The cache and the in-memory header hold exactly `writes` on top of `base`. -/
structure Staged (m : Machine) (base : Nat → Block) (writes : List Write) : Prop where
  contents : ∀ b, m.log.IsHome b → m.contents b = applyWrites base writes b
  lists : ∀ b, m.log.lh.Lists b ↔ ∃ write ∈ writes, write.block = b
  home : ∀ write ∈ writes, m.log.IsHome write.block ∧ write.block < 2 ^ 32
  room : m.log.lh.n < m.log.size
  small : m.log.lh.n ≤ logSize
  distinct : m.log.lh.Distinct

/-- No operation is running and no group is open. -/
structure Quiet (r : Recorded) : Prop where
  outstanding : r.machine.log.outstanding = 0
  current : r.history.current = []

/-- What holds at each place of `recover_from_log` and `commit`, where `kept`
are the groups that recovery would find on the disk. -/
inductive Phase (disk₀ : Nat → Block) (r : Recorded) (kept : List (List Write)) : Prop where
  | readHead (here : r.machine.control = .readHead) (quiet : Quiet r)
      (idle : r.machine.log.committing = false)
      (clean : r.machine.contents = r.machine.disk)
      (fresh : r.machine.log.lh.n = 0)
  | recoverInstall (tail : Nat) (here : r.machine.control = .recoverInstall tail)
      (quiet : Quiet r) (idle : r.machine.log.committing = false)
      (clean : r.machine.contents = r.machine.disk)
      (loaded : Loaded r.machine)
      (installed : Installed r.machine (applyGroups disk₀ kept) tail)
  | running (here : r.machine.control = .running)
      (idle : r.machine.log.committing = false)
      (empty : headN (r.machine.disk r.machine.log.start) = 0)
      (staged : Staged r.machine (applyGroups disk₀ kept) r.history.current)
  | commit (here : r.machine.control = .commit) (quiet : Quiet r)
      (busy : r.machine.log.committing = true)
      (empty : headN (r.machine.disk r.machine.log.start) = 0)
      (writes : List Write) (groups : List Group)
      (closed : r.history.groups = ⟨writes, false⟩ :: groups)
      (before : Included groups kept)
      (staged : Staged r.machine (applyGroups disk₀ kept) writes)
  | writeLog (tail : Nat) (here : r.machine.control = .writeLog tail) (quiet : Quiet r)
      (busy : r.machine.log.committing = true)
      (empty : headN (r.machine.disk r.machine.log.start) = 0)
      (writes : List Write) (groups : List Group)
      (closed : r.history.groups = ⟨writes, false⟩ :: groups)
      (before : Included groups kept)
      (staged : Staged r.machine (applyGroups disk₀ kept) writes)
      (copied : ∀ index < r.machine.log.lh.n, index < tail →
        r.machine.disk (r.machine.log.start + index + 1) =
          r.machine.contents (r.machine.log.lh.block index))
  | install (tail : Nat) (here : r.machine.control = .install tail) (quiet : Quiet r)
      (busy : r.machine.log.committing = true)
      (writes : List Write) (groups : List Group) (keptBefore : List (List Write))
      (closed : r.history.groups = ⟨writes, false⟩ :: groups)
      (now : kept = writes :: keptBefore) (before : Included groups keptBefore)
      (loaded : Loaded r.machine)
      (installed : Installed r.machine (applyGroups disk₀ kept) tail)
      (contents : ∀ b, r.machine.log.IsHome b →
        r.machine.contents b = applyGroups disk₀ kept b)
  | returned (here : r.machine.control = .returned) (quiet : Quiet r)
      (busy : r.machine.log.committing = true)
      (empty : headN (r.machine.disk r.machine.log.start) = 0)
      (cleared : r.machine.log.lh.n = 0)
      (writes : List Write) (groups : List Group) (keptBefore : List (List Write))
      (closed : r.history.groups = ⟨writes, false⟩ :: groups)
      (now : kept = writes :: keptBefore) (before : Included groups keptBefore)
      (contents : ∀ b, r.machine.log.IsHome b →
        r.machine.contents b = applyGroups disk₀ kept b)

structure Inv (disk₀ : Nat → Block) (r : Recorded) (kept : List (List Write)) : Prop where
  positive : 0 < r.machine.log.size
  included : Included r.history.groups kept
  recoverable : Recoverable r.machine.log r.machine.disk (applyGroups disk₀ kept)
  cache : r.machine.CacheOk
  counted : Counted r.machine
  started : ∀ write ∈ r.history.current, r.machine.ops write.op ≠ .lost ∧
    r.machine.ops write.op ≠ .idle
  ended : ∀ group ∈ r.history.groups, ∀ write ∈ group.writes,
    r.machine.ops write.op = .ended
  phase : Phase disk₀ r kept

/-! ## Running operations -/

theorem Counted.none_active {m : Machine} (counted : Counted m)
    (quiet : m.log.outstanding = 0) (op : Nat) (logged : List Nat) (inLogWrite : Bool) :
    m.ops op ≠ .active logged inLogWrite := by
  obtain ⟨running, -, members, length⟩ := counted
  intro active
  have empty : running = [] := List.length_eq_zero_iff.mp (by omega)
  have member := (members op).mpr ⟨logged, _, active⟩
  simp [empty] at member

theorem Counted.positive {m : Machine} (counted : Counted m) {op : Nat} {logged : List Nat}
    {inLogWrite : Bool} (active : m.ops op = .active logged inLogWrite) :
    0 < m.log.outstanding := by
  obtain ⟨running, -, members, length⟩ := counted
  have member := (members op).mpr ⟨logged, _, active⟩
  have nonempty := List.length_pos_of_mem member
  omega

theorem Counted.congr {m after : Machine} (counted : Counted m) (ops : after.ops = m.ops)
    (outstanding : after.log.outstanding = m.log.outstanding) : Counted after := by
  unfold Counted
  rw [ops, outstanding]
  exact counted

theorem Counted.begin {m : Machine} (counted : Counted m) {op : Nat} (idle : m.ops op = .idle) :
    Counted { m with
      log := { m.log with outstanding := m.log.outstanding + 1 }
      ops := update m.ops op (.active [] false) } := by
  obtain ⟨running, nodup, members, length⟩ := counted
  have absent : op ∉ running := fun member => by
    obtain ⟨logged, _, active⟩ := (members op).mp member
    rw [idle] at active
    exact absurd active (by simp)
  refine ⟨op :: running, List.nodup_cons.mpr ⟨absent, nodup⟩, fun other => ?_, ?_⟩
  · by_cases same : other = op
    · subst same; simp
    · simp [same, members other]
  · simp [← length]

theorem Counted.finish {m after : Machine} (counted : Counted m) {op : Nat} {logged : List Nat}
    {inLogWrite : Bool} (active : m.ops op = .active logged inLogWrite)
    (ops : after.ops = update m.ops op .ended)
    (outstanding : after.log.outstanding = m.log.outstanding - 1) : Counted after := by
  obtain ⟨running, nodup, members, length⟩ := counted
  have member := (members op).mpr ⟨logged, _, active⟩
  refine ⟨running.erase op, nodup.erase op, fun other => ?_, ?_⟩
  · rw [nodup.mem_erase_iff, ops]
    by_cases same : other = op
    · subst same; simp
    · simp [same, members other]
  · rw [List.length_erase_of_mem member, outstanding]
    have positive := List.length_pos_of_mem member
    omega

theorem Counted.relog {m after : Machine} (counted : Counted m) {op : Nat}
    {logged relogged : List Nat} {inLogWrite next : Bool}
    (active : m.ops op = .active logged inLogWrite)
    (ops : after.ops = update m.ops op (.active relogged next))
    (outstanding : after.log.outstanding = m.log.outstanding) : Counted after := by
  obtain ⟨running, nodup, members, length⟩ := counted
  refine ⟨running, nodup, fun other => ?_, by rw [outstanding]; exact length⟩
  rw [ops, members]
  by_cases same : other = op
  · subst same; simp [active]
  · simp [update_of_ne same]

theorem Counted.crash (m : Machine) : Counted m.crash := by
  refine ⟨[], List.nodup_nil, fun op => ?_, rfl⟩
  simp only [List.not_mem_nil, false_iff, not_exists]
  intro logged inLogWrite
  change (m.ops op).cut ≠ .active logged inLogWrite
  cases m.ops op <;> simp [OpState.cut]

/-! ## Events outside `recover_from_log` and `commit` -/

section Events

variable {disk₀ : Nat → Block} {kept : List (List Write)}

/-- The disk invariant does not read the volatile part of `log`. -/
theorem Recoverable.congr {log other : Log} {disk target : Nat → Block}
    (recoverable : Recoverable log disk target) (start : other.start = log.start)
    (size : other.size = log.size) : Recoverable other disk target := by
  obtain ⟨room, small, home, logged, rest⟩ := recoverable
  unfold Log.IsHome at home rest
  rw [← start] at room small home logged rest
  rw [← size] at room home rest
  exact ⟨room, small, home, logged, rest⟩

theorem Inv.crash {r : Recorded} (inv : Inv disk₀ r kept) :
    Inv disk₀ ⟨r.machine.crash, { r.history with current := [] }⟩ kept where
  positive := inv.positive
  included := inv.included
  recoverable := inv.recoverable.congr rfl rfl
  cache := fun b buf cached => by simp [Machine.crash, boot] at cached
  counted := Counted.crash r.machine
  started := by simp
  ended := by
    intro group member write inGroup
    have isEnded := inv.ended group member write inGroup
    change (r.machine.ops write.op).cut = .ended
    rw [isEnded]
    rfl
  phase := .readHead rfl ⟨rfl, rfl⟩ rfl rfl rfl

/-- Recycling a buffer does not change what `bread` returns. -/
theorem evict_ok {m after : Machine} {b : Nat} (ok : m.CacheOk) (evicted : m.evict b = .ok after) :
    after = { m with cache := update m.cache b none } ∧ after.contents = m.contents := by
  unfold Machine.evict at evicted
  split at evicted
  · rename_i buf cached
    split at evicted
    · exact absurd evicted (by simp)
    · rename_i clean
      obtain rfl := Except.ok.inj evicted
      refine ⟨rfl, ?_⟩
      funext other
      by_cases same : other = b
      · subst same
        have data : buf.data = m.disk other :=
          (ok other buf cached).resolve_right fun dirty => clean dirty.1
        simp [Machine.contents, cached, data]
      · simp [Machine.contents, update_of_ne same]
  · exact absurd evicted (by simp)

theorem Machine.CacheOk.evict {m : Machine} (ok : m.CacheOk) (b : Nat) :
    Machine.CacheOk { m with cache := update m.cache b none } := by
  intro other buf cached
  by_cases same : other = b
  · subst same
    simp at cached
  · simp only [update_of_ne same] at cached
    exact ok other buf cached

theorem Staged.congr {m after : Machine} {base : Nat → Block} {writes : List Write}
    (staged : Staged m base writes) (contents : after.contents = m.contents)
    (start : after.log.start = m.log.start) (size : after.log.size = m.log.size)
    (header : after.log.lh = m.log.lh) : Staged after base writes := by
  obtain ⟨same, lists, home, room, small, distinct⟩ := staged
  constructor
  · unfold Log.IsHome; rw [contents, start, size]; exact same
  · rw [header]; exact lists
  · unfold Log.IsHome; rw [start, size]; exact home
  · rw [header, size]; exact room
  · rw [header]; exact small
  · rw [header]; exact distinct

theorem Inv.evict {r : Recorded} {after : Machine} {b : Nat} (inv : Inv disk₀ r kept)
    (evicted : r.machine.evict b = .ok after) : Inv disk₀ ⟨after, r.history⟩ kept := by
  obtain ⟨rfl, contents⟩ := evict_ok inv.cache evicted
  refine ⟨inv.positive, inv.included, inv.recoverable, inv.cache.evict b, inv.counted,
    inv.started, inv.ended, ?_⟩
  cases inv.phase with
  | readHead here quiet idle clean fresh =>
    exact .readHead here ⟨quiet.1, quiet.2⟩ idle (contents.trans clean) fresh
  | recoverInstall tail here quiet idle clean loaded installed =>
    exact .recoverInstall tail here ⟨quiet.1, quiet.2⟩ idle (contents.trans clean)
      ⟨loaded.1, loaded.2⟩ installed
  | running here idle empty staged =>
    exact .running here idle empty (staged.congr contents rfl rfl rfl)
  | commit here quiet busy empty writes groups closed before staged =>
    exact .commit here ⟨quiet.1, quiet.2⟩ busy empty writes groups closed before
      (staged.congr contents rfl rfl rfl)
  | writeLog tail here quiet busy empty writes groups closed before staged copied =>
    refine .writeLog tail here ⟨quiet.1, quiet.2⟩ busy empty writes groups closed before
      (staged.congr contents rfl rfl rfl) ?_
    simpa only [contents] using copied
  | install tail here quiet busy writes groups keptBefore closed now before loaded installed
      same =>
      refine .install tail here ⟨quiet.1, quiet.2⟩ busy writes groups keptBefore closed now before
        ⟨loaded.1, loaded.2⟩ installed ?_
      simpa only [contents] using same
  | returned here quiet busy empty cleared writes groups keptBefore closed now before same =>
    refine .returned here ⟨quiet.1, quiet.2⟩ busy empty cleared writes groups keptBefore closed
      now before ?_
    simpa only [contents] using same

theorem Inv.running_of_active {r : Recorded} (inv : Inv disk₀ r kept) {op : Nat}
    {logged : List Nat} {inLogWrite : Bool}
    (active : r.machine.ops op = .active logged inLogWrite) :
    r.machine.control = .running ∧ r.machine.log.committing = false ∧
      headN (r.machine.disk r.machine.log.start) = 0 ∧
      Staged r.machine (applyGroups disk₀ kept) r.history.current := by
  have positive := inv.counted.positive active
  cases inv.phase with
  | running here idle empty staged => exact ⟨here, idle, empty, staged⟩
  | readHead _ quiet | recoverInstall _ _ quiet | commit _ quiet | writeLog _ _ quiet
  | install _ _ quiet | returned _ quiet => exact absurd quiet.outstanding (by omega)

theorem Inv.beginOp {r : Recorded} {after : Machine} {op : Nat} (inv : Inv disk₀ r kept)
    (begun : r.machine.beginOp op = .ok after) : Inv disk₀ ⟨after, r.history⟩ kept := by
  obtain ⟨notRecovering, idle, notCommitting, -, rfl⟩ := beginOp_ok begun
  have other : ∀ writer : Nat, r.machine.ops writer ≠ .idle →
      update r.machine.ops op (.active [] false) writer = r.machine.ops writer := by
    intro writer notIdle
    apply update_of_ne
    rintro rfl
    exact notIdle idle
  refine ⟨inv.positive, inv.included, inv.recoverable.congr rfl rfl, inv.cache,
    inv.counted.begin idle, fun write member => ?_, fun group member write inGroup => ?_, ?_⟩
  · have started := inv.started write member
    simpa only [other write.op started.2] using started
  · have isEnded := inv.ended group member write inGroup
    simpa only [other write.op (by simp [isEnded])] using isEnded
  · cases inv.phase with
    | running here isIdle empty staged =>
      exact .running here isIdle empty (staged.congr rfl rfl rfl rfl)
    | readHead here | recoverInstall _ here => simp [here, Control.recovering] at notRecovering
    | commit _ _ busy | writeLog _ _ _ busy | install _ _ _ busy | returned _ _ busy =>
      simp [busy] at notCommitting

theorem Staged.lists_snoc {m : Machine} {base : Nat → Block} {writes : List Write}
    (staged : Staged m base writes) (write : Write) (b : Nat) :
    (m.log.lh.absorb write.block).Lists b ↔
      ∃ other ∈ writes ++ [write], other.block = b := by
  rw [LogHeader.lists_absorb, staged.lists b]
  simp only [List.mem_append, List.mem_singleton]
  constructor
  · rintro (⟨other, member, same⟩ | rfl)
    · exact ⟨other, Or.inl member, same⟩
    · exact ⟨write, Or.inr rfl, rfl⟩
  · rintro ⟨other, member | rfl, same⟩
    · exact Or.inl ⟨other, member, same⟩
    · exact Or.inr same.symm

/-- `log_write` adds one write to what the cache and the header hold. -/
theorem Staged.logWrite {m : Machine} {base : Nat → Block} {writes : List Write} {op b : Nat}
    {data : Block} {state : OpState} (staged : Staged m base writes) (home : m.log.IsHome b)
    (fits : b < 2 ^ 32) (inside : scan m.log.lh.block b m.log.lh.n 0 < logSize)
    (room : (blocks (writes ++ [⟨op, b, data⟩])).card < m.log.size) :
    Staged { m with
      log := { m.log with lh := m.log.lh.absorb b }
      cache := update m.cache b (some ⟨data, true⟩)
      ops := update m.ops op state } base (writes ++ [⟨op, b, data⟩]) where
  contents := by
    intro other otherHome
    rw [applyWrites_snoc]
    by_cases same : other = b
    · subst same
      simp [Machine.contents]
    · simp only [Machine.contents, update_of_ne same]
      exact staged.contents other otherHome
  lists := staged.lists_snoc ⟨op, b, data⟩
  home := by
    intro write member
    rcases List.mem_append.mp member with old | new
    · exact staged.home write old
    · obtain rfl := List.mem_singleton.mp new
      exact ⟨home, fits⟩
  room := by
    rw [LogHeader.n_eq_card (staged.distinct.absorb b) (staged.lists_snoc ⟨op, b, data⟩)]
    exact room
  small := by
    by_cases listed : m.log.lh.Lists b
    · rw [LogHeader.absorb_of_lists listed]
      exact staged.small
    · rw [LogHeader.scan_of_not_lists listed] at inside
      rw [LogHeader.absorb_of_not_lists listed]
      exact inside
  distinct := staged.distinct.absorb b

/-- Changing the state of a running operation to another running state touches
none of the closed groups. -/
theorem Inv.ended_update {r : Recorded} (inv : Inv disk₀ r kept) {op : Nat} {logged : List Nat}
    {inLogWrite : Bool} (active : r.machine.ops op = .active logged inLogWrite) (state : OpState) :
    ∀ group ∈ r.history.groups, ∀ write ∈ group.writes,
      update r.machine.ops op state write.op = .ended := by
  intro group member write inGroup
  have isEnded := inv.ended group member write inGroup
  have same : write.op ≠ op := by
    rintro rfl
    rw [active] at isEnded
    exact absurd isEnded (by simp)
  rw [update_of_ne same]
  exact isEnded

theorem Inv.started_update {r : Recorded} (inv : Inv disk₀ r kept) (op : Nat) (state : OpState)
    (notLost : state ≠ .lost) (notIdle : state ≠ .idle) :
    ∀ write ∈ r.history.current, update r.machine.ops op state write.op ≠ .lost ∧
      update r.machine.ops op state write.op ≠ .idle := by
  intro write member
  by_cases same : write.op = op
  · rw [same, update_self]
    exact ⟨notLost, notIdle⟩
  · rw [update_of_ne same]
    exact inv.started write member

theorem Inv.logCheck {r : Recorded} {after : Machine} {op : Nat} (inv : Inv disk₀ r kept)
    (checked : r.machine.logCheck op = .ok after) : Inv disk₀ ⟨after, r.history⟩ kept := by
  obtain ⟨logged, active, -, -, rfl⟩ := logCheck_ok checked
  obtain ⟨here, idle, empty, staged⟩ := inv.running_of_active active
  exact ⟨inv.positive, inv.included, inv.recoverable, inv.cache, inv.counted.relog active rfl rfl,
    inv.started_update _ _ (by simp) (by simp), inv.ended_update active _,
    .running here idle empty (staged.congr rfl rfl rfl rfl)⟩

theorem Inv.logWrite {r : Recorded} {after : Machine} {op b : Nat} {data : Block}
    (inv : Inv disk₀ r kept) (written : r.machine.logWrite op b data = .ok after)
    (room : (blocks (r.history.current ++ [⟨op, b, data⟩])).card < r.machine.log.size) :
    Inv disk₀ ⟨after, { r.history with current := r.history.current ++ [⟨op, b, data⟩] }⟩ kept := by
  obtain ⟨logged, active, home, fits, inside, rfl⟩ := logWrite_ok written
  obtain ⟨here, idle, empty, staged⟩ := inv.running_of_active active
  refine ⟨inv.positive, inv.included, inv.recoverable.congr rfl rfl, ?_,
    inv.counted.relog active rfl rfl, ?_, inv.ended_update active _,
    .running here idle empty (staged.logWrite home fits inside room)⟩
  · intro other buf cached
    by_cases same : other = b
    · subst same
      simp only [update_self, Option.some.injEq] at cached
      subst cached
      exact Or.inr ⟨rfl, home⟩
    · simp only [update_of_ne same] at cached
      exact inv.cache other buf cached
  · intro write member
    rcases List.mem_append.mp member with old | new
    · exact inv.started_update _ _ (by simp) (by simp) write old
    · obtain rfl := List.mem_singleton.mp new
      simp

/-- The last `end_op` closes the group; nothing of it is on the disk yet. -/
theorem Inv.endOp {r : Recorded} {after : Machine} {op : Nat} (inv : Inv disk₀ r kept)
    (finished : r.machine.endOp op = .ok after) :
    Inv disk₀ ⟨after, r.history.next r.machine (.endOp op)⟩ kept := by
  obtain ⟨logged, active, -, result⟩ := endOp_ok finished
  obtain ⟨here, idle, empty, staged⟩ := inv.running_of_active active
  have keepsEnded := inv.ended_update active .ended
  have keepsStarted := inv.started_update op .ended (by simp) (by simp)
  rcases result with ⟨last, rfl⟩ | ⟨notLast, rfl⟩
  · simp only [History.next, if_pos last]
    have counted : Counted { r.machine with
        log := { r.machine.log with
          outstanding := r.machine.log.outstanding - 1, committing := true }
        ops := update r.machine.ops op .ended
        control := .commit } :=
      inv.counted.finish active rfl rfl
    refine ⟨inv.positive, .drop _ rfl inv.included, inv.recoverable.congr rfl rfl, inv.cache,
      counted, by simp, ?_, .commit rfl ⟨last, rfl⟩ rfl empty r.history.current r.history.groups
        rfl inv.included (staged.congr rfl rfl rfl rfl)⟩
    intro group member write inGroup
    rcases List.mem_cons.mp member with rfl | old
    · have started := keepsStarted write inGroup
      have notActive := counted.none_active last write.op
      change update r.machine.ops op .ended write.op = .ended
      cases state : update r.machine.ops op .ended write.op with
      | idle => exact absurd state started.2
      | active logged inLogWrite => exact absurd state (notActive logged inLogWrite)
      | ended => rfl
      | lost => exact absurd state started.1
    · exact keepsEnded group old write inGroup
  · simp only [History.next, if_neg notLast]
    exact ⟨inv.positive, inv.included, inv.recoverable.congr rfl rfl, inv.cache,
      inv.counted.finish active rfl rfl, keepsStarted, keepsEnded,
      .running here idle empty (staged.congr rfl rfl rfl rfl)⟩

end Events

/-! ## Steps of `recover_from_log` and `commit` -/

section Ticks

variable {disk₀ : Nat → Block} {kept : List (List Write)} {r : Recorded}

theorem Loaded.of_read {m : Machine} {control : Control} {target : Nat → Block}
    (recoverable : Recoverable m.log m.disk target) (clean : m.contents = m.disk) :
    Loaded { m.bread m.log.start with
      log := { m.log with lh := loadHead m.log.lh (m.contents m.log.start) }
      control := control } := by
  have small : headN (m.disk m.log.start) < 2 ^ 31 :=
    lt_of_le_of_lt recoverable.small (by decide)
  rw [clean]
  constructor
  · simp only [Machine.bread_disk]
    exact loadHead_n _ small
  · intro index below
    simp only [Machine.bread_disk] at below ⊢
    rw [loadHead_n _ small] at below
    exact loadHead_block _ small below

/-- A step that leaves the operations and the size of the log alone. -/
theorem Inv.goOn {after : Machine} {kept' : List (List Write)} (inv : Inv disk₀ r kept)
    (size : after.log.size = r.machine.log.size) (ops : after.ops = r.machine.ops)
    (outstanding : after.log.outstanding = r.machine.log.outstanding)
    (included : Included r.history.groups kept')
    (recoverable : Recoverable after.log after.disk (applyGroups disk₀ kept'))
    (cache : after.CacheOk) (phase : Phase disk₀ ⟨after, r.history⟩ kept') :
    Inv disk₀ ⟨after, r.history⟩ kept' := by
  refine ⟨?_, included, recoverable, cache, inv.counted.congr ops outstanding, ?_, ?_, phase⟩
  · rw [size]
    exact inv.positive
  · rw [ops]
    exact inv.started
  · rw [ops]
    exact inv.ended

/-- After the last block has been installed, the disk has what recovery would give. -/
theorem Inv.installed_all {tail : Nat} (inv : Inv disk₀ r kept) (loaded : Loaded r.machine)
    (installed : Installed r.machine (applyGroups disk₀ kept) tail)
    (all : ¬ tail < r.machine.log.lh.n) {b : Nat} (home : r.machine.log.IsHome b) :
    r.machine.disk b = applyGroups disk₀ kept b :=
  inv.recoverable.eq_of_installed loaded installed (Nat.le_of_not_lt all) home

theorem Inv.tick_readHead {after : Machine} (inv : Inv disk₀ r kept)
    (here : r.machine.control = .readHead) (ticked : r.machine.tick = .ok after) :
    Inv disk₀ ⟨after, r.history⟩ kept := by
  simp only [Machine.tick, here, Machine.bread_log, Machine.bread_contents] at ticked
  obtain rfl := Except.ok.inj ticked
  cases inv.phase with
  | readHead _ quiet idle clean _ =>
    refine inv.goOn rfl (by simp) rfl inv.included ?_ ?_
      (.recoverInstall 0 rfl ⟨quiet.1, quiet.2⟩ idle ?_ (Loaded.of_read inv.recoverable clean)
        fun _ _ done => absurd done (by omega))
    · rw [Machine.bread_disk]
      exact inv.recoverable.congr rfl rfl
    · have cached := inv.cache.bread r.machine.log.start
      intro b buf found
      have same := cached b buf found
      rw [Machine.bread_log] at same
      exact same
    · exact (Machine.bread_contents _ _).trans (by simpa using clean)
  | _ => simp_all

theorem Inv.tick_recoverInstall {after : Machine} {tail : Nat} (inv : Inv disk₀ r kept)
    (here : r.machine.control = .recoverInstall tail) (ticked : r.machine.tick = .ok after) :
    Inv disk₀ ⟨after, r.history⟩ kept := by
  simp only [Machine.tick, here] at ticked
  cases inv.phase with
  | recoverInstall place isHere quiet idle clean loaded installed =>
    obtain rfl : tail = place := by simpa using here.symm.trans isHere
    split_ifs at ticked with more
    · obtain rfl := Except.ok.inj ticked
      refine inv.goOn (by simp) (by simp) (by simp) inv.included ?_
        (inv.cache.installBlock tail)
        (.recoverInstall (tail + 1) rfl ⟨by simpa using quiet.1, quiet.2⟩ (by simpa using idle)
          ?_ ?_ ?_)
      · simpa using inv.recoverable.installBlock inv.positive loaded more
      · change (r.machine.installBlock tail).contents = (r.machine.installBlock tail).disk
        rw [Machine.installBlock_contents, Machine.installBlock_disk, clean]
      · have after := loaded.installBlock inv.positive inv.recoverable more
        exact ⟨after.1, after.2⟩
      · exact installed.installBlock inv.recoverable loaded inv.cache more
    · obtain rfl := Except.ok.inj ticked
      refine inv.goOn (by simp) (by simp) (by simp) inv.included
        (clearHead_recoverable inv.positive fun _ => inv.installed_all loaded installed more)
        (clearHead_cacheOk inv.cache)
        (.running rfl (by simpa using idle) (by simpa using clearHead_head r.machine) ?_)
      rw [quiet.current]
      refine ⟨fun b home => ?_, by simp [LogHeader.Lists], by simp,
        by simpa using inv.positive, by simp, by simp [LogHeader.Distinct]⟩
      have isHome : r.machine.log.IsHome b := by simpa [Log.IsHome] using home
      change r.machine.clearHead.contents b = _
      rw [clearHead_contents _ fun atStart =>
        Log.start_not_home inv.positive (atStart ▸ isHome), clean]
      exact inv.installed_all loaded installed more isHome
  | _ => simp_all

theorem Inv.tick_commit {after : Machine} (inv : Inv disk₀ r kept)
    (here : r.machine.control = .commit) (ticked : r.machine.tick = .ok after) :
    ∃ kept', Inv disk₀ ⟨after, r.history⟩ kept' := by
  simp only [Machine.tick, here] at ticked
  cases inv.phase with
  | commit _ quiet busy empty writes groups closed before staged =>
    split_ifs at ticked with some
    · obtain rfl := Except.ok.inj ticked
      exact ⟨kept, inv.goOn rfl rfl rfl inv.included inv.recoverable inv.cache
        (.writeLog 0 rfl ⟨quiet.1, quiet.2⟩ busy empty writes groups closed before
          (staged.congr rfl rfl rfl rfl) fun _ _ done => absurd done (by omega))⟩
    · obtain rfl := Except.ok.inj ticked
      -- With nothing logged the group is empty, so keeping it changes nothing.
      have none : writes = [] := by
        cases writes with
        | nil => rfl
        | cons write rest =>
          obtain ⟨index, below, -⟩ := (staged.lists write.block).mpr ⟨write, by simp, rfl⟩
          omega
      subst none
      refine ⟨[] :: kept, inv.goOn rfl rfl rfl ?_ ?_ inv.cache
        (.returned rfl ⟨quiet.1, quiet.2⟩ busy empty (by simpa using some) [] groups kept closed
          rfl before ?_)⟩
      · rw [closed]
        exact .keep _ before
      · simpa using inv.recoverable
      · intro b home
        rw [applyGroups_cons]
        exact staged.contents b home
  | _ => simp_all

theorem Inv.tick_writeLog {after : Machine} {tail : Nat} (inv : Inv disk₀ r kept)
    (here : r.machine.control = .writeLog tail) (ticked : r.machine.tick = .ok after) :
    ∃ kept', Inv disk₀ ⟨after, r.history⟩ kept' := by
  simp only [Machine.tick, here] at ticked
  cases inv.phase with
  | writeLog place isHere quiet busy empty writes groups closed before staged copied =>
    obtain rfl : tail = place := by simpa using here.symm.trans isHere
    have room := staged.room
    split_ifs at ticked with more
    · obtain rfl := Except.ok.inj ticked
      have slot : ¬ r.machine.log.IsHome (r.machine.log.start + tail + 1) :=
        Log.slot_not_home (by omega)
      have apart : ∀ b, r.machine.log.IsHome b → b ≠ r.machine.log.start + tail + 1 :=
        fun b home same => slot (same ▸ home)
      have head : (r.machine.writeLogBlock tail).disk r.machine.log.start =
          r.machine.disk r.machine.log.start := by
        rw [Machine.writeLogBlock_disk, update_of_ne (by omega)]
      refine ⟨kept, inv.goOn (by simp) (by simp) (by simp) inv.included ?_
        (inv.cache.writeLogBlock tail)
        (.writeLog (tail + 1) rfl ⟨by simpa using quiet.1, quiet.2⟩ (by simpa using busy) ?_
          writes groups closed before ?_ ?_)⟩
      · refine Recoverable.of_empty (by simpa using inv.positive) (by simp [head, empty]) ?_
        intro b home
        simp only [Machine.writeLogBlock_log] at home
        simp only [Machine.writeLogBlock_disk, update_of_ne (apart b home)]
        exact inv.recoverable.eq_of_empty empty home
      · simp [head, empty]
      · refine ⟨fun b home => ?_, by simpa using staged.lists, by simpa using staged.home,
          by simpa using staged.room, by simpa using staged.small, by simpa using staged.distinct⟩
        simp only [Machine.writeLogBlock_log] at home
        change (r.machine.writeLogBlock tail).contents b = _
        rw [Machine.writeLogBlock_contents, update_of_ne (apart b home)]
        exact staged.contents b home
      · intro index below done
        simp only [Machine.writeLogBlock_log] at below ⊢
        have listed : r.machine.log.IsHome (r.machine.log.lh.block index) := by
          obtain ⟨write, member, same⟩ := (staged.lists _).mp ⟨index, below, rfl⟩
          exact same ▸ (staged.home write member).1
        change (r.machine.writeLogBlock tail).disk _ = (r.machine.writeLogBlock tail).contents _
        rw [Machine.writeLogBlock_contents, Machine.writeLogBlock_disk,
          update_of_ne (apart _ listed)]
        by_cases last : index = tail
        · subst last
          simp
        · rw [update_of_ne (by omega)]
          exact copied index below (by omega)
    · obtain rfl := Except.ok.inj ticked
      -- The commit point: from this write on, recovery finds the whole group.
      have small : r.machine.log.lh.n < 2 ^ 32 := lt_of_le_of_lt staged.small (by decide)
      have fits : ∀ index < r.machine.log.lh.n, r.machine.log.lh.block index < 2 ^ 32 ∧
          r.machine.log.IsHome (r.machine.log.lh.block index) := by
        intro index below
        obtain ⟨write, member, same⟩ := (staged.lists _).mp ⟨index, below, rfl⟩
        rw [← same]
        exact ⟨(staged.home write member).2, (staged.home write member).1⟩
      have head : r.machine.writeHead.disk r.machine.log.start =
          storeHead r.machine.log.lh (r.machine.contents r.machine.log.start) := by simp
      have count : headN (r.machine.writeHead.disk r.machine.log.start) =
          r.machine.log.lh.n := by rw [head]; exact headN_storeHead _ _ small
      have block : ∀ index < r.machine.log.lh.n,
          headBlock (r.machine.writeHead.disk r.machine.log.start) index =
            r.machine.log.lh.block index := by
        intro index below
        rw [head]
        exact headBlock_storeHead _ _ below (fits index below).1
      have elsewhere : ∀ b, b ≠ r.machine.log.start →
          r.machine.writeHead.disk b = r.machine.disk b := fun b other => by
        rw [Machine.writeHead_disk, update_of_ne other]
      have notStart : ∀ b, r.machine.log.IsHome b → b ≠ r.machine.log.start :=
        fun b home atStart => Log.start_not_home inv.positive (atStart ▸ home)
      refine ⟨writes :: kept, inv.goOn (by simp) (by simp) (by simp) ?_ ?_ inv.cache.writeHead
        (.install 0 rfl ⟨by simpa using quiet.1, quiet.2⟩ (by simpa using busy) writes groups kept
          closed rfl before ⟨?_, ?_⟩ (fun _ _ done => absurd done (by omega)) ?_)⟩
      · rw [closed]
        exact .keep _ before
      · simp only [Machine.writeHead_log]
        refine ⟨by omega, by rw [count]; exact staged.small, ?_, ?_, ?_⟩
        · rw [count]
          intro index below
          rw [block index below]
          exact (fits index below).2
        · rw [count]
          intro index below
          rw [block index below, elsewhere _ (by omega), copied index below (by omega),
            staged.contents _ (fits index below).2, applyGroups_cons]
        · rw [count]
          intro b home notListed
          rw [elsewhere b (notStart b home), inv.recoverable.eq_of_empty empty home,
            applyGroups_cons, applyWrites_other]
          intro write member same
          obtain ⟨index, below, isBlock⟩ := (staged.lists b).mpr ⟨write, member, same⟩
          exact notListed index below (by rw [block index below, isBlock])
      · simp only [Machine.writeHead_log]
        exact count.symm
      · intro index below
        simp only [Machine.writeHead_log] at below ⊢
        exact (block index below).symm
      · intro b home
        simp only [Machine.writeHead_log] at home
        change r.machine.writeHead.contents b = _
        rw [Machine.writeHead_contents, update_of_ne (notStart b home),
          staged.contents b home, applyGroups_cons]
  | _ => simp_all

theorem Inv.tick_install {after : Machine} {tail : Nat} (inv : Inv disk₀ r kept)
    (here : r.machine.control = .install tail) (ticked : r.machine.tick = .ok after) :
    Inv disk₀ ⟨after, r.history⟩ kept := by
  simp only [Machine.tick, here] at ticked
  cases inv.phase with
  | install place isHere quiet busy writes groups keptBefore closed now before loaded installed
      contents =>
      obtain rfl : tail = place := by simpa using here.symm.trans isHere
      split_ifs at ticked with more
      · obtain rfl := Except.ok.inj ticked
        refine inv.goOn (by simp) (by simp) (by simp) inv.included ?_
          (inv.cache.installBlock tail)
          (.install (tail + 1) rfl ⟨by simpa using quiet.1, quiet.2⟩ (by simpa using busy) writes
            groups keptBefore closed now before ?_ ?_ ?_)
        · simpa using inv.recoverable.installBlock inv.positive loaded more
        · have after := loaded.installBlock inv.positive inv.recoverable more
          exact ⟨after.1, after.2⟩
        · exact installed.installBlock inv.recoverable loaded inv.cache more
        · intro b home
          simp only [Machine.installBlock_log] at home
          change (r.machine.installBlock tail).contents b = _
          rw [Machine.installBlock_contents,
            inv.recoverable.slot_contents loaded inv.cache more]
          by_cases same : b = r.machine.log.lh.block tail
          · rw [same, update_self]
          · rw [update_of_ne same]
            exact contents b home
      · obtain rfl := Except.ok.inj ticked
        refine inv.goOn (by simp) (by simp) (by simp) inv.included
          (clearHead_recoverable inv.positive fun _ => inv.installed_all loaded installed more)
          (clearHead_cacheOk inv.cache)
          (.returned rfl ⟨by simpa using quiet.1, quiet.2⟩ (by simpa using busy)
            (by simpa using clearHead_head r.machine) (by simp) writes groups keptBefore closed
            now before ?_)
        intro b home
        have isHome : r.machine.log.IsHome b := by simpa [Log.IsHome] using home
        change r.machine.clearHead.contents b = _
        rw [clearHead_contents _ fun atStart =>
          Log.start_not_home inv.positive (atStart ▸ isHome)]
        exact contents b isHome
  | _ => simp_all

/-- The return of `commit()`: the group is on the disk and stays there. -/
theorem Inv.tick_returned {after : Machine} (inv : Inv disk₀ r kept)
    (here : r.machine.control = .returned) (ticked : r.machine.tick = .ok after) :
    Inv disk₀ ⟨after, { r.history with groups := markReturned r.history.groups }⟩ kept := by
  simp only [Machine.tick, here] at ticked
  obtain rfl := Except.ok.inj ticked
  cases inv.phase with
  | returned _ quiet busy empty cleared writes groups keptBefore closed now before contents =>
    have ended := inv.ended
    rw [closed] at ended
    refine ⟨inv.positive, ?_, inv.recoverable.congr rfl rfl, inv.cache, inv.counted, inv.started,
      ?_, .running rfl rfl empty ?_⟩
    · rw [closed, now]
      exact .keep _ before
    · rw [closed]
      intro group member write inGroup
      rcases List.mem_cons.mp member with rfl | old
      · exact ended ⟨writes, false⟩ (by simp) write inGroup
      · exact ended group (by simp [old]) write inGroup
    · rw [quiet.current]
      exact ⟨contents, by simp [LogHeader.Lists, cleared], by simp,
        by simpa [cleared] using inv.positive, by simp [cleared],
        by simp [LogHeader.Distinct, cleared]⟩
  | _ => simp_all

/-- The open group of the state after the event has at most as many distinct
blocks as the log region has data blocks. -/
def GroupFits (size : Nat) (r : Recorded) (event : Event) : Prop :=
  (blocks (r.history.next r.machine event).current).card ≤ size - 1

instance (size : Nat) (r : Recorded) (event : Event) : Decidable (GroupFits size r event) := by
  unfold GroupFits
  infer_instance

theorem Inv.step {after : Recorded} {event : Event} (inv : Inv disk₀ r kept)
    (fits : GroupFits r.machine.log.size r event) (stepped : r.step event = .ok after) :
    ∃ kept', Inv disk₀ after kept' := by
  obtain ⟨machineStep, history⟩ := Recorded.step_ok stepped
  obtain ⟨machine, next⟩ := after
  subst history
  cases event with
  | beginOp op => exact ⟨kept, inv.beginOp machineStep⟩
  | logCheck op => exact ⟨kept, inv.logCheck machineStep⟩
  | logWrite op b data =>
    have positive := inv.positive
    exact ⟨kept, inv.logWrite machineStep (lt_of_le_of_lt fits (by omega))⟩
  | endOp op => exact ⟨kept, inv.endOp machineStep⟩
  | evict b => exact ⟨kept, inv.evict machineStep⟩
  | crash =>
    obtain rfl := Except.ok.inj machineStep
    exact ⟨kept, inv.crash⟩
  | tick =>
    change r.machine.tick = .ok machine at machineStep
    cases here : r.machine.control with
    | running => simp [Machine.tick, here] at machineStep
    | readHead =>
      simp only [History.next, here]
      exact ⟨kept, inv.tick_readHead here machineStep⟩
    | recoverInstall tail =>
      simp only [History.next, here]
      exact ⟨kept, inv.tick_recoverInstall here machineStep⟩
    | commit =>
      simp only [History.next, here]
      exact inv.tick_commit here machineStep
    | writeLog tail =>
      simp only [History.next, here]
      exact inv.tick_writeLog here machineStep
    | install tail =>
      simp only [History.next, here]
      exact ⟨kept, inv.tick_install here machineStep⟩
    | returned =>
      simp only [History.next, here]
      exact ⟨kept, inv.tick_returned here machineStep⟩

end Ticks

/-! ## Whole runs -/

section Runs

variable {disk₀ : Nat → Block} {kept : List (List Write)} {r : Recorded} {start size : Nat}

/-- A formatted disk with an empty log starts in the invariant. -/
theorem Inv.powerOn (positive : 0 < size) (formatted : headN (disk₀ start) = 0) :
    Inv disk₀ (powerOn start size disk₀) [] where
  positive := positive
  included := .nil
  recoverable := Recoverable.of_empty positive formatted fun _ _ => rfl
  cache := fun b buf cached => by simp [Logging.powerOn, boot] at cached
  counted := ⟨[], by simp, by simp [Logging.powerOn, boot], rfl⟩
  started := by simp [Logging.powerOn]
  ended := by simp [Logging.powerOn]
  phase := .readHead rfl ⟨rfl, rfl⟩ rfl rfl rfl

def Region (start size : Nat) (m : Machine) : Prop := m.log.start = start ∧ m.log.size = size

theorem Region.tick {m after : Machine} (region : Region start size m)
    (ticked : m.tick = .ok after) : Region start size after := by
  obtain ⟨rfl, rfl⟩ := region
  unfold Machine.tick at ticked
  split at ticked <;> try split at ticked
  all_goals cases ticked <;> simp [Region]

theorem Region.step {m after : Machine} {event : Event} (region : Region start size m)
    (stepped : Logging.step m event = .ok after) : Region start size after := by
  cases event with
  | beginOp op =>
    obtain ⟨-, -, -, -, rfl⟩ := beginOp_ok stepped
    exact region
  | logWrite op b data =>
    obtain ⟨_, -, -, -, -, rfl⟩ := logWrite_ok stepped
    exact region
  | logCheck op =>
    obtain ⟨_, -, -, -, rfl⟩ := logCheck_ok stepped
    exact region
  | endOp op =>
    obtain ⟨_, -, -, ⟨-, rfl⟩ | ⟨-, rfl⟩⟩ := endOp_ok stepped
    · exact region
    · exact region
  | evict b =>
    simp only [Logging.step, Machine.evict] at stepped
    split at stepped <;> try split at stepped
    all_goals cases stepped <;> exact region
  | crash =>
    obtain rfl := Except.ok.inj stepped
    exact region
  | tick => exact region.tick stepped

theorem Region.run {after : Recorded} {events : List Event} (region : Region start size r.machine)
    (run : r.run events = .ok after) : Region start size after.machine :=
  Execution.foldlM_keeps (fun state => Region start size state.machine)
    (fun _ _ _ holds stepped => holds.step (Recorded.step_ok stepped).1) events region run

/-- Every run whose groups fit the log region keeps the invariant. -/
theorem Inv.run {after : Recorded} {events : List Event} (inv : Inv disk₀ r kept)
    (region : Region start size r.machine) (fits : Along Recorded.step (GroupFits size) r events)
    (run : r.run events = .ok after) : ∃ kept', Inv disk₀ after kept' := by
  refine (Execution.foldlM_invariant (GroupFits size)
    (fun state => Region start size state.machine ∧ ∃ kept', Inv disk₀ state kept')
    ?_ events fits ⟨region, kept, inv⟩ run).2
  rintro before event next groupFits ⟨isRegion, kept', now⟩ stepped
  exact ⟨isRegion.step (Recorded.step_ok stepped).1,
    now.step (by rw [isRegion.2]; exact groupFits) stepped⟩

/-! ## Recovery -/

/-- What happens between power-on and the first FS operation. -/
def Event.OfRecovery : Event → Prop
  | .tick => True
  | .evict _ => True
  | _ => False

/-- Recovery finds the same groups however far it gets. -/
theorem Inv.recovery {after : Recorded} {events : List Event} (inv : Inv disk₀ r kept)
    (booted : r.machine.control = .readHead) (only : ∀ event ∈ events, event.OfRecovery)
    (run : r.run events = .ok after) : Inv disk₀ after kept := by
  refine (Execution.foldlM_invariant (fun _ event => event.OfRecovery)
    (fun state : Recorded => Inv disk₀ state kept ∧
      (state.machine.control.recovering = true ∨ state.machine.control = .running))
    ?_ events (Along.of_forall events (fun event member _ => only event member) _)
    ⟨inv, by simp [booted, Control.recovering]⟩ run).1
  rintro before event next allowed ⟨inv, place⟩ stepped
  obtain ⟨machineStep, history⟩ := Recorded.step_ok stepped
  obtain ⟨machine, record⟩ := next
  subst history
  cases event with
  | evict b =>
    obtain ⟨same, -⟩ := evict_ok inv.cache machineStep
    refine ⟨inv.evict machineStep, ?_⟩
    subst same
    exact place
  | tick =>
    change before.machine.tick = .ok machine at machineStep
    cases here : before.machine.control with
    | readHead =>
      simp only [History.next, here]
      refine ⟨inv.tick_readHead here machineStep, ?_⟩
      simp only [Machine.tick, here] at machineStep
      cases machineStep
      exact .inl rfl
    | recoverInstall tail =>
      simp only [History.next, here]
      refine ⟨inv.tick_recoverInstall here machineStep, ?_⟩
      simp only [Machine.tick, here] at machineStep
      split at machineStep
      · cases machineStep
        exact .inl rfl
      · cases machineStep
        exact .inr rfl
    | running => simp [Machine.tick, here] at machineStep
    | _ => simp [here, Control.recovering] at place
  | _ => exact absurd allowed (by simp [Event.OfRecovery])

/-- `install_trans` and the final `write_head` end after as many block writes
as the header lists, plus one. -/
theorem recoverInstall_terminates : ∀ (remaining tail : Nat) {r : Recorded},
    r.machine.control = .recoverInstall tail → r.machine.log.lh.n ≤ tail + remaining →
      ∃ ticks after, r.run (List.replicate ticks .tick) = .ok after ∧
        after.machine.control = .running
  | remaining, tail, r, here, enough => by
      by_cases more : tail < r.machine.log.lh.n
      · cases remaining with
        | zero => omega
        | succ remaining =>
          obtain ⟨ticks, after, run, done⟩ := recoverInstall_terminates remaining (tail + 1)
            (r := ⟨{ r.machine.installBlock tail with control := .recoverInstall (tail + 1) },
              r.history⟩) rfl (by simp; omega)
          refine ⟨ticks + 1, after, ?_, done⟩
          rw [Recorded.run, List.replicate_succ, List.foldlM_cons]
          simp only [Recorded.step, Logging.step, Machine.tick, here, if_pos more, History.next]
          exact run
      · refine ⟨1, ⟨{ r.machine.clearHead with control := .running }, r.history⟩, ?_, rfl⟩
        simp [Recorded.run, Recorded.step, Logging.step, Machine.tick, here, more, History.next]

theorem recovery_terminates (booted : r.machine.control = .readHead) :
    ∃ ticks after, r.run (List.replicate ticks .tick) = .ok after ∧
      after.machine.control = .running := by
  cases read : r.step .tick with
  | error stop => simp [Recorded.step, Logging.step, Machine.tick, booted] at read
  | ok middle =>
    have installs : middle.machine.control = .recoverInstall 0 := by
      have ticked := (Recorded.step_ok read).1
      simp only [Logging.step, Machine.tick, booted] at ticked
      rw [← Except.ok.inj ticked]
    obtain ⟨ticks, after, run, done⟩ :=
      recoverInstall_terminates middle.machine.log.lh.n 0 installs (by simp)
    refine ⟨ticks + 1, after, ?_, done⟩
    rw [Recorded.run, List.replicate_succ, List.foldlM_cons, read]
    exact run

/-- Crash atomicity. Take any run from a formatted disk whose groups fit the
log region, with any number of crashes in it, cut the power once more after its
last event, and let recovery run. It terminates, and wherever it ends every home
block is as some whole groups left it: all those whose `commit()` returned,
possibly the one that was committing, and only writes of operations that had
called `end_op`. -/
theorem crash_atomicity (positive : 0 < size) (formatted : headN (disk₀ start) = 0)
    (events : List Event)
    (fits : Along Recorded.step (GroupFits size) (powerOn start size disk₀) events)
    (run : (powerOn start size disk₀).run events = .ok r) :
    ∃ kept, Included r.history.groups kept ∧
      (∀ writes ∈ kept, ∀ write ∈ writes, r.machine.ops write.op = .ended) ∧
      (∀ (recovery : List Event) (after : Recorded), (∀ event ∈ recovery, event.OfRecovery) →
        r.run (.crash :: recovery) = .ok after → after.machine.control = .running →
        ∀ b, b < start ∨ start + size ≤ b → after.machine.disk b = applyGroups disk₀ kept b) ∧
      ∃ ticks after, r.run (.crash :: List.replicate ticks .tick) = .ok after ∧
        after.machine.control = .running := by
  obtain ⟨kept, inv⟩ := (Inv.powerOn positive formatted).run ⟨rfl, rfl⟩ fits run
  refine ⟨kept, inv.included, ?_, ?_, ?_⟩
  · intro writes member write inWrites
    obtain ⟨group, isGroup, same⟩ := inv.included.mem member
    exact inv.ended group isGroup write (same ▸ inWrites)
  · intro recovery after only recovered done b home
    have region : Region start size after.machine :=
      Region.run (Region.run (r := powerOn start size disk₀) ⟨rfl, rfl⟩ run) recovered
    obtain ⟨middle, crashed, recoveryRun⟩ := Execution.foldlM_cons_ok recovered
    obtain rfl := Except.ok.inj crashed
    have recoveredInv := inv.crash.recovery rfl only recoveryRun
    cases recoveredInv.phase with
    | running _ _ empty _ =>
      refine recoveredInv.recoverable.eq_of_empty empty ?_
      simpa only [Log.IsHome, region.1, region.2] using home
    | _ => simp_all
  · obtain ⟨ticks, after, recoveryRun, done⟩ :=
      recovery_terminates (r := ⟨r.machine.crash, { r.history with current := [] }⟩) rfl
    exact ⟨ticks, after, recoveryRun, done⟩

/-- One operation that is cut off right after the commit point. -/
def committedTrace : List Event :=
  [.tick, .tick, .beginOp 0, .logCheck 0, .logWrite 0 100 fun _ => 7, .endOp 0, .tick, .tick,
    .tick]

theorem crash_atomicity_committedTrace :
    ∃ r, (powerOn 2 nlog fun _ _ => 0).run committedTrace = .ok r ∧
      ∃ kept, Included r.history.groups kept ∧
      (∀ writes ∈ kept, ∀ write ∈ writes, r.machine.ops write.op = .ended) ∧
      (∀ (recovery : List Event) (after : Recorded), (∀ event ∈ recovery, event.OfRecovery) →
        r.run (.crash :: recovery) = .ok after → after.machine.control = .running →
        ∀ b, b < 2 ∨ 2 + nlog ≤ b →
          after.machine.disk b = applyGroups (fun _ _ => 0) kept b) ∧
      ∃ ticks after, r.run (.crash :: List.replicate ticks .tick) = .ok after ∧
        after.machine.control = .running := by
  have ran : ∃ r, (powerOn 2 nlog fun _ _ => 0).run committedTrace = .ok r := ⟨_, rfl⟩
  obtain ⟨r, run⟩ := ran
  exact ⟨r, run, crash_atomicity (by decide) rfl committedTrace (by decide) run⟩

/-- With an empty header the home blocks on the disk are as whole groups left them; it is empty
while operations run, and the cache has the open group on top. -/
theorem cache_over_committed (positive : 0 < size) (formatted : headN (disk₀ start) = 0)
    (events : List Event)
    (fits : Along Recorded.step (GroupFits size) (powerOn start size disk₀) events)
    (run : (powerOn start size disk₀).run events = .ok r) :
    ∃ kept, Included r.history.groups kept ∧ ∀ b, b < start ∨ start + size ≤ b →
      (headN (r.machine.disk start) = 0 → r.machine.disk b = applyGroups disk₀ kept b) ∧
      (r.machine.control = .running → headN (r.machine.disk start) = 0 ∧
        r.machine.contents b = applyWrites (applyGroups disk₀ kept) r.history.current b) := by
  obtain ⟨kept, inv⟩ := (Inv.powerOn positive formatted).run ⟨rfl, rfl⟩ fits run
  obtain ⟨rfl, rfl⟩ := Region.run (r := powerOn ..) ⟨rfl, rfl⟩ run
  refine ⟨kept, inv.included, fun b home =>
    ⟨fun empty => inv.recoverable.eq_of_empty empty home, fun running => ?_⟩⟩
  cases inv.phase with
  | running _ _ empty staged => exact ⟨empty, staged.contents b home⟩
  | _ => simp_all

theorem cache_over_committed_open :
    ∃ r, (powerOn 2 nlog fun _ _ => 0).run (committedTrace.take 5) = .ok r ∧
      headN (r.machine.disk 2) = 0 := by
  have run : (powerOn 2 nlog fun _ _ => 0).run (committedTrace.take 5) = .ok _ := rfl
  obtain ⟨kept, -, view⟩ := cache_over_committed (by decide) rfl _ (by decide) run
  exact ⟨_, run, ((view 100 (by decide)).2 rfl).1⟩

end Runs

end Rexv6.Logging
