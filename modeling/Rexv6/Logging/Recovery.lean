import Rexv6.Logging.Buffers

/-!
Contract: which disks `recover_from_log` repairs, and to what.

Owns: `Recoverable`, the disk invariant that every write of `commit` and of
`recover_from_log` keeps, and the two facts shared by both callers of
`install_trans`: one installed block keeps it, and clearing the header after
the last one leaves exactly the target.

Does not own: which target is right after which history; that is
`CrashAtomicity`.
-/

namespace Rexv6.Logging

/-- Running `recover_from_log` on `disk` gives the home blocks of `target`: the
header lists home blocks, the log holds their target data, and every home block
that is not listed already has its target data. -/
structure Recoverable (log : Log) (disk target : Nat → Block) : Prop where
  room : headN (disk log.start) < log.size
  small : headN (disk log.start) ≤ logSize
  home : ∀ index < headN (disk log.start), log.IsHome (headBlock (disk log.start) index)
  logged : ∀ index < headN (disk log.start),
    disk (log.start + index + 1) = target (headBlock (disk log.start) index)
  rest : ∀ b, log.IsHome b → (∀ index < headN (disk log.start),
    headBlock (disk log.start) index ≠ b) → disk b = target b

theorem Log.start_not_home {log : Log} (positive : 0 < log.size) : ¬ log.IsHome log.start := by
  unfold Log.IsHome
  omega

theorem Log.slot_not_home {log : Log} {index : Nat} (below : index + 1 < log.size) :
    ¬ log.IsHome (log.start + index + 1) := by
  unfold Log.IsHome
  omega

/-- With an empty header the home blocks are the target already. -/
theorem Recoverable.of_empty {log : Log} {disk target : Nat → Block} (positive : 0 < log.size)
    (empty : headN (disk log.start) = 0)
    (same : ∀ b, log.IsHome b → disk b = target b) : Recoverable log disk target where
  room := by omega
  small := by omega
  home := fun index below => absurd below (by omega)
  logged := fun index below => absurd below (by omega)
  rest := fun b home _ => same b home

theorem Recoverable.eq_of_empty {log : Log} {disk target : Nat → Block}
    (recoverable : Recoverable log disk target) (empty : headN (disk log.start) = 0) {b : Nat}
    (home : log.IsHome b) : disk b = target b :=
  recoverable.rest b home fun index below => absurd below (by omega)

/-- A header in memory that agrees with the header block. -/
structure Loaded (m : Machine) : Prop where
  count : m.log.lh.n = headN (m.disk m.log.start)
  block : ∀ index < m.log.lh.n, m.log.lh.block index = headBlock (m.disk m.log.start) index

/-- The first `tail` turns of `install_trans` are done. -/
def Installed (m : Machine) (target : Nat → Block) (tail : Nat) : Prop :=
  ∀ index < m.log.lh.n, index < tail →
    m.disk (m.log.lh.block index) = target (m.log.lh.block index)

section Install

variable {m : Machine} {target : Nat → Block} {tail : Nat}

theorem Recoverable.block_home (recoverable : Recoverable m.log m.disk target)
    (loaded : Loaded m) {index : Nat} (below : index < m.log.lh.n) :
    m.log.IsHome (m.log.lh.block index) := by
  rw [loaded.block index below]
  exact recoverable.home index (loaded.count ▸ below)

/-- The block that `install_trans` reads for a listed block is its target. -/
theorem Recoverable.slot_contents (recoverable : Recoverable m.log m.disk target)
    (loaded : Loaded m) (ok : m.CacheOk) (below : tail < m.log.lh.n) :
    m.contents (m.log.start + tail + 1) = target (m.log.lh.block tail) := by
  have room := recoverable.room
  have count := loaded.count
  rw [ok.contents_of_not_home (Log.slot_not_home (by omega)), loaded.block tail below]
  exact recoverable.logged tail (by omega)

theorem installBlock_head (positive : 0 < m.log.size)
    (recoverable : Recoverable m.log m.disk target) (loaded : Loaded m)
    (below : tail < m.log.lh.n) :
    (m.installBlock tail).disk m.log.start = m.disk m.log.start := by
  rw [Machine.installBlock_disk, Function.update_of_ne]
  intro same
  exact Log.start_not_home positive (same ▸ recoverable.block_home loaded below)

theorem Loaded.installBlock (loaded : Loaded m) (positive : 0 < m.log.size)
    (recoverable : Recoverable m.log m.disk target) (below : tail < m.log.lh.n) :
    Loaded (m.installBlock tail) := by
  have head := installBlock_head positive recoverable loaded below
  constructor
  · rw [Machine.installBlock_log, head]
    exact loaded.count
  · intro index indexBelow
    rw [Machine.installBlock_log] at indexBelow ⊢
    rw [head]
    exact loaded.block index indexBelow

theorem Recoverable.installBlock (recoverable : Recoverable m.log m.disk target)
    (positive : 0 < m.log.size) (loaded : Loaded m) (below : tail < m.log.lh.n) :
    Recoverable m.log (m.installBlock tail).disk target := by
  have head := installBlock_head positive recoverable loaded below
  refine ⟨?_, ?_, ?_, ?_, ?_⟩
  · rw [head]; exact recoverable.room
  · rw [head]; exact recoverable.small
  · rw [head]; exact recoverable.home
  · rw [head]
    intro index indexBelow
    have room := recoverable.room
    rw [Machine.installBlock_disk, Function.update_of_ne]
    · exact recoverable.logged index indexBelow
    · intro same
      exact Log.slot_not_home (by omega) (same ▸ recoverable.block_home loaded below)
  · rw [head]
    intro b home notListed
    rw [Machine.installBlock_disk, Function.update_of_ne]
    · exact recoverable.rest b home notListed
    · intro same
      exact notListed tail (loaded.count ▸ below) (by rw [← loaded.block tail below, same])

theorem Installed.installBlock (installed : Installed m target tail)
    (recoverable : Recoverable m.log m.disk target) (loaded : Loaded m) (ok : m.CacheOk)
    (below : tail < m.log.lh.n) : Installed (m.installBlock tail) target (tail + 1) := by
  intro index indexBelow indexDone
  rw [Machine.installBlock_log] at indexBelow
  rw [Machine.installBlock_log, Machine.installBlock_disk,
    recoverable.slot_contents loaded ok below]
  by_cases same : m.log.lh.block index = m.log.lh.block tail
  · rw [same, Function.update_self]
  · rw [Function.update_of_ne same]
    by_cases last : index = tail
    · exact absurd (by rw [last]) same
    · exact installed index indexBelow (by omega)

/-- Once every listed block is installed, the home blocks are the target. -/
theorem Recoverable.eq_of_installed (recoverable : Recoverable m.log m.disk target)
    (loaded : Loaded m) (installed : Installed m target tail) (done : m.log.lh.n ≤ tail)
    {b : Nat} (home : m.log.IsHome b) : m.disk b = target b := by
  by_cases listed : ∃ index < m.log.lh.n, m.log.lh.block index = b
  · obtain ⟨index, below, rfl⟩ := listed
    exact installed index below (by omega)
  · refine recoverable.rest b home fun index below same => listed ⟨index, ?_, ?_⟩
    · rw [loaded.count]; exact below
    · rw [loaded.block index (by rw [loaded.count]; exact below)]; exact same

end Install

@[simp] theorem clearHead_log (m : Machine) :
    m.clearHead.log = { m.log with lh := { m.log.lh with n := 0 } } := by
  simp [Machine.clearHead]

@[simp] theorem clearHead_ops (m : Machine) : m.clearHead.ops = m.ops := by
  simp [Machine.clearHead]

theorem clearHead_contents (m : Machine) {b : Nat} (other : b ≠ m.log.start) :
    m.clearHead.contents b = m.contents b := by
  rw [Machine.clearHead, Machine.writeHead_contents]
  exact Function.update_of_ne other _ _

theorem clearHead_disk (m : Machine) {b : Nat} (other : b ≠ m.log.start) :
    m.clearHead.disk b = m.disk b := by
  rw [Machine.clearHead, Machine.writeHead_disk]
  exact Function.update_of_ne other _ _

theorem clearHead_head (m : Machine) : headN (m.clearHead.disk m.log.start) = 0 := by
  rw [Machine.clearHead, Machine.writeHead_disk]
  simp only [Function.update_self]
  exact headN_storeHead _ _ (by simp)

theorem clearHead_cacheOk {m : Machine} (ok : m.CacheOk) : m.clearHead.CacheOk := by
  have cleared : Machine.CacheOk
      { m with log := { m.log with lh := { m.log.lh with n := 0 } } } := ok
  exact cleared.writeHead

/-- Clearing the header of a disk whose home blocks are the target keeps it
recoverable to the target. -/
theorem clearHead_recoverable {m : Machine} {target : Nat → Block} (positive : 0 < m.log.size)
    (same : ∀ b, m.log.IsHome b → m.disk b = target b) :
    Recoverable m.clearHead.log m.clearHead.disk target := by
  refine Recoverable.of_empty (by simpa using positive) (by simpa using clearHead_head m) ?_
  intro b home
  have isHome : m.log.IsHome b := by simpa [Log.IsHome] using home
  rw [clearHead_disk m fun atStart => Log.start_not_home positive (atStart ▸ isHome)]
  exact same b isHome

end Rexv6.Logging
