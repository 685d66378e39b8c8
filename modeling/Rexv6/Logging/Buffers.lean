import Rexv6.Logging.Machine

/-!
Contract: what each building block of the log does to the disk, to the data
`bread` returns, and to the header block.

Owns: the header codec laws, the read and write laws of the cached disk, the
effect of one turn of each loop of `commit` and `recover_from_log`, the
buffer invariant these keep, and log absorption.

Does not own: which of these steps happen in which order.
-/

namespace Rexv6.Logging

open Rexv6.Foundation.LittleEndian
open Function (update update_eq_self update_of_ne update_self)

/-! ## Header codec -/

theorem headN_storeBlocks (lh : LogHeader) (data : Block) :
    ∀ count, headN (storeBlocks lh count data) = headN data
  | 0 => rfl
  | count + 1 => by
      simp only [storeBlocks, headN]
      rw [getLe_setLe_disjoint _ (by omega)]
      exact headN_storeBlocks lh data count

theorem headN_storeHead (lh : LogHeader) (data : Block) (fits : lh.n < 2 ^ 32) :
    headN (storeHead lh data) = lh.n := by
  rw [storeHead, headN_storeBlocks]
  exact getLe_setLe_of_lt data (by simpa using fits)

theorem headBlock_storeBlocks (lh : LogHeader) (data : Block) {index : Nat}
    (fits : lh.block index < 2 ^ 32) :
    ∀ count, index < count → headBlock (storeBlocks lh count data) index = lh.block index
  | 0, below => absurd below (by omega)
  | count + 1, below => by
      simp only [storeBlocks, headBlock]
      by_cases last : index = count
      · subst last
        exact getLe_setLe_of_lt _ (by simpa using fits)
      · rw [getLe_setLe_disjoint _ (by omega)]
        exact headBlock_storeBlocks lh data fits count (by omega)

/-- Every listed block number is read back from the written header. -/
theorem headBlock_storeHead (lh : LogHeader) (data : Block) {index : Nat}
    (below : index < lh.n) (fits : lh.block index < 2 ^ 32) :
    headBlock (storeHead lh data) index = lh.block index :=
  headBlock_storeBlocks lh _ fits lh.n below

theorem loadHead_n (lh : LogHeader) {data : Block} (small : headN data < 2 ^ 31) :
    (loadHead lh data).n = headN data :=
  if_pos small

theorem loadHead_block (lh : LogHeader) {data : Block} {index : Nat}
    (small : headN data < 2 ^ 31) (below : index < headN data) :
    (loadHead lh data).block index = headBlock data index := by
  simp only [loadHead, if_pos small, if_pos below]

/-! ## Cached disk -/

namespace Machine

variable (m : Machine) (b : Nat)

@[simp] theorem bread_disk : (m.bread b).disk = m.disk := by
  unfold bread; split <;> rfl

@[simp] theorem bread_log : (m.bread b).log = m.log := by
  unfold bread; split <;> rfl

@[simp] theorem bread_ops : (m.bread b).ops = m.ops := by
  unfold bread; split <;> rfl

@[simp] theorem bread_contents : (m.bread b).contents = m.contents := by
  unfold bread
  split
  · rfl
  · rename_i missing
    funext other
    by_cases same : other = b
    · subst same; simp [contents, missing]
    · simp [contents, update_of_ne same]

@[simp] theorem bwrite_disk (data : Block) :
    (m.bwrite b data).disk = update m.disk b data := rfl

@[simp] theorem bwrite_log (data : Block) : (m.bwrite b data).log = m.log := rfl

@[simp] theorem bwrite_ops (data : Block) : (m.bwrite b data).ops = m.ops := rfl

@[simp] theorem bwrite_contents (data : Block) :
    (m.bwrite b data).contents = update m.contents b data := by
  funext other
  by_cases same : other = b
  · subst same; simp [contents, bwrite]
  · simp [contents, bwrite, update_of_ne same]

/-- A buffer holds the disk's data unless it is a home block that is dirty. -/
def CacheOk (m : Machine) : Prop :=
  ∀ b buf, m.cache b = some buf → buf.data = m.disk b ∨ (buf.dirty = true ∧ m.log.IsHome b)

variable {m}

/-- Log blocks are never dirty, so reading one gives the disk's data. -/
theorem CacheOk.contents_of_not_home (ok : m.CacheOk) {b : Nat} (notHome : ¬ m.log.IsHome b) :
    m.contents b = m.disk b := by
  unfold contents
  split
  · rename_i buf cached
    exact (ok b buf cached).resolve_right fun dirty => notHome dirty.2
  · rfl

theorem CacheOk.bread (ok : m.CacheOk) (b : Nat) : (m.bread b).CacheOk := by
  unfold Machine.bread
  split
  · exact ok
  · intro other buf cached
    by_cases same : other = b
    · subst same
      simp only [update_self, Option.some.injEq] at cached
      subst cached
      exact Or.inl rfl
    · simp only [update_of_ne same] at cached
      exact ok other buf cached

theorem CacheOk.bwrite (ok : m.CacheOk) (b : Nat) (data : Block) : (m.bwrite b data).CacheOk := by
  intro other buf cached
  by_cases same : other = b
  · subst same
    simp only [Machine.bwrite, update_self, Option.some.injEq] at cached
    subst cached
    exact Or.inl (by simp)
  · simp only [Machine.bwrite, update_of_ne same] at cached
    rw [bwrite_disk, update_of_ne same]
    exact ok other buf cached

/-! ## One turn of each loop -/

@[simp] theorem writeHead_disk : (writeHead m).disk =
    update m.disk m.log.start (storeHead m.log.lh (m.contents m.log.start)) := by
  simp [writeHead]

@[simp] theorem writeHead_contents : (writeHead m).contents =
    update m.contents m.log.start (storeHead m.log.lh (m.contents m.log.start)) := by
  simp [writeHead]

@[simp] theorem writeHead_log : (writeHead m).log = m.log := by simp [writeHead]

@[simp] theorem writeHead_ops : (writeHead m).ops = m.ops := by simp [writeHead]

theorem CacheOk.writeHead (ok : m.CacheOk) : m.writeHead.CacheOk :=
  (ok.bread _).bwrite _ _

@[simp] theorem writeLogBlock_disk (tail : Nat) : (m.writeLogBlock tail).disk =
    update m.disk (m.log.start + tail + 1) (m.contents (m.log.lh.block tail)) := by
  simp [writeLogBlock]

@[simp] theorem writeLogBlock_contents (tail : Nat) : (m.writeLogBlock tail).contents =
    update m.contents (m.log.start + tail + 1) (m.contents (m.log.lh.block tail)) := by
  simp [writeLogBlock]

@[simp] theorem writeLogBlock_log (tail : Nat) : (m.writeLogBlock tail).log = m.log := by
  simp [writeLogBlock]

@[simp] theorem writeLogBlock_ops (tail : Nat) : (m.writeLogBlock tail).ops = m.ops := by
  simp [writeLogBlock]

theorem CacheOk.writeLogBlock (ok : m.CacheOk) (tail : Nat) : (m.writeLogBlock tail).CacheOk :=
  ((ok.bread _).bread _).bwrite _ _

@[simp] theorem installBlock_disk (tail : Nat) : (m.installBlock tail).disk =
    update m.disk (m.log.lh.block tail) (m.contents (m.log.start + tail + 1)) := by
  simp [installBlock]

@[simp] theorem installBlock_contents (tail : Nat) : (m.installBlock tail).contents =
    update m.contents (m.log.lh.block tail) (m.contents (m.log.start + tail + 1)) := by
  simp [installBlock]

@[simp] theorem installBlock_log (tail : Nat) : (m.installBlock tail).log = m.log := by
  simp [installBlock]

@[simp] theorem installBlock_ops (tail : Nat) : (m.installBlock tail).ops = m.ops := by
  simp [installBlock]

theorem CacheOk.installBlock (ok : m.CacheOk) (tail : Nat) : (m.installBlock tail).CacheOk :=
  ((ok.bread _).bread _).bwrite _ _

end Machine

/-! ## Absorption -/

theorem scan_spec (block : Nat → Nat) (b : Nat) : ∀ remaining index,
    index ≤ scan block b remaining index ∧ scan block b remaining index ≤ index + remaining ∧
      (scan block b remaining index < index + remaining →
        block (scan block b remaining index) = b) ∧
      (∀ other, index ≤ other → other < scan block b remaining index → block other ≠ b)
  | 0, index => by simp [scan]; omega
  | remaining + 1, index => by
      unfold scan
      by_cases found : block index = b
      · rw [if_pos found]
        exact ⟨le_refl _, by omega, fun _ => found, fun other low high => absurd low (by omega)⟩
      · rw [if_neg found]
        obtain ⟨low, high, hit, miss⟩ := scan_spec block b remaining (index + 1)
        refine ⟨by omega, by omega, fun below => hit (by omega), fun other from_ below => ?_⟩
        by_cases first : other = index
        · exact first ▸ found
        · exact miss other (by omega) below

def LogHeader.Lists (lh : LogHeader) (b : Nat) : Prop := ∃ index < lh.n, lh.block index = b

def LogHeader.Distinct (lh : LogHeader) : Prop :=
  ∀ i < lh.n, ∀ j < lh.n, lh.block i = lh.block j → i = j

theorem LogHeader.absorb_of_lists {lh : LogHeader} {b : Nat} (listed : lh.Lists b) :
    lh.absorb b = lh := by
  obtain ⟨index, below, isBlock⟩ := listed
  obtain ⟨-, high, hit, miss⟩ := scan_spec lh.block b lh.n 0
  have inside : scan lh.block b lh.n 0 < lh.n := by
    by_contra outside
    exact miss index (by omega) (by omega) isBlock
  have same : lh.block (scan lh.block b lh.n 0) = b := hit (by omega)
  cases lh with
  | mk n block =>
    simp only [absorb, LogHeader.mk.injEq]
    exact ⟨if_neg (by simpa using Nat.ne_of_lt inside),
      by nth_rewrite 2 [← same]; exact update_eq_self _ _⟩

/-- A new block goes to the slot after the last one. -/
theorem LogHeader.scan_of_not_lists {lh : LogHeader} {b : Nat} (fresh : ¬ lh.Lists b) :
    scan lh.block b lh.n 0 = lh.n := by
  obtain ⟨-, high, hit, -⟩ := scan_spec lh.block b lh.n 0
  by_contra inside
  exact fresh ⟨scan lh.block b lh.n 0, by omega, hit (by omega)⟩

theorem LogHeader.absorb_of_not_lists {lh : LogHeader} {b : Nat} (fresh : ¬ lh.Lists b) :
    lh.absorb b = ⟨lh.n + 1, update lh.block lh.n b⟩ := by
  simp [absorb, scan_of_not_lists fresh]

theorem LogHeader.lists_absorb {lh : LogHeader} {b other : Nat} :
    (lh.absorb b).Lists other ↔ lh.Lists other ∨ other = b := by
  by_cases listed : lh.Lists b
  · rw [absorb_of_lists listed]
    constructor
    · exact Or.inl
    · rintro (isListed | rfl)
      · exact isListed
      · exact listed
  · rw [absorb_of_not_lists listed]
    constructor
    · rintro ⟨index, below, isBlock⟩
      by_cases last : index = lh.n
      · subst last
        exact Or.inr (by simpa using isBlock.symm)
      · simp only [update_of_ne last] at isBlock below
        exact Or.inl ⟨index, by omega, isBlock⟩
    · rintro (⟨index, below, isBlock⟩ | rfl)
      · have notLast : index ≠ lh.n := by omega
        exact ⟨index, by simp only; omega, by
          simpa only [update_of_ne notLast] using isBlock⟩
      · exact ⟨lh.n, by simp, by simp⟩

theorem LogHeader.Distinct.absorb {lh : LogHeader} (distinct : lh.Distinct) (b : Nat) :
    (lh.absorb b).Distinct := by
  by_cases listed : lh.Lists b
  · rw [absorb_of_lists listed]
    exact distinct
  · rw [absorb_of_not_lists listed]
    intro i iBelow j jBelow same
    simp only at iBelow jBelow same
    by_cases iLast : i = lh.n <;> by_cases jLast : j = lh.n
    · omega
    · subst iLast
      rw [update_self, update_of_ne jLast] at same
      exact absurd ⟨j, by omega, same.symm⟩ listed
    · subst jLast
      rw [update_self, update_of_ne iLast] at same
      exact absurd ⟨i, by omega, same⟩ listed
    · rw [update_of_ne iLast, update_of_ne jLast] at same
      exact distinct i (by omega) j (by omega) same

/-! ## What a successful call did -/

theorem beginOp_ok {m after : Machine} {op : Nat} (begun : m.beginOp op = .ok after) :
    m.control.recovering = false ∧ m.ops op = .idle ∧ m.log.committing = false ∧
      (m.log.lh.n : Int) + (m.log.outstanding + 1) * maxOpBlocks ≤ logSize ∧
      after = { m with
        log := { m.log with outstanding := m.log.outstanding + 1 }
        ops := update m.ops op (.active [] false) } := by
  unfold Machine.beginOp at begun
  split_ifs at begun with recovering notIdle committing full
  exact ⟨by simpa using recovering, by simpa using notIdle, by simpa using committing,
    by simpa using full, (Except.ok.inj begun).symm⟩

theorem logCheck_ok {m after : Machine} {op : Nat} (checked : m.logCheck op = .ok after) :
    ∃ logged, m.ops op = .active logged false ∧ m.log.lh.n < logSize ∧
      (m.log.lh.n : Int) < m.log.size - 1 ∧
      after = { m with ops := update m.ops op (.active logged true) } := by
  unfold Machine.logCheck at checked
  split at checked
  · rename_i logged active
    split_ifs at checked with tooBig outside
    exact ⟨logged, active, by omega, by omega, (Except.ok.inj checked).symm⟩
  · exact absurd checked (by simp)

theorem logWrite_ok {m after : Machine} {op b : Nat} {data : Block}
    (written : m.logWrite op b data = .ok after) :
    ∃ logged, m.ops op = .active logged true ∧ m.log.IsHome b ∧ b < 2 ^ 32 ∧
      scan m.log.lh.block b m.log.lh.n 0 < logSize ∧
      after = { m with
        log := { m.log with lh := m.log.lh.absorb b }
        cache := update m.cache b (some ⟨data, true⟩)
        ops := update m.ops op (.active (addLogged logged b) false) } := by
  unfold Machine.logWrite at written
  split at written
  · rename_i logged active
    split_ifs at written with notAllowed overrun
    obtain ⟨home, fits⟩ := not_or.mp notAllowed
    exact ⟨logged, active, not_not.mp home, by omega, by omega, (Except.ok.inj written).symm⟩
  · exact absurd written (by simp)

theorem endOp_ok {m after : Machine} {op : Nat} (finished : m.endOp op = .ok after) :
    ∃ logged, m.ops op = .active logged false ∧ m.log.committing = false ∧
      ((m.log.outstanding - 1 = 0 ∧ after = { m with
          log := { m.log with outstanding := m.log.outstanding - 1, committing := true }
          ops := update m.ops op .ended
          control := .commit }) ∨
        (m.log.outstanding - 1 ≠ 0 ∧ after = { m with
          log := { m.log with outstanding := m.log.outstanding - 1 }
          ops := update m.ops op .ended })) := by
  unfold Machine.endOp at finished
  split at finished
  · rename_i logged active
    split_ifs at finished with committing last
    · exact ⟨logged, active, by simpa using committing, .inl ⟨last, (Except.ok.inj finished).symm⟩⟩
    · exact ⟨logged, active, by simpa using committing, .inr ⟨last, (Except.ok.inj finished).symm⟩⟩
  · exact absurd finished (by simp)

end Rexv6.Logging
