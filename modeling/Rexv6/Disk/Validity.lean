import Rexv6.Disk.Machine
import Rexv6.Foundation.Execution
import Rexv6.Foundation.Headcount

/-!
Contract: a valid buffer holds what an error-free command has transferred, on a device that
reports no error.

Owns: the invariant of the cache, the queue and the device over all runs in which no status
reports an error, and the statuses for which it can fail.

Does not own: that a request is served at all.
-/

namespace Rexv6.Disk

open Rexv6.Foundation (Headcount)
open Rexv6.Foundation.Execution (Along foldlM_append_of foldlM_cons_of foldlM_invariant)
open Function (update update_eq_self update_of_ne update_self)

variable {ι δ : Type}

def Buf.transfer (buf : Buf δ) (data : δ) : Transfer δ := ⟨buf.drive, buf.sector, data⟩

/-- The buffer is not valid, or its data come from a transfer of its sector, but for what the
holder has changed since. -/
def Holds (buf : Buf δ) (edited : Bool) (completed : List (Transfer δ)) : Prop :=
  buf.valid = true →
    ∃ data, buf.transfer data ∈ completed ∧ (edited = false → buf.data = data)

/-- The buffer of a process in `bread` before `acquiresleep`, or in `brelse` after
`releasesleep`. -/
def Pc.uses : Pc → Option (Fin nBuf)
  | .locking b | .releasing b => some b
  | _ => none

def Pc.Uses (b : Fin nBuf) (pc : Pc) : Prop := pc.uses = some b

/-- `refcnt` counts the holder of the buffer, and who is about to take it or has just left it. -/
def Counted (buf : Fin nBuf → Buf δ) (lock : Fin nBuf → Option ι) (pc : ι → Pc) : Prop :=
  ∀ b, Headcount (fun p => Pc.Uses b (pc p)) ((buf b).refcnt - (lock b).toList.length)

def Requested (queue : List (Fin nBuf)) (lock : Fin nBuf → Option ι) (pc : ι → Pc) : Prop :=
  ∀ b ∈ queue, ∃ p, lock b = some p ∧ pc p = .waiting b

/-- The device works on the first request of the queue, or has completed it without error. -/
def Served (device : Device δ) (queue : List (Fin nBuf)) (buf : Fin nBuf → Buf δ)
    (completed : List (Transfer δ)) : Prop :=
  match device with
  | .idle _ => queue = []
  | .busy command => ∃ b rest, queue = b :: rest ∧ command = .ofBuf (buf b)
  | .done status reply => failed status = false ∧
      ∃ b rest, queue = b :: rest ∧
        (buf b).transfer (if (buf b).dirty = true then (buf b).data else reply) ∈ completed

structure Inv (s : State ι δ) : Prop where
  nodup : s.queue.Nodup
  unsynced : ∀ b ∈ s.queue, s.synced b = false
  requested : Requested s.queue s.lock s.pc
  counted : Counted s.buf s.lock s.pc
  served : Served s.device s.queue s.buf s.completed
  held : ∀ b, Holds (s.buf b) (s.edited b) s.completed
  known : ∀ transfer ∈ s.completed, ∃ disk ∈ s.past,
    disk transfer.drive transfer.sector = transfer.data

section Invariant

variable {s s' : State ι δ} {p : ι} {b : Fin nBuf} {buf : Buf δ} {device : Device δ}
  {queue rest : List (Fin nBuf)} {bufs bufs' : Fin nBuf → Buf δ} {completed : List (Transfer δ)}

theorem Inv.boot (havedisk1 : Bool) (disk : Nat → Nat → δ) (blank : δ) :
    Inv (State.boot havedisk1 disk blank : State ι δ) where
  nodup := List.nodup_nil
  unsynced := nofun
  requested := nofun
  counted _ := Headcount.nobody fun _ => nofun
  served := rfl
  held _ := nofun
  known := nofun

/-- Who holds a buffer and does not wait for it has no request for it in the queue. -/
theorem Inv.not_queued (inv : Inv s) (isHolder : s.lock b = some p)
    (elsewhere : s.pc p ≠ .waiting b) : b ∉ s.queue := by
  intro member
  obtain ⟨q, isLocked, waits⟩ := inv.requested b member
  rw [isHolder] at isLocked
  cases isLocked
  exact elsewhere waits

theorem Inv.not_queued_of_unlocked (inv : Inv s) (unlocked : s.lock b = none) : b ∉ s.queue := by
  intro member
  obtain ⟨q, isLocked, -⟩ := inv.requested b member
  rw [unlocked] at isLocked
  cases isLocked

theorem Inv.unlocked (inv : Inv s) (unused : (s.buf b).refcnt = 0) : s.lock b = none := by
  have nonneg := (inv.counted b).nonneg
  cases isLock : s.lock b with
  | none => rfl
  | some q =>
    rw [isLock, unused] at nonneg
    exact absurd nonneg (by simp)

/-- The device sees the buffers of the queue only, and does not see `refcnt`. -/
theorem Served.congr (served : Served device queue bufs completed)
    (alike : ∀ b ∈ queue, ∃ refcnt, bufs' b = { bufs b with refcnt }) :
    Served device queue bufs' completed := by
  cases device with
  | idle status => exact served
  | busy command =>
    obtain ⟨b, rest, isQueue, isCommand⟩ := served
    obtain ⟨refcnt, isBuf⟩ := alike b (by rw [isQueue]; exact List.mem_cons_self)
    refine ⟨b, rest, isQueue, ?_⟩
    rw [isBuf]
    exact isCommand
  | done status reply =>
    obtain ⟨noError, b, rest, isQueue, isTransfer⟩ := served
    obtain ⟨refcnt, isBuf⟩ := alike b (by rw [isQueue]; exact List.mem_cons_self)
    refine ⟨noError, b, rest, isQueue, ?_⟩
    rw [isBuf]
    exact isTransfer

variable [DecidableEq ι] {lock : Option ι} {pc : Pc} {edited : Bool} {order : List (Fin nBuf)}

/-- A step of process `p` on buffer `b` that leaves the driver alone. -/
def State.touch (s : State ι δ) (p : ι) (b : Fin nBuf) (buf : Buf δ) (lock : Option ι) (pc : Pc)
    (edited : Bool) (order : List (Fin nBuf)) : State ι δ :=
  { s with
    order
    buf := update s.buf b buf
    lock := update s.lock b lock
    pc := update s.pc p pc
    edited := update s.edited b edited }

/-- Of a buffer in the queue such a step can change `refcnt` only. -/
theorem Inv.touch (inv : Inv s) (elsewhere : ∀ d ∈ s.queue, s.pc p ≠ .waiting d)
    (alike : b ∈ s.queue → lock = s.lock b ∧ ∃ refcnt, buf = { s.buf b with refcnt })
    (others : ∀ d, d ≠ b → (Pc.Uses d pc ↔ Pc.Uses d (s.pc p)))
    (counted : Headcount (fun q => Pc.Uses b (update s.pc p pc q))
      (buf.refcnt - lock.toList.length))
    (holds : Holds buf edited s.completed) : Inv (s.touch p b buf lock pc edited order) := by
  have alikes : ∀ d ∈ s.queue, ∃ refcnt, update s.buf b buf d = { s.buf d with refcnt } := by
    intro d member
    by_cases same : d = b
    · rw [same] at member ⊢
      rw [update_self]
      exact (alike member).2
    · rw [update_of_ne same]
      exact ⟨_, rfl⟩
  refine ⟨inv.nodup, ?_, ?_, ?_, inv.served.congr alikes, ?_, inv.known⟩
  · intro d member
    obtain ⟨refcnt, isBuf⟩ := alikes d member
    simp only [State.touch, State.synced, isBuf]
    exact inv.unsynced d member
  · intro d member
    obtain ⟨q, isLocked, waits⟩ := inv.requested d member
    refine ⟨q, ?_, ?_⟩
    · by_cases same : d = b
      · rw [same] at member isLocked ⊢
        simp only [State.touch, update_self]
        rw [(alike member).1, isLocked]
      · simp only [State.touch, update_of_ne same]
        exact isLocked
    · have other : q ≠ p := by
        rintro rfl
        exact elsewhere d member waits
      simp only [State.touch, update_of_ne other]
      exact waits
  · intro d
    by_cases same : d = b
    · rw [same]
      simp only [State.touch, update_self]
      exact counted
    · simp only [State.touch, update_of_ne same]
      exact Headcount.move (Pc.Uses d) (inv.counted d) (others d same)
  · intro d
    by_cases same : d = b
    · rw [same]
      simp only [State.touch, update_self]
      exact holds
    · simp only [State.touch, update_of_ne same]
      exact inv.held d

theorem Inv.goto (inv : Inv s) (elsewhere : ∀ d ∈ s.queue, s.pc p ≠ .waiting d)
    (same : pc.uses = (s.pc p).uses) : Inv (s.goto p pc) where
  nodup := inv.nodup
  unsynced := inv.unsynced
  requested := by
    intro b member
    obtain ⟨q, isLocked, waits⟩ := inv.requested b member
    have other : q ≠ p := by
      rintro rfl
      exact elsewhere b member waits
    refine ⟨q, isLocked, ?_⟩
    simp only [State.goto, update_of_ne other]
    exact waits
  counted b := Headcount.move (Pc.Uses b) (inv.counted b) (by rw [Pc.Uses, Pc.Uses, same])
  served := inv.served
  held := inv.held
  known := inv.known

theorem Inv.enter (inv : Inv s) (isOut : s.pc p = .out) (uses : pc.uses = some b)
    (alike : b ∈ s.queue → lock = s.lock b ∧ ∃ refcnt, buf = { s.buf b with refcnt })
    (more : (buf.refcnt : Int) - lock.toList.length =
      (s.buf b).refcnt - (s.lock b).toList.length + 1)
    (holds : Holds buf edited s.completed) : Inv (s.touch p b buf lock pc edited order) := by
  have lacked : ¬ Pc.Uses b (s.pc p) := by
    rw [isOut]
    nofun
  refine inv.touch ?_ alike ?_ ?_ holds
  · rw [isOut]
    nofun
  · intro d different
    rw [isOut, Pc.Uses, uses]
    refine iff_of_false ?_ nofun
    intro same
    exact different (Option.some.inj same).symm
  · rw [more]
    exact Headcount.join (Pc.Uses b) (inv.counted b) lacked uses

theorem Inv.depart (inv : Inv s) (used : (s.pc p).uses = some b) (leaves : pc.uses = none)
    (alike : b ∈ s.queue → lock = s.lock b ∧ ∃ refcnt, buf = { s.buf b with refcnt })
    (less : (buf.refcnt : Int) - lock.toList.length =
      (s.buf b).refcnt - (s.lock b).toList.length - 1)
    (holds : Holds buf edited s.completed) : Inv (s.touch p b buf lock pc edited order) := by
  have lacks : ∀ d, ¬ Pc.Uses d pc := by
    intro d
    rw [Pc.Uses, leaves]
    nofun
  refine inv.touch ?_ alike ?_ ?_ holds
  · intro d _ waits
    rw [waits] at used
    cases used
  · intro d different
    refine iff_of_false (lacks d) ?_
    rw [Pc.Uses, used]
    intro same
    exact different (Option.some.inj same).symm
  · rw [less]
    exact Headcount.leave (Pc.Uses b) (inv.counted b) used (lacks b)

omit [DecidableEq ι] in
theorem bget_spec {dev blockno : Nat} (got : s.bget dev blockno = .ok (b, buf)) :
    buf.refcnt = (s.buf b).refcnt + 1 ∧
      (buf = { s.buf b with refcnt := (s.buf b).refcnt + 1 } ∨
        (s.buf b).refcnt = 0 ∧ buf.valid = false) := by
  unfold State.bget at got
  split at got
  · cases got
    exact ⟨rfl, Or.inl rfl⟩
  · split at got
    · rename_i isFound
      cases got
      have unused := List.find?_some isFound
      simp only [decide_eq_true_eq] at unused
      rw [unused.1]
      exact ⟨rfl, Or.inr ⟨rfl, rfl⟩⟩
    · cases got

theorem Inv.bread {dev blockno : Nat} (inv : Inv s)
    (stepped : s.step (.bread p dev blockno) = .ok s') : Inv s' := by
  rw [State.step] at stepped
  split at stepped
  · cases stepped
  · rename_i isOut
    cases got : s.bget dev blockno with
    | error stop =>
      rw [got] at stepped
      cases stepped
    | ok found =>
      obtain ⟨b, buf⟩ := found
      rw [got] at stepped
      cases stepped
      obtain ⟨isCount, kind⟩ := bget_spec got
      have same : (s.goto p (.locking b)).setBuf b buf =
          s.touch p b buf (s.lock b) (.locking b) (s.edited b) s.order := by
        simp only [State.touch, State.goto, State.setBuf, update_eq_self]
      rw [same]
      apply inv.enter (not_not.mp isOut) rfl
      · intro member
        refine ⟨rfl, ?_⟩
        cases kind with
        | inl alike => exact ⟨_, alike⟩
        | inr fresh => exact absurd member (inv.not_queued_of_unlocked (inv.unlocked fresh.1))
      · omega
      · cases kind with
        | inl alike =>
          rw [alike]
          exact inv.held b
        | inr fresh =>
          intro isValid
          rw [fresh.2] at isValid
          cases isValid

theorem Inv.brelse (inv : Inv s) (isOut : s.pc p = .out) (isHolder : s.lock b = some p) :
    Inv { s.goto p (.releasing b) with lock := update s.lock b none } := by
  have same : { s.goto p (.releasing b) with lock := update s.lock b none } =
      s.touch p b (s.buf b) none (.releasing b) (s.edited b) s.order := by
    simp only [State.touch, State.goto, update_eq_self]
  rw [same]
  apply inv.enter isOut rfl
  · intro member
    exact absurd member (inv.not_queued isHolder (by rw [isOut]; nofun))
  · rw [isHolder]
    simp
  · exact inv.held b

theorem Inv.acquiresleep (inv : Inv s) (isLocking : s.pc p = .locking b)
    (unlocked : s.lock b = none) :
    Inv { s.goto p (.locked b) with lock := update s.lock b (some p) } := by
  have same : { s.goto p (.locked b) with lock := update s.lock b (some p) } =
      s.touch p b (s.buf b) (some p) (.locked b) (s.edited b) s.order := by
    simp only [State.touch, State.goto, update_eq_self]
  rw [same]
  apply inv.depart (by rw [isLocking]; rfl) rfl
  · intro member
    exact absurd member (inv.not_queued_of_unlocked unlocked)
  · rw [unlocked]
    simp
  · exact inv.held b

theorem Inv.released (inv : Inv s) (isReleasing : s.pc p = .releasing b)
    (order : List (Fin nBuf)) :
    Inv { (s.goto p .out).setBuf b { s.buf b with refcnt := (s.buf b).refcnt - 1 } with
      order } := by
  have same : { (s.goto p .out).setBuf b { s.buf b with refcnt := (s.buf b).refcnt - 1 } with
        order } =
      s.touch p b { s.buf b with refcnt := (s.buf b).refcnt - 1 } (s.lock b) .out (s.edited b)
        order := by
    simp only [State.touch, State.goto, State.setBuf, update_eq_self]
  have used : (s.pc p).uses = some b := by
    rw [isReleasing]
    rfl
  have positive := (inv.counted b).positive used
  rw [same]
  apply inv.depart used rfl
  · intro _
    exact ⟨rfl, _, rfl⟩
  · simp only
    omega
  · exact inv.held b

theorem Inv.edit (inv : Inv s) (isOut : s.pc p = .out)
    (isHolder : s.lock b = some p) (count : buf.refcnt = (s.buf b).refcnt)
    (holds : Holds buf edited s.completed) :
    Inv { s.setBuf b buf with edited := update s.edited b edited } := by
  have same : { s.setBuf b buf with edited := update s.edited b edited } =
      s.touch p b buf (s.lock b) (s.pc p) edited s.order := by
    simp only [State.touch, State.setBuf, update_eq_self]
  rw [same]
  apply inv.touch
  · rw [isOut]
    nofun
  · intro member
    exact absurd member (inv.not_queued isHolder (by rw [isOut]; nofun))
  · intro d _
    exact Iff.rfl
  · rw [count, update_eq_self]
    exact inv.counted b
  · exact holds

/-! ## The driver -/

omit [DecidableEq ι] in
theorem idestart_ok (stepped : s.idestart b = .ok s') :
    s' = { s with device := .busy (.ofBuf (s.buf b)) } := by
  unfold State.idestart at stepped
  split at stepped
  · cases stepped
  · split at stepped
    · cases stepped
    · split at stepped
      · cases stepped
      · cases stepped
        rfl

/-- A request behind the first one does not concern the device. -/
theorem Served.append (served : Served device queue bufs completed) (some : queue ≠ []) :
    Served device (queue ++ [b]) bufs completed := by
  cases device with
  | idle status => exact absurd served some
  | busy command =>
    obtain ⟨first, rest, isQueue, isCommand⟩ := served
    exact ⟨first, rest ++ [b], by rw [isQueue, List.cons_append], isCommand⟩
  | done status reply =>
    obtain ⟨noError, first, rest, isQueue, isTransfer⟩ := served
    exact ⟨noError, first, rest ++ [b], by rw [isQueue, List.cons_append], isTransfer⟩

omit [DecidableEq ι] in
theorem Inv.append (inv : Inv s) (absent : b ∉ s.queue)
    (unsynced : s.synced b = false) (isHolder : s.lock b = some p) (waits : s.pc p = .waiting b)
    (served : Served device (s.queue ++ [b]) s.buf s.completed) :
    Inv { s with queue := s.queue ++ [b], device } where
  nodup := by
    rw [List.nodup_append]
    refine ⟨inv.nodup, List.nodup_singleton b, ?_⟩
    intro d member other isLast
    rw [List.mem_singleton.mp isLast]
    rintro rfl
    exact absent member
  unsynced := by
    intro d member
    cases List.mem_append.mp member with
    | inl queued => exact inv.unsynced d queued
    | inr isLast =>
      rw [List.mem_singleton.mp isLast]
      exact unsynced
  requested := by
    intro d member
    cases List.mem_append.mp member with
    | inl queued => exact inv.requested d queued
    | inr isLast =>
      rw [List.mem_singleton.mp isLast]
      exact ⟨p, isHolder, waits⟩
  counted := inv.counted
  served := served
  held := inv.held
  known := inv.known

theorem Inv.iderw (inv : Inv s) (elsewhere : ∀ d, s.pc p ≠ .waiting d)
    (unused : (s.pc p).uses = none) (stepped : s.iderw p b = .ok s') : Inv s' := by
  unfold State.iderw at stepped
  split at stepped
  · cases stepped
  · rename_i isHolder
    rw [not_not] at isHolder
    split at stepped
    · cases stepped
    · rename_i unsynced
      split at stepped
      · cases stepped
      · have absent := inv.not_queued isHolder (elsewhere b)
        have moved : Inv (s.goto p (.waiting b)) :=
          inv.goto (fun d _ => elsewhere d) unused.symm
        have waits : (s.goto p (.waiting b)).pc p = .waiting b := update_self _ _ _
        have append : ∀ device, Served device (s.queue ++ [b]) s.buf s.completed →
            Inv { s.goto p (.waiting b) with queue := s.queue ++ [b], device } :=
          fun _ => moved.append absent (Bool.eq_false_of_not_eq_true unsynced) isHolder waits
        cases isQueue : s.queue with
        | nil =>
          rw [isQueue, List.nil_append, if_pos (by rfl)] at stepped
          rw [idestart_ok stepped]
          have queued := append (.busy (.ofBuf (s.buf b)))
            ⟨b, [], by rw [isQueue, List.nil_append], rfl⟩
          rw [isQueue, List.nil_append] at queued
          exact queued
        | cons first rest =>
          have different : ¬ (first :: rest ++ [b]).head? = some b := by
            intro same
            apply absent
            rw [isQueue, Option.some.inj same]
            exact List.mem_cons_self
          rw [isQueue, if_neg different] at stepped
          cases stepped
          have queued := append s.device (inv.served.append (by rw [isQueue]; nofun))
          rw [isQueue] at queued
          exact queued

omit [DecidableEq ι] in
theorem Inv.complete {status : BitVec 8} {content : δ} (inv : Inv s)
    (noError : failed status = false) (stepped : s.complete status content = .ok s') : Inv s' := by
  have served := inv.served
  unfold State.complete at stepped
  split at stepped
  · rename_i command isBusy
    rw [isBusy] at served
    obtain ⟨b, rest, isQueue, isCommand⟩ := served
    simp only [noError, Bool.false_eq_true, if_false] at stepped
    cases stepped
    have same : (s.buf b).transfer (if (s.buf b).dirty = true then (s.buf b).data
        else s.stored command status content) =
        ⟨command.drive, command.sector, s.stored command status content⟩ := by
      by_cases isDirty : (s.buf b).dirty = true
      · simp [isCommand, Command.ofBuf, Buf.transfer, State.stored, isDirty, noError]
      · simp [isCommand, Command.ofBuf, Buf.transfer, isDirty]
    refine ⟨inv.nodup, inv.unsynced, inv.requested, inv.counted, ?_, ?_, ?_⟩
    · refine ⟨noError, b, rest, isQueue, ?_⟩
      simp only [same]
      exact List.mem_cons_self
    · intro d isValid
      obtain ⟨data, isTransfer, unchanged⟩ := inv.held d isValid
      exact ⟨data, List.mem_cons_of_mem _ isTransfer, unchanged⟩
    · intro transfer member
      cases List.mem_cons.mp member with
      | inl isNew =>
        rw [isNew]
        exact ⟨_, List.mem_cons_self, by rw [update_self, update_self]⟩
      | inr isOld =>
        obtain ⟨disk, isPast, isData⟩ := inv.known transfer isOld
        exact ⟨disk, List.mem_cons_of_mem _ isPast, isData⟩
  · cases stepped

omit [DecidableEq ι] in
theorem Inv.report {status : BitVec 8} (inv : Inv s) (noError : failed status = false)
    (stepped : s.report status = .ok s') : Inv s' := by
  have served := inv.served
  unfold State.report at stepped
  split at stepped
  · rename_i isIdle
    cases stepped
    rw [isIdle] at served
    exact ⟨inv.nodup, inv.unsynced, inv.requested, inv.counted, served, inv.held, inv.known⟩
  · rename_i isDone
    cases stepped
    rw [isDone] at served
    exact ⟨inv.nodup, inv.unsynced, inv.requested, inv.counted, ⟨noError, served.2⟩, inv.held,
      inv.known⟩
  · cases stepped

theorem settle_ok {status : BitVec 8} {reply : δ} {settled : Buf δ}
    (noError : failed status = false)
    (isSettled : State.settle status reply buf = some settled) : settled = { buf with
      valid := true
      dirty := false
      data := if buf.dirty = true then buf.data else reply } := by
  unfold State.settle idewait at isSettled
  by_cases isDirty : buf.dirty = true
  · simp only [isDirty, if_true, Option.some.injEq] at isSettled
    rw [← isSettled, if_pos isDirty]
  · cases isReady : ready status with
    | false => simp [isDirty, isReady] at isSettled
    | true =>
      simp only [isDirty, isReady, noError, Bool.false_eq_true, Bool.true_eq_false, and_false,
        if_false, Option.map_some, le_refl, if_true, Option.some.injEq] at isSettled
      rw [← isSettled, if_neg isDirty]

omit [DecidableEq ι] in
/-- The first request is done, and `device` serves the others. -/
theorem Inv.settled (inv : Inv s)
    (isQueue : s.queue = b :: rest) (count : buf.refcnt = (s.buf b).refcnt)
    (isTransfer : buf.transfer buf.data ∈ s.completed)
    (served : Served device rest (update s.buf b buf) s.completed) :
    Inv { s.setBuf b buf with
      queue := rest
      edited := update s.edited b false
      device } := by
  have nodup := inv.nodup
  rw [isQueue, List.nodup_cons] at nodup
  have queued : ∀ d ∈ rest, d ∈ s.queue ∧ d ≠ b := by
    intro d member
    refine ⟨by rw [isQueue]; exact List.mem_cons_of_mem b member, ?_⟩
    rintro rfl
    exact nodup.1 member
  refine ⟨nodup.2, ?_, ?_, ?_, served, ?_, inv.known⟩
  · intro d member
    simp only [State.synced, State.setBuf, update_of_ne (queued d member).2]
    exact inv.unsynced d (queued d member).1
  · intro d member
    exact inv.requested d (queued d member).1
  · intro d
    by_cases same : d = b
    · rw [same]
      simp only [State.setBuf, update_self, count]
      exact inv.counted b
    · simp only [State.setBuf, update_of_ne same]
      exact inv.counted d
  · intro d
    by_cases same : d = b
    · rw [same]
      simp only [State.setBuf, update_self]
      intro _
      exact ⟨buf.data, isTransfer, fun _ => rfl⟩
    · simp only [State.setBuf, update_of_ne same]
      exact inv.held d

omit [DecidableEq ι] in
theorem Inv.ideintr (inv : Inv s) (stepped : s.ideintr = .ok s') : Inv s' := by
  have served := inv.served
  unfold State.ideintr at stepped
  split at stepped
  · rename_i status reply isDone
    rw [isDone] at served
    obtain ⟨noError, b, rest, isQueue, isTransfer⟩ := served
    rw [isQueue] at stepped
    cases isSettled : State.settle status reply (s.buf b) with
    | none =>
      simp only [isSettled] at stepped
      cases stepped
    | some settled =>
      simp only [isSettled] at stepped
      obtain rfl := settle_ok noError isSettled
      cases rest with
      | nil =>
        cases stepped
        exact inv.settled isQueue rfl isTransfer rfl
      | cons head rest =>
        rw [idestart_ok stepped]
        exact inv.settled isQueue rfl isTransfer ⟨head, rest, rfl, rfl⟩
  · cases stepped

/-! ## Runs -/

theorem Inv.next (inv : Inv s) (stepped : s.next p = .ok s') : Inv s' := by
  unfold State.next at stepped
  split at stepped
  · rename_i b isLocking
    split at stepped
    · rename_i unlocked
      cases stepped
      exact inv.acquiresleep isLocking unlocked
    · cases stepped
  · rename_i b isLocked
    have elsewhere : ∀ d, s.pc p ≠ .waiting d := by
      rw [isLocked]
      nofun
    have unused : (s.pc p).uses = none := by
      rw [isLocked]
      rfl
    split at stepped
    · exact inv.iderw elsewhere unused stepped
    · cases stepped
      exact inv.goto (fun d _ => elsewhere d) unused.symm
  · rename_i b isWaiting
    split at stepped
    · rename_i synced
      cases stepped
      apply inv.goto
      · intro d member isOther
        rw [isWaiting] at isOther
        cases isOther
        rw [inv.unsynced b member] at synced
        cases synced
      · rw [isWaiting]
        rfl
    · cases stepped
  · rename_i b isReleasing
    cases stepped
    split
    · exact inv.released isReleasing _
    · exact inv.released isReleasing s.order
  · cases stepped

theorem holding_ok {otherwise : Stop} {result : Except Stop (State ι δ)}
    (stepped : s.holding p b otherwise result = .ok s') :
    s.pc p = .out ∧ s.lock b = some p ∧ result = .ok s' := by
  unfold State.holding at stepped
  split at stepped
  · cases stepped
  · rename_i isOut
    split at stepped
    · cases stepped
    · rename_i isHolder
      exact ⟨not_not.mp isOut, not_not.mp isHolder, stepped⟩

theorem Inv.setDirty (inv : Inv s) (isOut : s.pc p = .out) (isHolder : s.lock b = some p) :
    Inv (s.setBuf b { s.buf b with dirty := true }) := by
  have kept : Inv { s.setBuf b { s.buf b with dirty := true } with
      edited := update s.edited b (s.edited b) } := by
    apply inv.edit isOut isHolder
    · rfl
    · exact inv.held b
  rw [update_eq_self] at kept
  exact kept

def Action.reported : Action ι δ → Option (BitVec 8)
  | .complete status _ | .report status => some status
  | _ => none

theorem Inv.step {action : Action ι δ} (inv : Inv s)
    (noError : ∀ status ∈ action.reported, failed status = false)
    (stepped : s.step action = .ok s') : Inv s' := by
  cases action with
  | bread p dev blockno => exact inv.bread stepped
  | next p => exact inv.next stepped
  | write p b data =>
    obtain ⟨isOut, isHolder, result⟩ := holding_ok stepped
    cases result
    apply inv.edit isOut isHolder
    · rfl
    · intro isValid
      obtain ⟨read, isTransfer, -⟩ := inv.held b isValid
      exact ⟨read, isTransfer, nofun⟩
  | logWrite p b =>
    obtain ⟨isOut, isHolder, result⟩ := holding_ok stepped
    cases result
    exact inv.setDirty isOut isHolder
  | iderw p b =>
    obtain ⟨isOut, isHolder, result⟩ := holding_ok stepped
    exact inv.iderw (by rw [isOut]; nofun) (by rw [isOut]; rfl) result
  | bwrite p b =>
    obtain ⟨isOut, isHolder, result⟩ := holding_ok stepped
    have isOut' : (s.setBuf b { s.buf b with dirty := true }).pc p = .out := isOut
    exact (inv.setDirty isOut isHolder).iderw (by rw [isOut']; nofun) (by rw [isOut']; rfl) result
  | brelse p b =>
    obtain ⟨isOut, isHolder, result⟩ := holding_ok stepped
    cases result
    exact inv.brelse isOut isHolder
  | complete status content => exact inv.complete (noError status rfl) stepped
  | report status => exact inv.report (noError status rfl) stepped
  | ideintr => exact inv.ideintr stepped

theorem Inv.run {actions : List (Action ι δ)} (inv : Inv s)
    (noError : ∀ action ∈ actions, ∀ status ∈ action.reported, failed status = false)
    (ran : actions.foldlM State.step s = .ok s') : Inv s' :=
  foldlM_invariant (fun _ action => ∀ status ∈ action.reported, failed status = false) Inv
    (fun _ _ _ succeeds inv stepped => inv.step succeeds stepped) actions
    (Along.of_forall _ (fun action member _ => noError action member) _) inv ran

/-! ## Errors -/

/-- Every valid buffer has data of its sector, moved by a command that completed without error,
and then on the disk, but for what its holder has changed since. -/
def Backed (s : State ι δ) : Prop :=
  ∀ b, (s.buf b).valid = true →
    ∃ data, (s.buf b).transfer data ∈ s.completed ∧
      (∃ disk ∈ s.past, disk (s.buf b).drive (s.buf b).sector = data) ∧
      (s.edited b = false → (s.buf b).data = data)

omit [DecidableEq ι] in
theorem Inv.backed (inv : Inv s) : Backed s := by
  intro b isValid
  obtain ⟨data, isTransfer, unchanged⟩ := inv.held b isValid
  exact ⟨data, isTransfer, inv.known _ isTransfer, unchanged⟩

omit [DecidableEq ι] in
theorem complete_failed {status : BitVec 8} {command : Command δ} (content : δ)
    (isFailed : failed status = true) (isBusy : s.device = .busy command) :
    ∃ s', s.complete status content = .ok s' ∧ s'.device = .done status content ∧
      s'.queue = s.queue ∧ s'.buf = s.buf ∧ s'.completed = s.completed := by
  unfold State.complete
  rw [isBusy]
  simp only [isFailed, if_true]
  exact ⟨_, rfl, rfl, rfl, rfl, rfl⟩

omit [DecidableEq ι] in
theorem ideintr_dirty {status : BitVec 8} {reply : δ} (isDone : s.device = .done status reply)
    (isQueue : s.queue = [b]) (isDirty : (s.buf b).dirty = true) :
    ∃ s', s.ideintr = .ok s' ∧ s'.buf b = { s.buf b with valid := true, dirty := false } ∧
      s'.edited b = false ∧ s'.completed = s.completed := by
  unfold State.ideintr
  rw [isDone, isQueue]
  simp only [State.settle, isDirty, if_true]
  exact ⟨_, rfl, update_self _ _ _, update_self _ _ _, rfl⟩

/-- A write that fails leaves the buffer valid and clean. -/
theorem write_error_validates {status : BitVec 8} {command : Command δ} (content : δ)
    (isFailed : failed status = true) (isBusy : s.device = .busy command) (isQueue : s.queue = [b])
    (isDirty : (s.buf b).dirty = true) :
    ∃ s', [Action.complete status content, .ideintr].foldlM State.step s = .ok s' ∧
      s'.buf b = { s.buf b with valid := true, dirty := false } ∧ s'.edited b = false ∧
      s'.completed = s.completed := by
  obtain ⟨done, isOk, isDone, queue, bufs, completed⟩ := complete_failed content isFailed isBusy
  rw [← queue] at isQueue
  rw [← bufs] at isDirty ⊢
  obtain ⟨s', settled, isBuf, unedited, same⟩ := ideintr_dirty isDone isQueue isDirty
  exact ⟨s', foldlM_cons_of isOk (foldlM_cons_of settled rfl), isBuf, unedited,
    same.trans completed⟩

end Invariant

/-- A process calls `bread` for the first block of the first drive, and waits in `iderw`. -/
def ask : List (Action Unit Nat) := [.bread () 0 0, .next (), .next ()]

def front : Fin nBuf := ⟨nBuf - 1, by decide⟩

/-- It gets the block, changes it and writes it back. -/
def change : List (Action Unit Nat) :=
  ask ++ [.complete ideDrdy 7, .ideintr, .next (), .write () front 8, .bwrite () front]

def reach (actions : List (Action Unit Nat)) : State Unit Nat :=
  match actions.foldlM State.step (State.boot false (fun _ _ => 7) 0) with
  | .ok s => s
  | .error _ => State.boot false (fun _ _ => 7) 0

theorem change_reaches : change.foldlM State.step (State.boot false (fun _ _ => 7) 0) =
    .ok (reach change) := rfl

/-- On a device that can complete a command without error, valid buffers are backed in all runs
exactly if the device never reports one. -/
theorem valid_buffers_backed_iff (reports : BitVec 8 → Prop) (succeeds : reports ideDrdy) :
    (∀ (ι δ : Type) (_ : DecidableEq ι) havedisk1 disk blank (actions : List (Action ι δ)) s,
      (∀ action ∈ actions, ∀ status ∈ action.reported, reports status) →
      actions.foldlM State.step (State.boot havedisk1 disk blank) = .ok s → Backed s) ↔
    ∀ status, reports status → failed status = false := by
  constructor
  · intro always status isReported
    by_contra isFailed
    rw [Bool.not_eq_false] at isFailed
    have isBusy : (reach change).device = .busy ⟨0, 0, some 8⟩ := rfl
    have isQueue : (reach change).queue = [front] := rfl
    obtain ⟨s, ran, isBuf, unedited, completed⟩ :=
      write_error_validates 0 isFailed isBusy isQueue rfl
    have reported : ∀ action ∈ change ++ [Action.complete status 0, .ideintr],
        ∀ other ∈ action.reported, reports other := by
      simp only [change, ask, List.cons_append, List.nil_append, List.forall_mem_cons,
        Action.reported, Option.mem_def, Option.some.injEq, reduceCtorEq, false_imp_iff,
        forall_const, List.not_mem_nil, true_and, forall_eq']
      exact ⟨succeeds, isReported, fun _ => trivial⟩
    have backed := always Unit Nat inferInstance false (fun _ _ => 7) 0 _ s reported
      (foldlM_append_of change_reaches ran)
    obtain ⟨data, isTransfer, -, same⟩ := backed front (by rw [isBuf])
    -- The only transfer is that of the read, and the buffer holds the new data.
    rw [← same unedited, completed, isBuf] at isTransfer
    exact absurd isTransfer (by decide)
  · intro noErrors ι δ _ havedisk1 disk blank actions s reported ran
    apply Inv.backed
    apply (Inv.boot havedisk1 disk blank).run _ ran
    exact fun action member status isStatus =>
      noErrors status (reported action member status isStatus)

/-- On a device that reports nothing but `IDE_DRDY`, the process has written the block back. -/
theorem valid_buffers_backed_ready :
    ((reach (change ++ [.complete ideDrdy 7, .ideintr])).buf front).valid = true ∧
      Backed (reach (change ++ [.complete ideDrdy 7, .ideintr])) := by
  refine ⟨rfl, ?_⟩
  apply (valid_buffers_backed_iff (· = ideDrdy) rfl).mpr (by rintro _ rfl; rfl) Unit Nat
    inferInstance false (fun _ _ => 7) 0 (change ++ [.complete ideDrdy 7, .ideintr])
  · decide
  · rfl

/-- The device reports `IDE_ERR` for the read, and `bread` returns. -/
def failure : List (Action Unit Nat) := ask ++ [.complete 0x41#8 7, .ideintr, .next ()]

/-- `bread` returns the zeros that the buffer held, and the disk never had a zero. -/
theorem bread_returns_stale :
    failure.foldlM State.step (State.boot false (fun _ _ => 7) 0) = .ok (reach failure) ∧
      (reach failure).pc () = .out ∧ (reach failure).lock front = some () ∧
      ((reach failure).buf front).valid = true ∧ ((reach failure).buf front).data = 0 ∧
      (reach failure).edited front = false ∧ (reach failure).completed = [] ∧
      ∀ disk ∈ (reach failure).past, disk 0 0 = 7 := by
  refine ⟨rfl, rfl, rfl, rfl, rfl, rfl, rfl, ?_⟩
  decide

end Rexv6.Disk
