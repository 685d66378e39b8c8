import Mathlib.Algebra.BigOperators.Ring.Finset
import Rexv6.Calls.Machine
import Rexv6.Foundation.Execution
import Rexv6.Fs.Editing

/-!
Contract: reading and writing through one `struct file`.

Owns: the sections of `filewrite` and `fileread` between `ilock` and `iunlock`,
that a `filewrite` which runs alone is one `writei`, and what any interleaving of
the sections of several processes that share the file leaves behind.

Does not own: how processes come to share the file.
-/

namespace Rexv6.Calls

open Rexv6.Foundation
open Rexv6.Foundation.Resumption
open Rexv6.Fs (Slot Stop Usable Edited Spare content dinodeAt maxFile outOfBlocks)
open Function (update update_of_ne update_self update_idem)

/-! ## One section -/

/-- One turn of the loop of `filewrite`: `chunk` is written at the offset of the
file, which moves on. -/
def writeSection (f : Desc) (ip : Slot) (chunk : List UInt8) : C (Option Nat) := do
  onFs (Fs.ilock ip)
  let written ← onFs (Fs.writei ip chunk ((← get).file f).off)
  setFile f fun file => { file with off := (file.off + written.getD 0) % 2 ^ 32 }
  onFs (Fs.iunlock ip)
  return written

/-- The loop of `filewrite` is a sequence of sections. -/
theorem writeChunks_eq (f : Desc) (ip : Slot) (turns : Nat) {src : List UInt8} (some : src ≠ []) :
    writeChunks f ip (turns + 1) src = writeSection f ip (src.take maxWrite) >>= fun written =>
      match written with
      | .none => return false
      | .some r =>
        if r ≠ (src.take maxWrite).length then panic "short filewrite"
        else writeChunks f ip turns (src.drop maxWrite) := by
  cases src with
  | nil => exact absurd rfl some
  | cons c rest =>
    simp only [writeSection, bind_assoc, pure_bind]
    rfl

def State.bytes (k : State) (ip : Slot) : List UInt8 := content k.fs (k.fs.inode ip).inum

/-- From `k` to `k'` the file of `ip` has got the content `bytes` and `f` the
offset `off`, and everything else is as it was. -/
structure Advanced (f : Desc) (ip : Slot) (bytes : List UInt8) (off : Nat) (k k' : State) :
    Prop where
  fs : Edited ip bytes k.fs k'.fs
  file : k'.file = update k.file f { k.file f with off := off }
  pipe : k'.pipe = k.pipe
  proc : k'.proc = k.proc

structure Regular (k : State) (f : Desc) (ip : Slot) : Prop where
  usable : Usable k.fs ip
  notDevice : (dinodeAt k.fs.sb k.fs.disk (k.fs.inode ip).inum).type ≠ Fs.tDev
  inside : (k.file f).off ≤ (k.bytes ip).length

section Section

variable {k k' k'' : State} {f : Desc} {ip : Slot} {bytes more : List UInt8} {off off' : Nat}

theorem Advanced.off_eq (advanced : Advanced f ip bytes off k k') : (k'.file f).off = off := by
  rw [advanced.file, update_self]

theorem Advanced.bytes_eq (advanced : Advanced f ip bytes off k k') : k'.bytes ip = bytes := by
  unfold State.bytes
  rw [advanced.fs.slot.1, advanced.fs.isContent]

theorem Advanced.trans (first : Advanced f ip bytes off k k')
    (second : Advanced f ip more off' k' k'') : Advanced f ip more off' k k'' := by
  refine ⟨first.fs.trans second.fs, ?_, ?_, ?_⟩
  · rw [second.file, first.file, update_self, update_idem]
  · rw [second.pipe, first.pipe]
  · rw [second.proc, first.proc]

theorem Advanced.notDevice (advanced : Advanced f ip bytes off k k')
    (notDevice : (dinodeAt k.fs.sb k.fs.disk (k.fs.inode ip).inum).type ≠ Fs.tDev) :
    (dinodeAt k'.fs.sb k'.fs.disk (k'.fs.inode ip).inum).type ≠ Fs.tDev := by
  obtain ⟨_, _, self⟩ := advanced.fs.self
  rw [advanced.fs.slot.1, self]
  exact notDevice

theorem Advanced.regular (advanced : Advanced f ip bytes off k k') (regular : Regular k f ip)
    (inside : off ≤ bytes.length) : Regular k' f ip := by
  refine ⟨advanced.fs.usable, advanced.notDevice regular.notDevice, ?_⟩
  rw [advanced.off_eq, advanced.bytes_eq]
  exact inside

theorem advanced_unchanged (usable : Usable k.fs ip) :
    Advanced f ip (k.bytes ip) (k.file f).off k k :=
  ⟨usable.unchanged, (Function.update_eq_self _ _).symm, rfl, rfl⟩

theorem Regular.limit (regular : Regular k f ip) : (k.bytes ip).length ≤ maxFile * bSize := by
  unfold State.bytes
  rw [Fs.content_length]
  exact (regular.usable.consistent.mapped _ regular.usable.live).size_le

theorem writeSection_meets (regular : Regular k f ip) {chunk : List UInt8}
    (fits : (k.file f).off + chunk.length ≤ maxFile * bSize) :
    Meets (writeSection f ip chunk) k
      (fun written k' => written = some chunk.length ∧ Advanced f ip
        (overwrite (k.bytes ip) (k.file f).off chunk) ((k.file f).off + chunk.length) k k')
      fun stop => stop = outOfBlocks ∧ ¬ Spare k.fs ip ((k.file f).off + chunk.length) := by
  have limit : maxFile * bSize < 2 ^ 32 := by decide
  rw [writeSection, Meets, meets_bind]
  apply meets_onFs.mpr
  apply regular.usable.ilock
  rw [meets_bind, meets_get, meets_bind]
  apply meets_onFs.mpr
  apply (regular.usable.writei regular.notDevice regular.inside fits).mono
  rintro written fs ⟨rfl, locked, held, edited⟩
  rw [meets_bind]
  apply meets_setFile.mpr
  rw [meets_bind]
  apply meets_onFs.mpr
  apply Fs.iunlock_meets locked held
  refine ⟨rfl, edited, ?_, rfl, rfl⟩
  have noWrap : ((k.file f).off + chunk.length) % 2 ^ 32 = (k.file f).off + chunk.length :=
    Nat.mod_eq_of_lt (by omega)
  rw [← noWrap]
  rfl

theorem writeSection_refuses (regular : Regular k f ip) {chunk : List UInt8}
    (short : chunk.length < 2 ^ 32) (tooLong : maxFile * bSize < (k.file f).off + chunk.length) :
    Meets (writeSection f ip chunk) k
      (fun written k' => written = none ∧ Advanced f ip (k.bytes ip) (k.file f).off k k')
      fun _ => False := by
  have limit : maxFile * bSize < 2 ^ 32 := by decide
  have inside := regular.inside.trans regular.limit
  obtain ⟨_, locked, held, _⟩ := regular.usable.locked
  rw [writeSection, Meets, meets_bind]
  apply meets_onFs.mpr
  apply regular.usable.ilock
  rw [meets_bind, meets_get, meets_bind]
  apply meets_onFs.mpr
  apply (regular.usable.writei_refused regular.notDevice (by omega) short tooLong).mono
  rintro written fs ⟨rfl, rfl⟩
  rw [meets_bind]
  apply meets_setFile.mpr
  rw [meets_bind]
  apply meets_onFs.mpr
  apply Fs.iunlock_meets locked held
  refine ⟨rfl, regular.usable.still, ?_, rfl, rfl⟩
  have noWrap : ((k.file f).off + 0) % 2 ^ 32 = (k.file f).off := Nat.mod_eq_of_lt (by omega)
  rw [← noWrap]
  rfl

/-- `fileread` returns the bytes from the offset on, which moves on behind them. -/
theorem readInode_meets (usable : Usable k.fs ip)
    (notDevice : (dinodeAt k.fs.sb k.fs.disk (k.fs.inode ip).inum).type ≠ Fs.tDev)
    (offSmall : (k.file f).off < 2 ^ 32) {n : Nat} (small : n < 2 ^ 32) :
    Meets (readInode f ip n) k
      (fun result k' => Advanced f ip (k.bytes ip) ((k.file f).off + (result.getD []).length) k k' ∧
        (result.getD []) = ((k.bytes ip).drop (k.file f).off).take (result.getD []).length ∧
        (k.file f).off + (result.getD []).length < 2 ^ 32)
      fun _ => False := by
  have sizeSmall : (k.bytes ip).length < 2 ^ 32 := by
    unfold State.bytes
    rw [Fs.content_length]
    exact BitVec.isLt _
  obtain ⟨_, locked, held, _⟩ := usable.locked
  rw [readInode, Meets, meets_bind]
  apply meets_onFs.mpr
  apply usable.ilock
  rw [meets_bind, meets_get, meets_bind]
  apply meets_onFs.mpr
  apply (usable.readi notDevice small).mono
  rintro result _ ⟨rfl, read⟩
  have outcome : result = none ∨ ((k.file f).off ≤ (k.bytes ip).length ∧
    result = some (((k.bytes ip).drop (k.file f).off).take n)) := read
  rw [meets_bind]
  apply meets_setFile.mpr
  rw [meets_bind]
  apply meets_onFs.mpr
  apply Fs.iunlock_meets locked held
  have isSlice : result.getD [] = ((k.bytes ip).drop (k.file f).off).take (result.getD []).length ∧
      (k.file f).off + (result.getD []).length < 2 ^ 32 := by
    rcases outcome with rfl | ⟨inside, rfl⟩
    · exact ⟨List.take_zero.symm, offSmall⟩
    · have length : (((k.bytes ip).drop (k.file f).off).take n).length =
          min n ((k.bytes ip).length - (k.file f).off) := by
        rw [List.length_take, List.length_drop]
      refine ⟨List.take_eq_take_iff.mpr ?_, ?_⟩
      · rw [Option.getD_some, length, List.length_drop]
        omega
      · rw [Option.getD_some, length]
        omega
  refine ⟨⟨usable.still, ?_, rfl, rfl⟩, isSlice⟩
  rw [← Nat.mod_eq_of_lt isSlice.2]
  rfl

end Section

/-! ## `filewrite` alone -/

/-- What `filewrite` writes of `src` when the file can grow by `room` bytes: all of
it, or the whole chunks that fit. -/
def fitting (room : Nat) (src : List UInt8) : List UInt8 :=
  if src.length ≤ room then src else src.take (room / maxWrite * maxWrite)

section Alone

variable {k : State} {f : Desc} {ip : Slot}

theorem fitting_chunk {room : Nat} {src : List UInt8} (fits : (src.take maxWrite).length ≤ room) :
    fitting room src =
      src.take maxWrite ++ fitting (room - (src.take maxWrite).length) (src.drop maxWrite) := by
  rw [List.length_take] at fits ⊢
  unfold fitting
  rw [List.length_drop]
  by_cases whole : src.length ≤ room
  · rw [if_pos whole, if_pos (by omega), List.take_append_drop]
  · have chunks : room / maxWrite * maxWrite =
        maxWrite + (room - maxWrite) / maxWrite * maxWrite := by
      unfold maxWrite maxOpBlocks at fits ⊢
      omega
    rw [if_neg whole, if_neg (by omega), min_eq_left (by omega), chunks, List.take_add]

theorem fitting_none {room : Nat} {src : List UInt8} (tooLong : room < (src.take maxWrite).length) :
    fitting room src = [] := by
  rw [List.length_take] at tooLong
  have none : room / maxWrite = 0 := Nat.div_eq_of_lt (by omega)
  rw [fitting, if_neg (by omega), none, Nat.zero_mul, List.take_zero]

/-- The loop of `filewrite` writes the chunks that fit, one behind the other. -/
theorem writeChunks_meets (turns : Nat) : ∀ {src : List UInt8} {k : State}, src.length ≤ turns →
    Regular k f ip →
    Meets (writeChunks f ip turns src) k
      (fun ok k' => ok = decide ((k.file f).off + src.length ≤ maxFile * bSize) ∧
        Advanced f ip (overwrite (k.bytes ip) (k.file f).off
            (fitting (maxFile * bSize - (k.file f).off) src))
          ((k.file f).off + (fitting (maxFile * bSize - (k.file f).off) src).length) k k')
      fun stop => stop = outOfBlocks ∧ ¬ Spare k.fs ip ((k.file f).off +
        (fitting (maxFile * bSize - (k.file f).off) src).length) := by
  have nothing : ∀ {k : State}, Regular k f ip →
      true = decide ((k.file f).off + ([] : List UInt8).length ≤ maxFile * bSize) ∧
        Advanced f ip (overwrite (k.bytes ip) (k.file f).off
            (fitting (maxFile * bSize - (k.file f).off) []))
          ((k.file f).off + (fitting (maxFile * bSize - (k.file f).off) []).length) k k := by
    intro k regular
    have isNil : fitting (maxFile * bSize - (k.file f).off) [] = [] := if_pos (Nat.zero_le _)
    rw [isNil, overwrite_nil]
    exact ⟨(decide_eq_true (regular.inside.trans regular.limit)).symm,
      advanced_unchanged regular.usable⟩
  induction turns with
  | zero =>
    intro src k short regular
    obtain rfl := List.eq_nil_of_length_eq_zero (Nat.le_zero.mp short)
    exact nothing regular
  | succ turns ih =>
    intro src k short regular
    by_cases some : src = []
    · rw [some]
      exact nothing regular
    have small : 0 < maxWrite ∧ maxWrite < 2 ^ 32 := by decide
    have fewer : (src.drop maxWrite).length < src.length := by
      rw [List.length_drop]
      have positive := List.length_pos_iff.mpr some
      omega
    have chunkLe : (src.take maxWrite).length ≤ maxWrite := List.length_take_le _ _
    have split : (src.take maxWrite).length + (src.drop maxWrite).length = src.length := by
      rw [← List.length_append, List.take_append_drop]
    rw [writeChunks_eq f ip turns some, Meets, meets_bind]
    by_cases fits : (k.file f).off + (src.take maxWrite).length ≤ maxFile * bSize
    · have isFitting : fitting (maxFile * bSize - (k.file f).off) src = src.take maxWrite ++
          fitting (maxFile * bSize - ((k.file f).off + (src.take maxWrite).length))
            (src.drop maxWrite) := by
        rw [fitting_chunk (by omega), Nat.sub_sub]
      rw [isFitting, List.length_append, ← Nat.add_assoc,
        ← overwrite_append regular.inside, ← split, ← Nat.add_assoc]
      apply (writeSection_meets regular fits).imp
      · rintro _ k₁ ⟨rfl, advanced⟩
        have grown := length_overwrite regular.inside (src.take maxWrite)
        have rest := ih (show (src.drop maxWrite).length ≤ turns by omega)
          (advanced.regular regular (by omega))
        rw [advanced.off_eq, advanced.bytes_eq] at rest
        dsimp only
        rw [if_neg (not_not.mpr rfl)]
        apply rest.imp
        · rintro ok k' ⟨isOk, more⟩
          exact ⟨isOk, advanced.trans more⟩
        · rintro stop ⟨isStop, few⟩
          refine ⟨isStop, fun spare => few (advanced.fs.spare _ spare ?_)⟩
          rw [grown]
          exact max_le_max le_rfl (Nat.le_add_right _ _)
      · rintro stop ⟨isStop, few⟩
        exact ⟨isStop, fun spare => few (spare.mono (Nat.le_add_right _ _))⟩
    · have tooLong : maxFile * bSize < (k.file f).off + (src.take maxWrite).length := by omega
      apply (writeSection_refuses regular (by omega) tooLong).imp
      · rintro _ k' ⟨rfl, advanced⟩
        rw [fitting_none (by omega), overwrite_nil]
        exact ⟨(decide_eq_false (by omega)).symm, advanced⟩
      · intro stop never
        exact never.elim

end Alone

/-- A `filewrite` that runs alone, with enough free blocks, is one `writei` of all
bytes if they fit below the maximal size of a file. Otherwise it writes the whole
chunks that fit and returns -1. It never stops. -/
theorem filewrite_is_one_write {k : State} {f : Desc} {ip : Slot}
    (isInode : (k.file f).type = .inode ip) (writable : (k.file f).writable = true)
    (regular : Regular k f ip) (src : List UInt8) (piped : Bool)
    (spare : Spare k.fs ip ((k.file f).off +
      (fitting (maxFile * bSize - (k.file f).off) src).length)) :
    ((k.file f).off + src.length ≤ maxFile * bSize → ∃ k' k'',
      run (filewrite f src piped) k = .ok (true, k') ∧
      run (writeSection f ip src) k = .ok (some src.length, k'') ∧
      ∀ after ∈ [k', k''], Advanced f ip (overwrite (k.bytes ip) (k.file f).off src)
        ((k.file f).off + src.length) k after) ∧
    (maxFile * bSize < (k.file f).off + src.length → ∃ chunks k',
      (∀ j, (k.file f).off + j * maxWrite ≤ maxFile * bSize ↔ j ≤ chunks) ∧
      run (filewrite f src piped) k = .ok (false, k') ∧
      Advanced f ip (overwrite (k.bytes ip) (k.file f).off (src.take (chunks * maxWrite)))
        ((k.file f).off + chunks * maxWrite) k k') := by
  have inside := regular.inside.trans regular.limit
  obtain ⟨ok, k', ranLoop, isOk, advanced⟩ := (writeChunks_meets src.length le_rfl regular).returns
    fun stop full => full.2 spare
  have calls : Meets (filewrite f src piped) k (fun result after => result = ok ∧ after = k')
      fun _ => False := by
    rw [filewrite, Meets, meets_bind, meets_get]
    rw [if_neg (by simp [writable]), isInode]
    exact meets_of_run ranLoop ⟨rfl, rfl⟩
  obtain ⟨result, after, ran, isResult, isAfter⟩ := calls.returns fun _ never => never
  rw [isResult, isAfter] at ran
  constructor
  · intro fits
    have all : fitting (maxFile * bSize - (k.file f).off) src = src := if_pos (by omega)
    rw [decide_eq_true fits] at isOk
    rw [all] at spare advanced
    obtain ⟨_, k'', ranOnce, rfl, once⟩ := (writeSection_meets regular fits).returns
      fun stop full => full.2 spare
    rw [isOk] at ran
    refine ⟨k', k'', ran, ranOnce, fun after isAfter => ?_⟩
    rcases List.mem_pair.mp isAfter with rfl | rfl
    · exact advanced
    · exact once
  · intro tooLong
    have whole : (maxFile * bSize - (k.file f).off) / maxWrite * maxWrite ≤
        maxFile * bSize - (k.file f).off := Nat.div_mul_le_self _ _
    have some : fitting (maxFile * bSize - (k.file f).off) src =
        src.take ((maxFile * bSize - (k.file f).off) / maxWrite * maxWrite) := if_neg (by omega)
    have length : (src.take ((maxFile * bSize - (k.file f).off) / maxWrite * maxWrite)).length =
        (maxFile * bSize - (k.file f).off) / maxWrite * maxWrite := by
      rw [List.length_take]
      omega
    rw [decide_eq_false (by omega)] at isOk
    rw [some, length] at advanced
    rw [isOk] at ran
    refine ⟨_, k', fun j => ?_, ran, advanced⟩
    rw [Nat.le_div_iff_mul_le (by decide)]
    omega

/-- The small disk with its file open. -/
def openState : State where
  fs := Fs.smallOpen
  file _ := ⟨.inode Fs.firstSlot, 1, true, true, 0⟩
  pipe := []
  proc _ := ⟨.unused, fun _ => none, none⟩

def firstFile : Desc := ⟨0, by decide⟩

theorem openState_notDevice : (dinodeAt openState.fs.sb openState.fs.disk
    (openState.fs.inode Fs.firstSlot).inum).type ≠ Fs.tDev := by
  have typed := congrArg Fs.Dinode.type Fs.smallState_file
  intro device
  exact absurd (typed.symm.trans device) (by decide)

/-- Two chunks into the empty file. -/
theorem filewrite_is_one_write_two : ∃ k',
    run (filewrite firstFile (List.replicate 2000 7) false) openState = .ok (true, k') ∧
      k'.bytes Fs.firstSlot = List.replicate 2000 7 ∧ (k'.file firstFile).off = 2000 ∧
      maxWrite < 2000 := by
  have empty : openState.bytes Fs.firstSlot = [] := Fs.smallOpen_content
  have length : (List.replicate 2000 (7 : UInt8)).length = 2000 := List.length_replicate
  have start : (openState.file firstFile).off = 0 := rfl
  have all : fitting (maxFile * bSize - (openState.file firstFile).off)
      (List.replicate 2000 7) = List.replicate 2000 7 := by
    refine if_pos ?_
    rw [length]
    decide
  have fits : (openState.file firstFile).off + 2000 ≤ maxFile * bSize := by decide
  obtain ⟨k', _, ran, _, advanced⟩ := (filewrite_is_one_write (f := firstFile) rfl rfl
    ⟨Fs.smallOpen_usable, openState_notDevice, Nat.zero_le _⟩ (List.replicate 2000 7) false
    (by rw [all, length]; exact Fs.smallOpen_spare (by decide))).1 (length.symm ▸ fits)
  have advanced := advanced k' (by simp)
  rw [empty, length, start, ← List.length_nil, overwrite_end] at advanced
  exact ⟨k', ran, advanced.bytes_eq, advanced.off_eq, by decide⟩

/-! ## Writers that share the file -/

def chunksOf (src : List UInt8) : List (List UInt8) :=
  if src = [] then [] else src.take maxWrite :: chunksOf (src.drop maxWrite)
termination_by src.length
decreasing_by
  rw [List.length_drop]
  have positive := List.length_pos_iff.mpr ‹src ≠ []›
  have some : 0 < maxWrite := by decide
  omega

def pending (calls : List (List UInt8)) : Nat := (calls.map List.length).sum

/-- Processes that write to the file, each with what it has still to write, call by
call, and the chunks that have been written, in order. -/
structure Writers (P : Type) where
  kernel : State
  work : P → List (List UInt8)
  log : List (P × List UInt8)

section Writers

variable {P : Type} [DecidableEq P]

/-- The next section of process `p`: one turn of the loop of its `filewrite`. A call
with nothing left returns. -/
def Writers.step (f : Desc) (ip : Slot) (w : Writers P) (p : P) : Except Stop (Writers P) :=
  match w.work p with
  | [] => .ok w
  | [] :: calls => .ok { w with work := update w.work p calls }
  | src :: calls =>
    match run (writeSection f ip (src.take maxWrite)) w.kernel with
    | .error stop => .error stop
    | .ok (none, k) => .ok { w with kernel := k, work := update w.work p calls }
    | .ok (some r, k) =>
      if r ≠ (src.take maxWrite).length then .error (.panic "short filewrite")
      else .ok
        { kernel := k
          work := update w.work p (src.drop maxWrite :: calls)
          log := w.log ++ [(p, src.take maxWrite)] }

theorem Writers.step_section {f : Desc} {ip : Slot} {w : Writers P} {p : P} {src : List UInt8}
    {calls : List (List UInt8)} (isWork : w.work p = src :: calls) (hasBytes : src ≠ []) :
    w.step f ip p =
      match run (writeSection f ip (src.take maxWrite)) w.kernel with
      | .error stop => .error stop
      | .ok (none, k) => .ok { w with kernel := k, work := update w.work p calls }
      | .ok (some r, k) =>
        if r ≠ (src.take maxWrite).length then .error (.panic "short filewrite")
        else .ok
          { kernel := k
            work := update w.work p (src.drop maxWrite :: calls)
            log := w.log ++ [(p, src.take maxWrite)] } := by
  rw [Writers.step, isWork]
  cases src with
  | nil => exact absurd rfl hasBytes
  | cons c rest => rfl

variable [Fintype P]

/-- The file is the old file with all chunks that have been written behind it, and
the chunks of each process are those of its calls, in order. -/
structure Appended (f : Desc) (ip : Slot) (start w : Writers P) : Prop where
  advanced : Advanced f ip (start.kernel.bytes ip ++ w.log.flatMap Prod.snd)
    ((start.kernel.bytes ip).length + (w.log.flatMap Prod.snd).length) start.kernel w.kernel
  order : ∀ p, (w.log.filter fun entry => entry.1 = p).map Prod.snd ++ (w.work p).flatMap chunksOf =
    (start.work p).flatMap chunksOf
  total : (w.log.flatMap Prod.snd).length + ∑ p, pending (w.work p) = ∑ p, pending (start.work p)

theorem sum_update {Value : Type} (size : Value → Nat) (work : P → Value) (p : P) (value : Value) :
    ∑ q, size (update work p value q) + size (work p) = ∑ q, size (work q) + size value := by
  have others : ∑ q ∈ Finset.univ.erase p, size (update work p value q) =
      ∑ q ∈ Finset.univ.erase p, size (work q) := by
    apply Finset.sum_congr rfl
    intro q member
    rw [update_of_ne (Finset.ne_of_mem_erase member)]
  have before := Finset.add_sum_erase Finset.univ (fun q => size (work q)) (Finset.mem_univ p)
  have after := Finset.add_sum_erase Finset.univ (fun q => size (update work p value q))
    (Finset.mem_univ p)
  rw [update_self] at after
  omega

variable {f : Desc} {ip : Slot} {start w w' : Writers P} {p : P}

theorem chunksOf_nil : chunksOf [] = [] := by
  rw [chunksOf, if_pos rfl]

theorem chunksOf_of_ne {src : List UInt8} (some : src ≠ []) :
    chunksOf src = src.take maxWrite :: chunksOf (src.drop maxWrite) := by
  rw [chunksOf, if_neg some]

theorem pending_cons (src : List UInt8) (calls : List (List UInt8)) :
    pending (src :: calls) = src.length + pending calls := by
  rw [pending, List.map_cons, List.sum_cons, pending]

theorem appended_start (regular : Regular start.kernel f ip)
    (atEnd : (start.kernel.file f).off = (start.kernel.bytes ip).length)
    (nothing : start.log = []) :
    Appended f ip start start := by
  have unchanged := advanced_unchanged (f := f) regular.usable
  rw [atEnd] at unchanged
  refine ⟨?_, fun p => ?_, ?_⟩
  · rw [nothing, List.flatMap_nil, List.append_nil]
    exact unchanged
  · rw [nothing]
    rfl
  · rw [nothing, List.flatMap_nil, List.length_nil, Nat.zero_add]

theorem Appended.wrote (appended : Appended f ip start w) {k : State} {chunk : List UInt8}
    {calls : List (List UInt8)}
    (chunks : chunk :: calls.flatMap chunksOf = (w.work p).flatMap chunksOf)
    (bytes : chunk.length + pending calls = pending (w.work p))
    (advanced : Advanced f ip (w.kernel.bytes ip ++ chunk)
      ((w.kernel.file f).off + chunk.length) w.kernel k) :
    Appended f ip start
      { kernel := k, work := update w.work p calls, log := w.log ++ [(p, chunk)] } := by
  have logged : (w.log ++ [(p, chunk)]).flatMap Prod.snd = w.log.flatMap Prod.snd ++ chunk := by
    rw [List.flatMap_append, List.flatMap_singleton]
  refine ⟨?_, fun q => ?_, ?_⟩
  · have all := appended.advanced.trans advanced
    rw [appended.advanced.bytes_eq, appended.advanced.off_eq, List.append_assoc] at all
    rw [logged, List.length_append, ← Nat.add_assoc]
    exact all
  · have before := appended.order q
    dsimp only
    by_cases isWriter : p = q
    · subst isWriter
      rw [← before, ← chunks]
      simp
    · rw [update_of_ne (Ne.symm isWriter), List.filter_append, List.filter_singleton]
      simpa [isWriter] using before
  · have sums := sum_update pending w.work p calls
    have before := appended.total
    dsimp only
    rw [logged, List.length_append]
    omega

theorem Appended.returned (appended : Appended f ip start w) {calls : List (List UInt8)}
    (isEmpty : w.work p = [] :: calls) :
    Appended f ip start { w with work := update w.work p calls } := by
  refine ⟨appended.advanced, fun q => ?_, ?_⟩
  · rw [← appended.order q]
    dsimp only
    by_cases isCaller : q = p
    · rw [isCaller, update_self, isEmpty, List.flatMap_cons, chunksOf_nil, List.nil_append]
    · rw [update_of_ne isCaller]
  · have sums := sum_update pending w.work p calls
    rw [isEmpty, pending_cons, List.length_nil, Nat.zero_add] at sums
    have before := appended.total
    dsimp only
    omega

theorem Appended.step (appended : Appended f ip start w) (regular : Regular start.kernel f ip)
    (fits : (start.kernel.bytes ip).length + ∑ q, pending (start.work q) ≤ maxFile * bSize)
    (p : P) :
    match w.step f ip p with
    | .ok w' => Appended f ip start w'
    | .error stop => stop = outOfBlocks ∧ ¬ Spare start.kernel.fs ip
        ((start.kernel.bytes ip).length + ∑ q, pending (start.work q)) := by
  cases isWork : w.work p with
  | nil =>
    rw [Writers.step, isWork]
    exact appended
  | cons src calls =>
    by_cases some : src = []
    · rw [some] at isWork
      rw [Writers.step, isWork]
      exact appended.returned isWork
    rw [Writers.step_section isWork some]
    have off := appended.advanced.off_eq
    have sized : (w.kernel.file f).off = (w.kernel.bytes ip).length := by
      rw [off, appended.advanced.bytes_eq, List.length_append]
    have split : (src.take maxWrite).length + (src.drop maxWrite).length = src.length := by
      rw [← List.length_append, List.take_append_drop]
    -- The chunk is part of what is pending, so that the section stays below the limit.
    have total := appended.total
    have own := Finset.add_sum_erase Finset.univ (fun q => pending (w.work q)) (Finset.mem_univ p)
    rw [isWork, pending_cons] at own
    have room : (w.kernel.file f).off + (src.take maxWrite).length ≤
      (start.kernel.bytes ip).length + ∑ q, pending (start.work q) := by omega
    have meets := writeSection_meets
      (appended.advanced.regular regular (List.length_append ▸ le_rfl)) (room.trans fits)
    cases ran : run (writeSection f ip (src.take maxWrite)) w.kernel with
    | error stop =>
      obtain ⟨isStop, few⟩ := meets.of_stop ran
      refine ⟨isStop, fun spare => few ((appended.advanced.fs.spare _ spare ?_).mono room)⟩
      rw [List.length_append]
      omega
    | ok result =>
      obtain ⟨written, k⟩ := result
      obtain ⟨rfl, advanced⟩ := meets.of_run ran
      rw [sized, overwrite_end, ← sized] at advanced
      dsimp only
      rw [if_neg (not_not.mpr rfl)]
      apply appended.wrote _ _ advanced
      · rw [isWork, List.flatMap_cons, List.flatMap_cons, chunksOf_of_ne some, List.cons_append]
      · rw [isWork, pending_cons, pending_cons]
        omega

end Writers

/-! ## Readers that share the file -/

/-- What a call of `fileread` has returned: the bytes from the offset `off` on. -/
structure Reply (P : Type) where
  reader : P
  off : Nat
  bytes : List UInt8

/-- Processes that read the file, each with the sizes it has still to ask for, and
what has been returned, in order. -/
structure Readers (P : Type) where
  kernel : State
  requests : P → List Nat
  replies : List (Reply P)

section Readers

variable {P : Type} [DecidableEq P]

/-- The next `fileread` of process `p`, which is a single section. -/
def Readers.step (f : Desc) (ip : Slot) (r : Readers P) (p : P) : Except Stop (Readers P) :=
  match r.requests p with
  | [] => .ok r
  | n :: rest =>
    match run (readInode f ip n) r.kernel with
    | .error stop => .error stop
    | .ok (bytes, k) => .ok
        { kernel := k
          requests := update r.requests p rest
          replies := r.replies ++ [⟨p, (r.kernel.file f).off, bytes.getD []⟩] }

/-- The file is as it was, and the replies are slices of it that follow one another. -/
structure Served (f : Desc) (ip : Slot) (k : State) (r : Readers P) : Prop where
  advanced : Advanced f ip (k.bytes ip) (r.kernel.file f).off k r.kernel
  slices : ∀ reply ∈ r.replies, reply.bytes = ((k.bytes ip).drop reply.off).take reply.bytes.length
  ordered : r.replies.Pairwise fun first second => first.off + first.bytes.length ≤ second.off
  behind : ∀ reply ∈ r.replies, reply.off + reply.bytes.length ≤ (r.kernel.file f).off
  word : (r.kernel.file f).off < 2 ^ 32
  small : ∀ p, ∀ n ∈ r.requests p, n < 2 ^ 32

variable {f : Desc} {ip : Slot} {k : State} {r : Readers P}

/-- A `fileread` of `p` that has returned `bytes`. -/
theorem Served.replied (served : Served f ip k r) {k' : State} {bytes : List UInt8} {p : P}
    {n : Nat}
    {rest : List Nat} (isRequest : r.requests p = n :: rest)
    (advanced : Advanced f ip (k.bytes ip) ((r.kernel.file f).off + bytes.length) r.kernel k')
    (isSlice : bytes = ((k.bytes ip).drop (r.kernel.file f).off).take bytes.length)
    (word : (r.kernel.file f).off + bytes.length < 2 ^ 32) :
    Served f ip k
      { kernel := k'
        requests := update r.requests p rest
        replies := r.replies ++ [⟨p, (r.kernel.file f).off, bytes⟩] } where
  advanced := by
    rw [advanced.off_eq]
    exact served.advanced.trans advanced
  slices reply member := by
    rcases List.mem_append.mp member with old | new
    · exact served.slices reply old
    · rw [List.mem_singleton.mp new]
      exact isSlice
  ordered := by
    refine List.pairwise_append.mpr ⟨served.ordered, List.pairwise_singleton _ _, ?_⟩
    intro reply old last isLast
    rw [List.mem_singleton.mp isLast]
    exact served.behind reply old
  behind reply member := by
    rw [advanced.off_eq]
    rcases List.mem_append.mp member with old | new
    · exact (served.behind reply old).trans (Nat.le_add_right _ _)
    · rw [List.mem_singleton.mp new]
  word := by
    rw [advanced.off_eq]
    exact word
  small q := by
    dsimp only
    by_cases isReader : q = p
    · rw [isReader, update_self]
      intro m member
      apply served.small p
      rw [isRequest]
      exact List.mem_cons_of_mem _ member
    · rw [update_of_ne isReader]
      exact served.small q

theorem Served.step (served : Served f ip k r)
    (notDevice : (dinodeAt k.fs.sb k.fs.disk (k.fs.inode ip).inum).type ≠ Fs.tDev) (p : P) :
    ∃ r', r.step f ip p = .ok r' ∧ Served f ip k r' := by
  unfold Readers.step
  cases isRequest : r.requests p with
  | nil => exact ⟨r, rfl, served⟩
  | cons n rest =>
    have small : n < 2 ^ 32 := served.small p n (by simp [isRequest])
    obtain ⟨result, k', ran, advanced, isSlice, word⟩ := (readInode_meets
      served.advanced.fs.usable (served.advanced.notDevice notDevice) served.word small).returns
        fun _ never => never
    rw [served.advanced.bytes_eq] at advanced isSlice
    have ran : run (readInode f ip n) r.kernel = .ok (result, k') := ran
    dsimp only
    rw [ran]
    exact ⟨_, rfl, served.replied isRequest advanced isSlice word⟩

end Readers

/-- Processes that share an open file, and whose sections interleave in any order:
when all of them write, from the end of the file on, the file is at every time the
old file with the chunks of all processes behind it, each process's in its order,
and no section fails while there are free blocks; when all of them read, from any
offset on, what they get are slices of the file that follow one another. -/
theorem shared_file_interleaves {P : Type} [DecidableEq P] [Fintype P] {k : State} {f : Desc}
    {ip : Slot} (usable : Usable k.fs ip)
    (notDevice : (dinodeAt k.fs.sb k.fs.disk (k.fs.inode ip).inum).type ≠ Fs.tDev)
    (schedule : List P) :
    (∀ work : P → List (List UInt8), (k.file f).off = (k.bytes ip).length →
      (k.bytes ip).length + ∑ p, pending (work p) ≤ maxFile * bSize →
      (∀ final, schedule.foldlM (Writers.step f ip) ⟨k, work, []⟩ = .ok final →
        Appended f ip ⟨k, work, []⟩ final) ∧
      (Spare k.fs ip ((k.bytes ip).length + ∑ p, pending (work p)) →
        ∃ final, schedule.foldlM (Writers.step f ip) ⟨k, work, []⟩ = .ok final)) ∧
    (∀ requests : P → List Nat, (k.file f).off < 2 ^ 32 → (∀ p, ∀ n ∈ requests p, n < 2 ^ 32) →
      ∃ final, schedule.foldlM (Readers.step f ip) ⟨k, requests, []⟩ = .ok final ∧
        Served f ip k final) := by
  constructor
  · intro work atEnd fits
    have regular : Regular k f ip := ⟨usable, notDevice, atEnd.le⟩
    have begins : Appended f ip ⟨k, work, []⟩ ⟨k, work, []⟩ := appended_start regular atEnd rfl
    constructor
    · intro final ran
      apply Execution.foldlM_keeps (Appended f ip ⟨k, work, []⟩) _ schedule begins ran
      intro w p w' appended stepped
      have outcome := appended.step regular fits p
      rw [stepped] at outcome
      exact outcome
    · intro spare
      have progress : ∀ (w : Writers P) (p : P), True → Appended f ip ⟨k, work, []⟩ w →
          ∃ w', w.step f ip p = .ok w' ∧ Appended f ip ⟨k, work, []⟩ w' := by
        intro w p _ appended
        have outcome := appended.step regular fits p
        cases stepped : w.step f ip p with
        | ok w' =>
          rw [stepped] at outcome
          exact ⟨w', rfl, outcome⟩
        | error stop =>
          rw [stepped] at outcome
          exact absurd spare outcome.2
      obtain ⟨final, ran, _⟩ := Execution.foldlM_progress _ _ progress schedule
        (Execution.Along.of_forall _ (fun _ _ _ => trivial) _) begins
      exact ⟨final, ran⟩
  · intro requests word small
    have begins : Served f ip k (⟨k, requests, []⟩ : Readers P) := by
      refine ⟨advanced_unchanged usable, ?_, List.Pairwise.nil, ?_, word, small⟩
      · intro reply member
        exact absurd member List.not_mem_nil
      · intro reply member
        exact absurd member List.not_mem_nil
    apply Execution.foldlM_progress (fun _ _ => True) (Served f ip k) _ schedule
      (Execution.Along.of_forall _ (fun _ _ _ => trivial) _) begins
    intro r p _ served
    exact served.step notDevice p

/-- The file of the small disk with two bytes in it, open at its start. -/
theorem openState_written : ∃ k : State, Usable k.fs Fs.firstSlot ∧
    (dinodeAt k.fs.sb k.fs.disk (k.fs.inode Fs.firstSlot).inum).type ≠ Fs.tDev ∧
    k.bytes Fs.firstSlot = [7, 9] ∧ (k.file firstFile).off = 0 := by
  have empty : openState.bytes Fs.firstSlot = [] := Fs.smallOpen_content
  have regular : Regular openState firstFile Fs.firstSlot :=
    ⟨Fs.smallOpen_usable, openState_notDevice, Nat.zero_le _⟩
  have fits : (openState.file firstFile).off + ([7, 9] : List UInt8).length ≤ maxFile * bSize := by
    decide
  obtain ⟨_, k, _, _, advanced⟩ := (writeSection_meets regular fits).returns
    fun _ full => full.2 (Fs.smallOpen_spare (by decide))
  refine ⟨{ k with file := openState.file }, advanced.fs.usable,
    advanced.notDevice openState_notDevice, ?_, rfl⟩
  exact advanced.bytes_eq.trans (by rw [empty]; rfl)

/-- Two processes that write, and two that read. -/
theorem shared_file_interleaves_two :
    (∃ final : Writers Bool, [true, false].foldlM (Writers.step firstFile Fs.firstSlot)
        ⟨openState, fun p => if p then [[7, 9]] else [[8]], []⟩ = .ok final ∧
      final.kernel.bytes Fs.firstSlot = final.log.flatMap Prod.snd) ∧
    ∃ k, k.bytes Fs.firstSlot = [7, 9] ∧
      ∃ final : Readers Bool, [true, false].foldlM (Readers.step firstFile Fs.firstSlot)
        ⟨k, fun _ => [1], []⟩ = .ok final ∧ Served firstFile Fs.firstSlot k final := by
  constructor
  · have empty : openState.bytes Fs.firstSlot = [] := Fs.smallOpen_content
    obtain ⟨appends, returns⟩ := (shared_file_interleaves (f := firstFile) Fs.smallOpen_usable
      openState_notDevice [true, false]).1 (fun p => if p then [[7, 9]] else [[8]])
      (by rw [empty]; rfl) (by rw [empty]; decide)
    obtain ⟨final, ran⟩ := returns (Fs.smallOpen_spare (by decide))
    refine ⟨final, ran, ?_⟩
    rw [(appends final ran).advanced.bytes_eq, empty, List.nil_append]
  · obtain ⟨k, usable, notDevice, isBytes, isStart⟩ := openState_written
    refine ⟨k, isBytes, (shared_file_interleaves usable notDevice [true, false]).2 (fun _ => [1]) ?_
      (by decide)⟩
    rw [isStart]
    decide

end Rexv6.Calls
