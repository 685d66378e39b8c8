import Rexv6.Fs.Cache

/-!
Contract: a file that is locked, read or written, and unlocked.

Owns: when the inode of an open file can be locked, what a write between `ilock`
and `iunlock` changes, and how several such writes add up.

Does not own: the offset of the open file, and the order in which processes take
the lock.
-/

namespace Rexv6.Fs

open Rexv6.Foundation
open Rexv6.Foundation.Resumption
open Function (update update_of_ne update_self)

/-! ## Locking -/

/-- An allocated inode that is referred to, not locked, and with a true copy if
any. -/
structure Usable (s : State) (ip : Slot) : Prop where
  consistent : Consistent s
  live : Live s.sb (dinodeAt s.sb s.disk) (s.inode ip).inum
  held : 1 ≤ (s.inode ip).ref
  unlocked : (s.inode ip).locked = false
  copy : (s.inode ip).valid = true → (s.inode ip).din = dinodeAt s.sb s.disk (s.inode ip).inum

section Lock

variable {s : State} {ip : Slot} {post : Unit → State → Prop} {stops : Stop → Prop}

theorem Consistent.withInode (consistent : Consistent s) (inode : Inode) :
    Consistent (s.withInode ip inode) :=
  ⟨consistent.disksize, consistent.loaded, consistent.sound, consistent.mapped⟩

theorem Usable.loaded (usable : Usable s ip) : Loaded (s.afterIlock ip) ip := by
  have slot : (s.afterIlock ip).inode ip = { s.inode ip with
      locked := true
      valid := true
      din := if (s.inode ip).valid = true then (s.inode ip).din
        else dinodeAt s.sb s.disk (s.inode ip).inum } := update_self _ _ _
  constructor
  · rw [slot]
    exact usable.live
  · rw [slot]
    by_cases valid : (s.inode ip).valid = true
    · rw [if_pos valid]
      exact usable.copy valid
    · rw [if_neg valid]
      rfl

theorem Usable.ilock (usable : Usable s ip) (holds : post () (s.afterIlock ip)) :
    Meets (ilock ip) s post stops := by
  apply (ilock_meets s ip).imp
  · rintro _ _ ⟨_, _, _, rfl⟩
    exact holds
  · rintro stop (⟨_, low⟩ | ⟨_, locked⟩ | ⟨_, behind⟩ | ⟨_, _, untyped⟩)
    · have held := usable.held
      omega
    · rw [usable.unlocked] at locked
      cases locked
    · have inTable := iblock_lt usable.live.1
      have inFront : s.sb.bmapstart < s.sb.dataStart := bmapstart_lt
      have onDisk := usable.consistent.sound.valid.data
      have disksize := usable.consistent.disksize
      omega
    · exact absurd untyped usable.live.2

def State.afterIunlock (s : State) (ip : Slot) : State :=
  s.withInode ip { s.inode ip with locked := false }

theorem iunlock_meets (locked : (s.inode ip).locked = true) (held : 1 ≤ (s.inode ip).ref)
    (holds : post () (s.afterIunlock ip)) : Meets (iunlock ip) s post stops := by
  rw [iunlock, Meets, meets_bind, meets_get, if_neg (by simp [locked]; omega)]
  exact releasesleep_meets holds

end Lock

/-! ## Writing -/

def Spare (s : State) (ip : Slot) (stop : Nat) : Prop :=
  Fits s (dinodeAt s.sb s.disk (s.inode ip).inum) stop

/-- From `s` to `s'` the file of `ip` has got the content `bytes`, and everything
else is as it was. -/
structure Edited (ip : Slot) (bytes : List UInt8) (s s' : State) : Prop where
  usable : Usable s' ip
  slot : (s'.inode ip).inum = (s.inode ip).inum ∧ (s'.inode ip).ref = (s.inode ip).ref
  cache : ∀ jp, jp ≠ ip → s'.inode jp = s.inode jp
  sb : s'.sb = s.sb
  disksize : s'.disksize = s.disksize
  devsw : s'.devsw = s.devsw
  isContent : content s' (s.inode ip).inum = bytes
  grows : (content s (s.inode ip).inum).length ≤ bytes.length
  self : ∃ size addrs, dinodeAt s'.sb s'.disk (s.inode ip).inum =
    { dinodeAt s.sb s.disk (s.inode ip).inum with size := size, addrs := addrs }
  table : ∀ inum < s.sb.slots, inum ≠ (s.inode ip).inum →
    dinodeAt s'.sb s'.disk inum = dinodeAt s.sb s.disk inum
  others : ∀ inum, inum ≠ (s.inode ip).inum → Live s.sb (dinodeAt s.sb s.disk) inum →
    content s' inum = content s inum
  spare : ∀ stop, Spare s ip stop → bytes.length ≤ max (content s (s.inode ip).inum).length stop →
    Spare s' ip stop

section Edited

variable {s s' s'' : State} {ip : Slot} {bytes more : List UInt8}

theorem Edited.trans (first : Edited ip bytes s s') (second : Edited ip more s' s'') :
    Edited ip more s s'' := by
  have inum := first.slot.1
  have grown := second.grows
  rw [inum, first.isContent] at grown
  constructor
  · exact second.usable
  · rw [second.slot.1, second.slot.2]
    exact first.slot
  · intro jp other
    rw [second.cache jp other, first.cache jp other]
  · rw [second.sb, first.sb]
  · rw [second.disksize, first.disksize]
  · rw [second.devsw, first.devsw]
  · rw [← inum]
    exact second.isContent
  · exact first.grows.trans grown
  · obtain ⟨_, _, firstSelf⟩ := first.self
    obtain ⟨size, addrs, secondSelf⟩ := second.self
    rw [inum, firstSelf] at secondSelf
    exact ⟨size, addrs, secondSelf⟩
  · intro other inTable different
    rw [second.table other (first.sb ▸ inTable) (inum ▸ different),
      first.table other inTable different]
  · intro other different live
    have stillLive : Live s'.sb (dinodeAt s'.sb s'.disk) other := by
      refine ⟨first.sb ▸ live.1, ?_⟩
      rw [first.table other live.1 different]
      exact live.2
    rw [second.others other (inum ▸ different) stillLive, first.others other different live]
  · intro stop spare within
    have reaches := first.grows
    apply second.spare stop (first.spare stop spare (by omega))
    rw [inum, first.isContent]
    omega

theorem Usable.unchanged (usable : Usable s ip) : Edited ip (content s (s.inode ip).inum) s s :=
  ⟨usable, ⟨rfl, rfl⟩, fun _ _ => rfl, rfl, rfl, rfl, rfl, le_rfl, ⟨_, _, rfl⟩, fun _ _ _ => rfl,
    fun _ _ _ => rfl, fun _ spare _ => spare⟩

theorem Spare.mono {few many : Nat} (spare : Spare s ip many) (fewer : few ≤ many) :
    Spare s ip few := by
  apply le_trans (required_mono _ _) spare
  apply blocksOf_le.mpr
  apply le_trans _ (blocksOf_le.mp le_rfl)
  omega

theorem Usable.inode (usable : Usable s ip) : (s.afterIlock ip).inode = update s.inode ip
    { s.inode ip with
      locked := true
      valid := true
      din := dinodeAt s.sb s.disk (s.inode ip).inum } := by
  have isDin : (if (s.inode ip).valid = true then (s.inode ip).din
      else dinodeAt s.sb s.disk (s.inode ip).inum) = dinodeAt s.sb s.disk (s.inode ip).inum := by
    by_cases valid : (s.inode ip).valid = true
    · rw [if_pos valid, usable.copy valid]
    · rw [if_neg valid]
  unfold State.afterIlock
  rw [isDin]
  rfl

theorem Usable.slot (usable : Usable s ip) : (s.afterIlock ip).inode ip =
    { s.inode ip with
      locked := true
      valid := true
      din := dinodeAt s.sb s.disk (s.inode ip).inum } := by
  rw [usable.inode, update_self]

theorem Usable.locked (usable : Usable s ip) : Consistent (s.afterIlock ip) ∧
    ((s.afterIlock ip).inode ip).locked = true ∧ 1 ≤ ((s.afterIlock ip).inode ip).ref ∧
      ((s.afterIlock ip).inode ip).din.size.toNat = (content s (s.inode ip).inum).length := by
  rw [usable.slot, content_length]
  exact ⟨usable.consistent.withInode _, rfl, usable.held, rfl⟩

/-- `iunlock` after a write to the disk that is in the copy. -/
theorem Usable.afterIunlock (usable : Usable s ip) (consistent : Consistent s')
    (inode : s'.inode = update s.inode ip { s.inode ip with
      locked := true
      valid := true
      din := dinodeAt s'.sb s'.disk (s.inode ip).inum })
    (live : Live s'.sb (dinodeAt s'.sb s'.disk) (s.inode ip).inum) :
    Usable (s'.afterIunlock ip) ip ∧
      ((s'.afterIunlock ip).inode ip).inum = (s.inode ip).inum ∧
      ((s'.afterIunlock ip).inode ip).ref = (s.inode ip).ref ∧
      ∀ jp, jp ≠ ip → (s'.afterIunlock ip).inode jp = s.inode jp := by
  have slot : (s'.afterIunlock ip).inode ip = { s.inode ip with
      locked := false
      valid := true
      din := dinodeAt s'.sb s'.disk (s.inode ip).inum } := by
    unfold State.afterIunlock
    rw [withInode_inode, update_self, inode, update_self]
  refine ⟨⟨consistent.withInode _, ?_, ?_, ?_, ?_⟩, ?_, ?_, fun jp other => ?_⟩
  · rw [slot]
    exact live
  · rw [slot]
    exact usable.held
  · rw [slot]
  · rw [slot]
    exact fun _ => rfl
  · rw [slot]
  · rw [slot]
  · unfold State.afterIunlock
    rw [withInode_inode, update_of_ne other, inode, update_of_ne other]

theorem Usable.still (usable : Usable s ip) :
    Edited ip (content s (s.inode ip).inum) s ((s.afterIlock ip).afterIunlock ip) := by
  have consistent : Consistent (s.afterIlock ip) := usable.consistent.withInode _
  obtain ⟨after, inum, ref, cache⟩ := usable.afterIunlock consistent usable.inode usable.live
  refine ⟨after, ⟨inum, ref⟩, cache, rfl, rfl, rfl, rfl, le_rfl, ⟨_, _, rfl⟩, fun _ _ _ => rfl,
    fun _ _ _ => rfl, fun stop spare _ => ?_⟩
  unfold Spare
  rw [inum]
  exact spare

/-- A write between locking and unlocking. -/
theorem Usable.edited (usable : Usable s ip) {off : Nat} {data : List UInt8}
    (inside : off ≤ (content s (s.inode ip).inum).length)
    (fits : off + data.length ≤ maxFile * bSize)
    (wrote : Wrote ip (max ((s.afterIlock ip).inode ip).din.size.toNat (off + data.length))
      (patch (byteAt s.disk ((s.afterIlock ip).inode ip).din) off data) (s.afterIlock ip) s') :
    Edited ip (overwrite (content s (s.inode ip).inum) off data) s (s'.afterIunlock ip) := by
  have loaded := usable.loaded
  have isInum : ((s.afterIlock ip).inode ip).inum = (s.inode ip).inum := by rw [usable.slot]
  have isDin : ((s.afterIlock ip).inode ip).din = dinodeAt s.sb s.disk (s.inode ip).inum := by
    rw [usable.slot]
  have size := usable.locked.2.2.2
  have limit := (usable.consistent.mapped _ usable.live).size_le
  rw [← content_length] at limit
  have patched := wrote.content_patch loaded rfl rfl (by omega) (by omega)
  rw [isInum] at patched
  have isContent : content (s'.afterIunlock ip) (s.inode ip).inum =
    overwrite (content s (s.inode ip).inum) off data := patched
  have inode := wrote.inode
  rw [isInum, usable.inode, update_self, Function.update_idem] at inode
  have self := wrote.self
  rw [isInum, isDin] at self
  have live : Live s'.sb (dinodeAt s'.sb s'.disk) (s.inode ip).inum := by
    rw [wrote.sb]
    refine ⟨usable.live.1, ?_⟩
    rw [← wrote.sb, self]
    exact usable.live.2
  obtain ⟨after, inum, ref, cache⟩ := usable.afterIunlock wrote.consistent inode live
  have grown := length_overwrite inside data
  refine ⟨after, ⟨inum, ref⟩, cache, wrote.sb, wrote.disksize, wrote.devsw, isContent, by omega,
    ⟨_, _, self⟩, fun other inTable different => ?_, fun other different isLive => ?_,
    fun stop spare within => ?_⟩
  · exact wrote.table other inTable (isInum ▸ different)
  · exact wrote.content_other (isInum ▸ different) (usable.consistent.withInode _) isLive
  · have conserved := wrote.conserved
    have direct := wrote.direct
    rw [isInum, isDin] at conserved direct
    rw [← content_length, ← grown] at conserved direct
    have reach : max (overwrite (content s (s.inode ip).inum) off data).length stop =
        max (content s (s.inode ip).inum).length stop := by omega
    have sameRequired : required (blocksOf (max (content s (s.inode ip).inum).length stop))
        (dinodeAt s'.sb s'.disk (s.inode ip).inum) =
          required (blocksOf (max (content s (s.inode ip).inum).length stop))
            (dinodeAt s.sb s.disk (s.inode ip).inum) := by
      unfold required
      split
      · rfl
      · rw [direct]
        have fewer := blocksOf_le.mpr (within.trans (blocksOf_le.mp le_rfl))
        omega
    unfold Spare Fits at spare ⊢
    rw [← content_length] at spare ⊢
    rw [inum, isContent, reach]
    show required _ (dinodeAt s'.sb s'.disk (s.inode ip).inum) ≤ freeBlocks s'.sb s'.disk +
      (_ + indirects (dinodeAt s'.sb s'.disk (s.inode ip).inum))
    rw [conserved, sameRequired]
    exact spare

variable {off : Nat} {data : List UInt8}

theorem Usable.writei (usable : Usable s ip)
    (notDevice : (dinodeAt s.sb s.disk (s.inode ip).inum).type ≠ tDev)
    (inside : off ≤ (content s (s.inode ip).inum).length)
    (fits : off + data.length ≤ maxFile * bSize) :
    Meets (writei ip data off) (s.afterIlock ip)
      (fun result s' => result = some data.length ∧ (s'.inode ip).locked = true ∧
        1 ≤ (s'.inode ip).ref ∧
        Edited ip (overwrite (content s (s.inode ip).inum) off data) s (s'.afterIunlock ip))
      fun stop => stop = outOfBlocks ∧ ¬ Spare s ip (off + data.length) := by
  obtain ⟨consistent, locked, held, size⟩ := usable.locked
  have isDin : ((s.afterIlock ip).inode ip).din = dinodeAt s.sb s.disk (s.inode ip).inum := by
    rw [usable.slot]
  rw [← isDin] at notDevice
  apply (writei_meets consistent usable.loaded notDevice (by omega) fits).imp
  · rintro result s' ⟨isResult, wrote⟩
    refine ⟨isResult, ?_, ?_, usable.edited inside fits wrote⟩
    · rw [wrote.inode, update_self]
      exact locked
    · rw [wrote.inode, update_self]
      exact held
  · rintro stop ⟨isStop, few⟩
    refine ⟨isStop, fun spare => ?_⟩
    rw [isDin] at few
    exact absurd spare (Nat.not_le.mpr few)

theorem Usable.writei_refused (usable : Usable s ip)
    (notDevice : (dinodeAt s.sb s.disk (s.inode ip).inum).type ≠ tDev) (offSmall : off < 2 ^ 32)
    (short : data.length < 2 ^ 32) (tooLong : maxFile * bSize < off + data.length) :
    Meets (Fs.writei ip data off) (s.afterIlock ip)
      (fun result s' => result = none ∧ s' = s.afterIlock ip) fun _ => False := by
  have isDin : ((s.afterIlock ip).inode ip).din = dinodeAt s.sb s.disk (s.inode ip).inum := by
    rw [usable.slot]
  rw [← isDin] at notDevice
  exact meets_of_run (writei_refuses notDevice offSmall short (Or.inr (Or.inr tooLong))) ⟨rfl, rfl⟩

/-- `readi` with the lock held returns bytes of the file, from its offset on. -/
theorem Usable.readi (usable : Usable s ip)
    (notDevice : (dinodeAt s.sb s.disk (s.inode ip).inum).type ≠ tDev) {n : Nat}
    (small : n < 2 ^ 32) :
    Meets (Fs.readi ip off n) (s.afterIlock ip)
      (fun result s' => s' = s.afterIlock ip ∧ (result = none ∨
        (off ≤ (content s (s.inode ip).inum).length ∧
          result = some (((content s (s.inode ip).inum).drop off).take n)))) fun _ => False := by
  obtain ⟨consistent, _, _, size⟩ := usable.locked
  have isDin : ((s.afterIlock ip).inode ip).din = dinodeAt s.sb s.disk (s.inode ip).inum := by
    rw [usable.slot]
  have isInum : ((s.afterIlock ip).inode ip).inum = (s.inode ip).inum := by rw [usable.slot]
  rw [← isDin] at notDevice
  by_cases inside : off ≤ (content s (s.inode ip).inum).length ∧ off + n < 2 ^ 32
  · apply (readi_meets consistent usable.loaded notDevice (by omega) inside.2).mono
    rintro result s' ⟨rfl, isResult⟩
    rw [isInum] at isResult
    exact ⟨rfl, Or.inr ⟨inside.1, isResult⟩⟩
  · have refused : ((s.afterIlock ip).inode ip).din.size.toNat < off ∨ 2 ^ 32 ≤ off + n := by omega
    exact meets_of_run (readi_refuses notDevice small refused) ⟨rfl, Or.inl rfl⟩

end Edited

/-- The small disk with its file open and not locked. -/
def smallOpen : State := smallState.withInode firstSlot ⟨1, 1, false, false, Dinode.zero⟩

theorem smallOpen_inode : smallOpen.inode firstSlot = ⟨1, 1, false, false, Dinode.zero⟩ :=
  update_self firstSlot _ smallState.inode

theorem smallOpen_usable : Usable smallOpen firstSlot := by
  refine ⟨smallState_consistent.withInode _, ?_, ?_, ?_, ?_⟩
  · exact smallState_loaded.live
  · rw [smallOpen_inode]
  · rw [smallOpen_inode]
  · intro isValid
    cases isValid

theorem smallOpen_content : content smallOpen (smallOpen.inode firstSlot).inum = [] := by
  apply List.eq_nil_of_length_eq_zero
  exact congrArg (fun din => din.size.toNat) smallState_file

theorem smallOpen_spare {stop : Nat} (sixBlocks : stop ≤ 6 * bSize) :
    Spare smallOpen firstSlot stop := by
  have free : freeBlocks small smallState.disk = 6 := by decide +kernel
  apply Spare.mono _ sixBlocks
  exact le_trans (by decide)
    (le_of_eq (congrArg (· + (blocksOf 0 + indirects emptyFile)) free.symm))

end Rexv6.Fs
