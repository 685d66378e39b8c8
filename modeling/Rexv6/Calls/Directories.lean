import Rexv6.Fs.DirectoryMaps

/-!
Contract: the history of one directory under `dirlink` and `sys_unlink`.

Owns: the states in which a directory can be after any such history, with
anything in between that does not concern it, and the map from names to inode
numbers that the directory then is.

Does not own: what the system calls do to the inodes that are linked and
unlinked.
-/

namespace Rexv6.Calls

open Rexv6.Foundation.Association
open Rexv6.Foundation.Resumption
open Rexv6.Fs

def emptyDirent : List UInt8 := List.replicate direntSize 0

/-- Something else has happened: the directory in `dp` is as it was. -/
structure Elsewhere (dp : Slot) (s s' : Fs.State) : Prop where
  consistent : Consistent s'
  loaded : Loaded s' dp
  ref : 0 < (s'.inode dp).ref
  inum : (s'.inode dp).inum = (s.inode dp).inum
  type : (s'.inode dp).din.type = (s.inode dp).din.type
  content : content s' (s.inode dp).inum = content s (s.inode dp).inum

/-- The states of a directory that was empty and has been changed by `dirlink` and
by the store with which `sys_unlink` empties the entry that `dirlookup` has
found. -/
inductive Built (dp : Slot) : Fs.State → Prop
  | empty {s : Fs.State} (consistent : Consistent s) (loaded : Loaded s dp)
      (ref : 0 < (s.inode dp).ref) (type : (s.inode dp).din.type = tDir)
      (noEntry : content s (s.inode dp).inum = []) : Built dp s
  | elsewhere {s s' : Fs.State} (built : Built dp s) (other : Elsewhere dp s s') : Built dp s'
  | dirlink {s s' : Fs.State} {name : List UInt8} {inum : Nat} {linked : Bool}
      (built : Built dp s) (ran : Fs.run (dirlink dp name inum) s = .ok (linked, s')) : Built dp s'
  | unlink {s found locked s' : Fs.State} {name : List UInt8} {ip : Slot} {off : Nat}
      (built : Built dp s) (looked : Fs.run (dirlookup dp name) s = .ok (some (ip, off), found))
      (other : Elsewhere dp found locked)
      (ran : Fs.run (writei dp emptyDirent off) locked = .ok (some direntSize, s')) : Built dp s'

/-- A well-formed directory in a slot that somebody refers to. -/
structure Directory (dp : Slot) (s : Fs.State) : Prop where
  isDirectory : IsDirectory s dp
  formed : WellFormed (content s (s.inode dp).inum)
  ref : 0 < (s.inode dp).ref

section Steps

variable {dp : Slot} {s s' : Fs.State}

theorem Directory.elsewhere (directory : Directory dp s) (other : Elsewhere dp s s') :
    Directory dp s' := by
  have same : content s' (s'.inode dp).inum = content s (s.inode dp).inum := by
    rw [other.inum, other.content]
  constructor
  · refine ⟨other.consistent, other.loaded, other.type.trans directory.isDirectory.type, ?_⟩
    rw [same]
    exact directory.formed.aligned
  · rw [same]
    exact directory.formed
  · exact other.ref

theorem Directory.cached (directory : Directory dp s) (disk : s'.disk = s.disk)
    (disksize : s'.disksize = s.disksize) (sb : s'.sb = s.sb) (ref : 0 < (s'.inode dp).ref)
    (inum : (s'.inode dp).inum = (s.inode dp).inum) (din : (s'.inode dp).din = (s.inode dp).din) :
    Elsewhere dp s s' := by
  obtain ⟨consistent, loaded, _, _⟩ := directory.isDirectory
  refine ⟨⟨?_, ?_, ?_, ?_⟩, ⟨?_, ?_⟩, ref, inum, by rw [din], ?_⟩
  · rw [disksize, sb]
    exact consistent.disksize
  · rw [disk, sb]
    exact consistent.loaded
  · rw [disk, sb]
    exact consistent.sound
  · rw [disk, sb]
    exact consistent.mapped
  · rw [disk, sb, inum]
    exact loaded.live
  · rw [disk, sb, inum, din]
    exact loaded.copy
  · unfold Fs.content
    rw [disk, sb]

theorem Directory.got (directory : Directory dp s) {inum : Nat} {ip : Slot}
    (got : Got inum ip s s') : Elsewhere dp s s' := by
  have inUse := directory.ref
  by_cases same : ip = dp
  · subst same
    rcases got with ⟨_, _, isAfter⟩ | ⟨_, unused, _⟩
    · rw [isAfter]
      apply directory.cached
      · rfl
      · rfl
      · rfl
      · rw [withInode_inode, Function.update_self]
        dsimp only
        omega
      · rw [withInode_inode, Function.update_self]
      · rw [withInode_inode, Function.update_self]
    · omega
  · have slot : s'.inode dp = s.inode dp := by
      rcases got with ⟨_, _, isAfter⟩ | ⟨_, _, isAfter⟩
      · rw [isAfter, withInode_inode, Function.update_of_ne (Ne.symm same)]
      · rw [isAfter, withInode_inode, Function.update_of_ne (Ne.symm same)]
    have isSame : s'.disk = s.disk ∧ s'.disksize = s.disksize ∧ s'.sb = s.sb := by
      rcases got with ⟨_, _, isAfter⟩ | ⟨_, _, isAfter⟩
      · rw [isAfter]
        exact ⟨rfl, rfl, rfl⟩
      · rw [isAfter]
        exact ⟨rfl, rfl, rfl⟩
    apply directory.cached isSame.1 isSame.2.1 isSame.2.2
    · rw [slot]
      exact inUse
    · rw [slot]
    · rw [slot]

theorem Directory.recycled (directory : Directory dp s) (same : Recycled s s') :
    Elsewhere dp s s' := by
  have inUse := directory.ref
  have slot := same.used dp (by omega)
  apply directory.cached same.disk same.disksize same.sb
  · rw [slot]
    exact inUse
  · rw [slot]
  · rw [slot]

theorem Directory.wrote {size : Nat} {bytes : Nat → UInt8} (directory : Directory dp s)
    (wrote : Wrote dp size bytes s s') (formed : WellFormed (content s' (s.inode dp).inum)) :
    Directory dp s' ∧ (s'.inode dp).inum = (s.inode dp).inum := by
  have slot : s'.inode dp =
      { s.inode dp with din := dinodeAt s'.sb s'.disk (s.inode dp).inum } := by
    rw [wrote.inode, Function.update_self]
  have inum : (s'.inode dp).inum = (s.inode dp).inum := by rw [slot]
  refine ⟨⟨⟨wrote.consistent, wrote.loaded directory.isDirectory.loaded, ?_, ?_⟩, ?_, ?_⟩, inum⟩
  · rw [slot, wrote.self]
    exact directory.isDirectory.type
  · rw [inum]
    exact formed.aligned
  · rw [inum]
    exact formed
  · rw [slot]
    exact directory.ref

theorem decode_link (name : List UInt8) (inum : Nat) :
    Dirent.decode (Dirent.encode { inum := inum, name := direntName name }) =
      { inum := inum % 65536, name := direntName name } := by
  have value : inum % 256 + 256 * (inum / 256 % 256) = inum % 65536 := by omega
  simp [Dirent.decode, Dirent.encode, value]

theorem Directory.linked {name : List UInt8} {inum : Nat} {linked : Bool}
    (directory : Directory dp s) (isLinked : Linked s dp name inum linked s') :
    Directory dp s' ∧
      (linked = true → 0 < inum → inum < 65536 →
        ∀ other, find (content s' (s'.inode dp).inum) other =
          if shortName other = shortName name then some inum
          else find (content s (s.inode dp).inum) other) := by
  cases isLinked with
  | refused _ _ _ _ same =>
    exact ⟨directory.elsewhere (directory.recycled same), fun isTrue => by cases isTrue⟩
  | made absent inside empty wrote isContent =>
    rw [length_entriesOf] at inside
    have isLink := directory.formed.link inside
      (encode_direntName_length inum name) (decode_link name inum) (shortName_direntName name)
      absent empty
    rw [← isContent] at isLink
    obtain ⟨after, isInum⟩ := directory.wrote wrote isLink.1
    refine ⟨after, fun _ nonempty small => ?_⟩
    have isEntry : inum % 65536 = inum := Nat.mod_eq_of_lt small
    rw [isInum]
    simp only [isEntry] at isLink
    exact isLink.2 (by omega)

theorem decode_empty : (Dirent.decode emptyDirent).inum = 0 := by decide

/-- The store of `sys_unlink`: it always succeeds, because the entry is there. -/
theorem Directory.cleared {name : List UInt8} {k : Nat} {de : Dirent} (directory : Directory dp s)
    (isEntry : (entriesOf (content s (s.inode dp).inum))[k]? = some de)
    (isMatch : de.Matches name) :
    ∃ s', Fs.run (writei dp emptyDirent (direntSize * k)) s = .ok (some direntSize, s') ∧
      Directory dp s' ∧ ∀ other, find (content s' (s'.inode dp).inum) other =
        if shortName other = shortName name then none
        else find (content s (s.inode dp).inum) other := by
  have isDir := directory.isDirectory
  have length : emptyDirent.length = direntSize := List.length_replicate
  have inside := (isDir.direntAt_eq (List.getElem?_eq_some_iff.mp isEntry).1).2
  obtain ⟨s', ran, wrote, isContent⟩ :=
    writei_inside isDir.consistent isDir.loaded isDir.notDevice
      (show direntSize * k + emptyDirent.length ≤ _ by rw [length]; exact inside)
  have cleared := directory.formed.unlink isEntry isMatch length decode_empty
  rw [← isContent] at cleared
  obtain ⟨after, isInum⟩ := directory.wrote wrote cleared.1
  refine ⟨s', ran, after, ?_⟩
  rw [isInum]
  exact cleared.2

end Steps

/-- Every history leaves a well-formed directory. -/
theorem Built.directory {dp : Slot} {s : Fs.State} (built : Built dp s) : Directory dp s := by
  induction built with
  | empty consistent loaded ref type noEntry =>
    have formed : WellFormed [] := ⟨rfl, fun _ _ _ _ _ holds => by cases holds⟩
    refine ⟨⟨consistent, loaded, type, ?_⟩, ?_, ref⟩
    · rw [noEntry]
      rfl
    · rw [noEntry]
      exact formed
  | elsewhere _ other ih => exact ih.elsewhere other
  | dirlink _ ran ih =>
    have linked := (dirlink_meets ih.isDirectory _ _).of_run ran
    exact (ih.linked linked).1
  | unlink _ looked other ran ih =>
    have found := (dirlookup_meets ih.isDirectory _).of_run looked
    cases found with
    | present isEntry isMatch got =>
      have same := ih.got (got_of_run got)
      have there := (ih.elsewhere same).elsewhere other
      rw [← same.content, ← same.inum, ← other.content, ← other.inum] at isEntry
      obtain ⟨after, cleared, directory, _⟩ := there.cleared isEntry isMatch
      have isAfter := Except.ok.inj (ran.symm.trans cleared)
      rw [(Prod.mk.inj isAfter).2]
      exact directory

/-- The inode that an entry names can be cached, and nobody holds its lock. -/
def Available (s : Fs.State) (inum : Nat) : Prop :=
  ∃ ip s', Fs.run (iget inum) s = .ok (ip, s') ∧ (s.inode ip).locked = false

/-- The directory is a finite map: `find` is the value of a name. -/
structure IsMap (dp : Slot) (s : Fs.State) : Prop where
  aligned : (s.inode dp).din.size.toNat % direntSize = 0
  unique : ∀ {j k : Nat} {old new : Dirent},
    (entriesOf (content s (s.inode dp).inum))[j]? = some old →
    (entriesOf (content s (s.inode dp).inum))[k]? = some new →
    old.inum ≠ 0 → new.inum ≠ 0 → namecmp old.name new.name = 0 → j = k
  dirlookup : ∀ {name result s'}, Fs.run (dirlookup dp name) s = .ok (result, s') →
    result.map (fun entry => (s'.inode entry.1).inum) = find (content s (s.inode dp).inum) name ∧
      (result = none → s' = s)
  lookupStops : ∀ {name stop}, Fs.run (Fs.dirlookup dp name) s = .error stop →
    stop = noInodes ∧ (∀ ip, (s.inode ip).ref ≠ 0) ∧
      find (content s (s.inode dp).inum) name ≠ none
  dirlink : ∀ {name inum s'}, 0 < inum → inum < 65536 →
    Fs.run (dirlink dp name inum) s = .ok (true, s') →
    ∀ other, find (content s' (s'.inode dp).inum) other =
      if shortName other = shortName name then some inum
      else find (content s (s.inode dp).inum) other
  linkStops : ∀ {name inum stop}, Fs.run (Fs.dirlink dp name inum) s = .error stop →
    stop ≠ .panic "dirlookup read" ∧ stop ≠ .panic "dirlink read"
  linkFails : ∀ {name inum s'}, Fs.run (Fs.dirlink dp name inum) s = .ok (false, s') →
    find (content s (s.inode dp).inum) name ≠ none
  unlink : ∀ {name ip off found locked},
    Fs.run (Fs.dirlookup dp name) s = .ok (some (ip, off), found) → Elsewhere dp found locked →
    ∃ s', Fs.run (writei dp emptyDirent off) locked = .ok (some direntSize, s') ∧
      ∀ other, find (content s' (s'.inode dp).inum) other =
        if shortName other = shortName name then none
        else find (content s (s.inode dp).inum) other

section Maps

variable {dp : Slot} {s : Fs.State} (directory : Directory dp s)

include directory

theorem Directory.unique {j k : Nat} {old new : Dirent}
    (isOld : (entriesOf (content s (s.inode dp).inum))[j]? = some old)
    (isNew : (entriesOf (content s (s.inode dp).inum))[k]? = some new)
    (someOld : old.inum ≠ 0) (someNew : new.inum ≠ 0) (same : namecmp old.name new.name = 0) :
    j = k := by
  have oldHolds : Holds (mapOf (content s (s.inode dp).inum)) j (shortName old.name) old.inum :=
    holds_mapOf.mpr ⟨old, isOld, someOld, rfl, rfl⟩
  have newHolds : Holds (mapOf (content s (s.inode dp).inum)) k (shortName old.name) new.inum :=
    holds_mapOf.mpr ⟨new, isNew, someNew, (namecmp_eq_zero.mp same).symm, rfl⟩
  exact directory.formed.unique oldHolds newHolds

theorem Directory.dirlookup {name : List UInt8} {result : Option (Slot × Nat)} {s' : Fs.State}
    (ran : Fs.run (dirlookup dp name) s = .ok (result, s')) :
    result.map (fun entry => (s'.inode entry.1).inum) = find (content s (s.inode dp).inum) name ∧
      (result = none → s' = s) := by
  cases (dirlookup_meets directory.isDirectory name).of_run ran with
  | absent noEntry => exact ⟨noEntry.symm, fun _ => rfl⟩
  | present isEntry isMatch got =>
    refine ⟨?_, fun isNone => by cases isNone⟩
    rw [directory.formed.find_eq isEntry isMatch]
    rcases got_of_run got with ⟨_, isInum, isAfter⟩ | ⟨_, _, isAfter⟩
    · rw [isAfter, Option.map_some, withInode_inode, Function.update_self]
      exact congrArg some isInum
    · rw [isAfter, Option.map_some, withInode_inode, Function.update_self]

theorem Directory.lookupStops {name : List UInt8} {stop : Stop}
    (ran : Fs.run (Fs.dirlookup dp name) s = .error stop) :
    stop = noInodes ∧ (∀ ip, (s.inode ip).ref ≠ 0) ∧
      find (content s (s.inode dp).inum) name ≠ none := by
  obtain ⟨de, member, isMatch, igetRan⟩ := (dirlookup_meets directory.isDirectory name).of_stop ran
  obtain ⟨isStop, full⟩ := (iget_meets s de.inum).of_stop igetRan
  exact ⟨isStop, full, fun absent => find_eq_none.mp absent de member isMatch⟩

theorem Directory.linkStops {name : List UInt8} {inum : Nat} {stop : Stop}
    (ran : Fs.run (Fs.dirlink dp name inum) s = .error stop) :
    stop ≠ .panic "dirlookup read" ∧ stop ≠ .panic "dirlink read" := by
  cases (dirlink_meets directory.isDirectory name inum).of_stop ran with
  | uncached _ _ igetRan =>
    rw [((iget_meets s _).of_stop igetRan).1]
    decide
  | blocked _ _ _ _ => decide
  | outOfBlocks _ => decide
  | full _ _ => decide

theorem Directory.unlink {name : List UInt8} {ip : Slot} {off : Nat} {found locked : Fs.State}
    (looked : Fs.run (Fs.dirlookup dp name) s = .ok (some (ip, off), found))
    (other : Elsewhere dp found locked) :
    ∃ s', Fs.run (writei dp emptyDirent off) locked = .ok (some direntSize, s') ∧ Directory dp s' ∧
      ∀ other, find (content s' (s'.inode dp).inum) other =
        if shortName other = shortName name then none
        else find (content s (s.inode dp).inum) other := by
  cases (dirlookup_meets directory.isDirectory name).of_run looked with
  | present isEntry isMatch got =>
    have same := directory.got (got_of_run got)
    have there := (directory.elsewhere same).elsewhere other
    rw [← same.content, ← same.inum, ← other.content, ← other.inum] at isEntry ⊢
    exact there.cleared isEntry isMatch

/-- `dirlink` of a name that is there needs the lock of the inode that it names. -/
theorem Directory.refuses_iff {name : List UInt8} {n : Nat}
    (present : find (content s (s.inode dp).inum) name = some n) (inum : Nat) :
    (∃ s', Fs.run (Fs.dirlink dp name inum) s = .ok (false, s') ∧ Recycled s s') ↔
      Available s n := by
  have isInum : ∀ {de}, de ∈ entriesOf (content s (s.inode dp).inum) → de.Matches name →
      de.inum = n := by
    intro de member isMatch
    obtain ⟨k, isEntry⟩ := List.mem_iff_getElem?.mp member
    exact Option.some.inj ((directory.formed.find_eq isEntry isMatch).symm.trans present)
  constructor
  · rintro ⟨s', ran, _⟩
    cases (dirlink_meets directory.isDirectory name inum).of_run ran with
    | refused member isMatch igetRan unlocked _ =>
      rw [isInum member isMatch] at igetRan
      exact ⟨_, _, igetRan, unlocked⟩
  · rintro ⟨ip, got, igetRan, unlocked⟩
    have meets := dirlink_meets directory.isDirectory name inum
    cases outcome : Fs.run (Fs.dirlink dp name inum) s with
    | ok result =>
      obtain ⟨linked, s'⟩ := result
      cases meets.of_run outcome with
      | refused _ _ _ _ same => exact ⟨s', rfl, same⟩
      | made absent _ _ _ _ => cases absent.symm.trans present
    | error stop =>
      cases meets.of_stop outcome with
      | uncached member isMatch failed =>
        rw [isInum member isMatch] at failed
        cases failed.symm.trans igetRan
      | blocked member isMatch ran locked =>
        rw [isInum member isMatch] at ran
        have same := (Prod.mk.inj (Except.ok.inj (ran.symm.trans igetRan))).1
        rw [same, unlocked] at locked
        cases locked
      | outOfBlocks absent => cases absent.symm.trans present
      | full absent _ => cases absent.symm.trans present

end Maps

/-- Directories are finite maps from names to inode numbers, but for a `dirlink` of
a name that is there: it returns -1 and changes nothing exactly if it can cache
and lock the inode that the name stands for. -/
theorem directories_are_finite_maps {dp : Slot} {s : Fs.State} (built : Built dp s) :
    (∀ p q, namecmp p q = 0 ↔ shortName p = shortName q) ∧ IsMap dp s ∧
      ∀ name n, find (content s (s.inode dp).inum) name = some n → ∀ inum,
        ((∃ s', Fs.run (dirlink dp name inum) s = .ok (false, s') ∧ Recycled s s') ↔
          Available s n) := by
  have directory := built.directory
  refine ⟨fun p q => namecmp_eq_zero, ?_, fun name n present => directory.refuses_iff present⟩
  constructor
  · rw [directory.isDirectory.size, Nat.mul_mod_right]
  · exact directory.unique
  · exact directory.dirlookup
  · exact directory.lookupStops
  · intro name inum s' nonempty small ran
    have linked := (dirlink_meets directory.isDirectory name inum).of_run ran
    exact (directory.linked linked).2 rfl nonempty small
  · exact directory.linkStops
  · intro name inum s' ran
    cases (dirlink_meets directory.isDirectory name inum).of_run ran with
    | refused member isMatch _ _ _ => exact fun absent => find_eq_none.mp absent _ member isMatch
  · intro name ip off found locked looked other
    obtain ⟨s', ran, _, isFind⟩ := directory.unlink looked other
    exact ⟨s', ran, isFind⟩

/-! ## A directory that names itself -/

theorem smallDirectory_built : Built firstSlot smallDirectory := by
  refine .empty smallDirectory_consistent smallDirectory_loaded (by decide) rfl ?_
  apply List.eq_nil_of_length_eq_zero
  rfl

def stopped {α : Type} : Except Stop α → Option Stop
  | .ok _ => none
  | .error stop => some stop

theorem eq_error_of_stopped {α : Type} {outcome : Except Stop α} {stop : Stop}
    (isStopped : stopped outcome = some stop) : outcome = .error stop := by
  cases outcome with
  | ok value => cases isStopped
  | error reason => rw [Option.some.inj isStopped]

/-- An entry for `name` that goes into the empty directory. -/
theorem smallDirectory_links {name : List UInt8} {inum : Nat} {s : Fs.State} (nonempty : 0 < inum)
    (small : inum < 65536)
    (ran : Fs.run (dirlink firstSlot name inum) smallDirectory = .ok (true, s)) :
    Built firstSlot s ∧ find (content s (s.inode firstSlot).inum) name = some inum := by
  have linked := (dirlink_meets smallDirectory_built.directory.isDirectory name inum).of_run ran
  have isFind := (smallDirectory_built.directory.linked linked).2 rfl nonempty small name
  rw [if_pos rfl] at isFind
  exact ⟨.dirlink smallDirectory_built ran, isFind⟩

/-- `dirlink` of `.` in a directory that has it, as `mkdir` makes it: the caller
holds the lock that `iput` waits for. -/
theorem dirlink_dot_blocks : ∃ s, Built firstSlot s ∧
    find (content s (s.inode firstSlot).inum) dot = some 1 ∧
      Fs.run (dirlink firstSlot dot 2) s = .error .deadlock := by
  have outcome : (Fs.run (dirlink firstSlot dot 1) smallDirectory).toOption.map (fun result =>
      (result.1, stopped (Fs.run (dirlink firstSlot dot 2) result.2))) =
        some (true, some .deadlock) := by
    decide +kernel
  cases ran : Fs.run (dirlink firstSlot dot 1) smallDirectory with
  | error stop =>
    rw [ran] at outcome
    cases outcome
  | ok result =>
    rw [ran] at outcome
    obtain ⟨isTrue, isStopped⟩ := Prod.mk.inj (Option.some.inj outcome)
    have linked : Fs.run (dirlink firstSlot dot 1) smallDirectory = .ok (true, result.2) := by
      rw [ran, ← isTrue]
    obtain ⟨built, isFind⟩ := smallDirectory_links (by decide) (by decide) linked
    exact ⟨result.2, built, isFind, eq_error_of_stopped isStopped⟩

/-- A second `dirlink` of the name `a`: inode 2 is not locked. -/
theorem directories_are_finite_maps_twice : ∃ s s', Built firstSlot s ∧
    find (content s (s.inode firstSlot).inum) [97] = some 2 ∧
      Fs.run (dirlink firstSlot [97] 3) s = .ok (false, s') ∧ Recycled s s' := by
  have outcome : (Fs.run (dirlink firstSlot [97] 2) smallDirectory).toOption.map (fun result =>
      (result.1,
        (Fs.run (iget 2) result.2).toOption.map fun got => (result.2.inode got.1).locked)) =
        some (true, some false) := by
    decide +kernel
  cases ran : Fs.run (dirlink firstSlot [97] 2) smallDirectory with
  | error stop =>
    rw [ran] at outcome
    cases outcome
  | ok result =>
    rw [ran] at outcome
    obtain ⟨isTrue, isFree⟩ := Prod.mk.inj (Option.some.inj outcome)
    have linked : Fs.run (dirlink firstSlot [97] 2) smallDirectory = .ok (true, result.2) := by
      rw [ran, ← isTrue]
    obtain ⟨built, isFind⟩ := smallDirectory_links (by decide) (by decide) linked
    have available : Available result.2 2 := by
      cases got : Fs.run (iget 2) result.2 with
      | error stop =>
        rw [got] at isFree
        cases isFree
      | ok slot =>
        rw [got] at isFree
        exact ⟨slot.1, slot.2, got, Option.some.inj isFree⟩
    obtain ⟨s', refused, same⟩ :=
      ((directories_are_finite_maps built).2.2 [97] 2 isFind 3).mpr available
    exact ⟨result.2, s', built, isFind, refused, same⟩

end Rexv6.Calls
