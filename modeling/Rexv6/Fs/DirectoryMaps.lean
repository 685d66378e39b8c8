import Rexv6.Foundation.Association
import Rexv6.Fs.Cache
import Rexv6.Fs.Directories

/-!
Contract: a directory is a finite map from names to inode numbers.

Owns: the entries in the bytes of a directory, the map that they stand for, and
what `dirlookup` and `dirlink` do to both on every way through them.

Does not own: whether the inodes that the entries name are allocated.
-/

namespace Rexv6.Fs

open Rexv6.Foundation
open Rexv6.Foundation.Association
open Rexv6.Foundation.Resumption

/-! ## The entries in a list of bytes -/

def entryOf (bytes : List UInt8) (k : Nat) : Dirent :=
  Dirent.decode ((bytes.drop (direntSize * k)).take direntSize)

/-- The entries in the bytes of a directory, the empty ones included. -/
def entriesOf (bytes : List UInt8) : List Dirent :=
  (List.range (bytes.length / direntSize)).map (entryOf bytes)

section Entries

variable {bytes data : List UInt8} {off k : Nat}

@[simp] theorem length_entriesOf (bytes : List UInt8) :
    (entriesOf bytes).length = bytes.length / direntSize := by
  simp [entriesOf]

theorem entriesOf_getElem? (bytes : List UInt8) (k : Nat) :
    (entriesOf bytes)[k]? =
      if k < bytes.length / direntSize then some (entryOf bytes k) else none := by
  by_cases inRange : k < bytes.length / direntSize
  · simp [entriesOf, inRange]
  · simp [entriesOf, inRange]

/-- Storing the bytes of an entry changes this entry only. -/
theorem entriesOf_overwrite (aligned : bytes.length % direntSize = 0)
    (inside : k ≤ bytes.length / direntSize) (full : data.length = direntSize) :
    entriesOf (overwrite bytes (direntSize * k) data) =
      store (entriesOf bytes) k (Dirent.decode data) := by
  have start : direntSize * k ≤ bytes.length := by
    simp only [direntSize] at inside ⊢
    omega
  have length : (overwrite bytes (direntSize * k) data).length / direntSize =
      max (bytes.length / direntSize) (k + 1) := by
    rw [length_overwrite start, full]
    simp only [direntSize] at aligned inside ⊢
    omega
  apply List.ext_getElem?
  intro j
  rw [entriesOf_getElem?, getElem?_store (by rw [length_entriesOf]; exact inside),
    entriesOf_getElem?, length]
  by_cases same : j = k
  · rw [if_pos same, if_pos (by omega), same, entryOf]
    congr 2
    apply List.ext_getElem?
    intro i
    rw [List.getElem?_take, List.getElem?_drop, getElem?_overwrite start]
    by_cases inEntry : i < direntSize
    · rw [if_pos inEntry, if_pos (by omega), Nat.add_sub_cancel_left]
    · rw [if_neg inEntry, List.getElem?_eq_none (by omega)]
  · have sameEntry : entryOf (overwrite bytes (direntSize * k) data) j = entryOf bytes j := by
      unfold entryOf
      congr 1
      apply List.ext_getElem?
      intro i
      rw [List.getElem?_take, List.getElem?_take, List.getElem?_drop, List.getElem?_drop,
        getElem?_overwrite start]
      by_cases inEntry : i < direntSize
      · rw [if_pos inEntry, if_pos inEntry, if_neg]
        simp only [direntSize] at full inEntry ⊢
        omega
      · rw [if_neg inEntry, if_neg inEntry]
    rw [if_neg same, sameEntry]
    by_cases inRange : j < bytes.length / direntSize
    · rw [if_pos inRange, if_pos (by omega)]
    · rw [if_neg inRange, if_neg (by omega)]

def Dirent.cell (de : Dirent) : Option (List UInt8 × Nat) :=
  if de.inum = 0 then none else some (shortName de.name, de.inum)

theorem Dirent.cell_eq_some {de : Dirent} {key : List UInt8} {inum : Nat} :
    de.cell = some (key, inum) ↔ de.inum ≠ 0 ∧ shortName de.name = key ∧ de.inum = inum := by
  unfold Dirent.cell
  by_cases empty : de.inum = 0
  · simp [empty]
  · simp [empty]

/-- The map that the bytes of a directory stand for. -/
def mapOf (bytes : List UInt8) : List (Option (List UInt8 × Nat)) :=
  (entriesOf bytes).map Dirent.cell

theorem holds_mapOf {key : List UInt8} {inum : Nat} : Holds (mapOf bytes) k key inum ↔
    ∃ de, (entriesOf bytes)[k]? = some de ∧ de.inum ≠ 0 ∧ shortName de.name = key ∧
      de.inum = inum := by
  unfold Holds mapOf
  rw [List.getElem?_map, Option.map_eq_some_iff]
  simp only [Dirent.cell_eq_some]

/-- The inode number that a directory has for a name. -/
def find (bytes name : List UInt8) : Option Nat := lookup (mapOf bytes) (shortName name)

theorem find_eq_none {name : List UInt8} :
    find bytes name = none ↔ ∀ de ∈ entriesOf bytes, ¬ de.Matches name := by
  unfold find
  rw [lookup_eq_none]
  constructor
  · intro absent de member isMatch
    obtain ⟨k, isEntry⟩ := List.mem_iff_getElem?.mp member
    exact absent k de.inum (holds_mapOf.mpr ⟨de, isEntry, isMatch.1, isMatch.2.symm, rfl⟩)
  · intro absent k inum holds
    obtain ⟨de, isEntry, nonempty, isName, _⟩ := holds_mapOf.mp holds
    exact absent de (List.mem_iff_getElem?.mpr ⟨k, isEntry⟩) ⟨nonempty, isName.symm⟩

/-- No name has two entries, and there is no incomplete entry. -/
structure WellFormed (bytes : List UInt8) : Prop where
  aligned : bytes.length % direntSize = 0
  unique : Unique (mapOf bytes)

theorem WellFormed.find_eq {name : List UInt8} {de : Dirent} (formed : WellFormed bytes)
    (isEntry : (entriesOf bytes)[k]? = some de) (isMatch : de.Matches name) :
    find bytes name = some de.inum :=
  formed.unique.lookup_eq (holds_mapOf.mpr ⟨de, isEntry, isMatch.1, isMatch.2.symm, rfl⟩)

theorem WellFormed.length_overwrite (formed : WellFormed bytes) (full : data.length = direntSize)
    (inside : k ≤ bytes.length / direntSize) :
    (overwrite bytes (direntSize * k) data).length % direntSize = 0 := by
  have aligned := formed.aligned
  rw [Foundation.length_overwrite (by simp only [direntSize] at inside ⊢; omega), full]
  simp only [direntSize] at aligned ⊢
  omega

theorem mapOf_overwrite (formed : WellFormed bytes) (inside : k ≤ bytes.length / direntSize)
    (full : data.length = direntSize) :
    mapOf (overwrite bytes (direntSize * k) data) =
      store (mapOf bytes) k (Dirent.decode data).cell := by
  rw [mapOf, entriesOf_overwrite formed.aligned inside full, map_store]
  rfl

theorem length_mapOf (bytes : List UInt8) : (mapOf bytes).length = bytes.length / direntSize := by
  simp [mapOf]

theorem WellFormed.link {name : List UInt8} {de : Dirent} (formed : WellFormed bytes)
    (inside : k ≤ bytes.length / direntSize) (full : data.length = direntSize)
    (isEntry : Dirent.decode data = de) (isName : shortName de.name = shortName name)
    (absent : find bytes name = none)
    (empty : ∀ old, (entriesOf bytes)[k]? = some old → old.inum = 0) :
    WellFormed (overwrite bytes (direntSize * k) data) ∧
      (de.inum ≠ 0 → ∀ other, find (overwrite bytes (direntSize * k) data) other =
        if shortName other = shortName name then some de.inum else find bytes other) := by
  have size := length_mapOf bytes
  have free : ∀ key value, ¬ Holds (mapOf bytes) k key value := by
    intro key value holds
    obtain ⟨old, isOld, nonempty, _⟩ := holds_mapOf.mp holds
    exact nonempty (empty old isOld)
  constructor
  · refine ⟨formed.length_overwrite full inside, ?_⟩
    rw [mapOf_overwrite formed inside full, isEntry]
    cases isCell : de.cell with
    | none => exact formed.unique.clear (by omega)
    | some pair =>
      have pairIs := Dirent.cell_eq_some.mp isCell
      apply formed.unique.put _ (by omega)
      rw [← pairIs.2.1, isName]
      exact lookup_eq_none.mp absent
  · intro nonempty other
    have isCell : de.cell = some (shortName name, de.inum) :=
      Dirent.cell_eq_some.mpr ⟨nonempty, isName, rfl⟩
    unfold find
    rw [mapOf_overwrite formed inside full, isEntry, isCell]
    exact lookup_put formed.unique (by omega) absent free _

theorem WellFormed.unlink {name : List UInt8} {de : Dirent} (formed : WellFormed bytes)
    (isEntry : (entriesOf bytes)[k]? = some de) (isMatch : de.Matches name)
    (full : data.length = direntSize) (isEmpty : (Dirent.decode data).inum = 0) :
    WellFormed (overwrite bytes (direntSize * k) data) ∧
      ∀ other, find (overwrite bytes (direntSize * k) data) other =
        if shortName other = shortName name then none else find bytes other := by
  have inRange := (List.getElem?_eq_some_iff.mp isEntry).1
  rw [length_entriesOf] at inRange
  have inside : k ≤ bytes.length / direntSize := by omega
  have size := length_mapOf bytes
  have noCell : (Dirent.decode data).cell = none := by
    rw [Dirent.cell, if_pos isEmpty]
  have holds : Holds (mapOf bytes) k (shortName name) de.inum :=
    holds_mapOf.mpr ⟨de, isEntry, isMatch.1, isMatch.2.symm, rfl⟩
  constructor
  · refine ⟨formed.length_overwrite full inside, ?_⟩
    rw [mapOf_overwrite formed inside full, noCell]
    exact formed.unique.clear (by omega)
  · intro other
    unfold find
    rw [mapOf_overwrite formed inside full, noCell]
    exact lookup_clear formed.unique holds _

end Entries

/-! ## `dirlookup` -/

section Directory

variable {s : State} {dp : Slot}

theorem Loaded.content_length (loaded : Loaded s dp) :
    (content s (s.inode dp).inum).length = (s.inode dp).din.size.toNat := by
  rw [Fs.content_length, loaded.copy]

/-- The entries that the loops read are those of the content. -/
theorem Loaded.direntAt_eq (loaded : Loaded s dp) {k : Nat}
    (inside : direntSize * (k + 1) ≤ (s.inode dp).din.size.toNat) :
    direntAt s.disk (s.inode dp).din k = entryOf (content s (s.inode dp).inum) k := by
  have isM : direntSize = min direntSize
      ((dinodeAt s.sb s.disk (s.inode dp).inum).size.toNat - direntSize * k) := by
    rw [← loaded.copy]
    simp only [direntSize] at inside ⊢
    omega
  unfold direntAt entryOf
  rw [loaded.copy, content_slice s _ isM]

structure IsDirectory (s : State) (dp : Slot) : Prop where
  consistent : Consistent s
  loaded : Loaded s dp
  type : (s.inode dp).din.type = tDir
  aligned : (content s (s.inode dp).inum).length % direntSize = 0

theorem IsDirectory.notDevice (isDir : IsDirectory s dp) : (s.inode dp).din.type ≠ tDev := by
  rw [isDir.type]
  decide

theorem IsDirectory.size (isDir : IsDirectory s dp) :
    (s.inode dp).din.size.toNat = direntSize *
      (entriesOf (content s (s.inode dp).inum)).length := by
  have aligned := isDir.aligned
  rw [length_entriesOf, ← isDir.loaded.content_length]
  simp only [direntSize] at aligned ⊢
  omega

theorem IsDirectory.direntAt_eq (isDir : IsDirectory s dp) {k : Nat}
    (inRange : k < (entriesOf (content s (s.inode dp).inum)).length) :
    (entriesOf (content s (s.inode dp).inum))[k]? = some (direntAt s.disk (s.inode dp).din k) ∧
      direntSize * (k + 1) ≤ (s.inode dp).din.size.toNat := by
  have inside : direntSize * (k + 1) ≤ (s.inode dp).din.size.toNat := by
    rw [isDir.size]
    exact Nat.mul_le_mul_left _ inRange
  rw [length_entriesOf] at inRange
  rw [entriesOf_getElem?, if_pos inRange, isDir.loaded.direntAt_eq inside]
  exact ⟨rfl, inside⟩

/-- What `dirlookup` returns: nothing, or the slot and the offset of an entry of
the name. -/
inductive Looked (s : State) (dp : Slot) (name : List UInt8) :
    Option (Slot × Nat) → State → Prop
  | absent (noEntry : find (content s (s.inode dp).inum) name = none) : Looked s dp name none s
  | present {k : Nat} {de : Dirent} {ip : Slot} {s' : State}
      (isEntry : (entriesOf (content s (s.inode dp).inum))[k]? = some de)
      (isMatch : de.Matches name) (got : run (iget de.inum) s = .ok (ip, s')) :
      Looked s dp name (some (ip, direntSize * k)) s'

theorem first_match {entries : List Dirent} {name : List UInt8}
    (some : ∃ de ∈ entries, de.Matches name) :
    ∃ (m : Nat) (de : Dirent), entries[m]? = Option.some de ∧ de.Matches name ∧
      ∀ k < m, ∀ old, entries[k]? = Option.some old → ¬ old.Matches name := by
  induction entries with
  | nil =>
    obtain ⟨de, member, _⟩ := some
    cases member
  | cons head tail ih =>
    by_cases isHead : head.Matches name
    · exact ⟨0, head, rfl, isHead, fun k below => absurd below (Nat.not_lt_zero k)⟩
    · have inTail : ∃ de ∈ tail, de.Matches name := by
        obtain ⟨de, member, isMatch⟩ := some
        rcases List.mem_cons.mp member with same | later
        · exact absurd (same ▸ isMatch) isHead
        · exact ⟨de, later, isMatch⟩
      obtain ⟨m, de, isEntry, isMatch, first⟩ := ih inTail
      refine ⟨m + 1, de, isEntry, isMatch, fun k below old isOld => ?_⟩
      cases k with
      | zero =>
        rw [← Option.some.inj isOld]
        exact isHead
      | succ k => exact first k (by omega) old isOld

theorem got_of_run {inum : Nat} {ip : Slot} {s s' : State}
    (ran : run (iget inum) s = .ok (ip, s')) :
    Got inum ip s s' :=
  (iget_meets s inum).of_run ran

theorem dirlookup_meets (isDir : IsDirectory s dp) (name : List UInt8) :
    Meets (dirlookup dp name) s (fun result s' => Looked s dp name result s')
      (fun stop => ∃ de ∈ entriesOf (content s (s.inode dp).inum), de.Matches name ∧
        run (iget de.inum) s = .error stop) := by
  have readable := isDir.consistent.readable isDir.loaded
  have size := isDir.size
  rw [dirlookup, Meets, meets_bind, meets_get]
  rw [if_neg (not_not.mpr isDir.type)]
  by_cases present : ∃ de ∈ entriesOf (content s (s.inode dp).inum), de.Matches name
  · obtain ⟨m, de, isEntry, isMatch, first⟩ := first_match present
    obtain ⟨entryIs, inside⟩ := isDir.direntAt_eq (List.getElem?_eq_some_iff.mp isEntry).1
    have isDe : direntAt s.disk (s.inode dp).din m = de :=
      Option.some.inj (entryIs.symm.trans isEntry)
    apply lookupLoop_finds readable isDir.notDevice inside inside (isDe ▸ isMatch) ?_ ?_ _ 0
      (Nat.zero_le m)
    · simp only [direntSize] at inside ⊢
      omega
    · intro k below
      have bound := (List.getElem?_eq_some_iff.mp isEntry).1
      exact first k below _ (isDir.direntAt_eq (lt_trans below bound)).1
    · rw [isDe]
      apply (meets_run (iget de.inum) s).imp
      · intro ip s' ran
        exact .present isEntry isMatch ran
      · intro stop ran
        exact ⟨de, List.mem_iff_getElem?.mpr ⟨m, isEntry⟩, isMatch, ran⟩
  · have absent : find (content s (s.inode dp).inum) name = none :=
      find_eq_none.mpr fun de member isMatch => present ⟨de, member, isMatch⟩
    have noMatch : ∀ k, direntSize * (k + 1) ≤ (s.inode dp).din.size.toNat →
        ¬ (direntAt s.disk (s.inode dp).din k).Matches name := by
      intro k inside
      rw [size] at inside
      have inRange := Nat.le_of_mul_le_mul_left inside (by decide)
      exact find_eq_none.mp absent _
        (List.mem_iff_getElem?.mpr ⟨k, (isDir.direntAt_eq inRange).1⟩)
    apply (lookupLoop_misses readable isDir.notDevice noMatch _ 0 ?_ ?_).imp
    · rintro result s' ⟨isNone, same⟩
      rw [isNone, same]
      exact .absent absent
    · rintro stop ⟨_, incomplete⟩
      rw [size, Nat.mul_mod_right] at incomplete
      exact absurd rfl incomplete
    · simp only [direntSize]
      omega
    · simp only [direntSize]
      omega

/-! ## `dirlink` -/

/-- The loop of `dirlink` ends at an empty entry or at the end. -/
theorem emptyLoop_meets (isDir : IsDirectory s dp) : ∀ (turns k : Nat),
    k ≤ (entriesOf (content s (s.inode dp).inum)).length →
    (entriesOf (content s (s.inode dp).inum)).length < k + turns →
    Meets (emptyLoop dp turns (direntSize * k)) s
      (fun off s' => s' = s ∧ ∃ m ≤ (entriesOf (content s (s.inode dp).inum)).length,
        off = direntSize * m ∧
          ∀ old, (entriesOf (content s (s.inode dp).inum))[m]? = some old → old.inum = 0)
      (fun _ => False) := by
  have readable := isDir.consistent.readable isDir.loaded
  have size := isDir.size
  intro turns
  induction turns with
  | zero =>
    intro k inside enough
    exact absurd enough (by omega)
  | succ turns ih =>
    intro k inside enough
    rw [emptyLoop, Meets, meets_bind, meets_get]
    by_cases more : k < (entriesOf (content s (s.inode dp).inum)).length
    · obtain ⟨isEntry, complete⟩ := isDir.direntAt_eq more
      have notEnd : direntSize * k < (s.inode dp).din.size.toNat := by
        simp only [direntSize] at complete ⊢
        omega
      rw [if_pos notEnd, meets_bind]
      apply readDirent_meets readable isDir.notDevice complete complete
      by_cases empty : (direntAt s.disk (s.inode dp).din k).inum = 0
      · rw [if_pos empty]
        refine ⟨rfl, k, inside, rfl, fun old isOld => ?_⟩
        rw [← Option.some.inj (isEntry.symm.trans isOld)]
        exact empty
      · rw [if_neg empty]
        exact ih (k + 1) more (by omega)
    · have isEnd : k = (entriesOf (content s (s.inode dp).inum)).length := by omega
      rw [if_neg (by rw [size, ← isEnd]; omega)]
      refine ⟨rfl, k, inside, rfl, fun old isOld => ?_⟩
      exact absurd (List.getElem?_eq_some_iff.mp isOld).1 more

/-- What `dirlink` leaves behind: nothing new if the name is there, otherwise an
entry at the first empty place. -/
inductive Linked (s : State) (dp : Slot) (name : List UInt8) (inum : Nat) : Bool → State → Prop
  | refused {de : Dirent} {ip : Slot} {got s' : State}
      (member : de ∈ entriesOf (content s (s.inode dp).inum)) (isMatch : de.Matches name)
      (ran : run (iget de.inum) s = .ok (ip, got)) (unlocked : (s.inode ip).locked = false)
      (same : Recycled s s') : Linked s dp name inum false s'
  | made {k : Nat} {s' : State} {bytes : Nat → UInt8}
      (absent : find (content s (s.inode dp).inum) name = none)
      (inside : k ≤ (entriesOf (content s (s.inode dp).inum)).length)
      (empty : ∀ old, (entriesOf (content s (s.inode dp).inum))[k]? = some old → old.inum = 0)
      (wrote : Wrote dp (max (s.inode dp).din.size.toNat (direntSize * k + direntSize)) bytes s s')
      (isContent : content s' (s.inode dp).inum = overwrite (content s (s.inode dp).inum)
        (direntSize * k) (Dirent.encode { inum := inum, name := direntName name })) :
      Linked s dp name inum true s'

/-- Why `dirlink` does not return: the inode of the entry that is there already
cannot be cached, or its lock is held, or there is no room for an entry. -/
inductive LinkStops (s : State) (dp : Slot) (name : List UInt8) : Stop → Prop
  | uncached {de : Dirent} {stop : Stop} (member : de ∈ entriesOf (content s (s.inode dp).inum))
      (isMatch : de.Matches name) (ran : run (iget de.inum) s = .error stop) :
      LinkStops s dp name stop
  | blocked {de : Dirent} {ip : Slot} {got : State}
      (member : de ∈ entriesOf (content s (s.inode dp).inum)) (isMatch : de.Matches name)
      (ran : run (iget de.inum) s = .ok (ip, got)) (locked : (s.inode ip).locked = true) :
      LinkStops s dp name .deadlock
  | outOfBlocks (absent : find (content s (s.inode dp).inum) name = none) :
      LinkStops s dp name outOfBlocks
  | full (absent : find (content s (s.inode dp).inum) name = none)
      (size : (content s (s.inode dp).inum).length = maxFile * bSize) :
      LinkStops s dp name (.panic "dirlink")

theorem Got.locked {inum : Nat} {ip : Slot} {s s' : State} (got : Got inum ip s s') :
    (s'.inode ip).locked = (s.inode ip).locked := by
  rcases got with ⟨_, _, isAfter⟩ | ⟨_, _, isAfter⟩
  · rw [isAfter, withInode_inode, Function.update_self]
  · rw [isAfter, withInode_inode, Function.update_self]

theorem encode_direntName_length (inum : Nat) (name : List UInt8) :
    (Dirent.encode { inum := inum, name := direntName name }).length = direntSize :=
  Dirent.encode_length _ (direntName_length name)

/-- The size of a directory that is within the limit is so by a whole entry, or
is the limit. -/
theorem IsDirectory.room (isDir : IsDirectory s dp) {k : Nat}
    (inside : k ≤ (entriesOf (content s (s.inode dp).inum)).length) :
    direntSize * k ≤ (s.inode dp).din.size.toNat ∧ (s.inode dp).din.size.toNat ≤ maxFile * bSize ∧
      (direntSize * k + direntSize ≤ maxFile * bSize ∨
        k = (entriesOf (content s (s.inode dp).inum)).length ∧
          (s.inode dp).din.size.toNat = maxFile * bSize) := by
  have size := isDir.size
  have limit := (isDir.consistent.readable isDir.loaded).limit
  have entries : maxFile * bSize = direntSize * 4480 := by decide
  simp only [direntSize] at size limit ⊢
  omega

theorem dirlink_meets (isDir : IsDirectory s dp) (name : List UInt8) (inum : Nat) :
    Meets (dirlink dp name inum) s (fun linked s' => Linked s dp name inum linked s')
      (fun stop => LinkStops s dp name stop) := by
  apply Meets.bind
  · apply (dirlookup_meets isDir name).imp (fun _ _ looked => looked)
    rintro stop ⟨de, member, isMatch, ran⟩
    exact .uncached member isMatch ran
  · intro result s' looked
    cases looked with
    | @present k de ip _ isEntry isMatch ran =>
      have member := List.mem_iff_getElem?.mpr ⟨k, isEntry⟩
      have got := got_of_run ran
      rw [meets_bind]
      cases locked : (s.inode ip).locked with
      | false =>
        apply iput_got got locked
        intro after same
        exact .refused member isMatch ran locked same
      | true =>
        have stuck := iput_blocks (got.locked.trans locked)
        apply (meets_run (iput ip) s').imp
        · intro _ _ returned
          cases returned.symm.trans stuck
        · intro stop stopped
          have isStop := Except.error.inj (stopped.symm.trans stuck)
          rw [isStop]
          exact .blocked member isMatch ran locked
    | absent noEntry =>
      have length := encode_direntName_length inum name
      rw [meets_bind, meets_get, meets_bind]
      apply (emptyLoop_meets isDir _ 0 (Nat.zero_le _) ?_).imp
      · rintro off s' ⟨same, k, inside, isOff, empty⟩
        obtain ⟨started, limit, room⟩ := isDir.room inside
        rw [same, isOff, meets_bind]
        by_cases fits : direntSize * k + direntSize ≤ maxFile * bSize
        · apply (writei_meets isDir.consistent isDir.loaded isDir.notDevice started
            (by rw [length]; exact fits)).imp
          · rintro written s'' ⟨isWritten, wrote⟩
            rw [isWritten, if_pos (by rw [length])]
            have isContent := wrote.content_patch isDir.loaded rfl rfl started
              (by rw [length]; omega)
            rw [length] at wrote
            exact .made noEntry inside empty wrote isContent
          · rintro stop ⟨isStop, _⟩
            rw [isStop]
            exact .outOfBlocks noEntry
        · obtain ⟨_, isFull⟩ : k = _ ∧ _ := room.resolve_left fits
          have refused : run (writei dp (Dirent.encode { inum := inum, name := direntName name })
              (direntSize * k)) s = .ok (none, s) := by
            apply writei_refuses isDir.notDevice (by omega)
            · rw [length]
              decide
            · exact Or.inr (Or.inr (by rw [length]; omega))
          apply (meets_run _ s).imp
          · intro written s'' ran
            have isNone := Except.ok.inj (ran.symm.trans refused)
            rw [(Prod.mk.inj isNone).1, if_neg (by simp)]
            refine .full noEntry ?_
            rw [isDir.loaded.content_length, isFull]
          · intro stop ran
            cases ran.symm.trans refused
      · intro _ none
        exact none.elim
      · rw [isDir.size, Nat.mul_div_cancel_left _ (by decide)]
        omega

/-! ## Emptying an entry -/

theorem Mapped.required_le {disk : Disk} {d : Dinode} {count : Nat} (mapped : Mapped disk d count) :
    required count d ≤ count + indirects d := by
  unfold required
  split
  · rename_i many
    have indirect : d.indirect ≠ 0 := by
      intro none
      have isMapped := (mapped.2 nDirect (lt_of_lt_of_le many mapped.1)).mpr many
      simp [Dinode.addr, none] at isMapped
    rw [indirects, if_neg indirect]
  · exact le_refl _

/-- Bytes inside of a file can always be replaced. -/
theorem writei_inside {off : Nat} {src : List UInt8} (consistent : Consistent s)
    (loaded : Loaded s dp) (notDevice : (s.inode dp).din.type ≠ tDev)
    (inside : off + src.length ≤ (s.inode dp).din.size.toNat) :
    ∃ s', run (writei dp src off) s = .ok (some src.length, s') ∧
      Wrote dp (max (s.inode dp).din.size.toNat (off + src.length))
        (patch (byteAt s.disk (s.inode dp).din) off src) s s' ∧
      content s' (s.inode dp).inum = overwrite (content s (s.inode dp).inum) off src := by
  have mapped := consistent.mapped _ loaded.live
  rw [← loaded.copy] at mapped
  have limit := mapped.size_le
  have sizeNow : max (s.inode dp).din.size.toNat (off + src.length) =
      (s.inode dp).din.size.toNat := by omega
  have started : off ≤ (s.inode dp).din.size.toNat := by omega
  have fits : off + src.length ≤ maxFile * bSize := by omega
  obtain ⟨result, s', ran, isLength, wrote⟩ :=
    (writei_meets consistent loaded notDevice started fits).returns (by
      rintro stop ⟨_, short⟩
      have enough := mapped.required_le
      rw [sizeNow] at short
      omega)
  refine ⟨s', ?_, wrote, wrote.content_patch loaded rfl rfl started (by omega)⟩
  rw [run, ran, isLength]

end Directory

/-! ## A small directory -/

def emptyDir : Dinode := { Dinode.zero with type := tDir, nlink := 1 }

/-- The small disk with an empty directory, which the first slot has locked. -/
def smallDirectory : State :=
  { smallState with
    disk := putDinode small smallState.disk 1 emptyDir
    inode := fun ip =>
      if ip = firstSlot then { inum := 1, ref := 1, locked := true, valid := true, din := emptyDir }
      else { inum := 0, ref := 0, locked := false, valid := false, din := Dinode.zero } }

/-- An inode without blocks can be put where there was none with blocks. -/
theorem Consistent.putBare {s s' : State} (consistent : Consistent s) {inum : Nat} {d : Dinode}
    (inTable : inum < s.sb.slots)
    (before : ∀ place : Place, place.inum = inum →
      own s.sb s.disk (dinodeAt s.sb s.disk) place = none)
    (bare : d.addrs = Dinode.zero.addrs) (empty : d.size = 0) (sb : s'.sb = s.sb)
    (disksize : s'.disksize = s.disksize) (disk : s'.disk = putDinode s.sb s.disk inum d) :
    Consistent s' := by
  apply consistent.put inTable (own_update_none before (Or.inr bare)) _ sb disksize disk
  intro _
  refine ⟨by rw [empty]; decide, fun bn _ => ?_⟩
  rw [addr_of_addrs bare, zero_addr, empty]
  simp [blocksOf, bSize]

theorem smallDirectory_consistent : Consistent smallDirectory :=
  smallState_consistent.putBare (show 1 < small.slots by decide)
    (fun place _ => smallState_own place)
    (show emptyDir.addrs = _ from rfl) rfl rfl rfl rfl

theorem smallDirectory_loaded : Loaded smallDirectory firstSlot := by
  have table : dinodeAt small smallDirectory.disk 1 = emptyDir := dinodeAt_putDinode _ _ _ _
  constructor
  · refine ⟨by decide, fun free => ?_⟩
    exact absurd ((congrArg Dinode.type table).symm.trans free) (by decide)
  · exact table.symm

end Rexv6.Fs
