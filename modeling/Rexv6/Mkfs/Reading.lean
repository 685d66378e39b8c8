import Rexv6.Fs.Cache
import Rexv6.Fs.Directories
import Rexv6.Mkfs.Regions

/-!
Contract: the kernel reads what `mkfs` wrote.

Owns: the entries of the root directory as `dirlookup` sees them, and the theorem
that each file of the host is found under its name with its bytes.

Does not own: images with so many files that an inode leaves the inode blocks.
-/

namespace Rexv6.Mkfs

open Rexv6.Foundation
open Rexv6.Foundation.Resumption
open Rexv6.Fs (Dinode Dirent Slot Superblock Live Mapped Readable Got byteAt blocksOf content
  dinodeAt direntAt direntName direntSize dirSiz dirlookup dot dotdot ilock maxFile own readi
  rootIno shortName tDev tDir tFile)
open Function (update_self)

/-! ## The entries of the root directory -/

theorem flatMap_encode_chunk : ∀ (list : List Dirent) (k : Nat) (inList : k < list.length),
    (∀ de ∈ list, de.name.length = dirSiz) →
    ((list.flatMap Dirent.encode).drop (direntSize * k)).take direntSize = (list[k]).encode := by
  intro list
  induction list with
  | nil =>
    intro k inList
    exact absurd inList (Nat.not_lt_zero k)
  | cons de rest ih =>
    intro k inList full
    have length := Dirent.encode_length de (full de List.mem_cons_self)
    cases k with
    | zero =>
      rw [Nat.mul_zero, List.drop_zero, List.flatMap_cons, List.take_left' length]
      rfl
    | succ k =>
      have more := ih k (Nat.lt_of_succ_lt_succ inList)
        fun other member => full other (List.mem_cons_of_mem _ member)
      have next : direntSize * (k + 1) = de.encode.length + direntSize * k := by
        rw [length, Nat.mul_succ, Nat.add_comm]
      rw [List.flatMap_cons, next, List.drop_length_add_append, more]
      rfl

theorem entries_get (files : List HostFile) {j : Nat} (inList : j < files.length) :
    (entries files)[j + 2]? = some { inum := j + 2, name := direntName (files[j]).dispname } := by
  simp [entries, inList]

section Image

variable {st image : State} {files : List HostFile} (holds : Holds st files)
  (finished : Finished st image)

include holds finished

/-- The bytes of an inode of the image within the content it was given. -/
theorem Finished.bytes {inum off n m : Nat} (live : Live sb (dinodeAt sb st.mapped) inum)
    (isM : m = min n ((fileBytes files inum).length - off)) :
    ((List.range m).map fun i => byteAt image.disk (dinodeAt sb image.disk inum) (off + i)) =
      ((fileBytes files inum).drop off).take n := by
  have isContent := holds.clean.contents inum live 0 Dinode.zero
  have size := holds.clean.size live
  have sizeLe := ((holds.clean.consistent 0 Dinode.zero).mapped inum live).size_le
  have slice : _ = ((content (st.kernel 0 Dinode.zero) inum).drop off).take n :=
    Fs.content_slice (st.kernel 0 Dinode.zero) inum (m := m) (by rw [isM, ← size]; rfl)
  rw [isContent] at slice
  rw [← slice]
  apply List.map_congr_left
  intro i member
  have inRange := List.mem_range.mp member
  have small : off + i < maxFile * bSize := by
    have isSize : (dinodeAt (st.kernel 0 Dinode.zero).sb (st.kernel 0 Dinode.zero).disk
        inum).size.toNat = (fileBytes files inum).length := size
    omega
  exact (finished.reads holds live).2 _ small

/-- The entries of the root directory, as the kernel finds them. -/
theorem Finished.direntAt {k : Nat} {de : Dirent} (isEntry : (entries files)[k]? = some de) :
    Fs.direntAt image.disk (dinodeAt sb image.disk rootIno) k = de := by
  obtain ⟨inList, isDe⟩ := List.getElem?_eq_some_iff.mp isEntry
  have few := holds.few
  have count : (entries files).length = files.length + 2 := by
    simp [entries]
  have root : fileBytes files rootIno = rootBytes files := if_pos rfl
  have length := rootBytes_length files
  have chunk := flatMap_encode_chunk (entries files) k inList (entries_full files)
  have whole : direntSize = min direntSize ((fileBytes files rootIno).length - direntSize * k) := by
    rw [root, length]
    simp only [direntSize]
    omega
  rw [Fs.direntAt, finished.bytes holds holds.rootLive whole, root, rootBytes, chunk, isDe]
  apply Dirent.decode_encode
  have member : de ∈ entries files := isDe ▸ List.getElem_mem inList
  rcases List.mem_append.mp member with fixed | added
  · simp only [List.mem_cons, List.not_mem_nil, or_false] at fixed
    rcases fixed with isDot | isDotdot
    · rw [isDot]
      decide
    · rw [isDotdot]
      decide
  · obtain ⟨index, inFiles, same⟩ := List.mem_mapIdx.mp added
    rw [← same]
    dsimp only
    omega

theorem Finished.readable {s : Fs.State} {ip : Slot} {inum stop : Nat}
    (isDisk : s.disk = image.disk) (isSize : s.disksize = fsSize)
    (isDin : (s.inode ip).din = dinodeAt sb image.disk inum)
    (live : Live sb (dinodeAt sb image.disk) inum)
    (mapped : Mapped image.disk (dinodeAt sb image.disk inum) (blocksOf stop)) :
    Readable s ip stop where
  limit := mapped.size_le
  blocks := by
    intro bn below
    have inFile : bn < maxFile := lt_of_lt_of_le below mapped.1
    have nonzero := (mapped.2 bn inFile).mpr below
    have range := (finished.sound holds).addr_range live inFile nonzero
    rw [isDin, isDisk, isSize]
    exact ⟨nonzero, range.2⟩
  indirect := by
    intro nonzero
    rw [isDin] at nonzero ⊢
    rw [isSize]
    exact ((finished.sound holds).indirect_range live nonzero).2

end Image

/-! ## The kernel on the image -/

theorem HostFile.dispname_string (file : HostFile) : (0 : UInt8) ∉ file.dispname := by
  intro member
  apply file.string
  rw [HostFile.dispname, List.mem_reverse] at member
  exact List.mem_reverse.mp ((List.takeWhile_sublist _).subset member)

/-- A name that counts as a shorter one is that name. -/
theorem eq_of_shortName {name other : List UInt8} (string : (0 : UInt8) ∉ name)
    (otherString : (0 : UInt8) ∉ other) (short : other.length < dirSiz)
    (same : shortName name = shortName other) : name = other := by
  rw [Fs.shortName_of_string string, Fs.shortName_of_string otherString,
    List.take_of_length_le (le_of_lt short)] at same
  have length := congrArg List.length same
  rw [List.length_take] at length
  rwa [List.take_of_length_le (by omega)] at same

/-- A kernel that runs on the image, with the root directory in slot `dp`: its
copies of inodes are those of the image, only the lock of `dp` may be held, and
the cache has a free slot. -/
structure Booted (image : State) (s : Fs.State) (dp : Slot) : Prop where
  disk : s.disk = image.disk
  superblock : s.sb = sb
  disksize : s.disksize = fsSize
  root : (s.inode dp).inum = rootIno
  held : 0 < (s.inode dp).ref
  loaded : (s.inode dp).din = dinodeAt sb image.disk rootIno
  copies : ∀ ip, 0 < (s.inode ip).ref → (s.inode ip).valid = true →
    (s.inode ip).din = dinodeAt sb image.disk (s.inode ip).inum
  unlocked : ∀ ip, ip ≠ dp → (s.inode ip).locked = false
  free : ∃ ip, (s.inode ip).ref = 0

theorem ilock_image {image : State} {s : Fs.State} {ip : Slot} {inum : Nat}
    (isDisk : s.disk = image.disk) (isSb : s.sb = sb) (isSize : s.disksize = fsSize)
    (isInum : (s.inode ip).inum = inum) (held : 1 ≤ (s.inode ip).ref)
    (unlocked : (s.inode ip).locked = false)
    (copy : (s.inode ip).valid = true → (s.inode ip).din = dinodeAt sb image.disk inum)
    (live : Live sb (dinodeAt sb image.disk) inum) :
    ∃ s', Fs.run (ilock ip) s = .ok ((), s') ∧ s'.disk = image.disk ∧ s'.disksize = fsSize ∧
      (s'.inode ip).din = dinodeAt sb image.disk inum := by
  have table : dinodeAt s.sb s.disk (s.inode ip).inum = dinodeAt sb image.disk inum := by
    rw [isSb, isDisk, isInum]
  obtain ⟨_, s', ran, _, _, _, isAfter⟩ := (Fs.ilock_meets s ip).returns (by
    rintro stop (⟨_, low⟩ | ⟨_, locked⟩ | ⟨_, behind⟩ | ⟨_, _, untyped⟩)
    · omega
    · rw [unlocked] at locked
      cases locked
    · have inFront : sb.iblock inum < sb.bmapstart := Fs.iblock_lt live.1
      have small : sb.bmapstart < fsSize := by decide
      rw [isSb, isInum, isSize] at behind
      omega
    · rw [table] at untyped
      exact live.2 untyped)
  refine ⟨s', ran, ?_, ?_, ?_⟩
  · rw [isAfter]
    exact isDisk
  · rw [isAfter]
    exact isSize
  · rw [isAfter, Fs.State.afterIlock, Fs.withInode_inode, update_self]
    by_cases valid : (s.inode ip).valid = true
    · rw [if_pos valid, copy valid]
    · rw [if_neg valid, table]

section Kernel

variable {st image : State} {files : List HostFile} {s : Fs.State} {dp : Slot}
  (booted : Booted image s dp)

include booted

/-- `iget` and `ilock` of an inode other than the root give the inode of the image. -/
theorem Booted.locks {inum : Nat} {ip : Slot} {s1 : Fs.State} (different : inum ≠ rootIno)
    (live : Live sb (dinodeAt sb image.disk) inum) (got : Got inum ip s s1) :
    ∃ s2, Fs.run (ilock ip) s1 = .ok ((), s2) ∧ s2.disk = image.disk ∧ s2.disksize = fsSize ∧
      (s2.inode ip).din = dinodeAt sb image.disk inum := by
  rcases got with ⟨held, isInum, isS1⟩ | ⟨_, free, isS1⟩
  · have notRoot : ip ≠ dp := by
      rintro rfl
      exact different (isInum.symm.trans booted.root)
    apply ilock_image _ _ _ _ _ _ _ live
    · rw [isS1]
      exact booted.disk
    · rw [isS1]
      exact booted.superblock
    · rw [isS1]
      exact booted.disksize
    · rw [isS1, Fs.withInode_inode, update_self]
      exact isInum
    · rw [isS1, Fs.withInode_inode, update_self]
      dsimp only
      omega
    · rw [isS1, Fs.withInode_inode, update_self]
      exact booted.unlocked ip notRoot
    · rw [isS1, Fs.withInode_inode, update_self]
      intro valid
      rw [← isInum]
      exact booted.copies ip held valid
  · have notRoot : ip ≠ dp := by
      rintro rfl
      have held := booted.held
      omega
    apply ilock_image _ _ _ _ _ _ _ live
    · rw [isS1]
      exact booted.disk
    · rw [isS1]
      exact booted.superblock
    · rw [isS1]
      exact booted.disksize
    · rw [isS1, Fs.withInode_inode, update_self]
    · rw [isS1, Fs.withInode_inode, update_self]
    · rw [isS1, Fs.withInode_inode, update_self]
      exact booted.unlocked ip notRoot
    · rw [isS1, Fs.withInode_inode, update_self]
      intro invalid
      cases invalid

variable (holds : Holds st files) (finished : Finished st image)

include holds finished

/-- Entry `k` of the root directory in the kernel's copy. -/
theorem Booted.entry {k : Nat} {de : Dirent} (isEntry : (entries files)[k]? = some de) :
    Fs.direntAt s.disk (s.inode dp).din k = de := by
  rw [booted.disk, booted.loaded]
  exact finished.direntAt holds isEntry

/-- No entry in front of that of a file has its name. -/
theorem Booted.first {j : Nat} (inList : j < files.length)
    (distinct : (files.map fun file => file.dispname.take dirSiz).Nodup)
    (proper : ∀ file ∈ files, file.dispname ≠ dot ∧ file.dispname ≠ dotdot) :
    ∀ k < j + 2, ¬ (Fs.direntAt s.disk (s.inode dp).din k).Matches (files[j]).dispname := by
  have isProper := proper (files[j]) (List.getElem_mem inList)
  intro k before matching
  -- The first two entries are the dots; the others belong to the files before.
  rcases Nat.lt_or_ge k 2 with isDots | isFile
  · have dots : (entries files)[k]? = some { inum := rootIno, name := direntName dot } ∨
        (entries files)[k]? = some { inum := rootIno, name := direntName dotdot } := by
      rcases Nat.lt_or_ge k 1 with isDot | isDotdot
      · left
        rw [Nat.lt_one_iff.mp isDot]
        rfl
      · right
        rw [show k = 1 by omega]
        rfl
    rcases dots with isEntry | isEntry
    · rw [booted.entry holds finished isEntry] at matching
      exact isProper.1 (eq_of_shortName (HostFile.dispname_string _) (by decide) (by decide)
        (matching.2.trans (Fs.shortName_direntName _)))
    · rw [booted.entry holds finished isEntry] at matching
      exact isProper.2 (eq_of_shortName (HostFile.dispname_string _) (by decide) (by decide)
        (matching.2.trans (Fs.shortName_direntName _)))
  · obtain ⟨i, rfl⟩ : ∃ i, k = i + 2 := ⟨k - 2, by omega⟩
    have inFiles : i < files.length := by omega
    rw [booted.entry holds finished (entries_get files inFiles)] at matching
    have same : (files[j]).dispname.take dirSiz = (files[i]).dispname.take dirSiz := by
      rw [← Fs.shortName_of_string (HostFile.dispname_string _),
        ← Fs.shortName_of_string (HostFile.dispname_string (files[i]))]
      exact matching.2.trans (Fs.shortName_direntName _)
    have index : j = i := by
      have left : j < (files.map fun file => file.dispname.take dirSiz).length := by simpa
      have right : i < (files.map fun file => file.dispname.take dirSiz).length := by simpa
      have injective := List.nodup_iff_injective_get.mp distinct
      exact Fin.mk.inj (@injective ⟨j, left⟩ ⟨i, right⟩ (by simpa using same))
    omega

/-- `dirlookup` of a name that one file has. -/
theorem Booted.finds {j : Nat} (inList : j < files.length)
    (distinct : (files.map fun file => file.dispname.take dirSiz).Nodup)
    (proper : ∀ file ∈ files, file.dispname ≠ dot ∧ file.dispname ≠ dotdot) :
    ∃ ip s1, Fs.run (dirlookup dp (files[j]).dispname) s =
        .ok (some (ip, direntSize * (j + 2)), s1) ∧ Got (j + 2) ip s s1 := by
  have live := finished.live_iff.mpr holds.rootLive
  have readable := finished.readable holds booted.disk booted.disksize booted.loaded live
    (finished.rootMapped holds)
  have isDir : (s.inode dp).din.type = tDir := by
    have freeinode := holds.freeinode
    rw [booted.loaded, (finished.refers rootIno).1, holds.clean.types rootIno (by decide), kind,
      if_neg (by unfold rootIno; omega), if_pos rfl]
  have size : (s.inode dp).din.size.toNat = roundUp (direntSize * (files.length + 2)) := by
    rw [booted.loaded, finished.rootSize holds]
  have isEntry := booted.entry holds finished (entries_get files inList)
  have found : (Fs.direntAt s.disk (s.inode dp).din (j + 2)).Matches (files[j]).dispname := by
    rw [isEntry]
    exact ⟨Nat.succ_ne_zero _, (Fs.shortName_direntName _).symm⟩
  have first : ∀ k < j + 2,
      ¬ (Fs.direntAt s.disk (s.inode dp).din k).Matches (files[j]).dispname := by
    exact booted.first holds finished inList distinct proper
  have lookup : Fs.Meets (dirlookup dp (files[j]).dispname) s
      (fun result s1 => ∃ ip, result = some (ip, direntSize * (j + 2)) ∧ Got (j + 2) ip s s1)
      (fun _ => False) := by
    have next : direntSize * (j + 2 + 1) ≤ direntSize * (files.length + 2) :=
      Nat.mul_le_mul_left _ (by omega)
    have rounded : direntSize * (files.length + 2) ≤ roundUp (direntSize * (files.length + 2)) := by
      simp only [roundUp, bSize]
      omega
    have notDevice : (s.inode dp).din.type ≠ tDev := by
      rw [isDir]
      decide
    have taken : Fs.Meets (Fs.iget (j + 2)) s
        (fun ip s1 => ∃ ip', some (ip, direntSize * (j + 2)) = some (ip', direntSize * (j + 2)) ∧
          Got (j + 2) ip' s s1) (fun _ => False) := by
      apply (Fs.iget_meets s (j + 2)).imp
      · intro ip s1 got
        exact ⟨ip, rfl, got⟩
      · rintro stop ⟨_, full⟩
        obtain ⟨ip, isFree⟩ := booted.free
        exact full ip isFree
    have loop : Fs.Meets (Fs.lookupLoop dp (files[j]).dispname _ (direntSize * 0)) s
        (fun result s1 => ∃ ip, result = some (ip, direntSize * (j + 2)) ∧ Got (j + 2) ip s s1)
        (fun _ => False) :=
      Fs.lookupLoop_finds readable notDevice next
        (by rw [size]; exact next.trans rounded) found first
      (by rw [isEntry]; exact taken) ((s.inode dp).din.size.toNat / direntSize + 2) 0 (by omega)
      (by
        rw [size]
        have covered := Nat.div_le_div_right (c := direntSize) rounded
        rw [Nat.mul_div_cancel_left _ (by decide)] at covered
        omega)
    rw [dirlookup, Fs.Meets, meets_bind, meets_get]
    rw [if_neg (by rw [isDir]; simp)]
    exact loop
  obtain ⟨_, s1, ran, ip, isResult, got⟩ := lookup.returns fun _ none => none
  refine ⟨ip, s1, ?_, got⟩
  rw [isResult] at ran
  exact ran

/-- The inode of a file, locked: `readi` returns the bytes of the file. -/
theorem Booted.reads {j : Nat} (inList : j < files.length) {ip : Slot} {s1 : Fs.State}
    (got : Got (j + 2) ip s s1) :
    ∃ s2, Fs.run (ilock ip) s1 = .ok ((), s2) ∧ (s2.inode ip).din.type = tFile ∧
      (s2.inode ip).din.size.toNat = (files[j]).bytes.length ∧
        ∀ n < 2 ^ 32, Fs.run (readi ip 0 n) s2 = .ok (some ((files[j]).bytes.take n), s2) := by
  have freeinode := holds.freeinode
  have notRoot : j + 2 ≠ rootIno := by
    unfold rootIno
    omega
  have handed : Live sb (dinodeAt sb st.mapped) (j + 2) := holds.clean.live (by omega) (by omega)
  have live := finished.live_iff.mpr handed
  have isBytes : fileBytes files (j + 2) = (files[j]).bytes := by
    simp [fileBytes, notRoot, inList]
  obtain ⟨s2, ran, isDisk, isSize, isDin⟩ := booted.locks notRoot live got
  have isFile : (s2.inode ip).din.type = tFile := by
    rw [isDin, (finished.refers _).1, holds.clean.types _ handed.1, kind, if_neg (by omega),
      if_neg notRoot]
  have size : (s2.inode ip).din.size.toNat = (files[j]).bytes.length := by
    rw [isDin, finished.other notRoot, holds.clean.size handed, isBytes]
  refine ⟨s2, ran, isFile, size, fun n small => ?_⟩
  have mapped := finished.fileMapped holds notRoot handed
  have readable := finished.readable holds isDisk isSize isDin live mapped
  rw [← isDin, size] at readable
  have notDevice : (s2.inode ip).din.type ≠ tDev := by
    rw [isFile]
    decide
  have read : Fs.Meets (readi ip 0 n) s2 _ _ :=
    Fs.readi_readable readable notDevice (Nat.zero_le _) (by omega) rfl (by rw [size]; omega)
  obtain ⟨result, after, ran, same, isResult⟩ := read.returns fun _ none => none
  rw [Fs.run, ran, same, isResult, isDisk, isDin,
    finished.bytes holds handed (by rw [← isDin, size, isBytes]), isBytes, List.drop_zero]

end Kernel

/-- The kernel reads what `mkfs` wrote: it finds each file of the host under its
name, with its bytes, and the free map has exactly the metadata blocks and the
blocks that inodes refer to. -/
theorem kernel_reads_image {files : List HostFile} (few : files.length < nInodes)
    (distinct : (files.map fun file => file.dispname.take dirSiz).Nodup)
    (proper : ∀ file ∈ files, file.dispname ≠ dot ∧ file.dispname ≠ dotdot) (fits : Fits files) :
    ∃ image, mkfs (files.map some) = .ok image ∧ Superblock.load (image.disk 1) = sb ∧
      (∀ s dp, Booted image s dp → ∀ file ∈ files, ∃ ip off s1 s2,
        Fs.run (dirlookup dp file.dispname) s = .ok (some (ip, off), s1) ∧
        Fs.run (ilock ip) s1 = .ok ((), s2) ∧ (s2.inode ip).din.type = tFile ∧
        (s2.inode ip).din.size.toNat = file.bytes.length ∧
        ∀ n < 2 ^ 32, Fs.run (readi ip 0 n) s2 = .ok (some (file.bytes.take n), s2)) ∧
      ∀ b < fsSize, sb.bit image.disk b = true ↔
        b < nmeta ∨ ∃ place, own sb image.disk (dinodeAt sb image.disk) place = some b := by
  have notMany : files.length ≤ 206 := by
    unfold nInodes at few
    omega
  obtain ⟨image, ok⟩ := mkfs_returns notMany fits
  obtain ⟨files', st, isFiles, holds, finished⟩ :=
    finished_of_few (by rwa [List.length_map]) ok
  have same : files = files' := (List.map_injective_iff.mpr (Option.some_injective _)) isFiles
  subst same
  have sound := finished.sound holds
  refine ⟨image, ok, ?_, ?_, ?_⟩
  · have loaded := (holds.clean.consistent 0 Dinode.zero).loaded
    rw [finished.disk, Fs.putDinode_other _ _ _ (by decide)]
    exact loaded
  · intro s dp booted file member
    obtain ⟨j, inList, rfl⟩ := List.mem_iff_getElem.mp member
    obtain ⟨ip, s1, looked, got⟩ := booted.finds holds finished inList distinct proper
    obtain ⟨s2, locked, isFile, size, read⟩ := booted.reads holds finished inList got
    exact ⟨ip, _, s1, s2, looked, locked, isFile, size, read⟩
  · intro b inRange
    constructor
    · intro isSet
      by_cases metadata : b < nmeta
      · exact Or.inl metadata
      · right
        apply (sound.owned.used b).mp
        exact ⟨by rw [sb_dataStart]; omega, inRange, isSet⟩
    · rintro (metadata | owned)
      · exact sound.metadata b (by rw [sb_dataStart]; exact metadata)
      · exact ((sound.owned.used b).mpr owned).2.2

/-- A kernel that has just locked the root directory. -/
def bootState (image : State) : Fs.State :=
  { disk := image.disk
    disksize := fsSize
    sb := sb
    inode := fun ip =>
      { inum := rootIno
        ref := if ip = Fs.firstSlot then 1 else 0
        locked := ip = Fs.firstSlot
        valid := true
        din := dinodeAt sb image.disk rootIno }
    devsw := fun _ => { read := none, write := none }
    logged := [] }

theorem bootState_booted (image : State) : Booted image (bootState image) Fs.firstSlot where
  disk := rfl
  superblock := rfl
  disksize := rfl
  root := rfl
  held := Int.one_pos
  loaded := rfl
  copies _ _ _ := rfl
  unlocked ip different := decide_eq_false different
  free := ⟨⟨1, by decide⟩, rfl⟩

def twoBytes : HostFile := ⟨[97], [[7, 9]], by decide, by decide⟩

theorem kernel_reads_two_bytes :
    ∃ image, mkfs [some twoBytes] = .ok image ∧ ∃ ip off s1 s2,
      Fs.run (dirlookup Fs.firstSlot [97]) (bootState image) = .ok (some (ip, off), s1) ∧
      Fs.run (ilock ip) s1 = .ok ((), s2) ∧
        Fs.run (readi ip 0 512) s2 = .ok (some [7, 9], s2) := by
  have fits : Fits [twoBytes] := ⟨by decide, by decide⟩
  obtain ⟨image, ok, _, reads, _⟩ := kernel_reads_image (by decide) (by decide) (by decide) fits
  obtain ⟨ip, off, s1, s2, looked, locked, _, _, read⟩ :=
    reads (bootState image) Fs.firstSlot (bootState_booted image) twoBytes List.mem_cons_self
  exact ⟨image, ok, ip, off, s1, s2, looked, locked, read 512 (by decide)⟩

end Rexv6.Mkfs
