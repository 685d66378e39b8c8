import Rexv6.Mkfs.Image

/-!
Contract: where `mkfs` puts inodes and blocks, for any number of files.

Owns: what holds of every run of `mkfs`, also once the inodes have left the
inode blocks; the exact condition under which every block of every file is
mapped, and the one under which everything stays in its region.

Does not own: the content of the files.
-/

namespace Rexv6.Mkfs

open Rexv6.Foundation
open Rexv6.Foundation.LittleEndian
open Rexv6.Foundation.Resumption
open Rexv6.Fs (Disk Dinode Slot Sound Live Mapped Consistent dinodeAt blocksOf nDirect maxFile
  rootIno tDir tFile direntSize)

/-! ## Every run -/

/-- What holds between two states of any run: blocks are handed out in order, and
only `ialloc` hands out inodes. -/
structure Counts (st st' : State) : Prop where
  freeblock : st.freeblock ≤ st'.freeblock
  freeinode : st'.freeinode = st.freeinode
  allocated : st'.allocated = st.allocated

theorem Counts.refl (st : State) : Counts st st := ⟨le_refl _, rfl, rfl⟩

theorem Counts.trans {st st' st'' : State} (first : Counts st st') (second : Counts st' st'') :
    Counts st st'' :=
  ⟨first.freeblock.trans second.freeblock, second.freeinode.trans first.freeinode,
    second.allocated.trans first.allocated⟩

/-- A program that only counts up, from wherever it starts. -/
def Counting {α : Type} (task : M α) : Prop :=
  ∀ st, Meets task st (fun _ st' => Counts st st') fun _ => True

section Counting

theorem Counting.pure {α : Type} (value : α) : Counting (Pure.pure value) :=
  fun st => Counts.refl st

theorem Counting.halt {α : Type} (stop : Stop) : Counting (Task.halt stop : M α) :=
  fun _ => trivial

theorem Counting.bind {α β : Type} {task : M α} {next : α → M β} (first : Counting task)
    (second : ∀ value, Counting (next value)) : Counting (task >>= next) := by
  intro st
  apply Resumption.Meets.bind (first st)
  intro value st' counts
  apply (second value st').mono
  intro _ st'' more
  exact counts.trans more

theorem Counting.ite {α : Type} {condition : Prop} [Decidable condition] {yes no : M α}
    (first : Counting yes) (second : Counting no) :
    Counting (if condition then yes else no) := by
  split
  · exact first
  · exact second

theorem rsect_counting (sec : Nat) : Counting (rsect sec) := by
  intro st
  rw [rsect, Meets, meets_bind, meets_get]
  split
  · exact Counts.refl st
  · trivial

theorem wsect_counting (sec : Nat) (buf : Fs.Block) : Counting (wsect sec buf) :=
  fun _ => ⟨le_refl _, rfl, rfl⟩

theorem winode_counting (inum : Nat) (ip : Dinode) : Counting (winode inum ip) :=
  (rsect_counting _).bind fun _ => (wsect_counting _ _).bind fun _ _ => ⟨le_refl _, rfl, rfl⟩

theorem rinode_counting (inum : Nat) : Counting (rinode inum) :=
  (rsect_counting _).bind fun _ => .pure _

theorem takeBlock_counting : Counting takeBlock :=
  fun _ => ⟨Nat.le_succ _, rfl, rfl⟩

theorem mapBlock_counting (din : Dinode) (fbn : Nat) : Counting (mapBlock din fbn) := by
  unfold mapBlock
  split
  · exact .ite (takeBlock_counting.bind fun _ => .pure _) (.pure _)
  · have rest : ∀ din : Dinode, Counting (do
        let indirect ← rsect (din.addrs (Fin.last nDirect)).toNat
        if Fs.entry indirect (fbn - nDirect) = 0 then
          let b ← takeBlock
          let indirect := setLe indirect (4 * (fbn - nDirect)) 4 b
          wsect (din.addrs (Fin.last nDirect)).toNat indirect
          return (din, Fs.entry indirect (fbn - nDirect))
        else
          return (din, Fs.entry indirect (fbn - nDirect)) : M (Dinode × Nat)) := fun din =>
      (rsect_counting _).bind fun _ => .ite
        (takeBlock_counting.bind fun _ => (wsect_counting _ _).bind fun _ => .pure _) (.pure _)
    exact .ite (takeBlock_counting.bind fun _ => (Counting.pure _).bind rest)
      ((Counting.pure _).bind rest)

theorem iappendLoop_counting : ∀ (turns : Nat) (din : Dinode) (off : Nat) (p : List UInt8),
    Counting (iappendLoop turns din off p) := by
  intro turns
  induction turns with
  | zero =>
    intro din off p
    cases p with
    | nil => exact .pure _
    | cons first rest => exact .halt _
  | succ turns ih =>
    intro din off p
    cases p with
    | nil => exact .pure _
    | cons first rest =>
      exact .ite ((mapBlock_counting _ _).bind fun _ => (rsect_counting _).bind fun _ =>
        (wsect_counting _ _).bind fun _ => ih _ _ _) (.halt _)

theorem iappend_counting (inum : Nat) (p : List UInt8) : Counting (iappend inum p) :=
  (rinode_counting _).bind fun _ => (iappendLoop_counting _ _ _ _).bind fun _ =>
    winode_counting _ _

theorem readLoop_counting (inum : Nat) (chunks : List (List UInt8)) :
    Counting (readLoop inum chunks) := by
  induction chunks with
  | nil => exact .pure _
  | cons chunk rest ih =>
    exact (iappend_counting _ _).bind fun _ => ih

end Counting

/-- The inodes are handed out in order. -/
theorem ialloc_counts (type : BitVec 16) (st : State) :
    Meets (ialloc type) st
      (fun _ st' => st.freeblock ≤ st'.freeblock ∧ st'.freeinode = st.freeinode + 1 ∧
        st'.allocated = st.allocated ++ [st.freeinode]) fun _ => True := by
  apply meets_bind.mpr
  apply meets_get.mpr
  apply meets_bind.mpr
  apply meets_modify.mpr
  apply Resumption.Meets.bind (winode_counting _ _ _)
  intro _ st' counts
  exact ⟨counts.freeblock, counts.freeinode, counts.allocated⟩

theorem addFile_counts (file : Option HostFile) (rootino : Nat) (st : State) :
    Meets (addFile file rootino) st
      (fun added st' => added = true → st.freeblock ≤ st'.freeblock ∧
        st'.freeinode = st.freeinode + 1 ∧ st'.allocated = st.allocated ++ [st.freeinode])
      fun _ => True := by
  cases file with
  | none =>
    intro added
    cases added
  | some file =>
    apply Resumption.Meets.bind (ialloc_counts tFile st)
    intro inum st1 result
    have rest : Counting (do
        iappend rootino ({ inum := inum % 2 ^ 16, name := Fs.direntName file.dispname } :
          Fs.Dirent).encode
        readLoop (inum % 2 ^ 16) file.chunks
        return true) :=
      (iappend_counting _ _).bind fun _ => (readLoop_counting _ _).bind fun _ => .pure _
    apply (rest st1).mono
    intro added st2 counts _
    exact ⟨result.1.trans counts.freeblock, counts.freeinode.trans result.2.1,
      counts.allocated.trans result.2.2⟩

theorem addFiles_counts (rootino : Nat) : ∀ (args : List (Option HostFile)) (st : State),
    Meets (addFiles rootino args) st
      (fun _ st' => st.freeblock ≤ st'.freeblock ∧
        st'.freeinode = st.freeinode + args.length ∧
          st'.allocated = st.allocated ++ List.range' st.freeinode args.length)
      fun _ => True := by
  intro args
  induction args with
  | nil =>
    intro st
    exact ⟨le_refl _, rfl, by simp⟩
  | cons arg rest ih =>
    intro st
    apply Resumption.Meets.bind (addFile_counts arg rootino st)
    intro added st1 result
    split
    · rename_i wasAdded
      obtain ⟨block1, inode1, allocated1⟩ := result wasAdded
      apply (ih st1).mono
      rintro _ st2 ⟨block2, inode2, allocated2⟩
      refine ⟨block1.trans block2, ?_, ?_⟩
      · rw [inode2, inode1, List.length_cons]
        omega
      · rw [allocated2, allocated1, inode1, List.length_cons, List.range'_succ,
          List.append_assoc]
        rfl
    · trivial

theorem addFiles_append (rootino : Nat) (first second : List (Option HostFile)) :
    addFiles rootino (first ++ second) =
      (addFiles rootino first >>= fun _ => addFiles rootino second) := by
  induction first with
  | nil => rfl
  | cons arg rest ih =>
    rw [List.cons_append, addFiles, addFiles, bind_assoc]
    congr 1
    funext added
    by_cases wasAdded : added = true
    · rw [if_pos wasAdded, if_pos wasAdded, ih]
    · rw [if_neg wasAdded, if_neg wasAdded]
      rfl

/-- With 206 files the root directory alone has taken seven blocks. -/
theorem addFiles_freeblock {args : List (Option HostFile)} (many : 206 ≤ args.length) {st : State}
    (holds : Holds st []) :
    Meets (addFiles rootIno args) st (fun _ st' => nmeta + 7 ≤ st'.freeblock) fun _ => True := by
  rw [← List.take_append_drop 206 args, addFiles_append]
  have length : (args.take 206).length = 206 := by
    rw [List.length_take]
    omega
  apply Resumption.Meets.bind
  · apply (addFiles_holds (args.take 206) holds (by simp [length])).imp
    · intro _ st1 result
      exact result
    · intro _ _
      trivial
  · rintro _ st1 ⟨files, isFiles, holds1⟩
    rw [List.nil_append] at holds1
    have count : files.length = 206 := by
      rw [isFiles, List.length_map] at length
      exact length
    have directory : cost (direntSize * (206 + 2)) = 7 := by decide
    have bound : nmeta + 7 ≤ st1.freeblock := by
      rw [holds1.freeblock, total, count, directory]
      omega
    apply (addFiles_counts rootIno (args.drop 206) st1).mono
    intro _ st2 counts
    exact bound.trans counts.1

/-- The last part of `main`: whatever has happened before, the free map is
written last. -/
theorem finish_counts (rootino : Nat) (st : State) :
    Meets (do
        let din ← rinode rootino
        winode rootino { din with
          size := BitVec.ofInt 32 ((din.size.toInt.tdiv bSize + 1) * bSize) }
        balloc (← get).freeblock) st
      (fun _ image => image.allocated = st.allocated ∧ st.freeblock ≤ image.freeblock ∧
        image.disk sb.bmapstart = bitmap image.freeblock) fun _ => True := by
  apply Resumption.Meets.bind (rinode_counting rootino st)
  intro din st1 counts1
  apply Resumption.Meets.bind (winode_counting rootino _ st1)
  intro _ st2 counts2
  have counts := counts1.trans counts2
  apply meets_bind.mpr
  apply meets_get.mpr
  unfold balloc
  split
  · apply meets_wsect.mpr
    refine ⟨counts.allocated, counts.freeblock, ?_⟩
    have isSector : sector sb.bmapstart = sb.bmapstart := by decide
    dsimp only
    rw [isSector, Function.update_self]
  · trivial

theorem main_counts (args : List (Option HostFile)) :
    Meets (main args) State.start
      (fun _ image => image.allocated = List.range' 1 (args.length + 1) ∧
        (206 ≤ args.length → nmeta + 7 ≤ image.freeblock) ∧
          image.disk sb.bmapstart = bitmap image.freeblock) fun _ => True := by
  apply Resumption.Meets.bind initializeSuperblock_meets
  intro _ blank isBlank
  have clean : Clean blank fun _ => [] := by
    rw [isBlank]
    exact blank_clean
  apply Resumption.Meets.bind
    (initializeRootino_holds clean (by rw [isBlank]; rfl) (by rw [isBlank]; rfl))
  intro rootino st1 result
  obtain ⟨isRoot, holds1⟩ := result
  rw [isRoot]
  have started : st1.allocated = [1] := by
    rw [holds1.clean.allocated, holds1.freeinode]
    rfl
  have bounded : Meets (addFiles rootIno args) st1
      (fun _ st' => 206 ≤ args.length → nmeta + 7 ≤ st'.freeblock) fun _ => True := by
    by_cases many : 206 ≤ args.length
    · exact (addFiles_freeblock many holds1).mono fun _ _ bound _ => bound
    · exact (addFiles_counts rootIno args st1).mono fun _ _ _ many' => absurd many' many
  apply Resumption.Meets.bind
  · exact ((addFiles_counts rootIno args st1).and bounded).imp (fun _ _ result => result)
      fun _ _ => trivial
  · rintro _ st2 ⟨⟨_, _, allocated⟩, bound⟩
    apply (finish_counts rootIno st2).mono
    rintro _ image ⟨same, grown, written⟩
    refine ⟨?_, fun many => (bound many).trans grown, written⟩
    rw [same, allocated, started, holds1.freeinode, List.range'_succ]
    rfl

/-! ## The outcome of a run -/

theorem mkfs_ok {args : List (Option HostFile)} {image : State} :
    mkfs args = .ok image ↔ run (main args) State.start = .ok ((), image) := by
  unfold mkfs
  cases run (main args) State.start with
  | ok result =>
    constructor
    · intro same
      have isImage : result.2 = image := Except.ok.inj same
      rw [← isImage]
    · intro same
      rw [same]
      rfl
  | error stop =>
    constructor
    · intro same
      cases same
    · intro same
      cases same

section Outcome

variable {args : List (Option HostFile)} {image : State}

theorem allocated_eq (ok : mkfs args = .ok image) :
    image.allocated = List.range' 1 (args.length + 1) :=
  ((main_counts args).of_run (mkfs_ok.mp ok)).1

theorem finished_of_few (few : args.length ≤ 206) (ok : mkfs args = .ok image) :
    ∃ files st, args = files.map some ∧ Holds st files ∧ Finished st image :=
  (main_finished few).of_run (mkfs_ok.mp ok)

theorem mkfs_returns {files : List HostFile} (few : files.length ≤ 206) (fits : Fits files) :
    ∃ image, mkfs (files.map some) = .ok image := by
  have length : (files.map some).length ≤ 206 := by rwa [List.length_map]
  obtain ⟨_, image, ran, _⟩ := (main_finished length).returns fun _ none => none ⟨files, rfl, fits⟩
  exact ⟨image, mkfs_ok.mpr ran⟩

end Outcome

/-! ## Unmapped blocks -/

/-- Every inode has a block for each index below its size, and none above. -/
def NoUnmapped (image : State) : Prop :=
  ∀ inum ∈ image.allocated,
    Mapped image.disk (dinodeAt sb image.disk inum)
      (blocksOf (dinodeAt sb image.disk inum).size.toNat)

/-- Below the size of any inode, the kernel's `bmap` finds a block and allocates
none. -/
def ReadsOnly (image : State) : Prop :=
  ∀ inum ∈ image.allocated, ∀ (s : Fs.State) (ip : Slot), s.disk = image.disk →
    s.disksize = fsSize → (s.inode ip).din = dinodeAt sb image.disk inum →
      ∀ bn < blocksOf (dinodeAt sb image.disk inum).size.toNat,
        ∃ addr, Fs.run (Fs.bmap ip bn) s = .ok (addr, s)

section Root

variable {st image : State} {files : List HostFile} (holds : Holds st files)
  (finished : Finished st image)

include holds

theorem Holds.few : files.length ≤ 206 := by
  have room := holds.clean.room
  rw [holds.freeinode, sb_slots] at room
  omega

theorem Holds.rootLive : Live sb (dinodeAt sb st.mapped) rootIno := by
  have freeinode := holds.freeinode
  exact holds.clean.live (by decide) (by unfold rootIno; omega)

include finished

/-- The root directory maps the blocks of its entries, not those of its size. -/
theorem Finished.rootMapped :
    Mapped image.disk (dinodeAt sb image.disk rootIno)
      (blocksOf (direntSize * (files.length + 2))) := by
  have mapped := (holds.clean.consistent 0 Dinode.zero).mapped rootIno holds.rootLive
  refine ⟨?_, fun bn below => ?_⟩
  · rw [← root_size holds]
    exact mapped.1
  · rw [(finished.reads holds holds.rootLive).1 bn, ← root_size holds]
    exact mapped.2 bn below

theorem Finished.rootSize : (dinodeAt sb image.disk rootIno).size.toNat =
    roundUp (direntSize * (files.length + 2)) := by
  have few := holds.few
  rw [finished.root, rootInode]
  rw [root_size holds, Fs.toNat_ofNat]
  simp only [roundUp, direntSize, bSize]
  omega

theorem Finished.fileMapped {inum : Nat} (different : inum ≠ rootIno)
    (live : Live sb (dinodeAt sb st.mapped) inum) :
    Mapped image.disk (dinodeAt sb image.disk inum)
      (blocksOf (dinodeAt sb image.disk inum).size.toNat) := by
  have mapped := (holds.clean.consistent 0 Dinode.zero).mapped inum live
  have addrs := (finished.reads holds live).1
  rw [finished.other different] at addrs ⊢
  refine ⟨mapped.1, fun bn below => ?_⟩
  rw [addrs bn]
  exact mapped.2 bn below

/-- The rounded size has no block too many exactly if the entries do not fill
their last block. -/
theorem Finished.noUnmapped_iff : NoUnmapped image ↔ (files.length + 2) % 32 ≠ 0 := by
  have freeinode := holds.freeinode
  have few := holds.few
  have isRange : image.allocated = List.range' 1 (files.length + 1) := by
    rw [finished.allocated, holds.clean.allocated, freeinode]
    rfl
  have rounded : blocksOf (roundUp (direntSize * (files.length + 2))) =
      blocksOf (direntSize * (files.length + 2)) ↔ (files.length + 2) % 32 ≠ 0 := by
    simp only [blocksOf, roundUp, direntSize, bSize]
    omega
  have mappedRoot := finished.rootMapped holds
  rw [← rounded]
  constructor
  · intro none
    have mapped := none rootIno (by rw [isRange, List.mem_range']; exact ⟨0, by omega, rfl⟩)
    rw [finished.rootSize holds] at mapped
    have below : blocksOf (direntSize * (files.length + 2)) < maxFile := by
      simp only [blocksOf, direntSize, bSize, maxFile, nDirect, Fs.nIndirect]
      omega
    have grown : blocksOf (direntSize * (files.length + 2)) ≤
        blocksOf (roundUp (direntSize * (files.length + 2))) := by
      simp only [blocksOf, roundUp, direntSize, bSize]
      omega
    have next := (mapped.2 _ below).symm.trans (mappedRoot.2 _ below)
    omega
  · intro same inum member
    by_cases isRoot : inum = rootIno
    · rw [isRoot, finished.rootSize holds, same]
      exact mappedRoot
    · apply finished.fileMapped holds isRoot
      rw [isRange, List.mem_range'_1] at member
      exact holds.clean.live (by omega) (by omega)

theorem Finished.readsOnly (none : NoUnmapped image) : ReadsOnly image := by
  intro inum member s ip isDisk isSize isDin bn below
  have live : Live sb (dinodeAt sb image.disk) inum := by
    rw [finished.live_iff]
    rw [finished.allocated, holds.clean.allocated, List.mem_range'_1] at member
    exact holds.clean.live (by omega) (by omega)
  have mapped := none inum member
  have inFile : bn < maxFile := lt_of_lt_of_le below mapped.1
  have found : Fs.Meets (Fs.bmap ip bn) s (fun _ s' => s' = s) fun _ => False := by
    apply Fs.bmap_mapped inFile
    · rw [isDin, isDisk]
      exact (mapped.2 bn inFile).mpr below
    · rw [isDin, isSize]
      intro nonzero
      exact ((finished.sound holds).indirect_range live nonzero).2
    · rfl
  obtain ⟨addr, s', ran, same⟩ := found.returns fun _ none => none
  exact ⟨addr, by rw [same] at ran; exact ran⟩

end Root

/-! ## The free map read as an inode -/

section Bitmap

variable {used i : Nat}

theorem bitmap_bit {j : Nat} (inByte : j < 8) :
    (bitmap used i).toBitVec.getLsbD j = decide (8 * i + j < used) := by
  have bit := getBit_bitmap used (8 * i + j)
  rw [Bitmap.getBit_eq] at bit
  have byte : (8 * i + j) / 8 = i := by omega
  have index : (8 * i + j) % 8 = j := by omega
  rwa [byte, index] at bit

theorem bitmap_full (inside : 8 * i + 8 ≤ used) : bitmap used i = 255 := by
  rw [← UInt8.toBitVec_inj]
  apply BitVec.eq_of_getLsbD_eq
  intro j inByte
  rw [bitmap_bit inByte, decide_eq_true (by omega)]
  have all : ∀ j < 8, (255 : UInt8).toBitVec.getLsbD j = true := by decide
  exact (all j inByte).symm

theorem bitmap_empty (outside : used ≤ 8 * i) : bitmap used i = 0 := by
  rw [← UInt8.toBitVec_inj]
  apply BitVec.eq_of_getLsbD_eq
  intro j inByte
  rw [bitmap_bit inByte, decide_eq_false (by omega)]
  simp

theorem bitmap_pos (inside : 8 * i < used) : 0 < (bitmap used i).toNat := by
  apply Nat.pos_of_ne_zero
  intro zero
  have isZero : bitmap used i = 0 := UInt8.toNat_inj.mp zero
  have bit : (bitmap used i).toBitVec.getLsbD 0 = decide (8 * i + 0 < used) :=
    bitmap_bit (by omega)
  rw [isZero, decide_eq_true (by omega)] at bit
  simp at bit

/-- The free map at the place of inode 208 is no inode whose blocks are mapped. -/
theorem bitmap_unmapped (disk : Disk) (inside : 64 < used) :
    ¬ Mapped disk (Dinode.load (bitmap used) 0)
      (blocksOf (Dinode.load (bitmap used) 0).size.toNat) := by
  intro mapped
  have size : (Dinode.load (bitmap used) 0).size.toNat = getLe (bitmap used) 8 4 := by
    have small := getLe_lt (bitmap used) 8 4
    exact Fs.toNat_ofNat (by simpa using small)
  rw [size] at mapped
  by_cases full : 96 < used
  · -- All bits of the size are set.
    have large : getLe (bitmap used) 8 4 = 2 ^ 32 - 1 := by
      simp only [getLe]
      rw [bitmap_full (by omega), bitmap_full (by omega), bitmap_full (by omega),
        bitmap_full (by omega)]
      rfl
    have limit := mapped.1
    rw [large] at limit
    exact absurd limit (by decide)
  · -- The size is positive, and the first address is zero.
    have positive : 0 < getLe (bitmap used) 8 4 := by
      have first : 0 < (bitmap used 8).toNat := bitmap_pos (by omega)
      simp only [getLe]
      omega
    have zero : (Dinode.load (bitmap used) 0).addr disk 0 = 0 := by
      have word : getLe (bitmap used) 12 4 = 0 := by
        simp only [getLe]
        rw [bitmap_empty (by omega), bitmap_empty (by omega), bitmap_empty (by omega),
          bitmap_empty (by omega)]
        rfl
      exact congrArg (fun value => (BitVec.ofNat 32 value).toNat) word
    have below : 0 < blocksOf (getLe (bitmap used) 8 4) := by
      simp only [blocksOf, bSize]
      omega
    exact (mapped.2 0 (by decide)).mpr below zero

end Bitmap

/-! ## The two conditions -/

/-- Every block of every inode is mapped, and the kernel's reads stay out of the
branch of `bmap` that allocates, exactly if the inodes stay in front of the free
map and the entries of the root directory do not fill its last block. -/
theorem no_unmapped_iff {args : List (Option HostFile)} {image : State}
    (ok : mkfs args = .ok image) :
    (NoUnmapped image ∧ ReadsOnly image) ↔
      args.length ≤ 206 ∧ (args.length + 2) % 32 ≠ 0 := by
  by_cases few : args.length ≤ 206
  · obtain ⟨files, st, isFiles, holds, finished⟩ := finished_of_few few ok
    have length : args.length = files.length := by rw [isFiles, List.length_map]
    rw [length, ← finished.noUnmapped_iff holds]
    constructor
    · intro both
      exact ⟨holds.few, both.1⟩
    · intro both
      exact ⟨both.2, finished.readsOnly holds both.2⟩
  · -- Inode 208 is where the free map is.
    constructor
    · intro both
      obtain ⟨allocated, bound, written⟩ := (main_counts args).of_run (mkfs_ok.mp ok)
      have member : 208 ∈ image.allocated := by
        rw [allocated, List.mem_range'_1]
        omega
      have mapped := both.1 208 member
      have isBitmap : dinodeAt sb image.disk 208 = Dinode.load (bitmap image.freeblock) 0 := by
        rw [← written]
        rfl
      have start : nmeta = 59 := by decide
      rw [isBitmap] at mapped
      exact absurd mapped (bitmap_unmapped _ (by omega))
    · intro both
      exact absurd both.1 few

def emptyHostFile : HostFile := ⟨[102], [], by decide, by simp⟩

theorem emptyHostFiles_fit (count : Nat) (few : count ≤ 206) :
    Fits (List.replicate count emptyHostFile) where
  sizes := by
    intro file member
    rw [List.eq_of_mem_replicate member]
    decide
  blocks := by
    have none : cost emptyHostFile.bytes.length = 0 := by decide
    have limit : cost (direntSize * (count + 2)) ≤ cost (direntSize * 208) :=
      cost_mono (Nat.mul_le_mul_left _ (by omega))
    have directory : cost (direntSize * 208) = 7 := by decide
    have room : nmeta + 7 ≤ fsSize := by decide
    have files : ((List.replicate count emptyHostFile).map
        fun file => cost file.bytes.length).sum = 0 := by
      rw [List.map_replicate, none]
      simp
    rw [total, files, List.length_replicate]
    omega

def smallHostFile : HostFile := ⟨[102], [[7, 8, 9]], by decide, by decide⟩

theorem smallHostFile_fits : Fits [smallHostFile] where
  sizes := by
    intro file member
    rw [List.mem_singleton.mp member]
    decide
  blocks := by decide +kernel

theorem no_unmapped_with_file : ∃ image,
    mkfs [some smallHostFile] = .ok image ∧ NoUnmapped image ∧ ReadsOnly image := by
  obtain ⟨image, ok⟩ := mkfs_returns (by decide) smallHostFile_fits
  exact ⟨image, ok, (no_unmapped_iff ok).mpr (by decide)⟩

/-- With thirty files the entries of the root directory fill one block, and its
size counts a second one. -/
theorem thirty_files_unmapped :
    ∃ image, mkfs (List.replicate 30 (some emptyHostFile)) = .ok image ∧
      rootIno ∈ image.allocated ∧ (dinodeAt sb image.disk rootIno).size.toNat = 1024 ∧
        (dinodeAt sb image.disk rootIno).addr image.disk 1 = 0 := by
  obtain ⟨image, ok⟩ := mkfs_returns (by rw [List.length_replicate]; decide)
    (emptyHostFiles_fit 30 (by decide))
  rw [List.map_replicate] at ok
  obtain ⟨files, st, isFiles, holds, finished⟩ := finished_of_few (by simp) ok
  have length : files.length = 30 := by
    have := congrArg List.length isFiles
    simpa using this.symm
  refine ⟨image, ok, ?_, ?_, ?_⟩
  · rw [allocated_eq ok, List.mem_range'_1]
    decide
  · rw [finished.rootSize holds, length]
    decide
  · have mapped := finished.rootMapped holds
    rw [length] at mapped
    by_contra nonzero
    exact absurd ((mapped.2 1 (by decide)).mp nonzero) (by decide)

/-- Everything is where it belongs: the inodes have numbers below `NINODES` and
are in the inode blocks as they were last written, each block of a file is a data
block that was handed out once, and no inode was written elsewhere. -/
structure InRegion (image : State) : Prop where
  inodes : ∀ inum ∈ image.allocated, inum < nInodes ∧ sb.inodestart ≤ sb.iblock inum ∧
    sb.iblock inum < sb.bmapstart ∧ dinodeAt sb image.disk inum = image.latest inum
  blocks : ∀ b ∈ image.handed, nmeta ≤ b ∧ b < fsSize
  once : image.handed.Nodup
  writes : ∀ b ∈ image.inodeSectors, sb.inodestart ≤ b ∧ b < sb.bmapstart

theorem Finished.inRegion {st image : State} {files : List HostFile} (holds : Holds st files)
    (finished : Finished st image) (few : files.length ≤ 198) : InRegion image where
  inodes := by
    intro inum member
    have freeinode := holds.freeinode
    rw [finished.allocated, holds.clean.allocated, List.mem_range'_1] at member
    have inTable : inum < sb.slots := by
      rw [sb_slots]
      omega
    refine ⟨by unfold nInodes; omega, Fs.inodestart_le_iblock, Fs.iblock_lt inTable, ?_⟩
    rw [finished.latest]
    by_cases isRoot : inum = rootIno
    · rw [isRoot, Function.update_self, finished.root]
    · rw [Function.update_of_ne isRoot, finished.other isRoot,
        holds.clean.latest inum (holds.clean.live (by omega) (by omega))]
  blocks := by
    intro b member
    have high := holds.clean.unused.high
    rw [finished.handed, holds.clean.handed, List.mem_range'_1] at member
    omega
  once := by
    rw [finished.handed, holds.clean.handed]
    exact List.nodup_range'
  writes := by
    intro b member
    rw [finished.inodeSectors, List.mem_append, List.mem_singleton] at member
    rcases member with earlier | isLast
    · exact holds.clean.sectors b earlier
    · rw [isLast]
      decide

/-- `mkfs` stays in its regions exactly if it is given at most 198 files. -/
theorem in_region_iff {args : List (Option HostFile)} {image : State}
    (ok : mkfs args = .ok image) : InRegion image ↔ args.length ≤ 198 := by
  constructor
  · intro inRegion
    by_contra many
    have member : 200 ∈ image.allocated := by
      rw [allocated_eq ok, List.mem_range'_1]
      omega
    exact absurd (inRegion.inodes 200 member).1 (by decide)
  · intro few
    obtain ⟨files, st, isFiles, holds, finished⟩ := finished_of_few (by omega) ok
    apply finished.inRegion holds
    rw [isFiles, List.length_map] at few
    exact few

theorem in_region_one_file :
    ∃ image, mkfs [some emptyHostFile] = .ok image ∧ InRegion image := by
  obtain ⟨image, ok⟩ := mkfs_returns (by decide) (emptyHostFiles_fit 1 (by decide))
  exact ⟨image, ok, (in_region_iff ok).mpr (by decide)⟩

/-- The last of 199 files gets inode number 200. -/
theorem inode_out_of_region :
    ∃ image, mkfs (List.replicate 199 (some emptyHostFile)) = .ok image ∧
      200 ∈ image.allocated ∧ ¬ 200 < nInodes := by
  obtain ⟨image, ok⟩ := mkfs_returns (by rw [List.length_replicate]; decide)
    (emptyHostFiles_fit 199 (by decide))
  rw [List.map_replicate] at ok
  refine ⟨image, ok, ?_, by decide⟩
  rw [allocated_eq ok, List.mem_range'_1, List.length_replicate]
  decide

end Rexv6.Mkfs
