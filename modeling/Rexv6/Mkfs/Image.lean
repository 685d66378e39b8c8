import Rexv6.Mkfs.Appending

/-!
Contract: the image that `mkfs` builds, as long as its inodes fit in the inode
blocks.

Owns: the invariant of a run of `mkfs`, what each file adds to the image, and
the blocks that a list of files takes.

Does not own: how the kernel reads the image.
-/

namespace Rexv6.Mkfs

open Rexv6.Foundation
open Rexv6.Foundation.Resumption
open Rexv6.Fs (Disk Dinode Dirent Sound Live Mapped Consistent Loaded Wrote firstSlot dinodeAt
  byteAt blocksOf indirects required content patch nDirect maxFile rootIno tDir tFile direntName
  direntSize dot dotdot)
open Function (update update_eq_self update_idem update_of_ne update_self)

def cost (length : Nat) : Nat := blocksOf length + if nDirect < blocksOf length then 1 else 0

/-- The type that an inode has once `freeinode` has been reached. -/
def kind (freeinode inum : Nat) : BitVec 16 :=
  if inum = 0 ∨ freeinode ≤ inum then 0 else if inum = rootIno then tDir else tFile

theorem kind_succ {freeinode inum : Nat} (different : inum ≠ freeinode) :
    kind (freeinode + 1) inum = kind freeinode inum := by
  unfold kind
  by_cases outside : inum = 0 ∨ freeinode ≤ inum
  · rw [if_pos outside, if_pos (by omega)]
  · rw [if_neg outside, if_neg (by omega)]

/-- The image is complete up to the inodes and blocks handed out, and inode `inum`
holds `files inum`. -/
structure Clean (st : State) (files : Nat → List UInt8) : Prop where
  unused : Unused st
  consistent : ∀ inum din, Consistent (st.kernel inum din)
  room : st.freeinode ≤ sb.slots
  types : ∀ inum < sb.slots, (dinodeAt sb st.mapped inum).type = kind st.freeinode inum
  contents : ∀ inum, Live sb (dinodeAt sb st.mapped) inum →
    ∀ other din, content (st.kernel other din) inum = files inum
  tidy : ∀ inum, Live sb (dinodeAt sb st.mapped) inum →
    indirects (dinodeAt sb st.mapped inum) =
      if nDirect < blocksOf (files inum).length then 1 else 0
  latest : ∀ inum, Live sb (dinodeAt sb st.mapped) inum →
    st.latest inum = dinodeAt sb st.mapped inum
  allocated : st.allocated = List.range' 1 (st.freeinode - 1)
  started : 1 ≤ st.freeinode
  sectors : ∀ b ∈ st.inodeSectors, sb.inodestart ≤ b ∧ b < sb.bmapstart
  handed : st.handed = List.range' nmeta (st.freeblock - nmeta)

section Steps

variable {st : State} {files : Nat → List UInt8}

namespace Clean

variable (clean : Clean st files)

include clean

theorem live {inum : Nat} (positive : inum ≠ 0) (handed : inum < st.freeinode) :
    Live sb (dinodeAt sb st.mapped) inum := by
  have inTable : inum < sb.slots := lt_of_lt_of_le handed clean.room
  refine ⟨inTable, ?_⟩
  rw [clean.types inum inTable, kind, if_neg (by omega)]
  split <;> decide

theorem live_iff {inum : Nat} :
    Live sb (dinodeAt sb st.mapped) inum ↔ inum ≠ 0 ∧ inum < st.freeinode := by
  constructor
  · intro live
    have typed := live.2
    rw [clean.types inum live.1, kind] at typed
    by_contra outside
    rw [if_pos (by omega)] at typed
    exact typed rfl
  · intro handed
    exact clean.live handed.1 handed.2

theorem size {inum : Nat} (live : Live sb (dinodeAt sb st.mapped) inum) :
    (dinodeAt sb st.mapped inum).size.toNat = (files inum).length := by
  rw [← clean.contents inum live 0 Dinode.zero, Fs.content_length]
  rfl

end Clean

def newInode (type : BitVec 16) : Dinode := { Dinode.zero with type := type, nlink := 1 }

def State.ialloced (st : State) (type : BitVec 16) : State :=
  { st with
    freeinode := st.freeinode + 1
    allocated := st.allocated ++ [st.freeinode] }.inoded st.freeinode (newInode type)

theorem ialloc_meets {type : BitVec 16} {post : Nat → State → Prop} {stops : Stop → Prop}
    (inFile : sector (sb.iblock st.freeinode) < st.length)
    (holds : post st.freeinode (st.ialloced type)) : Meets (ialloc type) st post stops := by
  apply meets_bind.mpr
  apply meets_get.mpr
  apply meets_bind.mpr
  apply meets_modify.mpr
  apply meets_bind.mpr
  exact winode_meets inFile holds

section Allocate

variable (clean : Clean st files) (room : st.freeinode < sb.slots) {type : BitVec 16}
  (isKind : type = if st.freeinode = rootIno then tDir else tFile)

include clean room

omit clean in
theorem ialloced_mapped :
    (st.ialloced type).mapped = Fs.putDinode sb st.mapped st.freeinode (newInode type) :=
  mapped_inoded room _

omit clean in
theorem ialloced_table (inum : Nat) :
    dinodeAt sb (st.ialloced type).mapped inum =
      if inum = st.freeinode then newInode type else dinodeAt sb st.mapped inum := by
  rw [ialloced_mapped room]
  by_cases same : inum = st.freeinode
  · rw [same, if_pos rfl, Fs.dinodeAt_putDinode]
  · rw [if_neg same, Fs.dinodeAt_putDinode_other _ _ _ same]

theorem ialloced_consistent (inum : Nat) (din : Dinode) :
    Consistent ((st.ialloced type).kernel inum din) := by
  have free : (dinodeAt sb st.mapped st.freeinode).type = 0 := by
    rw [clean.types _ room, kind, if_pos (by omega)]
  refine (clean.consistent inum din).put room ?_ ?_ rfl rfl (ialloced_mapped room)
  · apply Fs.own_update_none
    · intro place same
      apply Fs.own_none_of_type
      rw [same]
      exact free
    · exact Or.inr rfl
  · intro _
    have size : (newInode type).size.toNat = 0 := rfl
    rw [size]
    refine ⟨by decide, fun bn _ => ?_⟩
    have none : (newInode type).addr (st.kernel inum din).disk bn = 0 := Fs.zero_addr _ bn
    rw [none]
    simp [blocksOf, bSize]

include isKind

theorem ialloced_clean : Clean (st.ialloced type) (update files st.freeinode []) := by
  have started := clean.started
  have live : ∀ {inum}, inum ≠ st.freeinode →
      Live sb (dinodeAt sb (st.ialloced type).mapped) inum →
        Live sb (dinodeAt sb st.mapped) inum := by
    intro inum different live
    refine ⟨live.1, ?_⟩
    have typed := live.2
    rwa [ialloced_table room, if_neg different] at typed
  constructor
  · have unused : Unused { st with
        freeinode := st.freeinode + 1
        allocated := st.allocated ++ [st.freeinode] } :=
      ⟨clean.unused.length, clean.unused.low, clean.unused.high, clean.unused.zero⟩
    exact unused.inoded room _
  · exact ialloced_consistent clean room
  · exact room
  · intro inum inTable
    rw [ialloced_table room]
    have next : (st.ialloced type).freeinode = st.freeinode + 1 := rfl
    rw [next]
    by_cases same : inum = st.freeinode
    · rw [if_pos same, same, kind, if_neg (by omega)]
      exact isKind
    · rw [if_neg same, clean.types inum inTable, kind_succ same]
  · intro inum isLive other din
    by_cases same : inum = st.freeinode
    · rw [same, update_self]
      apply List.eq_nil_of_length_eq_zero
      rw [Fs.content_length, kernel_sb, kernel_disk, ialloced_table room, if_pos rfl]
      rfl
    · rw [update_of_ne same, ← clean.contents inum (live same isLive) other din]
      exact Fs.content_put (clean.consistent other din) room same (live same isLive) rfl
        (ialloced_mapped room)
  · intro inum isLive
    rw [ialloced_table room]
    by_cases same : inum = st.freeinode
    · rw [same, if_pos rfl, update_self]
      rfl
    · rw [if_neg same, update_of_ne same]
      exact clean.tidy inum (live same isLive)
  · intro inum isLive
    rw [ialloced_table room]
    by_cases same : inum = st.freeinode
    · rw [same, if_pos rfl]
      exact update_self _ _ _
    · rw [if_neg same]
      exact (update_of_ne same _ _).trans (clean.latest inum (live same isLive))
  · have next : st.freeinode + 1 - 1 = st.freeinode - 1 + 1 := by omega
    have split : List.range' 1 (st.freeinode - 1 + 1) =
        List.range' 1 (st.freeinode - 1) ++ [st.freeinode] := by
      rw [List.range'_1_concat]
      congr 2
      omega
    have appended : (st.ialloced type).allocated = st.allocated ++ [st.freeinode] := rfl
    have count : (st.ialloced type).freeinode - 1 = st.freeinode - 1 + 1 := next
    rw [appended, count, split, clean.allocated]
  · exact Nat.le_succ_of_le started
  · intro b member
    rcases List.mem_append.mp member with old | new
    · exact clean.sectors b old
    · rw [List.mem_singleton.mp new]
      exact ⟨Fs.inodestart_le_iblock, Fs.iblock_lt room⟩
  · exact clean.handed

end Allocate

/-- Consistency does not depend on what the kernel has in its cache. -/
theorem kernel_consistent {inum other : Nat} {din din' : Dinode}
    (consistent : Consistent (st.kernel inum din)) : Consistent (st.kernel other din') :=
  ⟨consistent.disksize, consistent.loaded, consistent.sound, consistent.mapped⟩

/-- A file with more than `nDirect` blocks has an indirect block. -/
theorem indirects_of_mapped {disk : Disk} {d : Dinode} {count : Nat} (mapped : Mapped disk d count)
    (many : nDirect < count) : indirects d = 1 := by
  have below : nDirect < maxFile := by decide
  have nonzero := (mapped.2 nDirect below).mpr many
  unfold indirects
  rw [if_neg]
  intro none
  apply nonzero
  simp [Dinode.addr, none]

theorem blocksOf_mono {few many : Nat} (fewer : few ≤ many) : blocksOf few ≤ blocksOf many :=
  Nat.div_le_div_right (by omega)

section Append

variable {st' : State} {inum : Nat} {p : List UInt8} (clean : Clean st files)
  (live : Live sb (dinodeAt sb st.mapped) inum) (appended : Appended inum p st st')

include clean live appended

omit clean live in
theorem appended_table {other : Nat} (inTable : other < sb.slots) (different : other ≠ inum) :
    dinodeAt sb st'.mapped other = dinodeAt sb st.mapped other :=
  appended.wrote.table other inTable (by simpa using different)

omit clean live in
theorem appended_type : (dinodeAt sb st'.mapped inum).type = (dinodeAt sb st.mapped inum).type := by
  have self := congrArg Dinode.type appended.wrote.self
  simpa only [kernel_inode, kernel_sb, kernel_disk] using self

omit clean in
theorem appended_live : Live sb (dinodeAt sb st'.mapped) inum := by
  refine ⟨live.1, ?_⟩
  rw [appended_type appended]
  exact live.2

theorem appended_size :
    (dinodeAt sb st'.mapped inum).size.toNat = (files inum).length + p.length := by
  have size := clean.size live
  have self := congrArg Dinode.size appended.wrote.self
  simp only [kernel_inode, kernel_sb, kernel_disk] at self
  rw [self, Fs.toNat_ofNat appended.wrote.small, size]

theorem appended_mapped : Mapped st'.mapped (dinodeAt sb st'.mapped inum)
    (blocksOf ((files inum).length + p.length)) := by
  have mapped := appended.wrote.consistent.mapped inum (appended_live live appended)
  simp only [kernel_sb, kernel_disk] at mapped
  rwa [appended_size clean live appended] at mapped

theorem appended_content (other : Nat) (din : Dinode) :
    content (st'.kernel other din) inum = files inum ++ p := by
  have size := clean.size live
  have loaded : Loaded (st.kernel inum (dinodeAt sb st.mapped inum)) firstSlot := by
    constructor
    · simpa using live
    · simp
  have before : content (st.kernel inum (dinodeAt sb st.mapped inum)) inum = files inum :=
    clean.contents inum live _ _
  have fits := (appended_mapped clean live appended).size_le
  have isSize : (dinodeAt sb st.mapped inum).size.toNat + p.length =
      max ((st.kernel inum (dinodeAt sb st.mapped inum)).inode firstSlot).din.size.toNat
        ((dinodeAt sb st.mapped inum).size.toNat + p.length) := by
    exact (max_eq_right (Nat.le_add_right _ _)).symm
  have written := appended.wrote.content_patch loaded isSize
    (by simp only [kernel_inode, kernel_disk]) (by rw [kernel_inode]) (by rw [size]; exact fits)
  simp only [kernel_inode] at written
  have same : content (st'.kernel other din) inum =
      content (st'.kernel inum (dinodeAt sb st'.mapped inum)) inum := rfl
  rw [same, written, before, size, overwrite_end]

/-- The inode takes an indirect block exactly if it needs one. -/
theorem appended_tidy : indirects (dinodeAt sb st'.mapped inum) =
    if nDirect < blocksOf ((files inum).length + p.length) then 1 else 0 := by
  by_cases many : nDirect < blocksOf ((files inum).length + p.length)
  · rw [if_pos many]
    exact indirects_of_mapped (appended_mapped clean live appended) many
  · have fewer : blocksOf (files inum).length ≤ blocksOf ((files inum).length + p.length) :=
      blocksOf_mono (Nat.le_add_right _ _)
    have same := appended.indirect (by rw [clean.size live]; omega)
    have before := clean.tidy inum live
    rw [if_neg (by omega)] at before
    rw [if_neg many, ← before, indirects, same]
    rfl

theorem appended_freeblock :
    st'.freeblock + cost (files inum).length =
      st.freeblock + cost ((files inum).length + p.length) := by
  have conserved := appended.conserved
  have tidy := clean.tidy inum live
  have grows := appended.grows
  have high := appended.unused.high
  rw [appended_tidy clean live appended, tidy, clean.size live] at conserved
  unfold cost
  omega

theorem appended_clean : Clean st' (update files inum (files inum ++ p)) := by
  have kept : ∀ {other}, other ≠ inum → Live sb (dinodeAt sb st'.mapped) other →
      Live sb (dinodeAt sb st.mapped) other := by
    intro other different isLive
    refine ⟨isLive.1, ?_⟩
    rw [← appended_table appended isLive.1 different]
    exact isLive.2
  constructor
  · exact appended.unused
  · intro other din
    exact kernel_consistent appended.wrote.consistent
  · rw [appended.freeinode]
    exact clean.room
  · intro other inTable
    rw [appended.freeinode, ← clean.types other inTable]
    by_cases same : other = inum
    · rw [same, appended_type appended]
    · rw [appended_table appended inTable same]
  · intro other isLive k din
    by_cases same : other = inum
    · rw [same, update_self]
      exact appended_content clean live appended k din
    · rw [update_of_ne same, ← clean.contents other (kept same isLive) k din]
      exact appended.wrote.content_other (by simpa using same) (clean.consistent _ _)
        (kept same isLive)
  · intro other isLive
    by_cases same : other = inum
    · rw [same, update_self, List.length_append]
      exact appended_tidy clean live appended
    · rw [update_of_ne same, appended_table appended isLive.1 same]
      exact clean.tidy other (kept same isLive)
  · intro other isLive
    rw [appended.latest]
    by_cases same : other = inum
    · rw [same, update_self]
    · rw [update_of_ne same, appended_table appended isLive.1 same]
      exact clean.latest other (kept same isLive)
  · rw [appended.allocated, appended.freeinode]
    exact clean.allocated
  · rw [appended.freeinode]
    exact clean.started
  · intro b member
    rw [appended.inodeSectors] at member
    rcases List.mem_append.mp member with old | new
    · exact clean.sectors b old
    · rw [List.mem_singleton.mp new]
      exact ⟨Fs.inodestart_le_iblock, Fs.iblock_lt live.1⟩
  · have low := clean.unused.low
    have grows := appended.grows
    have start : st.freeblock = nmeta + (st.freeblock - nmeta) := by omega
    rw [appended.handed, clean.handed]
    nth_rewrite 2 [start]
    rw [List.range'_append_1]
    congr 1
    omega

end Append

theorem iappend_clean {inum : Nat} {p : List UInt8} (clean : Clean st files)
    (live : Live sb (dinodeAt sb st.mapped) inum) :
    Meets (iappend inum p) st
      (fun _ st' => Clean st' (update files inum (files inum ++ p)) ∧
        st'.freeinode = st.freeinode ∧
          st'.freeblock + cost (files inum).length =
            st.freeblock + cost ((files inum).length + p.length))
      (fun stop =>
        (stop = .assertion "fbn < MAXFILE" ∧ maxFile * bSize < (files inum).length + p.length) ∨
        (stop = .exit "read" ∧
          fsSize + cost (files inum).length <
            st.freeblock + cost ((files inum).length + p.length))) := by
  have size := clean.size live
  apply (iappend_meets clean.unused clean.consistent live).imp
  · intro _ st' appended
    exact ⟨appended_clean clean live appended, appended.freeinode,
      appended_freeblock clean live appended⟩
  · rintro stop (⟨isAssertion, tooLong⟩ | ⟨isExit, short⟩)
    · exact Or.inl ⟨isAssertion, size ▸ tooLong⟩
    · refine Or.inr ⟨isExit, ?_⟩
      have tidy := clean.tidy inum live
      rw [Short, size, required, tidy] at short
      unfold cost
      split at short <;> split <;> split at short <;> split <;> omega

theorem Clean.congr {files' : Nat → List UInt8} (clean : Clean st files)
    (same : ∀ inum, inum ≠ 0 → inum < st.freeinode → files' inum = files inum) :
    Clean st files' :=
  { clean with
    contents := fun inum live other din => by
      have handed := clean.live_iff.mp live
      rw [same inum handed.1 handed.2]
      exact clean.contents inum live other din
    tidy := fun inum live => by
      have handed := clean.live_iff.mp live
      rw [same inum handed.1 handed.2]
      exact clean.tidy inum live }

theorem cost_mono {few many : Nat} (fewer : few ≤ many) : cost few ≤ cost many := by
  have blocks := blocksOf_mono fewer
  unfold cost
  split <;> split <;> omega

/-- The loop of `add_file` appends the chunks that the host returns. -/
theorem readLoop_clean {inum : Nat} : ∀ (chunks : List (List UInt8)) {st : State}
    {files : Nat → List UInt8}, Clean st files → inum ≠ 0 → inum < st.freeinode →
    Meets (readLoop inum chunks) st
      (fun _ st' => Clean st' (update files inum (files inum ++ chunks.flatten)) ∧
        st'.freeinode = st.freeinode ∧
          st'.freeblock + cost (files inum).length =
            st.freeblock + cost ((files inum).length + chunks.flatten.length))
      (fun _ => maxFile * bSize < (files inum).length + chunks.flatten.length ∨
        fsSize + cost (files inum).length <
          st.freeblock + cost ((files inum).length + chunks.flatten.length)) := by
  intro chunks
  induction chunks with
  | nil =>
    intro st files clean _ _
    refine ⟨clean.congr fun other _ _ => ?_, rfl, by simp⟩
    simp
  | cons chunk rest ih =>
    intro st files clean positive handed
    have length : (chunk :: rest).flatten.length = chunk.length + rest.flatten.length := by simp
    rw [readLoop, length]
    have more : cost ((files inum).length + chunk.length) ≤
        cost ((files inum).length + (chunk.length + rest.flatten.length)) :=
      cost_mono (by omega)
    apply Resumption.Meets.bind
    · apply (iappend_clean clean (clean.live positive handed)).imp
      · intro _ st' result
        exact result
      · rintro stop (⟨_, tooLong⟩ | ⟨_, full⟩)
        · exact Or.inl (by omega)
        · exact Or.inr (by omega)
    · intro _ st' result
      have next := ih result.1 positive (result.2.1 ▸ handed)
      simp only [update_self, update_idem, List.length_append] at next
      apply next.imp
      · intro _ st'' final
        refine ⟨?_, final.2.1.trans result.2.1, ?_⟩
        · simpa [List.append_assoc] using final.1
        · have second := final.2.2
          rw [Nat.add_assoc] at second
          omega
      · rintro stop (tooLong | full)
        · exact Or.inl (by omega)
        · refine Or.inr ?_
          rw [Nat.add_assoc] at full
          omega

end Steps

/-! ## The files of the image -/

def entries (files : List HostFile) : List Dirent :=
  [{ inum := rootIno, name := direntName dot }, { inum := rootIno, name := direntName dotdot }] ++
    files.mapIdx fun index file => { inum := index + 2, name := direntName file.dispname }

def rootBytes (files : List HostFile) : List UInt8 := (entries files).flatMap Dirent.encode

def fileBytes (files : List HostFile) (inum : Nat) : List UInt8 :=
  if inum = rootIno then rootBytes files
  else (files[inum - 2]?.map HostFile.bytes).getD []

/-- The blocks that the files and the root directory take. -/
def total (files : List HostFile) : Nat :=
  cost (direntSize * (files.length + 2)) + (files.map fun file => cost file.bytes.length).sum

structure Fits (files : List HostFile) : Prop where
  sizes : ∀ file ∈ files, file.bytes.length ≤ maxFile * bSize
  blocks : nmeta + total files ≤ fsSize

theorem entry_length (inum : Nat) (name : List UInt8) :
    ({ inum := inum, name := direntName name } : Dirent).encode.length = direntSize :=
  Dirent.encode_length _ (Fs.direntName_length name)

theorem flatMap_encode_length (list : List Dirent)
    (full : ∀ de ∈ list, de.name.length = Fs.dirSiz) :
    (list.flatMap Dirent.encode).length = direntSize * list.length := by
  induction list with
  | nil => rfl
  | cons de rest ih =>
    rw [List.flatMap_cons, List.length_append, List.length_cons,
      Dirent.encode_length de (full de List.mem_cons_self),
      ih fun other member => full other (List.mem_cons_of_mem _ member),
      Nat.mul_succ, Nat.add_comm]

theorem entries_full (files : List HostFile) :
    ∀ de ∈ entries files, de.name.length = Fs.dirSiz := by
  intro de member
  have named : ∃ name, de.name = direntName name := by
    rcases List.mem_append.mp member with fixed | added
    · rcases List.mem_cons.mp fixed with isDot | rest
      · exact ⟨dot, by rw [isDot]⟩
      · exact ⟨dotdot, by rw [List.mem_singleton.mp rest]⟩
    · obtain ⟨index, _, same⟩ := List.mem_mapIdx.mp added
      exact ⟨_, by rw [← same]⟩
  obtain ⟨name, isName⟩ := named
  rw [isName, Fs.direntName_length]

theorem rootBytes_length (files : List HostFile) :
    (rootBytes files).length = direntSize * (files.length + 2) := by
  rw [rootBytes, flatMap_encode_length _ (entries_full files), entries, List.length_append,
    List.length_mapIdx, Nat.add_comm]
  rfl

theorem entries_append (files : List HostFile) (file : HostFile) :
    entries (files ++ [file]) = entries files ++
      [{ inum := files.length + 2, name := direntName file.dispname }] := by
  rw [entries, List.mapIdx_concat, ← List.append_assoc]
  rfl

theorem rootBytes_append (files : List HostFile) (file : HostFile) :
    rootBytes (files ++ [file]) = rootBytes files ++
      ({ inum := files.length + 2, name := direntName file.dispname } : Dirent).encode := by
  rw [rootBytes, entries_append, List.flatMap_append]
  simp [rootBytes]

theorem fileBytes_append (files : List HostFile) (file : HostFile) {inum : Nat}
    (positive : inum ≠ 0) :
    fileBytes (files ++ [file]) inum =
      if inum = files.length + 2 then file.bytes
      else if inum = rootIno then rootBytes files ++
        ({ inum := files.length + 2, name := direntName file.dispname } : Dirent).encode
      else fileBytes files inum := by
  unfold fileBytes
  by_cases isNew : inum = files.length + 2
  · rw [if_pos isNew, if_neg (by unfold rootIno; omega), isNew]
    simp
  · rw [if_neg isNew]
    by_cases isRoot : inum = rootIno
    · rw [if_pos isRoot, if_pos isRoot, rootBytes_append]
    · rw [if_neg isRoot, if_neg isRoot, if_neg isRoot]
      by_cases old : inum - 2 < files.length
      · rw [List.getElem?_append_left old]
      · unfold rootIno at isRoot
        rw [List.getElem?_eq_none (by rw [List.length_append, List.length_singleton]; omega),
          List.getElem?_eq_none (by omega)]

theorem total_append (files : List HostFile) (file : HostFile) :
    total (files ++ [file]) + cost (direntSize * (files.length + 2)) =
      total files + cost (direntSize * (files.length + 3)) + cost file.bytes.length := by
  simp only [total, List.length_append, List.length_singleton, List.map_append, List.map_cons,
    List.map_nil, List.sum_append, List.sum_cons, List.sum_nil, Nat.add_assoc, Nat.reduceAdd]
  omega

theorem Fits.of_append {files more : List HostFile} (fits : Fits (files ++ more)) : Fits files where
  sizes file member := fits.sizes file (List.mem_append_left _ member)
  blocks := by
    have blocks := fits.blocks
    have directory : cost (direntSize * (files.length + 2)) ≤
        cost (direntSize * ((files ++ more).length + 2)) := by
      apply cost_mono
      apply Nat.mul_le_mul_left
      rw [List.length_append]
      omega
    simp only [total, List.map_append, List.sum_append] at blocks directory ⊢
    omega

/-! ## A run of `mkfs` -/

structure Holds (st : State) (files : List HostFile) : Prop where
  clean : Clean st (fileBytes files)
  freeinode : st.freeinode = files.length + 2
  freeblock : st.freeblock = nmeta + total files

theorem addFile_holds {st : State} {files : List HostFile} (holds : Holds st files)
    (room : files.length < 206) (file : HostFile) :
    Meets (addFile (some file) rootIno) st
      (fun added st' => added = true ∧ Holds st' (files ++ [file]))
      (fun _ => ¬ Fits (files ++ [file])) := by
  have clean := holds.clean
  have isFree := holds.freeinode
  have slots := sb_slots
  have notRoot : st.freeinode ≠ rootIno := by
    unfold rootIno
    omega
  have isTotal := total_append files file
  have inTable : st.freeinode < sb.slots := by omega
  have range := iblock_range inTable
  have last : sb.bmapstart < fsSize := by decide
  have clean1 : Clean (st.ialloced tFile) (update (fileBytes files) st.freeinode []) :=
    ialloced_clean clean inTable (by rw [if_neg notRoot])
  have free1 : (st.ialloced tFile).freeinode = st.freeinode + 1 := rfl
  have block1 : (st.ialloced tFile).freeblock = st.freeblock := rfl
  have root : update (fileBytes files) st.freeinode [] rootIno = rootBytes files := by
    rw [update_of_ne (Ne.symm notRoot)]
    rfl
  have rootLength := rootBytes_length files
  have directory : direntSize * (files.length + 2) + direntSize =
      direntSize * (files.length + 3) := by
    unfold direntSize
    omega
  unfold addFile
  dsimp only
  apply meets_bind.mpr
  apply ialloc_meets (by rw [range.2.2, clean.unused.length]; omega)
  have short : st.freeinode % 2 ^ 16 = st.freeinode := Nat.mod_eq_of_lt (by omega)
  rw [short]
  apply Resumption.Meets.bind
  · apply (iappend_clean clean1 (clean1.live (by decide)
      (by rw [free1]; unfold rootIno; omega))).imp
    · intro _ st' result
      exact result
    · rw [root, entry_length, rootLength, directory, block1, holds.freeblock]
      rintro stop (⟨_, tooLong⟩ | ⟨_, full⟩) fits
      · simp only [direntSize, maxFile, nDirect, Fs.nIndirect, bSize] at tooLong
        omega
      · have blocks := fits.blocks
        omega
  · intro _ st2 result
    obtain ⟨clean2, free2, block2⟩ := result
    rw [root] at clean2 block2
    rw [entry_length, rootLength, directory, block1, holds.freeblock] at block2
    rw [free1] at free2
    have empty : update (update (fileBytes files) st.freeinode []) rootIno
        (rootBytes files ++ ({ inum := st.freeinode, name := direntName file.dispname } :
          Dirent).encode) st.freeinode = [] := by
      rw [update_of_ne notRoot, update_self]
    have none : cost 0 = 0 := by decide
    have isBytes : file.chunks.flatten = file.bytes := rfl
    apply Resumption.Meets.bind
    · apply (readLoop_clean file.chunks clean2 (by omega) (by omega)).imp
      · intro _ st' result
        exact result
      · rw [empty, isBytes, List.length_nil, Nat.zero_add, none]
        rintro stop (tooLong | full) fits
        · have small := fits.sizes file (by simp)
          omega
        · have blocks := fits.blocks
          omega
    · intro _ st3 result
      obtain ⟨clean3, free3, block3⟩ := result
      rw [empty, List.nil_append, isBytes] at clean3
      rw [empty, isBytes, List.length_nil, Nat.zero_add, none] at block3
      apply meets_pure.mpr
      refine ⟨rfl, ?_, ?_, ?_⟩
      · apply clean3.congr
        intro inum positive handed
        rw [free3, free2, isFree] at handed
        rw [fileBytes_append files file positive, isFree]
        by_cases isNew : inum = files.length + 2
        · rw [if_pos isNew, isNew, update_self]
        · rw [if_neg isNew, update_of_ne isNew]
          by_cases isRoot : inum = rootIno
          · rw [if_pos isRoot, isRoot, update_self]
          · rw [if_neg isRoot, update_of_ne isRoot, update_of_ne isNew]
      · rw [List.length_append, List.length_singleton]
        omega
      · omega

def State.blank : State :=
  { State.start with
    disk := update (fun _ _ => 0) 1 (sb.store fun _ => 0)
    length := fsSize
    freeblock := nmeta }

theorem zeroLoop_meets {stops : Stop → Prop} : ∀ count ≤ fsSize, ∀ {st : State},
    (st.disk = fun _ _ => 0) →
    Meets (zeroLoop count) st (fun _ st' => st' = { st with length := max st.length count })
      stops := by
  intro count
  induction count with
  | zero =>
    intro _ st _
    rw [zeroLoop_zero]
    apply meets_pure.mpr
    rw [Nat.max_zero]
  | succ count ih =>
    intro within st zero
    rw [zeroLoop_succ]
    apply Resumption.Meets.bind (ih (by omega) zero)
    intro _ st' isState
    apply meets_wsect.mpr
    rw [isState, sector_of_lt (by omega)]
    have still : update st.disk count (fun _ => 0) = st.disk := by
      rw [zero]
      exact update_eq_self _ _
    have length : max (max st.length count) (count + 1) = max st.length (count + 1) := by omega
    rw [still, length]

theorem initializeSuperblock_meets {stops : Stop → Prop} :
    Meets initializeSuperblock State.start (fun _ st => st = State.blank) stops := by
  apply meets_bind.mpr
  apply meets_modify.mpr
  apply Resumption.Meets.bind (zeroLoop_meets fsSize (le_refl _) rfl)
  intro _ st isState
  apply meets_wsect.mpr
  rw [isState, sector_of_lt (by decide)]
  rfl

theorem blank_disk {b : Nat} (notSuper : b ≠ 1) : State.blank.disk b = fun _ => 0 := by
  simp [State.blank, notSuper]

theorem blank_table {inum : Nat} (inTable : inum < sb.slots) :
    dinodeAt sb State.blank.mapped inum = Dinode.zero := by
  have range := iblock_range inTable
  have block : State.blank.mapped (sb.iblock inum) = fun _ => 0 := by
    rw [mapped_other (by omega), blank_disk (by omega)]
  rw [dinodeAt, block]
  rfl

theorem blank_clean : Clean State.blank fun _ => [] := by
  have dead : ∀ inum, ¬ Live sb (dinodeAt sb State.blank.mapped) inum := by
    intro inum live
    have typed := live.2
    rw [blank_table live.1] at typed
    exact typed rfl
  have nothing : ∀ place, Fs.own sb State.blank.mapped (dinodeAt sb State.blank.mapped) place =
      none := by
    intro place
    cases place <;> simp [Fs.own, dead]
  constructor
  · refine ⟨rfl, le_refl _, by decide, ?_⟩
    intro b above _
    have first : 1 < nmeta := by decide
    have behind : nmeta ≤ b := above
    exact blank_disk (by omega)
  · intro inum din
    refine ⟨le_refl _, ?_, ⟨sb_valid, ⟨?_, ?_⟩, ?_⟩, ?_⟩
    · have fits : sb.Fits := ⟨by decide, by decide, by decide, by decide, by decide, by decide,
        by decide⟩
      exact Fs.Superblock.load_store sb _ fits
    · intro left right resource holds
      rw [kernel_sb, kernel_disk, nothing] at holds
      cases holds
    · intro b
      refine iff_of_false ?_ ?_
      · rintro ⟨data, inRange, used⟩
        rw [kernel_sb, kernel_disk, mapped_bit inRange] at used
        have below : b < nmeta := of_decide_eq_true used
        rw [kernel_sb, sb_dataStart] at data
        omega
      · rintro ⟨place, holds⟩
        rw [kernel_sb, kernel_disk, nothing] at holds
        cases holds
    · intro b inFront
      rw [kernel_sb, sb_dataStart] at inFront
      have small : nmeta < fsSize := by decide
      rw [kernel_sb, kernel_disk, mapped_bit (by omega)]
      exact decide_eq_true inFront
    · intro other live
      exact absurd live (dead other)
  · decide
  · intro inum inTable
    rw [blank_table inTable, kind]
    have start : State.blank.freeinode = 1 := rfl
    rw [if_pos (by omega)]
    rfl
  · intro inum live
    exact absurd live (dead inum)
  · intro inum live
    exact absurd live (dead inum)
  · intro inum live
    exact absurd live (dead inum)
  · rfl
  · decide
  · intro b member
    cases member
  · rfl

/-- Nothing of the empty image but its counters matters here, so the state stays a variable and
no step evaluates the program. -/
theorem initializeRootino_holds {st : State} {stops : Stop → Prop}
    (clean : Clean st fun _ => []) (first : st.freeinode = rootIno)
    (start : st.freeblock = nmeta) :
    Meets initializeRootino st (fun rootino st => rootino = rootIno ∧ Holds st []) stops := by
  have inTable : st.freeinode < sb.slots := by
    rw [first]
    decide
  have range := iblock_range inTable
  have last : sb.bmapstart < fsSize := by decide
  have clean1 : Clean (st.ialloced tDir) (update (fun _ => []) st.freeinode []) :=
    ialloced_clean clean inTable (if_pos first).symm
  rw [first] at clean1
  have free1 : (st.ialloced tDir).freeinode = rootIno + 1 := by
    rw [← first]
    rfl
  have block1 : (st.ialloced tDir).freeblock = nmeta := start
  have noRoom : ¬ maxFile * bSize < 2 * direntSize := by decide
  have oneBlock : cost 0 = 0 ∧ cost direntSize = 1 ∧ cost (direntSize + direntSize) = 1 := by decide
  have space : nmeta + 1 < fsSize := by decide
  apply meets_bind.mpr
  apply ialloc_meets (by rw [range.2.2, clean.unused.length]; omega)
  have isRoot : st.freeinode % 2 ^ 16 = rootIno := by
    rw [first]
    decide
  rw [if_pos isRoot, isRoot]
  apply Resumption.Meets.bind
  · apply (iappend_clean clean1 (clean1.live (by decide) (by rw [free1]; decide))).imp
    · intro _ st' result
      exact result
    · rw [update_self, entry_length, List.length_nil, Nat.zero_add]
      rintro stop (⟨_, tooLong⟩ | ⟨_, full⟩)
      · omega
      · omega
  · intro _ st2 result
    obtain ⟨clean2, free2, block2⟩ := result
    rw [update_self, List.nil_append] at clean2
    rw [update_self, entry_length, List.length_nil, Nat.zero_add] at block2
    apply Resumption.Meets.bind
    · apply (iappend_clean clean2 (clean2.live (by decide) (by rw [free2, free1]; decide))).imp
      · intro _ st' result
        exact result
      · rw [update_self, entry_length, entry_length]
        rintro stop (⟨_, tooLong⟩ | ⟨_, full⟩)
        · omega
        · omega
    · intro _ st3 result
      obtain ⟨clean3, free3, block3⟩ := result
      rw [update_self, entry_length, entry_length] at block3
      apply meets_pure.mpr
      refine ⟨rfl, ?_, ?_, ?_⟩
      · apply clean3.congr
        intro inum positive handed
        have isOne : inum = rootIno := by
          have two : st3.freeinode = 2 := by
            rw [free3, free2, free1]
            rfl
          omega
        rw [isOne, update_self]
        rfl
      · rw [free3, free2, free1]
        rfl
      · have isTotal : total [] = 1 := by decide
        omega

/-- The loop of `main` over files that all fit in the inode blocks. -/
theorem addFiles_holds : ∀ (args : List (Option HostFile)) {files : List HostFile} {st : State},
    Holds st files → files.length + args.length ≤ 206 →
    Meets (addFiles rootIno args) st
      (fun _ st' => ∃ more, args = more.map some ∧ Holds st' (files ++ more))
      (fun _ => ¬ ∃ more, args = more.map some ∧ Fits (files ++ more)) := by
  intro args
  induction args with
  | nil =>
    intro files st holds _
    exact ⟨[], rfl, by simpa using holds⟩
  | cons arg rest ih =>
    intro files st holds room
    rw [List.length_cons] at room
    cases arg with
    | none =>
      apply meets_bind.mpr
      rintro ⟨more, same, _⟩
      cases more with
      | nil => cases same
      | cons head tail => cases same
    | some file =>
      apply Resumption.Meets.bind
      · apply (addFile_holds holds (by omega) file).imp
        · intro added st' result
          exact result
        · rintro stop full ⟨more, same, fits⟩
          cases more with
          | nil => cases same
          | cons head tail =>
            obtain ⟨isFile, _⟩ := List.cons.inj same
            rw [← Option.some.inj isFile] at fits
            apply full
            rw [List.append_cons] at fits
            exact fits.of_append
      · intro added st' result
        obtain ⟨wasAdded, next⟩ := result
        rw [wasAdded, if_pos rfl]
        have length : (files ++ [file]).length = files.length + 1 := by simp
        apply (ih next (by omega)).imp
        · rintro _ st'' ⟨more, same, final⟩
          exact ⟨file :: more, by rw [same]; rfl, by simpa using final⟩
        · rintro stop full ⟨more, same, fits⟩
          cases more with
          | nil => cases same
          | cons head tail =>
            obtain ⟨isFile, isRest⟩ := List.cons.inj same
            rw [← Option.some.inj isFile] at fits
            exact full ⟨tail, isRest, by simpa using fits⟩

/-! ## The finished image -/

/-- The size that `main` gives the root directory in the end. -/
def roundUp (size : Nat) : Nat := (size / bSize + 1) * bSize

def rootInode (st : State) : Dinode :=
  { dinodeAt sb st.mapped rootIno with
    size := BitVec.ofNat 32 (roundUp (dinodeAt sb st.mapped rootIno).size.toNat) }

structure Finished (st image : State) : Prop where
  disk : image.disk = Fs.putDinode sb st.mapped rootIno (rootInode st)
  freeblock : image.freeblock = st.freeblock
  allocated : image.allocated = st.allocated
  handed : image.handed = st.handed
  inodeSectors : image.inodeSectors = st.inodeSectors ++ [sb.iblock rootIno]
  latest : image.latest = update st.latest rootIno (rootInode st)

theorem roundUp_int {size : BitVec 32} (small : size.toNat < 2 ^ 31 - bSize) :
    BitVec.ofInt 32 ((size.toInt.tdiv bSize + 1) * bSize) =
      BitVec.ofNat 32 (roundUp size.toNat) := by
  have isNat : size.toInt = (size.toNat : Int) := by
    rw [BitVec.toInt_eq_toNat_cond, if_pos]
    omega
  rw [isNat, ← Int.ofNat_tdiv]
  have cast : ((((size.toNat / bSize : Nat) : Int) + 1) * (bSize : Int)) =
      ((roundUp size.toNat : Nat) : Int) := by
    simp [roundUp]
  rw [cast, BitVec.ofInt_natCast]

theorem root_size {st : State} {files : List HostFile} (holds : Holds st files) :
    (dinodeAt sb st.mapped rootIno).size.toNat = direntSize * (files.length + 2) := by
  have freeinode := holds.freeinode
  rw [holds.clean.size (holds.clean.live (by decide) (by unfold rootIno; omega)), fileBytes,
    if_pos rfl, rootBytes_length]

/-- `main` on files that all fit in the inode blocks. -/
theorem main_finished {args : List (Option HostFile)} (few : args.length ≤ 206) :
    Meets (main args) State.start
      (fun _ image => ∃ files st, args = files.map some ∧ Holds st files ∧ Finished st image)
      (fun _ => ¬ ∃ files, args = files.map some ∧ Fits files) := by
  apply Resumption.Meets.bind initializeSuperblock_meets
  intro _ blank isBlank
  have clean : Clean blank fun _ => [] := by
    rw [isBlank]
    exact blank_clean
  apply Resumption.Meets.bind
    (initializeRootino_holds clean (by rw [isBlank]; rfl) (by rw [isBlank]; rfl))
  intro rootino st1 result
  obtain ⟨isRoot, holds1⟩ := result
  rw [isRoot]
  apply Resumption.Meets.bind
  · apply (addFiles_holds args holds1 (by simpa using few)).imp
    · intro _ st result
      exact result
    · simp
  · rintro _ st ⟨files, isFiles, holds⟩
    rw [List.nil_append] at holds
    have range : 1 < sb.iblock rootIno ∧ _ := iblock_range (by decide)
    have last : sb.bmapstart < fsSize := by decide
    have unused := holds.clean.unused
    have length : files.length ≤ 206 := by
      rw [isFiles, List.length_map] at few
      exact few
    apply meets_bind.mpr
    apply rinode_meets (by rw [range.2.2, unused.length]; omega)
    have din : Dinode.load (st.disk (sector (sb.iblock rootIno)))
        (rootIno % Fs.ipb * Fs.dinodeSize) = dinodeAt sb st.mapped rootIno := by
      rfl
    have small : (dinodeAt sb st.mapped rootIno).size.toNat < 2 ^ 31 - bSize := by
      rw [root_size holds]
      simp only [direntSize, bSize]
      omega
    dsimp only
    rw [din, roundUp_int small]
    apply meets_bind.mpr
    apply winode_meets (by rw [range.2.2, unused.length]; omega)
    apply meets_bind.mpr
    apply meets_get.mpr
    have used : (st.inoded rootIno (rootInode st)).freeblock < bSize * 8 := by
      have high := unused.high
      have limit : fsSize < bSize * 8 := by decide
      exact lt_of_le_of_lt high limit
    have isRootInode : { dinodeAt sb st.mapped rootIno with
        size := BitVec.ofNat 32 (roundUp (dinodeAt sb st.mapped rootIno).size.toNat) } =
      rootInode st := rfl
    rw [isRootInode, balloc, if_pos used]
    apply meets_wsect.mpr
    refine ⟨files, st, isFiles, holds, ?_, rfl, rfl, rfl, rfl, rfl⟩
    have mapSector : sector sb.bmapstart = sb.bmapstart := by decide
    rw [mapSector, ← mapped_inoded (by decide)]
    rfl

section Finished

variable {st image : State} {files : List HostFile} (holds : Holds st files)
  (finished : Finished st image)

include finished

theorem Finished.root : dinodeAt sb image.disk rootIno = rootInode st := by
  rw [finished.disk, Fs.dinodeAt_putDinode]

theorem Finished.other {inum : Nat} (different : inum ≠ rootIno) :
    dinodeAt sb image.disk inum = dinodeAt sb st.mapped inum := by
  rw [finished.disk, Fs.dinodeAt_putDinode_other _ _ _ different]

/-- Rounding the size changes no reference. -/
theorem Finished.refers (inum : Nat) :
    (dinodeAt sb image.disk inum).Refers (dinodeAt sb st.mapped inum) := by
  by_cases isRoot : inum = rootIno
  · rw [isRoot, finished.root]
    exact ⟨rfl, rfl⟩
  · rw [finished.other isRoot]

theorem Finished.behind {b : Nat} (outside : sb.bmapstart ≤ b) : image.disk b = st.mapped b := by
  rw [finished.disk]
  have inFront : sb.iblock rootIno < sb.bmapstart := by decide
  exact Fs.putDinode_other _ _ _ (by omega)

theorem Finished.live_iff {inum : Nat} :
    Live sb (dinodeAt sb image.disk) inum ↔ Live sb (dinodeAt sb st.mapped) inum := by
  unfold Live
  rw [(finished.refers inum).1]

include holds

theorem Finished.sound : Sound sb image.disk (dinodeAt sb image.disk) := by
  have before : Sound sb st.mapped (dinodeAt sb st.mapped) :=
    (holds.clean.consistent 0 Dinode.zero).sound
  apply before.congr
  · intro inum _
    exact finished.refers inum
  · intro inum live nonzero
    have data := (before.indirect_range live nonzero).1
    exact finished.behind (by rw [sb_dataStart] at data; exact le_trans (by decide) data)
  · intro b _
    unfold Fs.Superblock.bit
    rw [finished.behind Fs.bmapstart_le_bblock]

/-- An inode of the finished image has the blocks and the bytes it had before. -/
theorem Finished.reads {inum : Nat} (live : Live sb (dinodeAt sb st.mapped) inum) :
    (∀ bn, (dinodeAt sb image.disk inum).addr image.disk bn =
        (dinodeAt sb st.mapped inum).addr st.mapped bn) ∧
      ∀ i < maxFile * bSize, byteAt image.disk (dinodeAt sb image.disk inum) i =
        byteAt st.mapped (dinodeAt sb st.mapped inum) i := by
  have same := (holds.clean.consistent 0 Dinode.zero).sound.byteAt_same
    (fun _ => finished.behind) live
  refine ⟨fun bn => ?_, fun i small => ?_⟩
  · rw [Fs.addr_of_addrs (finished.refers inum).2]
    exact same.1 bn
  · rw [Fs.byteAt_refers (finished.refers inum)]
    exact same.2 i small

end Finished

end Rexv6.Mkfs
