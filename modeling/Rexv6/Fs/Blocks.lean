import Rexv6.Foundation.Counting
import Rexv6.Foundation.Holdings
import Rexv6.Fs.Machine

/-!
Contract: which blocks the inodes of a disk refer to, and the free map.

Owns: the places from which a table of inodes refers to blocks, the agreement of
the free map with them, and what attaching a fresh block to a place does to
both.

Does not own: the programs that allocate and free blocks, in the kernel or in
`mkfs`.
-/

namespace Rexv6.Fs

open Rexv6.Foundation
open Rexv6.Foundation.Bitmap
open Rexv6.Foundation.Holdings
open Rexv6.Foundation.LittleEndian
open Function (update update_of_ne update_self)

/-! ## References -/

namespace Dinode

def indirect (d : Dinode) : Nat := (d.addrs (Fin.last nDirect)).toNat

/-- The address of block `bn` of an inode, or 0. -/
def addr (disk : Disk) (d : Dinode) (bn : Nat) : Nat :=
  if direct : bn < nDirect then (d.addrs ⟨bn, Nat.lt_succ_of_lt direct⟩).toNat
  else if d.indirect = 0 then 0
  else entry (disk d.indirect) (bn - nDirect)

def setAddr (d : Dinode) (index : Fin (nDirect + 1)) (b : Nat) : Dinode :=
  { d with addrs := update d.addrs index (BitVec.ofNat 32 b) }

end Dinode

/-- A place that can refer to a block: block `bn` of inode `inum`, or the
indirect block of inode `inum`. -/
inductive Place where
  | data (inum bn : Nat)
  | indirect (inum : Nat)
deriving DecidableEq

def Place.inum : Place → Nat
  | .data inum _ => inum
  | .indirect inum => inum

def Live (sb : Superblock) (table : Nat → Dinode) (inum : Nat) : Prop :=
  inum < sb.slots ∧ (table inum).type ≠ 0

instance (sb : Superblock) (table : Nat → Dinode) (inum : Nat) : Decidable (Live sb table inum) :=
  inferInstanceAs (Decidable (_ ∧ _))

/-- The block that a place refers to, over all allocated inodes. -/
def own (sb : Superblock) (disk : Disk) (table : Nat → Dinode) : Place → Option Nat
  | .data inum bn =>
    if Live sb table inum ∧ bn < maxFile ∧ (table inum).addr disk bn ≠ 0 then
      some ((table inum).addr disk bn)
    else none
  | .indirect inum =>
    if Live sb table inum ∧ (table inum).indirect ≠ 0 then some (table inum).indirect else none

section Own

variable {sb : Superblock} {disk disk' : Disk} {table : Nat → Dinode} {inum bn b : Nat}

theorem own_data_iff : own sb disk table (.data inum bn) = some b ↔
    Live sb table inum ∧ bn < maxFile ∧ (table inum).addr disk bn = b ∧ b ≠ 0 := by
  simp only [own]
  split
  · rename_i refers
    constructor
    · intro same
      have isB := Option.some.inj same
      exact ⟨refers.1, refers.2.1, isB, isB ▸ refers.2.2⟩
    · rintro ⟨_, _, isB, _⟩
      rw [isB]
  · rename_i refers
    refine iff_of_false (by simp) ?_
    rintro ⟨live, below, isB, nonzero⟩
    exact refers ⟨live, below, isB ▸ nonzero⟩

theorem own_data_none (empty : (table inum).addr disk bn = 0) :
    own sb disk table (.data inum bn) = none := by
  simp only [own]
  rw [if_neg]
  rintro ⟨_, _, nonzero⟩
  exact nonzero empty

theorem own_indirect_iff : own sb disk table (.indirect inum) = some b ↔
    Live sb table inum ∧ (table inum).indirect = b ∧ b ≠ 0 := by
  simp only [own]
  split
  · rename_i refers
    constructor
    · intro same
      have isB := Option.some.inj same
      exact ⟨refers.1, isB, isB ▸ refers.2⟩
    · rintro ⟨_, isB, _⟩
      rw [isB]
  · rename_i refers
    refine iff_of_false (by simp) ?_
    rintro ⟨live, isB, nonzero⟩
    exact refers ⟨live, isB ▸ nonzero⟩

theorem addr_congr {d : Dinode} (same : d.indirect ≠ 0 → disk' d.indirect = disk d.indirect)
    (bn : Nat) : d.addr disk' bn = d.addr disk bn := by
  unfold Dinode.addr
  by_cases direct : bn < nDirect
  · simp [direct]
  · by_cases none : d.indirect = 0
    · simp [direct, none]
    · simp [direct, none, same none]

theorem addr_of_addrs {d d' : Dinode} (same : d'.addrs = d.addrs) (disk : Disk) (bn : Nat) :
    d'.addr disk bn = d.addr disk bn := by
  unfold Dinode.addr Dinode.indirect
  rw [same]

def Dinode.Refers (d' d : Dinode) : Prop := d'.type = d.type ∧ d'.addrs = d.addrs

@[refl] theorem Dinode.Refers.refl (d : Dinode) : d.Refers d := ⟨rfl, rfl⟩

theorem Dinode.Refers.of_eq {d' d : Dinode} (same : d' = d) : d'.Refers d := same ▸ .refl d'

theorem Dinode.Refers.indirect {d' d : Dinode} (same : d'.Refers d) : d'.indirect = d.indirect := by
  rw [Dinode.indirect, same.2]
  rfl

/-- The references of an inode are read from it and its indirect block only. -/
theorem own_congr_at {table' : Nat → Dinode} {place : Place}
    (sameTable : place.inum < sb.slots → (table' place.inum).Refers (table place.inum))
    (same : Live sb table place.inum → (table place.inum).indirect ≠ 0 →
      disk' (table place.inum).indirect = disk (table place.inum).indirect) :
    own sb disk' table' place = own sb disk table place := by
  have sameLive : Live sb table' place.inum ↔ Live sb table place.inum := by
    by_cases inRange : place.inum < sb.slots
    · simp only [Live, (sameTable inRange).1]
    · simp [Live, inRange]
  by_cases live : Live sb table place.inum
  · cases place with
    | indirect inum =>
      simp only [Place.inum] at sameLive sameTable live
      simp only [own, sameLive, (sameTable live.1).indirect]
    | data inum bn =>
      simp only [Place.inum] at sameLive sameTable live same
      simp only [own, sameLive, addr_of_addrs (sameTable live.1).2, addr_congr (same live)]
  · cases place <;> simp only [Place.inum] at sameLive live <;> simp [own, sameLive, live]

theorem own_congr {table' : Nat → Dinode}
    (sameTable : ∀ inum < sb.slots, (table' inum).Refers (table inum))
    (same : ∀ inum, Live sb table inum → (table inum).indirect ≠ 0 →
      disk' (table inum).indirect = disk (table inum).indirect) :
    own sb disk' table' = own sb disk table :=
  funext fun _ => own_congr_at (sameTable _) (same _)

theorem own_none_of_type {place : Place} (free : (table place.inum).type = 0) :
    own sb disk table place = none := by
  have dead : ¬ Live sb table place.inum := fun live => live.2 free
  cases place <;> simp only [Place.inum] at dead <;> simp [own, dead]

theorem own_none_of_addrs {place : Place} (empty : (table place.inum).addrs = fun _ => 0) :
    own sb disk table place = none := by
  have none : (table place.inum).indirect = 0 := by
    rw [Dinode.indirect, empty]
    rfl
  cases place with
  | indirect inum =>
    simp only [Place.inum] at none
    simp [own, none]
  | data inum bn =>
    simp only [Place.inum] at none empty
    apply own_data_none
    simp [Dinode.addr, none, empty]

/-- An inode that refers to no block is replaced by another such inode. -/
theorem own_update_none {d : Dinode}
    (before : ∀ place : Place, place.inum = inum → own sb disk table place = none)
    (after : d.type = 0 ∨ d.addrs = fun _ => 0) :
    own sb disk (update table inum d) = own sb disk table := by
  funext place
  by_cases same : place.inum = inum
  · have isD : update table inum d place.inum = d := by
      rw [same, update_self]
    rw [before place same]
    rcases after with free | empty
    · exact own_none_of_type (by rw [isD, free])
    · exact own_none_of_addrs (by rw [isD, empty])
  · apply own_congr_at
    · intro _
      rw [update_of_ne same]
    · intro _ _
      rfl

end Own

/-! ## The free map -/

def Superblock.bit (sb : Superblock) (disk : Disk) (b : Nat) : Bool :=
  getBit (disk (sb.bblock b)) (b % bpb)

def Used (sb : Superblock) (disk : Disk) (b : Nat) : Prop :=
  sb.dataStart ≤ b ∧ b < sb.size ∧ sb.bit disk b = true

/-- The free map marks the metadata blocks and exactly those data blocks that an
inode refers to, from one place each. -/
structure Sound (sb : Superblock) (disk : Disk) (table : Nat → Dinode) : Prop where
  valid : sb.Valid
  owned : Exact (own sb disk table) (Used sb disk)
  metadata : ∀ b < sb.dataStart, sb.bit disk b = true

def blocksOf (size : Nat) : Nat := (size + (bSize - 1)) / bSize

/-- Exactly the first `count` blocks of an inode are mapped. -/
def Mapped (disk : Disk) (d : Dinode) (count : Nat) : Prop :=
  count ≤ maxFile ∧ ∀ bn < maxFile, d.addr disk bn ≠ 0 ↔ bn < count

def freeBlocks (sb : Superblock) (disk : Disk) : Nat :=
  (List.range sb.size).countP fun b => sb.bit disk b = false

def mark (sb : Superblock) (disk : Disk) (b : Nat) : Disk :=
  update disk (sb.bblock b) (setBit (disk (sb.bblock b)) (b % bpb))

def allocated (sb : Superblock) (disk : Disk) (b : Nat) : Disk :=
  update (mark sb disk b) b fun _ => 0

def setEntry (disk : Disk) (ind j b : Nat) : Disk :=
  update disk ind (setLe (disk ind) (4 * j) 4 b)

section Map

variable {sb : Superblock} {disk : Disk} {table : Nat → Dinode} {b x : Nat}

theorem bit_mark : sb.bit (mark sb disk b) x = (sb.bit disk x || decide (x = b)) := by
  unfold Superblock.bit mark
  by_cases sameBlock : sb.bblock x = sb.bblock b
  · have sameBit : (x % bpb = b % bpb) = (x = b) := by
      apply propext
      simp only [Superblock.bblock, bpb, bSize] at sameBlock ⊢
      omega
    rw [sameBlock, update_self, getBit_setBit]
    simp only [sameBit]
  · have different : x ≠ b := by
      rintro rfl
      exact sameBlock rfl
    rw [update_of_ne sameBlock]
    simp [different]

/-- The free map of the blocks below `sb.size` lies in front of the data blocks. -/
theorem bblock_lt (inRange : x < sb.size) : sb.bblock x < sb.dataStart := by
  have monotone : x / bpb ≤ sb.size / bpb := Nat.div_le_div_right (by omega)
  unfold Superblock.bblock Superblock.dataStart
  omega

theorem bmapstart_le_bblock : sb.bmapstart ≤ sb.bblock x := Nat.le_add_left _ _

theorem bmapstart_lt : sb.bmapstart < sb.dataStart := Nat.lt_succ_of_le (Nat.le_add_right _ _)

theorem inodestart_le_iblock {inum : Nat} : sb.inodestart ≤ sb.iblock inum := Nat.le_add_left _ _

theorem iblock_lt {inum : Nat} (inTable : inum < sb.slots) : sb.iblock inum < sb.bmapstart := by
  simp only [Superblock.slots, Superblock.iblock, ipb, bSize, dinodeSize] at inTable ⊢
  omega

theorem bit_update (data : sb.dataStart ≤ b) (inRange : x < sb.size) (block : Block) :
    sb.bit (update disk b block) x = sb.bit disk x := by
  have inFront := bblock_lt inRange
  unfold Superblock.bit
  rw [update_of_ne (by omega)]

theorem bit_allocated (data : sb.dataStart ≤ b) (inRange : x < sb.size) :
    sb.bit (allocated sb disk b) x = (sb.bit disk x || decide (x = b)) := by
  rw [allocated, bit_update data inRange, bit_mark]

theorem allocated_other (inRange : b < sb.size) (outside : x < sb.bmapstart ∨ sb.dataStart ≤ x)
    (different : x ≠ b) : allocated sb disk b x = disk x := by
  have inFront : sb.bblock b < sb.dataStart := bblock_lt inRange
  have behind : sb.bmapstart ≤ sb.bblock b := bmapstart_le_bblock
  rw [allocated, update_of_ne different, mark, update_of_ne (by omega)]

@[simp] theorem allocated_self : allocated sb disk b b = fun _ => 0 := by
  rw [allocated, update_self]

theorem used_allocated (data : sb.dataStart ≤ b) (inRange : b < sb.size) :
    Used sb (allocated sb disk b) x ↔ x = b ∨ Used sb disk x := by
  unfold Used
  by_cases small : x < sb.size
  · rw [bit_allocated data small]
    by_cases same : x = b
    · subst same
      simp [data, inRange]
    · simp [same, small]
  · have different : x ≠ b := by omega
    simp [small, different]

namespace Sound

theorem range (sound : Sound sb disk table) {place : Place}
    (owns : own sb disk table place = some b) : sb.dataStart ≤ b ∧ b < sb.size :=
  have used := (sound.owned.used b).mpr ⟨place, owns⟩
  ⟨used.1, used.2.1⟩

/-- A free block is a data block that no place refers to. -/
theorem fresh (sound : Sound sb disk table) (free : sb.bit disk b = false) :
    sb.dataStart ≤ b ∧ ¬ Used sb disk b := by
  constructor
  · by_contra inFront
    rw [sound.metadata b (by omega)] at free
    cases free
  · intro used
    rw [used.2.2] at free
    cases free

theorem indirect_range (sound : Sound sb disk table) {inum : Nat} (live : Live sb table inum)
    (nonzero : (table inum).indirect ≠ 0) :
    sb.dataStart ≤ (table inum).indirect ∧ (table inum).indirect < sb.size :=
  sound.range (own_indirect_iff.mpr ⟨live, rfl, nonzero⟩)

theorem addr_range (sound : Sound sb disk table) {inum bn : Nat} (live : Live sb table inum)
    (below : bn < maxFile) (nonzero : (table inum).addr disk bn ≠ 0) :
    sb.dataStart ≤ (table inum).addr disk bn ∧ (table inum).addr disk bn < sb.size :=
  sound.range (own_data_iff.mpr ⟨live, below, rfl, nonzero⟩)

end Sound

end Map

/-! ## Attaching a block -/

section Attach

variable {sb : Superblock} {disk : Disk} {table : Nat → Dinode} {inum b : Nat} {d : Dinode}

@[simp] theorem setAddr_type (index : Fin (nDirect + 1)) : (d.setAddr index b).type = d.type := rfl

theorem toNat_ofNat (small : b < 2 ^ 32) : (BitVec.ofNat 32 b).toNat = b := by
  rw [BitVec.toNat_ofNat, Nat.mod_eq_of_lt small]

theorem indirect_setDirect {bn : Nat} (direct : bn < nDirect) :
    (d.setAddr ⟨bn, Nat.lt_succ_of_lt direct⟩ b).indirect = d.indirect := by
  have notLast : Fin.last nDirect ≠ (⟨bn, Nat.lt_succ_of_lt direct⟩ : Fin (nDirect + 1)) := by
    intro same
    have values := congrArg Fin.val same
    simp only [Fin.val_last] at values
    omega
  simp [Dinode.indirect, Dinode.setAddr, notLast]

theorem addr_setDirect {bn : Nat} (direct : bn < nDirect) (small : b < 2 ^ 32) (other : Nat) :
    (d.setAddr ⟨bn, Nat.lt_succ_of_lt direct⟩ b).addr disk other =
      if other = bn then b else d.addr disk other := by
  unfold Dinode.addr
  rw [indirect_setDirect direct]
  by_cases isDirect : other < nDirect
  · by_cases same : other = bn
    · subst same
      simp [direct, Dinode.setAddr, toNat_ofNat small]
    · simp [isDirect, same, Dinode.setAddr]
  · have different : other ≠ bn := by omega
    simp [isDirect, different]

theorem indirect_setIndirect (small : b < 2 ^ 32) :
    (d.setAddr (Fin.last nDirect) b).indirect = b := by
  simp [Dinode.indirect, Dinode.setAddr, toNat_ofNat small]

/-- A zeroed block becomes the indirect block: no block is mapped by it yet. -/
theorem addr_setIndirect (small : b < 2 ^ 32) (none : d.indirect = 0)
    (zero : ∀ j < nIndirect, entry (disk b) j = 0) {bn : Nat} (below : bn < maxFile) :
    (d.setAddr (Fin.last nDirect) b).addr disk bn = d.addr disk bn := by
  unfold Dinode.addr
  rw [indirect_setIndirect small]
  by_cases direct : bn < nDirect
  · have notLast : (⟨bn, Nat.lt_succ_of_lt direct⟩ : Fin (nDirect + 1)) ≠ Fin.last nDirect := by
      intro same
      have values := congrArg Fin.val same
      simp only [Fin.val_last] at values
      omega
    simp [direct, Dinode.setAddr, notLast]
  · have inIndirect : bn - nDirect < nIndirect := by
      unfold maxFile at below
      omega
    simp [direct, none, zero _ inIndirect]

/-- The first `count` blocks and the new one. -/
theorem entry_setEntry {ind j : Nat} (small : b < 2 ^ 32) (other : Nat) :
    entry (setEntry disk ind j b ind) other = if other = j then b else entry (disk ind) other := by
  unfold setEntry entry
  rw [update_self]
  by_cases same : other = j
  · subst same
    rw [if_pos rfl, getLe_setLe_of_lt _ (by simpa using small)]
  · rw [if_neg same, getLe_setLe_disjoint _ (by omega)]

theorem setEntry_other {ind j x : Nat} (different : x ≠ ind) : setEntry disk ind j b x = disk x :=
  update_of_ne different _ _

theorem addr_setEntry {j : Nat} (small : b < 2 ^ 32) (some : d.indirect ≠ 0) (bn : Nat) :
    d.addr (setEntry disk d.indirect j b) bn =
      if bn = nDirect + j then b else d.addr disk bn := by
  unfold Dinode.addr
  by_cases direct : bn < nDirect
  · have different : bn ≠ nDirect + j := by omega
    simp [direct, different]
  · simp only [direct, dite_false, some, if_false, entry_setEntry small]
    by_cases same : bn = nDirect + j
    · simp [same]
    · rw [if_neg (by omega), if_neg same]

theorem live_update (sameType : d.type = (table inum).type) (other : Nat) :
    Live sb (update table inum d) other ↔ Live sb table other := by
  unfold Live
  by_cases same : other = inum
  · rw [same, update_self, sameType]
  · rw [update_of_ne same]

theorem own_setDirect {bn : Nat} (direct : bn < nDirect) (live : Live sb table inum)
    (small : b < 2 ^ 32) (nonzero : b ≠ 0) :
    own sb disk (update table inum
        ((table inum).setAddr ⟨bn, Nat.lt_succ_of_lt direct⟩ b)) =
      update (own sb disk table) (.data inum bn) (some b) := by
  have below : bn < maxFile := Nat.lt_of_lt_of_le direct (Nat.le_add_right _ _)
  funext place
  cases place with
  | indirect other =>
    rw [update_of_ne (by simp)]
    simp only [own, live_update (setAddr_type _)]
    by_cases same : other = inum
    · rw [same, update_self, indirect_setDirect direct]
    · rw [update_of_ne same]
  | data other block =>
    simp only [own, live_update (setAddr_type _)]
    by_cases same : other = inum
    · subst same
      rw [update_self, addr_setDirect direct small]
      by_cases isBn : block = bn
      · subst isBn
        simp [live, below, nonzero]
      · rw [update_of_ne (by simp [isBn]), if_neg isBn]
        rfl
    · rw [update_of_ne same, update_of_ne (by simp [same])]
      rfl

theorem own_setIndirect (live : Live sb table inum) (small : b < 2 ^ 32) (nonzero : b ≠ 0)
    (none : (table inum).indirect = 0) (zero : ∀ j < nIndirect, entry (disk b) j = 0) :
    own sb disk (update table inum ((table inum).setAddr (Fin.last nDirect) b)) =
      update (own sb disk table) (.indirect inum) (some b) := by
  funext place
  cases place with
  | indirect other =>
    simp only [own, live_update (setAddr_type _)]
    by_cases same : other = inum
    · subst same
      rw [update_self, update_self, indirect_setIndirect small]
      simp [live, nonzero]
    · rw [update_of_ne same, update_of_ne (by simp [same])]
      rfl
  | data other block =>
    rw [update_of_ne (by simp)]
    simp only [own, live_update (setAddr_type _)]
    by_cases same : other = inum
    · subst same
      rw [update_self]
      by_cases below : block < maxFile
      · rw [addr_setIndirect small none zero below]
      · simp [below]
    · rw [update_of_ne same]

theorem own_setEntry {j : Nat} (live : Live sb table inum) (inBlock : j < nIndirect)
    (small : b < 2 ^ 32) (nonzero : b ≠ 0) (some : (table inum).indirect ≠ 0)
    (once : ∀ other, Live sb table other → (table other).indirect = (table inum).indirect →
      other = inum) :
    own sb (setEntry disk (table inum).indirect j b) table =
      update (own sb disk table) (.data inum (nDirect + j)) (Option.some b) := by
  have below : nDirect + j < maxFile := by
    unfold maxFile
    omega
  funext place
  cases place with
  | indirect other =>
    rfl
  | data other block =>
    by_cases same : other = inum
    · subst same
      simp only [own, addr_setEntry small some]
      by_cases isBlock : block = nDirect + j
      · subst isBlock
        simp [live, below, nonzero]
      · rw [update_of_ne (by simp [isBlock]), if_neg isBlock]
        rfl
    · rw [update_of_ne (by simp [same])]
      by_cases otherLive : Live sb table other
      · have kept : (table other).addr (setEntry disk (table inum).indirect j b) block =
            (table other).addr disk block := by
          apply addr_congr
          intro _
          apply setEntry_other
          intro sameBlock
          exact same (once other otherLive sameBlock)
        simp only [own, kept]
      · simp [own, otherLive]

end Attach

/-! ## Attaching a fresh block -/

/-- Byte `i` of an inode. Blocks that are not mapped read as zero. -/
def byteAt (disk : Disk) (d : Dinode) (i : Nat) : UInt8 :=
  if d.addr disk (i / bSize) = 0 then 0 else disk (d.addr disk (i / bSize)) (i % bSize)

def indirects (d : Dinode) : Nat := if d.indirect = 0 then 0 else 1

section Fresh

variable {sb : Superblock} {disk : Disk} {table : Nat → Dinode} {inum b : Nat}

theorem freeBlocks_allocated (data : sb.dataStart ≤ b) (inRange : b < sb.size)
    (free : sb.bit disk b = false) :
    freeBlocks sb (allocated sb disk b) + 1 = freeBlocks sb disk := by
  have marked : sb.bit (allocated sb disk b) b = true := by
    rw [bit_allocated data inRange]
    simp
  have changed : freeBlocks sb (allocated sb disk b) + (decide (sb.bit disk b = false)).toNat =
      freeBlocks sb disk + (decide (sb.bit (allocated sb disk b) b = false)).toNat := by
    apply Counting.countP_change List.nodup_range (List.mem_range.mpr inRange)
    intro other member different
    simp [bit_allocated data (List.mem_range.mp member), different]
  simpa [free, marked] using changed

theorem freeBlocks_update (data : sb.dataStart ≤ b) (block : Block) :
    freeBlocks sb (update disk b block) = freeBlocks sb disk := by
  apply List.countP_congr
  intro x member
  rw [bit_update data (List.mem_range.mp member)]

namespace Sound

section Change

variable (sound : Sound sb disk table)

include sound

theorem congr {disk' : Disk} {table' : Nat → Dinode}
    (sameTable : ∀ inum < sb.slots, (table' inum).Refers (table inum))
    (sameBlocks : ∀ inum, Live sb table inum → (table inum).indirect ≠ 0 →
      disk' (table inum).indirect = disk (table inum).indirect)
    (sameBits : ∀ x < sb.size, sb.bit disk' x = sb.bit disk x) : Sound sb disk' table' where
  valid := sound.valid
  owned := by
    rw [own_congr sameTable sameBlocks]
    apply sound.owned.congr
    intro x
    unfold Used
    by_cases small : x < sb.size
    · rw [sameBits x small]
    · simp [small]
  metadata := by
    intro x inFront
    have := sound.valid.data
    rw [sameBits x (by omega), sound.metadata x inFront]

/-- Data blocks are no metadata, and their addresses fit in a word. -/
theorem bounds (data : sb.dataStart ≤ b) (inRange : b < sb.size) : b ≠ 0 ∧ b < 2 ^ 32 := by
  have small := sound.valid.size
  have start : sb.dataStart ≠ 0 := Nat.succ_ne_zero _
  omega

end Change

section Allocate

variable (sound : Sound sb disk table) (free : sb.bit disk b = false) (inRange : b < sb.size)

include sound free

/-- A fresh block is none of the indirect blocks. -/
theorem indirect_ne (live : Live sb table inum) (nonzero : (table inum).indirect ≠ 0) :
    (table inum).indirect ≠ b := by
  intro same
  have owned := (sound.owned.used _).mpr ⟨.indirect inum, own_indirect_iff.mpr ⟨live, rfl, nonzero⟩⟩
  rw [same] at owned
  exact (sound.fresh free).2 owned

include inRange

/-- Allocating a block changes no reference. -/
theorem own_allocated : own sb (allocated sb disk b) table = own sb disk table := by
  apply own_congr (fun _ _ => .refl _)
  intro inum live nonzero
  exact allocated_other inRange (Or.inr (sound.indirect_range live nonzero).1)
    (sound.indirect_ne free live nonzero)

theorem attach {disk' : Disk} {table' : Nat → Dinode} {place : Place}
    (empty : own sb disk table place = none)
    (owns : own sb disk' table' =
      update (own sb (allocated sb disk b) table) place (some b))
    (sameBits : ∀ x < sb.size, sb.bit disk' x = sb.bit (allocated sb disk b) x) :
    Sound sb disk' table' where
  valid := sound.valid
  owned := by
    have fresh := sound.fresh free
    rw [owns, sound.own_allocated free inRange]
    apply (sound.owned.take empty fresh.2).congr
    intro x
    rw [← used_allocated fresh.1 inRange]
    unfold Used
    by_cases small : x < sb.size
    · rw [sameBits x small]
    · simp [small]
  metadata := by
    intro x inFront
    have := sound.valid.data
    rw [sameBits x (by omega), bit_allocated (sound.fresh free).1 (by omega),
      sound.metadata x inFront]
    rfl

variable (live : Live sb table inum)

include live

theorem setDirect {bn : Nat} (direct : bn < nDirect) (empty : (table inum).addr disk bn = 0) :
    Sound sb (allocated sb disk b) (update table inum
      ((table inum).setAddr ⟨bn, Nat.lt_succ_of_lt direct⟩ b)) := by
  have bounds := sound.bounds (sound.fresh free).1 inRange
  apply sound.attach free inRange (own_data_none empty)
  · exact own_setDirect direct live bounds.2 bounds.1
  · intro _ _
    rfl

theorem setIndirect (none : (table inum).indirect = 0) :
    Sound sb (allocated sb disk b) (update table inum
      ((table inum).setAddr (Fin.last nDirect) b)) := by
  have bounds := sound.bounds (sound.fresh free).1 inRange
  have empty : own sb disk table (.indirect inum) = Option.none := by simp [own, none]
  apply sound.attach free inRange empty
  · apply own_setIndirect live bounds.2 bounds.1 none
    intro j _
    rw [allocated_self]
    rfl
  · intro _ _
    rfl

theorem setEntry {j : Nat} (inBlock : j < nIndirect) (some : (table inum).indirect ≠ 0)
    (empty : (table inum).addr disk (nDirect + j) = 0) :
    Sound sb (Fs.setEntry (allocated sb disk b) (table inum).indirect j b) table := by
  have bounds := sound.bounds (sound.fresh free).1 inRange
  apply sound.attach free inRange (own_data_none empty)
  · apply own_setEntry live inBlock bounds.2 bounds.1 some
    intro other otherLive same
    have holder := sound.owned.once (own_indirect_iff.mpr ⟨otherLive, same, some⟩)
      (own_indirect_iff.mpr ⟨live, rfl, some⟩)
    exact Place.indirect.inj holder
  · intro x small
    exact bit_update (sound.indirect_range live some).1 small _

theorem addr_allocated (bn : Nat) :
    (table inum).addr (allocated sb disk b) bn = (table inum).addr disk bn := by
  apply addr_congr
  intro nonzero
  exact allocated_other inRange (Or.inr (sound.indirect_range live nonzero).1)
    (sound.indirect_ne free live nonzero)

end Allocate

end Sound

/-- An inode reads the same if every block does: its address is kept and so is
the block, or it was not mapped and its new block is zero. -/
theorem byteAt_congr {disk disk' : Disk} {d d' : Dinode} {i : Nat}
    (same : (d'.addr disk' (i / bSize) = d.addr disk (i / bSize) ∧
        (d.addr disk (i / bSize) ≠ 0 →
          disk' (d.addr disk (i / bSize)) = disk (d.addr disk (i / bSize)))) ∨
      (d.addr disk (i / bSize) = 0 ∧ disk' (d'.addr disk' (i / bSize)) = fun _ => 0)) :
    byteAt disk' d' i = byteAt disk d i := by
  unfold byteAt
  rcases same with ⟨sameAddr, sameBlock⟩ | ⟨unmapped, zero⟩
  · rw [sameAddr]
    by_cases mapped : d.addr disk (i / bSize) = 0
    · rw [if_pos mapped, if_pos mapped]
    · rw [if_neg mapped, if_neg mapped, sameBlock mapped]
  · rw [if_pos unmapped, zero]
    split <;> rfl

theorem Mapped.congr {disk disk' : Disk} {d d' : Dinode} {count : Nat}
    (mapped : Mapped disk d count)
    (addr : ∀ bn < maxFile, d'.addr disk' bn = d.addr disk bn) : Mapped disk' d' count := by
  refine ⟨mapped.1, fun bn below => ?_⟩
  rw [addr bn below]
  exact mapped.2 bn below

theorem Mapped.succ {disk disk' : Disk} {d d' : Dinode} {count : Nat} (mapped : Mapped disk d count)
    (below : count < maxFile) (nonzero : b ≠ 0)
    (addr : ∀ bn, d'.addr disk' bn = if bn = count then b else d.addr disk bn) :
    Mapped disk' d' (count + 1) := by
  refine ⟨below, fun bn inRange => ?_⟩
  rw [addr]
  by_cases last : bn = count
  · rw [if_pos last]
    exact iff_of_true nonzero (by omega)
  · rw [if_neg last, mapped.2 bn inRange]
    omega

end Fresh

end Rexv6.Fs
