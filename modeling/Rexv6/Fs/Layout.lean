import Mathlib.Logic.Function.Basic
import Rexv6.Foundation.Bitmap
import Rexv6.Foundation.LittleEndian
import Rexv6.Param

/-!
Contract: the on-disk format of `include/xv6/fs.h`, which the kernel and `mkfs`
share.

Owns: the constants of the format, the superblock, the disk inode and the
directory entry with their encodings, and the laws of these encodings.

Does not own: which blocks are in use.
-/

namespace Rexv6.Fs

open Rexv6.Foundation
open Rexv6.Foundation.LittleEndian

/-- One disk block. Only the offsets below `bSize` are used. -/
abbrev Block := Bytes

abbrev Disk := Nat → Block

/-! ## Constants -/

def rootIno : Nat := 1

def nDirect : Nat := 12

def nIndirect : Nat := bSize / 4

def maxFile : Nat := nDirect + nIndirect

def dinodeSize : Nat := 64

def ipb : Nat := bSize / dinodeSize

def bpb : Nat := bSize * 8

def dirSiz : Nat := 14

def direntSize : Nat := 16

def tDir : BitVec 16 := 1

def tFile : BitVec 16 := 2

def tDev : BitVec 16 := 3

/-! ## Superblock -/

structure Superblock where
  size : Nat
  nblocks : Nat
  ninodes : Nat
  nlog : Nat
  logstart : Nat
  inodestart : Nat
  bmapstart : Nat
deriving DecidableEq, Repr

namespace Superblock

/-- The superblock in block 1. -/
def load (data : Block) : Superblock :=
  { size := getLe data 0 4
    nblocks := getLe data 4 4
    ninodes := getLe data 8 4
    nlog := getLe data 12 4
    logstart := getLe data 16 4
    inodestart := getLe data 20 4
    bmapstart := getLe data 24 4 }

def store (sb : Superblock) (data : Block) : Block :=
  let data := setLe data 0 4 sb.size
  let data := setLe data 4 4 sb.nblocks
  let data := setLe data 8 4 sb.ninodes
  let data := setLe data 12 4 sb.nlog
  let data := setLe data 16 4 sb.logstart
  let data := setLe data 20 4 sb.inodestart
  setLe data 24 4 sb.bmapstart

/-- `IBLOCK(i, sb)`: the block containing inode `i`. -/
def iblock (sb : Superblock) (inum : Nat) : Nat := inum / ipb + sb.inodestart

/-- `BBLOCK(b, sb)`: the block of the free map containing the bit for block `b`. -/
def bblock (sb : Superblock) (b : Nat) : Nat := b / bpb + sb.bmapstart

/-- The first block behind the free map. -/
def dataStart (sb : Superblock) : Nat := sb.bmapstart + sb.size / bpb + 1

/-- The number of inodes that fit between `inodestart` and `bmapstart`. -/
def slots (sb : Superblock) : Nat := (sb.bmapstart - sb.inodestart) * ipb

/-- The regions of the disk follow each other as in the picture in `fs.h`. -/
structure Valid (sb : Superblock) : Prop where
  inodes : 2 ≤ sb.inodestart
  ninodes : sb.ninodes ≤ sb.slots
  bitmap : sb.inodestart ≤ sb.bmapstart
  data : sb.dataStart ≤ sb.size
  size : sb.size < 2 ^ 31

instance (sb : Superblock) : Decidable sb.Valid :=
  decidable_of_iff (2 ≤ sb.inodestart ∧ sb.ninodes ≤ sb.slots ∧ sb.inodestart ≤ sb.bmapstart ∧
      sb.dataStart ≤ sb.size ∧ sb.size < 2 ^ 31)
    ⟨fun ⟨inodes, ninodes, bitmap, data, size⟩ => ⟨inodes, ninodes, bitmap, data, size⟩,
      fun valid => ⟨valid.inodes, valid.ninodes, valid.bitmap, valid.data, valid.size⟩⟩

/-- Fields that fit in an `uint`. -/
structure Fits (sb : Superblock) : Prop where
  size : sb.size < 2 ^ 32
  nblocks : sb.nblocks < 2 ^ 32
  ninodes : sb.ninodes < 2 ^ 32
  nlog : sb.nlog < 2 ^ 32
  logstart : sb.logstart < 2 ^ 32
  inodestart : sb.inodestart < 2 ^ 32
  bmapstart : sb.bmapstart < 2 ^ 32

theorem load_store (sb : Superblock) (data : Block) (fits : sb.Fits) :
    load (sb.store data) = sb := by
  have word : ∀ {value : Nat}, value < 2 ^ 32 → value < 256 ^ 4 := by
    intro value small
    simpa using small
  obtain ⟨size, nblocks, ninodes, nlog, logstart, inodestart, bmapstart⟩ := fits
  unfold load store
  simp (disch := omega) only [getLe_setLe_disjoint, getLe_setLe_of_lt _ (word size),
    getLe_setLe_of_lt _ (word nblocks), getLe_setLe_of_lt _ (word ninodes),
    getLe_setLe_of_lt _ (word nlog), getLe_setLe_of_lt _ (word logstart),
    getLe_setLe_of_lt _ (word inodestart), getLe_setLe_of_lt _ (word bmapstart)]

end Superblock

/-! ## Disk inodes -/

@[ext] structure Dinode where
  type : BitVec 16
  major : BitVec 16
  minor : BitVec 16
  nlink : BitVec 16
  size : BitVec 32
  addrs : Fin (nDirect + 1) → BitVec 32

namespace Dinode

def zero : Dinode := ⟨0, 0, 0, 0, 0, fun _ => 0⟩

def load (data : Block) (base : Nat) : Dinode :=
  { type := BitVec.ofNat 16 (getLe data base 2)
    major := BitVec.ofNat 16 (getLe data (base + 2) 2)
    minor := BitVec.ofNat 16 (getLe data (base + 4) 2)
    nlink := BitVec.ofNat 16 (getLe data (base + 6) 2)
    size := BitVec.ofNat 32 (getLe data (base + 8) 4)
    addrs := fun index => BitVec.ofNat 32 (getLe data (base + 12 + 4 * index.val) 4) }

/-- `memmove(dip->addrs, ip->addrs, sizeof(ip->addrs))`, word by word. -/
def storeAddrs (d : Dinode) (base : Nat) : Nat → Block → Block
  | 0, data => data
  | index + 1, data =>
    setLe (storeAddrs d base index data) (base + 12 + 4 * index) 4
      (if inRange : index < nDirect + 1 then (d.addrs ⟨index, inRange⟩).toNat else 0)

def store (d : Dinode) (base : Nat) (data : Block) : Block :=
  let data := setLe data base 2 d.type.toNat
  let data := setLe data (base + 2) 2 d.major.toNat
  let data := setLe data (base + 4) 2 d.minor.toNat
  let data := setLe data (base + 6) 2 d.nlink.toNat
  let data := setLe data (base + 8) 4 d.size.toNat
  d.storeAddrs base (nDirect + 1) data

theorem getLe_storeAddrs_below (d : Dinode) (base start width : Nat) (data : Block)
    (below : start + width ≤ base + 12 ∨ base + dinodeSize ≤ start) :
    ∀ count ≤ nDirect + 1, getLe (d.storeAddrs base count data) start width = getLe data start width
  | 0, _ => rfl
  | count + 1, inRange => by
      rw [storeAddrs, getLe_setLe_disjoint]
      · exact getLe_storeAddrs_below d base start width data below count (by omega)
      · simp only [dinodeSize, nDirect] at below inRange
        omega

theorem getLe_storeAddrs (d : Dinode) (base : Nat) (data : Block) (index : Fin (nDirect + 1)) :
    ∀ count, index.val < count →
      getLe (d.storeAddrs base count data) (base + 12 + 4 * index.val) 4 = (d.addrs index).toNat
  | 0, below => absurd below (by omega)
  | count + 1, below => by
      rw [storeAddrs]
      by_cases last : index.val = count
      · subst last
        rw [dif_pos index.isLt, getLe_setLe_of_lt]
        simpa using (d.addrs index).isLt
      · rw [getLe_setLe_disjoint _ (by omega)]
        exact getLe_storeAddrs d base data index count (by omega)

theorem load_store (d : Dinode) (base : Nat) (data : Block) :
    load (d.store base data) base = d := by
  have short : ∀ value : BitVec 16, value.toNat < 256 ^ 2 := fun value => by
    simpa using value.isLt
  have word : ∀ value : BitVec 32, value.toNat < 256 ^ 4 := fun value => by
    simpa using value.isLt
  have fields : ∀ start width, start + width ≤ base + 12 →
      getLe (d.store base data) start width =
        getLe (setLe (setLe (setLe (setLe (setLe data base 2 d.type.toNat) (base + 2) 2
          d.major.toNat) (base + 4) 2 d.minor.toNat) (base + 6) 2 d.nlink.toNat) (base + 8) 4
          d.size.toNat) start width := by
    intro start width below
    exact getLe_storeAddrs_below d base start width _ (Or.inl below) _ (by omega)
  apply Dinode.ext
  case size =>
    simp (disch := omega) only [load, fields]
    rw [getLe_setLe_of_lt _ (word _), BitVec.ofNat_toNat, BitVec.setWidth_eq]
  case addrs =>
    funext index
    have stored := getLe_storeAddrs d base
      (setLe (setLe (setLe (setLe (setLe data base 2 d.type.toNat) (base + 2) 2 d.major.toNat)
        (base + 4) 2 d.minor.toNat) (base + 6) 2 d.nlink.toNat) (base + 8) 4 d.size.toNat)
      index (nDirect + 1) index.isLt
    have addr : (load (d.store base data) base).addrs index =
        BitVec.ofNat 32 (d.addrs index).toNat := congrArg (BitVec.ofNat 32) stored
    rw [addr, BitVec.ofNat_toNat, BitVec.setWidth_eq]
  all_goals
    simp (disch := omega) only [load, fields, getLe_setLe_disjoint]
    rw [getLe_setLe_of_lt _ (short _), BitVec.ofNat_toNat, BitVec.setWidth_eq]

theorem getLe_store_outside (d : Dinode) (base start width : Nat) (data : Block)
    (outside : start + width ≤ base ∨ base + dinodeSize ≤ start) :
    getLe (d.store base data) start width = getLe data start width := by
  unfold store
  rw [getLe_storeAddrs_below d base start width _ (by omega) _ (le_refl _)]
  simp only [dinodeSize] at outside
  simp (disch := omega) only [getLe_setLe_disjoint]

theorem load_store_other (d : Dinode) {base other : Nat} (data : Block)
    (apart : other + dinodeSize ≤ base ∨ base + dinodeSize ≤ other) :
    load (d.store base data) other = load data other := by
  have same : ∀ start width, other ≤ start → start + width ≤ other + dinodeSize →
      getLe (d.store base data) start width = getLe data start width := by
    intro start width low high
    exact getLe_store_outside d base start width data (by omega)
  simp only [dinodeSize] at same
  apply Dinode.ext
  case addrs =>
    funext index
    have inRange := index.isLt
    simp only [nDirect] at inRange
    simp (disch := omega) only [load, same]
  all_goals simp (disch := omega) only [load, same]

end Dinode

def dinodeAt (sb : Superblock) (disk : Disk) (inum : Nat) : Dinode :=
  Dinode.load (disk (sb.iblock inum)) (inum % ipb * dinodeSize)

def putDinode (sb : Superblock) (disk : Disk) (inum : Nat) (d : Dinode) : Disk :=
  Function.update disk (sb.iblock inum)
    (d.store (inum % ipb * dinodeSize) (disk (sb.iblock inum)))

section Table

variable (sb : Superblock) (disk : Disk)

@[simp] theorem dinodeAt_putDinode (inum : Nat) (d : Dinode) :
    dinodeAt sb (putDinode sb disk inum d) inum = d := by
  unfold dinodeAt putDinode
  rw [Function.update_self, Dinode.load_store]

theorem dinodeAt_putDinode_other {inum other : Nat} (d : Dinode) (different : other ≠ inum) :
    dinodeAt sb (putDinode sb disk inum d) other = dinodeAt sb disk other := by
  unfold dinodeAt putDinode
  by_cases sameBlock : sb.iblock other = sb.iblock inum
  · rw [sameBlock, Function.update_self]
    apply Dinode.load_store_other
    simp only [Superblock.iblock, ipb, bSize, dinodeSize] at sameBlock ⊢
    omega
  · rw [Function.update_of_ne sameBlock]

theorem putDinode_other {inum b : Nat} (d : Dinode) (different : b ≠ sb.iblock inum) :
    putDinode sb disk inum d b = disk b :=
  Function.update_of_ne different _ _

/-- The table is read from the inode blocks only. -/
theorem dinodeAt_congr {disk disk' : Disk} {inum : Nat}
    (same : disk' (sb.iblock inum) = disk (sb.iblock inum)) :
    dinodeAt sb disk' inum = dinodeAt sb disk inum := by
  unfold dinodeAt
  rw [same]

end Table

/-! ## Directory entries -/

/-- `struct dirent`: the inode number and the `dirSiz` bytes of the name. -/
structure Dirent where
  inum : Nat
  name : List UInt8
deriving DecidableEq

namespace Dirent

def encode (de : Dirent) : List UInt8 :=
  [UInt8.ofNat de.inum, UInt8.ofNat (de.inum / 256)] ++ de.name

def decode (bytes : List UInt8) : Dirent :=
  { inum := (bytes.getD 0 0).toNat + 256 * (bytes.getD 1 0).toNat
    name := bytes.drop 2 }

theorem decode_encode (de : Dirent) (small : de.inum < 65536) : decode de.encode = de := by
  have value : de.inum % 256 + 256 * (de.inum / 256 % 256) = de.inum := by omega
  simp [decode, encode, value]

theorem encode_length (de : Dirent) (full : de.name.length = dirSiz) :
    de.encode.length = direntSize := by
  simp [encode, full, dirSiz, direntSize]

end Dirent

/-- `strncpy(de.name, name, DIRSIZ)`: the name cut or filled up with NULs. -/
def direntName (name : List UInt8) : List UInt8 :=
  (name.take dirSiz) ++ List.replicate (dirSiz - name.length) 0

theorem direntName_length (name : List UInt8) : (direntName name).length = dirSiz := by
  simp only [direntName, List.length_append, List.length_take, List.length_replicate]
  omega

end Rexv6.Fs
