import Rexv6.Foundation.Resumption
import Rexv6.Fs.Blocks

/-!
Contract: `tools/mkfs/mkfs.cc`, the program that builds the initial image.

Owns: the program as it runs on the image file, sector by sector, with the two
counters from which it hands out inodes and blocks, and a record of what it has
handed out.

Does not own: the on-disk format, which `Rexv6.Fs.Layout` has for both sides,
the messages on standard output, and failures of the host to write the image.
-/

namespace Rexv6.Mkfs

open Rexv6.Foundation
open Rexv6.Foundation.Bitmap
open Rexv6.Foundation.LittleEndian
open Rexv6.Foundation.Resumption
open Rexv6.Fs (Block Disk Superblock Dinode Dirent rootIno nDirect maxFile ipb bpb tDir tFile dirSiz
  direntName entry patch slash dot dotdot)

/-! ## The layout -/

def nInodes : Nat := 200

def nbitmap : Nat := fsSize / (bSize * 8) + 1

def ninodeblocks : Nat := nInodes / ipb + 1

def nmeta : Nat := 2 + nlog + ninodeblocks + nbitmap

/-- `sb`, as `initialize_superblock` fills it. -/
def sb : Superblock :=
  { size := fsSize
    nblocks := fsSize - nmeta
    ninodes := nInodes
    nlog := nlog
    logstart := 2
    inodestart := 2 + nlog
    bmapstart := 2 + nlog + ninodeblocks }

/-! ## The image file -/

structure State where
  /-- The sectors of the image file. -/
  disk : Disk
  /-- The number of sectors that the image file has. -/
  length : Nat
  freeinode : Nat
  freeblock : Nat
  /-- Record: the inodes that `ialloc` has returned. -/
  allocated : List Nat
  /-- Record: the blocks taken from `freeblock`. -/
  handed : List Nat
  /-- Record: the sectors that `winode` has written. -/
  inodeSectors : List Nat
  /-- Record: the last inode that `winode` was given for each number. -/
  latest : Nat → Dinode

/-- The image file right after `open` with `O_TRUNC`. -/
def State.start : State :=
  { disk := fun _ _ => 0
    length := 0
    freeinode := 1
    freeblock := 0
    allocated := []
    handed := []
    inodeSectors := []
    latest := fun _ => Dinode.zero }

/-- How `mkfs` ends other than by returning 0. -/
inductive Stop where
  | exit (message : String)
  | assertion (text : String)
  | loop
deriving DecidableEq, Repr

abbrev M (α : Type) : Type := Task State Stop Empty α

abbrev Meets {α : Type} (task : M α) (state : State) (post : α → State → Prop)
    (stops : Stop → Prop) : Prop :=
  Resumption.Meets (fun _ _ => true) Empty.elim task state post stops

def run {α : Type} (task : M α) (st : State) : Except Stop (α × State) :=
  (task st).run (fun _ _ => true) Empty.elim

/-- The sector at which `lseek(fsfd, sec * BSIZE, 0)` puts the file offset: the
product is an `uint`. -/
def sector (sec : Nat) : Nat := sec * bSize % 2 ^ 32 / bSize

def wsect (sec : Nat) (buf : Block) : M Unit :=
  modify fun st =>
    { st with
      disk := Function.update st.disk (sector sec) buf
      length := max st.length (sector sec + 1) }

/-- `rsect`: a read behind the end of the file is short. -/
def rsect (sec : Nat) : M Block := do
  let st ← get
  if sector sec < st.length then
    return st.disk (sector sec)
  else
    Task.halt (.exit "read")

/-! ## Inodes -/

def winode (inum : Nat) (ip : Dinode) : M Unit := do
  let bn := sb.iblock inum
  let buf ← rsect bn
  wsect bn (ip.store (inum % ipb * Fs.dinodeSize) buf)
  modify fun st =>
    { st with
      inodeSectors := st.inodeSectors ++ [bn]
      latest := Function.update st.latest inum ip }

def rinode (inum : Nat) : M Dinode := do
  let buf ← rsect (sb.iblock inum)
  return Dinode.load buf (inum % ipb * Fs.dinodeSize)

def ialloc (type : BitVec 16) : M Nat := do
  let inum := (← get).freeinode
  modify fun st =>
    { st with
      freeinode := st.freeinode + 1
      allocated := st.allocated ++ [inum] }
  winode inum { Dinode.zero with type := type, nlink := 1 }
  return inum

def takeBlock : M Nat := do
  let b := (← get).freeblock
  modify fun st =>
    { st with
      freeblock := st.freeblock + 1
      handed := st.handed ++ [b] }
  return b

/-- The part of the loop of `iappend` that finds the sector of block `fbn`, and
gives the inode one if it has none. -/
def mapBlock (din : Dinode) (fbn : Nat) : M (Dinode × Nat) := do
  if direct : fbn < nDirect then
    let index : Fin (nDirect + 1) := ⟨fbn, Nat.lt_succ_of_lt direct⟩
    if din.addrs index = 0 then
      let b ← takeBlock
      let din := din.setAddr index b
      return (din, (din.addrs index).toNat)
    else
      return (din, (din.addrs index).toNat)
  else
    let index := Fin.last nDirect
    let din ← do
      if din.addrs index = 0 then
        let b ← takeBlock
        pure (din.setAddr index b)
      else
        pure din
    let indirect ← rsect (din.addrs index).toNat
    if entry indirect (fbn - nDirect) = 0 then
      let b ← takeBlock
      let indirect := setLe indirect (4 * (fbn - nDirect)) 4 b
      wsect (din.addrs index).toNat indirect
      return (din, entry indirect (fbn - nDirect))
    else
      return (din, entry indirect (fbn - nDirect))

/-- The loop of `iappend`: the inode and the offset that it leaves. -/
def iappendLoop : (turns : Nat) → Dinode → (off : Nat) → List UInt8 → M (Dinode × Nat)
  | _, din, off, [] => return (din, off)
  | 0, _, _, _ :: _ => Task.halt .loop
  | turns + 1, din, off, p => do
    let fbn := off / bSize
    if fbn < maxFile then
      let (din, x) ← mapBlock din fbn
      let n1 := min p.length ((fbn + 1) * bSize - off)
      let buf ← rsect x
      wsect x (patch buf (off - fbn * bSize) (p.take n1))
      iappendLoop turns din (off + n1) (p.drop n1)
    else
      Task.halt (.assertion "fbn < MAXFILE")

def iappend (inum : Nat) (p : List UInt8) : M Unit := do
  let din ← rinode inum
  let (din, off) ← iappendLoop p.length din din.size.toNat p
  winode inum { din with size := BitVec.ofNat 32 off }

/-! ## The free map -/

def bitmap : Nat → Block
  | 0 => fun _ => 0
  | used + 1 => setBit (bitmap used) used

def balloc (used : Nat) : M Unit := do
  if used < bSize * 8 then
    wsect sb.bmapstart (bitmap used)
  else
    Task.halt (.assertion "used < BSIZE * 8")

/-! ## The program -/

/-- The loop of `initialize_superblock`. -/
def zeroLoop : Nat → M Unit
  | 0 => return ()
  | i + 1 => do
    zeroLoop i
    wsect i fun _ => 0

theorem zeroLoop_zero : zeroLoop 0 = pure () := rfl

theorem zeroLoop_succ (i : Nat) : zeroLoop (i + 1) = (do
    zeroLoop i
    wsect i fun _ => 0) := rfl

-- A thousand turns are not to be unrolled by unification.
attribute [irreducible] zeroLoop

def initializeSuperblock : M Unit := do
  modify fun st => { st with freeblock := nmeta }
  zeroLoop fsSize
  wsect 1 (sb.store fun _ => 0)

def initializeRootino : M Nat := do
  let rootino ← ialloc tDir
  let rootino := rootino % 2 ^ 16
  if rootino = rootIno then
    iappend rootino { inum := rootino, name := direntName dot : Dirent }.encode
    iappend rootino { inum := rootino, name := direntName dotdot : Dirent }.encode
    return rootino
  else
    Task.halt (.assertion "rootino == ROOTINO")

/-- A file of the host: its path, a C string, and what each `read` returns. -/
structure HostFile where
  path : List UInt8
  chunks : List (List UInt8)
  string : (0 : UInt8) ∉ path
  sized : ∀ chunk ∈ chunks, 0 < chunk.length ∧ chunk.length ≤ bSize

def HostFile.bytes (file : HostFile) : List UInt8 := file.chunks.flatten

/-- The part of the path behind the last slash. -/
def HostFile.dispname (file : HostFile) : List UInt8 :=
  (file.path.reverse.takeWhile (· ≠ slash)).reverse

/-- The loop of `add_file`. -/
def readLoop (inum : Nat) : List (List UInt8) → M Unit
  | [] => return ()
  | buf :: rest => do
    iappend inum buf
    readLoop inum rest

/-- `add_file`, which returns false for 1: the file could not be opened. -/
def addFile (file : Option HostFile) (rootino : Nat) : M Bool := do
  match file with
  | none => return false
  | some file =>
    let inum ← ialloc tFile
    let inum := inum % 2 ^ 16
    iappend rootino { inum := inum, name := direntName file.dispname : Dirent }.encode
    readLoop inum file.chunks
    return true

/-- The loop of `main`. -/
def addFiles (rootino : Nat) : List (Option HostFile) → M Unit
  | [] => return ()
  | file :: rest => do
    if ← addFile file rootino then
      addFiles rootino rest
    else
      Task.halt (.exit "Errors occur in writting file")

/-- `main`, from the point where the image is open. -/
def main (files : List (Option HostFile)) : M Unit := do
  initializeSuperblock
  let rootino ← initializeRootino
  addFiles rootino files
  let din ← rinode rootino
  -- `off` is an `int`, and the division truncates.
  let off := din.size.toInt
  let off := (off.tdiv bSize + 1) * bSize
  winode rootino { din with size := BitVec.ofInt 32 off }
  balloc (← get).freeblock

def mkfs (files : List (Option HostFile)) : Except Stop State :=
  (run (main files) State.start).map Prod.snd

end Rexv6.Mkfs
