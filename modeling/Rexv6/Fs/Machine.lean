import Mathlib.Data.List.FinRange
import Rexv6.Foundation.Resumption
import Rexv6.Fs.Layout

/-!
Contract: the inode layer, the directory layer and the path layer of
`fs/sfs/fs.c`.

Owns: the block allocator, the inode cache and its locks, reading and writing
inodes, directories, and path lookup, as programs that wait before they take an
inode's lock and after they release one.

Does not own: the buffer cache: `bread` reads the disk here, and `log_write` writes
it and records the block. The device number is constant and left out, and so are the
bytes that a device reads or writes.
-/

namespace Rexv6.Fs

open Rexv6.Foundation
open Rexv6.Foundation.Bitmap
open Rexv6.Foundation.LittleEndian
open Rexv6.Foundation.Resumption

/-- A `struct inode *` into `icache.inode`. -/
abbrev Slot := Fin nInode

def slots : List Slot := List.finRange nInode

/-- `struct inode`: `din` is the copy of the disk inode. -/
structure Inode where
  inum : Nat
  ref : Int
  locked : Bool
  valid : Bool
  din : Dinode

/-- `struct devsw`: what the functions of a device return. A read returns the
bytes it stored. -/
structure Devsw where
  read : Option (Nat → Option (List UInt8))
  write : Option (List UInt8 → Option Nat)

structure State where
  disk : Disk
  /-- The number of blocks that the disk has. -/
  disksize : Nat
  sb : Superblock
  inode : Slot → Inode
  devsw : Nat → Devsw
  /-- The blocks passed to `log_write`. -/
  logged : List Nat

/-- Why the kernel does not go on. `deadlock` is a wait for a lock that the
process holds itself. -/
inductive Stop where
  | panic (message : String)
  | deadlock
  | loop
deriving DecidableEq, Repr

/-- Where other processes can get in between: before `acquiresleep` and after
`releasesleep`. -/
inductive Wait where
  | lock (ip : Slot)
  | unlocked (ip : Slot)
deriving DecidableEq, Repr

abbrev M (α : Type) : Type := Task State Stop Wait α

def ready (on : Wait) (s : State) : Bool :=
  match on with
  | .lock ip => !(s.inode ip).locked
  | .unlocked _ => true

abbrev Meets {α : Type} (task : M α) (state : State) (post : α → State → Prop)
    (stops : Stop → Prop) : Prop :=
  Resumption.Meets ready (fun _ => Stop.deadlock) task state post stops

/-- The outcome of a program that runs alone. -/
def run {α : Type} (task : M α) (s : State) : Except Stop (α × State) :=
  (task s).run ready fun _ => Stop.deadlock

def panic {α : Type} (message : String) : M α := Task.halt (.panic message)

/-! ## Blocks -/

def bread (b : Nat) : M Block := do
  let s ← get
  if s.disksize ≤ b then
    panic "iderw: block out of range"
  else
    return s.disk b

/-- `log_write` of the buffer of block `b`, which now holds `data`. -/
def logWrite (b : Nat) (data : Block) : M Unit :=
  modify fun s => { s with disk := Function.update s.disk b data, logged := s.logged ++ [b] }

def readsb : M Unit := do
  let data ← bread 1
  modify fun s => { s with sb := Superblock.load data }

def bzero (bno : Nat) : M Unit := do
  let _ ← bread bno
  logWrite bno fun _ => 0

/-- The first free bit of a block of the free map. -/
def freeBit (data : Block) (limit : Nat) : Option Nat :=
  (List.range limit).find? fun bi => getBit data bi = false

def ballocLoop : (turns b : Nat) → M Nat
  | 0, _ => Task.halt .loop
  | turns + 1, b => do
    let sb := (← get).sb
    if b < sb.size then
      let data ← bread (sb.bblock b)
      match freeBit data (min bpb (sb.size - b)) with
      | some bi =>
        logWrite (sb.bblock b) (setBit data bi)
        bzero (b + bi)
        return b + bi
      | none => ballocLoop turns (b + bpb)
    else
      panic "balloc: out of blocks"

def balloc : M Nat := do
  let s ← get
  ballocLoop (s.sb.size / bpb + 2) 0

def bfree (b : Nat) : M Unit := do
  readsb
  let sb := (← get).sb
  let data ← bread (sb.bblock b)
  let bi := b % bpb
  if getBit data bi = false then
    panic "freeing free block"
  else
    logWrite (sb.bblock b) (clearBit data bi)

/-! ## The inode cache -/

def setInode (ip : Slot) (change : Inode → Inode) : M Unit :=
  modify fun s => { s with inode := Function.update s.inode ip (change (s.inode ip)) }

def setDin (ip : Slot) (change : Dinode → Dinode) : M Unit :=
  setInode ip fun inode => { inode with din := change inode.din }

def iget (inum : Nat) : M Slot := do
  let s ← get
  match slots.find? fun ip => 0 < (s.inode ip).ref ∧ (s.inode ip).inum = inum with
  | some ip =>
    setInode ip fun inode => { inode with ref := inode.ref + 1 }
    return ip
  | none =>
    match slots.find? fun ip => (s.inode ip).ref = 0 with
    | some ip =>
      setInode ip fun inode => { inode with inum := inum, ref := 1, valid := false }
      return ip
    | none => panic "iget: no inodes"

def idup (ip : Slot) : M Slot := do
  setInode ip fun inode => { inode with ref := inode.ref + 1 }
  return ip

def iallocLoop (type : BitVec 16) : (turns inum : Nat) → M Slot
  | 0, _ => Task.halt .loop
  | turns + 1, inum => do
    let sb := (← get).sb
    if inum < sb.ninodes then
      let data ← bread (sb.iblock inum)
      let base := inum % ipb * dinodeSize
      if (Dinode.load data base).type = 0 then
        logWrite (sb.iblock inum) ({ Dinode.zero with type := type }.store base data)
        iget inum
      else
        iallocLoop type turns (inum + 1)
    else
      panic "ialloc: no inodes"

def ialloc (type : BitVec 16) : M Slot := do
  let s ← get
  iallocLoop type (s.sb.ninodes + 1) 1

def iupdate (ip : Slot) : M Unit := do
  let s ← get
  let inode := s.inode ip
  let data ← bread (s.sb.iblock inode.inum)
  logWrite (s.sb.iblock inode.inum) (inode.din.store (inode.inum % ipb * dinodeSize) data)

def acquiresleep (ip : Slot) : M Unit := do
  Task.await (.lock ip)
  setInode ip fun inode => { inode with locked := true }

def releasesleep (ip : Slot) : M Unit := do
  setInode ip fun inode => { inode with locked := false }
  Task.await (.unlocked ip)

def ilock (ip : Slot) : M Unit := do
  if ((← get).inode ip).ref < 1 then
    panic "ilock"
  else
    acquiresleep ip
    let s ← get
    let inode := s.inode ip
    if inode.valid = false then
      let data ← bread (s.sb.iblock inode.inum)
      let din := Dinode.load data (inode.inum % ipb * dinodeSize)
      setInode ip fun inode => { inode with din := din, valid := true }
      if din.type = 0 then
        panic "ilock: no type"

def iunlock (ip : Slot) : M Unit := do
  let inode := (← get).inode ip
  if inode.locked = false ∨ inode.ref < 1 then
    panic "iunlock"
  else
    releasesleep ip

/-! ## Inode content -/

def entry (data : Block) (j : Nat) : Nat := getLe data (4 * j) 4

def bmap (ip : Slot) (bn : Nat) : M Nat := do
  let din := ((← get).inode ip).din
  if direct : bn < nDirect then
    let index : Fin (nDirect + 1) := ⟨bn, Nat.lt_succ_of_lt direct⟩
    if din.addrs index = 0 then
      let addr ← balloc
      setDin ip fun din =>
        { din with addrs := Function.update din.addrs index (BitVec.ofNat 32 addr) }
      return addr
    else
      return (din.addrs index).toNat
  else if bn - nDirect < nIndirect then
    let bn := bn - nDirect
    let index := Fin.last nDirect
    let addr ← do
      if din.addrs index = 0 then
        let addr ← balloc
        setDin ip fun din =>
          { din with addrs := Function.update din.addrs index (BitVec.ofNat 32 addr) }
        pure addr
      else
        pure (din.addrs index).toNat
    let a ← bread addr
    if entry a bn = 0 then
      let block ← balloc
      -- `a` is the buffer itself, so the store goes into the block as it is now.
      let a ← bread addr
      logWrite addr (setLe a (4 * bn) 4 block)
      return block
    else
      return entry a bn
  else
    panic "bmap: out of range"

/-- The first loop of `itrunc`. -/
def truncDirect (ip : Slot) : List (Fin (nDirect + 1)) → M Unit
  | [] => return ()
  | index :: rest => do
    let addr := ((← get).inode ip).din.addrs index
    if addr ≠ 0 then
      bfree addr.toNat
      setDin ip fun din => { din with addrs := Function.update din.addrs index 0 }
    truncDirect ip rest

/-- The second loop of `itrunc`, over the words of the indirect block. -/
def truncEntries (a : Block) : List Nat → M Unit
  | [] => return ()
  | j :: rest => do
    if entry a j ≠ 0 then
      bfree (entry a j)
    truncEntries a rest

def itrunc (ip : Slot) : M Unit := do
  truncDirect ip ((List.finRange nDirect).map Fin.castSucc)
  let index := Fin.last nDirect
  let addr := ((← get).inode ip).din.addrs index
  if addr ≠ 0 then
    let a ← bread addr.toNat
    truncEntries a (List.range nIndirect)
    bfree addr.toNat
    setDin ip fun din => { din with addrs := Function.update din.addrs index 0 }
  setDin ip fun din => { din with size := 0 }
  iupdate ip

def iput (ip : Slot) : M Unit := do
  acquiresleep ip
  let inode := (← get).inode ip
  if inode.valid = true ∧ inode.din.nlink = 0 then
    if inode.ref = 1 then
      itrunc ip
      setDin ip fun din => { din with type := 0 }
      iupdate ip
      setInode ip fun inode => { inode with valid := false }
  releasesleep ip
  setInode ip fun inode => { inode with ref := inode.ref - 1 }

def iunlockput (ip : Slot) : M Unit := do
  iunlock ip
  iput ip

def slice (data : Block) (start m : Nat) : List UInt8 :=
  (List.range m).map fun i => data (start + i)

def patch (data : Block) (start : Nat) (bytes : List UInt8) : Block := fun i =>
  if start ≤ i then bytes.getD (i - start) (data i) else data i

/-- The device functions of an inode: `major` has to be in range. -/
def device (s : State) (din : Dinode) : Option Devsw :=
  if din.major.toInt < 0 ∨ (nDev : Int) ≤ din.major.toInt then none
  else some (s.devsw din.major.toInt.toNat)

/-- The loop of `readi`, with `left` bytes to go. -/
def readLoop (ip : Slot) : (turns off left : Nat) → M (List UInt8)
  | _, _, 0 => return []
  | 0, _, _ + 1 => Task.halt .loop
  | turns + 1, off, left + 1 => do
    let addr ← bmap ip (off / bSize)
    let data ← bread addr
    let m := min (left + 1) (bSize - off % bSize)
    let rest ← readLoop ip turns (off + m) (left + 1 - m)
    return slice data (off % bSize) m ++ rest

/-- `readi`: the bytes it stores at `dst`, or `none` for -1. -/
def readi (ip : Slot) (off n : Nat) : M (Option (List UInt8)) := do
  let s ← get
  let din := (s.inode ip).din
  if din.type = tDev then
    return do
      let read ← (← device s din).read
      read n
  else if din.size.toNat < off ∨ (off + n) % 2 ^ 32 < off then
    return none
  else
    let n := if din.size.toNat < off + n then din.size.toNat - off else n
    let bytes ← readLoop ip n off n
    return some bytes

def writeLoop (ip : Slot) : (turns off : Nat) → (src : List UInt8) → M Unit
  | _, _, [] => return ()
  | 0, _, _ :: _ => Task.halt .loop
  | turns + 1, off, src => do
    let addr ← bmap ip (off / bSize)
    let data ← bread addr
    let m := min src.length (bSize - off % bSize)
    logWrite addr (patch data (off % bSize) (src.take m))
    writeLoop ip turns (off + m) (src.drop m)

/-- `writei`: the number of bytes written, or `none` for -1. -/
def writei (ip : Slot) (src : List UInt8) (off : Nat) : M (Option Nat) := do
  let s ← get
  let din := (s.inode ip).din
  let n := src.length
  if din.type = tDev then
    return do
      let write ← (← device s din).write
      write src
  else if din.size.toNat < off ∨ (off + n) % 2 ^ 32 < off then
    return none
  else if maxFile * bSize < (off + n) % 2 ^ 32 then
    return none
  else
    writeLoop ip n off src
    let size := ((← get).inode ip).din.size
    if 0 < n ∧ size.toNat < off + n then
      setDin ip fun din => { din with size := BitVec.ofNat 32 (off + n) }
      iupdate ip
    return some n

/-! ## Directories -/

/-- `strncmp`, on strings that end with their list. -/
def strncmp : Nat → List UInt8 → List UInt8 → Int
  | 0, _, _ => 0
  | n + 1, p, q =>
    if p.headD 0 ≠ 0 ∧ p.headD 0 = q.headD 0 then strncmp n p.tail q.tail
    else (p.headD 0).toNat - (q.headD 0).toNat

def namecmp (s t : List UInt8) : Int := strncmp dirSiz s t

/-- The bytes of `"."` and `".."`. -/
def dot : List UInt8 := [46]

def dotdot : List UInt8 := [46, 46]

/-- `readi` of one entry, with the panic of its caller. -/
def readDirent (dp : Slot) (off : Nat) (message : String) : M Dirent := do
  match ← readi dp off direntSize with
  | some bytes =>
    if bytes.length = direntSize then return Dirent.decode bytes else panic message
  | none => panic message

def lookupLoop (dp : Slot) (name : List UInt8) : (turns off : Nat) → M (Option (Slot × Nat))
  | 0, _ => Task.halt .loop
  | turns + 1, off => do
    if off < ((← get).inode dp).din.size.toNat then
      let de ← readDirent dp off "dirlookup read"
      if de.inum = 0 then
        lookupLoop dp name turns (off + direntSize)
      else if namecmp name de.name = 0 then
        let ip ← iget de.inum
        return some (ip, off)
      else
        lookupLoop dp name turns (off + direntSize)
    else
      return none

/-- `dirlookup`: the inode and the offset of its entry. -/
def dirlookup (dp : Slot) (name : List UInt8) : M (Option (Slot × Nat)) := do
  let din := ((← get).inode dp).din
  if din.type ≠ tDir then
    panic "dirlookup not DIR"
  else
    lookupLoop dp name (din.size.toNat / direntSize + 2) 0

/-- The loop of `dirlink`: the offset of the first empty entry, or the end. -/
def emptyLoop (dp : Slot) : (turns off : Nat) → M Nat
  | 0, _ => Task.halt .loop
  | turns + 1, off => do
    if off < ((← get).inode dp).din.size.toNat then
      let de ← readDirent dp off "dirlink read"
      if de.inum = 0 then return off else emptyLoop dp turns (off + direntSize)
    else
      return off

/-- `dirlink`, which returns false for -1. -/
def dirlink (dp : Slot) (name : List UInt8) (inum : Nat) : M Bool := do
  match ← dirlookup dp name with
  | some (ip, _) =>
    iput ip
    return false
  | none =>
    let off ← emptyLoop dp (((← get).inode dp).din.size.toNat / direntSize + 2) 0
    let de : Dirent := { inum := inum, name := direntName name }
    if (← writei dp de.encode off) = some direntSize then return true else panic "dirlink"

/-! ## Paths -/

def slash : UInt8 := 47

/-- `skipelem`: the next element, cut at `DIRSIZ` bytes, and what follows it. -/
def skipelem (path : List UInt8) : Option (List UInt8 × List UInt8) :=
  let path := path.dropWhile (· = slash)
  if path.headD 0 = 0 then none
  else
    let elem := path.takeWhile fun c => c ≠ slash ∧ c ≠ 0
    some (elem.take dirSiz, (path.drop elem.length).dropWhile (· = slash))

/-- The loop of `namex`. -/
def namexLoop (parent : Bool) :
    (turns : Nat) → Slot → (name path : List UInt8) → M (Option (Slot × List UInt8))
  | 0, _, _, _ => Task.halt .loop
  | turns + 1, ip, name, path => do
    match skipelem path with
    | none =>
      if parent = true then
        iput ip
        return none
      else
        return some (ip, name)
    | some (name, path) =>
      ilock ip
      if ((← get).inode ip).din.type ≠ tDir then
        iunlockput ip
        return none
      else if parent = true ∧ path.headD 0 = 0 then
        iunlock ip
        return some (ip, name)
      else
        match ← dirlookup ip name with
        | none =>
          iunlockput ip
          return none
        | some (next, _) =>
          iunlockput ip
          namexLoop parent turns next name path

/-- `namex`: the inode and the last element, for a process with the current
directory `cwd`. -/
def namex (cwd : Slot) (path : List UInt8) (parent : Bool) : M (Option (Slot × List UInt8)) := do
  let ip ← if path.headD 0 = slash then iget rootIno else idup cwd
  namexLoop parent (path.length + 1) ip [] path

def namei (cwd : Slot) (path : List UInt8) : M (Option Slot) := do
  return (← namex cwd path false).map Prod.fst

end Rexv6.Fs
