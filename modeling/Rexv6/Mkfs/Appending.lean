import Rexv6.Fs.Contents
import Rexv6.Mkfs.Machine

/-!
Contract: `iappend` writes an inode as the kernel would.

Owns: the disk that the kernel would see if the free map were written now, and
the step by step correspondence between `iappend` and a kernel write of the same
bytes at the end of the file on that disk.

Does not own: which inodes `mkfs` makes and what it appends to them.
-/

namespace Rexv6.Mkfs

open Rexv6.Foundation
open Rexv6.Foundation.Bitmap
open Rexv6.Foundation.LittleEndian
open Rexv6.Foundation.Resumption
open Rexv6.Fs (Disk Dinode Slot Sound Live Growing Consistent Loaded Wrote Fills firstSlot dinodeAt
  byteAt blocksOf indirects required freeBlocks patch nDirect nIndirect maxFile ipb bpb)
open Function (update update_comm update_idem update_of_ne update_self)

/-! ## Sectors -/

section Sectors

variable {st : State} {sec : Nat} {stops : Stop → Prop}

theorem sector_of_lt (small : sec < fsSize) : sector sec = sec := by
  simp only [sector, fsSize, bSize] at small ⊢
  omega

theorem sector_fsSize : sector fsSize = fsSize := by decide

@[simp] theorem meets_wsect {buf : Fs.Block} {post : Unit → State → Prop} :
    Meets (wsect sec buf) st post stops ↔
      post () { st with
        disk := update st.disk (sector sec) buf
        length := max st.length (sector sec + 1) } :=
  Iff.rfl

theorem rsect_meets {post : Fs.Block → State → Prop} (inFile : sector sec < st.length)
    (holds : post (st.disk (sector sec)) st) : Meets (rsect sec) st post stops := by
  rw [rsect, Meets, meets_bind, meets_get, if_pos inFile]
  exact holds

theorem rsect_stops {post : Fs.Block → State → Prop} (behind : st.length ≤ sector sec)
    (holds : stops (.exit "read")) : Meets (rsect sec) st post stops := by
  rw [rsect, Meets, meets_bind, meets_get, if_neg (by omega)]
  exact holds

@[simp] theorem meets_takeBlock {post : Nat → State → Prop} :
    Meets takeBlock st post stops ↔
      post st.freeblock { st with
        freeblock := st.freeblock + 1
        handed := st.handed ++ [st.freeblock] } :=
  Iff.rfl

end Sectors

/-! ## The disk as the kernel would see it -/

theorem getBit_bitmap (used bit : Nat) : getBit (bitmap used) bit = decide (bit < used) := by
  induction used with
  | zero => simp [bitmap, getBit]
  | succ used ih =>
    rw [bitmap, getBit_setBit, ih]
    by_cases same : bit = used
    · simp [same]
    · have lt : (bit < used + 1) = (bit < used) := by
        apply propext
        omega
      simp [same, lt]

/-- The image with the free map that `balloc` would write now. -/
def State.mapped (st : State) : Disk :=
  update st.disk sb.bmapstart (bitmap st.freeblock)

/-- A kernel that runs on this image and has inode `inum` in its first slot,
with the copy `din`. -/
def State.kernel (st : State) (inum : Nat) (din : Dinode) : Fs.State :=
  { disk := st.mapped
    disksize := fsSize
    sb := sb
    inode := update
      (fun _ => { inum := 0, ref := 0, locked := false, valid := false, din := Dinode.zero })
      firstSlot { inum := inum, ref := 1, locked := true, valid := true, din := din }
    devsw := fun _ => { read := none, write := none }
    logged := [] }

@[simp] theorem kernel_inode (st : State) (inum : Nat) (din : Dinode) :
    (st.kernel inum din).inode firstSlot =
      { inum := inum, ref := 1, locked := true, valid := true, din := din } := by
  simp [State.kernel]

@[simp] theorem kernel_sb (st : State) (inum : Nat) (din : Dinode) :
    (st.kernel inum din).sb = sb := rfl

@[simp] theorem kernel_disk (st : State) (inum : Nat) (din : Dinode) :
    (st.kernel inum din).disk = st.mapped := rfl

theorem sb_valid : sb.Valid := by decide

theorem sb_dataStart : sb.dataStart = nmeta := by decide

theorem sb_slots : sb.slots = 208 := by decide

section Mapped

variable {st : State} {b : Nat}

theorem mapped_other (different : b ≠ sb.bmapstart) : st.mapped b = st.disk b :=
  update_of_ne different _ _

theorem mapped_bit (small : b < fsSize) : sb.bit st.mapped b = decide (b < st.freeblock) := by
  have block : sb.bblock b = sb.bmapstart := by
    simp only [Fs.Superblock.bblock, bpb, bSize, fsSize] at small ⊢
    omega
  have index : b % bpb = b := by
    simp only [bpb, bSize, fsSize] at small ⊢
    omega
  rw [Fs.Superblock.bit, block, index, State.mapped, update_self, getBit_bitmap]

/-- The kernel would find as many free blocks as are left. -/
theorem mapped_freeBlocks :
    freeBlocks sb st.mapped = fsSize - st.freeblock := by
  have count : ∀ size, (List.range size).countP (fun b => decide (b < st.freeblock) = false) =
      size - st.freeblock := by
    intro size
    induction size with
    | zero => simp
    | succ size ih =>
      rw [List.range_succ, List.countP_append, ih, List.countP_singleton]
      by_cases below : size < st.freeblock
      · rw [if_neg (by simpa using below)]
        omega
      · rw [if_pos (by simpa using below)]
        omega
  have same : freeBlocks sb st.mapped =
      (List.range sb.size).countP (fun b => decide (b < st.freeblock) = false) := by
    apply List.countP_congr
    intro b member
    rw [mapped_bit (List.mem_range.mp member)]
  rw [same, count]
  rfl

/-- `freeblock++` is an allocation by the kernel: the block is zero already. -/
theorem mapped_takeBlock (low : nmeta ≤ st.freeblock) (high : st.freeblock < fsSize)
    (zero : st.disk st.freeblock = fun _ => 0) (handed : List Nat) :
    Fs.allocated sb st.mapped st.freeblock =
      { st with freeblock := st.freeblock + 1, handed := handed }.mapped := by
  have block : sb.bblock st.freeblock = sb.bmapstart := by
    simp only [Fs.Superblock.bblock, bpb, bSize, fsSize] at high ⊢
    omega
  have index : st.freeblock % bpb = st.freeblock := by
    simp only [bpb, bSize, fsSize] at high ⊢
    omega
  have notMap : st.freeblock ≠ sb.bmapstart := by
    have behind : sb.bmapstart < nmeta := by decide
    omega
  unfold Fs.allocated Fs.mark State.mapped
  rw [block, index, update_self, update_idem]
  funext x
  by_cases same : x = st.freeblock
  · rw [same, update_self, update_of_ne notMap, zero]
  · rw [update_of_ne same]
    rfl

end Mapped

/-! ## Mapping a block -/

/-- The image is complete, and the blocks from `freeblock` on are zero. -/
structure Unused (st : State) : Prop where
  length : st.length = fsSize
  low : nmeta ≤ st.freeblock
  high : st.freeblock ≤ fsSize
  zero : ∀ b, st.freeblock ≤ b → b < fsSize → st.disk b = fun _ => 0

def State.wrote (st : State) (x : Nat) (buf : Fs.Block) : State :=
  { st with
    disk := update st.disk (sector x) buf
    length := max st.length (sector x + 1) }

theorem mapped_wrote {st : State} {x : Nat} (low : nmeta ≤ x) (high : x < fsSize)
    (buf : Fs.Block) : (st.wrote x buf).mapped = update st.mapped x buf := by
  have behind : sb.bmapstart < nmeta := by decide
  unfold State.mapped State.wrote
  rw [sector_of_lt high]
  exact update_comm (by omega) _ _ _

/-- What appending leaves alone, and the blocks that it takes. -/
structure Takes (st st' : State) : Prop where
  unused : Unused st'
  freeinode : st'.freeinode = st.freeinode
  allocated : st'.allocated = st.allocated
  inodeSectors : st'.inodeSectors = st.inodeSectors
  latest : st'.latest = st.latest
  grows : st.freeblock ≤ st'.freeblock
  handed : st'.handed = st.handed ++ List.range' st.freeblock (st'.freeblock - st.freeblock)

theorem Takes.refl {st : State} (unused : Unused st) : Takes st st where
  unused := unused
  freeinode := rfl
  allocated := rfl
  inodeSectors := rfl
  latest := rfl
  grows := le_refl _
  handed := by simp

theorem Takes.trans {st st' st'' : State} (first : Takes st st') (second : Takes st' st'') :
    Takes st st'' where
  unused := second.unused
  freeinode := second.freeinode.trans first.freeinode
  allocated := second.allocated.trans first.allocated
  inodeSectors := second.inodeSectors.trans first.inodeSectors
  latest := second.latest.trans first.latest
  grows := first.grows.trans second.grows
  handed := by
    have firstGrows := first.grows
    have secondGrows := second.grows
    have start : st'.freeblock = st.freeblock + (st'.freeblock - st.freeblock) := by omega
    rw [second.handed, first.handed, List.append_assoc]
    nth_rewrite 2 [start]
    rw [List.range'_append_1]
    congr 2
    omega

def State.taken (st : State) : State :=
  { st with
    freeblock := st.freeblock + 1
    handed := st.handed ++ [st.freeblock] }

theorem Unused.taken {st : State} (unused : Unused st) (high : st.freeblock < fsSize) :
    Takes st st.taken where
  unused :=
    { length := unused.length
      low := Nat.le_succ_of_le unused.low
      high := high
      zero := fun b above small => unused.zero b (Nat.le_of_succ_le above) small }
  freeinode := rfl
  allocated := rfl
  inodeSectors := rfl
  latest := rfl
  grows := Nat.le_succ _
  handed := by simp [State.taken]

theorem Unused.wsect {st : State} (unused : Unused st) {x : Nat} (high : x < st.freeblock)
    (buf : Fs.Block) : Takes st (st.wrote x buf) where
  unused :=
    { length := by
        have small := unused.high
        unfold State.wrote
        rw [sector_of_lt (by omega), unused.length]
        exact max_eq_left (by omega)
      low := unused.low
      high := unused.high
      zero := fun b above small => by
        unfold State.wrote at above ⊢
        dsimp only at above ⊢
        rw [sector_of_lt (by omega), update_of_ne (by omega)]
        exact unused.zero b above small }
  freeinode := rfl
  allocated := rfl
  inodeSectors := rfl
  latest := rfl
  grows := le_refl _
  handed := by simp [State.wrote]

section Map

variable {st : State} {inum : Nat} {din : Dinode} {count : Nat}

/-- The blocks that are left do not suffice for the inode to reach `count'`. -/
def Short (st : State) (count : Nat) (din : Dinode) (count' : Nat) : Prop :=
  (fsSize - st.freeblock) + (count + indirects din) < required count' din

/-- `mkfs` has let the inode grow as the kernel would. -/
def Grows (inum : Nat) (count count' : Nat) (content : Nat → UInt8) (st : State) (din : Dinode)
    (st' : State) (din' : Dinode) : Prop :=
  Takes st st' ∧ Fills firstSlot count count' content (st.kernel inum din) (st'.kernel inum din')

theorem kernel_taken (unused : Unused st) (high : st.freeblock < fsSize) (din' : Dinode) :
    { st.kernel inum din with
      disk := Fs.allocated (st.kernel inum din).sb (st.kernel inum din).disk st.freeblock
      inode := update (st.kernel inum din).inode firstSlot
        { (st.kernel inum din).inode firstSlot with din := din' }
      logged := [] } = st.taken.kernel inum din' := by
  have disk : Fs.allocated (st.kernel inum din).sb (st.kernel inum din).disk st.freeblock =
      st.taken.mapped :=
    mapped_takeBlock unused.low high (unused.zero _ (le_refl _) high) _
  rw [disk]
  simp [State.kernel]

theorem kernel_free (high : st.freeblock < fsSize) :
    (st.kernel inum din).sb.bit (st.kernel inum din).disk st.freeblock = false := by
  have bit : sb.bit st.mapped st.freeblock = decide (st.freeblock < st.freeblock) := mapped_bit high
  simpa using bit

theorem owned_taken {table : Nat → Dinode} {place : Fs.Place} {b : Nat}
    (sound : Sound sb st.mapped table) (owns : Fs.own sb st.mapped table place = some b) :
    nmeta ≤ b ∧ b < st.freeblock := by
  have used := (sound.owned.used b).mpr ⟨place, owns⟩
  have bit := used.2.2
  rw [mapped_bit used.2.1] at bit
  exact ⟨sb_dataStart ▸ used.1, of_decide_eq_true bit⟩

variable (unused : Unused st) (inode : Growing (st.kernel inum din) firstSlot count)

include unused inode

theorem grows_direct (direct : count < nDirect) (high : st.freeblock < fsSize) :
    Grows inum count (count + 1) (byteAt st.mapped din) st din st.taken
      (din.setAddr ⟨count, Nat.lt_succ_of_lt direct⟩ st.freeblock) := by
  refine ⟨unused.taken high, ?_⟩
  have grown := Fs.extends_direct inode (kernel_free high) high direct []
  rw [kernel_taken unused high] at grown
  refine ⟨grown, by omega, by omega, fun _ => ?_⟩
  exact Fs.indirect_setDirect direct

theorem grows_indirect (none : din.indirect = 0) (high : st.freeblock < fsSize) :
    Takes st st.taken ∧ Fs.Extends firstSlot count count (byteAt st.mapped din)
      (st.kernel inum din)
      (st.taken.kernel inum (din.setAddr (Fin.last nDirect) st.freeblock)) := by
  refine ⟨unused.taken high, ?_⟩
  have grown := Fs.extends_indirect inode (kernel_free high) high (by simpa using none) []
  rw [kernel_taken unused high] at grown
  simpa only [kernel_inode, kernel_disk] using grown

omit unused in
theorem indirect_taken (nonzero : din.indirect ≠ 0) :
    nmeta ≤ din.indirect ∧ din.indirect < st.freeblock := by
  have owns := inode.own_indirect (by simpa using nonzero)
  rw [kernel_inode] at owns
  exact owned_taken inode.sound owns

theorem grows_entry {j : Nat} (isCount : count = nDirect + j) (inBlock : j < nIndirect)
    (nonzero : din.indirect ≠ 0) (high : st.freeblock < fsSize) :
    Grows inum count (count + 1) (byteAt st.mapped din) st din
      (st.taken.wrote din.indirect (setLe (st.disk din.indirect) (4 * j) 4 st.freeblock)) din := by
  have range := indirect_taken inode nonzero
  have takes := unused.taken high
  refine ⟨takes.trans (takes.unused.wsect (Nat.lt_succ_of_lt range.2) _), ?_⟩
  have grown := Fs.extends_entry inode (kernel_free high) high isCount inBlock
    (by simpa using nonzero) []
  have behind : sb.bmapstart < nmeta := by decide
  have disk : Fs.setEntry (Fs.allocated (st.kernel inum din).sb (st.kernel inum din).disk
        st.freeblock) din.indirect j st.freeblock =
      (st.taken.wrote din.indirect
        (setLe (st.disk din.indirect) (4 * j) 4 st.freeblock)).mapped := by
    have allocated : Fs.allocated (st.kernel inum din).sb (st.kernel inum din).disk st.freeblock =
        st.taken.mapped :=
      mapped_takeBlock unused.low high (unused.zero _ (le_refl _) high) _
    rw [mapped_wrote range.1 (by omega), allocated, Fs.setEntry, mapped_other (by omega)]
    rfl
  simp only [kernel_inode] at grown
  rw [disk] at grown
  refine ⟨grown, by omega, by omega, fun _ => rfl⟩

/-- The last part of `mapBlock` behind the direct blocks, if the entry is empty.
When no block is left, the sector that is returned lies behind the image. -/
theorem mapEntry_meets {j : Nat} {stops : Stop → Prop} (isCount : count = nDirect + j)
    (inBlock : j < nIndirect) (nonzero : din.indirect ≠ 0) :
    Meets (do
        let indirect ← rsect (din.addrs (Fin.last nDirect)).toNat
        if Fs.entry indirect j = 0 then
          let b ← takeBlock
          let indirect := setLe indirect (4 * j) 4 b
          wsect (din.addrs (Fin.last nDirect)).toNat indirect
          return (din, Fs.entry indirect j)
        else
          return (din, Fs.entry indirect j)) st
      (fun result st' =>
        (Grows inum count (count + 1) (byteAt st.mapped din) st din st' result.1 ∧
          result.2 = result.1.addr st'.mapped count) ∨
        (result.2 = fsSize ∧ st'.length = fsSize ∧ st.freeblock = fsSize))
      stops := by
  have range := indirect_taken inode nonzero
  have bound := unused.high
  have behind : sb.bmapstart < nmeta := by decide
  have isSector : sector din.indirect = din.indirect := sector_of_lt (by omega)
  have below : count < maxFile := by
    unfold maxFile
    omega
  have empty := inode.addr_next below
  have isJ : count - nDirect = j := by omega
  simp only [kernel_inode, kernel_disk] at empty
  rw [Dinode.addr, dif_neg (by omega), if_neg nonzero, isJ, mapped_other (by omega)] at empty
  have isIndirect : (din.addrs (Fin.last nDirect)).toNat = din.indirect := rfl
  rw [isIndirect]
  apply meets_bind.mpr
  apply rsect_meets (by rw [isSector, unused.length]; omega)
  rw [isSector]
  rw [if_pos empty]
  apply meets_bind.mpr
  apply meets_takeBlock.mpr
  apply meets_bind.mpr
  apply meets_wsect.mpr
  have stored : Fs.entry (setLe (st.disk din.indirect) (4 * j) 4 st.freeblock) j =
      st.freeblock := by
    have word : fsSize < 256 ^ 4 := by decide
    exact getLe_setLe_of_lt _ (by omega)
  apply meets_pure.mpr
  rw [stored]
  by_cases high : st.freeblock < fsSize
  · left
    refine ⟨grows_entry unused inode isCount inBlock nonzero high, ?_⟩
    have addr : din.addr (st.taken.wrote din.indirect
        (setLe (st.disk din.indirect) (4 * j) 4 st.freeblock)).mapped count = st.freeblock := by
      rw [Dinode.addr, dif_neg (by omega), if_neg nonzero, isJ, mapped_wrote range.1 (by omega),
        update_self, stored]
    exact addr.symm
  · right
    refine ⟨by omega, ?_, by omega⟩
    simp only [isSector, unused.length]
    exact max_eq_left (by omega)

theorem mapBlock_mapped {fbn : Nat} {post : Dinode × Nat → State → Prop} {stops : Stop → Prop}
    (old : fbn < count) (holds : post (din, din.addr st.mapped fbn) st) :
    Meets (mapBlock din fbn) st post stops := by
  have bound := unused.high
  have behind : sb.bmapstart < nmeta := by decide
  have isMapped := inode.mapped
  simp only [kernel_inode, kernel_disk] at isMapped
  have below : fbn < maxFile := lt_of_lt_of_le old isMapped.1
  have nonzero := (isMapped.2 fbn below).mpr old
  unfold mapBlock
  unfold Dinode.addr at nonzero holds
  by_cases direct : fbn < nDirect
  · simp only [direct, dite_true] at nonzero holds ⊢
    rw [if_neg]
    · exact holds
    · intro zero
      rw [zero] at nonzero
      exact nonzero rfl
  · by_cases none : din.indirect = 0
    · simp [direct, none] at nonzero
    · have range := indirect_taken inode none
      have isSector : sector din.indirect = din.indirect := sector_of_lt (by omega)
      simp only [direct, dite_false, none, if_false] at nonzero holds ⊢
      have isIndirect : (din.addrs (Fin.last nDirect)).toNat = din.indirect := rfl
      rw [if_neg (Fs.last_ne_zero none)]
      apply meets_bind.mpr
      apply meets_pure.mpr
      apply meets_bind.mpr
      apply rsect_meets (by rw [isIndirect, isSector, unused.length]; omega)
      rw [mapped_other (by omega)] at nonzero holds
      rw [isIndirect, isSector, if_neg nonzero]
      exact holds

theorem mapBlock_meets {fbn : Nat} (next : fbn ≤ count) (below : fbn < maxFile) :
    Meets (mapBlock din fbn) st
      (fun result st' =>
        (Grows inum count (max count (fbn + 1)) (byteAt st.mapped din) st din st' result.1 ∧
          result.2 = result.1.addr st'.mapped fbn) ∨
        (result.2 = fsSize ∧ st'.length = fsSize ∧ Short st count din (max count (fbn + 1))))
      (fun stop => stop = .exit "read" ∧ Short st count din (max count (fbn + 1))) := by
  have bound := unused.high
  by_cases old : fbn < count
  · rw [max_eq_left old]
    apply mapBlock_mapped unused inode old
    have refl := Fs.Fills.refl inode
    exact Or.inl ⟨⟨Takes.refl unused, refl⟩, rfl⟩
  · obtain rfl : fbn = count := by omega
    rw [max_eq_right (Nat.le_succ fbn)]
    have empty := inode.addr_next below
    simp only [kernel_inode, kernel_disk] at empty
    unfold mapBlock
    by_cases direct : fbn < nDirect
    · have word : din.addrs ⟨fbn, Nat.lt_succ_of_lt direct⟩ = 0 := by
        rw [Dinode.addr, dif_pos direct] at empty
        exact BitVec.eq_of_toNat_eq empty
      have stored : ((din.setAddr ⟨fbn, Nat.lt_succ_of_lt direct⟩ st.freeblock).addrs
          ⟨fbn, Nat.lt_succ_of_lt direct⟩).toNat = st.freeblock := by
        have limit : fsSize < 2 ^ 32 := by decide
        simp only [Dinode.setAddr, update_self]
        exact Fs.toNat_ofNat (by omega)
      rw [dif_pos direct]
      rw [if_pos word]
      apply meets_bind.mpr
      apply meets_takeBlock.mpr
      apply meets_pure.mpr
      by_cases high : st.freeblock < fsSize
      · left
        refine ⟨grows_direct unused inode direct high, ?_⟩
        rw [Dinode.addr, dif_pos direct, stored]
      · right
        refine ⟨by omega, unused.length, ?_⟩
        rw [Short, required, if_neg (by omega)]
        omega
    · obtain ⟨j, isCount⟩ : ∃ j, fbn = nDirect + j := ⟨fbn - nDirect, by omega⟩
      have inBlock : j < nIndirect := by
        unfold maxFile at below
        omega
      have isJ : fbn - nDirect = j := by omega
      rw [dif_neg direct, isJ]
      by_cases none : din.indirect = 0
      · have word : din.addrs (Fin.last nDirect) = 0 := BitVec.eq_of_toNat_eq none
        rw [if_pos word]
        apply meets_bind.mpr
        apply meets_takeBlock.mpr
        apply meets_bind.mpr
        apply meets_pure.mpr
        have limit : fsSize < 2 ^ 32 := by decide
        have start : 0 < nmeta := by decide
        have low := unused.low
        have isIndirect : (din.setAddr (Fin.last nDirect) st.freeblock).indirect = st.freeblock :=
          Fs.indirect_setIndirect (by omega)
        have without : indirects din = 0 := if_pos none
        by_cases high : st.freeblock < fsSize
        · have grown := grows_indirect unused inode none high
          apply (mapEntry_meets grown.1.unused (grown.2.growing inode) isCount inBlock
            (by omega)).mono
          rintro result st' (⟨⟨takes, fills⟩, isAddr⟩ | ⟨isEnd, length, full⟩)
          · refine Or.inl ⟨⟨grown.1.trans takes, ?_⟩, isAddr⟩
            refine ⟨{ grown.2.trans fills.toExtends with bytes := fun i small => ?_ },
              by omega, by omega, by omega⟩
            have before := grown.2.bytes i small
            simp only [kernel_inode, kernel_disk] at before
            rw [fills.bytes i small, before]
          · refine Or.inr ⟨isEnd, length, ?_⟩
            have last : st.freeblock + 1 = fsSize := full
            rw [Short, required, if_pos (by omega)]
            omega
        · apply meets_bind.mpr
          have isSector : sector (((din.setAddr (Fin.last nDirect) st.freeblock).addrs
              (Fin.last nDirect)).toNat) = fsSize := by
            have isEnd : st.freeblock = fsSize := by omega
            have word : ((din.setAddr (Fin.last nDirect) st.freeblock).addrs
              (Fin.last nDirect)).toNat = st.freeblock := isIndirect
            rw [word, isEnd, sector_fsSize]
          refine rsect_stops ?_ ⟨rfl, ?_⟩
          · rw [isSector]
            exact le_of_eq unused.length
          · rw [Short, required, if_pos (by omega)]
            omega
      · rw [if_neg (Fs.last_ne_zero none)]
        apply meets_bind.mpr
        apply meets_pure.mpr
        apply (mapEntry_meets unused inode isCount inBlock none).mono
        rintro result st' (good | ⟨isEnd, length, full⟩)
        · exact Or.inl good
        · refine Or.inr ⟨isEnd, length, ?_⟩
          rw [Short, required, if_pos (by omega), indirects, if_neg none, full]
          omega

theorem appendBlock_meets {off : Nat} {chunk : List UInt8} (next : off / bSize ≤ count)
    (below : off / bSize < maxFile) (fits : off % bSize + chunk.length ≤ bSize) :
    Meets (do
        let (din, x) ← mapBlock din (off / bSize)
        let buf ← rsect x
        wsect x (patch buf (off - off / bSize * bSize) chunk)
        return din) st
      (fun din' st' => Grows inum count (max count (off / bSize + 1))
        (patch (byteAt st.mapped din) off chunk) st din st' din')
      (fun stop => stop = .exit "read" ∧ Short st count din (max count (off / bSize + 1))) := by
  have behind : sb.bmapstart < nmeta := by decide
  have start : off - off / bSize * bSize = off % bSize := by
    simp only [bSize]
    omega
  rw [start]
  apply Meets.bind (mapBlock_meets unused inode next below)
  rintro ⟨din', x⟩ st' (⟨⟨takes, fills⟩, isAddr⟩ | ⟨isEnd, length, short⟩)
  · have now := fills.growing inode
    have current : off / bSize < max count (off / bSize + 1) := by omega
    have owns := now.own_data below ((now.mapped.2 _ below).mpr current)
    simp only [kernel_inode, kernel_disk, ← isAddr] at owns
    obtain ⟨low, high⟩ := owned_taken now.sound owns
    have bound := takes.unused.high
    have isSector : sector x = x := sector_of_lt (by omega)
    apply meets_bind.mpr
    apply rsect_meets (by rw [isSector, takes.unused.length]; omega)
    apply meets_bind.mpr
    apply meets_wsect.mpr
    apply meets_pure.mpr
    refine ⟨takes.trans (takes.unused.wsect high _), ?_⟩
    have stored := Fs.fills_patch now current fits []
    simp only [kernel_inode, kernel_disk, ← isAddr] at stored
    have disk : update st'.mapped x (patch (st'.mapped x) (off % bSize) chunk) =
        (st'.wrote x (patch (st'.disk (sector x)) (off % bSize) chunk)).mapped := by
      rw [mapped_wrote low (by omega), mapped_other (by omega), isSector]
    rw [disk] at stored
    apply (fills.trans stored).reads
    intro i small
    have before := fills.bytes i small
    exact Fs.patch_congr before chunk
  · dsimp only at isEnd ⊢
    apply meets_bind.mpr
    refine rsect_stops ?_ ⟨rfl, short⟩
    rw [isEnd, sector_fsSize]
    exact le_of_eq length

end Map

/-! ## The loop of `iappend` -/

theorem iappendLoop_nil (turns off : Nat) (din : Dinode) :
    iappendLoop turns din off [] = pure (din, off) := by
  cases turns <;> rfl

theorem iappendLoop_succ {turns off n1 : Nat} {din : Dinode} {p : List UInt8} (some : p ≠ [])
    (isN1 : min p.length ((off / bSize + 1) * bSize - off) = n1) (below : off / bSize < maxFile) :
    iappendLoop (turns + 1) din off p = ((do
      let (din, x) ← mapBlock din (off / bSize)
      let buf ← rsect x
      wsect x (patch buf (off - off / bSize * bSize) (p.take n1))
      return din) >>= fun din => iappendLoop turns din (off + n1) (p.drop n1)) := by
  subst isN1
  simp only [bind_assoc, pure_bind]
  cases p with
  | nil => exact absurd rfl some
  | cons first rest =>
    rw [iappendLoop, if_pos below]
    simp

theorem Grows.short {st st' : State} {inum count count' final : Nat} {din din' : Dinode}
    {content : Nat → UInt8} (grows : Grows inum count count' content st din st' din')
    (reached : count' ≤ final) (short : Short st' count' din' final) :
    Short st count din final := by
  have conserved := grows.2.conserved
  have same := grows.2.required_eq reached
  simp only [kernel_inode, kernel_disk, kernel_sb, mapped_freeBlocks] at conserved same
  unfold Short at short ⊢
  omega

theorem iappendLoop_meets {inum : Nat} : ∀ (turns : Nat) {off count : Nat} {p : List UInt8}
    {din : Dinode} {st : State}, Unused st → Growing (st.kernel inum din) firstSlot count →
    p.length ≤ turns → off ≤ count * bSize →
    Meets (iappendLoop turns din off p) st
      (fun result st' => result.2 = off + p.length ∧
        Grows inum count (max count (blocksOf (off + p.length)))
          (patch (byteAt st.mapped din) off p) st din st' result.1)
      (fun stop =>
        (stop = .assertion "fbn < MAXFILE" ∧ maxFile * bSize < off + p.length) ∨
        (stop = .exit "read" ∧
          Short st count din (max count (blocksOf (off + p.length))))) := by
  intro turns
  have done : ∀ {turns off count din stops} {st : State}, Unused st →
      Growing (st.kernel inum din) firstSlot count → off ≤ count * bSize →
      Meets (iappendLoop turns din off []) st
        (fun result st' => result.2 = off + 0 ∧
          Grows inum count (max count (blocksOf (off + 0)))
            (patch (byteAt st.mapped din) off []) st din st' result.1) stops := by
    intro turns off count din stops st unused inode started
    have refl := Fs.Fills.refl inode
    rw [iappendLoop_nil, Nat.add_zero, max_eq_left (Fs.blocksOf_le.mpr started), Fs.patch_nil]
    exact ⟨rfl, Takes.refl unused, refl⟩
  induction turns with
  | zero =>
    intro off count p din st unused inode short started
    obtain rfl := List.eq_nil_of_length_eq_zero (Nat.le_zero.mp short)
    exact done unused inode started
  | succ turns ih =>
    intro off count p din st unused inode short started
    by_cases some : p = []
    · rw [some]
      exact done unused inode started
    · have positive : 0 < p.length := List.length_pos_iff.mpr some
      by_cases below : off / bSize < maxFile
      · obtain ⟨n1, isN1⟩ : ∃ n1, min p.length ((off / bSize + 1) * bSize - off) = n1 :=
          ⟨_, rfl⟩
        have arithmetic : off / bSize ≤ count ∧ 0 < n1 ∧ n1 ≤ p.length ∧
            off % bSize + n1 ≤ bSize ∧ off + n1 ≤ (off / bSize + 1) * bSize ∧
            off / bSize + 1 ≤ blocksOf (off + p.length) := by
          simp only [bSize, blocksOf] at started isN1 ⊢
          omega
        obtain ⟨next, moved, notMore, inBlock, covered, reached⟩ := arithmetic
        rw [iappendLoop_succ some isN1 below]
        apply Resumption.Meets.bind
        · apply (appendBlock_meets unused inode next below
            (by rwa [List.length_take_of_le notMore])).imp
          · intro din' st' result
            exact result
          · intro stop result
            refine Or.inr ⟨result.1, lt_of_lt_of_le result.2 (Fs.required_mono _ ?_)⟩
            omega
        · intro din' st' stored
          have length : off + n1 + (p.drop n1).length = off + p.length := by
            rw [List.length_drop]
            omega
          have blocks : max (max count (off / bSize + 1)) (blocksOf (off + p.length)) =
              max count (blocksOf (off + p.length)) := by
            omega
          have continued : off + n1 ≤ max count (off / bSize + 1) * bSize :=
            covered.trans (Nat.mul_le_mul_right _ (le_max_right _ _))
          have rest : Meets (iappendLoop turns din' (off + n1) (p.drop n1)) st' _ _ :=
            ih stored.1.unused (stored.2.growing inode) (by rw [List.length_drop]; omega)
              continued
          rw [length, blocks] at rest
          apply rest.imp
          · intro result st'' final
            refine ⟨final.1, stored.1.trans final.2.1, ?_⟩
            apply (stored.2.trans final.2.2).reads
            intro i small
            have before := stored.2.bytes i small
            simp only [kernel_inode, kernel_disk] at before
            rw [Fs.patch_congr before, Fs.patch_take_drop notMore]
          · rintro stop (tooLong | ⟨isExit, short⟩)
            · exact Or.inl tooLong
            · exact Or.inr ⟨isExit, stored.short (by omega) short⟩
      · have asserts : iappendLoop (turns + 1) din off p =
            Task.halt (.assertion "fbn < MAXFILE") := by
          cases p with
          | nil => exact absurd rfl some
          | cons first rest =>
            rw [iappendLoop, if_neg below]
            simp
        rw [asserts]
        apply meets_halt.mpr
        have behindEnd : maxFile * bSize ≤ off :=
          (Nat.le_div_iff_mul_le (by decide)).mp (Nat.le_of_not_lt below)
        have tooLong : maxFile * bSize < off + p.length := by omega
        exact Or.inl (And.intro rfl tooLong)

/-! ## `iappend` -/

def State.inoded (st : State) (inum : Nat) (ip : Dinode) : State :=
  { st.wrote (sb.iblock inum)
      (ip.store (inum % ipb * Fs.dinodeSize) (st.disk (sector (sb.iblock inum)))) with
    inodeSectors := st.inodeSectors ++ [sb.iblock inum]
    latest := update st.latest inum ip }

section Inodes

variable {st : State} {inum : Nat} {stops : Stop → Prop}

theorem winode_meets {ip : Dinode} {post : Unit → State → Prop}
    (inFile : sector (sb.iblock inum) < st.length) (holds : post () (st.inoded inum ip)) :
    Meets (winode inum ip) st post stops := by
  apply meets_bind.mpr
  exact rsect_meets inFile holds

theorem rinode_meets {post : Dinode → State → Prop} (inFile : sector (sb.iblock inum) < st.length)
    (holds : post (Dinode.load (st.disk (sector (sb.iblock inum)))
      (inum % ipb * Fs.dinodeSize)) st) :
    Meets (rinode inum) st post stops := by
  apply meets_bind.mpr
  exact rsect_meets inFile holds

theorem iblock_range (inTable : inum < sb.slots) :
    1 < sb.iblock inum ∧ sb.iblock inum < sb.bmapstart ∧
      sector (sb.iblock inum) = sb.iblock inum := by
  have low : sb.inodestart ≤ sb.iblock inum := Fs.inodestart_le_iblock
  have high := Fs.iblock_lt inTable
  have first : 1 < sb.inodestart := by decide
  have last : sb.bmapstart < fsSize := by decide
  exact ⟨by omega, high, sector_of_lt (by omega)⟩

theorem mapped_dinodeAt (inTable : inum < sb.slots) :
    dinodeAt sb st.mapped inum = dinodeAt sb st.disk inum := by
  have range := iblock_range inTable
  apply Fs.dinodeAt_congr
  exact mapped_other (by omega)

/-- `winode` within the inode blocks puts the inode on the disk. -/
theorem mapped_inoded (inTable : inum < sb.slots) (ip : Dinode) :
    (st.inoded inum ip).mapped = Fs.putDinode sb st.mapped inum ip := by
  have range := iblock_range inTable
  unfold State.inoded State.wrote State.mapped Fs.putDinode
  rw [range.2.2, update_comm (by omega)]
  congr 2
  rw [update_of_ne (by omega)]

theorem Unused.inoded (unused : Unused st) (inTable : inum < sb.slots) (ip : Dinode) :
    Unused (st.inoded inum ip) where
  length := by
    have range := iblock_range inTable
    have last : sb.bmapstart < fsSize := by decide
    unfold State.inoded State.wrote
    rw [range.2.2, unused.length]
    exact max_eq_left (by omega)
  low := unused.low
  high := unused.high
  zero := by
    intro b above small
    have range := iblock_range inTable
    have low := unused.low
    have behind : sb.bmapstart < nmeta := by decide
    unfold State.inoded State.wrote at above ⊢
    dsimp only at above ⊢
    rw [range.2.2, update_of_ne (by omega)]
    exact unused.zero b above small

end Inodes

/-- From `st` to `st'` the bytes `p` have been appended to inode `inum`. -/
structure Appended (inum : Nat) (p : List UInt8) (st st' : State) : Prop where
  unused : Unused st'
  wrote : Wrote firstSlot ((dinodeAt sb st.mapped inum).size.toNat + p.length)
    (patch (byteAt st.mapped (dinodeAt sb st.mapped inum))
      (dinodeAt sb st.mapped inum).size.toNat p)
    (st.kernel inum (dinodeAt sb st.mapped inum))
    (st'.kernel inum (dinodeAt sb st'.mapped inum))
  freeinode : st'.freeinode = st.freeinode
  allocated : st'.allocated = st.allocated
  inodeSectors : st'.inodeSectors = st.inodeSectors ++ [sb.iblock inum]
  latest : st'.latest = update st.latest inum (dinodeAt sb st'.mapped inum)
  grows : st.freeblock ≤ st'.freeblock
  handed : st'.handed = st.handed ++ List.range' st.freeblock (st'.freeblock - st.freeblock)
  /-- An indirect block is taken only if it is needed. -/
  indirect : blocksOf ((dinodeAt sb st.mapped inum).size.toNat + p.length) ≤ nDirect →
    (dinodeAt sb st'.mapped inum).indirect = (dinodeAt sb st.mapped inum).indirect
  /-- The inode has taken the blocks that were taken. -/
  conserved : (fsSize - st'.freeblock) +
      (blocksOf ((dinodeAt sb st.mapped inum).size.toNat + p.length) +
        indirects (dinodeAt sb st'.mapped inum)) =
    (fsSize - st.freeblock) +
      (blocksOf (dinodeAt sb st.mapped inum).size.toNat + indirects (dinodeAt sb st.mapped inum))

section Append

variable {st : State} {inum : Nat} {p : List UInt8} (unused : Unused st)
  (consistent : ∀ inum din, Consistent (st.kernel inum din))
  (live : Live sb (dinodeAt sb st.mapped) inum)

include unused consistent live

/-- `iappend` appends to an allocated inode, until the file or the image is full. -/
theorem iappend_meets :
    Meets (iappend inum p) st
      (fun _ st' => Appended inum p st st')
      (fun stop =>
        (stop = .assertion "fbn < MAXFILE" ∧
          maxFile * bSize < (dinodeAt sb st.mapped inum).size.toNat + p.length) ∨
        (stop = .exit "read" ∧
          Short st (blocksOf (dinodeAt sb st.mapped inum).size.toNat) (dinodeAt sb st.mapped inum)
            (blocksOf ((dinodeAt sb st.mapped inum).size.toNat + p.length)))) := by
  have range := iblock_range live.1
  have last : sb.bmapstart < fsSize := by decide
  obtain ⟨din, isDin⟩ : ∃ din, dinodeAt sb st.mapped inum = din := ⟨_, rfl⟩
  have loadedDin : Dinode.load (st.disk (sector (sb.iblock inum))) (inum % ipb * Fs.dinodeSize) =
      din := by
    rw [← isDin, mapped_dinodeAt live.1, range.2.2]
    rfl
  have loaded : Loaded (st.kernel inum din) firstSlot := by
    constructor
    · simpa using live
    · simpa using isDin.symm
  have start := consistent inum din
  have inode := start.growing loaded
  rw [kernel_inode] at inode
  rw [isDin]
  apply meets_bind.mpr
  apply rinode_meets (by rw [range.2.2, unused.length]; omega)
  rw [loadedDin]
  have within : din.size.toNat ≤ blocksOf din.size.toNat * bSize := Fs.blocksOf_le.mp (le_refl _)
  have blocks : max (blocksOf din.size.toNat) (blocksOf (din.size.toNat + p.length)) =
      blocksOf (din.size.toNat + p.length) := by
    apply max_eq_right
    exact Nat.div_le_div_right (by omega)
  apply Resumption.Meets.bind
  · have looped : Meets (iappendLoop p.length din din.size.toNat p) st _ _ :=
      iappendLoop_meets p.length unused inode (le_refl _) within
    rw [blocks] at looped
    exact looped
  · rintro ⟨din', off⟩ st' ⟨isOff, grows⟩
    subst isOff
    have unusedNow := grows.1.unused
    have limit : maxFile * bSize < 2 ^ 32 := by decide
    have notLong : din.size.toNat + p.length ≤ maxFile * bSize :=
      Fs.blocksOf_le.mp grows.2.mapped.1
    apply winode_meets (by rw [range.2.2, unusedNow.length]; omega)
    obtain ⟨written, isWritten⟩ : ∃ written, { din' with
      size := BitVec.ofNat 32 (din.size.toNat + p.length) } = written := ⟨_, rfl⟩
    rw [isWritten]
    have disk : (st'.inoded inum written).mapped = Fs.putDinode sb st'.mapped inum written :=
      mapped_inoded live.1 _
    have self : dinodeAt sb (st'.inoded inum written).mapped inum = written := by
      rw [disk, Fs.dinodeAt_putDinode]
    have conserved := grows.2.conserved
    simp only [kernel_inode, kernel_disk, kernel_sb, mapped_freeBlocks] at conserved
    constructor
    · exact unusedNow.inoded live.1 _
    · rw [isDin, self]
      have fills := grows.2
      refine Fs.wrote_of_fills start loaded (by simpa using fills) (by omega) rfl rfl rfl ?_ ?_
      · simp [State.kernel, isWritten]
      · simp only [kernel_inode, kernel_disk, isWritten, disk]
        exact Fs.puts_putDinode sb_valid live.1 _ _
    · exact grows.1.freeinode
    · exact grows.1.allocated
    · exact congrArg (· ++ [sb.iblock inum]) grows.1.inodeSectors
    · rw [self]
      exact congrArg (update · inum _) grows.1.latest
    · exact grows.1.grows
    · exact grows.1.handed
    · intro direct
      have same := grows.2.indirect (by rwa [isDin] at direct)
      simp only [kernel_inode] at same
      rw [isDin, self, ← same, ← isWritten]
      rfl
    · have same : indirects written = indirects din' := by
        rw [← isWritten]
        rfl
      rw [isDin, self, same]
      exact conserved

end Append

end Rexv6.Mkfs
