import Rexv6.Fs.Blocks

/-!
Contract: `balloc` and `bmap` keep the free map exact.

Owns: what `balloc` does to the free map and when it runs out, what `bmap` does
for a block that is mapped or the next one after the mapped blocks, and the
relation between two states in which one inode has grown.

Does not own: the bytes that are stored in the blocks, which `Rexv6.Fs.Contents`
follows, and the freeing of blocks.
-/

namespace Rexv6.Fs

open Rexv6.Foundation
open Rexv6.Foundation.Bitmap
open Rexv6.Foundation.LittleEndian
open Rexv6.Foundation.Resumption
open Function (update update_eq_self update_idem update_of_ne update_self)

/-! ## The block layer -/

section Primitive

variable {s : State} {stops : Stop → Prop} {b : Nat}

theorem bread_meets {post : Block → State → Prop} (inRange : b < s.disksize)
    (holds : post (s.disk b) s) : Meets (bread b) s post stops := by
  unfold bread
  rw [Meets, meets_bind, meets_get, if_neg (by omega)]
  exact holds

@[simp] theorem meets_logWrite {data : Block} {post : Unit → State → Prop} :
    Meets (logWrite b data) s post stops ↔
      post () { s with disk := update s.disk b data, logged := s.logged ++ [b] } :=
  Iff.rfl

@[simp] theorem meets_setInode {ip : Slot} {change : Inode → Inode} {post : Unit → State → Prop} :
    Meets (setInode ip change) s post stops ↔
      post () { s with inode := update s.inode ip (change (s.inode ip)) } :=
  Iff.rfl

@[simp] theorem meets_setDin {ip : Slot} {change : Dinode → Dinode} {post : Unit → State → Prop} :
    Meets (setDin ip change) s post stops ↔
      post () { s with
        inode := update s.inode ip
          { s.inode ip with din := change (s.inode ip).din } } :=
  Iff.rfl

end Primitive

/-! ## `balloc` -/

theorem freeBit_some {data : Block} {limit bi : Nat} (found : freeBit data limit = some bi) :
    bi < limit ∧ getBit data bi = false := by
  have member := List.mem_of_find?_eq_some found
  have free := List.find?_some found
  exact ⟨List.mem_range.mp member, by simpa using free⟩

theorem freeBit_none {data : Block} {limit : Nat} (found : freeBit data limit = none) :
    ∀ bi < limit, getBit data bi = true := by
  intro bi below
  have used := List.find?_eq_none.mp found bi (List.mem_range.mpr below)
  simpa using used

def outOfBlocks : Stop := .panic "balloc: out of blocks"

section Balloc

variable {s : State}

def State.afterBalloc (s : State) (b : Nat) : State :=
  { s with disk := allocated s.sb s.disk b, logged := s.logged ++ [s.sb.bblock b, b] }

theorem bzero_meets {b : Nat} {post : Unit → State → Prop} {stops : Stop → Prop}
    (inRange : b < s.disksize)
    (holds : post () { s with disk := update s.disk b fun _ => 0,
                              logged := s.logged ++ [b] }) :
    Meets (bzero b) s post stops := by
  unfold bzero
  rw [Meets, meets_bind]
  exact bread_meets inRange holds

/-- The loop goes over the blocks of the free map: everything below `b` is used. -/
theorem ballocLoop_meets (valid : s.sb.Valid) (disksize : s.sb.size ≤ s.disksize) :
    ∀ turns b, b % bpb = 0 → b < s.sb.size + bpb → s.sb.size + bpb ≤ b + turns * bpb →
      (∀ x < b, x < s.sb.size → s.sb.bit s.disk x = true) →
      Meets (ballocLoop turns b) s
        (fun found s' => found < s.sb.size ∧ s.sb.bit s.disk found = false ∧
          s' = s.afterBalloc found)
        (fun stop => stop = outOfBlocks ∧ ∀ x < s.sb.size, s.sb.bit s.disk x = true) := by
  intro turns
  induction turns with
  | zero =>
    intro b _ started enough _
    omega
  | succ turns ih =>
    intro b aligned _ enough used
    rw [ballocLoop, Meets, meets_bind, meets_get]
    by_cases inRange : b < s.sb.size
    · rw [if_pos inRange, meets_bind]
      have inFront := bblock_lt inRange
      have data := valid.data
      apply bread_meets (by omega)
      have address : ∀ bi < bpb, s.sb.bblock (b + bi) = s.sb.bblock b ∧ (b + bi) % bpb = bi := by
        intro bi below
        simp only [Superblock.bblock, bpb, bSize] at aligned below ⊢
        omega
      cases found : freeBit (s.disk (s.sb.bblock b)) (min bpb (s.sb.size - b)) with
      | none =>
        apply ih
        · simp [aligned]
        · omega
        · rw [Nat.add_mul] at enough
          omega
        · intro x below small
          by_cases before : x < b
          · exact used x before small
          · have isUsed := freeBit_none found (x - b) (by omega)
            have place := address (x - b) (by omega)
            rw [Nat.add_sub_cancel' (by omega)] at place
            rw [Superblock.bit, place.1, place.2]
            exact isUsed
      | some bi =>
        have free := freeBit_some found
        have place := address bi (by omega)
        rw [meets_bind]
        apply meets_logWrite.mpr
        rw [meets_bind]
        apply bzero_meets (by dsimp only; omega)
        refine ⟨by omega, ?_, ?_⟩
        · rw [Superblock.bit, place.1, place.2]
          exact free.2
        · simp [State.afterBalloc, allocated, mark, place]
    · rw [if_neg inRange]
      exact ⟨rfl, fun x small => used x (by omega) small⟩

/-- `balloc` takes a free block, marks and zeroes it; it panics only if there is
none. -/
theorem balloc_meets (valid : s.sb.Valid) (disksize : s.sb.size ≤ s.disksize) :
    Meets balloc s
      (fun b s' => b < s.sb.size ∧ s.sb.bit s.disk b = false ∧ s' = s.afterBalloc b)
      (fun stop => stop = outOfBlocks ∧ freeBlocks s.sb s.disk = 0) := by
  have turns : s.sb.size + bpb ≤ 0 + (s.sb.size / bpb + 2) * bpb := by
    simp only [bpb, bSize]
    omega
  have started : 0 < s.sb.size + bpb := Nat.lt_of_lt_of_le (by decide) (Nat.le_add_left _ _)
  rw [balloc, Meets, meets_bind, meets_get]
  apply (ballocLoop_meets valid disksize _ 0 rfl started turns (fun _ below => by omega)).imp
  · intro b s' result
    exact result
  · intro stop result
    refine ⟨result.1, ?_⟩
    rw [freeBlocks, List.countP_eq_zero]
    intro x member
    simp [result.2 x (List.mem_range.mp member)]

end Balloc

/-! ## Growing one inode -/

/-- The inodes of the disk, with the copy in `ip` in place of its own. -/
def State.view (s : State) (ip : Slot) : Nat → Dinode :=
  update (dinodeAt s.sb s.disk) (s.inode ip).inum (s.inode ip).din

@[simp] theorem State.view_self (s : State) (ip : Slot) :
    s.view ip (s.inode ip).inum = (s.inode ip).din :=
  update_self _ _ _

/-- The inode of `ip` has its first `count` blocks, on a sound disk. -/
structure Growing (s : State) (ip : Slot) (count : Nat) : Prop where
  disksize : s.sb.size ≤ s.disksize
  sound : Sound s.sb s.disk (s.view ip)
  live : Live s.sb (s.view ip) (s.inode ip).inum
  mapped : Mapped s.disk (s.inode ip).din count

namespace Growing

variable {s : State} {ip : Slot} {count bn : Nat} (inode : Growing s ip count)

include inode

theorem own_indirect (nonzero : (s.inode ip).din.indirect ≠ 0) :
    own s.sb s.disk (s.view ip) (.indirect (s.inode ip).inum) =
      some (s.inode ip).din.indirect :=
  own_indirect_iff.mpr ⟨inode.live, by simp, nonzero⟩

theorem own_data (below : bn < maxFile) (nonzero : (s.inode ip).din.addr s.disk bn ≠ 0) :
    own s.sb s.disk (s.view ip) (.data (s.inode ip).inum bn) =
      some ((s.inode ip).din.addr s.disk bn) :=
  own_data_iff.mpr ⟨inode.live, below, by simp, nonzero⟩

theorem addr_next (below : count < maxFile) : (s.inode ip).din.addr s.disk count = 0 := by
  by_contra nonzero
  exact Nat.lt_irrefl _ ((inode.mapped.2 count below).mp nonzero)

end Growing

/-- From `s` to `s'` the inode of `ip` has grown from `count` to `count'` blocks,
and it reads `content` now. -/
structure Extends (ip : Slot) (count count' : Nat) (content : Nat → UInt8) (s s' : State) :
    Prop where
  sb : s'.sb = s.sb
  disksize : s'.disksize = s.disksize
  devsw : s'.devsw = s.devsw
  inode : s'.inode = update s.inode ip
    { s.inode ip with din := { (s.inode ip).din with addrs := (s'.inode ip).din.addrs } }
  /-- The blocks in front of the free map are not written. -/
  metadata : ∀ b < s.sb.bmapstart, s'.disk b = s.disk b
  /-- Nor are the blocks of the other inodes. -/
  others : ∀ place b, place.inum ≠ (s.inode ip).inum →
    own s.sb s.disk (s.view ip) place = some b → s'.disk b = s.disk b
  sound : Sound s'.sb s'.disk (s'.view ip)
  mapped : Mapped s'.disk (s'.inode ip).din count'
  /-- No block is lost. -/
  conserved : freeBlocks s'.sb s'.disk + (count' + indirects (s'.inode ip).din) =
    freeBlocks s.sb s.disk + (count + indirects (s.inode ip).din)
  bytes : ∀ i < maxFile * bSize, byteAt s'.disk (s'.inode ip).din i = content i

section Extends

variable {s s' s'' : State} {ip : Slot} {count count' count'' : Nat}
  {content content' : Nat → UInt8}

namespace Extends

variable (grown : Extends ip count count' content s s')

include grown

theorem inum : (s'.inode ip).inum = (s.inode ip).inum := by
  rw [grown.inode, update_self]

theorem type : (s'.inode ip).din.type = (s.inode ip).din.type := by
  rw [grown.inode, update_self]

theorem size : (s'.inode ip).din.size = (s.inode ip).din.size := by
  rw [grown.inode, update_self]

theorem growing (inode : Growing s ip count) : Growing s' ip count' where
  disksize := by
    rw [grown.sb, grown.disksize]
    exact inode.disksize
  sound := grown.sound
  live := by
    have live := inode.live
    simp only [Live, State.view_self] at live ⊢
    rw [grown.sb, grown.inum, grown.type]
    exact live
  mapped := grown.mapped

theorem inode_other {other : Slot} (different : other ≠ ip) : s'.inode other = s.inode other := by
  rw [grown.inode, update_of_ne different]

theorem dinodeAt_same {inum : Nat} (inRange : inum < s.sb.slots) :
    dinodeAt s'.sb s'.disk inum = dinodeAt s.sb s.disk inum := by
  rw [grown.sb]
  apply dinodeAt_congr
  exact grown.metadata _ (iblock_lt inRange)

theorem view_other {inum : Nat} (inRange : inum < s.sb.slots)
    (different : inum ≠ (s.inode ip).inum) : s'.view ip inum = s.view ip inum := by
  unfold State.view
  rw [grown.inum, update_of_ne different, update_of_ne different,
    grown.dinodeAt_same inRange]

theorem own_other {place : Place} (different : place.inum ≠ (s.inode ip).inum) :
    own s'.sb s'.disk (s'.view ip) place = own s.sb s.disk (s.view ip) place := by
  rw [grown.sb]
  apply own_congr_at
  · intro inRange
    exact .of_eq (grown.view_other inRange different)
  · intro live nonzero
    exact grown.others (.indirect place.inum) _ different
      (own_indirect_iff.mpr ⟨live, rfl, nonzero⟩)

theorem trans (more : Extends ip count' count'' content' s' s'') :
    Extends ip count count'' content' s s'' where
  sb := more.sb.trans grown.sb
  disksize := more.disksize.trans grown.disksize
  devsw := more.devsw.trans grown.devsw
  inode := by
    rw [more.inode, grown.inode]
    simp
  metadata := by
    intro b inFront
    rw [more.metadata b (grown.sb ▸ inFront), grown.metadata b inFront]
  others := by
    intro place b different owns
    have ownsNow := grown.own_other different ▸ owns
    rw [more.others place b (grown.inum ▸ different) ownsNow, grown.others place b different owns]
  sound := more.sound
  mapped := more.mapped
  conserved := more.conserved.trans grown.conserved
  bytes := more.bytes

end Extends

section Attach

variable {b : Nat} (inode : Growing s ip count) (free : s.sb.bit s.disk b = false)
  (inRange : b < s.sb.size)

include inode free inRange

/-- A fresh block goes to a place of the inode in `ip`: on the disk only the
block itself, its bit and the indirect block of the inode can change. -/
theorem extends_attach {disk' : Disk} {din' : Dinode} {logged : List Nat}
    (same : din' = { (s.inode ip).din with addrs := din'.addrs })
    (blocks : ∀ x, x ≠ (s.inode ip).din.indirect ∨ (s.inode ip).din.indirect = 0 →
      disk' x = allocated s.sb s.disk b x)
    (bits : ∀ x < s.sb.size, s.sb.bit disk' x = s.sb.bit (allocated s.sb s.disk b) x)
    (attached : Sound s.sb disk' (update (s.view ip) (s.inode ip).inum din'))
    (mapped : Mapped disk' din' count')
    (counts : count' + indirects din' = count + indirects (s.inode ip).din + 1)
    (addrs : ∀ bn < maxFile, din'.addr disk' bn = (s.inode ip).din.addr s.disk bn ∨
      ((s.inode ip).din.addr s.disk bn = 0 ∧ din'.addr disk' bn = b)) :
    Extends ip count count' (byteAt s.disk (s.inode ip).din) s
      { s with disk := disk'
               inode := update s.inode ip { s.inode ip with din := din' }
               logged := logged } := by
  have sound := inode.sound
  have fresh := sound.fresh free
  have start : s.sb.bmapstart < s.sb.dataStart := bmapstart_lt
  -- An indirect block is a data block that belongs to its inode only.
  have notIndirect : ∀ {x},
      (x = (s.inode ip).din.indirect → (s.inode ip).din.indirect ≠ 0 → False) →
      disk' x = allocated s.sb s.disk b x := by
    intro x other
    apply blocks
    by_cases none : (s.inode ip).din.indirect = 0
    · exact Or.inr none
    · exact Or.inl fun isIndirect => other isIndirect none
  have metadata : ∀ x < s.sb.bmapstart, disk' x = s.disk x := by
    intro x inFront
    rw [notIndirect, allocated_other inRange (Or.inl inFront) (by omega)]
    rintro rfl nonzero
    have data := (sound.range (inode.own_indirect nonzero)).1
    omega
  have ownedBlock : ∀ place x, place ≠ .indirect (s.inode ip).inum →
      own s.sb s.disk (s.view ip) place = some x → disk' x = s.disk x := by
    intro place x different owns
    rw [notIndirect, allocated_other inRange (Or.inr (sound.range owns).1)]
    · rintro rfl
      exact sound.owned.not_held fresh.2 place owns
    · rintro rfl nonzero
      exact different (sound.owned.once owns (inode.own_indirect nonzero))
  have zero : disk' b = fun _ => 0 := by
    rw [notIndirect, allocated_self]
    rintro rfl nonzero
    exact sound.owned.not_held fresh.2 _ (inode.own_indirect nonzero)
  constructor
  · rfl
  · rfl
  · rfl
  · simp only [update_self]
    rw [← same]
  · exact metadata
  · intro place x different owns
    apply ownedBlock place x _ owns
    rintro rfl
    exact different rfl
  · apply attached.congr
    · intro inum inTable
      apply Dinode.Refers.of_eq
      simp only [State.view, update_self, update_idem]
      by_cases isInum : inum = (s.inode ip).inum
      · rw [isInum, update_self, update_self]
      · rw [update_of_ne isInum, update_of_ne isInum]
        exact dinodeAt_congr _ (metadata _ (iblock_lt inTable))
    · intro _ _ _
      rfl
    · intro _ _
      rfl
  · simpa using mapped
  · have taken := freeBlocks_allocated fresh.1 inRange free
    have sameFree : freeBlocks s.sb disk' = freeBlocks s.sb (allocated s.sb s.disk b) := by
      apply List.countP_congr
      intro x member
      rw [bits x (List.mem_range.mp member)]
    simp only [update_self, sameFree]
    omega
  · intro i small
    have below : i / bSize < maxFile := Nat.div_lt_of_lt_mul (by rwa [Nat.mul_comm])
    simp only [update_self]
    apply byteAt_congr
    rcases addrs (i / bSize) below with kept | ⟨unmapped, new⟩
    · refine Or.inl ⟨kept, fun nonzero => ?_⟩
      exact ownedBlock (.data (s.inode ip).inum (i / bSize)) _ (by simp)
        (inode.own_data below nonzero)
    · refine Or.inr ⟨unmapped, ?_⟩
      rw [new, zero]

theorem addr_kept (bn : Nat) :
    (s.inode ip).din.addr (allocated s.sb s.disk b) bn = (s.inode ip).din.addr s.disk bn := by
  simpa using inode.sound.addr_allocated free inRange inode.live bn

theorem extends_direct (direct : count < nDirect) (logged : List Nat) :
    Extends ip count (count + 1) (byteAt s.disk (s.inode ip).din) s
      { s with disk := allocated s.sb s.disk b
               inode := update s.inode ip { s.inode ip with
                 din := (s.inode ip).din.setAddr ⟨count, Nat.lt_succ_of_lt direct⟩ b }
               logged := logged } := by
  have sound := inode.sound
  have bounds := sound.bounds (sound.fresh free).1 inRange
  have below : count < maxFile := Nat.lt_of_lt_of_le direct (Nat.le_add_right _ _)
  have empty := inode.addr_next below
  have kept := addr_kept inode free inRange
  have addr : ∀ bn, ((s.inode ip).din.setAddr ⟨count, Nat.lt_succ_of_lt direct⟩ b).addr
      (allocated s.sb s.disk b) bn = if bn = count then b else (s.inode ip).din.addr s.disk bn := by
    intro bn
    rw [addr_setDirect direct bounds.2, kept]
  apply extends_attach inode free inRange
  · rfl
  · intro _ _
    rfl
  · intro _ _
    rfl
  · simpa using sound.setDirect free inRange inode.live direct (by simpa using empty)
  · exact inode.mapped.succ below bounds.1 addr
  · unfold indirects
    rw [indirect_setDirect direct]
    omega
  · intro bn _
    rw [addr]
    by_cases last : bn = count
    · exact Or.inr ⟨last ▸ empty, if_pos last⟩
    · exact Or.inl (if_neg last)

/-- An indirect block is attached; it maps no block yet. -/
theorem extends_indirect (none : (s.inode ip).din.indirect = 0) (logged : List Nat) :
    Extends ip count count (byteAt s.disk (s.inode ip).din) s
      { s with disk := allocated s.sb s.disk b
               inode := update s.inode ip { s.inode ip with
                 din := (s.inode ip).din.setAddr (Fin.last nDirect) b }
               logged := logged } := by
  have sound := inode.sound
  have bounds := sound.bounds (sound.fresh free).1 inRange
  have kept := addr_kept inode free inRange
  have addr : ∀ bn < maxFile, ((s.inode ip).din.setAddr (Fin.last nDirect) b).addr
      (allocated s.sb s.disk b) bn = (s.inode ip).din.addr s.disk bn := by
    intro bn below
    rw [addr_setIndirect bounds.2 none _ below, kept]
    intro j _
    rw [allocated_self]
    rfl
  apply extends_attach inode free inRange
  · rfl
  · intro _ _
    rfl
  · intro _ _
    rfl
  · simpa using sound.setIndirect free inRange inode.live (by simpa using none)
  · refine ⟨inode.mapped.1, fun bn below => ?_⟩
    rw [addr bn below]
    exact inode.mapped.2 bn below
  · unfold indirects
    rw [indirect_setIndirect bounds.2, if_pos none, if_neg bounds.1]
  · intro bn below
    exact Or.inl (addr bn below)

theorem extends_entry {j : Nat} (isCount : count = nDirect + j) (inBlock : j < nIndirect)
    (nonzero : (s.inode ip).din.indirect ≠ 0) (logged : List Nat) :
    Extends ip count (count + 1) (byteAt s.disk (s.inode ip).din) s
      { s with disk := setEntry (allocated s.sb s.disk b) (s.inode ip).din.indirect j b
               logged := logged } := by
  have sound := inode.sound
  have bounds := sound.bounds (sound.fresh free).1 inRange
  have below : count < maxFile := by
    unfold maxFile
    omega
  have empty := inode.addr_next below
  have kept := addr_kept inode free inRange
  have addr : ∀ bn, (s.inode ip).din.addr
      (setEntry (allocated s.sb s.disk b) (s.inode ip).din.indirect j b) bn =
        if bn = count then b else (s.inode ip).din.addr s.disk bn := by
    intro bn
    rw [addr_setEntry bounds.2 nonzero, kept, isCount]
  have indirectRange := sound.range (inode.own_indirect nonzero)
  have attached : Sound s.sb (setEntry (allocated s.sb s.disk b) (s.inode ip).din.indirect j b)
      (update (s.view ip) (s.inode ip).inum (s.inode ip).din) := by
    have sameView : update (s.view ip) (s.inode ip).inum (s.inode ip).din = s.view ip := by
      simp [State.view]
    rw [sameView]
    simpa using sound.setEntry free inRange inode.live inBlock (by simpa using nonzero)
      (by simpa [← isCount] using empty)
  have sameInode : update s.inode ip { s.inode ip with din := (s.inode ip).din } =
      s.inode := update_eq_self _ _
  have result : Extends ip count (count + 1) (byteAt s.disk (s.inode ip).din) s
      { s with disk := setEntry (allocated s.sb s.disk b) (s.inode ip).din.indirect j b
               inode := update s.inode ip
                 { s.inode ip with din := (s.inode ip).din }
               logged := logged } := by
    apply extends_attach inode free inRange
    · rfl
    · intro x other
      exact setEntry_other (other.resolve_right nonzero)
    · intro x small
      exact bit_update indirectRange.1 small _
    · exact attached
    · exact inode.mapped.succ below bounds.1 addr
    · omega
    · intro bn _
      rw [addr]
      by_cases last : bn = count
      · exact Or.inr ⟨last ▸ empty, if_pos last⟩
      · exact Or.inl (if_neg last)
  rw [sameInode] at result
  exact result

end Attach

/-! ## `bmap` -/

/-- The blocks that an inode with `count'` blocks takes, its indirect block
included, if it had the indirect block of `din` before. -/
def required (count' : Nat) (din : Dinode) : Nat :=
  count' + if nDirect < count' then 1 else indirects din

/-- The inode of `ip` has grown, and only as far as it has to. -/
structure Fills (ip : Slot) (count count' : Nat) (content : Nat → UInt8) (s s' : State) : Prop
    extends Extends ip count count' content s s' where
  grows : count ≤ count'
  still : count' = count → s'.inode = s.inode
  indirect : count' ≤ nDirect → (s'.inode ip).din.indirect = (s.inode ip).din.indirect

theorem Fills.trans (first : Fills ip count count' content s s')
    (second : Fills ip count' count'' content' s' s'') :
    Fills ip count count'' content' s s'' where
  toExtends := first.toExtends.trans second.toExtends
  grows := first.grows.trans second.grows
  still := by
    intro same
    have firstGrows := first.grows
    have secondGrows := second.grows
    rw [second.still (by omega), first.still (by omega)]
  indirect := by
    intro direct
    have secondGrows := second.grows
    rw [second.indirect direct, first.indirect (by omega)]

theorem Extends.reads (grown : Extends ip count count' (byteAt s.disk (s.inode ip).din) s s')
    (more : Extends ip count' count'' (byteAt s'.disk (s'.inode ip).din) s' s'') :
    Extends ip count count'' (byteAt s.disk (s.inode ip).din) s s'' :=
  { grown.trans more with
    bytes := fun i small => (more.bytes i small).trans (grown.bytes i small) }

theorem Fills.refl (inode : Growing s ip count) :
    Fills ip count count (byteAt s.disk (s.inode ip).din) s s where
  sb := rfl
  disksize := rfl
  devsw := rfl
  inode := (update_eq_self _ _).symm
  metadata _ _ := rfl
  others _ _ _ _ := rfl
  sound := inode.sound
  mapped := inode.mapped
  conserved := rfl
  bytes _ _ := rfl
  grows := le_refl _
  still _ := rfl
  indirect _ := rfl

theorem last_ne_zero {d : Dinode} (some : d.indirect ≠ 0) : d.addrs (Fin.last nDirect) ≠ 0 := by
  intro zero
  apply some
  rw [Dinode.indirect, zero]
  rfl

/-- `bmap` of a block that is mapped returns its address. -/
theorem bmap_mapped {bn : Nat} {post : Nat → State → Prop} {stops : Stop → Prop}
    (below : bn < maxFile) (nonzero : (s.inode ip).din.addr s.disk bn ≠ 0)
    (indirect : (s.inode ip).din.indirect ≠ 0 → (s.inode ip).din.indirect < s.disksize)
    (holds : post ((s.inode ip).din.addr s.disk bn) s) : Meets (bmap ip bn) s post stops := by
  rw [bmap, Meets, meets_bind, meets_get]
  unfold Dinode.addr at nonzero holds
  by_cases direct : bn < nDirect
  · simp only [direct, dite_true] at nonzero holds ⊢
    rw [if_neg]
    · exact holds
    · intro zero
      rw [zero] at nonzero
      exact nonzero rfl
  · by_cases none : (s.inode ip).din.indirect = 0
    · simp [direct, none] at nonzero
    · have inIndirect : bn - nDirect < nIndirect := by
        unfold maxFile at below
        omega
      simp only [direct, dite_false, none, if_false] at nonzero holds ⊢
      rw [if_pos inIndirect, if_neg (last_ne_zero none), meets_bind, meets_pure, meets_bind]
      apply bread_meets (indirect none)
      rw [if_neg nonzero]
      exact holds

section Bmap

/-- The disk is full before the inode of `ip` has grown from `count` to `final` blocks. -/
def Full (s : State) (ip : Slot) (count final : Nat) (stop : Stop) : Prop :=
  stop = outOfBlocks ∧ freeBlocks s.sb s.disk + (count + indirects (s.inode ip).din) <
    required final (s.inode ip).din

variable {bn : Nat} (inode : Growing s ip count)

include inode

theorem balloc_then {α : Type} {next : Nat → M α} {post : α → State → Prop} {stops : Stop → Prop}
    (rest : ∀ b < s.sb.size, s.sb.bit s.disk b = false →
      Meets (next b) (s.afterBalloc b) post stops)
    (out : freeBlocks s.sb s.disk = 0 → stops outOfBlocks) :
    Meets (balloc >>= next) s post stops := by
  apply Meets.bind
  · apply (balloc_meets inode.sound.valid inode.disksize).imp
    · intro b after result
      exact result
    · intro stop result
      rw [result.1]
      exact out result.2
  · intro b after result
    rw [result.2.2]
    exact rest b result.1 result.2.1

/-- The last step of `bmap` behind the direct blocks: the entry of the indirect
block is empty. -/
theorem bmap_entry {j : Nat} {stops : Stop → Prop} (isCount : count = nDirect + j)
    (inBlock : j < nIndirect) (nonzero : (s.inode ip).din.indirect ≠ 0)
    (out : freeBlocks s.sb s.disk = 0 → stops outOfBlocks) :
    Meets (do
        let block ← balloc
        let a ← bread (s.inode ip).din.indirect
        logWrite (s.inode ip).din.indirect (setLe a (4 * j) 4 block)
        return block) s
      (fun addr s' => Fills ip count (count + 1) (byteAt s.disk (s.inode ip).din) s s' ∧
        addr = (s'.inode ip).din.addr s'.disk count) stops := by
  have range := inode.sound.range (inode.own_indirect nonzero)
  apply balloc_then inode _ out
  intro b small free
  apply meets_bind.mpr
  refine bread_meets (by exact lt_of_lt_of_le range.2 inode.disksize) ?_
  apply meets_bind.mpr
  apply meets_logWrite.mpr
  have grown := extends_entry inode free small isCount inBlock nonzero
    (s.logged ++ [s.sb.bblock b, b] ++ [(s.inode ip).din.indirect])
  refine ⟨⟨grown, by omega, by omega, fun _ => rfl⟩, ?_⟩
  have bounds := inode.sound.bounds (inode.sound.fresh free).1 small
  have stored : (s.inode ip).din.addr
      (setEntry (allocated s.sb s.disk b) (s.inode ip).din.indirect j b) count = b := by
    rw [addr_setEntry bounds.2 nonzero, if_pos isCount]
  exact stored.symm

theorem bmap_entry_fresh {b j : Nat}
    (grown : Extends ip count count (byteAt s.disk (s.inode ip).din) s s')
    (isB : (s'.inode ip).din.indirect = b) (nonzero : b ≠ 0)
    (isCount : count = nDirect + j) (inBlock : j < nIndirect) :
    Meets (do
        let block ← balloc
        let a ← bread b
        logWrite b (setLe a (4 * j) 4 block)
        return block) s'
      (fun addr s'' => Fills ip count (count + 1) (byteAt s.disk (s.inode ip).din) s s'' ∧
        addr = (s''.inode ip).din.addr s''.disk count)
      (Full s ip count (count + 1)) := by
  have withOne : indirects (s'.inode ip).din = 1 := if_neg (by omega)
  have conserved := grown.conserved
  subst isB
  refine (bmap_entry (grown.growing inode) isCount inBlock nonzero ?_).mono ?_
  · intro full
    refine ⟨rfl, ?_⟩
    rw [required, if_pos (by omega)]
    omega
  · intro addr s'' result
    exact ⟨⟨grown.reads result.1.toExtends, by omega, by omega, by omega⟩, result.2⟩

theorem bmap_meets (next : bn ≤ count) (below : bn < maxFile) :
    Meets (bmap ip bn) s
      (fun addr s' =>
        Fills ip count (max count (bn + 1)) (byteAt s.disk (s.inode ip).din) s s' ∧
          addr = (s'.inode ip).din.addr s'.disk bn)
      (Full s ip count (max count (bn + 1))) := by
  by_cases isMapped : bn < count
  · rw [max_eq_left isMapped]
    apply bmap_mapped below ((inode.mapped.2 bn below).mpr isMapped)
    · intro nonzero
      exact lt_of_lt_of_le (inode.sound.range (inode.own_indirect nonzero)).2 inode.disksize
    · exact ⟨Fills.refl inode, rfl⟩
  · obtain rfl : bn = count := by omega
    rw [max_eq_right (Nat.le_succ bn)]
    have empty := inode.addr_next below
    rw [bmap, Meets, meets_bind, meets_get]
    by_cases direct : bn < nDirect
    · have word : (s.inode ip).din.addrs ⟨bn, Nat.lt_succ_of_lt direct⟩ = 0 := by
        rw [Dinode.addr, dif_pos direct] at empty
        exact BitVec.eq_of_toNat_eq empty
      rw [dif_pos direct, if_pos word]
      apply balloc_then inode
      · intro b small free
        apply meets_bind.mpr
        apply meets_setDin.mpr
        have grown := extends_direct inode free small direct
          (s.logged ++ [s.sb.bblock b, b])
        have bounds := inode.sound.bounds (inode.sound.fresh free).1 small
        refine ⟨⟨grown, by omega, by omega, fun _ => ?_⟩, ?_⟩
        · simpa [State.afterBalloc, Dinode.setAddr] using indirect_setDirect direct
        · have stored : ((s.inode ip).din.setAddr ⟨bn, Nat.lt_succ_of_lt direct⟩ b).addr
              (allocated s.sb s.disk b) bn = b := by
            rw [addr_setDirect direct bounds.2, if_pos rfl]
          simpa [State.afterBalloc, Dinode.setAddr] using stored.symm
      · intro full
        refine ⟨rfl, ?_⟩
        rw [required, if_neg (by omega), full]
        omega
    · obtain ⟨j, isCount⟩ : ∃ j, bn = nDirect + j := ⟨bn - nDirect, by omega⟩
      have inBlock : j < nIndirect := by
        unfold maxFile at below
        omega
      have isJ : bn - nDirect = j := by omega
      rw [dif_neg direct, isJ, if_pos inBlock]
      by_cases none : (s.inode ip).din.indirect = 0
      · have word : (s.inode ip).din.addrs (Fin.last nDirect) = 0 := BitVec.eq_of_toNat_eq none
        rw [if_pos word]
        apply balloc_then inode
        · intro b small free
          apply meets_bind.mpr
          apply meets_setDin.mpr
          have grown := extends_indirect inode free small none
            (s.logged ++ [s.sb.bblock b, b])
          have bounds := inode.sound.bounds (inode.sound.fresh free).1 small
          have zero : entry (allocated s.sb s.disk b b) j = 0 := by
            rw [allocated_self]
            rfl
          apply meets_bind.mpr
          apply meets_pure.mpr
          apply meets_bind.mpr
          refine bread_meets (by exact lt_of_lt_of_le small inode.disksize) ?_
          change Resumption.Meets _ _ (if entry (allocated s.sb s.disk b b) j = 0 then _ else _)
            _ _ _
          rw [if_pos zero]
          refine bmap_entry_fresh inode grown ?_ bounds.1 isCount inBlock
          simpa [State.afterBalloc, Dinode.setAddr] using indirect_setIndirect bounds.2
        · intro full
          refine ⟨rfl, ?_⟩
          rw [required, if_pos (by omega), indirects, if_pos none, full]
          omega
      · have range := inode.sound.range (inode.own_indirect none)
        rw [if_neg (last_ne_zero none)]
        apply meets_bind.mpr
        apply meets_pure.mpr
        apply meets_bind.mpr
        refine bread_meets (by exact lt_of_lt_of_le range.2 inode.disksize) ?_
        have zero : entry (s.disk (s.inode ip).din.indirect) j = 0 := by
          rw [Dinode.addr, dif_neg direct, if_neg none, isJ] at empty
          exact empty
        change Resumption.Meets _ _
          (if entry (s.disk (s.inode ip).din.indirect) j = 0 then _ else _) _ _ _
        rw [if_pos zero]
        apply bmap_entry inode isCount inBlock none
        intro full
        refine ⟨rfl, ?_⟩
        rw [required, if_pos (by omega), indirects, if_neg none, full]
        omega

end Bmap

end Extends

end Rexv6.Fs
