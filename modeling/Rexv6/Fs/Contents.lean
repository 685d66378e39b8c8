import Mathlib.Data.List.GetD
import Rexv6.Foundation.Overwrite
import Rexv6.Fs.Allocation

/-!
Contract: an inode is a byte array for `readi` and `writei`.

Owns: consistency of a disk, the content of an inode as a list of bytes, the
effect of `writei` on the content of every inode, and the bytes that `readi`
returns.

Does not own: devices, for which `readi` and `writei` call the device switch,
and what the bytes of a directory mean.
-/

namespace Rexv6.Fs

open Rexv6.Foundation
open Rexv6.Foundation.Resumption
open Function (update update_eq_self update_of_ne update_self)

/-! ## Patches -/

section Patch

variable {data : Nat → UInt8} {start i : Nat}

theorem patch_congr {data' : Nat → UInt8} (same : data' i = data i) (bytes : List UInt8) :
    patch data' start bytes i = patch data start bytes i := by
  unfold patch
  rw [same]

@[simp] theorem patch_nil : patch data start [] = data := by
  funext i
  simp [patch]

theorem patch_outside {bytes : List UInt8} (outside : i < start ∨ start + bytes.length ≤ i) :
    patch data start bytes i = data i := by
  unfold patch
  by_cases before : start ≤ i
  · rw [if_pos before]
    exact List.getD_eq_default _ _ (by omega)
  · rw [if_neg before]

theorem patch_append (first second : List UInt8) :
    patch (patch data start first) (start + first.length) second =
      patch data start (first ++ second) := by
  funext i
  by_cases before : i < start + first.length
  · rw [patch_outside (Or.inl before)]
    unfold patch
    by_cases inRange : start ≤ i
    · rw [if_pos inRange, if_pos inRange, List.getD_append _ _ _ _ (by omega)]
    · rw [if_neg inRange, if_neg inRange]
  · have outside : patch data start first i = data i := patch_outside (Or.inr (by omega))
    rw [patch, if_pos (by omega), outside, patch, if_pos (by omega),
      List.getD_append_right _ _ _ _ (by omega)]
    congr 1
    omega

theorem patch_take_drop {bytes : List UInt8} {m : Nat} (short : m ≤ bytes.length) :
    patch (patch data start (bytes.take m)) (start + m) (bytes.drop m) =
      patch data start bytes := by
  have joined : patch (patch data start (bytes.take m)) (start + (bytes.take m).length)
      (bytes.drop m) = _ := patch_append _ _
  rwa [List.length_take_of_le short, List.take_append_drop] at joined

end Patch

/-! ## Writing one block -/

section Write

variable {s s' : State} {ip : Slot} {count count' : Nat}

theorem Fills.reads {content content' : Nat → UInt8} (fills : Fills ip count count' content s s')
    (same : ∀ i < maxFile * bSize, content i = content' i) :
    Fills ip count count' content' s s' :=
  { fills with bytes := fun i small => (fills.bytes i small).trans (same i small) }

theorem fills_patch {off : Nat} {chunk : List UInt8} (inode : Growing s ip count)
    (isMapped : off / bSize < count) (fits : off % bSize + chunk.length ≤ bSize)
    (logged : List Nat) :
    Fills ip count count (patch (byteAt s.disk (s.inode ip).din) off chunk) s
      { s with
        disk := update s.disk ((s.inode ip).din.addr s.disk (off / bSize))
          (patch (s.disk ((s.inode ip).din.addr s.disk (off / bSize))) (off % bSize) chunk)
        logged := logged } := by
  have sound := inode.sound
  have mapped := inode.mapped
  have below : off / bSize < maxFile := lt_of_lt_of_le isMapped mapped.1
  have nonzero := (mapped.2 _ below).mpr isMapped
  have owns := inode.own_data below nonzero
  obtain ⟨addr, isAddr⟩ : ∃ addr, (s.inode ip).din.addr s.disk (off / bSize) = addr := ⟨_, rfl⟩
  rw [isAddr] at owns
  have range := sound.range owns
  rw [isAddr] at nonzero ⊢
  have start : s.sb.bmapstart < s.sb.dataStart := bmapstart_lt
  -- No other place holds this block, so no other block changes.
  have other : ∀ {place x}, place ≠ .data (s.inode ip).inum (off / bSize) →
      own s.sb s.disk (s.view ip) place = some x → x ≠ addr := by
    rintro place x different ownsX rfl
    exact different (sound.owned.once ownsX owns)
  have indirect : ∀ inum, Live s.sb (s.view ip) inum → (s.view ip inum).indirect ≠ 0 →
      (s.view ip inum).indirect ≠ addr := by
    intro inum liveInum some
    exact other (by simp) (own_indirect_iff.mpr ⟨liveInum, rfl, some⟩)
  have sameAddr : ∀ bn, (s.inode ip).din.addr (update s.disk addr
      (patch (s.disk addr) (off % bSize) chunk)) bn = (s.inode ip).din.addr s.disk bn := by
    intro bn
    apply addr_congr
    intro some
    exact update_of_ne (other (by simp) (inode.own_indirect some)) _ _
  refine ⟨⟨rfl, rfl, rfl, (update_eq_self _ _).symm, ?_, ?_, ?_, ?_, ?_, ?_⟩,
    le_refl _, fun _ => rfl, fun _ => rfl⟩
  · intro b inFront
    exact update_of_ne (by omega) _ _
  · intro place b different ownsB
    apply update_of_ne
    apply other _ ownsB
    rintro rfl
    exact different rfl
  · apply sound.congr
    · intro inum inTable
      apply Dinode.Refers.of_eq
      unfold State.view
      by_cases isInum : inum = (s.inode ip).inum
      · rw [isInum, update_self, update_self]
      · rw [update_of_ne isInum, update_of_ne isInum]
        apply dinodeAt_congr
        have inFront := iblock_lt inTable
        exact update_of_ne (by dsimp only; omega) _ _
    · intro inum liveInum some
      exact update_of_ne (indirect inum liveInum some) _ _
    · intro x small
      exact bit_update range.1 small _
  · refine ⟨mapped.1, fun bn inRange => ?_⟩
    rw [← mapped.2 bn inRange]
    exact not_congr (by rw [← sameAddr bn])
  · rw [freeBlocks_update range.1]
  · intro i small
    dsimp only
    by_cases sameBlock : i / bSize = off / bSize
    · have before : byteAt s.disk (s.inode ip).din i = s.disk addr (i % bSize) := by
        rw [byteAt, sameBlock, isAddr, if_neg nonzero]
      rw [patch, before, byteAt, sameAddr, sameBlock, isAddr, if_neg nonzero, update_self,
        patch]
      have split := Nat.div_add_mod i bSize
      have splitOff := Nat.div_add_mod off bSize
      rw [sameBlock] at split
      by_cases inside : off ≤ i
      · rw [if_pos inside, if_pos (by omega)]
        congr 1
        omega
      · rw [if_neg inside, if_neg (by omega)]
    · have inFile : i / bSize < maxFile := Nat.div_lt_of_lt_mul (by rwa [Nat.mul_comm])
      have outside : i < off ∨ off + chunk.length ≤ i := by
        simp only [bSize] at fits sameBlock
        omega
      rw [patch_outside outside]
      apply byteAt_congr
      refine Or.inl ⟨sameAddr _, fun some => ?_⟩
      exact update_of_ne (other (by simpa using sameBlock) (inode.own_data inFile some)) _ _

/-! ## The loop of `writei` -/

theorem required_mono {few many : Nat} (din : Dinode) (fewer : few ≤ many) :
    required few din ≤ required many din := by
  have one : indirects din ≤ 1 := by
    unfold indirects
    split <;> omega
  unfold required
  split <;> split <;> omega

/-- The blocks needed in the end are the same from each state on the way. -/
theorem Fills.required_eq {content : Nat → UInt8} (fills : Fills ip count count' content s s')
    {final : Nat} (reached : count' ≤ final) :
    required final (s'.inode ip).din = required final (s.inode ip).din := by
  unfold required
  split
  · rfl
  · rw [indirects, fills.indirect (by omega)]
    rfl

theorem blocksOf_le {stop blocks : Nat} : blocksOf stop ≤ blocks ↔ stop ≤ blocks * bSize := by
  simp only [blocksOf, bSize]
  omega

theorem writeLoop_nil (turns off : Nat) : writeLoop ip turns off [] = pure () := by
  cases turns <;> rfl

/-- A turn of the loop, for `m` bytes. -/
theorem writeLoop_succ {turns off m : Nat} {src : List UInt8} (some : src ≠ [])
    (isM : min src.length (bSize - off % bSize) = m) :
    writeLoop ip (turns + 1) off src = ((do
      let addr ← bmap ip (off / bSize)
      let data ← bread addr
      logWrite addr (patch data (off % bSize) (src.take m))) >>= fun _ =>
        writeLoop ip turns (off + m) (src.drop m)) := by
  subst isM
  simp only [bind_assoc]
  cases src with
  | nil => exact absurd rfl some
  | cons first rest => rfl

/-- One turn of the loop: the block at `off` is mapped and `chunk` stored in it. -/
theorem writeBlock_meets {off : Nat} {chunk : List UInt8} (inode : Growing s ip count)
    (next : off / bSize ≤ count) (below : off / bSize < maxFile)
    (fits : off % bSize + chunk.length ≤ bSize) :
    Meets (do
        let addr ← bmap ip (off / bSize)
        let data ← bread addr
        logWrite addr (patch data (off % bSize) chunk)) s
      (fun _ s' => Fills ip count (max count (off / bSize + 1))
        (patch (byteAt s.disk (s.inode ip).din) off chunk) s s')
      (Full s ip count (max count (off / bSize + 1))) := by
  apply Meets.bind (bmap_meets inode next below)
  rintro _ grown ⟨fills, rfl⟩
  have now := fills.growing inode
  have isMapped : off / bSize < max count (off / bSize + 1) := by omega
  have range := now.sound.range (now.own_data below ((now.mapped.2 _ below).mpr isMapped))
  apply meets_bind.mpr
  refine bread_meets (lt_of_lt_of_le range.2 now.disksize) ?_
  apply meets_logWrite.mpr
  have stored := fills_patch now isMapped fits
    (grown.logged ++ [(grown.inode ip).din.addr grown.disk (off / bSize)])
  apply (fills.trans stored).reads
  intro i small
  exact patch_congr (fills.bytes i small) chunk

/-- The loop writes block after block: each turn maps at most the next block. -/
theorem writeLoop_meets : ∀ (turns : Nat) {off count : Nat} {src : List UInt8} {s : State},
    Growing s ip count → src.length ≤ turns → off ≤ count * bSize →
    off + src.length ≤ maxFile * bSize →
    Meets (writeLoop ip turns off src) s
      (fun _ s' => Fills ip count (max count (blocksOf (off + src.length)))
        (patch (byteAt s.disk (s.inode ip).din) off src) s s')
      (Full s ip count (max count (blocksOf (off + src.length)))) := by
  intro turns
  -- Without bytes nothing happens, whatever turns are left.
  have done : ∀ {turns off count} {s : State}, Growing s ip count → off ≤ count * bSize →
      Meets (writeLoop ip turns off []) s
        (fun _ s' => Fills ip count (max count (blocksOf (off + 0)))
          (patch (byteAt s.disk (s.inode ip).din) off []) s s')
        (Full s ip count (max count (blocksOf (off + 0)))) := by
    intro turns off count s inode started
    rw [writeLoop_nil, Nat.add_zero, max_eq_left (blocksOf_le.mpr started), patch_nil]
    exact Fills.refl inode
  induction turns with
  | zero =>
    intro off count src s inode short started _
    obtain rfl := List.eq_nil_of_length_eq_zero (Nat.le_zero.mp short)
    exact done inode started
  | succ turns ih =>
    intro off count src s inode short started fits
    by_cases some : src = []
    · rw [some]
      exact done inode started
    · have positive : 0 < src.length := List.length_pos_iff.mpr some
      obtain ⟨m, isM⟩ : ∃ m, min src.length (bSize - off % bSize) = m := ⟨_, rfl⟩
      have arithmetic : off / bSize ≤ count ∧ off / bSize < maxFile ∧ 0 < m ∧
          m ≤ src.length ∧ off % bSize + m ≤ bSize ∧ off + m ≤ (off / bSize + 1) * bSize ∧
          off / bSize + 1 ≤ blocksOf (off + src.length) := by
        simp only [bSize, blocksOf] at started fits isM ⊢
        omega
      obtain ⟨next, below, moved, notMore, inBlock, covered, reached⟩ := arithmetic
      rw [writeLoop_succ some isM]
      apply Resumption.Meets.bind
      · apply (writeBlock_meets inode next below (by rwa [List.length_take_of_le notMore])).imp
        · intro _ s' result
          exact result
        · intro stop result
          refine ⟨result.1, lt_of_lt_of_le result.2 (required_mono _ ?_)⟩
          omega
      · intro _ s' stored
        have length : off + m + (src.drop m).length = off + src.length := by
          rw [List.length_drop]
          omega
        have blocks : max (max count (off / bSize + 1)) (blocksOf (off + src.length)) =
            max count (blocksOf (off + src.length)) := by
          omega
        have continued : off + m ≤ max count (off / bSize + 1) * bSize :=
          covered.trans (Nat.mul_le_mul_right _ (le_max_right _ _))
        have rest : Meets (writeLoop ip turns (off + m) (src.drop m)) s' _ _ :=
          ih (stored.growing inode) (by rw [List.length_drop]; omega) continued (by omega)
        rw [length, blocks] at rest
        apply rest.imp
        · intro _ s'' result
          apply (stored.trans result).reads
          intro i small
          rw [patch_congr (stored.bytes i small), patch_take_drop notMore]
        · intro stop result
          refine ⟨result.1, ?_⟩
          rw [← stored.conserved, ← stored.required_eq (by omega)]
          exact result.2

end Write

/-! ## Consistency -/

/-- A consistent disk: the superblock is loaded, the free map is exact, and each
inode maps exactly the blocks below its size. -/
structure Consistent (s : State) : Prop where
  disksize : s.sb.size ≤ s.disksize
  loaded : Superblock.load (s.disk 1) = s.sb
  sound : Sound s.sb s.disk (dinodeAt s.sb s.disk)
  mapped : ∀ inum, Live s.sb (dinodeAt s.sb s.disk) inum →
    Mapped s.disk (dinodeAt s.sb s.disk inum) (blocksOf (dinodeAt s.sb s.disk inum).size.toNat)

structure Loaded (s : State) (ip : Slot) : Prop where
  live : Live s.sb (dinodeAt s.sb s.disk) (s.inode ip).inum
  copy : (s.inode ip).din = dinodeAt s.sb s.disk (s.inode ip).inum

theorem Loaded.view {s : State} {ip : Slot} (loaded : Loaded s ip) :
    s.view ip = dinodeAt s.sb s.disk := by
  unfold State.view
  rw [loaded.copy, update_eq_self]

theorem Consistent.growing {s : State} {ip : Slot} (consistent : Consistent s)
    (loaded : Loaded s ip) : Growing s ip (blocksOf (s.inode ip).din.size.toNat) where
  disksize := consistent.disksize
  sound := loaded.view ▸ consistent.sound
  live := loaded.view ▸ loaded.live
  mapped := by
    rw [loaded.copy]
    exact consistent.mapped _ loaded.live

def content (s : State) (inum : Nat) : List UInt8 :=
  (List.range (dinodeAt s.sb s.disk inum).size.toNat).map
    (byteAt s.disk (dinodeAt s.sb s.disk inum))

section Consistent

variable {s s' : State} {ip : Slot}

theorem content_length (s : State) (inum : Nat) :
    (content s inum).length = (dinodeAt s.sb s.disk inum).size.toNat := by
  simp [content]

theorem content_getElem? (s : State) (inum i : Nat) :
    (content s inum)[i]? = if i < (dinodeAt s.sb s.disk inum).size.toNat then
      some (byteAt s.disk (dinodeAt s.sb s.disk inum) i) else none := by
  by_cases inside : i < (dinodeAt s.sb s.disk inum).size.toNat
  · simp [content, inside]
  · simp [content, inside]

theorem content_congr {inum : Nat}
    (size : (dinodeAt s'.sb s'.disk inum).size = (dinodeAt s.sb s.disk inum).size)
    (bytes : ∀ i < (dinodeAt s.sb s.disk inum).size.toNat,
      byteAt s'.disk (dinodeAt s'.sb s'.disk inum) i =
        byteAt s.disk (dinodeAt s.sb s.disk inum) i) :
    content s' inum = content s inum := by
  unfold content
  rw [size]
  apply List.map_congr_left
  intro i member
  exact bytes i (List.mem_range.mp member)

theorem Mapped.size_le {disk : Disk} {d : Dinode} {size : Nat}
    (mapped : Mapped disk d (blocksOf size)) : size ≤ maxFile * bSize :=
  blocksOf_le.mp mapped.1

def State.afterIupdate (s : State) (ip : Slot) : State :=
  { s with
    disk := putDinode s.sb s.disk (s.inode ip).inum (s.inode ip).din
    logged := s.logged ++ [s.sb.iblock (s.inode ip).inum] }

theorem iupdate_meets {post : Unit → State → Prop} {stops : Stop → Prop}
    (inRange : s.sb.iblock (s.inode ip).inum < s.disksize)
    (holds : post () (s.afterIupdate ip)) : Meets (iupdate ip) s post stops := by
  rw [iupdate, Meets, meets_bind, meets_get, meets_bind]
  exact bread_meets inRange holds

/-- From `s` to `s'` the inode of `ip` has been written: it has `size` bytes now
and reads `bytes`, and everything else is as it was. -/
structure Wrote (ip : Slot) (size : Nat) (bytes : Nat → UInt8) (s s' : State) : Prop where
  consistent : Consistent s'
  small : size < 2 ^ 32
  sb : s'.sb = s.sb
  disksize : s'.disksize = s.disksize
  devsw : s'.devsw = s.devsw
  inode : s'.inode = update s.inode ip
    { s.inode ip with din := dinodeAt s'.sb s'.disk (s.inode ip).inum }
  self : dinodeAt s'.sb s'.disk (s.inode ip).inum =
    { (s.inode ip).din with
      size := BitVec.ofNat 32 size
      addrs := (dinodeAt s'.sb s'.disk (s.inode ip).inum).addrs }
  reads : ∀ i < maxFile * bSize,
    byteAt s'.disk (dinodeAt s'.sb s'.disk (s.inode ip).inum) i = bytes i
  table : ∀ inum < s.sb.slots, inum ≠ (s.inode ip).inum →
    dinodeAt s'.sb s'.disk inum = dinodeAt s.sb s.disk inum
  others : ∀ inum, inum ≠ (s.inode ip).inum → Live s.sb (dinodeAt s.sb s.disk) inum →
    ∀ i < maxFile * bSize, byteAt s'.disk (dinodeAt s.sb s.disk inum) i =
      byteAt s.disk (dinodeAt s.sb s.disk inum) i
  conserved : freeBlocks s'.sb s'.disk +
      (blocksOf size + indirects (dinodeAt s'.sb s'.disk (s.inode ip).inum)) =
    freeBlocks s.sb s.disk + (blocksOf (s.inode ip).din.size.toNat + indirects (s.inode ip).din)
  direct : blocksOf size ≤ nDirect →
    indirects (dinodeAt s'.sb s'.disk (s.inode ip).inum) = indirects (s.inode ip).din

section Flush

variable {count count' : Nat} {bytes : Nat → UInt8} {grown : State}

theorem Extends.addr_other (grows : Extends ip count count' bytes s grown)
    {inum : Nat} (different : inum ≠ (s.inode ip).inum)
    (live : Live s.sb (s.view ip) inum) (bn : Nat) :
    (s.view ip inum).addr grown.disk bn = (s.view ip inum).addr s.disk bn := by
  apply addr_congr
  intro nonzero
  exact grows.others (.indirect inum) _ different (own_indirect_iff.mpr ⟨live, rfl, nonzero⟩)

theorem Extends.byteAt_other (grows : Extends ip count count' bytes s grown)
    {inum : Nat} (different : inum ≠ (s.inode ip).inum) (live : Live s.sb (s.view ip) inum)
    {i : Nat} (small : i < maxFile * bSize) :
    byteAt grown.disk (s.view ip inum) i = byteAt s.disk (s.view ip inum) i := by
  have below : i / bSize < maxFile := Nat.div_lt_of_lt_mul (by rwa [Nat.mul_comm])
  apply byteAt_congr
  refine Or.inl ⟨grows.addr_other different live _, fun nonzero => ?_⟩
  exact grows.others (.data inum (i / bSize)) _ different
    (own_data_iff.mpr ⟨live, below, rfl, nonzero⟩)

/-- An allocated inode reads the same on a disk with the same blocks behind the
inodes. -/
theorem Sound.byteAt_same {sb : Superblock} {disk disk' : Disk} {table : Nat → Dinode}
    (sound : Sound sb disk table) (blocks : ∀ b, sb.bmapstart ≤ b → disk' b = disk b)
    {inum : Nat} (live : Live sb table inum) :
    (∀ bn, (table inum).addr disk' bn = (table inum).addr disk bn) ∧
      ∀ i < maxFile * bSize, byteAt disk' (table inum) i = byteAt disk (table inum) i := by
  have behind : ∀ {b}, sb.dataStart ≤ b → disk' b = disk b := by
    intro b data
    exact blocks b (le_trans (le_of_lt bmapstart_lt) data)
  have sameAddr : ∀ bn, (table inum).addr disk' bn = (table inum).addr disk bn := by
    intro bn
    apply addr_congr
    intro nonzero
    exact behind (sound.indirect_range live nonzero).1
  refine ⟨sameAddr, fun i small => ?_⟩
  have below : i / bSize < maxFile := Nat.div_lt_of_lt_mul (by rwa [Nat.mul_comm])
  apply byteAt_congr
  refine Or.inl ⟨sameAddr _, fun nonzero => ?_⟩
  exact behind (sound.addr_range live below nonzero).1

/-- The free map and the indirect blocks lie behind the inodes. -/
theorem Sound.behind {sb : Superblock} {disk disk' : Disk} {table table' : Nat → Dinode}
    (sound : Sound sb disk table) (blocks : ∀ b, sb.bmapstart ≤ b → disk' b = disk b)
    (refers : ∀ inum < sb.slots, (table' inum).Refers (table inum)) : Sound sb disk' table' := by
  apply sound.congr refers
  · intro inum live nonzero
    exact blocks _ (le_trans (le_of_lt bmapstart_lt) (sound.indirect_range live nonzero).1)
  · intro x _
    unfold Superblock.bit
    rw [blocks _ bmapstart_le_bblock]

/-- From `disk` to `disk'` inode `inum` has become `d`, and nothing else has changed. -/
structure Puts (sb : Superblock) (inum : Nat) (d : Dinode) (disk disk' : Disk) : Prop where
  superblock : disk' 1 = disk 1
  blocks : ∀ b, sb.bmapstart ≤ b → disk' b = disk b
  table : dinodeAt sb disk' = update (dinodeAt sb disk) inum d

theorem puts_putDinode {sb : Superblock} {inum : Nat} (valid : sb.Valid)
    (inTable : inum < sb.slots) (disk : Disk) (d : Dinode) :
    Puts sb inum d disk (putDinode sb disk inum d) := by
  have inFront := iblock_lt inTable
  have behind : sb.inodestart ≤ sb.iblock inum := inodestart_le_iblock
  have first := valid.inodes
  refine ⟨putDinode_other _ _ _ (by omega), fun b _ => putDinode_other _ _ _ (by omega), ?_⟩
  funext other
  by_cases same : other = inum
  · rw [same, update_self, dinodeAt_putDinode]
  · rw [update_of_ne same, dinodeAt_putDinode_other _ _ _ same]

theorem byteAt_refers {disk : Disk} {d d' : Dinode} (same : d'.Refers d) (i : Nat) :
    byteAt disk d' i = byteAt disk d i := by
  unfold byteAt
  rw [addr_of_addrs same.2]

/-- An inode is written without a change of blocks: what it refers to is the same
before and after. -/
theorem Consistent.put (consistent : Consistent s) {inum : Nat} {d : Dinode}
    (inTable : inum < s.sb.slots)
    (sameOwn : own s.sb s.disk (update (dinodeAt s.sb s.disk) inum d) =
      own s.sb s.disk (dinodeAt s.sb s.disk))
    (mapped : d.type ≠ 0 → Mapped s.disk d (blocksOf d.size.toNat))
    (sb : s'.sb = s.sb) (disksize : s'.disksize = s.disksize)
    (disk : s'.disk = putDinode s.sb s.disk inum d) : Consistent s' := by
  have puts := puts_putDinode consistent.sound.valid inTable s.disk d
  rw [← disk] at puts
  have sound : Sound s.sb s.disk (update (dinodeAt s.sb s.disk) inum d) :=
    { valid := consistent.sound.valid
      owned := sameOwn ▸ consistent.sound.owned
      metadata := consistent.sound.metadata }
  constructor
  · rw [sb, disksize]
    exact consistent.disksize
  · rw [puts.superblock, sb, consistent.loaded]
  · rw [sb, puts.table]
    exact sound.behind puts.blocks fun _ _ => .refl _
  · intro other live
    rw [sb, puts.table] at live ⊢
    have isMapped : Mapped s.disk (update (dinodeAt s.sb s.disk) inum d other)
        (blocksOf (update (dinodeAt s.sb s.disk) inum d other).size.toNat) := by
      by_cases same : other = inum
      · rw [same] at live ⊢
        have typed := live.2
        rw [update_self] at typed ⊢
        exact mapped typed
      · have typed := live.2
        rw [update_of_ne same] at typed ⊢
        exact consistent.mapped other ⟨live.1, typed⟩
    apply isMapped.congr
    intro bn _
    exact (sound.byteAt_same puts.blocks live).1 bn

theorem content_put (consistent : Consistent s) {inum other : Nat} {d : Dinode}
    (inTable : inum < s.sb.slots) (different : other ≠ inum)
    (live : Live s.sb (dinodeAt s.sb s.disk) other) (sb : s'.sb = s.sb)
    (disk : s'.disk = putDinode s.sb s.disk inum d) : content s' other = content s other := by
  have puts := puts_putDinode consistent.sound.valid inTable s.disk d
  rw [← disk] at puts
  have same : dinodeAt s'.sb s'.disk other = dinodeAt s.sb s.disk other := by
    rw [sb, puts.table, update_of_ne different]
  have sizeLe := (consistent.mapped other live).size_le
  apply content_congr
  · rw [same]
  · intro i inside
    rw [same]
    exact (consistent.sound.byteAt_same puts.blocks live).2 i (by omega)

/-- A grown inode is written back: the disk has `din` for it now, which may
differ in its size from the copy that has grown. -/
theorem wrote_of_fills (consistent : Consistent s) (loaded : Loaded s ip) {size : Nat}
    (grows : Fills ip (blocksOf (s.inode ip).din.size.toNat) (blocksOf size) bytes s grown)
    (fits : size < 2 ^ 32) (sb : s'.sb = s.sb) (disksize : s'.disksize = s.disksize)
    (devsw : s'.devsw = s.devsw)
    (inode : s'.inode = update s.inode ip
      { s.inode ip with din := { (grown.inode ip).din with size := BitVec.ofNat 32 size } })
    (puts : Puts s.sb (s.inode ip).inum { (grown.inode ip).din with size := BitVec.ofNat 32 size }
      grown.disk s'.disk) :
    Wrote ip size bytes s s' := by
  obtain ⟨sound, live⟩ :
      Sound s.sb grown.disk (grown.view ip) ∧ Live s.sb (grown.view ip) (s.inode ip).inum := by
    have now := grows.growing (consistent.growing loaded)
    rw [← grows.sb, ← grows.inum]
    exact ⟨now.sound, now.live⟩
  have selfView : grown.view ip (s.inode ip).inum = (grown.inode ip).din := by
    rw [← grows.inum, State.view_self]
  have self : dinodeAt s.sb s'.disk (s.inode ip).inum =
      { (grown.inode ip).din with size := BitVec.ofNat 32 size } := by
    rw [puts.table, update_self]
  have refers : (dinodeAt s.sb s'.disk (s.inode ip).inum).Refers
      (grown.view ip (s.inode ip).inum) := by
    rw [self, selfView]
    exact ⟨rfl, rfl⟩
  have tableSame : ∀ inum < s.sb.slots, inum ≠ (s.inode ip).inum →
      dinodeAt s.sb s'.disk inum = grown.view ip inum := by
    intro inum inRange different
    have same := grows.dinodeAt_same inRange
    rw [grows.sb] at same
    rw [puts.table, update_of_ne different, grows.view_other inRange different, loaded.view, same]
  have allRefer : ∀ inum < s.sb.slots,
      (dinodeAt s.sb s'.disk inum).Refers (grown.view ip inum) := by
    intro inum inRange
    by_cases same : inum = (s.inode ip).inum
    · rw [same]
      exact refers
    · exact .of_eq (tableSame inum inRange same)
  have readsSelf := sound.byteAt_same puts.blocks live
  have kept : ∀ inum, inum ≠ (s.inode ip).inum → Live s.sb (s.view ip) inum →
      dinodeAt s.sb s'.disk inum = s.view ip inum ∧ Live s.sb (grown.view ip) inum := by
    intro inum different liveInum
    have viewSame := grows.view_other liveInum.1 different
    refine ⟨(tableSame inum liveInum.1 different).trans viewSame, liveInum.1, ?_⟩
    rw [viewSame]
    exact liveInum.2
  constructor
  · constructor
    · rw [sb, disksize]
      exact consistent.disksize
    · have two := consistent.sound.valid.inodes
      have inFront := consistent.sound.valid.bitmap
      rw [puts.superblock, grows.metadata 1 (by omega), consistent.loaded, sb]
    · rw [sb]
      exact sound.behind puts.blocks allRefer
    · intro inum liveInum
      rw [sb] at liveInum ⊢
      by_cases same : inum = (s.inode ip).inum
      · rw [same, self]
        simp only [toNat_ofNat fits]
        apply grows.mapped.congr
        intro bn _
        rw [← self, addr_of_addrs refers.2, readsSelf.1 bn, selfView]
      · have viewSame := grows.view_other liveInum.1 same
        have liveBefore : Live s.sb (s.view ip) inum := by
          refine ⟨liveInum.1, ?_⟩
          rw [← viewSame, ← tableSame inum liveInum.1 same]
          exact liveInum.2
        have keptInum := kept inum same liveBefore
        have mappedBefore := consistent.mapped inum (loaded.view ▸ liveBefore)
        rw [keptInum.1]
        rw [← loaded.view] at mappedBefore
        apply mappedBefore.congr
        intro bn _
        rw [← viewSame, (sound.byteAt_same puts.blocks keptInum.2).1 bn, viewSame]
        exact grows.addr_other same liveBefore bn
  · exact fits
  · exact sb
  · exact disksize
  · exact devsw
  · rw [inode, sb, self]
  · have copied : (grown.inode ip).din =
        { (s.inode ip).din with addrs := (grown.inode ip).din.addrs } := by
      have atIp := congrFun grows.inode ip
      rw [update_self] at atIp
      exact congrArg Inode.din atIp
    rw [sb, self, copied]
  · intro i small
    rw [sb, byteAt_refers refers, readsSelf.2 i small, selfView]
    exact grows.bytes i small
  · intro inum inRange different
    rw [sb, tableSame inum inRange different, grows.view_other inRange different, loaded.view]
  · intro inum different liveInum i small
    rw [← loaded.view] at liveInum ⊢
    have keptInum := kept inum different liveInum
    have viewSame := grows.view_other liveInum.1 different
    rw [← viewSame, (sound.byteAt_same puts.blocks keptInum.2).2 i small, viewSame]
    exact grows.byteAt_other different liveInum small
  · have sameFree : freeBlocks s.sb s'.disk = freeBlocks s.sb grown.disk := by
      unfold freeBlocks Superblock.bit
      simp only [puts.blocks _ bmapstart_le_bblock]
    have conserved := grows.conserved
    rw [grows.sb] at conserved
    rw [sb, sameFree, self]
    exact conserved
  · intro isDirect
    rw [sb, self]
    unfold indirects
    rw [← grows.indirect isDirect]
    rfl

end Flush

/-! ## `writei` -/

theorem blocksOf_max (first second : Nat) :
    blocksOf (max first second) = max (blocksOf first) (blocksOf second) := by
  simp only [blocksOf, bSize]
  omega

section Writei

variable {off : Nat} {src : List UInt8} (consistent : Consistent s) (loaded : Loaded s ip)
  (notDevice : (s.inode ip).din.type ≠ tDev)

include consistent loaded notDevice

theorem writei_meets (inside : off ≤ (s.inode ip).din.size.toNat)
    (fits : off + src.length ≤ maxFile * bSize) :
    Meets (writei ip src off) s
      (fun result s' => result = some src.length ∧
        Wrote ip (max (s.inode ip).din.size.toNat (off + src.length))
          (patch (byteAt s.disk (s.inode ip).din) off src) s s')
      (fun stop => stop = outOfBlocks ∧
        freeBlocks s.sb s.disk +
            (blocksOf (s.inode ip).din.size.toNat + indirects (s.inode ip).din) <
          required (blocksOf (max (s.inode ip).din.size.toNat (off + src.length)))
            (s.inode ip).din) := by
  have limit : maxFile * bSize < 2 ^ 32 := by decide
  have noWrap : (off + src.length) % 2 ^ 32 = off + src.length := Nat.mod_eq_of_lt (by omega)
  have growing := consistent.growing loaded
  rw [writei, Meets, meets_bind, meets_get]
  rw [if_neg notDevice, noWrap, if_neg (by omega), if_neg (by omega), blocksOf_max]
  apply Meets.bind
  · exact writeLoop_meets src.length growing (le_refl _)
      (inside.trans (blocksOf_le.mp (le_refl _))) fits
  · intro _ grown fills
    rw [meets_bind, meets_get]
    rw [← blocksOf_max] at fills
    have inTable := loaded.live.1
    by_cases longer : 0 < src.length ∧ (grown.inode ip).din.size.toNat < off + src.length
    · rw [if_pos longer, meets_bind]
      apply meets_setDin.mpr
      rw [meets_bind]
      have sizeNow : max (s.inode ip).din.size.toNat (off + src.length) = off + src.length := by
        rw [fills.size] at longer
        omega
      have inFront := iblock_lt inTable
      have regions := consistent.sound.valid.data
      have start : s.sb.bmapstart < s.sb.dataStart := bmapstart_lt
      have disksize := consistent.disksize
      apply iupdate_meets
      · simp only [update_self, fills.sb, fills.inum, fills.disksize]
        omega
      · refine ⟨rfl, ?_⟩
        rw [sizeNow] at fills ⊢
        refine wrote_of_fills consistent loaded fills (by omega) fills.sb fills.disksize
          fills.devsw ?_ ?_
        · have atIp := congrFun fills.inode ip
          rw [update_self] at atIp
          funext other
          by_cases isIp : other = ip
          · simp only [State.afterIupdate, isIp, update_self]
            rw [atIp]
          · simp only [State.afterIupdate, update_of_ne isIp]
            exact fills.inode_other isIp
        · rw [← fills.sb, ← fills.inum]
          simp only [State.afterIupdate, update_self]
          exact puts_putDinode (fills.sb ▸ consistent.sound.valid)
            (fills.sb ▸ fills.inum ▸ inTable) _ _
    · rw [if_neg longer]
      have sizeNow : max (s.inode ip).din.size.toNat (off + src.length) =
          (s.inode ip).din.size.toNat := by
        rw [fills.size] at longer
        omega
      refine ⟨rfl, ?_⟩
      rw [sizeNow] at fills ⊢
      have same := fills.still rfl
      have copy : { (grown.inode ip).din with
          size := BitVec.ofNat 32 (s.inode ip).din.size.toNat } = (s.inode ip).din := by
        rw [same]
        simp
      apply wrote_of_fills consistent loaded fills (BitVec.isLt _) fills.sb fills.disksize
        fills.devsw
      · rw [copy, same]
        exact (update_eq_self _ _).symm
      · refine ⟨rfl, fun _ _ => rfl, ?_⟩
        have unchanged := fills.dinodeAt_same inTable
        rw [fills.sb] at unchanged
        rw [copy, loaded.copy, ← unchanged, update_eq_self]

omit consistent loaded in
theorem writei_refuses (small : off < 2 ^ 32) (short : src.length < 2 ^ 32)
    (bad : (s.inode ip).din.size.toNat < off ∨ 2 ^ 32 ≤ off + src.length ∨
      maxFile * bSize < off + src.length) :
    run (writei ip src off) s = .ok (none, s) := by
  have refused : Meets (writei ip src off) s (fun result s' => result = none ∧ s' = s)
      (fun _ => False) := by
    rw [writei, Meets, meets_bind, meets_get]
    dsimp only
    rw [if_neg notDevice]
    by_cases wraps : (s.inode ip).din.size.toNat < off ∨ (off + src.length) % 2 ^ 32 < off
    · rw [if_pos wraps]
      exact ⟨rfl, rfl⟩
    · rw [if_neg wraps, if_pos]
      · exact ⟨rfl, rfl⟩
      · omega
  obtain ⟨result, after, ran, isNone, same⟩ := refused.returns fun _ => id
  rw [run, ran, isNone, same]

end Writei

/-! ## `readi` -/

/-- The bytes up to `stop` can be read: their blocks are mapped and on the disk. -/
structure Readable (s : State) (ip : Slot) (stop : Nat) : Prop where
  limit : stop ≤ maxFile * bSize
  blocks : ∀ bn < blocksOf stop, (s.inode ip).din.addr s.disk bn ≠ 0 ∧
    (s.inode ip).din.addr s.disk bn < s.disksize
  indirect : (s.inode ip).din.indirect ≠ 0 → (s.inode ip).din.indirect < s.disksize

theorem Consistent.readable (consistent : Consistent s) (loaded : Loaded s ip) :
    Readable s ip (s.inode ip).din.size.toNat := by
  have mapped := consistent.mapped _ loaded.live
  have disksize := consistent.disksize
  rw [loaded.copy]
  refine ⟨mapped.size_le, fun bn below => ?_, fun nonzero => ?_⟩
  · have inFile : bn < maxFile := lt_of_lt_of_le below mapped.1
    have nonzero := (mapped.2 bn inFile).mpr below
    have range := consistent.sound.addr_range loaded.live inFile nonzero
    rw [loaded.copy]
    exact ⟨nonzero, by omega⟩
  · rw [loaded.copy] at nonzero ⊢
    have range := consistent.sound.indirect_range loaded.live nonzero
    omega

/-- The loop of `readi` over mapped blocks: the state does not change. -/
theorem readLoop_meets {stop : Nat} (readable : Readable s ip stop) :
    ∀ (turns : Nat) {off left : Nat}, left ≤ turns → off + left ≤ stop →
      Meets (readLoop ip turns off left) s
        (fun bytes s' => s' = s ∧
          bytes = (List.range left).map fun i => byteAt s.disk (s.inode ip).din (off + i))
        (fun _ => False) := by
  intro turns
  induction turns with
  | zero =>
    intro off left enough _
    obtain rfl := Nat.le_zero.mp enough
    exact ⟨rfl, rfl⟩
  | succ turns ih =>
    intro off left enough inside
    cases left with
    | zero => exact ⟨rfl, rfl⟩
    | succ left =>
      have limit := readable.limit
      obtain ⟨m, isM⟩ : ∃ m, min (left + 1) (bSize - off % bSize) = m := ⟨_, rfl⟩
      have arithmetic : off / bSize < maxFile ∧ off / bSize < blocksOf stop ∧ 0 < m ∧
          m ≤ left + 1 ∧ off % bSize + m ≤ bSize := by
        simp only [bSize, blocksOf] at limit isM ⊢
        omega
      obtain ⟨below, isMapped, some, notMore, inBlock⟩ := arithmetic
      obtain ⟨nonzero, onDisk⟩ := readable.blocks _ isMapped
      rw [readLoop, Meets, meets_bind]
      apply bmap_mapped below nonzero readable.indirect
      rw [meets_bind]
      apply bread_meets onDisk
      rw [isM, meets_bind]
      apply (ih (by omega) (by omega)).mono
      intro rest after result
      rw [result.1, result.2]
      refine ⟨rfl, ?_⟩
      have head : slice (s.disk ((s.inode ip).din.addr s.disk (off / bSize))) (off % bSize) m =
          (List.range m).map fun i => byteAt s.disk (s.inode ip).din (off + i) := by
        apply List.map_congr_left
        intro i member
        have inChunk := List.mem_range.mp member
        have block : (off + i) / bSize = off / bSize ∧
            (off + i) % bSize = off % bSize + i := by
          simp only [bSize] at inBlock ⊢
          omega
        rw [byteAt, block.1, block.2, if_neg nonzero]
      have joined : left + 1 = m + (left + 1 - m) := by omega
      nth_rewrite 2 [joined]
      rw [List.range_add, List.map_append, List.map_map]
      congr 2
      funext i
      simp [Nat.add_assoc]

theorem readi_readable {off n stop m : Nat} (readable : Readable s ip stop)
    (notDevice : (s.inode ip).din.type ≠ tDev) (inside : off ≤ (s.inode ip).din.size.toNat)
    (noWrap : off + n < 2 ^ 32) (isM : m = min n ((s.inode ip).din.size.toNat - off))
    (covered : off + m ≤ stop) :
    Meets (readi ip off n) s
      (fun result s' => s' = s ∧
        result = some ((List.range m).map fun i => byteAt s.disk (s.inode ip).din (off + i)))
      (fun _ => False) := by
  rw [readi, Meets, meets_bind, meets_get]
  rw [if_neg notDevice, Nat.mod_eq_of_lt noWrap, if_neg (by omega), meets_bind]
  have count : (if (s.inode ip).din.size.toNat < off + n then
      (s.inode ip).din.size.toNat - off else n) = m := by
    split <;> omega
  rw [count]
  apply (readLoop_meets readable m (le_refl _) covered).mono
  intro bytes after result
  exact ⟨result.1, congrArg some result.2⟩

theorem content_slice (s : State) (inum : Nat) {off n m : Nat}
    (isM : m = min n ((dinodeAt s.sb s.disk inum).size.toNat - off)) :
    ((List.range m).map fun i => byteAt s.disk (dinodeAt s.sb s.disk inum) (off + i)) =
      ((content s inum).drop off).take n := by
  apply List.ext_getElem?
  intro i
  rw [List.getElem?_take, List.getElem?_drop, content_getElem?]
  by_cases inRange : i < m
  · rw [if_pos (by omega), if_pos (by omega)]
    simp [inRange]
  · have outside : (if i < n then if off + i < (dinodeAt s.sb s.disk inum).size.toNat then
        some (byteAt s.disk (dinodeAt s.sb s.disk inum) (off + i)) else none else none) = none := by
      by_cases wanted : i < n
      · rw [if_pos wanted, if_neg (by omega)]
      · rw [if_neg wanted]
    rw [outside]
    simpa using inRange

/-- `readi` within the size of a file returns the bytes of its content and
changes nothing. -/
theorem readi_meets (consistent : Consistent s) (loaded : Loaded s ip)
    (notDevice : (s.inode ip).din.type ≠ tDev) {off n : Nat}
    (inside : off ≤ (s.inode ip).din.size.toNat) (noWrap : off + n < 2 ^ 32) :
    Meets (readi ip off n) s
      (fun result s' => s' = s ∧ result = some (((content s (s.inode ip).inum).drop off).take n))
      (fun _ => False) := by
  apply (readi_readable (consistent.readable loaded) notDevice inside noWrap rfl (by omega)).mono
  intro result after read
  refine ⟨read.1, ?_⟩
  rw [read.2, loaded.copy]
  exact congrArg some (content_slice s _ rfl)

theorem readi_refuses (notDevice : (s.inode ip).din.type ≠ tDev) {off n : Nat}
    (short : n < 2 ^ 32) (bad : (s.inode ip).din.size.toNat < off ∨ 2 ^ 32 ≤ off + n) :
    run (readi ip off n) s = .ok (none, s) := by
  have refused : Meets (readi ip off n) s (fun result s' => result = none ∧ s' = s)
      (fun _ => False) := by
    rw [readi, Meets, meets_bind, meets_get]
    rw [if_neg notDevice, if_pos (by omega)]
    exact ⟨rfl, rfl⟩
  obtain ⟨result, after, ran, isNone, same⟩ := refused.returns fun _ => id
  rw [run, ran, isNone, same]

/-! ## Files are byte arrays -/

/-- There are enough free blocks for the file with inode `din` to reach up to `stop`. -/
def Fits (s : State) (din : Dinode) (stop : Nat) : Prop :=
  required (blocksOf (max din.size.toNat stop)) din ≤
    freeBlocks s.sb s.disk + (blocksOf din.size.toNat + indirects din)

def Enough (s : State) (ip : Slot) (stop : Nat) : Prop := Fits s (s.inode ip).din stop

namespace Wrote

variable {size : Nat} {bytes : Nat → UInt8} (wrote : Wrote ip size bytes s s')

include wrote

theorem loaded (loaded : Loaded s ip) : Loaded s' ip := by
  have slot : s'.inode ip =
      { s.inode ip with din := dinodeAt s'.sb s'.disk (s.inode ip).inum } := by
    rw [wrote.inode, update_self]
  constructor
  · rw [slot]
    refine ⟨wrote.sb ▸ loaded.live.1, ?_⟩
    rw [wrote.self, loaded.copy]
    exact loaded.live.2
  · rw [slot]

theorem content_other {inum : Nat} (different : inum ≠ (s.inode ip).inum)
    (consistent : Consistent s) (live : Live s.sb (dinodeAt s.sb s.disk) inum) :
    content s' inum = content s inum := by
  have same := wrote.table inum live.1 different
  have sizeLe := (consistent.mapped inum live).size_le
  apply content_congr
  · rw [same]
  · intro i inside
    rw [same]
    exact wrote.others inum different live i (by omega)

/-- The content after a write at `off`, within the file or at its end. -/
theorem content_patch {off : Nat} {data : List UInt8} (loaded : Loaded s ip)
    (isSize : size = max (s.inode ip).din.size.toNat (off + data.length))
    (isBytes : bytes = patch (byteAt s.disk (s.inode ip).din) off data)
    (inside : off ≤ (s.inode ip).din.size.toNat) (fits : size ≤ maxFile * bSize) :
    content s' (s.inode ip).inum = overwrite (content s (s.inode ip).inum) off data := by
  have limit : maxFile * bSize < 2 ^ 32 := by decide
  have sizeNow : (dinodeAt s'.sb s'.disk (s.inode ip).inum).size.toNat = size := by
    rw [wrote.self]
    exact toNat_ofNat (by omega)
  have length := content_length s (s.inode ip).inum
  rw [← loaded.copy] at length
  apply List.ext_getElem?
  intro i
  rw [content_getElem?, sizeNow, getElem?_overwrite (by omega), content_getElem?, ← loaded.copy]
  by_cases written : off ≤ i ∧ i < off + data.length
  · rw [if_pos written, if_pos (by omega), wrote.reads i (by omega), isBytes, patch,
      if_pos (by omega), List.getD_eq_getElem?_getD, List.getElem?_eq_getElem (by omega),
      Option.getD_some]
  · rw [if_neg written]
    by_cases isInside : i < (s.inode ip).din.size.toNat
    · rw [if_pos isInside, if_pos (by omega), wrote.reads i (by omega), isBytes,
        patch_outside (by omega)]
    · rw [if_neg isInside, if_neg (by omega)]

end Wrote

/-- Files and directories are byte arrays for `writei` and `readi`. -/
theorem files_are_byte_arrays (consistent : Consistent s) (loaded : Loaded s ip)
    (ordinary : (s.inode ip).din.type = tFile ∨ (s.inode ip).din.type = tDir)
    {off : Nat} (small : off < 2 ^ 32) :
    (∀ data : List UInt8, data.length < 2 ^ 32 →
      if (s.inode ip).din.size.toNat < off ∨ 2 ^ 32 ≤ off + data.length ∨
          maxFile * bSize < off + data.length then
        run (writei ip data off) s = .ok (none, s)
      else
        Enough s ip (off + data.length) →
        ∃ s', run (writei ip data off) s = .ok (some data.length, s') ∧
          content s' (s.inode ip).inum = (content s (s.inode ip).inum).take off ++ data ++
            (content s (s.inode ip).inum).drop (off + data.length) ∧
          (∀ inum < s.sb.slots, inum ≠ (s.inode ip).inum →
            dinodeAt s'.sb s'.disk inum = dinodeAt s.sb s.disk inum ∧
              (Live s.sb (dinodeAt s.sb s.disk) inum → content s' inum = content s inum)) ∧
          Consistent s' ∧ Loaded s' ip) ∧
    (∀ n < 2 ^ 32, off ≤ (s.inode ip).din.size.toNat → off + n < 2 ^ 32 →
      run (readi ip off n) s =
        .ok (some (((content s (s.inode ip).inum).drop off).take n), s)) := by
  have notDevice : (s.inode ip).din.type ≠ tDev := by
    intro isDevice
    rw [isDevice] at ordinary
    revert ordinary
    decide
  constructor
  · intro data short
    by_cases bad : (s.inode ip).din.size.toNat < off ∨ 2 ^ 32 ≤ off + data.length ∨
        maxFile * bSize < off + data.length
    · rw [if_pos bad]
      exact writei_refuses notDevice small short bad
    · rw [if_neg bad]
      intro enough
      have inside : off ≤ (s.inode ip).din.size.toNat := by omega
      have fits : off + data.length ≤ maxFile * bSize := by omega
      have sizeLe := (consistent.growing loaded).mapped.size_le
      obtain ⟨result, s', ran, isLength, wrote⟩ :=
        (writei_meets consistent loaded notDevice inside fits).returns
          fun _ full => absurd full.2 (Nat.not_lt.mpr enough)
      refine ⟨s', ?_, ?_, ?_, wrote.consistent, wrote.loaded loaded⟩
      · rw [run, ran, isLength]
      · exact wrote.content_patch loaded rfl rfl inside (by omega)
      · intro inum inRange different
        exact ⟨wrote.table inum inRange different, wrote.content_other different consistent⟩
  · intro n _ inside noWrap
    obtain ⟨result, s', ran, same, isBytes⟩ :=
      (readi_meets consistent loaded notDevice inside noWrap).returns fun _ => id
    rw [run, ran, same, isBytes]

end Consistent

/-! ## A small disk -/

/-- A disk of ten blocks: one block of inodes, one of the free map, six of data. -/
def small : Superblock :=
  { size := 10
    nblocks := 6
    ninodes := 8
    nlog := 0
    logstart := 2
    inodestart := 2
    bmapstart := 3 }

def emptyFile : Dinode := { Dinode.zero with type := tFile }

def blankDisk : Disk := fun b =>
  if b = 1 then small.store fun _ => 0 else if b = 3 then fun i => if i = 0 then 15 else 0
  else fun _ => 0

/-- The small disk with an empty file, which the first slot has loaded. -/
def smallState : State :=
  { disk := putDinode small blankDisk 1 emptyFile
    disksize := 10
    sb := small
    inode := fun _ => { inum := 1, ref := 1, locked := true, valid := true, din := emptyFile }
    devsw := fun _ => { read := none, write := none }
    logged := [] }

theorem smallState_table {inum : Nat} (inTable : inum < small.slots) :
    dinodeAt small smallState.disk inum = if inum = 1 then emptyFile else Dinode.zero := by
  by_cases one : inum = 1
  · rw [one, if_pos rfl]
    exact dinodeAt_putDinode _ _ _ _
  · rw [if_neg one]
    have block : small.iblock inum = 2 := by
      simp only [Superblock.slots, Superblock.iblock, small, ipb, bSize, dinodeSize] at inTable ⊢
      omega
    have other : dinodeAt small smallState.disk inum = dinodeAt small blankDisk inum :=
      dinodeAt_putDinode_other _ _ _ one
    rw [other, dinodeAt, block]
    rfl

theorem smallState_refers {inum : Nat} (inTable : inum < small.slots) :
    (dinodeAt small smallState.disk inum).addrs = Dinode.zero.addrs := by
  rw [smallState_table inTable]
  split <;> rfl

theorem zero_addr (disk : Disk) (bn : Nat) : Dinode.zero.addr disk bn = 0 := by
  unfold Dinode.addr
  split <;> rfl

theorem smallState_own (place : Place) :
    own small smallState.disk (dinodeAt small smallState.disk) place = none := by
  by_cases inTable : place.inum < small.slots
  · have addrs := smallState_refers inTable
    cases place with
    | data inum bn => exact own_data_none ((addr_of_addrs addrs _ _).trans (zero_addr _ _))
    | indirect inum =>
      have none : (dinodeAt small smallState.disk inum).indirect = 0 :=
        congrArg (fun addrs => (addrs (Fin.last nDirect)).toNat) addrs
      simp [own, none]
  · cases place <;> simp only [Place.inum] at inTable <;> simp [own, Live, inTable]

theorem smallState_sound : Sound small smallState.disk (dinodeAt small smallState.disk) := by
  have bits : ∀ x < 10, small.bit smallState.disk x = decide (x < 4) := by decide +kernel
  have start : small.dataStart = 4 := by decide
  refine ⟨by decide, ⟨?_, ?_⟩, ?_⟩
  · intro left right resource holds
    rw [smallState_own] at holds
    cases holds
  · intro b
    refine iff_of_false ?_ ?_
    · rintro ⟨data, inRange, used⟩
      rw [bits b inRange] at used
      have inFront := of_decide_eq_true used
      omega
    · rintro ⟨place, holds⟩
      rw [smallState_own] at holds
      cases holds
  · intro b inFront
    exact (bits b (by omega)).trans (decide_eq_true inFront)

theorem smallState_mapped {inum : Nat} (inTable : inum < small.slots) :
    Mapped smallState.disk (dinodeAt small smallState.disk inum)
      (blocksOf (dinodeAt small smallState.disk inum).size.toNat) := by
  have size : (dinodeAt small smallState.disk inum).size.toNat = 0 := by
    rw [smallState_table inTable]
    split <;> rfl
  rw [size]
  refine ⟨by decide, fun bn _ => ?_⟩
  rw [addr_of_addrs (smallState_refers inTable), zero_addr]
  simp [blocksOf, bSize]

theorem smallState_consistent : Consistent smallState where
  disksize := by decide
  loaded := by decide +kernel
  sound := smallState_sound
  mapped _ live := smallState_mapped live.1

def firstSlot : Slot := ⟨0, by decide⟩

theorem smallState_file : dinodeAt small smallState.disk 1 = emptyFile :=
  smallState_table (by decide)

theorem smallState_loaded : Loaded smallState firstSlot where
  live := ⟨by decide, fun free => by
    have typed := congrArg Dinode.type smallState_file
    exact absurd (typed.symm.trans free) (by decide)⟩
  copy := smallState_file.symm

theorem smallState_enough : Enough smallState firstSlot 2 := by
  have free : freeBlocks small smallState.disk = 6 := by decide +kernel
  exact le_trans (by decide) (le_of_eq (congrArg (· + (blocksOf 0 + 0)) free.symm))

/-- A write of two bytes into the empty file. -/
theorem files_are_byte_arrays_two_bytes :
    ∃ s', run (writei firstSlot [7, 9] 0) smallState = .ok (some 2, s') ∧
      content s' 1 = [7, 9] ∧ Consistent s' := by
  have written := (files_are_byte_arrays smallState_consistent smallState_loaded (Or.inl rfl)
    (show 0 < 2 ^ 32 by decide)).1 [7, 9] (by decide)
  obtain ⟨s', ran, isContent, _, consistent, _⟩ := written smallState_enough
  refine ⟨s', ran, isContent.trans ?_, consistent⟩
  rfl

/-- A read from byte 1 of a file of two bytes, of so many bytes that `off + n`
wraps, returns -1. -/
theorem readi_wrap_refused : ∃ s : State, Consistent s ∧ Loaded s firstSlot ∧
    (s.inode firstSlot).din.type = tFile ∧ 1 ≤ (s.inode firstSlot).din.size.toNat ∧
      run (readi firstSlot 1 (2 ^ 32 - 1)) s = .ok (none, s) := by
  have notDevice : (smallState.inode firstSlot).din.type ≠ tDev := by decide
  have written : Meets (writei firstSlot [7, 9] 0) smallState _ _ :=
    writei_meets smallState_consistent smallState_loaded notDevice (by decide) (by decide)
  obtain ⟨_, s, _, _, wrote⟩ := written.returns fun _ full =>
    absurd full.2 (Nat.not_lt.mpr smallState_enough)
  have loaded := wrote.loaded smallState_loaded
  have din : (s.inode firstSlot).din = dinodeAt s.sb s.disk 1 := by
    rw [wrote.inode, update_self]
    rfl
  have type : (s.inode firstSlot).din.type = tFile := by
    rw [din]
    exact congrArg Dinode.type wrote.self
  have size : (s.inode firstSlot).din.size = 2 := by
    rw [din]
    exact congrArg Dinode.size wrote.self
  refine ⟨s, wrote.consistent, loaded, type, ?_, ?_⟩
  · rw [size]
    decide
  · apply readi_refuses
    · rw [type]
      decide
    · decide
    · exact Or.inr (by decide)

end Rexv6.Fs
