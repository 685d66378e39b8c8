import Rexv6.Vm.CopyOut
import Rexv6.Vm.Copying

/-!
Contract: building the image of a program in a new address space.

Owns: the functions of `vm.c` that write to user pages through the page tables
keep every owner, and `exec`, up to the point where it commits, has a directory
that maps exactly the pages below the size it has reached. For every file, the
bytes of those pages are the segments of the file, the last one on top, and zero.

Does not own: the stack.
-/

namespace Rexv6.Vm

open Rexv6.Foundation
open Rexv6.Foundation.Program
open Rexv6.Foundation.Ledger (Balanced bump)

/-- Only the contents of user pages of `d` and the flags of their entries have
changed. -/
structure Rewritten (live : Nat → Prop) (d : Nat) (own : Place → Option Nat) (m m' : Machine) :
    Prop where
  inv : Inv live m' own
  allocs : m'.allocs = m.allocs
  frees : m'.frees = m.frees
  answers : m'.answers = m.answers
  written : ∀ {page}, m'.bytes page ≠ m.bytes page →
    ∃ place : Place, place.Of d ∧ own place = some page

def Machine.byteAt (m : Machine) (d a : Nat) : Option UInt8 :=
  (m.view d (a / pgSize)).map fun page => page.1 (a % pgSize)

theorem page_offset {v o : Nat} (inPage : o < pgSize) :
    (v * pgSize + o) / pgSize = v ∧ (v * pgSize + o) % pgSize = o := by
  unfold pgSize at inPage ⊢
  omega

theorem Machine.byteAt_page {m : Machine} {d v o : Nat} (inPage : o < pgSize) :
    m.byteAt d (v * pgSize + o) = (m.view d v).map fun page => page.1 o := by
  unfold Machine.byteAt
  rw [(page_offset inPage).1, (page_offset inPage).2]

/-- The address space of `d` is as before outside the addresses with `inside`. -/
def SameOutside (inside : Nat → Prop) (d : Nat) (m m' : Machine) : Prop :=
  ∀ v < addressPages, (m'.view d v).map Prod.snd = (m.view d v).map Prod.snd ∧
    ∀ o, (o < pgSize → ¬ inside (v * pgSize + o)) →
      (m'.view d v).map (fun page => page.1 o) = (m.view d v).map fun page => page.1 o

section Contents

variable {live : Nat → Prop} {m m' m'' : Machine} {own : Place → Option Nat} {d : Nat}
  {inside more : Nat → Prop}

theorem Rewritten.refl (inv : Inv live m own) : Rewritten live d own m m :=
  ⟨inv, rfl, rfl, rfl, fun changed => absurd rfl changed⟩

theorem Rewritten.trans (first : Rewritten live d own m m') (second : Rewritten live d own m' m'') :
    Rewritten live d own m m'' := by
  refine ⟨second.inv, second.allocs.trans first.allocs, second.frees.trans first.frees,
    second.answers.trans first.answers, fun {page} changed => ?_⟩
  by_cases same : m''.bytes page = m'.bytes page
  · exact first.written (same ▸ changed)
  · exact second.written same

theorem SameOutside.refl (inside : Nat → Prop) (d : Nat) (m : Machine) : SameOutside inside d m m :=
  fun _ _ => ⟨rfl, fun _ _ => rfl⟩

theorem SameOutside.trans (first : SameOutside inside d m m')
    (second : SameOutside inside d m' m'') :
    SameOutside inside d m m'' := by
  intro v below
  refine ⟨(second v below).1.trans (first v below).1, fun o outside => ?_⟩
  exact ((second v below).2 o outside).trans ((first v below).2 o outside)

theorem SameOutside.mono (same : SameOutside inside d m m') (wider : ∀ a, inside a → more a) :
    SameOutside more d m m' := fun v below =>
  ⟨(same v below).1, fun o outside =>
    (same v below).2 o fun inPage isIn => outside inPage (wider _ isIn)⟩

/-- A page with no address inside is as before. -/
theorem SameOutside.page (same : SameOutside inside d m m') {v : Nat} (below : v < addressPages)
    (outside : ∀ o < pgSize, ¬ inside (v * pgSize + o)) : m'.view d v = m.view d v := by
  obtain ⟨flags, bytes⟩ := same v below
  cases left : m'.view d v with
  | none =>
    rw [left] at flags
    exact (Option.map_eq_none_iff.mp flags.symm).symm
  | some page =>
    obtain ⟨before, isBefore, isFlags⟩ := Option.map_eq_some_iff.mp (flags.symm.trans
      (by rw [left, Option.map_some]))
    rw [isBefore]
    congr 1
    refine Prod.ext (funext fun o => ?_) isFlags.symm
    have byte := bytes o (outside o)
    rw [left, isBefore] at byte
    exact Option.some.inj byte

theorem SameOutside.byteAt (same : SameOutside inside d m m') {a : Nat} (small : a < 2 ^ 32)
    (outside : ¬ inside a) : m'.byteAt d a = m.byteAt d a := by
  have inSpace : a / pgSize < addressPages := by
    unfold pgSize addressPages
    omega
  have isAddress : a / pgSize * pgSize + a % pgSize = a := Nat.div_add_mod' a pgSize
  exact (same _ inSpace).2 _ fun _ => isAddress.symm ▸ outside

/-- Entries that are kept, and user pages that are written to inside only. -/
theorem Inv.sameOutside (inv : Inv live m own) (isLive : live d)
    (ptes : ∀ v < addressPages, m'.pte d v = m.pte d v)
    (bytes : ∀ {v page o}, own (.user d v) = some page → (o < pgSize → ¬ inside (v * pgSize + o)) →
      m'.bytes page o = m.bytes page o) : SameOutside inside d m m' := by
  intro v below
  unfold Machine.view
  rw [present_congr (ptes v below)]
  cases present : m.present d v with
  | none => exact ⟨rfl, fun _ _ => rfl⟩
  | some pte =>
    simp only [Option.map_some]
    by_cases isUser : v < userPages
    · have holds : own (.user d v) = some (pte / pgSize) := by
        rw [inv.shape.user isLive isUser, mapped_eq_present, present, Option.map_some]
      simp only [if_pos isUser, Option.some.injEq, true_and]
      exact fun o outside => bytes holds outside
    · simp only [if_neg isUser, implies_true, and_self]

theorem Inv.store (inv : Inv live m own) (isLive : live d) {vpn page : Nat} {data : List UInt8}
    (holds : own (.user d vpn) = some page) (short : data.length ≤ pgSize)
    {post : Unit → Machine → Prop} {stops : Stop → Prop}
    (done : ∀ m', Rewritten live d own m m' →
      SameOutside (fun a => vpn * pgSize ≤ a ∧ a < vpn * pgSize + data.length) d m m' →
      (∀ o < data.length, (m'.view d vpn).map (fun page => page.1 o) = data[o]?) →
      post () m') : Meets (store page 0 data) m post stops := by
  have isUser : vpn < userPages := by
    by_contra large
    rw [inv.shape.userRange (by omega)] at holds
    cases holds
  have outside : ¬ m.PartOf d page := by
    rintro (rfl | ⟨k, inDir, framed⟩)
    · exact absurd (inv.balanced.once holds (inv.shape.dir isLive)) (by simp)
    · rw [← inv.shape.table isLive inDir] at framed
      exact absurd (inv.balanced.once holds framed) (by simp)
  apply done
  · refine ⟨inv.fillPage holds (by simp) (by simp), rfl, rfl, rfl, fun {other} changed => ?_⟩
    have isPage : other = page := by
      by_contra different
      exact changed (Machine.bytes_fill_of_ne _ different)
    exact ⟨.user d vpn, rfl, isPage ▸ holds⟩
  · refine inv.sameOutside isLive (fun v below => pte_fill outside below)
      fun {v other o} held notStored => ?_
    by_cases here : other = page
    · have isVpn := inv.balanced.once (here ▸ held) holds
      simp only [Place.user.injEq, true_and] at isVpn
      rw [isVpn] at notStored
      rw [here, Machine.bytes_fill_self, if_pos (Nat.zero_le o), List.getD_eq_default]
      by_contra inData
      exact notStored (by omega) (by omega)
    · rw [Machine.bytes_fill_of_ne _ here]
  · intro o below
    have reading := inv.shape.user isLive isUser
    rw [holds, mapped_eq_present] at reading
    obtain ⟨pte, present, isPage⟩ := Option.map_eq_some_iff.mp reading.symm
    unfold Machine.view
    rw [present_congr (pte_fill outside (user_inSpace isUser)), present]
    simp [isUser, isPage, Machine.bytes_fill_self, below]

theorem Inv.entry_page (inv : Inv live m own) (isLive : live d) {vpn t page : Nat}
    (isUser : vpn < userPages) (entry : m.pte d vpn = some (m.word t (vpn % 1024)))
    (holds : own (.user d vpn) = some page) :
    pteAddr (m.word t (vpn % 1024)) / pgSize = page := by
  have reading := inv.shape.user isLive isUser
  unfold Machine.mapped at reading
  rw [entry, Option.bind_some, holds] at reading
  exact pteAddr_of_frame reading.symm

/-- What the file has for byte `k` of a segment of `sz` bytes at `offset`, in the
pieces of a page in which `loaduvm` reads it. -/
def File.byteAt (ip : File) (offset sz k : Nat) : Option UInt8 :=
  (ip.readi ((offset + k / pgSize * pgSize) % 2 ^ 32)
    (if sz - k / pgSize * pgSize < pgSize then sz - k / pgSize * pgSize else pgSize)).bind
    fun data => data[k % pgSize]?

theorem File.byteAt_page {ip : File} {offset sz i o : Nat} (inPage : o < pgSize) :
    ip.byteAt offset sz (i * pgSize + o) = (ip.readi ((offset + i * pgSize) % 2 ^ 32)
      (if sz - i * pgSize < pgSize then sz - i * pgSize else pgSize)).bind fun data =>
        data[o]? := by
  unfold File.byteAt
  rw [(page_offset inPage).1, (page_offset inPage).2]

/-- `loadLoop` from page `i` of the segment on: it writes to the rest of the segment
what the file has there, or gives up and leaves some of it as it was. -/
theorem loadLoop_total (ip : File) {a offset sz : Nat} (isLive : live d)
    (bounded : a + pagesOf sz ≤ userPages)
    (mapped : ∀ v, a ≤ v → v < a + pagesOf sz → own (.user d v) ≠ none) :
    ∀ (turns i : Nat) (m : Machine), Inv live m own → pagesOf sz - i < turns →
      Total (loadLoop d (a * pgSize) ip offset sz turns (i * pgSize)) m
        fun ok m' => Rewritten live d own m m' ∧
          SameOutside (fun b => (a + i) * pgSize ≤ b ∧ b < a * pgSize + sz) d m m' ∧
          (∀ k, i * pgSize ≤ k → k < sz →
            m'.byteAt d (a * pgSize + k) = ip.byteAt offset sz k ∨
              (ok = false ∧ m'.byteAt d (a * pgSize + k) = m.byteAt d (a * pgSize + k))) ∧
          (ok = false → ∃ k < sz, ip.byteAt offset sz k = none) := by
  intro turns
  induction turns with
  | zero =>
    intro i m _ enough
    omega
  | succ turns ih =>
    intro i m inv enough
    rw [loadLoop]
    by_cases inRange : i < pagesOf sz
    · have isUser : a + i < userPages := by omega
      have inSpace := user_inSpace isUser
      have address : (a * pgSize + i * pgSize) % 2 ^ 32 = (a + i) * pgSize := by
        unfold userPages kernBase pgSize at isUser
        unfold pgSize
        omega
      have small : ∀ {k}, k < sz → a * pgSize + k < 2 ^ 32 := by
        intro k below
        unfold userPages kernBase pgSize pagesOf at bounded
        unfold pgSize
        omega
      obtain ⟨page, holds⟩ := Option.ne_none_iff_exists'.mp (mapped (a + i) (by omega) (by omega))
      rw [if_pos (page_lt_iff.mpr inRange), address]
      unfold Total
      rw [meets_bind]
      apply walkpgdir_total inv isLive inSpace
      · intro _ missing
        rw [inv.no_table isLive isUser missing] at holds
        cases holds
      · intro t _ entry
        simp only
        rw [meets_bind, meets_get, inv.entry_page isLive isUser entry holds]
        generalize isN : (if sz - i * pgSize < pgSize then sz - i * pgSize else pgSize) = n
        cases read : ip.readi ((offset + i * pgSize) % 2 ^ 32) n with
        | none =>
          refine ⟨Rewritten.refl inv, SameOutside.refl _ d m, fun _ _ _ => Or.inr ⟨rfl, rfl⟩,
            fun _ => ⟨i * pgSize, page_lt_iff.mpr inRange, ?_⟩⟩
          rw [← Nat.add_zero (i * pgSize), File.byteAt_page (by decide), isN, read]
          rfl
        | some data =>
          have short := ip.bounded _ _ _ read
          simp only
          rw [meets_bind]
          apply inv.store isLive holds (by split at isN <;> omega)
          intro m₁ rewritten same stored
          have inSegment : SameOutside
              (fun b => (a + i) * pgSize ≤ b ∧ b < a * pgSize + sz) d m m₁ := by
            apply same.mono
            intro address
            rw [Nat.add_mul]
            unfold pgSize at isN ⊢
            split at isN <;> omega
          -- What the file has for this page is what has been read and stored.
          have here : ∀ k, i * pgSize ≤ k → k < i * pgSize + data.length →
              m₁.byteAt d (a * pgSize + k) = ip.byteAt offset sz k := by
            intro k above below
            obtain ⟨o, rfl⟩ := Nat.exists_eq_add_of_le above
            have inPage : o < pgSize := by
              split at isN <;> omega
            rw [← Nat.add_assoc, ← Nat.add_mul, Machine.byteAt_page inPage,
              File.byteAt_page inPage, stored o (by omega), isN, read]
            rfl
          have rest : ∀ k, k < sz → i * pgSize + data.length ≤ k →
              m₁.byteAt d (a * pgSize + k) = m.byteAt d (a * pgSize + k) := by
            intro k below above
            refine same.byteAt (small below) fun inside => ?_
            rw [Nat.add_mul] at inside
            omega
          by_cases complete : data.length = n
          · rw [if_pos complete, next_page (by omega)]
            refine (ih (i + 1) m₁ rewritten.inv (by omega)).mono ?_
            rintro ok m' ⟨more, sameLater, later, failed⟩
            refine ⟨rewritten.trans more, inSegment.trans (sameLater.mono fun b inside => ?_),
              fun k above below => ?_, failed⟩
            · rw [← Nat.add_assoc, Nat.add_mul _ 1] at inside
              omega
            · by_cases next : (i + 1) * pgSize ≤ k
              · refine (later k next below).imp_right fun ⟨failed, kept⟩ => ⟨failed, ?_⟩
                rw [kept, rest k below]
                unfold pgSize at isN next ⊢
                split at isN <;> omega
              · left
                have before : ¬ ((a + (i + 1)) * pgSize ≤ a * pgSize + k ∧
                    a * pgSize + k < a * pgSize + sz) := by
                  rw [Nat.add_mul]
                  omega
                rw [sameLater.byteAt (small below) before]
                apply here k above
                unfold pgSize at isN next ⊢
                split at isN <;> omega
          · rw [if_neg complete]
            refine ⟨rewritten, inSegment, fun k above below => ?_,
              fun _ => ⟨i * pgSize + data.length, ?_, ?_⟩⟩
            · by_cases inData : k < i * pgSize + data.length
              · exact Or.inl (here k above inData)
              · exact Or.inr ⟨rfl, rest k below (by omega)⟩
            · split at isN <;> omega
            · have inPage : data.length < pgSize := by
                split at isN <;> omega
              rw [File.byteAt_page inPage, isN, read]
              exact List.getElem?_eq_none le_rfl
    · rw [if_neg (by rwa [page_lt_iff])]
      refine ⟨Rewritten.refl inv, SameOutside.refl _ d m, fun k above below => ?_, by simp⟩
      exact absurd (page_lt_iff.mp (lt_of_le_of_lt above below)) inRange

/-- A program header that `exec` loads. -/
structure Segment where
  off : Nat
  vaddr : Nat
  filesz : Nat

def Segment.Covers (segment : Segment) (a : Nat) : Prop :=
  segment.vaddr ≤ a ∧ a < segment.vaddr + segment.filesz

instance (segment : Segment) (a : Nat) : Decidable (segment.Covers a) := by
  unfold Segment.Covers
  infer_instance

def Segment.byteAt (segment : Segment) (ip : File) (a : Nat) : Option UInt8 :=
  ip.byteAt segment.off segment.filesz (a - segment.vaddr)

def Segment.over (ip : File) (content : Nat → Option UInt8) (segment : Segment) :
    Nat → Option UInt8 := fun a =>
  if segment.Covers a then segment.byteAt ip a else content a

/-- `loaduvm` has written the bytes of the file to the segment, or some of them if the
file does not have all. -/
structure Loaded (live : Nat → Prop) (d : Nat) (own : Place → Option Nat) (ip : File)
    (segment : Segment) (m : Machine) (ok : Bool) (m' : Machine) : Prop where
  rewritten : Rewritten live d own m m'
  same : SameOutside segment.Covers d m m'
  bytes : ∀ a, segment.Covers a → m'.byteAt d a = segment.byteAt ip a ∨
    (ok = false ∧ m'.byteAt d a = m.byteAt d a)
  failed : ok = false → ∃ k < segment.filesz, ip.byteAt segment.off segment.filesz k = none

theorem loaduvm_total (ip : File) (segment : Segment) (inv : Inv live m own) (isLive : live d)
    (aligned : segment.vaddr % pgSize = 0) (bounded : segment.vaddr + segment.filesz ≤ kernBase)
    (mapped : ∀ v, v < pagesOf (segment.vaddr + segment.filesz) → own (.user d v) ≠ none) :
    Total (loaduvm d segment.vaddr ip segment.off segment.filesz) m
      (Loaded live d own ip segment m) := by
  obtain ⟨offset, vaddr, sz⟩ := segment
  obtain ⟨a, rfl⟩ : ∃ a, vaddr = a * pgSize :=
    ⟨vaddr / pgSize, (Nat.div_mul_cancel (Nat.dvd_of_mod_eq_zero aligned)).symm⟩
  have pages : a + pagesOf sz = pagesOf (a * pgSize + sz) := by
    unfold pagesOf pgSize
    omega
  have inUser : a + pagesOf sz ≤ userPages := by
    rw [pages]
    exact pagesOf_le_userPages bounded
  have enough : pagesOf sz - 0 < addressPages := by
    have : userPages < addressPages := by decide
    omega
  have start : (0 : Nat) = 0 * pgSize := (Nat.zero_mul _).symm
  unfold loaduvm
  rw [if_neg (by simp), start]
  refine (loadLoop_total ip isLive inUser ?_ addressPages 0 m inv enough).mono ?_
  · intro v _ below
    exact mapped v (pages ▸ below)
  · rintro ok m' ⟨rewritten, same, loaded, failed⟩
    refine ⟨rewritten, same, fun b covers => ?_, failed⟩
    have isAddress : a * pgSize + (b - a * pgSize) = b := Nat.add_sub_cancel' covers.1
    have inSegment : b - a * pgSize < sz := Nat.sub_lt_left_of_lt_add covers.1 covers.2
    have here := loaded (b - a * pgSize) (by simp) inSegment
    rwa [isAddress] at here

/-- A page that user code reaches is the page of a user mapping: the entries of
the kernel part bar user code. -/
theorem Inv.userPage_own (inv : Inv live m own) (isLive : live d) {v page : Nat}
    (inSpace : v < addressPages) (isPage : m.userPage d v = some page) :
    own (.user d v) = some page := by
  obtain ⟨pte, isUserEntry, rfl⟩ := Option.map_eq_some_iff.mp isPage
  obtain ⟨present, user⟩ := Option.filter_eq_some_iff.mp isUserEntry
  have isUser : v < userPages := by
    by_contra isKernel
    obtain ⟨entry, isPresent⟩ := Option.filter_eq_some_iff.mp present
    rw [inv.shape.kernel isLive (by omega) inSpace entry isPresent] at user
    exact absurd user (by simp)
  rw [inv.shape.user isLive isUser, mapped_eq_present, present, Option.map_some]

theorem Inv.space (inv : Inv live m own) (isLive : live d) : Space m d := by
  refine ⟨inv.directory isLive, fun vBelow wBelow isPage again => ?_,
    fun below isPage part => ?_⟩
  · simpa using inv.balanced.once (inv.userPage_own isLive vBelow isPage)
      (inv.userPage_own isLive wBelow again)
  · have holds := inv.userPage_own isLive below isPage
    rcases part with rfl | ⟨k, inDir, framed⟩
    · exact absurd (inv.balanced.once holds (inv.shape.dir isLive)) (by simp)
    · rw [← inv.shape.table isLive inDir] at framed
      exact absurd (inv.balanced.once holds framed) (by simp)

theorem Copied.rewritten {va len : Nat} (copied : Copied m d va len m') (inv : Inv live m own)
    (isLive : live d) : Rewritten live d own m m' := by
  have same : ∀ {place page}, (∀ v, place ≠ .user d v) → own place = some page →
      m'.bytes page = m.bytes page := by
    intro place page notUser holds
    funext offset
    by_contra changed
    obtain ⟨i, _, isPage, _⟩ := copied.frame page offset changed
    exact notUser _ (inv.balanced.once holds (inv.userPage_own isLive (pageAt_lt va i) isPage))
  have words : ∀ {place page}, (∀ v, place ≠ .user d v) → own place = some page →
      ∀ i, m'.word page i = m.word page i := by
    intro place page notUser holds i
    unfold Machine.word
    rw [same notUser holds]
  refine ⟨⟨inv.shape.congr (fun e holds => words (by simp) holds)
    (fun e k t holds => words (by simp) holds), ?_⟩, copied.counts.1, copied.counts.2.1,
    copied.counts.2.2, fun {page} changed => ?_⟩
  · rw [copied.counts.1, copied.counts.2.1]
    exact inv.balanced
  · obtain ⟨offset, differs⟩ := Function.ne_iff.mp changed
    obtain ⟨i, _, isPage, _⟩ := copied.frame page offset differs
    exact ⟨.user d (pageAt va i), rfl, inv.userPage_own isLive (pageAt_lt va i) isPage⟩

/-- A copy that does not wrap changes no byte outside of its target. -/
theorem Copied.sameOutside {va len : Nat} (copied : Copied m d va len m') (inv : Inv live m own)
    (isLive : live d) (noWrap : va + len ≤ 2 ^ 32) :
    SameOutside (fun a => va ≤ a ∧ a < va + len) d m m' := by
  refine inv.sameOutside isLive copied.ptes fun {v page o} holds outside => ?_
  by_contra changed
  obtain ⟨i, inData, isPage, isOffset⟩ := copied.frame _ o changed
  have sameV := inv.balanced.once holds (inv.userPage_own isLive (pageAt_lt va i) isPage)
  simp only [Place.user.injEq, true_and] at sameV
  unfold pageAt at sameV
  unfold offsetAt at isOffset
  apply outside (isOffset ▸ Nat.mod_lt _ (by decide))
  rw [sameV, ← isOffset, Nat.div_add_mod']
  omega

theorem copyout_meets (inv : Inv live m own) (isLive : live d) {va : Nat} (vaSmall : va < 2 ^ 32)
    (data : List UInt8) :
    Meets (copyout d va data) m
      (fun ok m' => Rewritten live d own m m' ∧ Outcome m d va data ok m')
      fun stop => stop = .fault :=
  (copyoutLoop_meets data.length va data m (inv.space isLive) vaSmall le_rfl).imp
    (fun _ _ outcome => ⟨outcome.copied.rewritten inv isLive, outcome⟩) fun _ fault => fault.1

theorem frame_clear {entry : Nat} (fits : entry < 2 ^ 32) :
    frame (entry &&& (2 ^ 32 - 1 - pteU)) = frame entry := by
  have present : has (entry &&& (2 ^ 32 - 1 - pteU)) pteP = has entry pteP := by
    have mask : Nat.testBit (2 ^ 32 - 1 - pteU) 0 = true := by decide
    have bit : Nat.testBit (entry &&& (2 ^ 32 - 1 - pteU)) 0 = Nat.testBit entry 0 := by
      rw [Nat.testBit_and, mask, Bool.and_true]
    rw [Nat.testBit_zero, Nat.testBit_zero] at bit
    rw [has_pteP, has_pteP, bit]
  have address : (entry &&& (2 ^ 32 - 1 - pteU)) / pgSize = entry / pgSize := by
    rw [show pgSize = 2 ^ 12 from rfl, ← Nat.shiftRight_eq_div_pow, ← Nat.shiftRight_eq_div_pow,
      Nat.shiftRight_and_distrib, show (2 ^ 32 - 1 - pteU) >>> 12 = 2 ^ 20 - 1 from rfl,
      Nat.and_two_pow_sub_one_of_lt_two_pow]
    omega
  unfold frame pteAddr
  rw [present, address]

theorem clearpteu_total (inv : Inv live m own) (isLive : live d) {vpn page : Nat}
    (isUser : vpn < userPages) (holds : own (.user d vpn) = some page) :
    Total (clearpteu d (vpn * pgSize)) m fun _ m' => Rewritten live d own m m' ∧
      (∀ v < addressPages, m'.userPage d v = if v = vpn then none else m.userPage d v) ∧
      ∀ v < addressPages, v ≠ vpn → m'.view d v = m.view d v := by
  have inSpace := user_inSpace isUser
  unfold clearpteu Total
  rw [meets_bind]
  apply walkpgdir_total inv isLive inSpace
  · intro _ missing
    rw [inv.no_table isLive isUser missing] at holds
    cases holds
  · intro t table entry
    have reading := inv.shape.user isLive isUser
    unfold Machine.mapped at reading
    rw [entry, Option.bind_some, ← frame_clear (m.word_lt)] at reading
    have fits : m.word t (vpn % 1024) &&& (2 ^ 32 - 1 - pteU) < 2 ^ 32 :=
      lt_of_le_of_lt Nat.and_le_left m.word_lt
    have shape := inv.setUserPte isLive isUser table fits (fun found isFound =>
      inv.shape.inPool (reading.trans isFound))
    rw [← reading, Function.update_eq_self] at shape
    refine ⟨⟨⟨shape, inv.balanced⟩, rfl, rfl, rfl, fun {other} changed => ?_⟩, fun v below => ?_,
      fun v below different => ?_⟩
    · rw [Machine.eq_of_setWord_changes _ changed]
      exact ⟨.table d (vpn / 1024), rfl, table⟩
    · have stored := inv.pte_setWord isLive inSpace table fits isLive below
      by_cases here : v = vpn
      · rw [if_pos ⟨rfl, here⟩] at stored
        rw [if_pos here]
        unfold Machine.userPage Machine.present
        rw [stored, Option.map_eq_none_iff, Option.filter_eq_none_iff]
        intro pte present
        rw [← Option.some.inj (Option.filter_eq_some_iff.mp present).1, has_pteU, Nat.testBit_and,
          show Nat.testBit (2 ^ 32 - 1 - pteU) 2 = false by decide]
        simp
      · rw [if_neg fun both => here both.2] at stored
        rw [if_neg here, userPage_congr stored]
    · have stored := inv.pte_setWord isLive inSpace table fits isLive below
      rw [if_neg fun both => different both.2] at stored
      refine view_congr (present_congr stored) fun other isUser' isMapped => ?_
      apply Machine.bytes_setWord_of_ne
      rintro rfl
      have place := inv.balanced.once ((inv.shape.user isLive isUser').trans isMapped) table
      exact absurd place (by simp)

end Contents

/-! ## The image of a program -/

/-- Directory `d`, begun in the state `m₀` with the owners `own₀`, maps exactly
the pages below `sz`. -/
structure Building (live : Nat → Prop) (d : Nat) (m₀ : Machine) (own₀ : Place → Option Nat)
    (sz : Nat) (m : Machine) (own : Place → Option Nat) : Prop where
  inv : Inv live m own
  elsewhere : Elsewhere d m₀ own₀ m own
  hand : own .hand = none
  small : sz ≤ kernBase
  sized : ∀ v, own (.user d v) ≠ none ↔ v < pagesOf sz

/-- The pages of `d` below `sz` are user memory with the bytes `content`, which is
zero behind them, and all others are as in the state `m₁`. -/
structure Image (content : Nat → Option UInt8) (d : Nat) (m₁ : Machine) (sz : Nat) (m : Machine) :
    Prop where
  flags : ∀ v < addressPages, v < pagesOf sz → (m.view d v).map Prod.snd = some newPage.2
  bytes : ∀ v < addressPages, v < pagesOf sz → ∀ o < pgSize,
    (m.view d v).map (fun page => page.1 o) = content (v * pgSize + o)
  others : ∀ v < addressPages, pagesOf sz ≤ v → m.view d v = m₁.view d v
  zero : ∀ a, pagesOf sz * pgSize ≤ a → content a = some 0

/-- The pages of `d` from `sz` up to `size` are new, and all others are as before. -/
def Enlarged (d sz size : Nat) (m m' : Machine) : Prop :=
  ∀ v < addressPages, m'.view d v =
    if pagesOf sz ≤ v ∧ v < pagesOf size then some newPage else m.view d v

/-- The loadable segments among the `left` program headers from `off` on. -/
def segments (ip : File) : (left off : Nat) → List Segment
  | 0, _ => []
  | left + 1, off =>
    let rest := segments ip left ((off + proghdrSize) % 2 ^ 32)
    match ip.readi off proghdrSize with
    | none => rest
    | some ph =>
      if field ph 0 4 = elfProgLoad then
        ⟨field ph 4 4, field ph 8 4, field ph 16 4⟩ :: rest
      else
        rest

theorem segments_off_lt (ip : File) (left off : Nat) {segment : Segment}
    (member : segment ∈ segments ip left off) : segment.off < 2 ^ 32 := by
  induction left generalizing off with
  | zero => cases member
  | succ left ih =>
    rw [segments] at member
    split at member
    · exact ih _ member
    · split at member
      · rcases List.mem_cons.mp member with rfl | later
        · show field _ 4 4 < 2 ^ 32
          exact LittleEndian.getLe_lt _ 4 4
        · exact ih _ later
      · exact ih _ member

/-- The segments one over the other, the last one on top, and `before` elsewhere. -/
def overlay (ip : File) (all : List Segment) (before : Nat → Option UInt8) : Nat → Option UInt8 :=
  all.foldl (Segment.over ip) before

/-- The bytes `content` are those of the first `loaded` segments over `before`, but
for addresses of the next segment that have what the file has there. -/
def Partial (ip : File) (all : List Segment) (before : Nat → Option UInt8) (loaded : Nat)
    (content : Nat → Option UInt8) : Prop :=
  ∀ a, content a = overlay ip (all.take loaded) before a ∨
    ∃ segment, all[loaded]? = some segment ∧ segment.Covers a ∧ content a = segment.byteAt ip a

/-- The segments `all` lie over the bytes `content` of an image of `sz` bytes, which
has now `size` bytes and the bytes `content'`. -/
structure Laid (ip : File) (all : List Segment) (content : Nat → Option UInt8) (sz size : Nat)
    (content' : Nat → Option UInt8) : Prop where
  more : sz ≤ size
  bytes : content' = overlay ip all content
  inside : ∀ segment ∈ all, segment.vaddr + segment.filesz ≤ size
  inFile : ∀ segment ∈ all, ∀ a, segment.Covers a → segment.byteAt ip a ≠ none

/-- What loading the segments `all` leaves of an image of `sz` bytes with the bytes
`content` in memory `m`: an image of the size that is returned, with the segments laid
over those bytes. A run that gives up has loaded the first of them. -/
def Loads (live : Nat → Prop) (d : Nat) (m₀ : Machine) (own₀ : Place → Option Nat) (m₁ : Machine)
    (ip : File) (all : List Segment) (content : Nat → Option UInt8) (sz : Nat) (m : Machine)
    (result : Option Nat) (m' : Machine) : Prop :=
  ∃ own' reached content' loaded, Building live d m₀ own₀ reached m' own' ∧
    Image content' d m₁ reached m' ∧ Partial ip all content loaded content' ∧
    ∀ size, result = some size →
      size = reached ∧ Laid ip all content sz reached content' ∧ m'.frees = m.frees

section Image

variable {live : Nat → Prop} {d : Nat} {m₀ m₁ m m' : Machine} {own₀ own : Place → Option Nat}
  {sz : Nat} {content : Nat → Option UInt8} {ip : File} {segment : Segment}

theorem Building.rewritten (building : Building live d m₀ own₀ sz m own)
    (rewritten : Rewritten live d own m m') : Building live d m₀ own₀ sz m' own :=
  ⟨rewritten.inv, building.elsewhere.change rewritten.allocs (fun _ _ => rfl) id
    building.inv.balanced rewritten.written, building.hand, building.small, building.sized⟩

theorem Building.above (building : Building live d m₀ own₀ sz m own) (v : Nat)
    (isLow : pagesOf sz ≤ v) : own (.user d v) = none := by
  by_contra isMapped
  have below := (building.sized v).mp isMapped
  omega

/-- On a run that has freed nothing, the pages that the new directory does not use
are as before. -/
theorem Building.unused {live₀ : Nat → Prop} (building : Building live d m₀ own₀ sz m own)
    (isLive : live d) (inv₀ : Inv live₀ m₀ own₀) (none₀ : ∀ page, ¬ Mine d own₀ page)
    (frees : m.frees = m₀.frees) {page : Nat} (unused : ¬ m.Uses d page) :
    m.bytes page = m₀.bytes page := by
  by_contra changed
  have more : m₀.allocs page < m.allocs page :=
    (building.elsewhere.touched (Or.inr changed)).resolve_left (none₀ page)
  by_cases held : ∃ place, own place = some page
  · obtain ⟨place, holds⟩ := held
    have notOf : ¬ place.Of d := fun ofD => unused (building.inv.uses_of_held isLive ofD holds)
    have notHand : place ≠ .hand := by
      rintro rfl
      rw [building.hand] at holds
      cases holds
    rw [building.elsewhere.places notOf notHand] at holds
    have same := (building.elsewhere.kept notOf notHand holds).1
    omega
  · have idle := building.inv.balanced.idle fun place holds => held ⟨place, holds⟩
    have before : m₀.frees page ≤ m₀.allocs page := by
      by_cases held₀ : ∃ place, own₀ place = some page
      · obtain ⟨place, holds⟩ := held₀
        have one := inv₀.balanced.held holds
        omega
      · exact (inv₀.balanced.idle fun place holds => held₀ ⟨place, holds⟩).ge
    rw [frees] at idle
    omega

/-- Loading a segment inside the image. -/
theorem Image.load {ok : Bool} (image : Image content d m₁ sz m)
    (loaded : Loaded live d own ip segment m ok m')
    (within : segment.vaddr + segment.filesz ≤ sz) (small : sz ≤ kernBase) :
    ∃ content', Image content' d m₁ sz m' ∧
      (∀ a, content' a = content a ∨ segment.Covers a ∧ content' a = segment.byteAt ip a) ∧
      (ok = true → content' = segment.over ip content) := by
  have inside : ∀ {a}, segment.Covers a → a / pgSize < pagesOf sz := by
    intro a covers
    have below := covers.2
    unfold pgSize pagesOf
    omega
  have before : ∀ {a}, segment.Covers a → m.byteAt d a = content a := by
    intro a covers
    have bound := pagesOf_le_userPages small
    have space : userPages < addressPages := by decide
    have isPage := inside covers
    have byte := image.bytes (a / pgSize) (by omega) isPage (a % pgSize) (Nat.mod_lt _ (by decide))
    rwa [Nat.div_add_mod'] at byte
  refine ⟨fun a => if segment.Covers a then m'.byteAt d a else content a,
    ⟨fun v below isUser => ?_, fun v below isUser o inPage => ?_, fun v below isHigh => ?_,
      fun a isHigh => ?_⟩, fun a => ?_, fun isOk => ?_⟩
  · exact (loaded.same v below).1.trans (image.flags v below isUser)
  · by_cases covers : segment.Covers (v * pgSize + o)
    · rw [if_pos covers, Machine.byteAt_page inPage]
    · rw [if_neg covers, (loaded.same v below).2 o fun _ => covers,
        image.bytes v below isUser o inPage]
  · rw [loaded.same.page below, image.others v below isHigh]
    intro o inPage covers
    have low := inside covers
    unfold pgSize at low
    omega
  · rw [if_neg, image.zero a isHigh]
    intro covers
    have low := inside covers
    unfold pgSize at low isHigh
    omega
  · dsimp only
    by_cases covers : segment.Covers a
    · rw [if_pos covers]
      rcases loaded.bytes a covers with isByte | ⟨_, kept⟩
      · exact Or.inr ⟨covers, isByte⟩
      · exact Or.inl (kept.trans (before covers))
    · rw [if_neg covers]
      exact Or.inl rfl
  · funext a
    unfold Segment.over
    by_cases covers : segment.Covers a
    · rw [if_pos covers, if_pos covers]
      rcases loaded.bytes a covers with isByte | ⟨failed, _⟩
      · exact isByte
      · rw [isOk] at failed
        cases failed
    · rw [if_neg covers, if_neg covers]

/-- There is a byte at every address of the image. -/
theorem Image.ne_none (image : Image content d m₁ sz m) (small : sz ≤ kernBase) {a : Nat}
    (below : a < sz) : content a ≠ none := by
  have inSpace : a / pgSize < addressPages ∧ a / pgSize < pagesOf sz := by
    unfold kernBase at small
    unfold pgSize addressPages pagesOf
    omega
  have flags := image.flags _ inSpace.1 inSpace.2
  have byte := image.bytes _ inSpace.1 inSpace.2 (a % pgSize) (Nat.mod_lt _ (by decide))
  rw [Nat.div_add_mod'] at byte
  obtain ⟨page, isPage, _⟩ := Option.map_eq_some_iff.mp flags
  rw [← byte, isPage]
  simp

theorem Image.enlarged {size : Nat} (image : Image content d m₁ sz m) (more : sz ≤ size)
    (views : Enlarged d sz size m m') : Image content d m₁ size m' := by
  have pages : pagesOf sz ≤ pagesOf size := by
    unfold pagesOf
    omega
  refine ⟨fun v below isUser => ?_, fun v below isUser o inPage => ?_, fun v below isHigh => ?_,
    fun a isHigh => image.zero a (le_trans (Nat.mul_le_mul_right _ pages) isHigh)⟩
  · rw [views v below]
    by_cases isNew : pagesOf sz ≤ v
    · rw [if_pos ⟨isNew, isUser⟩]
      rfl
    · rw [if_neg (by omega)]
      exact image.flags v below (by omega)
  · rw [views v below]
    by_cases isNew : pagesOf sz ≤ v
    · rw [if_pos ⟨isNew, isUser⟩, image.zero]
      · rfl
      · exact le_add_right (Nat.mul_le_mul_right _ isNew)
    · rw [if_neg (by omega)]
      exact image.bytes v below (by omega) o inPage
  · rw [views v below, if_neg (by omega)]
    exact image.others v below (by omega)

/-- Growing the image reaches at least the size asked for, or leaves it alone. -/
theorem Building.alloc (building : Building live d m₀ own₀ sz m own) (isLive : live d)
    (newsz : Nat) :
    Total (allocuvm d sz newsz) m fun result m' => ∃ own',
      (result = 0 → ∀ v, own' (.user d v) = own (.user d v)) ∧
      ((result = 0 ∧ Building live d m₀ own₀ sz m' own' ∧ Enlarged d sz sz m m') ∨
        (newsz ≤ result ∧ (sz ≤ newsz → result = newsz) ∧
          Building live d m₀ own₀ result m' own' ∧ sz ≤ result ∧ Enlarged d sz result m m' ∧
          m'.frees = m.frees)) := by
  have same : ∀ {m'}, (∀ v < addressPages, m'.view d v = m.view d v) → Enlarged d sz sz m m' := by
    intro m' views v below
    rw [if_neg (by omega), views v below]
  refine (allocuvm_total building.inv isLive building.hand building.small building.above).mono ?_
  rintro result m' ⟨own', allocated⟩
  have elsewhere := building.elsewhere.trans allocated.elsewhere
  refine ⟨own', ?_⟩
  rcases allocated.outcome with ⟨zero, users, views⟩ |
    ⟨grows, newSmall, rfl, added, others, views⟩ | ⟨shrinks, rfl, users, views, frees⟩
  · refine ⟨fun _ => users, Or.inl ⟨zero, ⟨allocated.inv, elsewhere, allocated.hand,
      building.small, ?_⟩, same views⟩⟩
    intro v
    rw [users, building.sized]
  · refine ⟨?_, Or.inr ⟨le_rfl, fun _ => rfl, ⟨allocated.inv, elsewhere, allocated.hand,
      newSmall.le, ?_⟩, grows, views⟩⟩
    · rintro rfl v
      exact others v (Or.inr (Nat.zero_le v))
    · have monotone : pagesOf sz ≤ pagesOf result := by
        unfold pagesOf
        omega
      intro v
      by_cases isNew : pagesOf sz ≤ v ∧ v < pagesOf result
      · exact iff_of_true (added v isNew.1 isNew.2) isNew.2
      · rw [others v (by omega), building.sized]
        omega
  · refine ⟨fun _ => users, Or.inr ⟨shrinks.le, fun grows => absurd shrinks (by omega),
      ⟨allocated.inv, elsewhere, allocated.hand, building.small, ?_⟩, le_rfl, same views, frees⟩⟩
    intro v
    rw [users, building.sized]

theorem Building.loaduvm (building : Building live d m₀ own₀ sz m own) (ip : File)
    (segment : Segment) (isLive : live d) (aligned : segment.vaddr % pgSize = 0)
    (inside : segment.vaddr + segment.filesz ≤ sz) :
    Total (loaduvm d segment.vaddr ip segment.off segment.filesz) m
      (Loaded live d own ip segment m) := by
  apply loaduvm_total ip segment building.inv isLive aligned (le_trans inside building.small)
  intro v below
  rw [building.sized]
  unfold pagesOf at below ⊢
  omega

theorem loadProgram_total (isLive : live d) (ip : File) :
    ∀ (left off sz : Nat) (m : Machine) (own : Place → Option Nat) (content : Nat → Option UInt8),
      Building live d m₀ own₀ sz m own → Image content d m₁ sz m →
      Total (loadProgram d ip left off sz) m
        (Loads live d m₀ own₀ m₁ ip (segments ip left off) content sz m) := by
  intro left
  induction left with
  | zero =>
    intro off sz m own content building image
    exact ⟨own, sz, content, 0, building, image, fun _ => Or.inl rfl, fun size isSize =>
      ⟨(Option.some.inj isSize).symm, ⟨le_rfl, rfl, by simp [segments], by simp [segments]⟩, rfl⟩⟩
  | succ left ih =>
    intro off sz m own content building image
    have giveUp : ∀ {all m' own' sz'}, Building live d m₀ own₀ sz' m' own' →
        Image content d m₁ sz' m' → Loads live d m₀ own₀ m₁ ip all content sz m none m' := by
      intro all m' own' sz' building image
      exact ⟨own', sz', content, 0, building, image, fun _ => Or.inl rfl, by simp⟩
    rw [loadProgram, segments]
    cases read : ip.readi off proghdrSize with
    | none => exact giveUp building image
    | some ph =>
      simp only
      unfold Total
      by_cases short : ph.length ≠ proghdrSize
      · rw [if_pos short]
        exact giveUp building image
      rw [if_neg short]
      by_cases other : field ph 0 4 ≠ elfProgLoad
      · rw [if_pos other, if_neg other]
        exact ih _ sz m own content building image
      rw [if_neg other, if_pos (not_not.mp other)]
      by_cases fileLarger : field ph 20 4 < field ph 16 4
      · rw [if_pos fileLarger]
        exact giveUp building image
      rw [if_neg fileLarger]
      by_cases wraps : (field ph 8 4 + field ph 20 4) % 2 ^ 32 < field ph 8 4
      · rw [if_pos wraps]
        exact giveUp building image
      rw [if_neg wraps, meets_bind]
      refine (building.alloc isLive _).mono ?_
      rintro result m₂ ⟨own₁, _,
        ⟨rfl, building₁, same⟩ | ⟨reaches, _, building₁, more, new, frees₁⟩⟩
      · exact giveUp building₁ (image.enlarged le_rfl same)
      have image₁ := image.enlarged more new
      by_cases zero : result = 0
      · rw [if_pos zero]
        exact giveUp building₁ image₁
      rw [if_neg zero]
      by_cases unaligned : field ph 8 4 % pgSize ≠ 0
      · rw [if_pos unaligned]
        exact giveUp building₁ image₁
      rw [if_neg unaligned, meets_bind]
      have inside : field ph 8 4 + field ph 16 4 ≤ result := by
        have memszFits : field ph 20 4 < 2 ^ 32 :=
          Foundation.LittleEndian.getLe_lt _ 20 4
        omega
      refine (building₁.loaduvm ip ⟨field ph 4 4, field ph 8 4, field ph 16 4⟩ isLive
        (not_not.mp unaligned) inside).mono ?_
      rintro ok m₃ loaded
      have building₂ := building₁.rewritten loaded.rewritten
      obtain ⟨content₂, image₂, each, whole⟩ := image₁.load loaded inside building₁.small
      cases ok with
      | true =>
        refine (ih _ result m₃ own₁ content₂ building₂ image₂).mono ?_
        rintro size m' ⟨own', reached, content', count, built, image', part, all⟩
        obtain rfl := whole rfl
        refine ⟨own', reached, content', count + 1, built, image', part, fun size isSize => ?_⟩
        obtain ⟨isReached, laid, frees⟩ := all size isSize
        refine ⟨isReached, ⟨more.trans laid.more, laid.bytes, ?_, ?_⟩,
          by rw [frees, loaded.rewritten.frees, frees₁]⟩
        · exact List.forall_mem_cons.mpr ⟨inside.trans laid.more, laid.inside⟩
        · refine List.forall_mem_cons.mpr ⟨fun a covers missing => ?_, laid.inFile⟩
          apply image₂.ne_none building₂.small (lt_of_lt_of_le covers.2 inside)
          rw [Segment.over, if_pos covers, missing]
      | false =>
        exact ⟨own₁, result, content₂, 0, building₂, image₂, fun a =>
          (each a).imp_right fun ⟨covers, isByte⟩ => ⟨_, rfl, covers, isByte⟩, by simp⟩

/-- A program with one header is loaded if the file has its segment and there is
memory for it. -/
theorem loadProgram_single (isLive : live d) (building : Building live d m₀ own₀ 0 m own)
    {off n : Nat} {ph : List UInt8} (read : ip.readi off proghdrSize = some ph)
    (length : ph.length = proghdrSize) (loadable : field ph 0 4 = elfProgLoad)
    (fits : field ph 16 4 ≤ field ph 20 4) (positive : 0 < field ph 8 4 + field ph 20 4)
    (small : field ph 8 4 + field ph 20 4 < kernBase) (aligned : field ph 8 4 % pgSize = 0)
    (inFile : ∀ k < field ph 16 4, ip.byteAt (field ph 4 4) (field ph 16 4) k ≠ none)
    (plenty : Plenty (n + 2 * pagesOf (field ph 8 4 + field ph 20 4)) m) :
    Total (loadProgram d ip 1 off 0) m fun result m' =>
      result = some (field ph 8 4 + field ph 20 4) ∧ Plenty n m' := by
  have noWrap : (field ph 8 4 + field ph 20 4) % 2 ^ 32 = field ph 8 4 + field ph 20 4 :=
    Nat.mod_eq_of_lt (by unfold kernBase at small; omega)
  rw [loadProgram, read]
  simp only
  unfold Total
  rw [if_neg (not_not.mpr length), if_neg (not_not.mpr loadable), if_neg (by omega), noWrap,
    if_neg (by omega), meets_bind]
  refine ((building.alloc isLive _).and ((allocuvm_total building.inv isLive building.hand
    building.small building.above).imp (fun _ _ made => made) fun _ _ => trivial)).mono ?_
  rintro result m₂ ⟨⟨own₂, _, outcome⟩, _, allocated⟩
  obtain ⟨rfl, left⟩ := allocated.enough (Nat.zero_le _) small n plenty
  rcases outcome with ⟨zero, _⟩ | ⟨_, _, building₂, _⟩
  · omega
  rw [if_neg (by omega), if_neg (not_not.mpr aligned), meets_bind]
  refine (building₂.loaduvm ip ⟨field ph 4 4, field ph 8 4, field ph 16 4⟩ isLive aligned
    (Nat.add_le_add_left fits _)).mono ?_
  rintro ok m₃ loaded
  cases ok with
  | false =>
    obtain ⟨k, below, missing⟩ := loaded.failed rfl
    exact absurd missing (inFile k below)
  | true =>
    exact ⟨rfl, left.congr loaded.rewritten.answers loaded.rewritten.allocs loaded.rewritten.frees⟩

end Image

theorem Image.empty (d : Nat) (m : Machine) : Image (fun _ => some 0) d m 0 m :=
  ⟨fun v _ below => absurd below (Nat.not_lt_zero v),
    fun v _ below => absurd below (Nat.not_lt_zero v), fun _ _ _ => rfl, fun _ _ => rfl⟩

theorem Created.building {live : Nat → Prop} {m m₁ : Machine} {own own₁ : Place → Option Nat}
    {d : Nat} (created : Created live m own d m₁ own₁) (noUser : ∀ v, own₁ (.user d v) = none) :
    Building (fun e => e = d ∨ live e) d m own 0 m₁ own₁ :=
  ⟨created.inv, created.elsewhere, created.hand, Nat.zero_le _, fun v =>
    iff_of_false (by simp [noUser v]) (Nat.not_lt_zero v)⟩

/-- For every file, the loop of `exec` that loads the program ends without a panic. It
maps no page above `KERNBASE`, and maps and writes to only pages that it got from
`kalloc`; if it succeeds, those of the new directory. The bytes of the mapped pages are
those of the segments that have been loaded, one over the other, and zero elsewhere.
Where it gives up in a segment, what it has written of it is what the file has there. -/
theorem loader_survives_any_file (kernel : KernelImage) (m : Machine) (ip : File)
    (elf : List UInt8) (once : HandedOutOnce m) :
    ∃ d m₁, (setupkvm kernel).run m = .ok (d, m₁) ∧ (d ≠ 0 → ∃ result m' loaded content,
      (loadProgram d ip (field elf 44 2) (field elf 28 4) 0).run m₁ = .ok (result, m') ∧
      (∀ v < addressPages, userPages ≤ v → m'.present d v = m₁.present d v) ∧
      (∀ page, m.allocs page = m.frees page + 1 → m'.allocs page = m.allocs page) ∧
      (∀ page, m'.allocs page = m.allocs page → m'.bytes page = m.bytes page) ∧
      Partial ip (segments ip (field elf 44 2) (field elf 28 4)) (fun _ => some 0) loaded content ∧
      (∀ size, result = some size →
        (∀ page, ¬ m'.Uses d page → m'.bytes page = m.bytes page) ∧
        (∀ v < userPages, m'.mapped d v ≠ none ↔ v < pagesOf size) ∧
        content = overlay ip (segments ip (field elf 44 2) (field elf 28 4)) fun _ => some 0) ∧
      ∀ v < userPages, ∀ page, m'.mapped d v = some page →
        m.allocs page = m.frees page ∧ m.allocs page < m'.allocs page ∧
        ∀ o < pgSize, some (m'.bytes page o) = content (v * pgSize + o)) := by
  obtain ⟨d, m₁, ran, made, _⟩ := (setupkvm_total kernel once.inv rfl).returns
  refine ⟨d, m₁, ran, fun notZero => ?_⟩
  rcases made with ⟨zero, _⟩ | ⟨own₁, created, noUser⟩
  · exact absurd zero notZero
  obtain ⟨result, m', ran', own', sz, content, loaded, built, image, part, all⟩ :=
    (loadProgram_total (Or.inl rfl) ip _ _ 0 m₁ own₁ _ (created.building noUser)
      (Image.empty d m₁)).returns
  have sizeBound := pagesOf_le_userPages built.small
  have notMine : ∀ page, ¬ Mine d m.inUse page := by
    rintro page ⟨place, mine, holds⟩
    rw [(inUse_eq_some.mp holds).1] at mine
    simp [Place.Of] at mine
  refine ⟨result, m', loaded, content, ran', fun v inSpace isKernel => ?_, fun page handedOut => ?_,
    fun page same => ?_, part, fun size isSize => ?_, ?_⟩
  · have same := image.others v inSpace (by omega)
    unfold Machine.view at same
    simpa [Nat.not_lt.mpr isKernel, Option.map_inj_right] using same
  · exact (built.elsewhere.kept (Place.kstack_outside page d) (by simp)
      (inUse_eq_some.mpr ⟨rfl, handedOut⟩)).1
  · by_contra changed
    have more := (built.elsewhere.touched (Or.inr changed)).resolve_left (notMine page)
    omega
  · obtain ⟨rfl, laid, frees⟩ := all size isSize
    refine ⟨fun page unused => ?_, fun v isUser => ?_, laid.bytes⟩
    · exact built.unused (Or.inl rfl) once.inv notMine (frees.trans created.frees) unused
    · rw [← built.inv.shape.user (Or.inl rfl) isUser]
      exact built.sized v
  · intro v isUser page isMapped
    have inSpace := user_inSpace isUser
    have holds := (built.inv.shape.user (Or.inl rfl) isUser).trans isMapped
    have below : v < pagesOf sz := (built.sized v).mp (by simp [holds])
    have mine : Mine d own' page := ⟨.user d v, Or.inl rfl, holds⟩
    have more := (built.elsewhere.touched (Or.inl mine)).resolve_left (notMine page)
    refine ⟨?_, more, fun o inPage => ?_⟩
    · rcases once page with free | ⟨handedOut, _⟩
      · exact free
      · have kept := (built.elsewhere.kept (Place.kstack_outside page d) (by simp)
          (inUse_eq_some.mpr ⟨rfl, handedOut⟩)).1
        omega
    · have byte := image.bytes v inSpace below o inPage
      rw [mapped_eq_present] at isMapped
      obtain ⟨pte, present, rfl⟩ := Option.map_eq_some_iff.mp isMapped
      unfold Machine.view at byte
      rwa [present, Option.map_some, if_pos isUser] at byte

/-- A program header that asks for a page at address 0, with the first four bytes of
the file. -/
def oneHeader : List UInt8 :=
  [1] ++ List.replicate 15 0 ++ [4, 0, 0, 0, 0, 16] ++ List.replicate 10 0

def oneSegment : File where
  readi off n := some ((oneHeader.drop off).take n)
  bounded := by
    intro off n data read
    rw [← Option.some.inj read]
    exact List.length_take_le _ _

theorem loader_survives_any_file_one_segment : ∃ d m₁ m' page,
    (setupkvm smallKernel).run roomyMachine = .ok (d, m₁) ∧
      (loadProgram d oneSegment 1 0 0).run m₁ = .ok (some pgSize, m') ∧
      m'.mapped d 0 = some page ∧ m'.bytes page 0 = 1 ∧ m'.bytes page 4 = 0 := by
  obtain ⟨d, m₁, own₁, ran, created, noUser, left⟩ :=
    setupkvm_returns smallKernel (fun _ => rfl) roomyMachine_plenty
  have plenty : Plenty (0 + 2 * pagesOf (field oneHeader 8 4 + field oneHeader 20 4)) m₁ :=
    left.mono (by decide)
  have header : oneSegment.readi 0 proghdrSize = some oneHeader := by decide
  have inFile : ∀ k < field oneHeader 16 4,
      oneSegment.byteAt (field oneHeader 4 4) (field oneHeader 16 4) k ≠ none := by decide
  obtain ⟨result, m', ran', isResult, _⟩ := (loadProgram_single (Or.inl rfl)
    (created.building noUser) header (by decide) (by decide) (by decide) (by decide) (by decide)
    (by decide) inFile plenty).returns
  obtain ⟨d', m₁', again, loads⟩ := loader_survives_any_file smallKernel roomyMachine oneSegment
    (List.replicate 44 0 ++ [1, 0]) fun _ => Or.inl rfl
  obtain ⟨rfl, rfl⟩ := Prod.mk.inj (Except.ok.inj (ran.symm.trans again))
  obtain ⟨result', m'', loaded, content, ran'', _, _, _, _, success, bytes⟩ := loads created.notZero
  obtain ⟨rfl, rfl⟩ := Prod.mk.inj (Except.ok.inj (ran'.symm.trans ran''))
  obtain ⟨_, sized, isContent⟩ := success _ isResult
  obtain ⟨page, isPage⟩ := Option.ne_none_iff_exists'.mp ((sized 0 (by decide)).mpr (by decide))
  obtain ⟨_, _, isByte⟩ := bytes 0 (by decide) page isPage
  have first := isByte 0 (by decide)
  have fifth := isByte 4 (by decide)
  rw [isContent] at first fifth
  have isFirst : overlay oneSegment (segments oneSegment 1 0) (fun _ => some 0) 0 = some 1 := by
    decide
  have isFifth : overlay oneSegment (segments oneSegment 1 0) (fun _ => some 0) 4 = some 0 := by
    decide
  exact ⟨d, m₁, m', page, ran, ran'.trans (by rw [isResult]; rfl), isPage,
    Option.some.inj (first.trans isFirst), Option.some.inj (fifth.trans isFifth)⟩

end Rexv6.Vm
