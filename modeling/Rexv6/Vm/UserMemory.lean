import Rexv6.Vm.Mapping

/-!
Contract: growing, shrinking and freeing the user memory of a directory.

Owns: the effect of `deallocuvm`, `allocuvm` and `freevm` on the owners of
pages, on success and on every path that runs out of memory.

Does not own: the sizes that callers remember.
-/

namespace Rexv6.Vm

open Rexv6.Foundation
open Rexv6.Foundation.Program
open Rexv6.Foundation.Ledger (Balanced bump bump_other bump_self le_bump lt_bump)
open Function (update update_eq_self update_of_ne update_self)

/-! ## Sizes in pages -/

def pagesOf (sz : Nat) : Nat := (sz + 4095) / 4096

theorem pgRoundUp_eq {sz : Nat} (small : sz ≤ kernBase) : pgRoundUp sz = pagesOf sz * pgSize := by
  unfold kernBase at small
  unfold pgRoundUp pagesOf pgSize
  omega

theorem page_lt_iff {vpn sz : Nat} : vpn * pgSize < sz ↔ vpn < pagesOf sz := by
  unfold pagesOf pgSize
  omega

theorem pagesOf_le_userPages {sz : Nat} (small : sz ≤ kernBase) : pagesOf sz ≤ userPages := by
  unfold kernBase at small
  unfold pagesOf userPages kernBase pgSize
  omega

theorem next_page {vpn : Nat} (isUser : vpn < userPages) :
    (vpn * pgSize + pgSize) % 2 ^ 32 = (vpn + 1) * pgSize := by
  unfold userPages kernBase pgSize at isUser
  unfold pgSize
  omega

/-! ## Pages outside address spaces -/

section Outside

variable {live : Nat → Prop} {m : Machine} {own : Place → Option Nat} {page : Nat} {place : Place}

theorem Inv.take (inv : Inv live m own) (outside : ∀ d, ¬ place.Of d) (free : own place = none)
    (available : m.Available page) (rest : List Nat) :
    Inv live (m.taken page rest) (update own place (some page)) := by
  constructor
  · refine (inv.shape.setOutside outside ?_).of_bytes rfl
    intro found isPage
    rw [← Option.some.inj isPage]
    exact ⟨available.1, available.2.1⟩
  · exact inv.balanced.acquire free available.2.2

theorem Inv.giveBack (inv : Inv live m own) (outside : ∀ d, ¬ place.Of d)
    (holds : own place = some page) :
    Inv live { m with frees := bump m.frees page } (update own place none) := by
  constructor
  · exact (inv.shape.setOutside outside (by simp)).of_bytes rfl
  · exact inv.balanced.release holds

theorem Inv.view_taken {d v : Nat} (inv : Inv live m own) (isLive : live d)
    (available : m.Available page) (rest : List Nat) (content) (inSpace : v < addressPages) :
    ((m.taken page rest).fill page content).view d v = m.view d v :=
  (Elsewhere.take inv (Or.inr rfl) available rest content).view inv isLive
    (Nat.ne_of_lt d.lt_succ_self)
    inSpace

/-- A page that is no directory and no page table can be written. -/
theorem Inv.fillPage (inv : Inv live m own) (holds : own place = some page)
    (notDir : ∀ e, place ≠ .dir e) (notTable : ∀ e k, place ≠ .table e k) {content} :
    Inv live (m.fill page content) own := by
  refine ⟨inv.shape.fill ?_ ?_, inv.balanced⟩
  · intro e isDir
    exact notDir e (inv.balanced.once holds isDir)
  · intro e k isTable
    exact notTable e k (inv.balanced.once holds isTable)

end Outside

/-! ## Shrinking -/

/-- The loop of `deallocuvm` with the address `next` to go to from an address
that has no page table. -/
def unmapLoop (next : Nat → Nat) (pgdir oldsz : Nat) : (turns a : Nat) → M Unit
  | 0, _ => throw .loop
  | turns + 1, a =>
    if a < oldsz then do
      match ← walkpgdir pgdir a false with
      | none => unmapLoop next pgdir oldsz turns (next a)
      | some (page, index) =>
        let pte := (← get).word page index
        if has pte pteP then
          let pa := pteAddr pte
          if pa = 0 then
            throw (.panic "kfree")
          kfree (pa / pgSize)
          modify fun m => m.setWord page index 0
        unmapLoop next pgdir oldsz turns ((a + pgSize) % 2 ^ 32)
    else
      return ()

/-- The address after the jump of `deallocuvm`. -/
def jump (a : Nat) : Nat :=
  ((pgAddr (pdx a + 1) 0 0 + (2 ^ 32 - pgSize)) % 2 ^ 32 + pgSize) % 2 ^ 32

theorem deallocLoop_eq (pgdir oldsz turns : Nat) :
    ∀ a, deallocLoop pgdir oldsz turns a = unmapLoop jump pgdir oldsz turns a := by
  induction turns with
  | zero =>
    intro a
    rfl
  | succ turns ih =>
    intro a
    simp only [deallocLoop, unmapLoop, ih]
    rfl

/-- From an address without a page table, `next` goes on within that page table, or to
the next one. -/
def Within (next : Nat → Nat) : Prop :=
  ∀ vpn < userPages, ∃ gap, 0 < gap ∧ vpn + gap ≤ (vpn / 1024 + 1) * 1024 ∧
    next (vpn * pgSize) = (vpn + gap) * pgSize

def Machine.unmap (m : Machine) (d vpn : Nat) : Machine :=
  match m.present d vpn with
  | none => m
  | some pte => ({ m with frees := bump m.frees (pte / pgSize) } : Machine).setWord
      (pteAddr (m.word d (vpn / 1024)) / pgSize) (vpn % 1024) 0

def Machine.unmapFrom (m : Machine) (d : Nat) : (count low : Nat) → Machine
  | 0, _ => m
  | count + 1, low => (m.unmap d low).unmapFrom d count (low + 1)

/-- From `m` to `m'`, the pages of `d` from `low` to `high` have been freed, each
once for every entry, these entries are cleared, and all others are kept. -/
structure Removed (m : Machine) (d low high : Nat) (m' : Machine) : Prop where
  pdes : ∀ k, m'.word d k = m.word d k
  ptes : ∀ v < addressPages, m'.pte d v =
    if low ≤ v ∧ v < high ∧ m.mapped d v ≠ none then some 0 else m.pte d v
  frees : ∀ page, m'.frees page = m.frees page +
    (List.range' low (high - low)).countP fun v => m.mapped d v = some page
  allocs : m'.allocs = m.allocs

/-- The user pages of `d` from `low` up to `high` are gone, and nothing else
has moved. -/
structure Unmapped (live : Nat → Prop) (d low high : Nat) (m : Machine)
    (own : Place → Option Nat) (m' : Machine) (own' : Place → Option Nat) : Prop where
  inv : Inv live m' own'
  allocs : m'.allocs = m.allocs
  written : ∀ {page}, m'.bytes page ≠ m.bytes page → ∃ k, own (.table d k) = some page
  view : ∀ v < addressPages, m'.view d v = if low ≤ v ∧ v < high then none else m.view d v
  gone : ∀ v, low ≤ v → v < high → own' (.user d v) = none
  rest : ∀ place, (∀ v, place = .user d v → v < low ∨ high ≤ v) → own' place = own place

section Shrink

variable {live : Nat → Prop} {m m' m'' : Machine} {own own' own'' : Place → Option Nat}
  {d vpn low middle high : Nat}

theorem unmap_of_none (absent : m.present d vpn = none) : m.unmap d vpn = m := by
  unfold Machine.unmap
  rw [absent]

theorem framed_of_present {pte : Nat} (present : m.present d vpn = some pte) :
    ∃ t, frame (m.word d (vpn / 1024)) = some t := by
  rw [← Option.isSome_iff_exists, Option.isSome_iff_ne_none]
  intro absent
  unfold Machine.present at present
  rw [Machine.pte_eq_none absent rfl] at present
  cases present

theorem unmap_of_some {t pte : Nat} (framed : frame (m.word d (vpn / 1024)) = some t)
    (present : m.present d vpn = some pte) :
    m.unmap d vpn =
      ({ m with frees := bump m.frees (pte / pgSize) } : Machine).setWord t (vpn % 1024) 0 := by
  have isTable := pteAddr_of_frame framed
  unfold Machine.unmap
  rw [present]
  simp only [isTable]

theorem Directory.unmap (directory : Directory m d) (inSpace : vpn < addressPages) :
    Directory (m.unmap d vpn) d ∧ Removed m d vpn (vpn + 1) (m.unmap d vpn) := by
  have one : ∀ page, (List.range' vpn (vpn + 1 - vpn)).countP (fun v => m.mapped d v = some page) =
      if m.mapped d vpn = some page then 1 else 0 := by
    intro page
    simp
  cases present : m.present d vpn with
  | none =>
    have unmapped := present_eq_none_iff.mp present
    rw [unmap_of_none present]
    refine ⟨directory, fun k => rfl, fun v below => ?_, fun page => ?_, rfl⟩
    · rw [if_neg]
      rintro ⟨isLow, isHigh, isMapped⟩
      exact isMapped (show v = vpn by omega ▸ unmapped)
    · rw [one, unmapped]
      simp
  | some pte =>
    have isMapped : m.mapped d vpn = some (pte / pgSize) := by
      rw [mapped_eq_present, present, Option.map_some]
    obtain ⟨t, framed⟩ := framed_of_present present
    have directory₁ : Directory ({ m with frees := bump m.frees (pte / pgSize) } : Machine) d :=
      ⟨directory.apart, directory.once⟩
    rw [unmap_of_some framed present]
    refine ⟨directory₁.setWord (table_index inSpace) framed, ?_⟩
    constructor
    · intro k
      exact directory₁.word_setWord (table_index inSpace) framed
    · intro v below
      rw [directory₁.pte_setWord inSpace framed (by decide) below]
      by_cases here : v = vpn
      · rw [if_pos here, if_pos ⟨by omega, by omega, by rw [here, isMapped]; simp⟩]
      · rw [if_neg here, if_neg (by omega)]
        rfl
    · intro page
      rw [one, isMapped]
      by_cases here : page = pte / pgSize
      · rw [here, if_pos rfl]
        exact bump_self _ _
      · rw [if_neg (fun same => here (Option.some.inj same).symm)]
        exact bump_other _ here
    · rfl

theorem Removed.mapped {m' : Machine} (removed : Removed m d low high m') {v : Nat}
    (inSpace : v < addressPages) :
    m'.mapped d v = if low ≤ v ∧ v < high then none else m.mapped d v := by
  unfold Machine.mapped
  rw [removed.ptes v inSpace]
  by_cases inside : low ≤ v ∧ v < high
  · rw [if_pos inside]
    by_cases isMapped : m.mapped d v = none
    · rw [if_neg fun both => both.2.2 isMapped]
      exact isMapped
    · rw [if_pos ⟨inside.1, inside.2, isMapped⟩]
      rfl
  · rw [if_neg inside, if_neg fun both => inside ⟨both.1, both.2.1⟩]

/-- Pages that are not mapped need no visit. -/
theorem unmapFrom_absent {m : Machine} {high : Nat} (gap : Nat) : ∀ {low : Nat},
    (∀ v, low ≤ v → v < low + gap → m.present d v = none) →
    m.unmapFrom d (high - low) low = m.unmapFrom d (high - (low + gap)) (low + gap) := by
  induction gap with
  | zero =>
    intro low _
    rfl
  | succ gap ih =>
    intro low absent
    rw [show low + (gap + 1) = low + 1 + gap by omega,
      ← ih fun v isLow isHigh => absent v (by omega) (by omega)]
    cases left : high - low with
    | zero =>
      rw [show high - (low + 1) = 0 by omega]
      rfl
    | succ count =>
      rw [Machine.unmapFrom, unmap_of_none (absent low le_rfl (by omega)),
        show high - (low + 1) = count by omega]

/-- However the loop goes on from an address without a page table, as long as it
stays within that page table, it does what visiting every page does. -/
theorem unmapLoop_total {next : Nat → Nat} {oldsz : Nat} (oldSmall : oldsz ≤ kernBase)
    (within : Within next) :
    ∀ (turns vpn : Nat) (m : Machine), Directory m d →
      (∀ v < userPages, m.mapped d v ≠ some 0) → pagesOf oldsz - vpn < turns →
      Total (unmapLoop next d oldsz turns (vpn * pgSize)) m fun _ m' =>
        m' = m.unmapFrom d (pagesOf oldsz - vpn) vpn := by
  have userBound := pagesOf_le_userPages oldSmall
  intro turns
  induction turns with
  | zero =>
    intro vpn m _ _ enough
    omega
  | succ turns ih =>
    intro vpn m directory noZero enough
    rw [unmapLoop]
    by_cases inRange : vpn < pagesOf oldsz
    · have isUser : vpn < userPages := by omega
      have inSpace := user_inSpace isUser
      rw [if_pos (page_lt_iff.mpr inRange)]
      unfold Total
      rw [meets_bind]
      apply walkpgdir_finds inSpace
      · intro absent
        obtain ⟨gap, positive, inTable, isNext⟩ := within vpn isUser
        have nothing : ∀ v, vpn ≤ v → v < vpn + gap → m.present d v = none := by
          intro v isLow isHigh
          unfold Machine.present
          rw [Machine.pte_eq_none absent (by omega)]
          rfl
        rw [unmapFrom_absent gap nothing]
        rw [isNext]
        exact ih (vpn + gap) m directory noZero (by omega)
      · intro t framed
        have here : m.present d vpn = if has (m.word t (vpn % 1024)) pteP then
            some (m.word t (vpn % 1024)) else none :=
          present_of_pte (Machine.pte_eq_some framed rfl)
        obtain ⟨directory₁, removed⟩ := directory.unmap inSpace
        have noZero₁ : ∀ v < userPages, (m.unmap d vpn).mapped d v ≠ some 0 := by
          intro v below
          rw [removed.mapped (user_inSpace below)]
          split
          · simp
          · exact noZero v below
        have next := ih (vpn + 1) (m.unmap d vpn) directory₁ noZero₁ (by omega)
        rw [show pagesOf oldsz - vpn = pagesOf oldsz - (vpn + 1) + 1 by omega, Machine.unmapFrom]
        simp only
        rw [meets_bind, meets_get]
        by_cases present : has (m.word t (vpn % 1024)) pteP = true
        · rw [if_pos present] at here
          have pageAddr := pteAddr_div (m.word t (vpn % 1024))
          have notZero : ¬ pteAddr (m.word t (vpn % 1024)) = 0 := by
            intro isZero
            apply noZero vpn isUser
            rw [mapped_eq_present, here, Option.map_some, ← pageAddr, isZero, Nat.zero_div]
          rw [unmap_of_some framed here] at next ⊢
          rw [if_pos present, if_neg notZero, pageAddr, next_page isUser]
          exact next
        · rw [if_neg present] at here
          rw [unmap_of_none here] at next ⊢
          rw [if_neg present, next_page isUser]
          exact next
    · rw [if_neg (by rwa [page_lt_iff]), show pagesOf oldsz - vpn = 0 by omega]
      rfl

theorem Unmapped.refl (inv : Inv live m own) (isLive : live d)
    (absent : ∀ v, low ≤ v → v < high → v < userPages ∧ own (.user d v) = none) :
    Unmapped live d low high m own m own := by
  constructor
  · exact inv
  · rfl
  · exact fun changed => absurd rfl changed
  · intro v _
    split
    · rename_i inside
      obtain ⟨isUser, isNone⟩ := absent v inside.1 inside.2
      exact view_eq_none ((inv.shape.user isLive isUser).symm.trans isNone)
    · rfl
  · intro v isLow isHigh
    exact (absent v isLow isHigh).2
  · intro place _
    rfl

theorem Unmapped.other (unmapped : Unmapped live d low high m own m' own') {place : Place}
    (notOf : ¬ place.Of d) : own' place = own place := by
  apply unmapped.rest
  rintro v rfl
  exact absurd rfl notOf

theorem Unmapped.trans (first : Unmapped live d low middle m own m' own')
    (second : Unmapped live d middle high m' own' m'' own'') (lowMiddle : low ≤ middle)
    (middleHigh : middle ≤ high) : Unmapped live d low high m own m'' own'' := by
  constructor
  · exact second.inv
  · rw [second.allocs, first.allocs]
  · intro page changed
    by_cases same : m''.bytes page = m'.bytes page
    · exact first.written (same ▸ changed)
    · obtain ⟨k, holds⟩ := second.written same
      exact ⟨k, (first.rest _ (by simp)).symm.trans holds⟩
  · intro v below
    rw [second.view v below, first.view v below]
    by_cases before : low ≤ v ∧ v < middle
    · rw [if_pos before, if_pos (show low ≤ v ∧ v < high by omega), ite_self]
    · rw [if_neg before]
      exact if_congr (by omega) rfl rfl
  · intro v isLow isHigh
    by_cases before : v < middle
    · rw [second.rest _ (by simp; omega), first.gone v isLow before]
    · exact second.gone v (by omega) isHigh
  · intro place outside
    rw [second.rest place, first.rest place]
    · intro v isUser
      have := outside v isUser
      omega
    · intro v isUser
      have := outside v isUser
      omega

theorem Unmapped.bytes (unmapped : Unmapped live d low high m own m' own') {place : Place}
    {page : Nat} (notOf : ¬ place.Of d) (holds : own place = some page) :
    m'.bytes page = m.bytes page := by
  by_contra changed
  obtain ⟨k, isTable⟩ := unmapped.written changed
  rw [unmapped.inv.balanced.once ((unmapped.other notOf).trans holds)
    ((unmapped.rest _ (by simp)).trans isTable)] at notOf
  exact notOf rfl

theorem Unmapped.elsewhere (unmapped : Unmapped live d low high m own m' own') :
    Elsewhere d m own m' own' := by
  constructor
  · intro place notOf _
    exact unmapped.other notOf
  · intro place page notOf _ holds
    rw [unmapped.allocs]
    exact ⟨rfl, unmapped.bytes notOf holds⟩
  · intro page
    rw [unmapped.allocs]
  · rintro page (⟨place, mine, holds⟩ | changed)
    · refine Or.inl ⟨place, mine, ?_⟩
      rw [← unmapped.rest place, holds]
      rintro v rfl
      by_contra inside
      rw [unmapped.gone v (by omega) (by omega)] at holds
      cases holds
    · obtain ⟨k, isTable⟩ := unmapped.written changed
      exact Or.inl ⟨.table d k, Or.inl rfl, isTable⟩

theorem Unmapped.hand (unmapped : Unmapped live d low high m own m' own') :
    own' .hand = own .hand :=
  unmapped.rest .hand (by simp)

theorem Inv.unmapPage (inv : Inv live m own) (isLive : live d) {vpn t page : Nat}
    (isUser : vpn < userPages) (table : own (.table d (vpn / 1024)) = some t)
    (holds : own (.user d vpn) = some page) :
    Unmapped live d vpn (vpn + 1) m own
      (({ m with frees := bump m.frees page } : Machine).setWord t (vpn % 1024) 0)
      (update own (.user d vpn) none) := by
  have shape := inv.setUserPte isLive isUser table (by decide : 0 < 2 ^ 32) (by simp [frame_zero])
  constructor
  · exact ⟨shape.of_bytes rfl, inv.balanced.release holds⟩
  · rfl
  · intro other changed
    rw [Machine.eq_of_setWord_changes _ changed]
    exact ⟨vpn / 1024, table⟩
  · intro v below
    have entries := inv.pte_setWord isLive (user_inSpace isUser) table
      (by decide : 0 < 2 ^ 32) isLive below
    by_cases here : v = vpn
    · rw [if_pos (by omega)]
      apply view_eq_none
      exact (congrArg (Option.bind · frame) entries).trans (by simp [here, frame_zero])
    · rw [if_neg (by omega)]
      apply view_congr
      · unfold Machine.present
        exact (congrArg (Option.filter (has · pteP)) entries).trans (by simp [here])
      · intro other isUser' isMapped
        apply Machine.bytes_setWord_of_ne
        rintro rfl
        have place := inv.balanced.once ((inv.shape.user isLive isUser').trans isMapped) table
        exact absurd place (by simp)
  · intro v isLow isHigh
    rw [show v = vpn by omega, update_self]
  · intro place outside
    rw [update_of_ne]
    intro isUser
    have := outside vpn isUser
    omega

theorem Inv.no_table (inv : Inv live m own) (isLive : live d) (isUser : vpn < userPages)
    (missing : own (.table d (vpn / 1024)) = none) : own (.user d vpn) = none := by
  have inSpace := user_inSpace isUser
  rw [inv.shape.table isLive (table_index inSpace)] at missing
  rw [inv.shape.user isLive isUser]
  unfold Machine.mapped
  rw [Machine.pte_eq_none missing rfl]
  rfl

theorem Inv.unmap (inv : Inv live m own) (isLive : live d) (isUser : vpn < userPages) :
    ∃ own', Unmapped live d vpn (vpn + 1) m own (m.unmap d vpn) own' := by
  have reading := inv.shape.user isLive isUser
  rw [mapped_eq_present] at reading
  cases present : m.present d vpn with
  | none =>
    rw [present] at reading
    rw [unmap_of_none present]
    refine ⟨own, Unmapped.refl inv isLive fun v isLow isHigh => ?_⟩
    rw [show v = vpn by omega]
    exact ⟨isUser, reading⟩
  | some pte =>
    rw [present] at reading
    obtain ⟨t, framed⟩ := framed_of_present present
    have table := inv.shape.table isLive (table_index (user_inSpace isUser))
    rw [unmap_of_some framed present]
    exact ⟨_, inv.unmapPage isLive isUser (table.trans framed) reading⟩

theorem Inv.unmapFrom (isLive : live d) (count : Nat) : ∀ {m : Machine} {own : Place → Option Nat}
    {low : Nat}, Inv live m own → low + count ≤ userPages →
    ∃ own', Unmapped live d low (low + count) m own (m.unmapFrom d count low) own' := by
  induction count with
  | zero =>
    intro m own low inv _
    exact ⟨own, Unmapped.refl inv isLive fun v isLow isHigh => absurd isHigh (by omega)⟩
  | succ count ih =>
    intro m own low inv inUser
    obtain ⟨own₁, first⟩ := inv.unmap isLive (show low < userPages by omega)
    obtain ⟨own', rest⟩ := ih first.inv (show low + 1 + count ≤ userPages by omega)
    rw [Nat.add_right_comm] at rest
    exact ⟨own', first.trans rest (by omega) (by omega)⟩

theorem next_table (isUser : vpn < userPages) :
    jump (vpn * pgSize) = (vpn / 1024 + 1) * 1024 * pgSize := by
  have inSpace := user_inSpace isUser
  unfold jump
  rw [pdx_page inSpace]
  unfold pgAddr
  rw [Nat.zero_shiftLeft, Nat.or_zero, Nat.or_zero, Nat.shiftLeft_eq]
  unfold userPages kernBase pgSize at isUser
  unfold pgSize
  omega

/-- The jump stays within the page table that is missing. -/
theorem jump_within : Within jump := by
  intro vpn isUser
  refine ⟨(vpn / 1024 + 1) * 1024 - vpn, by omega, by omega, ?_⟩
  rw [next_table isUser]
  congr 1
  omega

/-- `deallocuvm` unmaps exactly the pages between the two sizes. -/
theorem deallocuvm_total (inv : Inv live m own) (isLive : live d) {oldsz newsz : Nat}
    (oldSmall : oldsz ≤ kernBase) :
    Total (deallocuvm d oldsz newsz) m fun result m' =>
      result = min newsz oldsz ∧
        ∃ own', Unmapped live d (pagesOf newsz) (pagesOf oldsz) m own m' own' := by
  unfold deallocuvm
  by_cases grows : newsz ≥ oldsz
  · rw [if_pos grows]
    refine ⟨by omega, own, Unmapped.refl inv isLive fun v isLow isHigh => absurd isHigh ?_⟩
    unfold pagesOf at isLow ⊢
    omega
  · have fewer : pagesOf newsz ≤ pagesOf oldsz := by
      unfold pagesOf
      omega
    have bound := pagesOf_le_userPages oldSmall
    have inSpace : userPages < addressPages := by decide
    have noZero : ∀ v < userPages, m.mapped d v ≠ some 0 := by
      intro v isUser isZero
      have positive := (inv.shape.inPool ((inv.shape.user isLive isUser).trans isZero)).1
      exact absurd positive (lt_irrefl 0)
    rw [if_neg grows, deallocLoop_eq, pgRoundUp_eq (by omega)]
    refine Total.bind ((unmapLoop_total oldSmall jump_within addressPages _ m
      (inv.directory isLive) noZero (by omega)).mono ?_)
    rintro _ _ rfl
    have unmapped := Inv.unmapFrom isLive (pagesOf oldsz - pagesOf newsz) inv
      (show pagesOf newsz + (pagesOf oldsz - pagesOf newsz) ≤ userPages by omega)
    rw [Nat.add_sub_cancel' fewer] at unmapped
    exact ⟨by omega, unmapped⟩

end Shrink

/-! ## Growing -/

/-- A page that `allocuvm` adds: cleared, and writable by user code. -/
def newPage : Foundation.LittleEndian.Bytes × Nat := (fun _ => 0, pteW ||| pteU ||| pteP)

/-- Growing the user memory of `d` to the pages below `high`, begun at `low`:
either the pages from `vpn` on were added, or all from `low` on are gone. -/
structure Grown (live : Nat → Prop) (d low vpn high newsz : Nat) (m : Machine)
    (own : Place → Option Nat) (result : Nat) (m' : Machine) (own' : Place → Option Nat) :
    Prop where
  inv : Inv live m' own'
  elsewhere : Elsewhere d m own m' own'
  hand : own' .hand = none
  outcome : (result = newsz ∧ (∀ v, vpn ≤ v → v < high → own' (.user d v) ≠ none) ∧
      (∀ v, v < vpn ∨ high ≤ v → own' (.user d v) = own (.user d v)) ∧
      (∀ v < addressPages,
        m'.view d v = if vpn ≤ v ∧ v < high then some newPage else m.view d v) ∧
      m'.frees = m.frees) ∨
    (result = 0 ∧ (∀ v, low ≤ v → v < high → own' (.user d v) = none) ∧
      (∀ v, v < low ∨ high ≤ v → own' (.user d v) = own (.user d v)) ∧
      ∀ v < addressPages, m'.view d v = if low ≤ v ∧ v < high then none else m.view d v)
  enough : ∀ n, Plenty (n + 2 * (high - vpn)) m → result = newsz ∧ Plenty n m'

section Grow

variable {live : Nat → Prop} {m m' m'' : Machine} {own own' own'' : Place → Option Nat}
  {d low vpn high newsz : Nat}

/-- Giving up: the pages from `low` on are unmapped, and with them those that
this call had added before. -/
theorem Unmapped.abandon {m₁ : Machine} {own₁ : Place → Option Nat}
    (unmapped : Unmapped live d low high m₁ own₁ m' own') (before : Elsewhere d m own m₁ own₁)
    (same : ∀ v, own₁ (.user d v) = own (.user d v))
    (views : ∀ v < addressPages, m₁.view d v = m.view d v) (inv : Inv live m'' own'')
    (allocs : m''.allocs = m'.allocs) (bytes : m''.bytes = m'.bytes)
    (others : ∀ place, place ≠ .hand → own'' place = own' place) (free : own'' .hand = none)
    (scarce : ∀ n, ¬ Plenty (n + 2 * (high - vpn)) m) :
    Grown live d low vpn high newsz m own 0 m'' own'' := by
  constructor
  · exact inv
  · refine (before.trans unmapped.elsewhere).of_bytes allocs bytes (others _) fun isHand => ?_
    rw [free] at isHand
    cases isHand
  · exact free
  · refine Or.inr ⟨rfl, ?_, ?_, ?_⟩
    · intro v isLow isHigh
      rw [others _ (by simp), unmapped.gone v isLow isHigh]
    · intro v outside
      rw [others _ (by simp), unmapped.rest _ (by simpa using outside), same]
    · intro v below
      rw [view_of_bytes bytes, unmapped.view v below, views v below]
  · intro n plenty
    exact absurd plenty (scarce n)

theorem allocLoop_total (isLive : live d) {oldsz newsz : Nat} (newSmall : newsz < kernBase) :
    ∀ (turns vpn : Nat) (m : Machine) (own : Place → Option Nat), Inv live m own →
      own .hand = none → pagesOf oldsz ≤ vpn → pagesOf newsz - vpn < turns →
      (∀ v, vpn ≤ v → v < pagesOf newsz → own (.user d v) = none) →
      Total (allocLoop d oldsz newsz turns (vpn * pgSize)) m fun result m' =>
        ∃ own', Grown live d (pagesOf oldsz) vpn (pagesOf newsz) newsz m own result m' own' := by
  have userBound := pagesOf_le_userPages newSmall.le
  intro turns
  induction turns with
  | zero =>
    intro vpn m own _ _ _ enough
    omega
  | succ turns ih =>
    intro vpn m own inv free begun enough above
    rw [allocLoop]
    by_cases inRange : vpn < pagesOf newsz
    · have isUser : vpn < userPages := by omega
      have needs : ∀ n, n + 2 * (pagesOf newsz - vpn) =
          n + 2 * (pagesOf newsz - (vpn + 1)) + 1 + 1 := by omega
      rw [if_pos (page_lt_iff.mpr inRange)]
      unfold Total
      rw [meets_bind]
      apply kalloc_total
      · intro rest scarce
        rw [if_pos rfl, meets_bind]
        refine (deallocuvm_total (inv.refused rest) isLive newSmall.le).mono ?_
        rintro _ m' ⟨_, own', unmapped⟩
        refine ⟨own', unmapped.abandon (Extended.refused inv rest).elsewhere (fun _ => rfl)
          (fun _ _ => rfl) unmapped.inv rfl rfl (fun _ _ => rfl) ?_ ?_⟩
        · rw [unmapped.hand, free]
        · intro n
          rw [needs]
          exact scarce _
      · intro mem rest answers available
        have handInv : Inv live ((m.taken mem rest).fill mem fun _ => 0)
            (update own .hand (some mem)) :=
          (inv.take Place.hand_outside free available rest).fillPage
            (update_self Place.hand (some mem) own) (by simp) (by simp)
        have handElsewhere : Elsewhere d m own ((m.taken mem rest).fill mem fun _ => 0)
            (update own .hand (some mem)) :=
          Elsewhere.take inv (Or.inr rfl) available rest _
        have sameUsers : ∀ v, update own .hand (some mem) (.user d v) =
            own (.user d v) := fun v => by rw [update_of_ne (by simp)]
        rw [if_neg (Nat.pos_iff_ne_zero.mp available.1), meets_bind]
        unfold memset
        rw [meets_modify, meets_bind]
        apply mappages_user_total handInv isLive isUser (update_self _ _ _)
          (by rw [sameUsers, above vpn le_rfl inRange]) (by decide)
        · intro rest' scarce
          rw [if_neg (by simp), meets_bind]
          refine (deallocuvm_total (handInv.refused rest') isLive newSmall.le).mono ?_
          rintro _ m' ⟨_, own', unmapped⟩
          have inHand : own' .hand = some mem := by
            rw [unmapped.hand, update_self]
          exact ⟨update own' .hand none,
            unmapped.abandon (handElsewhere.of_bytes rfl rfl (fun _ => rfl) id) sameUsers
              (fun v below => inv.view_taken isLive available rest _ below)
              (unmapped.inv.giveBack Place.hand_outside inHand) rfl rfl
              (fun place notHand => update_of_ne notHand _ _)
              (update_self _ _ _) fun n plenty =>
                scarce _ (Plenty.taken (needs n ▸ plenty) answers).2⟩
        · intro m₁ own₁ placed
          have sameViews : ∀ v < addressPages, m₁.view d v =
              if v = vpn then some newPage else m.view d v := by
            intro v below
            rw [placed.view v below, inv.view_taken isLive available rest _ below,
              Machine.bytes_fill_self, newPage]
          rw [if_pos rfl, next_page isUser]
          refine (ih (vpn + 1) m₁ own₁ placed.inv placed.hand (by omega) (by omega)
            ?_).mono ?_
          · intro v isLow isHigh
            rw [placed.users, if_neg (by omega), sameUsers, above v (by omega) isHigh]
          · rintro result m' ⟨own', grown⟩
            have plentyLeft : ∀ n, Plenty (n + 2 * (pagesOf newsz - vpn)) m →
                result = newsz ∧ Plenty n m' := fun n plenty =>
              grown.enough n (placed.plenty _ (Plenty.taken (needs n ▸ plenty) answers).2)
            refine ⟨own', grown.inv, (handElsewhere.trans placed.elsewhere).trans grown.elsewhere,
              grown.hand, ?_, plentyLeft⟩
            rcases grown.outcome with ⟨size, added, others, views, frees⟩ |
              ⟨zero, gone, others, views⟩
            · refine Or.inl ⟨size, ?_, ?_, ?_, frees.trans placed.frees⟩
              · intro v isLow isHigh
                by_cases isFirst : v = vpn
                · rw [others v (by omega), placed.users, if_pos isFirst]
                  simp
                · exact added v (by omega) isHigh
              · intro v outside
                rw [others v (by omega), placed.users, if_neg (by omega), sameUsers]
              · intro v below
                rw [views v below, sameViews v below]
                by_cases isFirst : v = vpn
                · rw [if_neg (by omega), if_pos isFirst, if_pos (by omega)]
                · rw [if_neg isFirst]
                  exact if_congr (by omega) rfl rfl
            · refine Or.inr ⟨zero, gone, ?_, ?_⟩
              · intro v outside
                rw [others v outside, placed.users, if_neg (by omega), sameUsers]
              · intro v below
                rw [views v below, sameViews v below]
                by_cases isFirst : v = vpn
                · rw [if_pos (by omega), if_pos (by omega)]
                · rw [if_neg isFirst]
    · rw [if_neg (by rwa [page_lt_iff])]
      refine ⟨own, inv, Elsewhere.refl d m own, free, Or.inl ⟨rfl, ?_, fun v _ => rfl, ?_, rfl⟩,
        fun n plenty => ⟨rfl, plenty.mono (by omega)⟩⟩
      · intro v isLow isHigh
        omega
      · intro v _
        rw [if_neg (by omega)]

/-- What `allocuvm` can do when no page is mapped from the old size on: it
fails and leaves the address space alone, it adds the pages up to the new size,
or the new size is smaller and it does nothing. -/
structure Allocated (live : Nat → Prop) (d oldsz newsz : Nat) (m : Machine)
    (own : Place → Option Nat) (result : Nat) (m' : Machine) (own' : Place → Option Nat) :
    Prop where
  inv : Inv live m' own'
  elsewhere : Elsewhere d m own m' own'
  hand : own' .hand = none
  outcome : (result = 0 ∧ (∀ v, own' (.user d v) = own (.user d v)) ∧
      ∀ v < addressPages, m'.view d v = m.view d v) ∨
    (oldsz ≤ newsz ∧ newsz < kernBase ∧ result = newsz ∧
      (∀ v, pagesOf oldsz ≤ v → v < pagesOf newsz → own' (.user d v) ≠ none) ∧
      (∀ v, v < pagesOf oldsz ∨ pagesOf newsz ≤ v → own' (.user d v) = own (.user d v)) ∧
      (∀ v < addressPages, m'.view d v =
        if pagesOf oldsz ≤ v ∧ v < pagesOf newsz then some newPage else m.view d v) ∧
      m'.frees = m.frees) ∨
    (newsz < oldsz ∧ result = oldsz ∧ (∀ v, own' (.user d v) = own (.user d v)) ∧
      (∀ v < addressPages, m'.view d v = m.view d v) ∧ m'.frees = m.frees)
  enough : oldsz ≤ newsz → newsz < kernBase → ∀ n,
    Plenty (n + 2 * (pagesOf newsz - pagesOf oldsz)) m → result = newsz ∧ Plenty n m'

theorem allocuvm_total (inv : Inv live m own) (isLive : live d) (free : own .hand = none)
    {oldsz newsz : Nat} (oldSmall : oldsz ≤ kernBase)
    (above : ∀ v, pagesOf oldsz ≤ v → own (.user d v) = none) :
    Total (allocuvm d oldsz newsz) m fun result m' =>
      ∃ own', Allocated live d oldsz newsz m own result m' own' := by
  unfold allocuvm
  by_cases tooLarge : newsz ≥ kernBase
  · rw [if_pos tooLarge]
    exact ⟨own, inv, Elsewhere.refl d m own, free, Or.inl ⟨rfl, fun _ => rfl, fun _ _ => rfl⟩,
      fun _ small => absurd small (by omega)⟩
  · rw [if_neg tooLarge]
    by_cases shrinks : newsz < oldsz
    · rw [if_pos shrinks]
      exact ⟨own, inv, Elsewhere.refl d m own, free, Or.inr (Or.inr
        ⟨shrinks, rfl, fun _ => rfl, fun _ _ => rfl, rfl⟩), fun grows => absurd grows (by omega)⟩
    · rw [if_neg shrinks, pgRoundUp_eq oldSmall]
      have newSmall : newsz < kernBase := by omega
      have enough : pagesOf newsz - pagesOf oldsz < addressPages := by
        have bound := pagesOf_le_userPages newSmall.le
        have : userPages < addressPages := by decide
        omega
      refine (allocLoop_total isLive newSmall addressPages _ m own inv free le_rfl enough
        fun v isLow _ => above v isLow).mono ?_
      rintro result m' ⟨own', grown⟩
      refine ⟨own', grown.inv, grown.elsewhere, grown.hand, ?_, fun _ _ => grown.enough⟩
      rcases grown.outcome with ⟨size, added, others, views⟩ | ⟨zero, gone, others, views⟩
      · exact Or.inr (Or.inl ⟨by omega, newSmall, size, added, others, views⟩)
      · refine Or.inl ⟨zero, ?_, ?_⟩
        · intro v
          by_cases inside : pagesOf oldsz ≤ v ∧ v < pagesOf newsz
          · rw [gone v inside.1 inside.2, above v inside.1]
          · exact others v (by omega)
        · intro v below
          rw [views v below]
          by_cases inside : pagesOf oldsz ≤ v ∧ v < pagesOf newsz
          · have bound := pagesOf_le_userPages newSmall.le
            rw [if_pos inside, view_eq_none]
            rw [← inv.shape.user isLive (by omega), above v inside.1]
          · rw [if_neg inside]

end Grow

/-! ## Freeing an address space -/

section Free

variable {live : Nat → Prop} {m : Machine} {own : Place → Option Nat} {d : Nat}

def strip (d : Nat) (own : Place → Option Nat) : Place → Option Nat := fun place =>
  if place.Of d then none else own place

theorem strip_of {place : Place} (ofD : place.Of d) : strip d own place = none := if_pos ofD

theorem strip_not {place : Place} (notOf : ¬ place.Of d) : strip d own place = own place :=
  if_neg notOf

theorem strip_eq_some {place : Place} {page : Nat} :
    strip d own place = some page ↔ ¬ place.Of d ∧ own place = some page := by
  by_cases ofD : place.Of d
  · simp [strip_of ofD, ofD]
  · simp [strip_not ofD, ofD]

theorem strip_congr {own' : Place → Option Nat}
    (same : ∀ place, ¬ place.Of d → own' place = own place) : strip d own' = strip d own := by
  funext place
  by_cases ofD : place.Of d
  · rw [strip_of ofD, strip_of ofD]
  · rw [strip_not ofD, strip_not ofD, same place ofD]

/-- Without directory `d`, the other address spaces are read as before. -/
theorem Shape.strip (shape : Shape live m own) :
    Shape (fun e => live e ∧ e ≠ d) m (strip d own) := by
  constructor
  · rintro e ⟨isLive, other⟩
    rw [strip_not (show ¬ (Place.dir e).Of d from other), shape.dir isLive]
  · rintro e k ⟨isLive, other⟩ below
    rw [strip_not (show ¬ (Place.table e k).Of d from other), shape.table isLive below]
  · rintro e vpn ⟨isLive, other⟩ below
    rw [strip_not (show ¬ (Place.user e vpn).Of d from other), shape.user isLive below]
  · rintro e vpn pte ⟨isLive, _⟩
    exact shape.kernel isLive
  · intro e place notLive ofE
    by_cases ofD : place.Of d
    · exact strip_of ofD
    · rw [strip_not ofD]
      apply shape.dead _ ofE
      intro isLive
      apply notLive
      refine ⟨isLive, ?_⟩
      rintro rfl
      exact ofD ofE
  · intro e k large
    unfold Vm.strip
    split
    · rfl
    · exact shape.tableRange large
  · intro e vpn large
    unfold Vm.strip
    split
    · rfl
    · exact shape.userRange large
  · intro place page holds
    exact shape.inPool (strip_eq_some.mp holds).2

/-- The page tables of `d` from entry `i` on have been freed. -/
structure Freed (d i : Nat) (m : Machine) (own : Place → Option Nat) (m' : Machine)
    (own' : Place → Option Nat) : Prop where
  balanced : Balanced own' m'.allocs m'.frees
  bytes : m'.bytes = m.bytes
  allocs : m'.allocs = m.allocs
  gone : ∀ k, i ≤ k → k < 1024 → own' (.table d k) = none
  others : ∀ place, (∀ k, i ≤ k → k < 1024 → place ≠ .table d k) → own' place = own place

/-- The loop of `freevm` over the page directory frees each page table once. -/
theorem freeTables_total :
    ∀ (left i : Nat) (m : Machine) (own : Place → Option Nat), i + left = 1024 →
      Balanced own m.allocs m.frees →
      (∀ k, i ≤ k → k < 1024 → own (.table d k) = frame (m.word d k)) →
      Total (freeTables d left i) m fun _ m' => ∃ own', Freed d i m own m' own' := by
  intro left
  induction left with
  | zero =>
    intro i m own all balanced _
    exact ⟨own, balanced, rfl, rfl, fun k isLow isHigh => absurd isHigh (by omega), fun _ _ => rfl⟩
  | succ left ih =>
    intro i m own all balanced tables
    -- Whether there was a page table or not, entry `i` has none now.
    have rest : ∀ frees, Balanced (update own (.table d i) none) m.allocs frees →
        Total (freeTables d left (i + 1)) { m with frees } fun _ m' =>
          ∃ own', Freed d i m own m' own' := by
      intro frees balanced
      refine (ih (i + 1) { m with frees } _ (by omega) balanced fun k isLow isHigh => ?_).mono ?_
      · rw [update_of_ne (by simp; omega)]
        exact tables k (by omega) isHigh
      · rintro _ m' ⟨own', freed⟩
        refine ⟨own', freed.balanced, freed.bytes, freed.allocs, fun k isLow isHigh => ?_,
          fun place outside => ?_⟩
        · by_cases isFirst : k = i
          · rw [freed.others _ (by simp; omega), isFirst, update_self]
          · exact freed.gone k (by omega) isHigh
        · rw [freed.others place fun k isLow => outside k (by omega),
            update_of_ne (outside i le_rfl (by omega))]
    rw [freeTables]
    unfold Total
    rw [meets_bind, meets_get]
    have here := tables i le_rfl (by omega)
    by_cases present : has (m.word d i) pteP = true
    · rw [frame_present present] at here
      rw [if_pos present]
      exact rest _ (balanced.release here)
    · rw [frame_eq_none_iff.mpr (by simpa using present)] at here
      rw [if_neg present]
      refine rest m.frees ?_
      rwa [← here, update_eq_self]

/-- `freevm` frees every page of the address space and no other. -/
theorem freevm_total (inv : Inv live m own) (isLive : live d) :
    Total (freevm d) m fun _ m' =>
      Inv (fun e => live e ∧ e ≠ d) m' (strip d own) ∧ m'.allocs = m.allocs ∧
        ∀ {place page}, strip d own place = some page → m'.bytes page = m.bytes page := by
  have notZero : ¬ d = 0 := Nat.pos_iff_ne_zero.mp (inv.shape.inPool (inv.shape.dir isLive)).1
  unfold freevm Total
  rw [if_neg notZero, meets_bind]
  refine (deallocuvm_total inv isLive le_rfl).mono ?_
  rintro _ m₁ ⟨_, own₁, unmapped⟩
  rw [meets_bind]
  refine (freeTables_total 1024 0 m₁ own₁ rfl unmapped.inv.balanced fun k _ below =>
    unmapped.inv.shape.table isLive below).mono ?_
  rintro _ m₂ ⟨own₂, freed⟩
  have dirHolds : own₂ (.dir d) = some d := by
    rw [freed.others _ (by simp), unmapped.inv.shape.dir isLive]
  have userGone : ∀ v, own₁ (.user d v) = none := by
    intro v
    by_cases isUser : v < userPages
    · exact unmapped.gone v (Nat.zero_le v) isUser
    · exact unmapped.inv.shape.userRange (by omega)
  have tableGone : ∀ k, own₂ (.table d k) = none := by
    intro k
    by_cases below : k < 1024
    · exact freed.gone k (Nat.zero_le k) below
    · rw [freed.others _ (by simp; omega)]
      exact unmapped.inv.shape.tableRange (by omega)
  have othersKept : strip d own₁ = strip d own := strip_congr fun _ => unmapped.other
  have stripped : update own₂ (.dir d) none = strip d own₁ := by
    funext place
    by_cases isDir : place = .dir d
    · rw [isDir, update_self, strip_of (show (Place.dir d).Of d from rfl)]
    · rw [update_of_ne isDir]
      by_cases ofD : place.Of d
      · rw [strip_of ofD]
        cases place with
        | dir e => exact absurd (congrArg Place.dir ofD) isDir
        | table e k =>
          rw [show e = d from ofD]
          exact tableGone k
        | user e v =>
          rw [show e = d from ofD, freed.others _ (by simp)]
          exact userGone v
        | kstack slot => exact ofD.elim
        | hand => exact ofD.elim
      · rw [strip_not ofD]
        apply freed.others
        rintro k _ _ rfl
        exact ofD rfl
  refine ⟨⟨?_, ?_⟩, ?_, ?_⟩
  · rw [← othersKept]
    exact unmapped.inv.shape.strip.of_bytes freed.bytes
  · rw [← othersKept, ← stripped]
    exact freed.balanced.release dirHolds
  · rw [freed.allocs, unmapped.allocs]
  · intro place page holds
    obtain ⟨notOf, holds⟩ := strip_eq_some.mp holds
    rw [freed.bytes]
    exact unmapped.bytes notOf holds

end Free

end Rexv6.Vm
