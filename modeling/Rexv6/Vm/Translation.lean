import Rexv6.Vm.AddressSpaces

/-!
Contract: a page directory as a map from virtual to physical addresses.

Owns: the translation that the hardware reads off a directory, what `mappages`
and `setupkvm` make of it, and which pages and entries `deallocuvm` takes away,
for any directory whose page tables are different pages, whoever built it.

Does not own: who else owns pages; `Rexv6.Vm.Mapping` and what follows it have that.
-/

namespace Rexv6.Vm

open Rexv6.Foundation
open Rexv6.Foundation.Program
open Rexv6.Foundation.Ledger (bump bump_self bump_other)
open Function (update)

/-! ## Directories -/

/-- The allocator has handed out the pages of directory `d`. -/
def Kept (m : Machine) (d : Nat) : Prop := ∀ page, m.PartOf d page → ¬ m.Available page

/-- What the hardware makes of a virtual address: the physical address and the
flags of the entry. -/
def Machine.translate (m : Machine) (d va : Nat) : Option (Nat × Nat) :=
  (m.present d (va / pgSize)).map fun pte => (pteAddr pte + va % pgSize, pteFlags pte)

/-! ## Mapping -/

section Map

variable {m : Machine} {d vpn : Nat}

/-- A page table that the allocator had not handed out joins the directory. -/
theorem Directory.withTable (directory : Directory m d) (kept : Kept m d)
    (absent : frame (m.word d (vpn / 1024)) = none) {page : Nat}
    (available : m.Available page) (rest : List Nat) :
    Directory ((m.taken page rest).withTable d (vpn / 1024) page) d ∧
      Kept ((m.taken page rest).withTable d (vpn / 1024) page) d ∧
      frame (((m.taken page rest).withTable d (vpn / 1024) page).word d (vpn / 1024)) = some page ∧
      ∀ v < addressPages, ((m.taken page rest).withTable d (vpn / 1024) page).present d v =
        m.present d v := by
  have notD : page ≠ d := fun same => kept page (Or.inl same) available
  have notTable : ∀ k < 1024, frame (m.word d k) ≠ some page := fun k below framed =>
    kept page (Or.inr ⟨k, below, framed⟩) available
  have fits : page * pgSize ||| pteP ||| pteW ||| pteU < 2 ^ 32 := by
    have small : page < 2 ^ 20 := lt_trans available.2.1 (by decide)
    rw [tableEntry_eq]
    unfold pgSize
    omega
  have words : ∀ k, frame (((m.taken page rest).withTable d (vpn / 1024) page).word d k) =
      if k = vpn / 1024 then some page else frame (m.word d k) := by
    intro k
    unfold Machine.withTable
    by_cases same : k = vpn / 1024
    · rw [if_pos same, same, Machine.word_setWord_self _ fits, frame_tableEntry]
    · rw [if_neg same, Machine.word_setWord_of_ne _ (Or.inr same),
        Machine.word_fill_of_ne _ notD.symm]
      rfl
  refine ⟨⟨?_, ?_⟩, ?_, ?_, ?_⟩
  · intro k below
    rw [words]
    split
    · exact fun same => notD (Option.some.inj same)
    · exact directory.apart below
  · intro k l t kBelow lBelow kFramed lFramed
    rw [words] at kFramed lFramed
    split at kFramed <;> split at lFramed
    · omega
    · exact absurd (kFramed ▸ lFramed) (notTable l lBelow)
    · exact absurd (lFramed ▸ kFramed) (notTable k kBelow)
    · exact directory.once kBelow lBelow kFramed lFramed
  · intro other part again
    have balance : bump m.allocs page other = m.frees other := again.2.2
    by_cases same : other = page
    · rw [same, bump_self, available.2.2] at balance
      omega
    · rw [bump_other _ same] at balance
      refine kept other ?_ ⟨again.1, again.2.1, balance⟩
      rcases part with isD | ⟨k, below, framed⟩
      · exact Or.inl isD
      · rw [words] at framed
        split at framed
        · exact absurd (Option.some.inj framed).symm same
        · exact Or.inr ⟨k, below, framed⟩
  · rw [words, if_pos rfl]
  · intro v inSpace'
    unfold Machine.present Machine.pte
    rw [words]
    split
    · rename_i sameTable
      rw [sameTable, absent, Option.map_some]
      unfold Machine.withTable
      rw [Machine.word_setWord_of_ne _ (Or.inl notD), Machine.word_cleared]
      rfl
    · cases framed : frame (m.word d (v / 1024)) with
      | none => rfl
      | some t =>
        have notNew : t ≠ page := fun same =>
          notTable _ (table_index inSpace') (same ▸ framed)
        have notDir : t ≠ d := fun same =>
          directory.apart (table_index inSpace') (same ▸ framed)
        unfold Machine.withTable
        rw [Option.map_some, Option.map_some, Machine.word_setWord_of_ne _ (Or.inl notDir),
          Machine.word_fill_of_ne _ notNew]
        rfl

/-- The loop of `mappages` maps the pages up to `last`, none of which was
mapped, and no others. -/
theorem mapLoop_maps {last perm : Nat} (lastInSpace : last < addressPages)
    (permSmall : perm < pgSize) :
    ∀ (turns a pa : Nat) (m : Machine), Directory m d → Kept m d → a ≤ last → last - a < turns →
      pa % pgSize = 0 → pa < 2 ^ 32 → (∀ v, a ≤ v → v ≤ last → m.present d v = none) →
      Total (mapLoop d (last * pgSize) perm turns (a * pgSize) pa) m fun ok m' =>
        Directory m' d ∧ Kept m' d ∧ (ok = true → ∀ v < addressPages, m'.present d v =
          if a ≤ v ∧ v ≤ last then some ((pa + (v - a) * pgSize) % 2 ^ 32 ||| perm ||| pteP)
          else m.present d v) := by
  intro turns
  induction turns with
  | zero =>
    intro a pa m _ _ _ enough
    omega
  | succ turns ih =>
    intro a pa m directory kept inRange enough aligned paSmall unmapped
    have inSpace : a < addressPages := lt_of_le_of_lt inRange lastInSpace
    have entry := entry_of_page aligned paSmall permSmall
    -- Whether the page table was there or is new, the rest of the turn is the same.
    have turn : ∀ t m₁, Directory m₁ d → Kept m₁ d →
        frame (m₁.word d (a / 1024)) = some t →
        (∀ v < addressPages, m₁.present d v = m.present d v) →
        Total (do
          if has ((← get).word t (a % 1024)) pteP then
            throw (.panic "remap")
          modify fun m => m.setWord t (a % 1024) (pa ||| perm ||| pteP)
          if a * pgSize = last * pgSize then
            return true
          else
            mapLoop d (last * pgSize) perm turns ((a * pgSize + pgSize) % 2 ^ 32)
              ((pa + pgSize) % 2 ^ 32)) m₁ fun ok m' =>
          Directory m' d ∧ Kept m' d ∧ (ok = true → ∀ v < addressPages, m'.present d v =
            if a ≤ v ∧ v ≤ last then some ((pa + (v - a) * pgSize) % 2 ^ 32 ||| perm ||| pteP)
            else m.present d v) := by
      intro t m₁ directory₁ kept₁ framed same
      have notPresent : has (m₁.word t (a % 1024)) pteP = false := by
        have nothing := unmapped a le_rfl inRange
        rw [← same a inSpace, present_eq_none_iff] at nothing
        unfold Machine.mapped at nothing
        rw [Machine.pte_eq_some framed rfl] at nothing
        exact frame_eq_none_iff.mp nothing
      have stored : ∀ v < addressPages,
          (m₁.setWord t (a % 1024) (pa ||| perm ||| pteP)).present d v =
            if v = a then some (pa ||| perm ||| pteP) else m.present d v := by
        intro v below
        rw [← same v below]
        unfold Machine.present
        rw [directory₁.pte_setWord inSpace framed entry.1 below]
        split
        · simp [entry.2.1]
        · rfl
      have directory₂ : Directory (m₁.setWord t (a % 1024) (pa ||| perm ||| pteP)) d :=
        directory₁.setWord (table_index inSpace) framed
      have kept₂ : Kept (m₁.setWord t (a % 1024) (pa ||| perm ||| pteP)) d := by
        intro page part
        refine kept₁ page (part.imp_right ?_)
        rintro ⟨k, below, isTable⟩
        rw [directory₁.word_setWord (table_index inSpace) framed] at isTable
        exact ⟨k, below, isTable⟩
      unfold Total
      rw [meets_bind, meets_get, if_neg (by simp [notPresent]), meets_bind, meets_modify]
      by_cases isLast : a = last
      · rw [if_pos (by rw [isLast]), meets_pure]
        refine ⟨directory₂, kept₂, fun _ v below => ?_⟩
        rw [stored v below]
        by_cases here : v = a
        · rw [if_pos here, if_pos (by omega), here, Nat.sub_self, Nat.zero_mul, Nat.add_zero,
            Nat.mod_eq_of_lt paSmall]
        · rw [if_neg here, if_neg (by omega)]
      · have nextA : (a * pgSize + pgSize) % 2 ^ 32 = (a + 1) * pgSize := by
          unfold addressPages at lastInSpace
          unfold pgSize
          omega
        have nextAligned : (pa + pgSize) % 2 ^ 32 % pgSize = 0 := by
          unfold pgSize at aligned ⊢
          omega
        rw [if_neg (by unfold pgSize; omega), nextA]
        refine (ih (a + 1) _ _ directory₂ kept₂ (by omega) (by omega) nextAligned
          (Nat.mod_lt _ (by decide)) ?_).mono ?_
        · intro v low high
          rw [stored v (by omega), if_neg (by omega), unmapped v (by omega) high]
        · rintro ok m' ⟨directory', kept', mapped⟩
          refine ⟨directory', kept', fun isOk v below => ?_⟩
          rw [mapped isOk v below]
          by_cases later : a + 1 ≤ v ∧ v ≤ last
          · have samePa : ((pa + pgSize) % 2 ^ 32 + (v - (a + 1)) * pgSize) % 2 ^ 32 =
                (pa + (v - a) * pgSize) % 2 ^ 32 := by
              unfold pgSize
              omega
            rw [if_pos later, if_pos (by omega), samePa]
          · rw [if_neg later, stored v below]
            by_cases here : v = a
            · rw [if_pos here, if_pos (by omega), here, Nat.sub_self, Nat.zero_mul, Nat.add_zero,
                Nat.mod_eq_of_lt paSmall]
            · rw [if_neg here, if_neg (by omega)]
    rw [mapLoop]
    unfold Total
    rw [meets_bind]
    apply walkpgdir_makes inSpace
    · intro rest _ _
      exact ⟨⟨directory.apart, directory.once⟩, kept, fun isOk => absurd isOk (by simp)⟩
    · intro t framed
      exact turn t m directory kept framed fun v _ => rfl
    · intro page rest absent answers available
      obtain ⟨directory₁, kept₁, framed, same⟩ := directory.withTable kept absent available rest
      exact turn page _ directory₁ kept₁ framed same

/-- `mappages` maps the range to the physical addresses from `pa` on, if it
succeeds. -/
theorem mappages_maps {first count pa perm size : Nat} (directory : Directory m d)
    (kept : Kept m d) (covers : count = pagesOf size) (positive : 0 < size)
    (inSpace : first * pgSize + size ≤ 2 ^ 32) (aligned : pa % pgSize = 0) (paSmall : pa < 2 ^ 32)
    (permSmall : perm < pgSize)
    (unmapped : ∀ v, first ≤ v → v < first + count → m.present d v = none) :
    Total (mappages d (first * pgSize) size pa perm) m fun ok m' =>
      Directory m' d ∧ Kept m' d ∧ (ok = true → ∀ v < addressPages, m'.present d v =
        if first ≤ v ∧ v < first + count then
          some ((pa + (v - first) * pgSize) % 2 ^ 32 ||| perm ||| pteP)
        else m.present d v) := by
  have some : 0 < count ∧ first + count ≤ addressPages := by
    rw [covers]
    unfold pagesOf addressPages
    unfold pgSize at inSpace
    omega
  have last : pgRoundDown ((first * pgSize + size + (2 ^ 32 - 1)) % 2 ^ 32) =
      (first + count - 1) * pgSize := by
    rw [covers]
    unfold pgRoundDown pagesOf
    unfold pgSize at inSpace ⊢
    omega
  have start : pgRoundDown (first * pgSize) = first * pgSize := by
    unfold pgRoundDown
    rw [Nat.mul_div_cancel _ (by decide)]
  unfold mappages
  rw [last, start]
  refine (mapLoop_maps (by omega) permSmall addressPages first pa m directory kept (by omega)
    (by omega) aligned paSmall fun v low high => unmapped v low (by omega)).mono ?_
  rintro ok m' ⟨directory', kept', mapped⟩
  refine ⟨directory', kept', fun isOk v below => ?_⟩
  rw [mapped isOk v below]
  by_cases inside : first ≤ v ∧ v < first + count
  · rw [if_pos inside, if_pos (by omega)]
  · rw [if_neg inside, if_neg (by omega)]

end Map

/-! ## The kernel part -/

section Kernel

variable {m : Machine} {d : Nat}

/-- The entry that a list of rows of `kmap` gives virtual page `vpn`. -/
def kmapEntry : List Kmap → (vpn : Nat) → Option Nat
  | [], _ => none
  | k :: rest, vpn =>
    if k.virt ≤ vpn * pgSize ∧ vpn * pgSize < k.virt + k.size then
      some (k.physStart + (vpn * pgSize - k.virt) ||| k.perm ||| pteP)
    else
      kmapEntry rest vpn

theorem Ascending.kmapEntry_below {low tables : Nat} {rows : List Kmap}
    (ascending : Ascending low tables rows)
    {v : Nat} (small : v < low) : kmapEntry rows v = none := by
  induction ascending with
  | nil => rfl
  | cons first count page virt size phys above positive inSpace inMemory permSmall noUser rest
      ih =>
      rw [kmapEntry, if_neg (by rw [virt]; unfold pgSize; omega)]
      exact ih (by omega)

/-- The entry for an address of a row is the one of that row. -/
theorem Ascending.kmapEntry_row {low tables : Nat} {rows : List Kmap}
    (ascending : Ascending low tables rows) {row : Kmap} (member : row ∈ rows) {i : Nat}
    (inside : i < row.size) :
    low * pgSize ≤ row.virt ∧ row.virt % pgSize = 0 ∧ (row.virt + i) / pgSize < addressPages ∧
      row.perm < pgSize ∧ row.physStart % pgSize = 0 ∧ row.physStart + i < 2 ^ 32 ∧
      kmapEntry rows ((row.virt + i) / pgSize) =
        some (row.physStart + i / pgSize * pgSize ||| row.perm ||| pteP) := by
  induction ascending with
  | nil => exact absurd member (by simp)
  | @cons low tables k rest first count page virt size phys above positive inSpace inMemory
      permSmall noUser restAscending ih =>
      unfold addressPages at inSpace
      rcases List.mem_cons.mp member with rfl | inRest
      · rw [size] at inside
        rw [kmapEntry, virt, size, phys]
        have address : page * pgSize + ((first * pgSize + i) / pgSize * pgSize - first * pgSize) =
            page * pgSize + i / pgSize * pgSize := by
          unfold pgSize
          omega
        rw [if_pos (by unfold pgSize at inside ⊢; omega), address]
        unfold addressPages
        unfold pgSize at inside permSmall ⊢
        refine ⟨by omega, by omega, by omega, permSmall, by omega, by omega, rfl⟩
      · obtain ⟨isLow, rest⟩ := ih inRest
        have outside : ¬ (first * pgSize ≤ (row.virt + i) / pgSize * pgSize ∧
            (row.virt + i) / pgSize * pgSize < first * pgSize + count * pgSize) := by
          clear rest
          unfold pgSize at isLow ⊢
          omega
        refine ⟨le_trans (Nat.mul_le_mul_right _ (le_trans above (Nat.le_add_right _ _))) isLow, ?_⟩
        rw [kmapEntry, virt, size, if_neg outside]
        exact rest

/-- The rows are mapped one after the other; a directory that is returned has
the entries of all of them. -/
theorem setupKmap_maps {rows : List Kmap} {low tables : Nat}
    (ascending : Ascending low tables rows) :
    ∀ m, Directory m d → Kept m d →
      (∀ v, low ≤ v → v < addressPages → m.present d v = none) →
      Meets (setupKmap d rows) m (fun result m' => result ≠ 0 → result = d ∧
        ∀ v < addressPages, m'.present d v =
          if v < low then m.present d v else kmapEntry rows v) fun _ => True := by
  induction ascending with
  | nil low =>
    intro m _ _ unmapped _
    refine ⟨rfl, fun v below => ?_⟩
    split
    · rfl
    · exact unmapped v (by omega) below
  | @cons low tables k rest first count page virt size phys above positive inSpace inMemory
      permSmall noUser restAscending ih =>
      intro m directory kept unmapped
      have covers : count = pagesOf (count * pgSize) := by
        unfold pagesOf pgSize
        omega
      rw [setupKmap, ← Kmap.size, virt, size, phys]
      apply Total.bind
      refine (mappages_maps directory kept covers (by unfold pgSize; omega)
        (by unfold addressPages at inSpace; unfold pgSize; omega) (Nat.mul_mod_left _ _)
        (by unfold pgSize; omega) permSmall fun v low high =>
          unmapped v (by omega) (by omega)).mono ?_
      rintro ok m₁ ⟨directory₁, kept₁, mapped⟩
      cases ok with
      | false =>
        exact meets_bind.mpr (meets_true.mono fun _ _ _ notZero => absurd rfl notZero)
      | true =>
        have now := mapped rfl
        refine (ih m₁ directory₁ kept₁ ?_).mono ?_
        · intro v isLow below
          rw [now v below, if_neg (by omega)]
          exact unmapped v (by omega) below
        · intro result m' rows notZero
          obtain ⟨isDir, entries⟩ := rows notZero
          refine ⟨isDir, fun v below => ?_⟩
          have row : kmapEntry (k :: rest) v = if first ≤ v ∧ v < first + count then
              some ((page * pgSize + (v - first) * pgSize) % 2 ^ 32 ||| k.perm ||| pteP)
            else kmapEntry rest v := by
            rw [kmapEntry, virt, size, phys]
            by_cases inside : first ≤ v ∧ v < first + count
            · have address : page * pgSize + (v * pgSize - first * pgSize) =
                  (page * pgSize + (v - first) * pgSize) % 2 ^ 32 := by
                unfold pgSize
                omega
              rw [if_pos (by unfold pgSize; omega), if_pos inside, address]
            · rw [if_neg (by unfold pgSize; omega), if_neg inside]
          rw [entries v below, row, now v below]
          by_cases before : v < first
          · have outside : ¬ (first ≤ v ∧ v < first + count) := by omega
            rw [if_pos (by omega), if_neg outside, if_neg outside,
              restAscending.kmapEntry_below (by omega)]
            split
            · rfl
            · exact unmapped v (by omega) below
          · rw [if_neg (show ¬ v < low by omega)]
            by_cases inside : v < first + count
            · rw [if_pos inside, if_pos (by omega), if_pos (by omega)]
            · rw [if_neg inside, if_neg (by omega)]

/-- A directory that `setupkvm` returns has the entries of `kmap` and no others. -/
theorem setupkvm_maps (kernel : KernelImage) (m : Machine) :
    Meets (setupkvm kernel) m (fun result m' => result ≠ 0 →
      ∀ v < addressPages, m'.present result v = kmapEntry (kmap kernel) v) fun _ => True := by
  obtain ⟨tables, _, ascending⟩ := kmap_ascending kernel
  apply Total.bind
  apply kalloc_total
  · intro rest _ notZero
    exact absurd rfl notZero
  · intro d rest _ available
    have words : ∀ k, frame (((m.taken d rest).fill d fun _ => 0).word d k) = none := by
      intro k
      rw [Machine.word_cleared, frame_zero]
    have directory : Directory ((m.taken d rest).fill d fun _ => 0) d := by
      constructor
      · intro k _
        simp [words k]
      · intro k l t _ _ framed
        simp [words k] at framed
    have kept : Kept ((m.taken d rest).fill d fun _ => 0) d := by
      intro page part again
      have balance : bump m.allocs d page = m.frees page := again.2.2
      rcases part with rfl | ⟨k, _, framed⟩
      · rw [bump_self, available.2.2] at balance
        omega
      · simp [words k] at framed
    have nothing : ∀ v, ((m.taken d rest).fill d fun _ => 0).present d v = none := by
      intro v
      rw [present_eq_none_iff]
      unfold Machine.mapped
      rw [Machine.pte_eq_none (words _) rfl]
      rfl
    rw [if_neg (Nat.pos_iff_ne_zero.mp available.1), meets_bind]
    refine (setupKmap_maps ascending _ directory kept fun v _ _ => nothing v).mono ?_
    intro result m' rows notZero v below
    obtain ⟨rfl, entries⟩ := rows notZero
    rw [entries v below]
    split
    · rename_i isUser
      rw [nothing, ascending.kmapEntry_below isUser]
    · rfl

end Kernel

/-- A page table entry that `mappages` stores translates the addresses of its page. -/
theorem translate_of_present {m : Machine} {d a pa perm : Nat} (aligned : pa % pgSize = 0)
    (paSmall : pa < 2 ^ 32) (permSmall : perm < pgSize)
    (entry : m.present d (a / pgSize) = some (pa ||| perm ||| pteP)) :
    m.translate d a = some (pa + a % pgSize, perm ||| pteP) := by
  have stored := entry_of_page aligned paSmall permSmall
  unfold Machine.translate
  rw [entry, Option.map_some, stored.2.2.1, stored.2.2.2]

/-- Page tables implement a map. `mappages` on a range without a mapped page
returns, also for a range that ends at the top of the address space; when it
succeeds, the range translates to the physical addresses from `pa` on with the
flags asked for, and every other address as before. A directory that `setupkvm`
returns translates each region of `kmap` and nothing below `KERNBASE`. -/
theorem page_tables_implement_map :
    (∀ m d va size pa perm, Directory m d → Kept m d → va % pgSize = 0 → pa % pgSize = 0 →
      pa < 2 ^ 32 → perm < pgSize → 0 < size → va + size ≤ 2 ^ 32 →
      (∀ i < pagesOf size * pgSize, m.translate d (va + i) = none) →
      Total (mappages d va size pa perm) m fun ok m' => ok = true → ∀ a < 2 ^ 32,
        m'.translate d a =
          if va ≤ a ∧ a < va + pagesOf size * pgSize then
            some ((pa + (a - va)) % 2 ^ 32, perm ||| pteP)
          else m.translate d a) ∧
    ∀ kernel m d m', (setupkvm kernel).run m = .ok (d, m') → d ≠ 0 →
      (∀ row ∈ kmap kernel, ∀ i < row.size,
        m'.translate d (row.virt + i) = some (row.physStart + i, row.perm ||| pteP)) ∧
      ∀ a < kernBase, m'.translate d a = none := by
  constructor
  · intro m d va size pa perm directory kept vaAligned paAligned paSmall permSmall positive
      inSpace unmapped
    obtain ⟨first, rfl⟩ : ∃ first, va = first * pgSize :=
      ⟨va / pgSize, (Nat.div_mul_cancel (Nat.dvd_of_mod_eq_zero vaAligned)).symm⟩
    refine (mappages_maps directory kept rfl positive inSpace paAligned paSmall permSmall
      ?_).mono ?_
    · intro v low high
      have nothing := unmapped ((v - first) * pgSize) (by unfold pgSize; omega)
      unfold Machine.translate at nothing
      rwa [Option.map_eq_none_iff, show (first * pgSize + (v - first) * pgSize) / pgSize = v by
        unfold pgSize; omega] at nothing
    · rintro ok m' ⟨_, _, mapped⟩ isOk a below
      have entry := mapped isOk (a / pgSize) (by unfold addressPages pgSize; omega)
      by_cases inside : first * pgSize ≤ a ∧ a < first * pgSize + pagesOf size * pgSize
      · rw [if_pos (by unfold pgSize at inside ⊢; omega)] at entry
        rw [if_pos inside, translate_of_present (by unfold pgSize at paAligned ⊢; omega)
          (Nat.mod_lt _ (by decide)) permSmall entry]
        congr 2
        unfold pgSize at inside paAligned ⊢
        omega
      · rw [if_neg (by unfold pgSize at inside ⊢; omega)] at entry
        rw [if_neg inside]
        unfold Machine.translate
        rw [entry]
  · intro kernel m d m' ran notZero
    have entries := (setupkvm_maps kernel m).of_run ran notZero
    obtain ⟨tables, _, ascending⟩ := kmap_ascending kernel
    constructor
    · intro row isRow i inside
      obtain ⟨_, virtAligned, inSpace, permSmall, physAligned, physSmall, entry⟩ :=
        ascending.kmapEntry_row isRow inside
      rw [translate_of_present (by unfold pgSize at physAligned ⊢; omega) (by unfold pgSize; omega)
        permSmall ((entries _ inSpace).trans entry)]
      congr 2
      unfold pgSize at virtAligned ⊢
      omega
    · intro a isUser
      have nothing := entries (a / pgSize)
        (by unfold addressPages pgSize; unfold kernBase at isUser; omega)
      unfold Machine.translate
      rw [nothing, ascending.kmapEntry_below
        (by unfold userPages pgSize; unfold kernBase at isUser ⊢; omega)]
      rfl

/-- Memory with an empty directory at page 1, and page 2 to be had. -/
def emptyDirectory : Machine := ⟨fun _ _ => 0, [2], update (fun _ => 0) 1 1, fun _ => 0⟩

theorem emptyDirectory_noTable (k : Nat) : frame (emptyDirectory.word 1 k) = none := by
  have cleared : emptyDirectory.word 1 k = 0 := rfl
  rw [cleared, frame_zero]

theorem emptyDirectory_kept : Directory emptyDirectory 1 ∧ Kept emptyDirectory 1 := by
  refine ⟨⟨?_, ?_⟩, ?_⟩
  · intro k _
    simp [emptyDirectory_noTable k]
  · intro k l t _ _ framed
    simp [emptyDirectory_noTable k] at framed
  · rintro page (rfl | ⟨k, _, framed⟩)
    · decide
    · simp [emptyDirectory_noTable k] at framed

/-- The last page of the address space, and the first address of the kernel. -/
theorem page_tables_implement_map_top :
    (∃ m', (mappages 1 (2 ^ 32 - pgSize) pgSize 0x5000 pteW).run emptyDirectory = .ok (true, m') ∧
      m'.translate 1 (2 ^ 32 - 1) = some (0x5fff, 3)) ∧
    ∃ d m', (setupkvm smallKernel).run roomyMachine = .ok (d, m') ∧
      m'.translate d kernBase = some (0, 3) := by
  constructor
  · obtain ⟨directory, kept⟩ := emptyDirectory_kept
    have maps := page_tables_implement_map.1 emptyDirectory 1 (2 ^ 32 - pgSize) pgSize 0x5000 pteW
      directory kept (by decide) (by decide) (by decide) (by decide) (by decide) (by decide)
      fun i _ => by
        unfold Machine.translate Machine.present
        rw [Machine.pte_eq_none (emptyDirectory_noTable _) rfl]
        rfl
    obtain ⟨ok, m', ran, mapped⟩ := maps.returns
    have isOk : ((mappages 1 (2 ^ 32 - pgSize) pgSize 0x5000 pteW).run emptyDirectory).toOption.map
        Prod.fst = some true := by decide +kernel
    rw [ran] at isOk
    obtain rfl : ok = true := Option.some.inj isOk
    exact ⟨m', ran, by rw [mapped rfl _ (by decide)]; decide⟩
  · obtain ⟨d, m', _, ran, created, _⟩ :=
      setupkvm_returns smallKernel (fun _ => rfl) roomyMachine_plenty
    have region := (page_tables_implement_map.2 smallKernel roomyMachine d m' ran created.notZero).1
      ⟨kernBase, 0, extMem, pteW⟩ (by simp [kmap]) 0 (by decide)
    exact ⟨d, m', ran, region⟩

/-! ## Unmapping -/

def advance (a : Nat) : Nat := (a + pgSize) % 2 ^ 32

/-- `deallocuvm` without the jump: the loop visits every page. -/
def visituvm (pgdir oldsz newsz : Nat) : M Nat := do
  if newsz ≥ oldsz then
    return oldsz
  unmapLoop advance pgdir oldsz addressPages (pgRoundUp newsz)
  return newsz

section Unmap

variable {m : Machine} {d vpn low high : Nat}

theorem Removed.refl (m : Machine) (d : Nat) (empty : high ≤ low) : Removed m d low high m := by
  refine ⟨fun k => rfl, fun v below => ?_, fun page => ?_, rfl⟩
  · rw [if_neg (by omega)]
  · rw [Nat.sub_eq_zero_of_le empty]
    rfl

theorem Directory.unmapFrom (count : Nat) : ∀ {m : Machine} {low : Nat}, Directory m d →
    low + count ≤ addressPages → Removed m d low (low + count) (m.unmapFrom d count low) := by
  induction count with
  | zero =>
    intro m low _ _
    exact Removed.refl m d le_rfl
  | succ count ih =>
    intro m low directory inSpace
    obtain ⟨directory₁, first⟩ := directory.unmap (show low < addressPages by omega)
    have rest := ih directory₁ (show low + 1 + count ≤ addressPages by omega)
    rw [Machine.unmapFrom]
    refine ⟨fun k => ?_, fun v below => ?_, fun page => ?_, ?_⟩
    · rw [rest.pdes, first.pdes]
    · rw [rest.ptes v below, first.ptes v below, first.mapped below]
      by_cases here : v = low
      · simp [here]
      · have notFirst : ¬ (low ≤ v ∧ v < low + 1) := by omega
        have notOne : ¬ (low ≤ v ∧ v < low + 1 ∧ m.mapped d v ≠ none) := fun both =>
          notFirst ⟨both.1, both.2.1⟩
        rw [if_neg notFirst, if_neg notOne]
        exact if_congr ⟨fun inside => ⟨by omega, by omega, inside.2.2⟩,
          fun inside => ⟨by omega, by omega, inside.2.2⟩⟩ rfl rfl
    · have later : (List.range' (low + 1) count).countP
          (fun v => (m.unmap d low).mapped d v = some page) =
            (List.range' (low + 1) count).countP fun v => m.mapped d v = some page := by
        apply List.countP_congr
        intro v member
        rw [List.mem_range'_1] at member
        rw [first.mapped (by omega), if_neg (by omega)]
      have restFrees := rest.frees page
      have firstFrees := first.frees page
      rw [Nat.add_sub_cancel_left] at restFrees firstFrees ⊢
      rw [List.range'_one, List.countP_singleton] at firstFrees
      rw [restFrees, firstFrees, later, List.range'_succ, List.countP_cons]
      omega
    · rw [rest.allocs, first.allocs]

/-- `deallocuvm` returns and frees exactly the pages of the present entries
between the two sizes, each once for every entry; it clears exactly these
entries and leaves all other entries of the page tables and the directory alone.
Visiting every page, without the jump over missing page tables, gives the same. -/
theorem deallocuvm_skips_nothing (m : Machine) (d oldsz newsz : Nat) (directory : Directory m d)
    (noZero : ∀ v < userPages, m.mapped d v ≠ some 0) (oldSmall : oldsz ≤ kernBase) :
    ∃ m', (deallocuvm d oldsz newsz).run m = .ok (min newsz oldsz, m') ∧
      (visituvm d oldsz newsz).run m = .ok (min newsz oldsz, m') ∧
      Removed m d (pagesOf newsz) (pagesOf oldsz) m' := by
  unfold deallocuvm visituvm
  by_cases grows : newsz ≥ oldsz
  · rw [if_pos grows, if_pos grows, min_eq_right grows]
    exact ⟨m, rfl, rfl, Removed.refl m d (by unfold pagesOf; omega)⟩
  · have small : newsz ≤ kernBase := by omega
    have fewer : pagesOf newsz ≤ pagesOf oldsz := by
      unfold pagesOf
      omega
    have inUser := pagesOf_le_userPages oldSmall
    have inSpace : userPages < addressPages := by decide
    have steps : Within advance := fun vpn isUser => ⟨1, Nat.one_pos, by omega, next_page isUser⟩
    have skipping := unmapLoop_total oldSmall jump_within addressPages
      (pagesOf newsz) m directory noZero
      (by omega)
    have visiting := unmapLoop_total oldSmall steps addressPages (pagesOf newsz) m directory noZero
      (by omega)
    obtain ⟨_, m₁, skipped, rfl⟩ := skipping.returns
    obtain ⟨_, m₂, visited, rfl⟩ := visiting.returns
    have removed := directory.unmapFrom (pagesOf oldsz - pagesOf newsz)
      (show pagesOf newsz + (pagesOf oldsz - pagesOf newsz) ≤ addressPages by omega)
    rw [Nat.add_sub_cancel' fewer] at removed
    rw [if_neg grows, if_neg grows, pgRoundUp_eq small, deallocLoop_eq, min_eq_left (by omega)]
    refine ⟨_, ?_, ?_, removed⟩
    · rw [StateT.run_bind, skipped]
      rfl
    · rw [StateT.run_bind, visited]
      rfl

end Unmap

/-- The empty directory with a page table for the first 1024 pages, of which
virtual page 3 is mapped. -/
def onePage : Machine :=
  ((emptyDirectory.taken 2 []).withTable 1 (3 / 1024) 2).setWord 2 (3 % 1024)
    (5 * pgSize ||| (pteW ||| pteU) ||| pteP)

theorem onePage_present : Directory onePage 1 ∧ ∀ v < addressPages, onePage.present 1 v =
    if v = 3 then some (5 * pgSize ||| (pteW ||| pteU) ||| pteP) else none := by
  obtain ⟨empty, kept⟩ := emptyDirectory_kept
  obtain ⟨directory, _, framed, same⟩ := empty.withTable kept (emptyDirectory_noTable (3 / 1024))
    (show emptyDirectory.Available 2 by decide) []
  refine ⟨directory.setWord (k := 3 / 1024) (by decide) framed, fun v inSpace => ?_⟩
  unfold Machine.present onePage
  rw [directory.pte_setWord (by decide) framed (by decide) inSpace]
  by_cases here : v = 3
  · rw [if_pos here, if_pos here]
    decide
  · rw [if_neg here, if_neg here]
    refine (same v inSpace).trans ?_
    unfold Machine.present
    rw [Machine.pte_eq_none (emptyDirectory_noTable _) rfl]
    rfl

/-- The one page is freed, and its entry cleared. -/
theorem deallocuvm_skips_nothing_one_page :
    ∃ m', (deallocuvm 1 0x8000 0).run onePage = .ok (0, m') ∧ m'.frees 5 = 1 ∧
      m'.pte 1 3 = some 0 := by
  obtain ⟨directory, present⟩ := onePage_present
  have mapped : ∀ v < addressPages, onePage.mapped 1 v = if v = 3 then some 5 else none := by
    intro v inSpace
    rw [mapped_eq_present, present v inSpace]
    split
    · decide
    · rfl
  have noZero : ∀ v < userPages, onePage.mapped 1 v ≠ some 0 := by
    intro v isUser
    rw [mapped v (user_inSpace isUser)]
    split <;> simp
  obtain ⟨m', ran, _, removed⟩ :=
    deallocuvm_skips_nothing onePage 1 0x8000 0 directory noZero (by decide)
  refine ⟨m', ran, ?_, ?_⟩
  · rw [removed.frees]
    decide +kernel
  · have isMapped : onePage.mapped 1 3 ≠ none := by
      rw [mapped 3 (by decide)]
      simp
    rw [removed.ptes 3 (by decide), if_pos ⟨by decide, by decide, isMapped⟩]

end Rexv6.Vm
