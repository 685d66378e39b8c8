import Rexv6.Vm.PageTables

/-!
Contract: what `kalloc`, `walkpgdir` and `mappages` do to the owners of pages.

Owns: the frame that every operation on one directory keeps for all others, and
the effect of walking to an entry, of mapping one user page and of mapping a
range of kernel pages, whether or not the allocator has a page table to give.

Does not own: loops over user memory.
-/

namespace Rexv6.Vm

open Rexv6.Foundation
open Rexv6.Foundation.Program
open Rexv6.Foundation.Ledger (Balanced bump bump_other le_bump lt_bump)
open Function (update update_comm update_of_ne update_self)

/-- A program of the kernel that must not stop. -/
abbrev Total {α : Type} (program : M α) (m : Machine) (post : α → Machine → Prop) : Prop :=
  Meets program m post fun _ => False

theorem Total.bind {α β : Type} {program : M α} {next : α → M β} {m : Machine}
    {post : β → Machine → Prop} {stops : Stop → Prop}
    (total : Total program m fun value after => Meets (next value) after post stops) :
    Meets (program >>= next) m post stops :=
  meets_bind.mpr (total.imp (fun _ _ holds => holds) fun _ impossible => impossible.elim)

/-! ## The rest of the system -/

def Mine (d : Nat) (own : Place → Option Nat) (page : Nat) : Prop :=
  ∃ place : Place, (place.Of d ∨ place = .hand) ∧ own place = some page

/-- An operation on directory `d` moves no page of any other place and writes to
none, and the allocator does not hand such a page out meanwhile. What it takes for
itself or writes to was its own before or comes from the allocator. -/
structure Elsewhere (d : Nat) (m : Machine) (own : Place → Option Nat) (m' : Machine)
    (own' : Place → Option Nat) : Prop where
  places : ∀ {place}, ¬ place.Of d → place ≠ .hand → own' place = own place
  kept : ∀ {place page}, ¬ place.Of d → place ≠ .hand → own place = some page →
    m'.allocs page = m.allocs page ∧ m'.bytes page = m.bytes page
  grows : ∀ page, m.allocs page ≤ m'.allocs page
  touched : ∀ {page}, Mine d own' page ∨ m'.bytes page ≠ m.bytes page →
    Mine d own page ∨ m.allocs page < m'.allocs page

theorem Elsewhere.refl (d : Nat) (m : Machine) (own : Place → Option Nat) :
    Elsewhere d m own m own := by
  refine ⟨fun _ _ => rfl, fun _ _ _ => ⟨rfl, rfl⟩, fun _ => le_rfl, ?_⟩
  rintro page (mine | changed)
  · exact Or.inl mine
  · exact absurd rfl changed

theorem Elsewhere.trans {d : Nat} {m m' m'' : Machine} {own own' own'' : Place → Option Nat}
    (first : Elsewhere d m own m' own') (second : Elsewhere d m' own' m'' own'') :
    Elsewhere d m own m'' own'' := by
  constructor
  · intro place notOf notHand
    rw [second.places notOf notHand, first.places notOf notHand]
  · intro place page notOf notHand holds
    have holds' : own' place = some page := by
      rw [first.places notOf notHand, holds]
    rw [(second.kept notOf notHand holds').1, (second.kept notOf notHand holds').2]
    exact first.kept notOf notHand holds
  · exact fun page => (first.grows page).trans (second.grows page)
  · intro page touched
    have before : Mine d own' page ∨ m'.bytes page ≠ m.bytes page →
        Mine d own page ∨ m.allocs page < m''.allocs page := fun touched =>
      (first.touched touched).imp_right fun more => more.trans_le (second.grows page)
    by_cases same : ¬ Mine d own'' page ∧ m''.bytes page = m'.bytes page
    · rw [same.2] at touched
      exact before (touched.imp_left fun mine => absurd mine same.1)
    · have here : Mine d own'' page ∨ m''.bytes page ≠ m'.bytes page := by tauto
      rcases second.touched here with mine | more
      · exact before (Or.inl mine)
      · exact Or.inr ((first.grows page).trans_lt more)

theorem Elsewhere.user {d e v : Nat} {m m' : Machine} {own own' : Place → Option Nat}
    (elsewhere : Elsewhere d m own m' own') (different : e ≠ d) :
    own' (.user e v) = own (.user e v) :=
  elsewhere.places (show ¬ (Place.user e v).Of d from different) (by simp)

/-- Taking no page and writing to pages of `d` only. -/
theorem Elsewhere.change {d : Nat} {m m' m'' : Machine} {own own' own'' : Place → Option Nat}
    (elsewhere : Elsewhere d m own m' own') (same : m''.allocs = m'.allocs)
    (places : ∀ {place}, ¬ place.Of d → place ≠ .hand → own'' place = own' place)
    (mine : ∀ {page}, Mine d own'' page → Mine d own' page)
    (once : Balanced own' m'.allocs m'.frees)
    (written : ∀ {page}, m''.bytes page ≠ m'.bytes page →
      ∃ place : Place, place.Of d ∧ own' place = some page) : Elsewhere d m own m'' own'' := by
  refine elsewhere.trans ⟨places, fun notOf _ holds => ⟨by rw [same], ?_⟩,
    fun _ => by rw [same], ?_⟩
  · by_contra changed
    obtain ⟨place, ofD, isPage⟩ := written changed
    rw [once.once holds isPage] at notOf
    exact notOf ofD
  · rintro page (isMine | changed)
    · exact Or.inl (mine isMine)
    · obtain ⟨place, ofD, isPage⟩ := written changed
      exact Or.inl ⟨place, Or.inl ofD, isPage⟩

/-- Changing only the answers and the releases, and possibly emptying the hand. -/
theorem Elsewhere.of_bytes {d : Nat} {m m' m'' : Machine} {own own' own'' : Place → Option Nat}
    (elsewhere : Elsewhere d m own m' own') (same : m''.allocs = m'.allocs)
    (sameBytes : m''.bytes = m'.bytes)
    (places : ∀ {place}, place ≠ .hand → own'' place = own' place)
    (hand : ∀ {page}, own'' .hand = some page → own' .hand = some page) :
    Elsewhere d m own m'' own'' := by
  refine elsewhere.trans ⟨fun _ => places, fun _ _ _ => ⟨by rw [same], by rw [sameBytes]⟩,
    fun _ => by rw [same], ?_⟩
  rintro page (⟨place, mine, holds⟩ | changed)
  · refine Or.inl ⟨place, mine, ?_⟩
    by_cases isHand : place = .hand
    · subst isHand
      exact hand holds
    · rwa [← places isHand]
  · exact absurd (by rw [sameBytes]) changed

theorem Inv.held_of_uses {live : Nat → Prop} {e page : Nat} {m : Machine} {own : Place → Option Nat}
    (inv : Inv live m own) (isLive : live e) (uses : m.Uses e page) :
    ∃ place : Place, place.Of e ∧ own place = some page := by
  rcases uses with (rfl | ⟨k, inDir, framed⟩) | ⟨v, isUser, isMapped⟩
  · exact ⟨.dir page, rfl, inv.shape.dir isLive⟩
  · exact ⟨.table e k, rfl, (inv.shape.table isLive inDir).trans framed⟩
  · exact ⟨.user e v, rfl, (inv.shape.user isLive isUser).trans isMapped⟩

theorem Inv.uses_of_held {live : Nat → Prop} {e page : Nat} {m : Machine} {own : Place → Option Nat}
    (inv : Inv live m own) (isLive : live e) {place : Place} (ofE : place.Of e)
    (holds : own place = some page) : m.Uses e page := by
  cases place with
  | dir d =>
    obtain rfl : d = e := ofE
    rw [inv.shape.dir isLive] at holds
    exact Or.inl (Or.inl (Option.some.inj holds).symm)
  | table d index =>
    obtain rfl : d = e := ofE
    by_cases inDir : index < 1024
    · rw [inv.shape.table isLive inDir] at holds
      exact Or.inl (Or.inr ⟨index, inDir, holds⟩)
    · rw [inv.shape.tableRange (by omega)] at holds
      cases holds
  | user d v =>
    obtain rfl : d = e := ofE
    by_cases isUser : v < userPages
    · rw [inv.shape.user isLive isUser] at holds
      exact Or.inr ⟨v, isUser, holds⟩
    · rw [inv.shape.userRange (by omega)] at holds
      cases holds
  | kstack _ => exact ofE.elim
  | hand => exact ofE.elim

/-- A place of one directory is neither a place of another nor the hand. -/
theorem Place.of_other {d e : Nat} {place : Place} (ofE : place.Of e) (different : e ≠ d) :
    ¬ place.Of d ∧ place ≠ .hand := by
  cases place with
  | dir _ | table _ _ | user _ _ =>
    exact ⟨fun ofD => different (ofE.symm.trans ofD), by simp⟩
  | kstack _ | hand => exact ofE.elim

theorem Elsewhere.view {live : Nat → Prop} {d e v : Nat} {m m' : Machine}
    {own own' : Place → Option Nat} (elsewhere : Elsewhere d m own m' own') (inv : Inv live m own)
    (isLive : live e) (different : e ≠ d) (inSpace : v < addressPages) :
    m'.view e v = m.view e v := by
  refine (view_of_uses (fun page uses => ?_) inSpace).2
  obtain ⟨place, ofE, holds⟩ := inv.held_of_uses isLive uses
  obtain ⟨notOf, notHand⟩ := Place.of_other ofE different
  exact (elsewhere.kept notOf notHand holds).2

theorem Inv.allocs_kept {live : Nat → Prop} {m : Machine} {own : Place → Option Nat} {page : Nat}
    (inv : Inv live m own) (available : m.Available page) {place : Place} {other : Nat}
    (holds : own place = some other) : bump m.allocs page other = m.allocs other := by
  apply bump_other
  intro same
  exact inv.balanced.unheld available.2.2 place (same ▸ holds)

/-! ## The allocator -/

/-- The next `n` answers of the allocator are distinct pages it can return. -/
def Plenty (n : Nat) (m : Machine) : Prop :=
  ∃ pages rest, m.answers = pages ++ rest ∧ n ≤ pages.length ∧ pages.Nodup ∧
    ∀ page ∈ pages, m.Available page

theorem Plenty.mono {n k : Nat} {m : Machine} (plenty : Plenty n m) (less : k ≤ n) :
    Plenty k m := by
  obtain ⟨pages, rest, answers, length, nodup, available⟩ := plenty
  exact ⟨pages, rest, answers, le_trans less length, nodup, available⟩

theorem Plenty.congr {n : Nat} {m m' : Machine} (plenty : Plenty n m)
    (answers : m'.answers = m.answers) (allocs : m'.allocs = m.allocs)
    (frees : m'.frees = m.frees) : Plenty n m' := by
  unfold Plenty Machine.Available
  rw [answers, allocs, frees]
  exact plenty

def Machine.taken (m : Machine) (page : Nat) (rest : List Nat) : Machine :=
  { m with answers := rest, allocs := bump m.allocs page }

def Machine.refused (m : Machine) (rest : List Nat) : Machine := { m with answers := rest }

theorem Plenty.taken {n page : Nat} {m : Machine} {rest : List Nat} (plenty : Plenty (n + 1) m)
    (answers : m.answers = page :: rest) : m.Available page ∧ Plenty n (m.taken page rest) := by
  obtain ⟨pages, tail, split, length, nodup, available⟩ := plenty
  cases pages with
  | nil => simp at length
  | cons head pages =>
    rw [answers, List.cons_append, List.cons.injEq] at split
    obtain ⟨rfl, rfl⟩ := split
    rw [List.nodup_cons] at nodup
    refine ⟨available page (by simp), pages, tail, rfl, ?_, nodup.2, ?_⟩
    · simpa using length
    · intro other member
      have before := available other (by simp [member])
      have different : other ≠ page := by
        rintro rfl
        exact nodup.1 member
      refine ⟨before.1, before.2.1, ?_⟩
      unfold Machine.taken
      simp only
      rw [bump_other _ different]
      exact before.2.2

theorem Plenty.nonempty {n : Nat} {m : Machine} (plenty : Plenty (n + 1) m) :
    m.answers ≠ [] := by
  obtain ⟨pages, rest, answers, length, -, -⟩ := plenty
  intro empty
  rw [empty] at answers
  have none := (List.nil_eq_append_iff.mp answers).1
  rw [none] at length
  simp at length

theorem kalloc_total {m : Machine} {post : Nat → Machine → Prop}
    (failed : ∀ rest, (∀ n, ¬ Plenty (n + 1) m) → post 0 (m.refused rest))
    (taken : ∀ page rest, m.answers = page :: rest → m.Available page →
      post page (m.taken page rest)) : Total kalloc m post := by
  unfold kalloc Total
  rw [meets_bind, meets_get]
  cases answers : m.answers with
  | nil =>
    have same : m.refused [] = m := by
      unfold Machine.refused
      rw [← answers]
    rw [← same]
    exact failed [] fun n plenty => plenty.nonempty answers
  | cons page rest =>
    simp only
    by_cases available : m.Available page
    · rw [if_pos available, meets_bind, meets_set, meets_pure]
      exact taken page rest answers available
    · rw [if_neg available, meets_bind, meets_set, meets_pure]
      exact failed rest fun n plenty => available (plenty.taken answers).1

/-! ## Walking to an entry -/

section Addresses

variable {va vpn : Nat}

theorem pdx_page (inSpace : vpn < addressPages) : pdx (vpn * pgSize) = vpn / 1024 := by
  unfold addressPages at inSpace
  unfold pdx pgSize
  omega

theorem ptx_page : ptx (vpn * pgSize) = vpn % 1024 := by
  unfold ptx pgSize
  omega

end Addresses

section Walk

variable {live : Nat → Prop} {m : Machine} {own : Place → Option Nat} {d vpn : Nat}

theorem Inv.refused (inv : Inv live m own) (rest : List Nat) : Inv live (m.refused rest) own :=
  ⟨inv.shape.of_bytes rfl, inv.balanced⟩

/-- `walkpgdir` without allocation finds the entry, if there is a page table
for it. -/
theorem walkpgdir_finds (inSpace : vpn < addressPages) {post : Option (Nat × Nat) → Machine → Prop}
    (missing : frame (m.word d (vpn / 1024)) = none → post none m)
    (found : ∀ t, frame (m.word d (vpn / 1024)) = some t → post (some (t, vpn % 1024)) m) :
    Total (walkpgdir d (vpn * pgSize) false) m post := by
  unfold walkpgdir Total
  rw [meets_bind, meets_get, pdx_page inSpace, ptx_page]
  by_cases present : has (m.word d (vpn / 1024)) pteP = true
  · rw [if_pos present, meets_pure]
    exact found _ (frame_present present)
  · rw [if_neg present, if_neg (by simp), meets_pure]
    exact missing (frame_eq_none_iff.mpr (by simpa using present))

/-- `walkpgdir` with allocation finds the page table, makes one, or fails. -/
theorem walkpgdir_makes (inSpace : vpn < addressPages) {post : Option (Nat × Nat) → Machine → Prop}
    (failed : ∀ rest, frame (m.word d (vpn / 1024)) = none → (∀ n, ¬ Plenty (n + 1) m) →
      post none (m.refused rest))
    (found : ∀ t, frame (m.word d (vpn / 1024)) = some t → post (some (t, vpn % 1024)) m)
    (made : ∀ page rest, frame (m.word d (vpn / 1024)) = none → m.answers = page :: rest →
      m.Available page →
      post (some (page, vpn % 1024)) ((m.taken page rest).withTable d (vpn / 1024) page)) :
    Total (walkpgdir d (vpn * pgSize) true) m post := by
  unfold walkpgdir Total
  rw [meets_bind, meets_get, pdx_page inSpace, ptx_page]
  by_cases present : has (m.word d (vpn / 1024)) pteP = true
  · rw [if_pos present, meets_pure]
    exact found _ (frame_present present)
  · rw [if_neg present, if_pos rfl, meets_bind]
    have absent : frame (m.word d (vpn / 1024)) = none :=
      frame_eq_none_iff.mpr (by simpa using present)
    apply kalloc_total
    · intro rest refused
      exact failed rest absent refused
    · intro page rest answers available
      rw [if_neg (Nat.pos_iff_ne_zero.mp available.1)]
      exact made page rest absent answers available

theorem walkpgdir_total (inv : Inv live m own) (isLive : live d) (inSpace : vpn < addressPages)
    {post : Option (Nat × Nat) → Machine → Prop}
    (missing : m.pte d vpn = none → own (.table d (vpn / 1024)) = none → post none m)
    (found : ∀ t, own (.table d (vpn / 1024)) = some t →
      m.pte d vpn = some (m.word t (vpn % 1024)) → post (some (t, vpn % 1024)) m) :
    Total (walkpgdir d (vpn * pgSize) false) m post := by
  have table := inv.shape.table isLive (table_index inSpace)
  apply walkpgdir_finds inSpace
  · intro absent
    exact missing (Machine.pte_eq_none absent rfl) (by rw [table, absent])
  · intro t framed
    exact found t (by rw [table, framed]) (Machine.pte_eq_some framed rfl)

/-- Directory `d` may have got page tables, and nothing else has moved. -/
structure Extended (live : Nat → Prop) (d : Nat) (m : Machine) (own : Place → Option Nat)
    (m' : Machine) (own' : Place → Option Nat) : Prop where
  inv : Inv live m' own'
  elsewhere : Elsewhere d m own m' own'
  hand : own' .hand = own .hand
  users : ∀ v, own' (.user d v) = own (.user d v)
  frees : m'.frees = m.frees

theorem Extended.refl (inv : Inv live m own) : Extended live d m own m own :=
  ⟨inv, Elsewhere.refl d m own, rfl, fun _ => rfl, rfl⟩

theorem Extended.trans {m' m'' : Machine} {own' own'' : Place → Option Nat}
    (first : Extended live d m own m' own') (second : Extended live d m' own' m'' own'') :
    Extended live d m own m'' own'' := by
  constructor
  · exact second.inv
  · exact first.elsewhere.trans second.elsewhere
  · rw [second.hand, first.hand]
  · intro v
    rw [second.users, first.users]
  · rw [second.frees, first.frees]

theorem Extended.refused (inv : Inv live m own) (rest : List Nat) :
    Extended live d m own (m.refused rest) own :=
  ⟨inv.refused rest, (Elsewhere.refl d m own).of_bytes rfl rfl (fun _ => rfl) id, rfl,
    fun _ => rfl, rfl⟩

/-- What `walkpgdir` with allocation leaves behind when it returns an entry. -/
structure Walked (live : Nat → Prop) (d vpn : Nat) (m : Machine) (own : Place → Option Nat)
    (t : Nat) (m' : Machine) (own' : Place → Option Nat) : Prop extends
    Extended live d m own m' own' where
  table : own' (.table d (vpn / 1024)) = some t
  present : ∀ v, v < addressPages → m'.present d v = m.present d v
  bytes : ∀ {place page}, place ≠ .dir d → own place = some page → m'.bytes page = m.bytes page
  plenty : ∀ n, Plenty (n + if (m.pte d vpn).isSome then 0 else 1) m → Plenty n m'

/-- Storing into the page table that was found concerns no other place. -/
theorem Walked.stored {m₁ m' : Machine} {own₁ own' : Place → Option Nat} {t i value : Nat}
    (walked : Walked live d vpn m own t m₁ own₁)
    (same : m' = m₁.setWord t i value) (places : ∀ {place}, ¬ place.Of d → place ≠ .hand →
      own' place = own₁ place) (mine : ∀ {page}, Mine d own' page → Mine d own₁ page) :
    Elsewhere d m own m' own' := by
  subst same
  refine walked.elsewhere.change rfl places mine walked.inv.balanced fun {page} changed => ?_
  rw [Machine.eq_of_setWord_changes _ changed]
  exact ⟨.table d (vpn / 1024), rfl, walked.table⟩

/-- Taking a page for `d` or in hand and writing to it concerns no other place. -/
theorem Elsewhere.take {place : Place} {page : Nat} (inv : Inv live m own)
    (mine : place.Of d ∨ place = .hand)
    (available : m.Available page) (rest : List Nat) (content) :
    Elsewhere d m own ((m.taken page rest).fill page content) (update own place (some page)) := by
  constructor
  · intro other notOf notHand
    rw [update_of_ne]
    rintro rfl
    exact mine.elim notOf notHand
  · intro other held _ _ holds
    refine ⟨inv.allocs_kept available holds, Machine.bytes_fill_of_ne _ ?_⟩
    rintro rfl
    exact inv.balanced.unheld available.2.2 other holds
  · exact le_bump
  · rintro other (⟨at', isMine, holds⟩ | changed)
    · by_cases isNew : at' = place
      · rw [isNew, update_self] at holds
        rw [← Option.some.inj holds]
        exact Or.inr lt_bump
      · rw [update_of_ne isNew] at holds
        exact Or.inl ⟨at', isMine, holds⟩
    · by_cases isNew : other = page
      · rw [isNew]
        exact Or.inr lt_bump
      · exact absurd (Machine.bytes_fill_of_ne _ isNew) changed

theorem Inv.withTable (inv : Inv live m own) (isLive : live d) (inSpace : vpn < addressPages)
    (absent : frame (m.word d (vpn / 1024)) = none) {page : Nat} (available : m.Available page)
    {rest : List Nat} (answers : m.answers = page :: rest) :
    Walked live d vpn m own page ((m.taken page rest).withTable d (vpn / 1024) page)
      (update own (.table d (vpn / 1024)) (some page)) := by
  have unheld := inv.balanced.unheld available.2.2
  have small : page < 2 ^ 20 := lt_trans available.2.1 (by decide)
  have balanced := inv.balanced.acquire
    ((inv.shape.table isLive (table_index inSpace)).trans absent) available.2.2
  have entries : ∀ {v}, v < addressPages →
      ((m.taken page rest).withTable d (vpn / 1024) page).pte d v =
        if d = d ∧ v / 1024 = vpn / 1024 then some 0 else m.pte d v :=
    inv.pte_withTable isLive absent unheld small isLive
  have bytes : ∀ {place other}, place ≠ .dir d → own place = some other →
      ((m.taken page rest).withTable d (vpn / 1024) page).bytes other = m.bytes other := by
    intro place other notDir holds
    have notD : other ≠ d := by
      rintro rfl
      exact notDir (inv.balanced.once holds (inv.shape.dir isLive))
    have notNew : other ≠ page := fun same => unheld place (same ▸ holds)
    unfold Machine.withTable
    rw [Machine.bytes_setWord_of_ne _ notD, Machine.bytes_fill_of_ne _ notNew]
    rfl
  constructor
  · constructor
    · have shape := inv.addTable isLive (table_index inSpace) absent unheld
        ⟨available.1, available.2.1⟩
      exact ⟨shape.of_bytes rfl, balanced⟩
    · have ofD : (Place.table d (vpn / 1024)).Of d := rfl
      refine (Elsewhere.take inv (Or.inl ofD) available rest fun _ => 0).change rfl
        (fun _ _ => rfl) id balanced fun {other} changed => ⟨.dir d, rfl, ?_⟩
      rw [update_of_ne (by simp), Machine.eq_of_setWord_changes _ changed]
      exact inv.shape.dir isLive
    · rw [update_of_ne (by simp)]
    · intro v
      rw [update_of_ne (by simp)]
    · rfl
  · rw [update_self]
  · intro v below
    unfold Machine.present
    rw [entries below]
    split
    · rename_i same
      rw [Machine.pte_eq_none absent same.2]
      rfl
    · rfl
  · exact bytes
  · intro n plenty
    rw [Machine.pte_eq_none absent rfl] at plenty
    exact (Plenty.taken plenty answers).2

/-- `walkpgdir` with allocation finds or makes the entry, unless a page table
is missing and the allocator has none. -/
theorem walkpgdir_alloc_total (inv : Inv live m own) (isLive : live d)
    (inSpace : vpn < addressPages) {post : Option (Nat × Nat) → Machine → Prop}
    (failed : ∀ rest, (∀ n, ¬ Plenty (n + if (m.pte d vpn).isSome then 0 else 1) m) →
      post none (m.refused rest))
    (found : ∀ t m' own', Walked live d vpn m own t m' own' → post (some (t, vpn % 1024)) m') :
    Total (walkpgdir d (vpn * pgSize) true) m post := by
  have table := inv.shape.table isLive (table_index inSpace)
  apply walkpgdir_makes inSpace
  · intro rest absent refused
    apply failed rest
    intro n
    rw [Machine.pte_eq_none absent rfl]
    exact refused n
  · intro t framed
    apply found t m own
    constructor
    · exact Extended.refl inv
    · rw [table, framed]
    · intro v _
      rfl
    · intro place page _ _
      rfl
    · intro n plenty
      rw [Machine.pte_eq_some framed rfl] at plenty
      exact plenty
  · intro page rest absent answers available
    exact found page _ _ (inv.withTable isLive inSpace absent available answers)

end Walk

/-! ## Mapping pages -/

section Map

variable {live : Nat → Prop} {m : Machine} {own : Place → Option Nat} {d vpn : Nat}

/-- One turn of `mappages` at a page that is not mapped: the entry is stored in
a page table that was there or is new, unless there is none to be had. -/
theorem mapLoop_turn (inv : Inv live m own) (isLive : live d) (inSpace : vpn < addressPages)
    (absent : m.mapped d vpn = none) {last perm turns pa : Nat} {post : Bool → Machine → Prop}
    (failed : ∀ rest, (∀ n, ¬ Plenty (n + if (m.pte d vpn).isSome then 0 else 1) m) →
      post false (m.refused rest))
    (stored : ∀ t m₁ own₁, Walked live d vpn m own t m₁ own₁ →
      Total (if vpn * pgSize = last then pure true else
        mapLoop d last perm turns ((vpn * pgSize + pgSize) % 2 ^ 32) ((pa + pgSize) % 2 ^ 32))
        (m₁.setWord t (vpn % 1024) (pa ||| perm ||| pteP)) post) :
    Total (mapLoop d last perm (turns + 1) (vpn * pgSize) pa) m post := by
  rw [mapLoop]
  unfold Total
  rw [meets_bind]
  apply walkpgdir_alloc_total inv isLive inSpace
  · intro rest refused
    exact failed rest refused
  · intro t m₁ own₁ walked
    have framed : frame (m₁.word d (vpn / 1024)) = some t := by
      rw [← walked.inv.shape.table isLive (table_index inSpace), walked.table]
    have notPresent : has (m₁.word t (vpn % 1024)) pteP = false := by
      have same := present_eq_none_iff.mp ((walked.present vpn inSpace).trans
        (present_eq_none_iff.mpr absent))
      unfold Machine.mapped at same
      rw [Machine.pte_eq_some framed rfl] at same
      exact frame_eq_none_iff.mp same
    rw [meets_bind, meets_get, if_neg (by simp [notPresent]), meets_bind, meets_modify]
    exact stored t m₁ own₁ walked

/-- The page in hand has been mapped at the free user page `vpn`. -/
structure Placed (live : Nat → Prop) (d vpn mem perm : Nat) (m : Machine)
    (own : Place → Option Nat) (m' : Machine) (own' : Place → Option Nat) : Prop where
  inv : Inv live m' own'
  elsewhere : Elsewhere d m own m' own'
  hand : own' .hand = none
  frees : m'.frees = m.frees
  users : ∀ v, own' (.user d v) = if v = vpn then some mem else own (.user d v)
  view : ∀ v < addressPages,
    m'.view d v = if v = vpn then some (m.bytes mem, perm ||| pteP) else m.view d v
  plenty : ∀ n, Plenty (n + 1) m → Plenty n m'

/-- Mapping the page in hand at a free user page. The page moves there, or
nothing happens. -/
theorem mappages_user_total (inv : Inv live m own) (isLive : live d) (isUser : vpn < userPages)
    {mem perm : Nat} (inHand : own .hand = some mem) (free : own (.user d vpn) = none)
    (permSmall : perm < pgSize) {post : Bool → Machine → Prop}
    (failed : ∀ rest, (∀ n, ¬ Plenty (n + 1) m) → post false (m.refused rest))
    (done : ∀ m' own', Placed live d vpn mem perm m own m' own' → post true m') :
    Total (mappages d (vpn * pgSize) pgSize (mem * pgSize) perm) m post := by
  have inSpace := user_inSpace isUser
  have last : pgRoundDown ((vpn * pgSize + pgSize + (2 ^ 32 - 1)) % 2 ^ 32) = vpn * pgSize := by
    unfold userPages kernBase pgSize at isUser
    unfold pgRoundDown pgSize
    omega
  have first : pgRoundDown (vpn * pgSize) = vpn * pgSize := by
    unfold pgRoundDown pgSize
    omega
  have memSmall : mem < 2 ^ 20 := lt_trans (inv.shape.inPool inHand).2 (by decide)
  have atMostOne : ∀ n, Plenty (n + 1) m →
      Plenty (n + if (m.pte d vpn).isSome then 0 else 1) m := by
    intro n plenty
    apply plenty.mono
    split <;> omega
  unfold mappages
  rw [last, first, show addressPages = (2 ^ 20 - 1) + 1 from rfl]
  apply mapLoop_turn inv isLive inSpace (by rw [← inv.shape.user isLive isUser, free])
  · intro rest refused
    exact failed rest fun n plenty => refused n (atMostOne n plenty)
  · intro t m₁ own₁ walked
    have framed := frame_entry mem permSmall
    have shape := walked.inv.setUserPte isLive isUser walked.table (entry_lt permSmall memSmall)
      (by
        intro page isMem
        rw [framed] at isMem
        rw [← Option.some.inj isMem]
        exact inv.shape.inPool inHand)
    have balanced := walked.inv.balanced.move (by rw [walked.hand, inHand])
      (show own₁ (.user d vpn) = none by rw [walked.users, free])
    rw [framed] at shape
    have moved : Shape live _ (update _ .hand none) := shape.setOutside Place.hand_outside (by simp)
    rw [update_comm (by simp)] at moved
    have fits := entry_lt permSmall memSmall
    have present : ∀ v < addressPages,
        (m₁.setWord t (vpn % 1024) (mem * pgSize ||| perm ||| pteP)).present d v =
          if v = vpn then some (mem * pgSize ||| perm ||| pteP) else m.present d v := by
      intro v below
      rw [← walked.present v below]
      unfold Machine.present
      rw [walked.inv.pte_setWord isLive inSpace walked.table fits isLive below]
      by_cases here : v = vpn
      · have isPresent : has (mem * pgSize ||| perm ||| pteP) pteP = true := by
          by_contra absent
          rw [frame_eq_none_iff.mpr (by simpa using absent)] at framed
          exact absurd framed (by simp)
        simp [here, isPresent]
      · simp [here]
    have bytes : ∀ {place page}, (∀ e, place ≠ .dir e) → (∀ e k, place ≠ .table e k) →
        own place = some page → own₁ place = some page →
        (m₁.setWord t (vpn % 1024) (mem * pgSize ||| perm ||| pteP)).bytes page = m.bytes page := by
      intro place page notDir notTable holds stillHolds
      rw [Machine.bytes_setWord_of_ne, walked.bytes (notDir d) holds]
      rintro rfl
      exact notTable _ _ (walked.inv.balanced.once stillHolds walked.table)
    unfold Total
    rw [if_pos rfl, meets_pure]
    apply done _ (update (update own₁ .hand none) (.user d vpn) (some mem))
    constructor
    · exact ⟨moved, balanced⟩
    · apply walked.stored rfl
      · intro place notOf notHand
        rw [update_of_ne _, update_of_ne notHand]
        rintro rfl
        exact notOf rfl
      · rintro page ⟨place, mine, holds⟩
        by_cases isNew : place = .user d vpn
        · rw [isNew, update_self] at holds
          exact ⟨.hand, Or.inr rfl, (walked.hand.trans inHand).trans holds⟩
        · rw [update_of_ne isNew] at holds
          by_cases isHand : place = .hand
          · rw [isHand, update_self] at holds
            cases holds
          · rw [update_of_ne isHand] at holds
            exact ⟨place, mine, holds⟩
    · rw [update_of_ne (by simp), update_self]
    · exact walked.frees
    · intro v
      by_cases same : v = vpn
      · rw [if_pos same, same, update_self]
      · rw [if_neg same, update_of_ne (by simpa using same), update_of_ne (by simp), walked.users]
    · intro v below
      by_cases here : v = vpn
      · have handBytes := bytes (by simp) (by simp) inHand (walked.hand.trans inHand)
        have entry := entry_of_page (Nat.mul_mod_left mem pgSize)
          (by unfold pgSize; omega) permSmall
        have isMem : (mem * pgSize ||| perm ||| pteP) / pgSize = mem :=
          Nat.eq_of_mul_eq_mul_right (by decide) entry.2.2.1
        unfold Machine.view
        rw [present v below, if_pos here, if_pos here, Option.map_some, if_pos (here ▸ isUser),
          isMem, handBytes, entry.2.2.2]
      · rw [if_neg here]
        apply view_congr
        · rw [present v below, if_neg here]
        · intro page below isMapped
          have holds := (inv.shape.user isLive below).trans isMapped
          exact bytes (by simp) (by simp) holds ((walked.users v).trans holds)
    · intro n plenty
      exact walked.plenty n (atMostOne n plenty)

/-- Mapping a range of kernel pages of a directory that maps nothing from there
on. It needs at most one page table for each 1024 pages it enters. -/
theorem mapLoop_kernel_total (isLive : live d) {last perm : Nat} (lastInSpace : last < addressPages)
    (permSmall : perm < pgSize) (noUser : has perm pteU = false) :
    ∀ (turns a page : Nat) (m : Machine) (own : Place → Option Nat), Inv live m own →
      userPages ≤ a → a ≤ last → last - a < turns → page + (last - a) < 2 ^ 20 →
      (∀ v, a ≤ v → v < addressPages → m.mapped d v = none) →
      Total (mapLoop d (last * pgSize) perm turns (a * pgSize) (page * pgSize)) m
        fun result m' => ∃ own', Extended live d m own m' own' ∧
          (result = true → ∀ v, last < v → v < addressPages → m'.mapped d v = none) ∧
          ∀ n, Plenty (n + (last / 1024 - a / 1024) +
            if (m.pte d a).isSome then 0 else 1) m → result = true ∧ Plenty n m' := by
  intro turns
  induction turns with
  | zero =>
    intro a page m own _ _ _ enough
    omega
  | succ turns ih =>
    intro a page m own inv isKernel inRange enough pageSmall above
    have inSpace : a < addressPages := lt_of_le_of_lt inRange lastInSpace
    apply mapLoop_turn inv isLive inSpace (above a le_rfl inSpace)
    · intro rest refused
      refine ⟨own, Extended.refused inv rest, by simp, ?_⟩
      intro n plenty
      refine absurd (plenty.mono ?_) (refused n)
      omega
    · intro t m₁ own₁ walked
      have fits : page * pgSize ||| perm ||| pteP < 2 ^ 32 := entry_lt permSmall (by omega)
      have framed : frame (m₁.word d (a / 1024)) = some t := by
        rw [← walked.inv.shape.table isLive (table_index inSpace), walked.table]
      have stored : ∀ v, v < addressPages →
          (m₁.setWord t (a % 1024) (page * pgSize ||| perm ||| pteP)).pte d v =
            if d = d ∧ v = a then some (page * pgSize ||| perm ||| pteP) else m₁.pte d v :=
        fun v below => walked.inv.pte_setWord isLive inSpace walked.table fits isLive below
      have shape := walked.inv.setKernelPte isLive isKernel inSpace walked.table fits
        (entry_noUser page noUser)
      have extended : Extended live d m own
          (m₁.setWord t (a % 1024) (page * pgSize ||| perm ||| pteP)) own₁ :=
        ⟨⟨shape, walked.inv.balanced⟩, walked.stored rfl (fun _ _ => rfl) id, walked.hand,
          walked.users,
          walked.frees⟩
      have aboveNext : ∀ v, a < v → v < addressPages →
          (m₁.setWord t (a % 1024) (page * pgSize ||| perm ||| pteP)).mapped d v = none := by
        intro v low high
        have same := walked.present v high
        rw [← present_eq_none_iff]
        rw [present_eq_none_iff.mpr (above v (by omega) high)] at same
        unfold Machine.present at same ⊢
        rw [stored v high, if_neg (by omega), same]
      by_cases isLast : a = last
      · subst isLast
        unfold Total
        rw [if_pos rfl, meets_pure]
        refine ⟨own₁, extended, fun _ => aboveNext, ?_⟩
        intro n plenty
        rw [Nat.sub_self] at plenty
        exact ⟨rfl, walked.plenty n plenty⟩
      · have notLast : ¬ a * pgSize = last * pgSize := by
          unfold pgSize
          omega
        have nextA : (a * pgSize + pgSize) % 2 ^ 32 = (a + 1) * pgSize := by
          unfold addressPages at lastInSpace
          unfold pgSize
          omega
        have nextPage : (page * pgSize + pgSize) % 2 ^ 32 = (page + 1) * pgSize := by
          unfold pgSize
          omega
        rw [if_neg notLast, nextA, nextPage]
        refine (ih (a + 1) (page + 1) _ own₁ extended.inv (by omega) (by omega)
          (by omega) (by omega) fun v low high => aboveNext v (by omega) high).mono ?_
        rintro result m' ⟨own', more, done, enoughPages⟩
        refine ⟨own', extended.trans more, done, ?_⟩
        intro n plenty
        apply enoughPages n
        have left : Plenty (n + (last / 1024 - a / 1024))
            (m₁.setWord t (a % 1024) (page * pgSize ||| perm ||| pteP)) :=
          walked.plenty _ plenty
        apply left.mono
        by_cases sameTable : (a + 1) / 1024 = a / 1024
        · have present : ((m₁.setWord t (a % 1024) (page * pgSize ||| perm ||| pteP)).pte d
              (a + 1)).isSome = true := by
            rw [stored (a + 1) (by omega), if_neg (by omega),
              Machine.pte_eq_some framed sameTable]
            rfl
          rw [if_pos present, sameTable]
          omega
        · split <;> omega

end Map

end Rexv6.Vm
