import Mathlib.Data.Nat.Bitwise
import Rexv6.Vm.Machine

/-!
Contract: page tables in memory as a map from places to the pages they hold.

Owns: the places that can own a page, the reading of the page tables of a set
of directories as such a map, and how storing an entry, adding a page table and
writing to any other page change the reading.

Does not own: the functions of `vm.c`; their effects are stated with the map in
the modules that follow.
-/

namespace Rexv6.Vm

open Rexv6.Foundation.LittleEndian
open Rexv6.Foundation.Ledger (Balanced)
open Function (update update_of_ne update_self)

/-! ## Entries -/

/-- The physical page a present entry refers to. -/
def frame (entry : Nat) : Option Nat :=
  if has entry pteP then some (pteAddr entry / pgSize) else none

theorem has_pteP (entry : Nat) : has entry pteP = decide (entry % 2 = 1) := by
  unfold has pteP
  rw [Nat.and_one_is_mod]
  rcases Nat.mod_two_eq_zero_or_one entry with even | odd
  · rw [even]
    rfl
  · rw [odd]
    rfl

theorem pteAddr_div (entry : Nat) : pteAddr entry / pgSize = entry / pgSize :=
  Nat.mul_div_cancel _ (by decide)

theorem pteAddr_of_frame {entry page : Nat} (framed : frame entry = some page) :
    pteAddr entry / pgSize = page := by
  unfold frame at framed
  split at framed
  · exact Option.some.inj framed
  · cases framed

theorem frame_zero : frame 0 = none := rfl

theorem frame_present {entry : Nat} (present : has entry pteP = true) :
    frame entry = some (pteAddr entry / pgSize) := if_pos present

theorem frame_of_present {entry : Nat} (present : has entry pteP = true) :
    frame entry = some (entry / pgSize) := by
  rw [frame_present present, pteAddr_div]

theorem frame_eq_none_iff {entry : Nat} : frame entry = none ↔ has entry pteP = false := by
  unfold frame
  split
  · rename_i present
    simp [present]
  · rename_i absent
    simpa using absent

theorem entry_eq_add (page : Nat) {flags : Nat} (small : flags < pgSize) :
    page * pgSize ||| flags = page * pgSize + flags := by
  rw [Nat.mul_comm]
  exact (Nat.two_pow_add_eq_or_of_lt (i := 12) small page).symm

theorem frame_entry (page : Nat) {flags : Nat} (small : flags < pgSize) :
    frame (page * pgSize ||| flags ||| pteP) = some page := by
  have flagsSmall : flags ||| pteP < pgSize :=
    Nat.or_lt_two_pow (n := 12) small (by decide)
  have odd : (flags ||| pteP) % 2 = 1 := by
    have bit : (flags ||| pteP).testBit 0 = true := by
      simp [pteP]
    simpa [Nat.testBit_zero] using bit
  rw [Nat.or_assoc, entry_eq_add page flagsSmall]
  unfold pgSize at flagsSmall ⊢
  rw [frame_of_present]
  · unfold pgSize
    congr 1
    omega
  · rw [has_pteP]
    simp only [decide_eq_true_eq]
    omega

theorem tableEntry_eq (page : Nat) :
    page * pgSize ||| pteP ||| pteW ||| pteU = page * pgSize + 7 := by
  rw [Nat.or_assoc, Nat.or_assoc, entry_eq_add page (by decide)]
  rfl

theorem frame_tableEntry (page : Nat) :
    frame (page * pgSize ||| pteP ||| pteW ||| pteU) = some page := by
  rw [tableEntry_eq]
  unfold pgSize
  rw [frame_of_present]
  · unfold pgSize
    congr 1
    omega
  · rw [has_pteP]
    simp only [decide_eq_true_eq]
    omega

theorem entry_lt {page : Nat} {flags : Nat} (small : flags < pgSize) (below : page < 2 ^ 20) :
    page * pgSize ||| flags ||| pteP < 2 ^ 32 := by
  have flagsSmall : flags ||| pteP < pgSize :=
    Nat.or_lt_two_pow (n := 12) small (by decide)
  rw [Nat.or_assoc, entry_eq_add page flagsSmall]
  unfold pgSize at flagsSmall ⊢
  omega

/-- The entry that `mappages` stores for the page at `pa`. -/
theorem entry_of_page {pa perm : Nat} (aligned : pa % pgSize = 0) (paSmall : pa < 2 ^ 32)
    (permSmall : perm < pgSize) :
    pa ||| perm ||| pteP < 2 ^ 32 ∧ has (pa ||| perm ||| pteP) pteP = true ∧
      pteAddr (pa ||| perm ||| pteP) = pa ∧ pteFlags (pa ||| perm ||| pteP) = perm ||| pteP := by
  have flagsSmall : perm ||| pteP < pgSize := Nat.or_lt_two_pow (n := 12) permSmall (by decide)
  obtain ⟨page, rfl⟩ : ∃ page, pa = page * pgSize :=
    ⟨pa / pgSize, (Nat.div_mul_cancel (Nat.dvd_of_mod_eq_zero aligned)).symm⟩
  have present : has (page * pgSize ||| perm ||| pteP) pteP = true := by
    by_contra absent
    have framed := frame_entry page permSmall
    rw [frame_eq_none_iff.mpr (by simpa using absent)] at framed
    exact absurd framed (by simp)
  refine ⟨entry_lt permSmall (by unfold pgSize at paSmall; omega), present, ?_⟩
  rw [Nat.or_assoc, entry_eq_add page flagsSmall]
  unfold pteAddr pteFlags
  unfold pgSize at flagsSmall ⊢
  omega

theorem has_pteU (entry : Nat) : has entry pteU = entry.testBit 2 := by
  unfold has
  rw [show pteU = 2 ^ 2 from rfl, Nat.and_two_pow]
  cases entry.testBit 2 <;> rfl

/-- An entry made with flags that bar user code bars user code. -/
theorem entry_noUser (page : Nat) {flags : Nat} (noUser : has flags pteU = false) :
    has (page * pgSize ||| flags ||| pteP) pteU = false := by
  rw [has_pteU] at noUser ⊢
  rw [Nat.testBit_or, Nat.testBit_or, noUser, show pgSize = 2 ^ 12 from rfl,
    Nat.testBit_mul_two_pow]
  simp [pteP, Nat.testBit]

/-! ## Words of pages -/

namespace Machine

variable (m : Machine) {page index value other position : Nat}

theorem word_setWord_self (fits : value < 2 ^ 32) :
    (m.setWord page index value).word page index = value := by
  unfold setWord word
  simp only [update_self]
  exact getLe_setLe_of_lt _ (by simpa using fits)

theorem word_setWord_of_ne (different : other ≠ page ∨ position ≠ index) :
    (m.setWord page index value).word other position = m.word other position := by
  unfold setWord word
  simp only
  by_cases samePage : other = page
  · subst samePage
    rw [update_self]
    apply getLe_setLe_disjoint
    rcases different with pages | positions
    · exact absurd rfl pages
    · omega
  · rw [update_of_ne samePage]

theorem word_fill_of_ne {content : Bytes} (different : other ≠ page) :
    (m.fill page content).word other position = m.word other position := by
  unfold fill word
  simp only
  rw [update_of_ne different]

theorem bytes_fill_self {content : Bytes} : (m.fill page content).bytes page = content :=
  update_self _ _ _

theorem bytes_fill_of_ne {content : Bytes} (different : other ≠ page) :
    (m.fill page content).bytes other = m.bytes other :=
  update_of_ne different _ _

theorem bytes_setWord_of_ne (different : other ≠ page) :
    (m.setWord page index value).bytes other = m.bytes other :=
  update_of_ne different _ _

theorem eq_of_setWord_changes
    (changed : (m.setWord page index value).bytes other ≠ m.bytes other) : other = page :=
  not_not.mp fun different => changed (m.bytes_setWord_of_ne different)

theorem word_cleared : (m.fill page fun _ => 0).word page position = 0 := by
  unfold fill word
  simp only [update_self]
  rfl

theorem word_lt : m.word page index < 2 ^ 32 := by
  have below := getLe_lt (m.bytes page) (4 * index) 4
  unfold word
  simpa using below

end Machine

/-! ## Places -/

def userPages : Nat := kernBase / pgSize

/-- Who can own a page: a page directory is its own page, an entry of a
directory owns the page table it refers to, a user mapping owns the page it
maps, a process owns its kernel stack, and a running function owns the page it
has just obtained. -/
inductive Place
  | dir (d : Nat)
  | table (d k : Nat)
  | user (d vpn : Nat)
  | kstack (slot : Nat)
  | hand
  deriving DecidableEq, Repr

def Place.Of (d : Nat) : Place → Prop
  | .dir e | .table e _ | .user e _ => e = d
  | .kstack _ | .hand => False

instance (d : Nat) (place : Place) : Decidable (place.Of d) := by
  cases place <;> unfold Place.Of <;> infer_instance

/-- The page table entry of virtual page `vpn` of directory `d`, if there is a
page table for it. -/
def Machine.pte (m : Machine) (d vpn : Nat) : Option Nat :=
  (frame (m.word d (vpn / 1024))).map fun t => m.word t (vpn % 1024)

def Machine.mapped (m : Machine) (d vpn : Nat) : Option Nat := (m.pte d vpn).bind frame

def Machine.present (m : Machine) (d vpn : Nat) : Option Nat :=
  (m.pte d vpn).filter (has · pteP)

/-- What virtual page `vpn` of directory `d` is: a user page is its bytes and the
flags of its entry, a page of the kernel part is its entry. -/
def Machine.view (m : Machine) (d vpn : Nat) : Option (Bytes × Nat) :=
  (m.present d vpn).map fun pte =>
    if vpn < userPages then (m.bytes (pte / pgSize), pteFlags pte) else (fun _ => 0, pte)

def Machine.PartOf (m : Machine) (d page : Nat) : Prop :=
  page = d ∨ ∃ k < 1024, frame (m.word d k) = some page

def Machine.Uses (m : Machine) (d page : Nat) : Prop :=
  m.PartOf d page ∨ ∃ v < userPages, m.mapped d v = some page

/-- `own` is what the page tables of the `live` directories say. -/
structure Shape (live : Nat → Prop) (m : Machine) (own : Place → Option Nat) : Prop where
  dir : ∀ {d}, live d → own (.dir d) = some d
  table : ∀ {d k}, live d → k < 1024 → own (.table d k) = frame (m.word d k)
  user : ∀ {d vpn}, live d → vpn < userPages → own (.user d vpn) = m.mapped d vpn
  kernel : ∀ {d vpn pte}, live d → userPages ≤ vpn → vpn < addressPages → m.pte d vpn = some pte →
    has pte pteP = true → has pte pteU = false
  dead : ∀ {d place}, ¬ live d → place.Of d → own place = none
  tableRange : ∀ {d k}, 1024 ≤ k → own (.table d k) = none
  userRange : ∀ {d vpn}, userPages ≤ vpn → own (.user d vpn) = none
  inPool : ∀ {place page}, own place = some page → 0 < page ∧ page < physTop / pgSize

/-- The page tables of the `live` directories are read as `own`, and every page
handed out by the allocator is held by exactly one place. -/
structure Inv (live : Nat → Prop) (m : Machine) (own : Place → Option Nat) : Prop where
  shape : Shape live m own
  balanced : Balanced own m.allocs m.frees

section Reading

variable {live : Nat → Prop} {m m' : Machine} {own : Place → Option Nat} {d : Nat}

theorem user_inSpace {vpn : Nat} (isUser : vpn < userPages) : vpn < addressPages :=
  lt_of_lt_of_le isUser (by decide)

theorem table_index {vpn : Nat} (inSpace : vpn < addressPages) : vpn / 1024 < 1024 := by
  unfold addressPages at inSpace
  omega

theorem mapped_eq_present (m : Machine) (d vpn : Nat) :
    m.mapped d vpn = (m.present d vpn).map (· / pgSize) := by
  unfold Machine.mapped Machine.present
  cases m.pte d vpn with
  | none => rfl
  | some pte =>
    by_cases isPresent : has pte pteP = true
    · simp [frame_of_present isPresent, isPresent]
    · simp [frame_eq_none_iff.mpr (by simpa using isPresent), isPresent]

theorem present_eq_none_iff {vpn : Nat} : m.present d vpn = none ↔ m.mapped d vpn = none := by
  rw [mapped_eq_present, Option.map_eq_none_iff]

theorem present_congr {e v vpn : Nat} (same : m'.pte e v = m.pte d vpn) :
    m'.present e v = m.present d vpn := by
  unfold Machine.present
  rw [same]

theorem present_of_pte {vpn pte : Nat} (entry : m.pte d vpn = some pte) :
    m.present d vpn = if has pte pteP then some pte else none := by
  unfold Machine.present
  rw [entry]
  by_cases isPresent : has pte pteP = true
  · simp [isPresent]
  · simp [isPresent]

theorem view_congr {e vpn : Nat} (same : m'.present e vpn = m.present e vpn)
    (bytes : ∀ page, vpn < userPages → m.mapped e vpn = some page → m'.bytes page = m.bytes page) :
    m'.view e vpn = m.view e vpn := by
  unfold Machine.view
  rw [same]
  cases found : m.present e vpn with
  | none => rfl
  | some pte =>
    rw [Option.map_some, Option.map_some]
    by_cases isUser : vpn < userPages
    · rw [if_pos isUser, if_pos isUser, bytes _ isUser]
      rw [mapped_eq_present, found, Option.map_some]
    · rw [if_neg isUser, if_neg isUser]

/-- What a directory maps is a matter of the pages that it uses. -/
theorem view_of_uses {e vpn : Nat} (same : ∀ page, m.Uses e page → m'.bytes page = m.bytes page)
    (inSpace : vpn < addressPages) : m'.pte e vpn = m.pte e vpn ∧ m'.view e vpn = m.view e vpn := by
  have samePte : m'.pte e vpn = m.pte e vpn := by
    unfold Machine.pte Machine.word
    rw [same e (Or.inl (Or.inl rfl))]
    cases framed : frame (m.word e (vpn / 1024)) with
    | none =>
      unfold Machine.word at framed
      rw [framed]
      rfl
    | some t =>
      have table := same t (Or.inl (Or.inr ⟨_, table_index inSpace, framed⟩))
      unfold Machine.word at framed
      rw [framed, Option.map_some, Option.map_some, table]
  refine ⟨samePte, view_congr (present_congr samePte) fun page isUser isMapped => ?_⟩
  exact same page (Or.inr ⟨vpn, isUser, isMapped⟩)

theorem view_of_bytes (same : m'.bytes = m.bytes) (e vpn : Nat) : m'.view e vpn = m.view e vpn := by
  unfold Machine.view Machine.present Machine.pte Machine.word
  rw [same]

theorem view_eq_none {e vpn : Nat} (unmapped : m.mapped e vpn = none) : m.view e vpn = none := by
  unfold Machine.view
  rw [present_eq_none_iff.mpr unmapped]
  rfl

theorem Machine.pte_eq_some {k t vpn : Nat} (holds : frame (m.word d k) = some t)
    (inTable : vpn / 1024 = k) : m.pte d vpn = some (m.word t (vpn % 1024)) := by
  unfold Machine.pte
  rw [inTable, holds]
  rfl

theorem Machine.pte_eq_none {k vpn : Nat} (absent : frame (m.word d k) = none)
    (inTable : vpn / 1024 = k) : m.pte d vpn = none := by
  unfold Machine.pte
  rw [inTable, absent]
  rfl

/-- Only the words of directories and page tables matter. -/
theorem Shape.congr (shape : Shape live m own)
    (dirs : ∀ e, own (.dir e) = some e → ∀ i, m'.word e i = m.word e i)
    (tables : ∀ e k t, own (.table e k) = some t → ∀ i, m'.word t i = m.word t i) :
    Shape live m' own := by
  have samePte : ∀ {e vpn}, live e → vpn < addressPages → m'.pte e vpn = m.pte e vpn := by
    intro e vpn isLive below
    unfold Machine.pte
    rw [dirs e (shape.dir isLive)]
    cases found : frame (m.word e (vpn / 1024)) with
    | none => rfl
    | some t =>
      simp only [Option.map_some]
      rw [tables e (vpn / 1024) t (by rw [shape.table isLive (table_index below), found])]
  constructor
  · exact shape.dir
  · intro e k isLive below
    rw [dirs e (shape.dir isLive), shape.table isLive below]
  · intro e vpn isLive below
    have inSpace := user_inSpace below
    unfold Machine.mapped
    rw [samePte isLive inSpace, shape.user isLive below]
    rfl
  · intro e vpn pte isLive low high
    rw [samePte isLive high]
    exact shape.kernel isLive low high
  · exact shape.dead
  · exact shape.tableRange
  · exact shape.userRange
  · exact shape.inPool

theorem Shape.of_bytes (shape : Shape live m own) (same : m'.bytes = m.bytes) :
    Shape live m' own := by
  apply shape.congr
  · intro e _ i
    unfold Machine.word
    rw [same]
  · intro e k t _ i
    unfold Machine.word
    rw [same]

/-- Writing to a page that is neither a directory nor a page table changes no
address space. -/
theorem Shape.fill (shape : Shape live m own) {page : Nat} {content : Bytes}
    (notDir : ∀ e, own (.dir e) ≠ some page) (notTable : ∀ e k, own (.table e k) ≠ some page) :
    Shape live (m.fill page content) own := by
  apply shape.congr
  · intro e holds i
    apply m.word_fill_of_ne
    intro same
    exact notDir e (same ▸ holds)
  · intro e k t holds i
    apply m.word_fill_of_ne
    intro same
    exact notTable e k (same ▸ holds)

theorem Shape.live_of (shape : Shape live m own) {place : Place} {page : Nat}
    (holds : own place = some page) (ofD : place.Of d) : live d := by
  by_contra notLive
  rw [shape.dead notLive ofD] at holds
  exact absurd holds (by simp)

theorem Inv.of_live {live' : Nat → Prop} (inv : Inv live m own)
    (same : ∀ e, live' e ↔ live e) : Inv live' m own := by
  rwa [show live' = live from funext fun e => propext (same e)]

/-- As long as no directory is tracked, only kernel stacks and the hand hold pages. -/
theorem Inv.untracked (outside : ∀ {d place}, Place.Of d place → own place = none)
    (inPool : ∀ {place page}, own place = some page → 0 < page ∧ page < physTop / pgSize)
    (balanced : Balanced own m.allocs m.frees) : Inv (fun _ => False) m own :=
  ⟨⟨False.elim, False.elim, False.elim, False.elim, fun _ ofD => outside ofD,
    fun _ => outside (d := _) rfl, fun _ => outside (d := _) rfl, inPool⟩, balanced⟩

theorem Inv.empty (m : Machine) (returned : ∀ page, m.allocs page = m.frees page) :
    Inv (fun _ => False) m fun _ => none :=
  Inv.untracked (fun _ => rfl) (by simp) ⟨by simp, by simp, fun _ => returned _⟩

/-- Every page is free, or a page of the pool that has been handed out once. -/
def HandedOutOnce (m : Machine) : Prop :=
  ∀ page, m.allocs page = m.frees page ∨
    (m.allocs page = m.frees page + 1 ∧ 0 < page ∧ page < physTop / pgSize)

/-- The pages that have been handed out, each held as if it were a kernel stack. -/
def Machine.inUse (m : Machine) : Place → Option Nat
  | .kstack page => if m.allocs page = m.frees page + 1 then some page else none
  | _ => none

theorem inUse_eq_some {place : Place} {page : Nat} :
    m.inUse place = some page ↔ place = .kstack page ∧ m.allocs page = m.frees page + 1 := by
  cases place with
  | kstack slot =>
    simp only [Machine.inUse, Place.kstack.injEq]
    grind
  | _ => simp [Machine.inUse]

/-- Whoever has the pages, they are not handed out again. -/
theorem HandedOutOnce.inv (once : HandedOutOnce m) : Inv (fun _ => False) m m.inUse := by
  apply Inv.untracked
  · intro d place ofD
    cases place with
    | kstack slot => exact ofD.elim
    | _ => rfl
  · intro place page holds
    rcases once page with free | ⟨_, inPool⟩
    · have handedOut := (inUse_eq_some.mp holds).2
      omega
    · exact inPool
  · constructor
    · intro left right page isLeft isRight
      rw [(inUse_eq_some.mp isLeft).1, (inUse_eq_some.mp isRight).1]
    · intro place page holds
      exact (inUse_eq_some.mp holds).2
    · intro page unheld
      rcases once page with free | ⟨handedOut, _⟩
      · exact free
      · exact absurd (inUse_eq_some.mpr ⟨rfl, handedOut⟩) (unheld (.kstack page))

/-- The states with owners are such states. -/
theorem Inv.handedOutOnce (inv : Inv live m own) : HandedOutOnce m := by
  intro page
  by_cases held : ∃ place, own place = some page
  · obtain ⟨place, holds⟩ := held
    exact Or.inr ⟨inv.balanced.held holds, inv.shape.inPool holds⟩
  · exact Or.inl (inv.balanced.idle fun place holds => held ⟨place, holds⟩)

/-- What a place outside all address spaces holds does not matter to them. -/
theorem Shape.setOutside (shape : Shape live m own) {place : Place}
    (outside : ∀ d, ¬ place.Of d) {content : Option Nat}
    (inPool : ∀ page, content = some page → 0 < page ∧ page < physTop / pgSize) :
    Shape live m (update own place content) := by
  have others : ∀ {other : Place} {e : Nat}, other.Of e →
      update own place content other = own other := by
    intro other e ofE
    apply update_of_ne
    rintro rfl
    exact outside e ofE
  constructor
  · intro e isLive
    rw [others (show (Place.dir e).Of e from rfl), shape.dir isLive]
  · intro e k isLive below
    rw [others (show (Place.table e k).Of e from rfl), shape.table isLive below]
  · intro e vpn isLive below
    rw [others (show (Place.user e vpn).Of e from rfl), shape.user isLive below]
  · exact shape.kernel
  · intro e other notLive ofE
    rw [others ofE, shape.dead notLive ofE]
  · intro e k large
    rw [others (show (Place.table e k).Of e from rfl), shape.tableRange large]
  · intro e vpn large
    rw [others (show (Place.user e vpn).Of e from rfl), shape.userRange large]
  · intro other page holds
    by_cases same : other = place
    · rw [same, update_self] at holds
      exact inPool page holds
    · rw [update_of_ne same] at holds
      exact shape.inPool holds

theorem Place.hand_outside (d : Nat) : ¬ Place.hand.Of d := id

theorem Place.kstack_outside (slot d : Nat) : ¬ (Place.kstack slot).Of d := id

end Reading

/-! ## Storing a page table entry -/

/-- The page tables of directory `d` are different pages, and not `d` itself. -/
structure Directory (m : Machine) (d : Nat) : Prop where
  apart : ∀ {k}, k < 1024 → frame (m.word d k) ≠ some d
  once : ∀ {k l t}, k < 1024 → l < 1024 → frame (m.word d k) = some t →
    frame (m.word d l) = some t → k = l

section Store

variable {live : Nat → Prop} {m : Machine} {own : Place → Option Nat} {d t vpn value : Nat}

theorem Directory.word_setWord (directory : Directory m d) {k l i : Nat} (inDir : k < 1024)
    (framed : frame (m.word d k) = some t) : (m.setWord t i value).word d l = m.word d l := by
  apply m.word_setWord_of_ne
  left
  rintro rfl
  exact directory.apart inDir framed

theorem Directory.setWord (directory : Directory m d) {k i : Nat} (inDir : k < 1024)
    (framed : frame (m.word d k) = some t) : Directory (m.setWord t i value) d := by
  constructor
  · intro l below
    rw [directory.word_setWord inDir framed]
    exact directory.apart below
  · intro k' l u kBelow lBelow
    rw [directory.word_setWord inDir framed, directory.word_setWord inDir framed]
    exact directory.once kBelow lBelow

theorem Directory.pte_setWord (directory : Directory m d) (inSpace : vpn < addressPages)
    (framed : frame (m.word d (vpn / 1024)) = some t) (fits : value < 2 ^ 32) {v : Nat}
    (otherInSpace : v < addressPages) :
    (m.setWord t (vpn % 1024) value).pte d v = if v = vpn then some value else m.pte d v := by
  unfold Machine.pte
  rw [directory.word_setWord (table_index inSpace) framed]
  by_cases same : v = vpn
  · rw [if_pos same, same, framed, Option.map_some, m.word_setWord_self fits]
  · rw [if_neg same]
    cases found : frame (m.word d (v / 1024)) with
    | none => rfl
    | some u =>
      rw [Option.map_some, Option.map_some, m.word_setWord_of_ne]
      by_contra bothSame
      rw [not_or, not_not, not_not] at bothSame
      have sameTable := directory.once (table_index otherInSpace) (table_index inSpace) found
        (bothSame.1 ▸ framed)
      omega

theorem Inv.directory (inv : Inv live m own) (isLive : live d) : Directory m d := by
  refine ⟨fun below framed => ?_, fun kBelow lBelow framed framed' => ?_⟩
  · rw [← inv.shape.table isLive below] at framed
    exact absurd (inv.balanced.once framed (inv.shape.dir isLive)) (by simp)
  · rw [← inv.shape.table isLive kBelow] at framed
    rw [← inv.shape.table isLive lBelow] at framed'
    simpa using inv.balanced.once framed framed'

/-- Storing the entry of one virtual page leaves every other entry alone. -/
theorem Inv.pte_setWord (inv : Inv live m own) (isLive : live d) (inSpace : vpn < addressPages)
    (holds : own (.table d (vpn / 1024)) = some t) (fits : value < 2 ^ 32) {e other : Nat}
    (otherLive : live e) (otherInSpace : other < addressPages) :
    (m.setWord t (vpn % 1024) value).pte e other =
      if e = d ∧ other = vpn then some value else m.pte e other := by
  have notDir : e ≠ t := by
    intro same
    have dirPlace := inv.shape.dir otherLive
    rw [same] at dirPlace
    exact absurd (inv.balanced.once dirPlace holds) (by simp)
  unfold Machine.pte
  rw [m.word_setWord_of_ne (Or.inl notDir)]
  cases found : frame (m.word e (other / 1024)) with
  | none =>
    simp only [Option.map_none]
    rw [if_neg]
    rintro ⟨rfl, rfl⟩
    rw [inv.shape.table isLive (table_index inSpace), found] at holds
    exact absurd holds (by simp)
  | some t' =>
    have ownTable : own (.table e (other / 1024)) = some t' := by
      rw [inv.shape.table otherLive (table_index otherInSpace), found]
    simp only [Option.map_some]
    by_cases same : e = d ∧ other = vpn
    · obtain ⟨rfl, rfl⟩ := same
      have sameTable : t' = t := Option.some.inj (ownTable.symm.trans holds)
      rw [if_pos ⟨rfl, rfl⟩, sameTable, m.word_setWord_self fits]
    · rw [if_neg same, m.word_setWord_of_ne]
      by_contra bothSame
      rw [not_or, not_not, not_not] at bothSame
      have samePlace := inv.balanced.once ownTable (bothSame.1 ▸ holds)
      simp only [Place.table.injEq] at samePlace
      apply same
      refine ⟨samePlace.1, ?_⟩
      omega

private theorem Inv.setWord_table (inv : Inv live m own) {place : Place}
    (holds : own place = some t) (notDir : ∀ e, place ≠ .dir e) {i : Nat} {e k : Nat}
    (otherLive : live e) :
    frame ((m.setWord t i value).word e k) = frame (m.word e k) := by
  rw [m.word_setWord_of_ne]
  left
  intro same
  have dirPlace := inv.shape.dir otherLive
  rw [same] at dirPlace
  exact notDir t (inv.balanced.once holds dirPlace)

/-- Storing the entry of a user page gives that place the page of the entry. -/
theorem Inv.setUserPte (inv : Inv live m own) (isLive : live d) (isUser : vpn < userPages)
    (holds : own (.table d (vpn / 1024)) = some t) (fits : value < 2 ^ 32)
    (inPool : ∀ page, frame value = some page → 0 < page ∧ page < physTop / pgSize) :
    Shape live (m.setWord t (vpn % 1024) value)
      (update own (.user d vpn) (frame value)) := by
  have inSpace := user_inSpace isUser
  have stored : ∀ {e other}, live e → other < addressPages →
      (m.setWord t (vpn % 1024) value).pte e other =
        if e = d ∧ other = vpn then some value else m.pte e other :=
    inv.pte_setWord isLive inSpace holds fits
  constructor
  · intro e otherLive
    rw [update_of_ne (by simp), inv.shape.dir otherLive]
  · intro e k otherLive below
    rw [update_of_ne (by simp), inv.shape.table otherLive below,
      inv.setWord_table holds (by simp) otherLive]
  · intro e other otherLive below
    unfold Machine.mapped
    rw [stored otherLive (user_inSpace below)]
    by_cases same : e = d ∧ other = vpn
    · obtain ⟨rfl, rfl⟩ := same
      rw [if_pos ⟨rfl, rfl⟩, update_self]
      rfl
    · rw [if_neg same, update_of_ne (by simpa using same),
        inv.shape.user otherLive below]
      rfl
  · intro e other pte otherLive low high
    rw [stored otherLive high, if_neg (by omega)]
    exact inv.shape.kernel otherLive low high
  · intro e place notLive ofE
    rw [update_of_ne _, inv.shape.dead notLive ofE]
    rintro rfl
    have same : d = e := ofE
    exact notLive (same ▸ isLive)
  · intro e k large
    rw [update_of_ne (by simp), inv.shape.tableRange large]
  · intro e other large
    rw [update_of_ne _, inv.shape.userRange large]
    simp only [ne_eq, Place.user.injEq, not_and]
    omega
  · intro place page found
    by_cases same : place = .user d vpn
    · rw [same, update_self] at found
      exact inPool page found
    · rw [update_of_ne same] at found
      exact inv.shape.inPool found

/-- Storing the entry of a kernel page, which user code cannot use, moves no
page. -/
theorem Inv.setKernelPte (inv : Inv live m own) (isLive : live d) (isKernel : userPages ≤ vpn)
    (inSpace : vpn < addressPages) (holds : own (.table d (vpn / 1024)) = some t)
    (fits : value < 2 ^ 32) (noUser : has value pteU = false) :
    Shape live (m.setWord t (vpn % 1024) value) own := by
  have stored : ∀ {e other}, live e → other < addressPages →
      (m.setWord t (vpn % 1024) value).pte e other =
        if e = d ∧ other = vpn then some value else m.pte e other :=
    inv.pte_setWord isLive inSpace holds fits
  constructor
  · exact inv.shape.dir
  · intro e k otherLive below
    rw [inv.shape.table otherLive below, inv.setWord_table holds (by simp) otherLive]
  · intro e other otherLive below
    unfold Machine.mapped
    rw [stored otherLive (user_inSpace below), if_neg (by omega),
      inv.shape.user otherLive below]
    rfl
  · intro e other pte otherLive low high
    rw [stored otherLive high]
    split
    · intro stores _
      rw [← Option.some.inj stores]
      exact noUser
    · exact inv.shape.kernel otherLive low high
  · exact inv.shape.dead
  · exact inv.shape.tableRange
  · exact inv.shape.userRange
  · exact inv.shape.inPool

end Store

/-! ## Adding a page table -/

section AddTable

variable {live : Nat → Prop} {m : Machine} {own : Place → Option Nat} {d k page : Nat}

/-- Memory after `walkpgdir` has cleared `page` and entered it in the directory
`d` at `k`. -/
def Machine.withTable (m : Machine) (d k page : Nat) : Machine :=
  (m.fill page fun _ => 0).setWord d k (page * pgSize ||| pteP ||| pteW ||| pteU)

/-- The new page table has no present entry; every other entry is as before. -/
theorem Inv.pte_withTable (inv : Inv live m own) (isLive : live d)
    (absent : frame (m.word d k) = none) (unheld : ∀ place, own place ≠ some page)
    (small : page < 2 ^ 20) {e vpn : Nat} (otherLive : live e) (inSpace : vpn < addressPages) :
    (m.withTable d k page).pte e vpn =
      if e = d ∧ vpn / 1024 = k then some 0 else m.pte e vpn := by
  have dirNotPage : ∀ {e}, live e → e ≠ page := by
    intro e eLive same
    exact unheld (.dir e) (same ▸ inv.shape.dir eLive)
  have entryFits : page * pgSize ||| pteP ||| pteW ||| pteU < 2 ^ 32 := by
    rw [tableEntry_eq]
    unfold pgSize
    omega
  unfold Machine.pte Machine.withTable
  by_cases same : e = d ∧ vpn / 1024 = k
  · obtain ⟨rfl, rfl⟩ := same
    rw [if_pos ⟨rfl, rfl⟩, Machine.word_setWord_self _ entryFits, frame_tableEntry]
    simp only [Option.map_some]
    rw [Machine.word_setWord_of_ne _ (Or.inl (dirNotPage isLive).symm), Machine.word_cleared]
  · rw [if_neg same, Machine.word_setWord_of_ne _ (by omega),
      Machine.word_fill_of_ne _ (dirNotPage otherLive)]
    cases found : frame (m.word e (vpn / 1024)) with
    | none => rfl
    | some t =>
      have ownTable : own (.table e (vpn / 1024)) = some t := by
        rw [inv.shape.table otherLive (table_index inSpace), found]
      have notDir : t ≠ d := by
        intro isDir
        rw [isDir] at ownTable
        exact absurd (inv.balanced.once ownTable (inv.shape.dir isLive)) (by simp)
      have notPage : t ≠ page := by
        intro isPage
        exact unheld _ (isPage ▸ ownTable)
      simp only [Option.map_some]
      rw [Machine.word_setWord_of_ne _ (Or.inl notDir), Machine.word_fill_of_ne _ notPage]

theorem Inv.addTable (inv : Inv live m own) (isLive : live d) (inDir : k < 1024)
    (absent : frame (m.word d k) = none) (unheld : ∀ place, own place ≠ some page)
    (inPool : 0 < page ∧ page < physTop / pgSize) :
    Shape live (m.withTable d k page) (update own (.table d k) (some page)) := by
  have small : page < 2 ^ 20 := lt_trans inPool.2 (by decide)
  have entryFits : page * pgSize ||| pteP ||| pteW ||| pteU < 2 ^ 32 := by
    rw [tableEntry_eq]
    unfold pgSize
    omega
  have entries : ∀ {e vpn}, live e → vpn < addressPages → (m.withTable d k page).pte e vpn =
      if e = d ∧ vpn / 1024 = k then some 0 else m.pte e vpn :=
    inv.pte_withTable isLive absent unheld small
  have nothing : ∀ {vpn}, vpn / 1024 = k → m.pte d vpn = none := fun inTable =>
    Machine.pte_eq_none absent inTable
  constructor
  · intro e otherLive
    rw [update_of_ne (by simp), inv.shape.dir otherLive]
  · intro e k' otherLive below
    unfold Machine.withTable
    by_cases same : e = d ∧ k' = k
    · obtain ⟨rfl, rfl⟩ := same
      rw [update_self, Machine.word_setWord_self _ entryFits, frame_tableEntry]
    · have notPage : e ≠ page := by
        intro isPage
        exact unheld (.dir e) (isPage ▸ inv.shape.dir otherLive)
      rw [update_of_ne (by simpa using same), Machine.word_setWord_of_ne _ (by omega),
        Machine.word_fill_of_ne _ notPage, inv.shape.table otherLive below]
  · intro e vpn otherLive below
    unfold Machine.mapped
    rw [update_of_ne (by simp), entries otherLive (user_inSpace below),
      inv.shape.user otherLive below]
    split
    · rename_i same
      unfold Machine.mapped
      rw [same.1, nothing same.2]
      rfl
    · rfl
  · intro e vpn pte otherLive low high
    rw [entries otherLive high]
    split
    · intro stores present
      rw [← Option.some.inj stores] at present
      exact absurd present (by decide)
    · exact inv.shape.kernel otherLive low high
  · intro e place notLive ofE
    rw [update_of_ne _, inv.shape.dead notLive ofE]
    rintro rfl
    have same : d = e := ofE
    exact notLive (same ▸ isLive)
  · intro e k' large
    rw [update_of_ne _, inv.shape.tableRange large]
    simp only [ne_eq, Place.table.injEq, not_and]
    omega
  · intro e vpn large
    rw [update_of_ne (by simp), inv.shape.userRange large]
  · intro place found holds
    by_cases same : place = .table d k
    · rw [same, update_self] at holds
      rw [← Option.some.inj holds]
      exact inPool
    · rw [update_of_ne same] at holds
      exact inv.shape.inPool holds

end AddTable

end Rexv6.Vm
