import Rexv6.Vm.Process
import Rexv6.Vm.Translation

/-!
Contract: what `uva2ka` and `copyout` read and write.

Owns: for any directory with distinct pages, which bytes `copyout` changes, when
it returns -1, and when it follows a null pointer.

Does not own: the callers; `exec` passes stack addresses.
-/

namespace Rexv6.Vm

open Rexv6.Foundation
open Rexv6.Foundation.Program

/-- The page that user code reaches at virtual page `vpn`. -/
def Machine.userPage (m : Machine) (d vpn : Nat) : Option Nat :=
  ((m.present d vpn).filter (has · pteU)).map (· / pgSize)

/-- The pages that user code reaches through `d` are different pages, and none of
them is part of the directory. -/
structure Space (m : Machine) (d : Nat) : Prop extends Directory m d where
  users : ∀ {v w page}, v < addressPages → w < addressPages → m.userPage d v = some page →
    m.userPage d w = some page → v = w
  data : ∀ {v page}, v < addressPages → m.userPage d v = some page → ¬ m.PartOf d page

/-- The virtual page of the byte at `i` of a range that starts at `va`. -/
def pageAt (va i : Nat) : Nat := (va + i) % 2 ^ 32 / pgSize

/-- The offset of that byte in its page. -/
def offsetAt (va i : Nat) : Nat := (va + i) % 2 ^ 32 % pgSize

theorem pageAt_lt (va i : Nat) : pageAt va i < addressPages := by
  unfold pageAt pgSize addressPages
  omega

/-- Wherever the bytes before are user memory, there is a page table. -/
def Reaches (m : Machine) (d va len : Nat) : Prop :=
  ∀ i < len, (∀ j < i, m.userPage d (pageAt va j) ≠ none) → m.pte d (pageAt va i) ≠ none

section Walk

variable {m : Machine} {d vpn : Nat}

theorem userPage_congr {m' : Machine} (same : m'.pte d vpn = m.pte d vpn) :
    m'.userPage d vpn = m.userPage d vpn := by
  unfold Machine.userPage
  rw [present_congr same]

/-- `uva2ka` returns the user page, unless it has to read an entry that does not
exist. -/
theorem uva2ka_meets (inSpace : vpn < addressPages) :
    Meets (uva2ka d (vpn * pgSize)) m
      (fun page m' => m' = m ∧ m.pte d vpn ≠ none ∧ page = m.userPage d vpn)
      fun stop => stop = .fault ∧ m.pte d vpn = none := by
  apply Total.bind
  apply walkpgdir_finds inSpace
  · intro absent
    exact ⟨rfl, Machine.pte_eq_none absent rfl⟩
  · intro t framed
    have entry := Machine.pte_eq_some framed (show vpn / 1024 = vpn / 1024 from rfl)
    have here := present_of_pte entry
    rw [meets_bind, meets_get]
    unfold Machine.userPage
    rw [here, entry]
    by_cases present : has (m.word t (vpn % 1024)) pteP = true
    · by_cases user : has (m.word t (vpn % 1024)) pteU = true
      · simp [present, user, pteAddr, pgSize]
      · simp [present, user]
    · simp [present]

theorem pte_fill {page : Nat} (outside : ¬ m.PartOf d page) (inSpace : vpn < addressPages)
    {content} : (m.fill page content).pte d vpn = m.pte d vpn := by
  unfold Machine.pte
  rw [m.word_fill_of_ne fun same => outside (Or.inl same.symm)]
  cases framed : frame (m.word d (vpn / 1024)) with
  | none => rfl
  | some t =>
    rw [Option.map_some, Option.map_some, m.word_fill_of_ne]
    rintro rfl
    exact outside (Or.inr ⟨_, table_index inSpace, framed⟩)

theorem Space.fill (space : Space m d) {page : Nat} (outside : ¬ m.PartOf d page) {content} :
    Space (m.fill page content) d := by
  have words : ∀ k, (m.fill page content).word d k = m.word d k := fun k =>
    m.word_fill_of_ne fun same => outside (Or.inl same.symm)
  have users : ∀ {v}, v < addressPages →
      (m.fill page content).userPage d v = m.userPage d v := fun inSpace =>
    userPage_congr (pte_fill outside inSpace)
  constructor
  · constructor
    · intro k below
      rw [words]
      exact space.apart below
    · intro k l t kBelow lBelow
      rw [words, words]
      exact space.once kBelow lBelow
  · intro v w found vBelow wBelow
    rw [users vBelow, users wBelow]
    exact space.users vBelow wBelow
  · intro v found below
    rw [users below]
    unfold Machine.PartOf
    simp only [words]
    exact space.data below

end Walk

/-! ## Copying -/

/-- From `m` to `m'`, only bytes of the user pages in the range have changed. -/
structure Copied (m : Machine) (d va len : Nat) (m' : Machine) : Prop where
  ptes : ∀ v < addressPages, m'.pte d v = m.pte d v
  frame : ∀ page offset, m'.bytes page offset ≠ m.bytes page offset →
    ∃ i < len, m.userPage d (pageAt va i) = some page ∧ offsetAt va i = offset
  counts : m'.allocs = m.allocs ∧ m'.frees = m.frees ∧ m'.answers = m.answers

section Copy

variable {m : Machine} {d : Nat}

theorem Copied.refl (m : Machine) (d va len : Nat) : Copied m d va len m :=
  ⟨fun _ _ => rfl, fun _ _ changed => absurd rfl changed, rfl, rfl, rfl⟩

structure Outcome (m : Machine) (d va : Nat) (data : List UInt8) (ok : Bool) (m' : Machine) :
    Prop where
  copied : Copied m d va data.length m'
  reaches : Reaches m d va data.length
  success : ok = true ↔ ∀ i < data.length, m.userPage d (pageAt va i) ≠ none
  written : data.length ≤ 2 ^ 32 → ok = true → ∀ i page, (below : i < data.length) →
    m.userPage d (pageAt va i) = some page → m'.bytes page (offsetAt va i) = data[i]

theorem first_page {va i : Nat} (vaSmall : va < 2 ^ 32) (inPage : i < pgSize - va % pgSize) :
    pageAt va i = va / pgSize ∧ offsetAt va i = va % pgSize + i := by
  unfold pgSize at inPage
  unfold pageAt offsetAt pgSize
  omega

theorem next_pages {va i : Nat} (later : pgSize - va % pgSize ≤ i) :
    (va + i) % 2 ^ 32 =
      ((va / pgSize * pgSize + pgSize) % 2 ^ 32 + (i - (pgSize - va % pgSize))) % 2 ^ 32 := by
  unfold pgSize at later ⊢
  omega

/-- One turn of `copyout` at `va`: the first `n` bytes of `data` go to `page`. -/
structure Turn (m : Machine) (d va : Nat) (data : List UInt8) (n page : Nat) : Prop where
  space : Space m d
  vaSmall : va < 2 ^ 32
  found : m.userPage d (va / pgSize) = some page
  inPage : n ≤ pgSize - va % pgSize
  inData : n ≤ data.length
  whole : n < data.length → n = pgSize - va % pgSize

/-- Memory after that turn. -/
def Machine.stored (m : Machine) (va : Nat) (data : List UInt8) (n page : Nat) : Machine :=
  m.fill page fun index =>
    if va % pgSize ≤ index then (data.take n).getD (index - va % pgSize) (m.bytes page index)
    else m.bytes page index

def onward (va : Nat) : Nat := (va / pgSize * pgSize + pgSize) % 2 ^ 32

section Turns

variable {va n page : Nat} {data : List UInt8}

theorem Turn.ptes (turn : Turn m d va data n page) {v : Nat} (inSpace : v < addressPages) :
    (m.stored va data n page).pte d v = m.pte d v :=
  pte_fill (turn.space.data (by have := turn.vaSmall; unfold pgSize addressPages; omega) turn.found)
    inSpace

theorem Turn.users (turn : Turn m d va data n page) (i : Nat) :
    (m.stored va data n page).userPage d (pageAt va i) = m.userPage d (pageAt va i) :=
  userPage_congr (turn.ptes (pageAt_lt va i))

theorem Turn.first (turn : Turn m d va data n page) {i : Nat} (below : i < n) :
    m.userPage d (pageAt va i) = some page ∧ offsetAt va i = va % pgSize + i := by
  have here := first_page turn.vaSmall (lt_of_lt_of_le below turn.inPage)
  rw [here.1, turn.found]
  exact ⟨rfl, here.2⟩

theorem Turn.later (turn : Turn m d va data n page) {i : Nat} (below : n + i < data.length) :
    pageAt (onward va) i = pageAt va (n + i) ∧ offsetAt (onward va) i = offsetAt va (n + i) := by
  have isN := turn.whole (by omega)
  have address := next_pages (show pgSize - va % pgSize ≤ n + i by omega)
  rw [show n + i - (pgSize - va % pgSize) = i by omega] at address
  unfold pageAt offsetAt onward
  rw [address]
  exact ⟨rfl, rfl⟩

theorem Turn.users_later (turn : Turn m d va data n page) {i : Nat}
    (below : n + i < data.length) :
    (m.stored va data n page).userPage d (pageAt (onward va) i) =
      m.userPage d (pageAt va (n + i)) := by
  rw [(turn.later below).1, turn.users]

theorem Turn.written (turn : Turn m d va data n page) {i : Nat} (below : i < n) :
    (m.stored va data n page).bytes page (va % pgSize + i) =
      data.get ⟨i, lt_of_lt_of_le below turn.inData⟩ := by
  have inTake : i < (data.take n).length := by
    rw [List.length_take]
    exact lt_min below (lt_of_lt_of_le below turn.inData)
  unfold Machine.stored Machine.fill
  simp only [Function.update_self]
  rw [if_pos (Nat.le_add_right _ _), Nat.add_sub_cancel_left, List.getD_eq_getElem _ _ inTake,
    List.getElem_take]
  rfl

theorem stored_frame {other offset : Nat}
    (changed : (m.stored va data n page).bytes other offset ≠ m.bytes other offset) :
    other = page ∧ ∃ i < n, va % pgSize + i = offset := by
  unfold Machine.stored Machine.fill at changed
  simp only at changed
  by_cases here : other = page
  · rw [here, Function.update_self] at changed
    refine ⟨here, offset - va % pgSize, ?_⟩
    by_contra outside
    apply changed
    split
    · rw [List.getD_eq_default]
      rw [List.length_take]
      omega
    · rfl
  · exact absurd (by rw [Function.update_of_ne here]) changed

/-- The rest reaches its page tables if and only if the whole does. -/
theorem Turn.reaches (turn : Turn m d va data n page) (table : m.pte d (va / pgSize) ≠ none) :
    Reaches (m.stored va data n page) d (onward va) (data.length - n) ↔
      Reaches m d va data.length := by
  constructor
  · intro reaches i below before
    by_cases early : i < n
    · rwa [(first_page turn.vaSmall (lt_of_lt_of_le early turn.inPage)).1]
    · obtain ⟨j, rfl⟩ := Nat.exists_eq_add_of_le (Nat.le_of_not_lt early)
      rw [← (turn.later below).1, ← turn.ptes (pageAt_lt _ _)]
      refine reaches j (by omega) fun k kBelow => ?_
      rw [turn.users_later (by omega)]
      exact before _ (by omega)
  · intro reaches j below before
    rw [turn.ptes (pageAt_lt _ _), (turn.later (by omega)).1]
    refine reaches (n + j) (by omega) fun k kBelow => ?_
    by_cases early : k < n
    · rw [(turn.first early).1]
      simp
    · obtain ⟨l, rfl⟩ := Nat.exists_eq_add_of_le (Nat.le_of_not_lt early)
      rw [← turn.users_later (by omega)]
      exact before l (by omega)

/-- The bytes of a turn stay, whatever the rest does: no address comes twice. -/
theorem Turn.outcome (turn : Turn m d va data n page) (table : m.pte d (va / pgSize) ≠ none)
    {ok : Bool} {m' : Machine}
    (rest : Outcome (m.stored va data n page) d (onward va) (data.drop n) ok m') :
    Outcome m d va data ok m' := by
  have length : (data.drop n).length = data.length - n := List.length_drop
  have restFrame : ∀ other offset,
      m'.bytes other offset ≠ (m.stored va data n page).bytes other offset →
      ∃ i, n + i < data.length ∧ m.userPage d (pageAt va (n + i)) = some other ∧
        offsetAt va (n + i) = offset := by
    intro other offset changed
    obtain ⟨i, below, isPage, isOffset⟩ := rest.copied.frame other offset changed
    have inData : n + i < data.length := by omega
    exact ⟨i, inData, by rw [← turn.users_later inData, isPage],
      by rw [← (turn.later inData).2, isOffset]⟩
  constructor
  · refine ⟨fun v inSpace => ?_, fun other offset changed => ?_, rest.copied.counts⟩
    · rw [rest.copied.ptes v inSpace, turn.ptes inSpace]
    · by_cases restChanged : m'.bytes other offset = (m.stored va data n page).bytes other offset
      · rw [restChanged] at changed
        obtain ⟨rfl, i, below, rfl⟩ := stored_frame changed
        exact ⟨i, lt_of_lt_of_le below turn.inData, turn.first below⟩
      · obtain ⟨i, below, isPage, isOffset⟩ := restFrame other offset restChanged
        exact ⟨n + i, below, isPage, isOffset⟩
  · rw [← turn.reaches table, ← length]
    exact rest.reaches
  · rw [rest.success, length]
    constructor
    · intro all i below
      by_cases early : i < n
      · rw [(turn.first early).1]
        simp
      · obtain ⟨j, rfl⟩ := Nat.exists_eq_add_of_le (Nat.le_of_not_lt early)
        rw [← turn.users_later below]
        exact all j (by omega)
    · intro all j below
      rw [turn.users_later (by omega)]
      exact all (n + j) (by omega)
  · intro fits isOk i other below isPage
    by_cases early : i < n
    · obtain ⟨first, offset⟩ := turn.first early
      obtain rfl : page = other := Option.some.inj (first.symm.trans isPage)
      rw [offset]
      by_cases changed : m'.bytes page (va % pgSize + i) =
          (m.stored va data n page).bytes page (va % pgSize + i)
      · rw [changed, turn.written early]
        rfl
      · obtain ⟨j, inData, again, sameOffset⟩ := restFrame _ _ changed
        have samePage := turn.space.users (pageAt_lt _ _) (pageAt_lt _ _) first again
        unfold pageAt pgSize at samePage
        unfold offsetAt pgSize at sameOffset
        omega
    · obtain ⟨j, rfl⟩ := Nat.exists_eq_add_of_le (Nat.le_of_not_lt early)
      have stays := rest.written (by omega) isOk j other (by omega)
        (by rw [turn.users_later below, isPage])
      rw [(turn.later below).2] at stays
      rw [stays, List.getElem_drop]

end Turns

theorem copyoutLoop_meets :
    ∀ (turns va : Nat) (data : List UInt8) (m : Machine), Space m d → va < 2 ^ 32 →
      data.length ≤ turns →
      Meets (copyoutLoop d turns va data) m (Outcome m d va data)
        fun stop => stop = .fault ∧ ¬ Reaches m d va data.length := by
  intro turns
  induction turns with
  | zero =>
    intro va data m _ _ short
    rw [List.length_eq_zero_iff.mp (Nat.le_zero.mp short), copyoutLoop]
    exact ⟨Copied.refl m d va 0, by simp [Reaches], by simp, by simp⟩
  | succ turns ih =>
    intro va data m space vaSmall short
    cases data with
    | nil =>
      exact ⟨Copied.refl m d va 0, by simp [Reaches], by simp, by simp⟩
    | cons byte tail =>
      have positive : 0 < (byte :: tail).length := by simp
      have firstPage : pageAt va 0 = va / pgSize :=
        (first_page vaSmall (by unfold pgSize; omega)).1
      have offset : va - va / pgSize * pgSize = va % pgSize := by
        unfold pgSize
        omega
      have inSpace : va / pgSize < addressPages := by
        unfold pgSize addressPages
        omega
      simp only [copyoutLoop]
      generalize byte :: tail = data at *
      unfold pgRoundDown
      rw [offset]
      refine meets_bind.mpr ((uva2ka_meets inSpace).imp ?_ ?_)
      · rintro found m₁ ⟨rfl, table, isFound⟩
        cases found with
        | none =>
          have notUser : m₁.userPage d (pageAt va 0) = none := by rw [firstPage, isFound]
          refine ⟨Copied.refl _ _ _ _, fun i below before => ?_, ?_, by simp⟩
          · cases i with
            | zero => rwa [firstPage]
            | succ i => exact absurd notUser (before 0 (by omega))
          · simp only [Bool.false_eq_true, false_iff]
            exact fun all => all 0 positive notUser
        | some page =>
          generalize isN : (if pgSize - va % pgSize > data.length then data.length
            else pgSize - va % pgSize) = n
          have turn : Turn m₁ d va data n page := by
            refine ⟨space, vaSmall, isFound.symm, ?_, ?_, ?_⟩ <;>
              (split at isN <;> omega)
          have some : 0 < n := by
            unfold pgSize at isN
            split at isN <;> omega
          refine meets_bind.mpr ((ih (onward va) (data.drop n)
            (m₁.stored va data n page) ?_ (Nat.mod_lt _ (by decide)) ?_).imp ?_ ?_)
          · exact space.fill (space.data inSpace isFound.symm)
          · rw [List.length_drop]
            omega
          · intro ok m' rest
            exact turn.outcome table rest
          · rintro stop ⟨isFault, unreached⟩
            rw [List.length_drop, turn.reaches table] at unreached
            exact ⟨isFault, unreached⟩
      · rintro stop ⟨isFault, missing⟩
        refine ⟨isFault, fun reaches => ?_⟩
        exact reaches 0 positive (by simp) (firstPage ▸ missing)

/-- `copyout` touches only user pages. It returns, 0 exactly if every page of the
range is user memory and then with the bytes written, and otherwise -1, having
changed no byte outside the user pages of the range, if and only if it meets no
missing page table on its way. -/
theorem copyout_touches_user_pages (m : Machine) (d va : Nat) (data : List UInt8)
    (space : Space m d) (vaSmall : va < 2 ^ 32) (fits : data.length < 2 ^ 32) :
    (∃ ok m', (copyout d va data).run m = .ok (ok, m') ∧
      (ok = true ↔ ∀ i < data.length, m.userPage d (pageAt va i) ≠ none) ∧
      (ok = true → ∀ i page, (below : i < data.length) →
        m.userPage d (pageAt va i) = some page → m'.bytes page (offsetAt va i) = data[i]) ∧
      ∀ page offset, m'.bytes page offset ≠ m.bytes page offset →
        ∃ i < data.length, m.userPage d (pageAt va i) = some page ∧ offsetAt va i = offset) ↔
      Reaches m d va data.length := by
  have meets := copyoutLoop_meets data.length va data m space vaSmall le_rfl
  constructor
  · rintro ⟨ok, m', ran, _⟩
    exact (meets.of_run ran).reaches
  · intro reaches
    have total : Total (copyout d va data) m (Outcome m d va data) :=
      meets.imp (fun _ _ outcome => outcome) fun _ fault => fault.2 reaches
    obtain ⟨ok, m', ran, outcome⟩ := total.returns
    exact ⟨ok, m', ran, outcome.success, outcome.written fits.le, outcome.copied.frame⟩

end Copy

/-- Two bytes for the one page of a directory. -/
theorem copyout_touches_user_pages_two_bytes : ∃ ok m',
    (copyout 1 0x3005 [7, 8]).run onePage = .ok (ok, m') ∧ m'.bytes 5 6 = 8 := by
  obtain ⟨directory, present⟩ := onePage_present
  have userPage : ∀ v < addressPages, onePage.userPage 1 v = if v = 3 then some 5 else none := by
    intro v inSpace
    unfold Machine.userPage
    rw [present v inSpace]
    split
    · decide
    · rfl
  have space : Space onePage 1 := by
    refine ⟨directory, fun vBelow wBelow => ?_, fun below isPage part => ?_⟩
    · rw [userPage _ vBelow, userPage _ wBelow]
      split <;> split <;> simp_all
    · rw [userPage _ below] at isPage
      split at isPage
      · have noTable : ∀ k < 1024, frame (onePage.word 1 k) ≠ some 5 := by decide +kernel
        cases isPage
        rcases part with isDir | ⟨k, inDir, framed⟩
        · exact absurd isDir (by decide)
        · exact noTable k inDir framed
      · cases isPage
  have inThree : ∀ i < 2, pageAt 0x3005 i = 3 := by decide
  have reaches : Reaches onePage 1 0x3005 2 := by
    intro i below _ missing
    have user := userPage (pageAt 0x3005 i) (pageAt_lt _ _)
    rw [inThree i below] at user missing
    unfold Machine.userPage Machine.present at user
    rw [missing] at user
    exact absurd user (by decide)
  obtain ⟨ok, m', ran, success, written, _⟩ :=
    (copyout_touches_user_pages onePage 1 0x3005 [7, 8] space (by decide) (by decide)).mpr reaches
  have all : ∀ i < 2, onePage.userPage 1 (pageAt 0x3005 i) = some 5 := by
    intro i below
    rw [inThree i below, userPage 3 (by decide), if_pos rfl]
  have isOk : ok = true := success.mpr fun i below => by
    rw [all i below]
    simp
  exact ⟨ok, m', ran, written isOk 1 5 (by decide) (all 1 (by decide))⟩

/-- `copyout` to an address without a page table reads the entry that `uva2ka`
does not have. -/
theorem copyout_reads_null : Space emptyDirectory 1 ∧ emptyDirectory.pte 1 0 = none ∧
    (uva2ka 1 0).run emptyDirectory = .error .fault ∧
    (copyout 1 0 [7]).run emptyDirectory = .error .fault := by
  have noEntry : ∀ v, emptyDirectory.pte 1 v = none := fun v =>
    Machine.pte_eq_none (emptyDirectory_noTable _) rfl
  have noPage : ∀ v, emptyDirectory.userPage 1 v = none := by
    intro v
    unfold Machine.userPage Machine.present
    rw [noEntry]
    rfl
  refine ⟨⟨emptyDirectory_kept.1, ?_, ?_⟩, noEntry 0, rfl, rfl⟩
  · intro v w page _ _ isPage
    rw [noPage] at isPage
    cases isPage
  · intro v page _ isPage
    rw [noPage] at isPage
    cases isPage

end Rexv6.Vm
