import Rexv6.Vm.Images

/-!
Contract: the user stack that `exec` builds.

Owns: where the strings and the words of `ustack` end up in the new address
space, for every number and length of arguments.

Does not own: the process that starts with that stack.
-/

namespace Rexv6.Vm

open Rexv6.Foundation
open Rexv6.Foundation.Program

def Machine.userByte (m : Machine) (d a : Nat) : Option UInt8 :=
  (m.userPage d (a / pgSize)).map fun page => m.bytes page (a % pgSize)

def Machine.Reads (m : Machine) (d a : Nat) (data : List UInt8) : Prop :=
  ∀ i, (below : i < data.length) → m.userByte d (a + i) = some data[i]

/-- User code reads the strings `argv`, with their terminators, at the addresses
`addrs`, each string below the one before it, from `top` down to `bottom`. -/
def Stacked (m : Machine) (d : Nat) : (top : Nat) → List (List UInt8) → List Nat →
    (bottom : Nat) → Prop
  | top, [], [], bottom => bottom = top
  | top, arg :: argv, addr :: addrs, bottom =>
    addr + (arg.length + 1) ≤ top ∧ m.Reads d addr (arg ++ [0]) ∧ Stacked m d addr argv addrs bottom
  | _, _, _, _ => False

section Reading

variable {m m' : Machine} {d a : Nat} {data : List UInt8}

theorem Machine.Reads.congr (reads : m.Reads d a data)
    (same : ∀ b, a ≤ b → b < a + data.length → m'.userByte d b = m.userByte d b) :
    m'.Reads d a data := by
  intro i below
  rw [same (a + i) (by omega) (by omega)]
  exact reads i below

theorem Stacked.bottom_le {bottom : Nat} :
    ∀ {argv : List (List UInt8)} {addrs : List Nat} {top : Nat},
      Stacked m d top argv addrs bottom → bottom ≤ top := by
  intro argv
  induction argv with
  | nil =>
    intro addrs top stacked
    cases addrs with
    | nil => exact stacked.le
    | cons addr addrs => exact stacked.elim
  | cons arg argv ih =>
    intro addrs top stacked
    cases addrs with
    | nil => exact stacked.elim
    | cons addr addrs =>
      have lower := ih stacked.2.2
      have higher := stacked.1
      omega

/-- Writes below `bottom` keep the strings. -/
theorem Stacked.congr {bottom : Nat}
    (same : ∀ b, bottom ≤ b → b < 2 ^ 32 → m'.userByte d b = m.userByte d b) :
    ∀ {argv : List (List UInt8)} {addrs : List Nat} {top : Nat}, top ≤ 2 ^ 32 →
      Stacked m d top argv addrs bottom → Stacked m' d top argv addrs bottom := by
  intro argv
  induction argv with
  | nil =>
    intro addrs top _ stacked
    cases addrs with
    | nil => exact stacked
    | cons addr addrs => exact stacked.elim
  | cons arg argv ih =>
    intro addrs top inSpace stacked
    cases addrs with
    | nil => exact stacked.elim
    | cons addr addrs =>
      obtain ⟨fits, reads, rest⟩ := stacked
      have lower := rest.bottom_le
      refine ⟨fits, reads.congr fun b above below => ?_, ih (by omega) rest⟩
      rw [List.length_append, List.length_singleton] at below
      exact same b (by omega) (by omega)

/-- A copy that succeeds and does not wrap is read back, and all other addresses
are as before. -/
theorem Outcome.reads (space : Space m d) {va : Nat} (outcome : Outcome m d va data true m')
    (noWrap : va + data.length ≤ 2 ^ 32) :
    m'.Reads d va data ∧
      ∀ b, b < 2 ^ 32 → b < va ∨ va + data.length ≤ b → m'.userByte d b = m.userByte d b := by
  have address : ∀ i < data.length, (va + i) % 2 ^ 32 = va + i := fun i below =>
    Nat.mod_eq_of_lt (by omega)
  have inSpace : ∀ {b}, b < 2 ^ 32 → b / pgSize < addressPages := by
    intro b small
    unfold pgSize addressPages
    omega
  have pages : ∀ {b}, b < 2 ^ 32 → m'.userPage d (b / pgSize) = m.userPage d (b / pgSize) :=
    fun small => userPage_congr (outcome.copied.ptes _ (inSpace small))
  constructor
  · intro i below
    obtain ⟨page, isPage⟩ := Option.ne_none_iff_exists'.mp (outcome.success.mp rfl i below)
    have written := outcome.written (by omega) rfl i page below isPage
    unfold pageAt at isPage
    unfold offsetAt at written
    rw [address i below] at isPage written
    unfold Machine.userByte
    rw [pages (by omega), isPage, Option.map_some, written]
  · intro b small outside
    unfold Machine.userByte
    rw [pages small]
    cases isPage : m.userPage d (b / pgSize) with
    | none => rfl
    | some page =>
      rw [Option.map_some, Option.map_some]
      congr 1
      by_contra changed
      obtain ⟨i, below, found, offset⟩ := outcome.copied.frame page _ changed
      have samePage := space.users (pageAt_lt va i) (inSpace small) found isPage
      unfold pageAt at samePage
      unfold offsetAt at offset
      rw [address i below] at samePage offset
      have same : va + i = b := by
        rw [← Nat.div_add_mod (va + i) pgSize, samePage, offset, Nat.div_add_mod]
      omega

end Reading

/-! ## Pushing -/

/-- `exec` pushes in the page from `base` on, below which is the guard page. -/
structure StackPage (m : Machine) (d base : Nat) : Prop where
  aligned : base % pgSize = 0
  above : pgSize ≤ base
  small : base + pgSize ≤ kernBase
  guarded : m.userPage d (base / pgSize - 1) = none

/-- The stack pointer after a push of `size` bytes. -/
def pushed (sp size : Nat) : Nat := (sp + (2 ^ 32 - size % 2 ^ 32)) % 2 ^ 32 / 4 * 4

section Push

variable {live : Nat → Prop} {m m' : Machine} {own : Place → Option Nat} {d base : Nat}

theorem StackPage.rewritten (page : StackPage m d base)
    (same : ∀ v < addressPages, m'.pte d v = m.pte d v) : StackPage m' d base := by
  refine ⟨page.aligned, page.above, page.small, ?_⟩
  have small := page.small
  rw [userPage_congr (same _ _), page.guarded]
  unfold kernBase pgSize at small
  unfold addressPages pgSize
  omega

/-- What is pushed stays above the guard page: otherwise it would cover the last
word of that page, and the copy would fail. -/
theorem StackPage.push (page : StackPage m d base) {sp size : Nat} (word : sp % 4 = 0)
    (atLeast : base ≤ sp) (atMost : sp ≤ base + pgSize) (positive : 0 < size)
    (user : ∀ i < size, m.userPage d (pageAt (pushed sp size) i) ≠ none) :
    base ≤ pushed sp size ∧ pushed sp size + size ≤ sp := by
  have aligned := page.aligned
  have above := page.above
  have small := page.small
  unfold pgSize at aligned above atMost
  unfold kernBase pgSize at small
  by_cases fits : size ≤ sp - base
  · unfold pushed
    omega
  · exfalso
    obtain ⟨i, below, covers⟩ : ∃ i < size, (pushed sp size + i) % 2 ^ 32 = base - 4 := by
      unfold pushed
      generalize lowered : (sp + (2 ^ 32 - size % 2 ^ 32)) % 2 ^ 32 = r
      obtain ⟨i, isLast⟩ : ∃ i, i + (sp + 4) = size + r % 4 + base :=
        ⟨size + r % 4 + base - (sp + 4), by omega⟩
      exact ⟨i, by omega, by omega⟩
    apply user i below
    unfold pageAt
    rw [covers, ← page.guarded]
    congr 1
    unfold pgSize
    omega

/-- A copy to the stack: the bytes are above the guard page and below the old stack
pointer, and everything from there on is as before. -/
theorem StackPage.copied (page : StackPage m d base) (inv : Inv live m own) (isLive : live d)
    {sp : Nat} (word : sp % 4 = 0) (atLeast : base ≤ sp) (atMost : sp ≤ base + pgSize)
    {data : List UInt8} (positive : 0 < data.length)
    (outcome : Outcome m d (pushed sp data.length) data true m') :
    base ≤ pushed sp data.length ∧ pushed sp data.length + data.length ≤ sp ∧
      m'.Reads d (pushed sp data.length) data ∧
      (∀ b, sp ≤ b → b < 2 ^ 32 → m'.userByte d b = m.userByte d b) ∧
      SameOutside (fun a => base ≤ a ∧ a < base + pgSize) d m m' := by
  obtain ⟨higher, lower⟩ := page.push word atLeast atMost positive (outcome.success.mp rfl)
  have small := page.small
  have noWrap : pushed sp data.length + data.length ≤ 2 ^ 32 := by
    unfold kernBase at small
    omega
  obtain ⟨reads, others⟩ := outcome.reads (inv.space isLive) noWrap
  refine ⟨higher, lower, reads, fun b above inSpace => others b inSpace (Or.inr (by omega)), ?_⟩
  exact (outcome.copied.sameOutside inv isLive noWrap).mono fun a inside => by omega

/-- The strings of `argv` have been pushed from `sp` down to `sp'`, and their
addresses are behind `ustack` in `all`. -/
structure Pushed (m : Machine) (d base : Nat) (argv : List (List UInt8)) (sp : Nat)
    (ustack : List Nat) (sp' : Nat) (all : List Nat) (m' : Machine) : Prop where
  stacked : ∃ addrs, all = ustack ++ addrs ∧ Stacked m' d sp argv addrs sp'
  few : all.length ≤ maxArg
  word : sp' % 4 = 0
  atLeast : base ≤ sp'
  above : ∀ b, sp ≤ b → b < 2 ^ 32 → m'.userByte d b = m.userByte d b
  inPage : SameOutside (fun a => base ≤ a ∧ a < base + pgSize) d m m'

theorem pushArgs_meets (isLive : live d) :
    ∀ (argv : List (List UInt8)) (sp : Nat) (ustack : List Nat) (m : Machine), Inv live m own →
      StackPage m d base → sp % 4 = 0 → base ≤ sp → sp ≤ base + pgSize → ustack.length ≤ maxArg →
      Meets (pushArgs d argv sp ustack) m
        (fun result m' => Rewritten live d own m m' ∧ StackPage m' d base ∧
          ∀ sp' all, result = some (sp', all) → Pushed m d base argv sp ustack sp' all m')
        fun stop => stop = .fault := by
  intro argv
  induction argv with
  | nil =>
    intro sp ustack m inv page word atLeast _ few
    refine ⟨Rewritten.refl inv, page, fun sp' all isResult => ?_⟩
    obtain ⟨rfl, rfl⟩ := Prod.mk.inj (Option.some.inj isResult)
    exact ⟨⟨[], (List.append_nil _).symm, rfl⟩, few, word, atLeast, fun _ _ _ => rfl,
      SameOutside.refl _ d m⟩
  | cons arg rest ih =>
    intro sp ustack m inv page word atLeast atMost few
    have failed : ∀ {m'}, Rewritten live d own m m' → StackPage m' d base →
        Rewritten live d own m m' ∧ StackPage m' d base ∧ ∀ sp' all,
          (none : Option (Nat × List Nat)) = some (sp', all) →
            Pushed m d base (arg :: rest) sp ustack sp' all m' :=
      fun rewritten page => ⟨rewritten, page, by simp⟩
    have size : (arg ++ [0]).length = arg.length + 1 := by simp
    rw [pushArgs]
    by_cases tooMany : ustack.length ≥ maxArg
    · rw [if_pos tooMany]
      exact failed (Rewritten.refl inv) page
    rw [if_neg tooMany, meets_bind, show (sp + (2 ^ 32 - (arg.length + 1) % 2 ^ 32)) % 2 ^ 32 /
      4 * 4 = pushed sp (arg ++ [0]).length by rw [size, pushed]]
    have spSmall : pushed sp (arg ++ [0]).length < 2 ^ 32 := by
      unfold pushed
      omega
    refine (copyout_meets inv isLive spSmall (arg ++ [0])).mono ?_
    rintro copied m₁ ⟨rewritten, outcome⟩
    have page₁ := page.rewritten outcome.copied.ptes
    cases copied with
    | false =>
      exact failed rewritten page₁
    | true =>
      obtain ⟨higher, lower, reads, kept, inPage⟩ :=
        page.copied inv isLive word atLeast atMost (by simp) outcome
      have aligned : pushed sp (arg ++ [0]).length % 4 = 0 := by
        unfold pushed
        omega
      have notMore : (ustack ++ [pushed sp (arg ++ [0]).length]).length ≤ maxArg := by
        rw [List.length_append, List.length_singleton]
        omega
      have stillBelow := lower.trans' (Nat.le_add_right _ _)
      refine (ih _ _ m₁ rewritten.inv page₁ aligned higher
        (stillBelow.trans atMost) notMore).mono ?_
      rintro result m' ⟨more, page', later⟩
      refine ⟨rewritten.trans more, page', fun sp' all isResult => ?_⟩
      have done := later sp' all isResult
      obtain ⟨addrs, isAll, stacked⟩ := done.stacked
      have small := page.small
      unfold kernBase at small
      have readsLater := reads.congr fun b above below => done.above b above (by omega)
      refine ⟨⟨pushed sp (arg ++ [0]).length :: addrs, ?_, ?_⟩, done.few, done.word,
        done.atLeast, fun b above inSpace => ?_, inPage.trans done.inPage⟩
      · rw [isAll, List.append_assoc, List.singleton_append]
      · rw [Stacked, ← size]
        exact ⟨lower, readsLater, stacked⟩
      · rw [done.above b (stillBelow.trans above) inSpace, kept b above inSpace]

end Push

/-! ## The stack of a new program -/

/-- At `esp` user code reads the fake return address, the number of arguments and a
pointer to the array behind it, which has the addresses of the strings of `argv`
and a null pointer; the strings are above the array, and all of it is in the last
page below `sz`, with an inaccessible page under it. -/
structure Arguments (m : Machine) (d sz esp : Nat) (argv : List (List UInt8)) : Prop where
  layout : ∃ addrs bottom, Stacked m d sz argv addrs bottom ∧ addrs.length = argv.length ∧
    m.Reads d esp (([0xffffffff, argv.length, esp + 12] ++ addrs ++ [0]).flatMap wordBytes) ∧
    esp + 4 * (argv.length + 4) ≤ bottom
  inPage : sz - pgSize ≤ esp
  guarded : m.userPage d (sz / pgSize - 2) = none
  few : argv.length ≤ maxArg

section Stack

variable {live : Nat → Prop} {d : Nat} {m₀ m : Machine} {own₀ own : Place → Option Nat} {sz : Nat}

theorem Stacked.length_eq {bottom : Nat} :
    ∀ {argv : List (List UInt8)} {addrs : List Nat} {top : Nat},
      Stacked m d top argv addrs bottom → addrs.length = argv.length := by
  intro argv
  induction argv with
  | nil =>
    intro addrs top stacked
    cases addrs with
    | nil => rfl
    | cons addr addrs => exact stacked.elim
  | cons arg argv ih =>
    intro addrs top stacked
    cases addrs with
    | nil => exact stacked.elim
    | cons addr addrs => rw [List.length_cons, List.length_cons, ih stacked.2.2]

theorem length_words (words : List Nat) : (words.flatMap wordBytes).length = 4 * words.length := by
  induction words with
  | nil => rfl
  | cons word words ih =>
    rw [List.flatMap_cons, List.length_append, ih, List.length_cons]
    have four : (wordBytes word).length = 4 := rfl
    omega

theorem length_ustackWords (sp : Nat) (args : List Nat) :
    ((ustackWords sp args).flatMap wordBytes).length = 4 * (args.length + 4) := by
  rw [length_words]
  unfold ustackWords
  simp only [List.length_append, List.length_cons, List.length_nil]
  omega

theorem Arguments.congr {m m' : Machine} {d sz esp : Nat} {argv : List (List UInt8)}
    (arguments : Arguments m d sz esp argv) (inSpace : sz ≤ 2 ^ 32)
    (pages : ∀ v < addressPages, m'.userPage d v = m.userPage d v)
    (bytes : ∀ v < addressPages, ∀ page, m.userPage d v = some page →
      m'.bytes page = m.bytes page) : Arguments m' d sz esp argv := by
  have sameByte : ∀ b, b < 2 ^ 32 → m'.userByte d b = m.userByte d b := by
    intro b small
    have below : b / pgSize < addressPages := by
      unfold pgSize addressPages
      omega
    unfold Machine.userByte
    rw [pages _ below]
    cases isPage : m.userPage d (b / pgSize) with
    | none => rfl
    | some page => rw [Option.map_some, Option.map_some, bytes _ below page isPage]
  obtain ⟨addrs, bottom, stacked, isLength, reads, above⟩ := arguments.layout
  have lower := stacked.bottom_le
  refine ⟨⟨addrs, bottom, stacked.congr (fun b _ => sameByte b) inSpace, isLength, ?_, above⟩,
    arguments.inPage, ?_, arguments.few⟩
  · refine reads.congr fun b _ below => sameByte b ?_
    rw [length_words] at below
    simp only [List.length_append, List.length_cons, List.length_nil] at below
    omega
  · rw [pages _ (by unfold pgSize addressPages; omega)]
    exact arguments.guarded

/-- The page under the stack is made inaccessible. -/
theorem Building.guard (building : Building live d m₀ own₀ sz m own) (isLive : live d)
    (aligned : sz % pgSize = 0) (twoPages : 2 * pgSize ≤ sz) :
    Total (clearpteu d (sz - 2 * pgSize)) m fun _ m' => Rewritten live d own m m' ∧
      (∀ v < addressPages, m'.userPage d v =
        if v = sz / pgSize - 2 then none else m.userPage d v) ∧
      ∀ v < addressPages, v ≠ sz / pgSize - 2 → m'.view d v = m.view d v := by
  have guardPage : sz - 2 * pgSize = (sz / pgSize - 2) * pgSize := by
    unfold pgSize at aligned twoPages ⊢
    omega
  have isGuard : sz / pgSize - 2 < pagesOf sz := by
    unfold pgSize at aligned twoPages ⊢
    unfold pagesOf
    omega
  have isUser : sz / pgSize - 2 < userPages :=
    lt_of_lt_of_le isGuard (pagesOf_le_userPages building.small)
  obtain ⟨page, holds⟩ := Option.ne_none_iff_exists'.mp ((building.sized _).mpr isGuard)
  rw [guardPage]
  exact clearpteu_total building.inv isLive isUser holds

/-- The stack is built in the last page of the image. -/
theorem userStack_meets (isLive : live d) (argv : List (List UInt8))
    (building : Building live d m₀ own₀ sz m own) (aligned : sz % pgSize = 0)
    (twoPages : 2 * pgSize ≤ sz) :
    Meets (userStack d sz argv) m
      (fun result m' => Rewritten live d own m m' ∧ ∀ esp, result = some esp →
        Arguments m' d sz esp argv ∧ ∀ v < addressPages,
          v + 2 < sz / pgSize ∨ sz / pgSize ≤ v → m'.view d v = m.view d v)
      fun stop => stop = .fault := by
  have small := building.small
  apply Total.bind
  refine (building.guard isLive aligned twoPages).mono ?_
  rintro _ m₁ ⟨cleared, users, sameViews⟩
  have stackPage : StackPage m₁ d (sz - pgSize) := by
    unfold pgSize at aligned twoPages
    unfold kernBase at small
    refine ⟨by unfold pgSize; omega, by unfold pgSize; omega, by unfold pgSize kernBase; omega, ?_⟩
    rw [users _ (by unfold pgSize addressPages; omega), if_pos]
    unfold pgSize
    omega
  rw [meets_bind]
  refine (pushArgs_meets isLive argv sz [] m₁ cleared.inv stackPage
    (by unfold pgSize at aligned; omega)
    (Nat.sub_le _ _) (by omega) (Nat.zero_le _)).mono ?_
  rintro result m₂ ⟨pushes, stackPage₂, isPushed⟩
  cases result with
  | none => exact ⟨cleared.trans pushes, by simp⟩
  | some pair =>
    obtain ⟨sp, args⟩ := pair
    have done := isPushed sp args rfl
    obtain ⟨addrs, isArgs, stacked⟩ := done.stacked
    subst isArgs
    have count := stacked.length_eq
    have top := stacked.bottom_le
    have few := done.few
    have word := done.word
    have atLeast := done.atLeast
    have words := length_ustackWords sp args
    have isPushed : (sp + (2 ^ 32 - (3 + args.length + 1) * 4)) % 2 ^ 32 =
        pushed sp ((ustackWords sp args).flatMap wordBytes).length := by
      unfold pushed
      unfold maxArg at few
      omega
    simp only [isPushed]
    have espSmall : pushed sp ((ustackWords sp args).flatMap wordBytes).length < 2 ^ 32 := by
      rw [← isPushed]
      exact Nat.mod_lt _ (by decide)
    rw [meets_bind]
    refine (copyout_meets pushes.inv isLive espSmall _).mono ?_
    rintro copied m₃ ⟨copies, outcome⟩
    have rewritten := (cleared.trans pushes).trans copies
    cases copied with
    | false =>
      exact ⟨rewritten, by simp⟩
    | true =>
      obtain ⟨higher, lower, reads, kept, inPage⟩ :=
        stackPage₂.copied pushes.inv isLive word atLeast
        (by omega) (by omega) outcome
      have guarded := (stackPage₂.rewritten outcome.copied.ptes).guarded
      refine ⟨rewritten, fun esp isEsp => ?_⟩
      obtain rfl := Option.some.inj isEsp
      have pointer : (sp + (2 ^ 32 - (args.length + 1) * 4)) % 2 ^ 32 =
          pushed sp ((ustackWords sp args).flatMap wordBytes).length + 12 := by
        have spSmall : sp < 2 ^ 32 := by
          unfold kernBase at small
          omega
        omega
      refine ⟨⟨⟨args, sp, stacked.congr kept (by unfold kernBase at small; omega), count, ?_, ?_⟩,
        higher, ?_, by omega⟩, fun v below notStack => ?_⟩
      · rw [← pointer, ← count]
        exact reads
      · rw [← count, ← words]
        exact lower
      · have index : (sz - pgSize) / pgSize - 1 = sz / pgSize - 2 := by
          unfold pgSize
          omega
        rwa [index] at guarded
      · have notGuard : v ≠ sz / pgSize - 2 := by
          unfold pgSize at twoPages notStack ⊢
          omega
        rw [(done.inPage.trans inPage).page below, sameViews v below notGuard]
        rintro o inPage ⟨low, high⟩
        unfold pgSize at aligned twoPages notStack inPage low high
        omega

/-- The size behind the loop is a whole number of pages with two more. -/
theorem pgRoundUp_building (building : Building live d m₀ own₀ sz m own) :
    Building live d m₀ own₀ (pgRoundUp sz) m own := by
  have small := building.small
  refine ⟨building.inv, building.elsewhere, building.hand, ?_, ?_⟩
  · rw [pgRoundUp_eq small]
    unfold kernBase at small ⊢
    unfold pagesOf pgSize
    omega
  · intro v
    rw [building.sized, pgRoundUp_eq small]
    unfold pagesOf pgSize
    omega

/-- The image with its stack has exactly the pages below the size that is
returned. -/
theorem stackImage_meets (isLive : live d) (argv : List (List UInt8))
    (building : Building live d m₀ own₀ sz m own) :
    Meets (stackImage d sz argv) m
      (fun result m' => ∃ own' reached, Building live d m₀ own₀ reached m' own' ∧
        ∀ size esp, result = some (size, esp) →
          size = reached ∧ size = pgRoundUp sz + 2 * pgSize ∧ Arguments m' d size esp argv ∧
          ∀ v < addressPages, v < pagesOf sz ∨ pagesOf size ≤ v → m'.view d v = m.view d v)
      fun stop => stop = .fault := by
  have rounded := pgRoundUp_building building
  unfold stackImage
  generalize newsize : (pgRoundUp sz + 2 * pgSize) % 2 ^ 32 = newsz
  apply Total.bind
  refine (rounded.alloc isLive newsz).mono ?_
  rintro result m₂ ⟨own₂, _, ⟨rfl, building₂, _⟩ | ⟨_, reaches, building₂, _, enlarged, _⟩⟩
  · exact ⟨own₂, _, building₂, by simp⟩
  · have small := rounded.small
    have grows : newsz = pgRoundUp sz + 2 * pgSize := by
      unfold kernBase at small
      unfold pgSize at newsize ⊢
      omega
    have isResult : result = pgRoundUp sz + 2 * pgSize := by
      rw [← grows]
      exact reaches (by omega)
    have aligned : result % pgSize = 0 := by
      rw [isResult, pgRoundUp_eq building.small]
      unfold pgSize
      omega
    have twoPages : 2 * pgSize ≤ result := by omega
    rw [if_neg (by unfold pgSize at twoPages; omega), meets_bind]
    refine (userStack_meets isLive argv building₂ aligned twoPages).mono ?_
    rintro esp m₃ ⟨rewritten, arguments⟩
    refine ⟨own₂, result, building₂.rewritten rewritten, fun size found isFound => ?_⟩
    obtain ⟨_, isEsp, same⟩ := Option.map_eq_some_iff.mp isFound
    obtain ⟨rfl, rfl⟩ := Prod.mk.inj same
    obtain ⟨stack, views⟩ := arguments _ isEsp
    refine ⟨rfl, isResult, stack, fun v below outside => ?_⟩
    rw [pgRoundUp_eq building.small] at isResult enlarged
    unfold pgSize at isResult
    unfold pagesOf at isResult outside
    rw [views v below (by unfold pgSize; omega), enlarged v below,
      if_neg (by unfold pagesOf pgSize; omega)]

/-- The image that `exec` builds has exactly the pages below the size that is
returned. -/
theorem buildImage_meets (isLive : live d) (ip : File) (elf : List UInt8)
    (argv : List (List UInt8)) (building : Building live d m₀ own₀ 0 m own) :
    Meets (buildImage d ip elf argv) m
      (fun result m' => ∃ own' reached, Building live d m₀ own₀ reached m' own' ∧
        ∀ size, result = some size → size = reached)
      fun stop => stop = .fault := by
  apply Total.bind
  refine (loadProgram_total isLive ip _ _ 0 m own _ building (Image.empty d m)).mono ?_
  rintro result m₁ ⟨own₁, sz, _, _, building₁, _, _, isSize⟩
  cases result with
  | none => exact ⟨own₁, sz, building₁, by simp⟩
  | some size =>
    obtain ⟨rfl, _⟩ := isSize size rfl
    rw [meets_bind]
    refine (stackImage_meets isLive argv building₁).mono ?_
    rintro result m₂ ⟨own₂, reached, building₂, isReached⟩
    refine ⟨own₂, reached, building₂, fun size isSize => ?_⟩
    obtain ⟨⟨found, esp⟩, isFound, rfl⟩ := Option.map_eq_some_iff.mp isSize
    exact (isReached _ _ isFound).1

end Stack

/-! ## Arguments that fit -/

section Fits

variable {live : Nat → Prop} {d base : Nat} {m₀ m : Machine} {own₀ own : Place → Option Nat}
  {sz : Nat}

theorem copyout_fits (inv : Inv live m own) (isLive : live d) (aligned : base % pgSize = 0)
    (small : base + pgSize ≤ 2 ^ 32) (user : m.userPage d (base / pgSize) ≠ none) {va : Nat}
    {data : List UInt8} (low : base ≤ va) (high : va + data.length ≤ base + pgSize)
    (positive : 0 < data.length) :
    Total (copyout d va data) m fun ok m' =>
      ok = true ∧ Inv live m' own ∧ m'.userPage d (base / pgSize) ≠ none := by
  have onPage : ∀ i < data.length, pageAt va i = base / pgSize := by
    intro i below
    unfold pgSize at aligned small high
    unfold pageAt pgSize
    omega
  have all : ∀ i < data.length, m.userPage d (pageAt va i) ≠ none := by
    intro i below
    rw [onPage i below]
    exact user
  have reaches : Reaches m d va data.length := by
    intro i below _ missing
    apply all i below
    unfold Machine.userPage Machine.present
    rw [missing]
    rfl
  have inSpace : base / pgSize < addressPages := by
    unfold pgSize addressPages
    omega
  apply (copyoutLoop_meets data.length va data m (inv.space isLive) (by omega) le_rfl).imp
  · intro ok m' outcome
    refine ⟨outcome.success.mpr all, (outcome.copied.rewritten inv isLive).inv, ?_⟩
    rw [userPage_congr (outcome.copied.ptes _ inSpace)]
    exact user
  · intro stop fault
    exact fault.2 reaches

theorem userPage_newPage {v : Nat} (isUser : v < userPages) (isNew : m.view d v = some newPage) :
    m.userPage d v ≠ none := by
  obtain ⟨pte, isPresent, isPage⟩ := Option.map_eq_some_iff.mp isNew
  rw [if_pos isUser] at isPage
  have flags : pteFlags pte = pteW ||| pteU ||| pteP := congrArg Prod.snd isPage
  have user : has pte pteU = true := by
    have bit : (pteFlags pte).testBit 2 = true := by
      rw [flags]
      decide
    unfold pteFlags at bit
    rw [show pgSize = 2 ^ 12 from rfl, Nat.testBit_mod_two_pow] at bit
    rw [has_pteU]
    simpa using bit
  unfold Machine.userPage
  rw [isPresent, Option.filter_some, if_pos user]
  simp

theorem pushArgs_fits (isLive : live d) (aligned : base % pgSize = 0)
    (small : base + pgSize ≤ 2 ^ 32) :
    ∀ (argv : List (List UInt8)) (sp : Nat) (ustack : List Nat) (m : Machine), Inv live m own →
      m.userPage d (base / pgSize) ≠ none → sp ≤ base + pgSize →
      base + (argv.map fun arg => arg.length + 4).sum ≤ sp →
      ustack.length + argv.length ≤ maxArg →
      Total (pushArgs d argv sp ustack) m fun result m' => ∃ sp' all, result = some (sp', all) ∧
        sp ≤ sp' + (argv.map fun arg => arg.length + 4).sum ∧ sp' ≤ sp ∧
        all.length = ustack.length + argv.length ∧
        Inv live m' own ∧ m'.userPage d (base / pgSize) ≠ none := by
  intro argv
  induction argv with
  | nil =>
    intro sp ustack m inv user _ _ _
    exact ⟨sp, ustack, rfl, Nat.le_add_right _ _, le_rfl, rfl, inv, user⟩
  | cons arg rest ih =>
    intro sp ustack m inv user atMost room few
    rw [List.map_cons, List.sum_cons] at room
    rw [List.length_cons] at few
    have size : (arg ++ [0]).length = arg.length + 1 := by simp
    rw [pushArgs, if_neg (by omega)]
    generalize isSp : (sp + (2 ^ 32 - (arg.length + 1) % 2 ^ 32)) % 2 ^ 32 / 4 * 4 = lower
    have below : lower + (arg.length + 1) ≤ sp ∧ sp ≤ lower + (arg.length + 4) := by
      unfold pgSize at small atMost
      omega
    apply Total.bind
    refine (copyout_fits inv isLive aligned small user (by omega) (by omega) (by omega)).mono ?_
    rintro _ m₁ ⟨rfl, inv₁, user₁⟩
    rw [if_pos rfl]
    refine (ih lower (ustack ++ [lower]) m₁ inv₁ user₁ (by omega) (by omega)
      (by rw [List.length_append, List.length_singleton]; omega)).mono ?_
    rintro _ m' ⟨sp', all, rfl, above, under, count, after⟩
    refine ⟨sp', all, rfl, ?_, by omega, ?_, after⟩
    · rw [List.map_cons, List.sum_cons]
      omega
    · rw [count, List.length_append, List.length_singleton, List.length_cons]
      omega

theorem userStack_fits (isLive : live d) {argv : List (List UInt8)}
    (building : Building live d m₀ own₀ sz m own) (aligned : sz % pgSize = 0)
    (twoPages : 2 * pgSize ≤ sz) (user : m.userPage d ((sz - pgSize) / pgSize) ≠ none)
    (fits : (argv.map fun arg => arg.length + 4).sum + 4 * (argv.length + 4) ≤ pgSize)
    (few : argv.length ≤ maxArg) :
    Total (userStack d sz argv) m fun result _ => result ≠ none := by
  have small := building.small
  have isBase : (sz - pgSize) % pgSize = 0 := by
    unfold pgSize at aligned ⊢
    omega
  have inSpace : sz - pgSize + pgSize ≤ 2 ^ 32 := by
    unfold kernBase at small
    omega
  apply Total.bind
  refine (building.guard isLive aligned twoPages).mono ?_
  rintro _ m₁ ⟨cleared, users, _⟩
  have user₁ : m₁.userPage d ((sz - pgSize) / pgSize) ≠ none := by
    unfold pgSize at twoPages
    rw [users _ (by unfold pgSize addressPages; omega), if_neg (by unfold pgSize; omega)]
    exact user
  apply Total.bind
  refine (pushArgs_fits isLive isBase inSpace argv sz [] m₁ cleared.inv user₁ (by omega) (by omega)
    (by simpa using few)).mono ?_
  rintro _ m₂ ⟨sp, args, rfl, low, high, count, inv₂, user₂⟩
  rw [List.length_nil, Nat.zero_add] at count
  have words := length_ustackWords sp args
  simp only
  generalize isEsp : (sp + (2 ^ 32 - (3 + args.length + 1) * 4)) % 2 ^ 32 = esp
  apply Total.bind
  refine (copyout_fits inv₂ isLive isBase inSpace user₂ (by omega) (by omega) (by omega)).mono ?_
  rintro _ m₃ ⟨rfl, _⟩
  exact Option.some_ne_none esp

/-- With four free pages, arguments that fit into a page are accepted. -/
theorem stackImage_fits (isLive : live d) {argv : List (List UInt8)}
    (building : Building live d m₀ own₀ sz m own) (plenty : Plenty 4 m)
    (room : sz + 4 * pgSize ≤ kernBase)
    (fits : (argv.map fun arg => arg.length + 4).sum + 4 * (argv.length + 4) ≤ pgSize)
    (few : argv.length ≤ maxArg) :
    Total (stackImage d sz argv) m fun result _ => result ≠ none := by
  have rounded := pgRoundUp_building building
  have atMost : pgRoundUp sz ≤ sz + pgSize := by
    rw [pgRoundUp_eq building.small]
    unfold pagesOf pgSize
    omega
  have isAligned : pgRoundUp sz % pgSize = 0 := by
    exact Nat.mul_mod_left _ _
  unfold stackImage
  generalize pgRoundUp sz = top at rounded atMost isAligned
  have noWrap : (top + 2 * pgSize) % 2 ^ 32 = top + 2 * pgSize := by
    unfold kernBase pgSize at room
    unfold pgSize at atMost ⊢
    omega
  rw [noWrap]
  generalize isNew : top + 2 * pgSize = newsz
  apply Total.bind
  refine ((rounded.alloc isLive newsz).and ((allocuvm_total rounded.inv isLive
    rounded.hand rounded.small rounded.above).imp (fun _ _ made => made)
      fun _ _ => trivial)).mono ?_
  rintro result m₂ ⟨⟨own₂, _, outcome⟩, _, allocated⟩
  obtain rfl : result = newsz := by
    refine (allocated.enough (by omega) ?_ 0 ?_).1
    · omega
    · apply plenty.mono
      unfold pgSize at isAligned isNew
      unfold pagesOf
      omega
  rcases outcome with ⟨zero, _⟩ | ⟨_, _, building₂, _, enlarged, _⟩
  · omega
  have aligned : result % pgSize = 0 := by
    unfold pgSize at isNew isAligned ⊢
    omega
  have isTop : pagesOf top ≤ (result - pgSize) / pgSize ∧
      (result - pgSize) / pgSize < pagesOf result := by
    unfold pgSize at isNew isAligned ⊢
    unfold pagesOf
    omega
  have isUser := lt_of_lt_of_le isTop.2 (pagesOf_le_userPages building₂.small)
  have user : m₂.userPage d ((result - pgSize) / pgSize) ≠ none := by
    have isNewPage := enlarged _ (user_inSpace isUser)
    rw [if_pos isTop] at isNewPage
    exact userPage_newPage isUser isNewPage
  rw [if_neg (by unfold pgSize at isNew; omega)]
  apply Total.bind
  refine (userStack_fits isLive building₂ aligned (by omega) user fits few).mono ?_
  intro esp _ isSome
  simpa using isSome

end Fits

end Rexv6.Vm
