import Rexv6.Vm.UserMemory

/-!
Contract: creating whole address spaces.

Owns: the effect of `setupkvm` on the owners of pages, when it returns a directory
and when it runs out of memory at any of its many allocations, and what giving up
a directory leaves behind.

Does not own: who keeps the directory that is returned.
-/

namespace Rexv6.Vm

open Rexv6.Foundation
open Rexv6.Foundation.Program
open Rexv6.Foundation.Ledger (Balanced bump)
open Function (update update_of_ne update_self)

/-! ## Failure and success of an allocation of directories -/

/-- Nothing is owned that was not owned before, and no page that was owned has
been taken, given back or written to. -/
structure Failed (live : Nat → Prop) (m : Machine) (own : Place → Option Nat) (m' : Machine) :
    Prop where
  inv : Inv live m' own
  kept : ∀ {place page}, own place = some page →
    m'.allocs page = m.allocs page ∧ m'.bytes page = m.bytes page

/-- Directory `d` is new. -/
structure Created (live : Nat → Prop) (m : Machine) (own : Place → Option Nat) (d : Nat)
    (m' : Machine) (own' : Place → Option Nat) : Prop where
  notZero : d ≠ 0
  notLive : ¬ live d
  inv : Inv (fun e => e = d ∨ live e) m' own'
  elsewhere : Elsewhere d m own m' own'
  hand : own' .hand = none
  frees : m'.frees = m.frees

theorem Failed.balance {live : Nat → Prop} {m m' : Machine} {own : Place → Option Nat}
    (failed : Failed live m own m') (inv : Inv live m own) (page : Nat) :
    m'.allocs page + m.frees page = m.allocs page + m'.frees page := by
  by_cases held : ∃ place, own place = some page
  · obtain ⟨place, holds⟩ := held
    have one := inv.balanced.held holds
    have two := failed.inv.balanced.held holds
    omega
  · have one := inv.balanced.idle fun place holds => held ⟨place, holds⟩
    have two := failed.inv.balanced.idle fun place holds => held ⟨place, holds⟩
    omega

section Abandon

variable {live : Nat → Prop} {m m₁ : Machine} {own own₁ : Place → Option Nat} {d : Nat}

/-- What was done to directory `d` before it was freed does not matter. -/
theorem Failed.of_elsewhere {left : Nat → Prop} {m' : Machine}
    (failed : Failed left m₁ (strip d own₁) m') (elsewhere : Elsewhere d m own m₁ own₁)
    (hand : own₁ .hand = none) (free : own .hand = none) : Failed left m (strip d own) m' := by
  have same : strip d own₁ = strip d own := by
    refine strip_congr fun place notOf => ?_
    by_cases isHand : place = .hand
    · rw [isHand, hand, free]
    · exact elsewhere.places notOf isHand
  rw [same] at failed
  refine ⟨failed.inv, ?_⟩
  intro place page stripped
  obtain ⟨notOf, holds⟩ := strip_eq_some.mp stripped
  rw [(failed.kept stripped).1, (failed.kept stripped).2]
  apply elsewhere.kept notOf _ holds
  rintro rfl
  rw [free] at holds
  cases holds

/-- Freeing a directory undoes what was done to it. -/
theorem freevm_abandon (inv : Inv live m₁ own₁) (isLive : live d)
    (elsewhere : Elsewhere d m own m₁ own₁) (hand : own₁ .hand = none) (free : own .hand = none) :
    Total (freevm d) m₁ fun _ m' => Failed (fun e => live e ∧ e ≠ d) m (strip d own) m' := by
  refine (freevm_total inv isLive).mono ?_
  rintro _ m' ⟨inv', allocs, bytes⟩
  have failed : Failed (fun e => live e ∧ e ≠ d) m₁ (strip d own₁) m' :=
    ⟨inv', fun holds => ⟨by rw [allocs], bytes holds⟩⟩
  exact failed.of_elsewhere elsewhere hand free

/-- Giving up a directory that was not live before leaves the owners of before. -/
theorem Failed.forget {m' : Machine} (notLive : ¬ live d) (inv : Inv live m own)
    (failed : Failed (fun e => (e = d ∨ live e) ∧ e ≠ d) m (strip d own₁) m')
    (others : ∀ place, ¬ place.Of d → own₁ place = own place) : Failed live m own m' := by
  have same : strip d own₁ = own := by
    funext place
    by_cases ofD : place.Of d
    · rw [strip_of ofD, inv.shape.dead notLive ofD]
    · rw [strip_not ofD, others place ofD]
  have sameLive : (fun e => (e = d ∨ live e) ∧ e ≠ d) = live := by
    funext e
    apply propext
    constructor
    · rintro ⟨isD | isLive, notD⟩
      · exact absurd isD notD
      · exact isLive
    · intro isLive
      refine ⟨Or.inr isLive, ?_⟩
      rintro rfl
      exact notLive isLive
  rw [same, sameLive] at failed
  exact failed

end Abandon

/-! ## The kernel part -/

/-- The size that `setupkvm` passes for a row of `kmap`. -/
def Kmap.size (k : Kmap) : Nat := (k.physEnd + (2 ^ 32 - k.physStart)) % 2 ^ 32

/-- Rows of `kmap` in ascending order from virtual page `low` on, each with a
range of physical memory behind it and barred from user code, for which
`tables` page tables are enough. -/
inductive Ascending : (low tables : Nat) → List Kmap → Prop
  | nil (low : Nat) : Ascending low 0 []
  | cons {low tables : Nat} {k : Kmap} {rest : List Kmap} (first count page : Nat)
      (virt : k.virt = first * pgSize) (size : k.size = count * pgSize)
      (phys : k.physStart = page * pgSize) (above : low ≤ first) (positive : 0 < count)
      (inSpace : first + count ≤ addressPages) (inMemory : page + count ≤ 2 ^ 20)
      (permSmall : k.perm < pgSize) (noUser : has k.perm pteU = false)
      (ascending : Ascending (first + count) tables rest) :
      Ascending low (tables + ((first + count - 1) / 1024 - first / 1024 + 1)) (k :: rest)

/-- The rows of `kmap` ascend, whatever the size of the kernel. -/
theorem kmap_ascending (kernel : KernelImage) :
    ∃ tables, tables ≤ 200 ∧ Ascending userPages tables (kmap kernel) := by
  obtain ⟨data, aligned, behindText, belowTop⟩ := kernel
  obtain ⟨page, rfl⟩ : ∃ page, data = page * pgSize :=
    ⟨data / pgSize, (Nat.div_mul_cancel (Nat.dvd_of_mod_eq_zero aligned)).symm⟩
  unfold kernLink kernBase extMem pgSize at behindText
  unfold p2v physTop kernBase pgSize at belowTop
  refine ⟨_, ?_, .cons 0x80000 0x100 0 rfl rfl rfl le_rfl (by decide) (by decide) (by decide)
    (by decide) rfl (.cons 0x80100 (page - 0x80100) 0x100 rfl ?_ rfl (by decide) (by omega) ?_
      (by omega) (show 0 < pgSize by decide) (show has 0 pteU = false from rfl)
      (.cons page (0x8E000 - page) (page - 0x80000) rfl
        ?_ ?_ (by omega) (by omega) ?_ (by omega) (show pteW < pgSize by decide)
        (show has pteW pteU = false from rfl) (.cons 0xFE000 0x2000 0xFE000 rfl rfl rfl
          (by omega) (by decide) (by decide) (by decide) (by decide) rfl (.nil _))))⟩
  · omega
  · simp only [Kmap.size, v2p, kernLink, kernBase, extMem, pgSize]
    omega
  · unfold addressPages
    omega
  · simp only [Kmap.size, v2p, kernBase, physTop, pgSize]
    omega
  · simp only [v2p, kernBase, pgSize]
    omega
  · unfold addressPages
    omega

section Setup

variable {live : Nat → Prop} {m : Machine} {own : Place → Option Nat} {d : Nat}

/-- Mapping a row of `kmap` ends at its last page. -/
theorem last_page {first count : Nat} (positive : 0 < count)
    (inSpace : first + count ≤ addressPages) :
    pgRoundDown ((first * pgSize + count * pgSize + (2 ^ 32 - 1)) % 2 ^ 32) =
      (first + count - 1) * pgSize := by
  unfold addressPages at inSpace
  unfold pgRoundDown pgSize
  omega

/-- Mapping the rows of `kmap` adds page tables only; when one is missing, the
directory is freed. -/
theorem setupKmap_total (isLive : live d) :
    ∀ (rows : List Kmap) (low tables : Nat) (m : Machine) (own : Place → Option Nat),
      Inv live m own → own .hand = none → userPages ≤ low → Ascending low tables rows →
      (∀ v, low ≤ v → v < addressPages → m.mapped d v = none) →
      Total (setupKmap d rows) m fun result m' =>
        ((result = d ∧ ∃ own', Extended live d m own m' own') ∨
          (result = 0 ∧ Failed (fun e => live e ∧ e ≠ d) m (strip d own) m')) ∧
        ∀ n, Plenty (n + tables) m → result = d ∧ Plenty n m' := by
  intro rows
  induction rows with
  | nil =>
    intro low tables m own inv _ _ ascending _
    cases ascending
    refine ⟨Or.inl ⟨rfl, own, Extended.refl inv⟩, ?_⟩
    intro n plenty
    exact ⟨rfl, plenty⟩
  | cons k rest ih =>
    intro low tables m own inv free isKernel ascending above
    cases ascending with
    | cons first count page virt size phys lowFirst positive inSpace inMemory permSmall noUser
        restAscending =>
        have firstAligned : pgRoundDown (first * pgSize) = first * pgSize := by
          unfold pgRoundDown
          rw [Nat.mul_div_cancel _ (by decide)]
        have lastInSpace : first + count - 1 < addressPages := by omega
        have enough : first + count - 1 - first < addressPages := by omega
        rw [setupKmap]
        unfold Total mappages
        rw [meets_bind, ← Kmap.size, virt, size, phys, last_page positive inSpace, firstAligned]
        refine (mapLoop_kernel_total isLive lastInSpace permSmall noUser addressPages first page m
          own inv (by omega) (by omega) enough (by omega) fun v isLow isHigh =>
            above v (by omega) isHigh).mono ?_
        rintro result m₁ ⟨own₁, extended, done, enoughPages⟩
        have free₁ : own₁ .hand = none := by rw [extended.hand, free]
        cases result with
        | false =>
          simp only [Bool.false_eq_true, if_false]
          rw [meets_bind]
          refine (freevm_abandon extended.inv isLive extended.elsewhere free₁ free).mono ?_
          intro _ m' failed
          refine ⟨Or.inr ⟨rfl, failed⟩, ?_⟩
          intro n plenty
          refine absurd (enoughPages n (plenty.mono ?_)).1 (by simp)
          split <;> omega
        | true =>
          refine (ih (first + count) _ m₁ own₁ extended.inv free₁ (by omega)
            restAscending fun v isLow isHigh => done rfl v (by omega) isHigh).mono ?_
          rintro result m' ⟨outcome, enoughRest⟩
          refine ⟨?_, ?_⟩
          · rcases outcome with ⟨isDir, own', more⟩ | ⟨zero, failed⟩
            · exact Or.inl ⟨isDir, own', extended.trans more⟩
            · exact Or.inr ⟨zero, failed.of_elsewhere extended.elsewhere free₁ free⟩
          · intro n plenty
            apply enoughRest n
            apply (enoughPages _ _).2
            apply plenty.mono
            split <;> omega

/-- A cleared page from the allocator is an empty directory. -/
theorem Inv.addDir (inv : Inv live m own) (available : m.Available d) (rest : List Nat) :
    ¬ live d ∧ Inv (fun e => e = d ∨ live e) ((m.taken d rest).fill d fun _ => 0)
      (update own (.dir d) (some d)) ∧
    ∀ v, ((m.taken d rest).fill d fun _ => 0).mapped d v = none := by
  have unheld := inv.balanced.unheld available.2.2
  have notLive : ¬ live d := fun isLive => unheld _ (inv.shape.dir isLive)
  have noPte : ∀ v, ((m.taken d rest).fill d fun _ => 0).pte d v = none := by
    intro v
    apply Machine.pte_eq_none _ rfl
    rw [Machine.word_cleared, frame_zero]
  have others : Shape live ((m.taken d rest).fill d fun _ => 0) own :=
    (inv.shape.fill (fun e => unheld _) (fun e k => unheld _)).of_bytes rfl
  have noTable : ∀ k, own (.table d k) = none := fun k => inv.shape.dead notLive rfl
  have noUser : ∀ v, own (.user d v) = none := fun v => inv.shape.dead notLive rfl
  refine ⟨notLive, ⟨?_, ?_⟩, ?_⟩
  · constructor
    · rintro e (rfl | isLive)
      · rw [update_self]
      · rw [update_of_ne _, others.dir isLive]
        simp only [ne_eq, Place.dir.injEq]
        rintro rfl
        exact notLive isLive
    · rintro e k (rfl | isLive) below
      · rw [update_of_ne (by simp), noTable, Machine.word_cleared, frame_zero]
      · rw [update_of_ne (by simp), others.table isLive below]
    · rintro e v (rfl | isLive) below
      · rw [update_of_ne (by simp), noUser]
        unfold Machine.mapped
        rw [noPte]
        rfl
      · rw [update_of_ne (by simp), others.user isLive below]
    · rintro e v pte (rfl | isLive) low high stored
      · rw [noPte] at stored
        exact absurd stored (by simp)
      · exact others.kernel isLive low high stored
    · intro e place dead ofE
      rw [update_of_ne _, inv.shape.dead (fun isLive => dead (Or.inr isLive)) ofE]
      rintro rfl
      exact dead (Or.inl (show d = e from ofE).symm)
    · intro e k large
      rw [update_of_ne (by simp), others.tableRange large]
    · intro e v large
      rw [update_of_ne (by simp), others.userRange large]
    · intro place page holds
      by_cases isDir : place = .dir d
      · rw [isDir, update_self] at holds
        rw [← Option.some.inj holds]
        exact ⟨available.1, available.2.1⟩
      · rw [update_of_ne isDir] at holds
        exact others.inPool holds
  · exact inv.balanced.acquire (inv.shape.dead notLive rfl) available.2.2
  · intro v
    unfold Machine.mapped
    rw [noPte]
    rfl

/-- `setupkvm` fails, or creates a directory without user pages. -/
theorem setupkvm_total (kernel : KernelImage) (inv : Inv live m own) (free : own .hand = none) :
    Total (setupkvm kernel) m fun result m' =>
      ((result = 0 ∧ Failed live m own m') ∨
        ∃ own', Created live m own result m' own' ∧ ∀ v, own' (.user result v) = none) ∧
      ∀ n, Plenty (n + 201) m → result ≠ 0 ∧ Plenty n m' := by
  obtain ⟨tables, few, ascending⟩ := kmap_ascending kernel
  unfold setupkvm Total
  rw [meets_bind]
  apply kalloc_total
  · intro rest refused
    refine ⟨Or.inl ⟨rfl, inv.refused rest, fun _ => ⟨rfl, rfl⟩⟩, ?_⟩
    intro n plenty
    exact absurd plenty (refused (n + 200))
  · intro d rest answers available
    obtain ⟨notLive, dirInv, empty⟩ := inv.addDir available rest
    have notZero : ¬ d = 0 := Nat.pos_iff_ne_zero.mp available.1
    have dirElsewhere : Elsewhere d m own ((m.taken d rest).fill d fun _ => 0)
        (update own (.dir d) (some d)) :=
      Elsewhere.take inv (Or.inl (show (Place.dir d).Of d from rfl)) available rest _
    have dirFree : update own (.dir d) (some d) .hand = none := by
      rw [update_of_ne (by simp), free]
    rw [if_neg notZero, meets_bind]
    refine (setupKmap_total (Or.inl rfl) (kmap kernel) userPages tables _ _ dirInv dirFree le_rfl
      ascending fun v _ _ => empty v).mono ?_
    rintro result m' ⟨outcome, enough⟩
    refine ⟨?_, ?_⟩
    · rcases outcome with ⟨rfl, own', extended⟩ | ⟨zero, failed⟩
      · refine Or.inr ⟨own', ⟨notZero, notLive, extended.inv,
          dirElsewhere.trans extended.elsewhere, ?_, extended.frees⟩, ?_⟩
        · rw [extended.hand, dirFree]
        · intro v
          rw [extended.users, update_of_ne (by simp)]
          exact inv.shape.dead notLive rfl
      · refine Or.inl ⟨zero, (failed.of_elsewhere dirElsewhere dirFree free).forget notLive inv
          fun _ _ => rfl⟩
    · intro n plenty
      have left : Plenty (n + tables) ((m.taken d rest).fill d fun _ => 0) :=
        Plenty.mono (plenty.taken answers).2 (by omega)
      obtain ⟨isDir, more⟩ := enough n left
      exact ⟨isDir ▸ notZero, more⟩

/-- `setupkvm` succeeds on a machine that has handed out no page and has enough
of them. -/
theorem setupkvm_returns (kernel : KernelImage) {n : Nat}
    (returned : ∀ page, m.allocs page = m.frees page) (plenty : Plenty (n + 201) m) :
    ∃ d m' own, (setupkvm kernel).run m = .ok (d, m') ∧
      Created (fun _ => False) m (fun _ => none) d m' own ∧ (∀ v, own (.user d v) = none) ∧
      Plenty n m' := by
  obtain ⟨d, m', ran, made, enough⟩ := (setupkvm_total kernel (Inv.empty m returned) rfl).returns
  obtain ⟨notZero, left⟩ := enough n plenty
  rcases made with ⟨zero, _⟩ | ⟨own, created, noUser⟩
  · exact absurd zero notZero
  · exact ⟨d, m', own, ran, created, noUser, left⟩

end Setup

/-! ## A machine with memory -/

def smallKernel : KernelImage := ⟨0x80200000, by decide, by decide, by decide⟩

/-- A machine whose allocator returns the pages from 1 on. -/
theorem plenty_range {count : Nat} (small : count < physTop / pgSize) :
    Plenty count ⟨fun _ _ => 0, List.range' 1 count, fun _ => 0, fun _ => 0⟩ := by
  refine ⟨List.range' 1 count, [], by simp, by simp, List.nodup_range', ?_⟩
  intro page isPage
  rw [List.mem_range'_1] at isPage
  exact ⟨by omega, by omega, rfl⟩

/-- A machine whose allocator returns the pages 1 to 600. -/
def roomyMachine : Machine := ⟨fun _ _ => 0, List.range' 1 600, fun _ => 0, fun _ => 0⟩

theorem roomyMachine_plenty : Plenty (396 + 204) roomyMachine :=
  plenty_range (by decide)

end Rexv6.Vm
