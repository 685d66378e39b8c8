import Rexv6.Vm.Translation

/-!
Contract: copying address spaces.

Owns: what `copyuvm` copies, its effect on the owners of pages, when it returns a
directory and when it runs out of memory at any of its allocations, and the only
reason for which it panics.

Does not own: who keeps the directory that is returned.
-/

namespace Rexv6.Vm

open Rexv6.Foundation
open Rexv6.Foundation.Program
open Function (update update_of_ne update_self)

/-- A panic of `copyuvm`, with a page below the size that is not mapped. -/
def NotMapped (m : Machine) (pgdir sz : Nat) (stop : Stop) : Prop :=
  (stop = .panic "copyuvm: pte should exist" ∨ stop = .panic "copyuvm: page not present") ∧
    ∃ v < pagesOf sz, m.mapped pgdir v = none

/-- The pages of `pgdir` are held at places that an operation on directory `d` does
not touch. -/
def Apart (own : Place → Option Nat) (d : Nat) (m : Machine) (pgdir : Nat) : Prop :=
  ∀ page, m.Uses pgdir page → ∃ place, ¬ place.Of d ∧ place ≠ .hand ∧ own place = some page

section Copy

variable {live : Nat → Prop} {m m' : Machine} {own own' : Place → Option Nat} {d pgdir sz : Nat}

theorem Apart.bytes (apart : Apart own d m pgdir) (elsewhere : Elsewhere d m own m' own')
    (page : Nat) (uses : m.Uses pgdir page) : m'.bytes page = m.bytes page := by
  obtain ⟨place, notOf, notHand, holds⟩ := apart page uses
  exact (elsewhere.kept notOf notHand holds).2

theorem Apart.pte (apart : Apart own d m pgdir) (elsewhere : Elsewhere d m own m' own') {v : Nat}
    (inSpace : v < addressPages) : m'.pte pgdir v = m.pte pgdir v :=
  (view_of_uses (apart.bytes elsewhere) inSpace).1

theorem Apart.mapped (apart : Apart own d m pgdir) (elsewhere : Elsewhere d m own m' own') {v : Nat}
    (inSpace : v < addressPages) : m'.mapped pgdir v = m.mapped pgdir v := by
  unfold Machine.mapped
  rw [apart.pte elsewhere inSpace]

theorem Apart.elsewhere (apart : Apart own d m pgdir) (elsewhere : Elsewhere d m own m' own') :
    Apart own' d m' pgdir := by
  have same : ∀ page, m'.Uses pgdir page → m.Uses pgdir page := by
    intro page uses
    rcases uses with (isDir | ⟨k, inDir, framed⟩) | ⟨v, isUser, isMapped⟩
    · exact Or.inl (Or.inl isDir)
    · unfold Machine.word at framed
      rw [apart.bytes elsewhere pgdir (Or.inl (Or.inl rfl))] at framed
      exact Or.inl (Or.inr ⟨k, inDir, framed⟩)
    · rw [apart.mapped elsewhere (user_inSpace isUser)] at isMapped
      exact Or.inr ⟨v, isUser, isMapped⟩
  intro page uses
  obtain ⟨place, notOf, notHand, holds⟩ := apart page (same page uses)
  exact ⟨place, notOf, notHand, by rw [elsewhere.places notOf notHand, holds]⟩

theorem Inv.apart (inv : Inv live m own) (source : live pgdir) (different : pgdir ≠ d) :
    Apart own d m pgdir := by
  intro page uses
  obtain ⟨place, ofSource, holds⟩ := inv.held_of_uses source uses
  obtain ⟨notOf, notHand⟩ := Place.of_other ofSource different
  exact ⟨place, notOf, notHand, holds⟩

/-- The flags that `copyuvm` passes on have `PTE_P` already. -/
theorem flags_present {pte : Nat} (present : has pte pteP = true) :
    pteFlags pte ||| pteP = pteFlags pte := by
  rw [has_pteP] at present
  have odd : pteFlags pte % 2 = 1 := by
    unfold pteFlags pgSize
    simp only [decide_eq_true_eq] at present
    omega
  apply Nat.eq_of_testBit_eq
  intro i
  rw [Nat.testBit_or]
  cases i with
  | zero => simp [pteP, Nat.testBit_zero, odd]
  | succ i => simp [pteP, Nat.testBit_succ]

theorem copyLoop_meets (sizeSmall : sz ≤ kernBase) (isLive : live d) :
    ∀ (turns vpn : Nat) (m : Machine) (own : Place → Option Nat), Inv live m own →
      Apart own d m pgdir → own .hand = none → vpn ≤ pagesOf sz → pagesOf sz - vpn < turns →
      (∀ v, own (.user d v) ≠ none ↔ v < vpn) →
      Meets (copyLoop pgdir sz d turns (vpn * pgSize)) m
        (fun result m' => (result = d ∧ ∃ own', Inv live m' own' ∧ Elsewhere d m own m' own' ∧
            own' .hand = none ∧ m'.frees = m.frees ∧
            (∀ v, own' (.user d v) ≠ none ↔ v < pagesOf sz) ∧
            ∀ v < addressPages, m'.view d v =
              if vpn ≤ v ∧ v < pagesOf sz then m.view pgdir v else m.view d v) ∨
          (result = 0 ∧ Failed (fun e => live e ∧ e ≠ d) m (strip d own) m' ∧
            ¬ Plenty (2 * (pagesOf sz - vpn)) m))
        (NotMapped m pgdir sz) := by
  have userBound := pagesOf_le_userPages sizeSmall
  have spaceBound : userPages ≤ addressPages := by decide
  intro turns
  induction turns with
  | zero =>
    intro vpn m own _ _ _ _ enough
    omega
  | succ turns ih =>
    intro vpn m own inv apart free bounded enough copied
    rw [copyLoop]
    by_cases inRange : vpn < pagesOf sz
    · have isUser : vpn < userPages := by omega
      have inSpace := user_inSpace isUser
      obtain ⟨spare, needs⟩ : ∃ spare, 2 * (pagesOf sz - vpn) = spare + 1 + 1 :=
        ⟨2 * (pagesOf sz - vpn) - 2, by omega⟩
      rw [if_pos (page_lt_iff.mpr inRange)]
      apply Total.bind
      apply walkpgdir_finds inSpace
      · intro missing
        refine ⟨Or.inl rfl, vpn, inRange, ?_⟩
        unfold Machine.mapped
        rw [Machine.pte_eq_none missing rfl]
        rfl
      · intro t framed
        have entry := Machine.pte_eq_some framed (show vpn / 1024 = vpn / 1024 from rfl)
        rw [meets_bind, meets_get]
        by_cases present : has (m.word t (vpn % 1024)) pteP = true
        · rw [if_neg (by simp [present])]
          apply Total.bind
          apply kalloc_total
          · intro rest scarce
            apply Total.bind
            refine (freevm_abandon (inv.refused rest) isLive (Extended.refused inv rest).elsewhere
              free free).mono ?_
            intro _ m' failed
            exact Or.inr ⟨rfl, failed, needs ▸ scarce (spare + 1)⟩
          · intro mem rest answers available
            have handInv : Inv live ((m.taken mem rest).fill mem
                ((m.taken mem rest).bytes (pteAddr (m.word t (vpn % 1024)) / pgSize)))
                (update own .hand (some mem)) :=
              (inv.take Place.hand_outside free available rest).fillPage
                (update_self Place.hand (some mem) own) (by simp) (by simp)
            have handElsewhere : Elsewhere d m own ((m.taken mem rest).fill mem
                ((m.taken mem rest).bytes (pteAddr (m.word t (vpn % 1024)) / pgSize)))
                (update own .hand (some mem)) :=
              Elsewhere.take inv (Or.inr rfl) available rest _
            have sameUsers : ∀ v, update own .hand (some mem) (.user d v) =
                own (.user d v) := fun v => by rw [update_of_ne (by simp)]
            have notCopied : own (.user d vpn) = none := by
              by_contra isCopied
              exact absurd ((copied vpn).mp isCopied) (by omega)
            rw [if_neg (Nat.pos_iff_ne_zero.mp available.1), meets_bind]
            apply Total.bind
            apply mappages_user_total handInv isLive isUser (update_self _ _ _)
              (by rw [sameUsers, notCopied])
              (show pteFlags (m.word t (vpn % 1024)) < pgSize from Nat.mod_lt _ (by decide))
            · intro rest' scarce
              have freed := (handInv.refused rest').giveBack Place.hand_outside (update_self _ _ _)
              rw [if_neg (by simp), meets_bind]
              apply Total.bind
              refine (freevm_abandon freed isLive (handElsewhere.of_bytes rfl rfl
                (fun notHand => update_of_ne notHand _ _) (by simp))
                (update_self _ _ _) free).mono ?_
              intro _ m' failed
              exact Or.inr ⟨rfl, failed, fun plenty =>
                scarce spare (Plenty.taken (needs ▸ plenty) answers).2⟩
            · intro m₁ own₁ placed
              have elsewhere := handElsewhere.trans placed.elsewhere
              have copy : m₁.view d vpn = m.view pgdir vpn := by
                have here := present_of_pte entry
                rw [if_pos present] at here
                rw [placed.view vpn inSpace, if_pos rfl, Machine.bytes_fill_self,
                  Machine.view, here,
                  Option.map_some, if_pos isUser, flags_present present, pteAddr,
                  Nat.mul_div_cancel _ (by decide)]
                rfl
              have views : ∀ v < addressPages, m₁.view d v =
                  if v = vpn then m.view pgdir v else m.view d v := by
                intro v below
                by_cases isNew : v = vpn
                · rw [if_pos isNew, isNew, copy]
                · rw [if_neg isNew, placed.view v below, if_neg isNew,
                    inv.view_taken isLive available rest _ below]
              rw [if_pos rfl, next_page isUser]
              refine (ih (vpn + 1) m₁ own₁ placed.inv (apart.elsewhere elsewhere)
                placed.hand (by omega) (by omega) ?_).imp ?_ ?_
              · intro v
                rw [placed.users]
                by_cases isNew : v = vpn
                · simp [isNew]
                · rw [if_neg isNew, sameUsers, copied v]
                  omega
              · rintro result m' (⟨isDir, own', inv', more, free', frees, all, copies⟩ |
                  ⟨zero, failed, scarce⟩)
                · refine Or.inl ⟨isDir, own', inv', elsewhere.trans more, free',
                    frees.trans placed.frees, all, ?_⟩
                  intro v below
                  rw [copies v below, (view_of_uses (apart.bytes elsewhere) below).2, views v below]
                  by_cases isNew : v = vpn
                  · rw [if_neg (by omega), if_pos isNew, if_pos (by omega)]
                  · rw [if_neg isNew]
                    exact if_congr (by omega) rfl rfl
                · refine Or.inr ⟨zero, failed.of_elsewhere elsewhere placed.hand free,
                    fun plenty => scarce ?_⟩
                  exact (placed.plenty spare (Plenty.taken (needs ▸ plenty) answers).2).mono
                    (by omega)
              · rintro stop ⟨message, v, below, missing⟩
                rw [apart.mapped elsewhere (lt_of_lt_of_le (by omega) spaceBound)] at missing
                exact ⟨message, v, below, missing⟩
        · rw [if_pos (by simpa using present), meets_bind, meets_throw]
          refine ⟨Or.inr rfl, vpn, inRange, ?_⟩
          unfold Machine.mapped
          rw [entry, Option.bind_some]
          exact frame_eq_none_iff.mpr (by simpa using present)
    · rw [if_neg (by rwa [page_lt_iff])]
      refine Or.inl ⟨rfl, own, inv, Elsewhere.refl d m own, free, rfl, ?_, ?_⟩
      · rwa [show pagesOf sz = vpn by omega]
      · intro v _
        rw [if_neg (by omega)]

/-- `copyuvm` fails, or creates a directory with the same user pages. It panics
only if a page below the size is not mapped. -/
theorem copyuvm_meets (kernel : KernelImage) (inv : Inv live m own) (free : own .hand = none)
    (source : ∀ d, ¬ live d → Apart own d m pgdir) (sizeSmall : sz ≤ kernBase) :
    Meets (copyuvm kernel pgdir sz) m
      (fun result m' => (result = 0 ∧ Failed live m own m' ∧ ¬ Plenty (2 * pagesOf sz + 201) m) ∨
        ∃ own', Created live m own result m' own' ∧
          (∀ v, own' (.user result v) ≠ none ↔ v < pagesOf sz) ∧
          ∀ v < addressPages, m'.view result v = if v < pagesOf sz then m.view pgdir v
            else (kmapEntry (kmap kernel) v).map fun pte => (fun _ => 0, pte))
      (NotMapped m pgdir sz) := by
  apply Total.bind
  refine ((setupkvm_total kernel inv free).and (setupkvm_maps kernel m)).mono ?_
  rintro d m₁ ⟨⟨⟨rfl, failed⟩ | ⟨own₁, created, noUser⟩, enoughPages⟩, kernelPart⟩
  · exact Or.inl ⟨rfl, failed, fun plenty => (enoughPages _ plenty).1 rfl⟩
  · have apart := source d created.notLive
    have enough : pagesOf sz - 0 < addressPages := by
      have bound := pagesOf_le_userPages sizeSmall
      have : userPages < addressPages := by decide
      omega
    have start : (0 : Nat) = 0 * pgSize := (Nat.zero_mul _).symm
    rw [if_neg created.notZero, start]
    refine (copyLoop_meets sizeSmall (Or.inl rfl) addressPages 0 m₁ own₁ created.inv
      (apart.elsewhere created.elsewhere) created.hand (Nat.zero_le _) enough ?_).imp ?_ ?_
    · intro v
      simp [noUser v]
    · rintro result m' (⟨rfl, own', inv', elsewhere, free', frees, all, copies⟩ |
        ⟨zero, failed, scarce⟩)
      · refine Or.inr ⟨own', ⟨created.notZero, created.notLive, inv',
          created.elsewhere.trans elsewhere, free', frees.trans created.frees⟩, all, ?_⟩
        intro v below
        rw [copies v below]
        by_cases inside : v < pagesOf sz
        · rw [if_pos ⟨Nat.zero_le v, inside⟩, if_pos inside,
            (view_of_uses (apart.bytes created.elsewhere) below).2]
        · rw [if_neg (by omega), if_neg inside, Machine.view, kernelPart created.notZero v below]
          by_cases isUser : v < userPages
          · obtain ⟨_, _, ascending⟩ := kmap_ascending kernel
            rw [ascending.kmapEntry_below isUser]
            rfl
          · simp only [if_neg isUser]
      · exact Or.inl ⟨zero, (failed.of_elsewhere created.elsewhere created.hand free).forget
          created.notLive inv fun _ _ => rfl, fun plenty => scarce (enoughPages _ plenty).2⟩
    · rintro stop ⟨message, v, below, missing⟩
      rw [apart.mapped created.elsewhere (by omega)] at missing
      exact ⟨message, v, below, missing⟩

end Copy

end Rexv6.Vm
