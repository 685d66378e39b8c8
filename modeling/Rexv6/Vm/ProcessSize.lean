import Rexv6.Foundation.Execution
import Rexv6.Vm.UserStack
import Rexv6.Vm.Ownership

/-!
Contract: the size of a process and the user pages of its page table.

Owns: the agreement of the two over whole sequences of `exec`, `fork` and
`sbrk`, with the allocator failing anywhere, the one argument of `sbrk` that
breaks it, and what a failed `growproc` leaves behind.

Does not own: the contents of the pages.
-/

namespace Rexv6.Vm

open Rexv6.Foundation
open Rexv6.Foundation.Program
open Rexv6.Foundation.Execution (Along foldlM_invariant)
open Function (update update_eq_self update_idem update_of_ne update_self)

namespace Procs

/-! ## Statements -/

def Live (s : Procs) (d : Nat) : Prop := ∃ slot p, s.procs slot = some p ∧ p.pgdir = d

def Fits (s : Procs) (p : Proc) : Prop :=
  ∀ vpn, vpn < userPages →
    (s.machine.mapped p.pgdir vpn ≠ none ↔ vpn * pgSize < pgRoundUp p.sz)

/-- The call is no `sbrk` that asks to give back the whole of a process. -/
def KeepsMemory (s : Procs) : Call → Prop
  | .sbrk slot n => ∀ p, s.procs slot = some p → n.toInt < 0 → (p.sz + n.toNat) % 2 ^ 32 ≠ 0
  | _ => True

/-- If `growproc` returned -1, the process is as it was before. -/
def Restores (s : Procs) (call : Call) (after : Procs) : Prop :=
  match call with
  | .sbrk slot _ => after.returned = -1 → after.procs = s.procs ∧
      ∀ p, s.procs slot = some p → ∀ vpn, vpn < userPages →
        after.machine.mapped p.pgdir vpn = s.machine.mapped p.pgdir vpn
  | _ => True

/-- The page tables of all processes are read as `own`, and each maps exactly
the pages below its size. -/
structure Matched (s : Procs) (own : Place → Option Nat) : Prop where
  inv : Inv s.Live s.machine own
  hand : own .hand = none
  kstacks : ∀ slot, own (.kstack slot) = (s.procs slot).map Proc.kstack
  distinct : ∀ {i j p q}, s.procs i = some p → s.procs j = some q → p.pgdir = q.pgdir → i = j
  small : ∀ {slot p}, s.procs slot = some p → p.sz ≤ kernBase
  sized : ∀ {slot p}, s.procs slot = some p →
    ∀ v, own (.user p.pgdir v) ≠ none ↔ v < pagesOf p.sz

end Procs

section Reading

variable {s : Procs} {own : Place → Option Nat}

theorem Procs.live_of {slot : Nat} {p : Proc} (here : s.procs slot = some p) : s.Live p.pgdir :=
  ⟨slot, p, here, rfl⟩

theorem Procs.Matched.fits (matched : s.Matched own) {slot : Nat} {p : Proc}
    (here : s.procs slot = some p) : s.Fits p := by
  intro vpn isUser
  rw [← matched.inv.shape.user (Procs.live_of here) isUser, matched.sized here,
    pgRoundUp_eq (matched.small here)]
  unfold pgSize
  omega

end Reading

/-! ## `growproc` -/

section Grow

variable {live : Nat → Prop} {m : Machine} {own : Place → Option Nat} {p : Proc}

/-- Asked to give back all of a process, `growproc` unmaps every page and then
fails. -/
theorem growproc_all_total (inv : Inv live m own) (isLive : live p.pgdir)
    (hand : own .hand = none) (small : p.sz ≤ kernBase)
    (above : ∀ v, pagesOf p.sz ≤ v → own (.user p.pgdir v) = none) {n : BitVec 32}
    (shrinks : n.toInt < 0) (all : (p.sz + n.toNat) % 2 ^ 32 = 0) :
    Total (growproc p n) m fun result m' => result = none ∧ ∃ own', Inv live m' own' ∧
      Elsewhere p.pgdir m own m' own' ∧ own' .hand = none ∧
      ∀ v, own' (.user p.pgdir v) = none := by
  unfold growproc Total
  rw [if_neg (by omega), if_pos shrinks, all, meets_bind]
  refine (deallocuvm_total inv isLive small).mono ?_
  rintro result m' ⟨isMin, own', unmapped⟩
  rw [if_pos (by omega), meets_pure]
  refine ⟨rfl, own', unmapped.inv, unmapped.elsewhere, by rw [unmapped.hand, hand], ?_⟩
  intro v
  by_cases below : v < pagesOf p.sz
  · exact unmapped.gone v (Nat.zero_le v) below
  · rw [unmapped.rest _ (by simp; omega), above v (by omega)]

/-- `growproc` returns the size up to which pages are mapped. When it fails, it
leaves all pages in place, or it was asked to give back all of them and has. -/
theorem growproc_total (inv : Inv live m own) (isLive : live p.pgdir) (hand : own .hand = none)
    (small : p.sz ≤ kernBase) (sized : ∀ v, own (.user p.pgdir v) ≠ none ↔ v < pagesOf p.sz)
    (n : BitVec 32) :
    Total (growproc p n) m fun result m' => ∃ own', Inv live m' own' ∧
      Elsewhere p.pgdir m own m' own' ∧ own' .hand = none ∧
      ((∃ sz, result = some sz ∧ sz ≤ kernBase ∧
          ∀ v, own' (.user p.pgdir v) ≠ none ↔ v < pagesOf sz) ∨
        (result = none ∧ ∀ v, own' (.user p.pgdir v) = own (.user p.pgdir v)) ∨
        (result = none ∧ n.toInt < 0 ∧ (p.sz + n.toNat) % 2 ^ 32 = 0 ∧
          ∀ v, own' (.user p.pgdir v) = none)) := by
  have building : Building live p.pgdir m own p.sz m own :=
    ⟨inv, Elsewhere.refl _ m own, hand, small, sized⟩
  by_cases all : n.toInt < 0 ∧ (p.sz + n.toNat) % 2 ^ 32 = 0
  · refine (growproc_all_total inv isLive hand small building.above all.1 all.2).mono ?_
    rintro result m' ⟨rfl, own', inv', elsewhere, hand', gone⟩
    exact ⟨own', inv', elsewhere, hand', Or.inr (Or.inr ⟨rfl, all.1, all.2, gone⟩)⟩
  unfold growproc Total
  by_cases grows : 0 < n.toInt
  · rw [if_pos grows, meets_bind]
    refine (building.alloc isLive _).mono ?_
    rintro result m' ⟨own', restored, outcome⟩
    by_cases zero : result = 0
    · rw [if_pos zero, meets_pure]
      rcases outcome with ⟨_, after, _⟩ | ⟨_, _, after, _⟩
      · exact ⟨own', after.inv, after.elsewhere, after.hand, Or.inr (Or.inl ⟨rfl, restored zero⟩)⟩
      · exact ⟨own', after.inv, after.elsewhere, after.hand, Or.inr (Or.inl ⟨rfl, restored zero⟩)⟩
    · rw [if_neg zero, meets_pure]
      rcases outcome with ⟨isZero, _⟩ | ⟨_, _, after, _⟩
      · exact absurd isZero zero
      · exact ⟨own', after.inv, after.elsewhere, after.hand,
          Or.inl ⟨result, rfl, after.small, after.sized⟩⟩
  · rw [if_neg grows]
    by_cases shrinks : n.toInt < 0
    · rw [if_pos shrinks, meets_bind]
      have some' : ¬ (p.sz + n.toNat) % 2 ^ 32 = 0 := fun zero => all ⟨shrinks, zero⟩
      generalize (p.sz + n.toNat) % 2 ^ 32 = newsz at some'
      refine (deallocuvm_total inv isLive small).mono ?_
      rintro result m' ⟨isMin, own', unmapped⟩
      have hand' : own' .hand = none := by rw [unmapped.hand, hand]
      by_cases zero : result = 0
      · rw [if_pos zero, meets_pure]
        refine ⟨own', unmapped.inv, unmapped.elsewhere, hand', Or.inr (Or.inl ⟨rfl, ?_⟩)⟩
        have noSize : p.sz = 0 := by omega
        intro v
        apply unmapped.rest
        rintro v' -
        right
        rw [noSize]
        exact Nat.zero_le v'
      · rw [if_neg zero, meets_pure]
        refine ⟨own', unmapped.inv, unmapped.elsewhere, hand', Or.inl ⟨result, rfl, by omega, ?_⟩⟩
        intro v
        have pages : pagesOf result = min (pagesOf newsz) (pagesOf p.sz) := by
          unfold pagesOf
          omega
        by_cases inside : pagesOf newsz ≤ v ∧ v < pagesOf p.sz
        · rw [unmapped.gone v inside.1 inside.2]
          exact iff_of_false (by simp) (by omega)
        · rw [unmapped.rest _ (by simp; omega), sized]
          omega
    · rw [if_neg shrinks, meets_pure]
      exact ⟨own, inv, Elsewhere.refl _ m own, hand, Or.inl ⟨p.sz, rfl, small, sized⟩⟩

end Grow

/-! ## `fork` -/

section Fork

variable {live : Nat → Prop} {m : Machine} {own : Place → Option Nat} {p : Proc}

/-- `fork` of a process that fits its page table does not panic: it fails and
changes no owner, or it returns a copy with a kernel stack of its own. -/
theorem fork_total (kernel : KernelImage) (inv : Inv live m own) (source : live p.pgdir)
    (hand : own .hand = none) (small : p.sz ≤ kernBase)
    (sized : ∀ v, own (.user p.pgdir v) ≠ none ↔ v < pagesOf p.sz) {child : Nat}
    (free : own (.kstack child) = none) :
    Total (fork kernel p) m fun result m' =>
      (result = none ∧ Inv live m' own) ∨
        ∃ d kstack own', result = some ⟨d, p.sz, kstack⟩ ∧ ¬ live d ∧
          Inv (fun e => e = d ∨ live e) m' own' ∧ own' .hand = none ∧
          own' (.kstack child) = some kstack ∧
          (∀ i, i ≠ child → own' (.kstack i) = own (.kstack i)) ∧
          (∀ e, e ≠ d → ∀ v, own' (.user e v) = own (.user e v)) ∧
          ∀ v, own' (.user d v) ≠ none ↔ v < pagesOf p.sz := by
  unfold fork Total
  rw [meets_bind]
  apply kalloc_total
  · intro rest _
    exact Or.inl ⟨rfl, inv.refused rest⟩
  · intro kstack rest _ available
    have stackInv := inv.take (Place.kstack_outside child) free available rest
    have sameHand : update own (.kstack child) (some kstack) .hand = none := by
      rw [update_of_ne (by simp), hand]
    have sameUsers : ∀ e v, update own (.kstack child) (some kstack) (.user e v) =
        own (.user e v) := fun e v => update_of_ne (by simp) _ _
    rw [if_neg (Nat.pos_iff_ne_zero.mp available.1), meets_bind]
    refine (copyuvm_meets kernel stackInv sameHand (fun d notLive => stackInv.apart source
      fun same => notLive (same ▸ source)) small).imp ?_ ?_
    · rintro d m' (⟨rfl, failed, _⟩ | ⟨own', created, copied, _⟩)
      · have undone := failed.inv.giveBack (Place.kstack_outside child)
          (update_self _ _ _)
        rw [update_idem, ← free, update_eq_self] at undone
        exact Or.inl ⟨rfl, undone⟩
      · rw [if_neg created.notZero, meets_pure]
        refine Or.inr ⟨d, kstack, own', rfl, created.notLive, created.inv, created.hand, ?_, ?_, ?_,
          copied⟩
        · rw [created.elsewhere.places (Place.kstack_outside child d) (by simp),
            update_self]
        · intro i different
          rw [created.elsewhere.places (Place.kstack_outside i d) (by simp),
            update_of_ne (by simpa using different)]
        · intro e different v
          rw [created.elsewhere.user different, sameUsers]
    · rintro stop ⟨_, v, below, missing⟩
      have bound := pagesOf_le_userPages small
      rw [← stackInv.shape.user source (by omega), sameUsers] at missing
      exact (sized v).mpr below missing

end Fork

/-! ## `exec` -/

section Exec

variable {live : Nat → Prop} {m : Machine} {own : Place → Option Nat} {p : Proc}

/-- `exec` fails and changes no owner, or it replaces the address space by one
that maps exactly the pages below the new size. -/
theorem exec_meets (kernel : KernelImage) (inv : Inv live m own) (isLive : live p.pgdir)
    (hand : own .hand = none) (ip : File) (argv : List (List UInt8)) :
    Meets (exec kernel p ip argv) m
      (fun result m' => (result = none ∧ Inv live m' own) ∨
        ∃ d sz own', result = some ⟨d, sz, p.kstack⟩ ∧ ¬ live d ∧
          Inv (fun e => (e = d ∨ live e) ∧ e ≠ p.pgdir) m' own' ∧ own' .hand = none ∧
          (∀ i, own' (.kstack i) = own (.kstack i)) ∧
          (∀ e, e ≠ d → e ≠ p.pgdir → ∀ v, own' (.user e v) = own (.user e v)) ∧
          sz ≤ kernBase ∧ ∀ v, own' (.user d v) ≠ none ↔ v < pagesOf sz)
      fun stop => stop = .fault := by
  unfold exec
  cases ip.readi 0 elfhdrSize with
  | none => exact Or.inl ⟨rfl, inv⟩
  | some elf =>
    simp only
    by_cases short : elf.length ≠ elfhdrSize
    · rw [if_pos short]
      exact Or.inl ⟨rfl, inv⟩
    rw [if_neg short]
    by_cases notElf : field elf 0 4 ≠ elfMagic
    · rw [if_pos notElf]
      exact Or.inl ⟨rfl, inv⟩
    rw [if_neg notElf]
    apply Total.bind
    refine (setupkvm_total kernel inv hand).mono ?_
    rintro d m₁ ⟨⟨rfl, failed⟩ | ⟨own₁, created, noUser⟩, _⟩
    · exact Or.inl ⟨rfl, failed.inv⟩
    rw [if_neg created.notZero, meets_bind]
    have building : Building (fun e => e = d ∨ live e) d m own 0 m₁ own₁ := by
      refine ⟨created.inv, created.elsewhere, created.hand, Nat.zero_le _, ?_⟩
      intro v
      exact iff_of_false (by simp [noUser v]) (Nat.not_lt_zero v)
    refine (buildImage_meets (Or.inl rfl) ip elf argv building).mono ?_
    rintro result m₂ ⟨own₂, reached, built, isSize⟩
    cases result with
    | none =>
      apply Total.bind
      refine (freevm_abandon built.inv (Or.inl rfl) built.elsewhere built.hand hand).mono ?_
      intro _ m' failed
      exact Or.inl ⟨rfl, (failed.forget created.notLive inv fun _ _ => rfl).inv⟩
    | some sz =>
      obtain rfl := isSize sz rfl
      have different : d ≠ p.pgdir := by
        rintro rfl
        exact created.notLive isLive
      have keptUser : ∀ e, e ≠ p.pgdir → ∀ v,
          strip p.pgdir own₂ (.user e v) = own₂ (.user e v) := fun e other v =>
        strip_not (show ¬ (Place.user e v).Of p.pgdir from other)
      apply Total.bind
      refine (freevm_total built.inv (Or.inr isLive)).mono ?_
      rintro _ m' ⟨freed, _⟩
      refine Or.inr ⟨d, sz, strip p.pgdir own₂, rfl, created.notLive, freed, ?_, ?_, ?_,
        built.small, ?_⟩
      · rw [strip_not (Place.hand_outside _), built.hand]
      · intro i
        rw [strip_not (Place.kstack_outside i _),
          built.elsewhere.places (Place.kstack_outside i d) (by simp)]
      · intro e notNew notOld v
        rw [keptUser e notOld, built.elsewhere.user notNew]
      · intro v
        rw [keptUser d different, built.sized]

end Exec

/-! ## The first process -/

section First

variable {live : Nat → Prop} {m : Machine} {own : Place → Option Nat} {d : Nat}

/-- `inituvm` on a directory without user pages, when `mappages` succeeds, maps
page 0 and no other. -/
theorem inituvm_meets (inv : Inv live m own) (isLive : live d) (hand : own .hand = none)
    (noUser : ∀ v, own (.user d v) = none) (init : List UInt8) :
    Meets (inituvm d init) m
      (fun _ m' => (m'.mapped d 0 ≠ none → ∃ own', Building live d m own pgSize m' own') ∧
        ∀ n, Plenty (n + 2) m → m'.mapped d 0 ≠ none ∧ Plenty n m')
      fun _ => pgSize ≤ init.length ∨ ∀ n, ¬ Plenty (n + 2) m := by
  have isUser : 0 < userPages := by decide
  unfold inituvm
  by_cases long : init.length ≥ pgSize
  · rw [if_pos long]
    exact Or.inl long
  rw [if_neg long]
  apply Total.bind
  apply kalloc_total
  · intro rest refused
    exact Or.inr fun n => refused (n + 1)
  · intro mem rest answers available
    have inHand : update own .hand (some mem) .hand = some mem :=
      update_self _ _ _
    have filled : Inv live ((m.taken mem rest).fill mem fun _ => 0)
        (update own .hand (some mem)) :=
      (inv.take Place.hand_outside hand available rest).fillPage inHand (by simp) (by simp)
    have noUser' : ∀ v, update own .hand (some mem) (.user d v) = none := by
      intro v
      rw [update_of_ne (by simp), noUser]
    rw [if_neg (Nat.pos_iff_ne_zero.mp available.1), meets_bind]
    apply Total.bind
    apply mappages_user_total filled isLive isUser inHand (noUser' 0) (by decide)
    · intro rest' refused
      refine ⟨fun present => absurd ?_ present, ?_⟩
      · rw [← ((filled.refused rest').fillPage inHand (by simp) (by simp)).shape.user isLive isUser,
          noUser']
      intro n plenty
      exact absurd (plenty.taken answers).2 (refused n)
    · intro m' own' placed
      have page : own' (.user d 0) = some mem := by
        rw [placed.users, if_pos rfl]
      apply placed.inv.store isLive page (by omega)
      intro m'' stored _ _
      have building : Building live d m own pgSize m' own' := by
        refine ⟨placed.inv,
          (Elsewhere.take inv (Or.inr rfl) available rest _).trans placed.elsewhere,
          placed.hand, by decide, fun v => ?_⟩
        have pages : pagesOf pgSize = 1 := by decide
        rw [placed.users, noUser', pages]
        by_cases first : v = 0
        · rw [if_pos first]
          exact iff_of_true (by simp) (by omega)
        · rw [if_neg first]
          exact iff_of_false (by simp) (by omega)
      refine ⟨fun _ => ⟨own', building.rewritten stored⟩, fun n plenty => ⟨?_, ?_⟩⟩
      · rw [← stored.inv.shape.user isLive isUser, page]
        simp
      · exact (placed.plenty n (plenty.taken answers).2).congr stored.answers stored.allocs
          stored.frees

end First

/-! ## System calls -/

section Calls

variable {s : Procs} {own own' : Place → Option Nat} {m' : Machine} {slot : Nat} {p : Proc}
  {returned : Int}

/-- The table with `q` in `slot`, all other processes being as before. -/
theorem Procs.Matched.replace (matched : s.Matched own) {live : Nat → Prop} {q : Proc}
    (inv : Inv live m' own')
    (isLive : ∀ e, live e ↔ e = q.pgdir ∨ ∃ i r, i ≠ slot ∧ s.procs i = some r ∧ r.pgdir = e)
    (hand : own' .hand = none) (stack : own' (.kstack slot) = some q.kstack)
    (otherStacks : ∀ i, i ≠ slot → own' (.kstack i) = own (.kstack i))
    (others : ∀ i r, i ≠ slot → s.procs i = some r → r.pgdir ≠ q.pgdir ∧
      ∀ v, own' (.user r.pgdir v) = own (.user r.pgdir v))
    (small : q.sz ≤ kernBase) (sized : ∀ v, own' (.user q.pgdir v) ≠ none ↔ v < pagesOf q.sz) :
    (⟨m', update s.procs slot (some q), returned⟩ : Procs).Matched own' := by
  have procOf : ∀ {i r}, update s.procs slot (some q) i = some r →
      (i = slot ∧ r = q) ∨ (i ≠ slot ∧ s.procs i = some r) := by
    intro i r found
    by_cases same : i = slot
    · rw [same, update_self] at found
      exact Or.inl ⟨same, (Option.some.inj found).symm⟩
    · rw [update_of_ne same] at found
      exact Or.inr ⟨same, found⟩
  constructor
  · apply inv.of_live
    intro e
    rw [isLive]
    constructor
    · rintro ⟨i, r, found, rfl⟩
      rcases procOf found with ⟨_, rfl⟩ | ⟨different, before⟩
      · exact Or.inl rfl
      · exact Or.inr ⟨i, r, different, before, rfl⟩
    · rintro (rfl | ⟨i, r, different, before, rfl⟩)
      · exact ⟨slot, q, update_self _ _ _, rfl⟩
      · exact ⟨i, r, (update_of_ne different _ _).trans before, rfl⟩
  · exact hand
  · intro i
    by_cases same : i = slot
    · rw [same, stack]
      simp
    · rw [otherStacks i same, matched.kstacks]
      simp [update_of_ne same]
  · intro i j r r' found found' samePgdir
    rcases procOf found with ⟨rfl, rfl⟩ | ⟨different, before⟩ <;>
      rcases procOf found' with ⟨rfl, rfl⟩ | ⟨different', before'⟩
    · rfl
    · exact absurd samePgdir.symm (others j r' different' before').1
    · exact absurd samePgdir (others i r different before).1
    · exact matched.distinct before before' samePgdir
  · intro i r found
    rcases procOf found with ⟨rfl, rfl⟩ | ⟨_, before⟩
    · exact small
    · exact matched.small before
  · intro i r found v
    rcases procOf found with ⟨rfl, rfl⟩ | ⟨different, before⟩
    · exact sized v
    · rw [(others i r different before).2 v]
      exact matched.sized before v

theorem Procs.Matched.unchanged (matched : s.Matched own) (inv : Inv s.Live m' own')
    (hand : own' .hand = none) (kstacks : ∀ i, own' (.kstack i) = own (.kstack i))
    (users : ∀ i r, s.procs i = some r → ∀ v, own' (.user r.pgdir v) = own (.user r.pgdir v)) :
    (⟨m', s.procs, returned⟩ : Procs).Matched own' := by
  constructor
  · exact inv
  · exact hand
  · intro i
    rw [kstacks, matched.kstacks]
  · exact matched.distinct
  · exact matched.small
  · intro i r found v
    rw [users i r found v]
    exact matched.sized found v

/-- What is known of the outcome of a system call: every process still fits its
page table and a failed `growproc` has changed nothing, or `exec` has followed
a null pointer. -/
def Procs.Sound (s : Procs) (call : Call) : Except Stop Procs → Prop
  | .ok after => (∃ own, after.Matched own) ∧ s.Restores call after
  | .error stop => stop = .fault ∧ ∃ slot ip argv, call = .exec slot ip argv

theorem Procs.Matched.sbrk (kernel : KernelImage) (matched : s.Matched own) (slot : Nat)
    (n : BitVec 32) (keeps : s.KeepsMemory (.sbrk slot n)) :
    s.Sound (.sbrk slot n) (s.step kernel (.sbrk slot n)) := by
  cases here : s.procs slot with
  | none =>
    simp only [Procs.step, here]
    exact ⟨⟨own, matched⟩, fun _ => ⟨rfl, fun _ _ _ _ => rfl⟩⟩
  | some p =>
    have isLive := Procs.live_of here
    simp only [Procs.step, here]
    apply (growproc_total matched.inv isLive matched.hand (matched.small here)
      (matched.sized here) n).outcome
    · rintro result m' ⟨own', inv, elsewhere, hand, outcome⟩
      have kstacks : ∀ i, own' (.kstack i) = own (.kstack i) := fun i =>
        elsewhere.places (Place.kstack_outside i _) (by simp)
      have others : ∀ i r, i ≠ slot → s.procs i = some r → r.pgdir ≠ p.pgdir ∧
          ∀ v, own' (.user r.pgdir v) = own (.user r.pgdir v) := by
        intro i r different found
        have notSame : r.pgdir ≠ p.pgdir := fun same =>
          different (matched.distinct found here same)
        exact ⟨notSame, fun v => elsewhere.user notSame⟩
      rcases outcome with ⟨sz, rfl, small, sized⟩ | ⟨rfl, same⟩ | ⟨rfl, shrinks, zero, _⟩
      · refine ⟨⟨own', matched.replace inv ?_ hand ?_ (fun i _ => kstacks i) others small
          sized⟩, ?_⟩
        · intro e
          constructor
          · rintro ⟨i, r, found, rfl⟩
            by_cases isSlot : i = slot
            · rw [isSlot, here] at found
              exact Or.inl (by rw [Option.some.inj found])
            · exact Or.inr ⟨i, r, isSlot, found, rfl⟩
          · rintro (rfl | ⟨i, r, _, found, rfl⟩)
            · exact isLive
            · exact Procs.live_of found
        · rw [kstacks, matched.kstacks, here]
          rfl
        · intro failed
          exact absurd failed (by simp)
      · have users : ∀ i r, s.procs i = some r →
            ∀ v, own' (.user r.pgdir v) = own (.user r.pgdir v) := by
          intro i r found v
          by_cases isSlot : i = slot
          · rw [isSlot, here] at found
            rw [← Option.some.inj found, same]
          · exact (others i r isSlot found).2 v
        refine ⟨⟨own', matched.unchanged inv hand kstacks users⟩, fun _ => ⟨rfl, ?_⟩⟩
        intro q found vpn isUser
        have isLive := Procs.live_of found
        have reading := matched.inv.shape.user isLive isUser
        rw [← inv.shape.user isLive isUser, users slot q found, reading]
      · exact absurd zero (keeps p here shrinks)
    · intro stop impossible
      exact impossible.elim

theorem Procs.Matched.fork (kernel : KernelImage) (matched : s.Matched own) (slot child : Nat) :
    s.Sound (.fork slot child) (s.step kernel (.fork slot child)) := by
  cases here : s.procs slot with
  | none =>
    simp only [Procs.step, here]
    exact ⟨⟨own, matched⟩, trivial⟩
  | some p =>
    cases there : s.procs child with
    | some other =>
      simp only [Procs.step, here, there]
      exact ⟨⟨own, matched.unchanged matched.inv matched.hand (fun _ => rfl)
        (fun _ _ _ _ => rfl)⟩, trivial⟩
    | none =>
      have isLive := Procs.live_of here
      have free : own (.kstack child) = none := by
        rw [matched.kstacks, there]
        rfl
      simp only [Procs.step, here, there]
      apply (fork_total kernel matched.inv isLive matched.hand (matched.small here)
        (matched.sized here) free).outcome
      · rintro result m' (⟨rfl, inv⟩ | ⟨d, kstack, own', rfl, notLive, inv, hand, stack,
          otherStacks, others, sized⟩)
        · exact ⟨⟨own, matched.unchanged inv matched.hand (fun _ => rfl)
            (fun _ _ _ _ => rfl)⟩, trivial⟩
        · refine ⟨⟨own', matched.replace inv ?_ hand stack otherStacks ?_
            (show p.sz ≤ kernBase from matched.small here) sized⟩, trivial⟩
          · intro e
            apply or_congr_right
            constructor
            · rintro ⟨i, r, found, rfl⟩
              refine ⟨i, r, ?_, found, rfl⟩
              rintro rfl
              rw [there] at found
              exact absurd found (by simp)
            · rintro ⟨i, r, _, found, rfl⟩
              exact Procs.live_of found
          · intro i r _ found
            have different : r.pgdir ≠ d := by
              intro same
              exact notLive (same ▸ Procs.live_of found)
            exact ⟨different, others r.pgdir different⟩
      · intro stop impossible
        exact impossible.elim

theorem Procs.Matched.exec (kernel : KernelImage) (matched : s.Matched own) (slot : Nat)
    (ip : File) (argv : List (List UInt8)) :
    s.Sound (.exec slot ip argv) (s.step kernel (.exec slot ip argv)) := by
  cases here : s.procs slot with
  | none =>
    simp only [Procs.step, here]
    exact ⟨⟨own, matched⟩, trivial⟩
  | some p =>
    simp only [Procs.step, here]
    apply (exec_meets kernel matched.inv (Procs.live_of here) matched.hand ip argv).outcome
    · rintro result m' (⟨rfl, inv⟩ | ⟨d, sz, own', rfl, notLive, inv, hand, stack, others, small,
        sized⟩)
      · exact ⟨⟨own, matched.unchanged inv matched.hand (fun _ => rfl) (fun _ _ _ _ => rfl)⟩,
          trivial⟩
      · have otherDirs : ∀ i r, i ≠ slot → s.procs i = some r →
            r.pgdir ≠ p.pgdir ∧ r.pgdir ≠ d := by
          intro i r different found
          exact ⟨fun same => different (matched.distinct found here same),
            fun same => notLive (same ▸ Procs.live_of found)⟩
        refine ⟨⟨own', matched.replace inv ?_ hand ?_ (fun i _ => stack i) ?_ small sized⟩,
          trivial⟩
        · intro e
          constructor
          · rintro ⟨isNew | ⟨i, r, found, rfl⟩, notOld⟩
            · exact Or.inl isNew
            · refine Or.inr ⟨i, r, ?_, found, rfl⟩
              rintro rfl
              rw [here] at found
              exact notOld (by rw [Option.some.inj found])
          · rintro (rfl | ⟨i, r, different, found, rfl⟩)
            · refine ⟨Or.inl rfl, ?_⟩
              intro same
              exact notLive (same ▸ Procs.live_of here)
            · exact ⟨Or.inr (Procs.live_of found), (otherDirs i r different found).1⟩
        · rw [stack, matched.kstacks, here]
          rfl
        · intro i r different found
          obtain ⟨notOld, notNew⟩ := otherDirs i r different found
          exact ⟨notNew, others r.pgdir notNew notOld⟩
    · intro stop isFault
      exact ⟨isFault, slot, ip, argv, rfl⟩

theorem Procs.Matched.step (kernel : KernelImage) (matched : s.Matched own) (call : Call)
    (keeps : s.KeepsMemory call) : s.Sound call (s.step kernel call) := by
  cases call with
  | sbrk slot n => exact matched.sbrk kernel slot n keeps
  | fork slot child => exact matched.fork kernel slot child
  | exec slot ip argv => exact matched.exec kernel slot ip argv

end Calls

/-! ## Whole runs -/

section Runs

variable {m : Machine} {s s₀ : Procs}

/-- The first process fits its page table if `inituvm` could map its page, and
204 pages are enough for that. -/
theorem firstProc_meets (kernel : KernelImage) (initcode : List UInt8)
    (returned : ∀ page, m.allocs page = m.frees page) :
    Meets (Procs.firstProc kernel initcode) m
      (fun p m' => p.sz = pgSize ∧
        (m'.mapped p.pgdir 0 ≠ none → ∃ own,
          (⟨m', update (fun _ => none) 0 (some p), 0⟩ : Procs).Matched own) ∧
        ∀ n, Plenty (n + 204) m → m'.mapped p.pgdir 0 ≠ none ∧ Plenty n m')
      fun _ => pgSize ≤ initcode.length ∨ ∀ n, ¬ Plenty (n + 204) m := by
  have inv := Inv.empty m returned
  have start : (⟨m, fun _ => none, 0⟩ : Procs).Matched fun _ => none := by
    constructor
    · apply inv.of_live
      intro d
      exact iff_of_false (by rintro ⟨_, _, found, _⟩; cases found) id
    · rfl
    · intro slot
      rfl
    · intro i j p q found
      cases found
    · intro slot p found
      cases found
    · intro slot p found
      cases found
  apply Total.bind
  apply kalloc_total
  · intro rest refused
    exact Or.inr fun n => refused (n + 203)
  intro kstack rest answers available
  have stackInv := inv.take (Place.kstack_outside 0) rfl available rest
  rw [if_neg (Nat.pos_iff_ne_zero.mp available.1)]
  apply Total.bind
  refine (setupkvm_total kernel stackInv (update_of_ne (by simp) _ _)).mono ?_
  rintro d m₁ ⟨⟨rfl, _⟩ | ⟨own₁, created, noUser⟩, plenty₁⟩
  · exact Or.inr fun n plenty => (plenty₁ (n + 2) (plenty.taken answers).2).1 rfl
  rw [if_neg created.notZero, meets_bind]
  refine (inituvm_meets created.inv (Or.inl rfl) created.hand noUser initcode).imp ?_ ?_
  · rintro _ m' ⟨built, enough⟩
    refine ⟨rfl, ?_, fun n plenty => enough n (plenty₁ (n + 2) (plenty.taken answers).2).2⟩
    intro present
    obtain ⟨own', building⟩ := built present
    have kstacks : ∀ i, own' (.kstack i) =
        update (fun _ => none) (Place.kstack 0) (some kstack) (.kstack i) := by
      intro i
      rw [building.elsewhere.places (Place.kstack_outside i d) (by simp),
        created.elsewhere.places (Place.kstack_outside i d) (by simp)]
    refine ⟨own', start.replace building.inv ?_ building.hand ?_ ?_ ?_ building.small
      building.sized⟩
    · intro e
      exact or_congr_right (iff_of_false id (by rintro ⟨_, _, _, found, _⟩; cases found))
    · rw [kstacks, update_self]
    · intro i different
      rw [kstacks, update_of_ne (by simpa using different)]
    · intro i r _ found
      cases found
  · rintro stop (long | few)
    · exact Or.inl long
    · exact Or.inr fun n plenty => few n (plenty₁ (n + 2) (plenty.taken answers).2).2

theorem Procs.userinit_matched (kernel : KernelImage) (initcode : List UInt8)
    (returned : ∀ page, m.allocs page = m.frees page)
    (booted : Procs.userinit kernel initcode m = .ok s₀)
    (loaded : ∀ p, s₀.procs 0 = some p → s₀.machine.mapped p.pgdir 0 ≠ none) :
    ∃ own, s₀.Matched own := by
  unfold Procs.userinit at booted
  cases first : (Procs.firstProc kernel initcode).run m with
  | error stop =>
    rw [first] at booted
    cases booted
  | ok result =>
    rw [first] at booted
    cases booted
    obtain ⟨_, matched, _⟩ := (firstProc_meets kernel initcode returned).of_run first
    exact matched (loaded result.1 (by simp))

/-- With enough memory `userinit` returns, with page 0 mapped. -/
theorem Procs.userinit_returns (kernel : KernelImage) {initcode : List UInt8} {n : Nat}
    (short : initcode.length < pgSize) (returned : ∀ page, m.allocs page = m.frees page)
    (plenty : Plenty (n + 204) m) : ∃ s p, Procs.userinit kernel initcode m = .ok s ∧
      s.procs = update (fun _ => none) 0 (some p) ∧ p.sz = pgSize ∧
      s.machine.mapped p.pgdir 0 ≠ none ∧ Plenty n s.machine ∧ ∃ own, s.Matched own := by
  have meets := firstProc_meets kernel initcode returned
  unfold Procs.userinit
  cases first : (Procs.firstProc kernel initcode).run m with
  | ok result =>
    obtain ⟨isPage, matched, enough⟩ := meets.of_run first
    obtain ⟨present, left⟩ := enough n plenty
    exact ⟨_, result.1, rfl, rfl, isPage, present, left, matched present⟩
  | error stop =>
    rcases meets.of_stop first with long | few
    · exact absurd long (Nat.not_le.mpr short)
    · exact absurd plenty (few n)

theorem Procs.run_matched (kernel : KernelImage) (start : ∃ own, s₀.Matched own)
    {calls : List Call} (allowed : Along (Procs.step kernel) Procs.KeepsMemory s₀ calls)
    (run : s₀.run kernel calls = .ok s) : ∃ own, s.Matched own := by
  refine foldlM_invariant Procs.KeepsMemory (fun state => ∃ own, state.Matched own) ?_ calls
    allowed start run
  rintro state call after keeps ⟨own, matched⟩ stepped
  have sound := matched.step kernel call keeps
  rw [stepped] at sound
  exact sound.1

/-- After any run of system calls from the first process in which no `sbrk` asks
to give back the whole of a process, every process has exactly the user pages
below its size. A further such call leaves the process as it was if `growproc`
returns -1, and it does not stop unless `exec` follows a null pointer: `fork`
never panics in `copyuvm`. -/
theorem process_size_matches (kernel : KernelImage) (initcode : List UInt8) (start : Machine)
    (calls : List Call) (returned : ∀ page, start.allocs page = start.frees page)
    (booted : Procs.userinit kernel initcode start = .ok s₀)
    (loaded : ∀ p, s₀.procs 0 = some p → s₀.machine.mapped p.pgdir 0 ≠ none)
    (allowed : Along (Procs.step kernel) Procs.KeepsMemory s₀ calls)
    (run : s₀.run kernel calls = .ok s) :
    (∀ slot p, s.procs slot = some p → s.Fits p) ∧
      ∀ call, s.KeepsMemory call →
        match s.step kernel call with
        | .ok after => s.Restores call after
        | .error stop => stop = .fault ∧ ∃ slot ip argv, call = .exec slot ip argv := by
  obtain ⟨own, matched⟩ := Procs.run_matched kernel
    (Procs.userinit_matched kernel initcode returned booted loaded) allowed run
  constructor
  · intro slot p here
    exact matched.fits here
  · intro call keeps
    have sound := matched.step kernel call keeps
    cases stepped : s.step kernel call with
    | ok after =>
      rw [stepped] at sound
      exact sound.2
    | error stop =>
      rw [stepped] at sound
      exact sound

end Runs

/-! ## The first process on a machine with memory -/

theorem roomyMachine_boots : ∃ s p, Procs.userinit smallKernel [] roomyMachine = .ok s ∧
    s.procs = update (fun _ => none) 0 (some p) ∧ p.sz = pgSize ∧
    s.machine.mapped p.pgdir 0 ≠ none ∧ Plenty 396 s.machine ∧ ∃ own, s.Matched own :=
  Procs.userinit_returns smallKernel (by decide) (fun _ => rfl) roomyMachine_plenty

/-- The first process asks for one more byte. -/
theorem process_size_matches_one_byte : ∃ s₀ s,
    Procs.userinit smallKernel [] roomyMachine = .ok s₀ ∧
      s₀.run smallKernel [.sbrk 0 1] = .ok s ∧ ∀ slot p, s.procs slot = some p → s.Fits p := by
  obtain ⟨s₀, p, booted, procs, _, present, _, own, matched⟩ := roomyMachine_boots
  have keeps : s₀.KeepsMemory (.sbrk 0 1) := by
    intro _ _ shrinks
    exact absurd shrinks (by decide)
  have sound := matched.step smallKernel _ keeps
  cases stepped : s₀.step smallKernel (.sbrk 0 1) with
  | error stop =>
    rw [stepped] at sound
    obtain ⟨_, _, _, _, impossible⟩ := sound
    cases impossible
  | ok s =>
    have run : s₀.run smallKernel [.sbrk 0 1] = .ok s := by
      unfold Procs.run
      rw [List.foldlM_cons, stepped]
      rfl
    refine ⟨s₀, s, booted, run, (process_size_matches smallKernel [] roomyMachine [.sbrk 0 1]
      (fun _ => rfl) booted ?_ ⟨keeps, by rw [stepped]; trivial⟩ run).1⟩
    intro q here
    rw [procs, update_self] at here
    rwa [← Option.some.inj here]

/-- `sbrk(-4096)` by the first process, whose size is 4096: `growproc` returns
-1 and keeps the size, but page 0 is no longer mapped. -/
theorem sbrk_all_unmaps : ∃ s p after,
    Procs.userinit smallKernel [] roomyMachine = .ok s ∧ s.procs 0 = some p ∧ p.sz = 4096 ∧
      s.Fits p ∧ s.step smallKernel (.sbrk 0 (BitVec.ofInt 32 (-4096))) = .ok after ∧
      after.returned = -1 ∧ after.procs 0 = some p ∧ after.machine.mapped p.pgdir 0 = none ∧
      ¬ after.Fits p ∧ ¬ s.Restores (.sbrk 0 (BitVec.ofInt 32 (-4096))) after := by
  obtain ⟨s, p, booted, procs, isPage, present, _, own, matched⟩ := roomyMachine_boots
  have here : s.procs 0 = some p := by
    rw [procs, update_self]
  have isLive := Procs.live_of here
  have isUser : 0 < userPages := by decide
  obtain ⟨result, m', run, rfl, own', inv, _, _, gone⟩ :=
    (growproc_all_total matched.inv isLive matched.hand (matched.small here)
      (fun v high => by
        by_contra held
        exact absurd ((matched.sized here v).mp held) (Nat.not_lt.mpr high))
      (n := BitVec.ofInt 32 (-4096)) (by decide) (by rw [isPage]; decide)).returns
  have absent : m'.mapped p.pgdir 0 = none := by
    rw [← inv.shape.user isLive isUser, gone]
  refine ⟨s, p, ⟨m', s.procs, -1⟩, booted, here, isPage, matched.fits here, ?_, rfl, here, absent,
    ?_, ?_⟩
  · simp only [Procs.step, here]
    rw [run]
    rfl
  · intro fits
    refine (fits 0 isUser).mpr ?_ absent
    rw [isPage]
    decide
  · intro restores
    exact present (((restores rfl).2 p here 0 isUser).symm.trans absent)

end Rexv6.Vm
