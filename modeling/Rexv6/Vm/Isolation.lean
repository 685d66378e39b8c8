import Rexv6.Vm.ProcessSize

/-!
Contract: what `copyuvm` leaves behind, for any page directory.

Owns: the copy of an address space, that later writes through one directory are
not seen through the other, and that a failure gives back what was taken.

Does not own: the caller; `fork` keeps the copy.
-/

namespace Rexv6.Vm

open Rexv6.Foundation
open Rexv6.Foundation.Program
open Rexv6.Foundation.LittleEndian (Bytes)
open Function (update_self)

def Machine.writes (m : Machine) (contents : List (Nat × Bytes)) : Machine :=
  contents.foldl (fun m write => m.fill write.1 write.2) m

/-- Every page that is written to is user memory of directory `e`. -/
def Through (m : Machine) (e : Nat) (contents : List (Nat × Bytes)) : Prop :=
  ∀ write ∈ contents, ∃ v < userPages, m.mapped e v = some write.1

section Writes

variable {m : Machine} {d e : Nat}

theorem bytes_writes {page : Nat} : ∀ (contents : List (Nat × Bytes)) (m : Machine),
    (∀ write ∈ contents, write.1 ≠ page) → (m.writes contents).bytes page = m.bytes page := by
  intro contents
  induction contents with
  | nil =>
    intro m _
    rfl
  | cons write contents ih =>
    intro m others
    have here := others write List.mem_cons_self
    exact (ih _ fun write later => others write (List.mem_cons_of_mem _ later)).trans
      (Machine.bytes_fill_of_ne m here.symm)

/-- Writes through a directory that shares no page with `e` are not seen through
`e`. -/
theorem view_writes (disjoint : ∀ page, m.Uses d page → ¬ m.Uses e page)
    {contents : List (Nat × Bytes)} (through : Through m d contents) {v : Nat}
    (inSpace : v < addressPages) : (m.writes contents).view e v = m.view e v := by
  refine (view_of_uses (fun page uses => bytes_writes contents m ?_) inSpace).2
  rintro write isWrite rfl
  exact disjoint write.1 (Or.inr (through write isWrite)) uses

end Writes

section Copying

variable {m m' : Machine} {pgdir d : Nat} {own' : Place → Option Nat}

/-- Pages that were in use stay apart from a new directory. -/
theorem inUse_apart (inUse : ∀ page, m.Uses pgdir page → m.allocs page = m.frees page + 1)
    (d : Nat) :
    Apart m.inUse d m pgdir := fun page uses =>
  ⟨.kstack page, Place.kstack_outside page d, by simp, inUse_eq_some.mpr ⟨rfl, inUse page uses⟩⟩

/-- A new directory shares no page with one whose pages are held elsewhere. -/
theorem Created.disjoint {live : Nat → Prop} {own : Place → Option Nat}
    (created : Created live m own d m' own') (apart : Apart own d m pgdir) (page : Nat)
    (uses : m'.Uses d page) : ¬ m'.Uses pgdir page := by
  intro shared
  obtain ⟨place, notOf, _, holds⟩ := apart.elsewhere created.elsewhere page shared
  obtain ⟨other, ofD, also⟩ := created.inv.held_of_uses (Or.inl rfl) uses
  exact notOf (created.inv.balanced.once holds also ▸ ofD)

end Copying

/-- For every directory whose pages are in use and whose user pages below the size
are present, and every sequence of answers of the allocator, `copyuvm` returns.
The pages of the directory are as before. It returns 0, when `kalloc` has not got
enough pages and with every page freed as often as it was taken, or a directory
with the same bytes and flags below the size, no other user page and the kernel
part of `setupkvm`. That directory shares no page with the old one, so that no
writes to user memory through one of them are seen through the other. -/
theorem copyuvm_copies_and_isolates (kernel : KernelImage) (m : Machine) (pgdir sz : Nat)
    (once : HandedOutOnce m)
    (inUse : ∀ page, m.Uses pgdir page → m.allocs page = m.frees page + 1)
    (small : sz ≤ kernBase) (present : ∀ v < pagesOf sz, m.mapped pgdir v ≠ none) :
    ∃ d m', (copyuvm kernel pgdir sz).run m = .ok (d, m') ∧
      (∀ page, m.Uses pgdir page → m'.bytes page = m.bytes page) ∧
      ((d = 0 ∧ ¬ Plenty (2 * pagesOf sz + 201) m ∧
          ∀ page, m'.allocs page + m.frees page = m.allocs page + m'.frees page) ∨
        (d ≠ 0 ∧ (∀ v < pagesOf sz, m'.view d v = m.view pgdir v) ∧
          (∀ v < userPages, m'.mapped d v ≠ none ↔ v < pagesOf sz) ∧
          (∀ v < addressPages, userPages ≤ v → m'.present d v = kmapEntry (kmap kernel) v) ∧
          (∀ v < userPages, ∀ w < userPages, ∀ page, m'.mapped d v = some page →
            m'.mapped d w = some page → v = w) ∧
          (∀ page, m'.Uses d page → ¬ m'.Uses pgdir page) ∧
          ∀ contents, ∀ v < addressPages,
            (Through m' d contents → (m'.writes contents).view pgdir v = m'.view pgdir v) ∧
            (Through m' pgdir contents → (m'.writes contents).view d v = m'.view d v))) := by
  have apart := inUse_apart inUse
  have sizeBound := pagesOf_le_userPages small
  have copies := copyuvm_meets kernel once.inv rfl (fun d _ => apart d) small
  cases ran : (copyuvm kernel pgdir sz).run m with
  | error stop =>
    obtain ⟨_, v, below, missing⟩ := copies.of_stop ran
    exact absurd missing (present v below)
  | ok result =>
    obtain ⟨d, m'⟩ := result
    refine ⟨d, m', rfl, ?_⟩
    rcases copies.of_run ran with ⟨zero, failed, scarce⟩ | ⟨own', created, sized, views⟩
    · refine ⟨fun page uses => ?_, Or.inl ⟨zero, scarce, failed.balance once.inv⟩⟩
      exact (failed.kept (inUse_eq_some.mpr ⟨rfl, inUse page uses⟩)).2
    · have users : ∀ v < userPages, own' (.user d v) = m'.mapped d v := fun v isUser =>
        created.inv.shape.user (Or.inl rfl) isUser
      have disjoint := created.disjoint (apart d)
      refine ⟨(apart d).bytes created.elsewhere, Or.inr ⟨created.notZero, fun v below => ?_,
        fun v isUser => ?_, fun v inSpace isKernel => ?_, fun v vUser w wUser page isV isW => ?_,
        disjoint, fun contents v inSpace => ⟨fun through => ?_, fun through => ?_⟩⟩⟩
      · rw [views v (lt_of_lt_of_le (lt_of_lt_of_le below sizeBound) (by decide)), if_pos below]
      · rw [← users v isUser]
        exact sized v
      · have view := views v inSpace
        rw [if_neg (by omega)] at view
        unfold Machine.view at view
        simpa [Nat.not_lt.mpr isKernel, Option.map_inj_right] using view
      · rw [← users v vUser] at isV
        rw [← users w wUser] at isW
        simpa using created.inv.balanced.once isV isW
      · exact view_writes disjoint through inSpace
      · exact view_writes (fun page uses also => disjoint page also uses) through inSpace

/-- The first process can be copied. -/
theorem copyuvm_copies_first_process : ∃ s p d m',
    Procs.userinit smallKernel [] roomyMachine = .ok s ∧ s.procs 0 = some p ∧ p.sz = pgSize ∧
      (copyuvm smallKernel p.pgdir p.sz).run s.machine = .ok (d, m') ∧ d ≠ 0 ∧
      m'.view d 0 = s.machine.view p.pgdir 0 := by
  obtain ⟨s, p, booted, procs, isPage, _, plenty, own, matched⟩ := roomyMachine_boots
  have here : s.procs 0 = some p := by
    rw [procs, update_self]
  have isLive := Procs.live_of here
  have sizeBound := pagesOf_le_userPages (matched.small here)
  obtain ⟨d, m', ran, _, outcome⟩ := copyuvm_copies_and_isolates smallKernel s.machine p.pgdir p.sz
    matched.inv.handedOutOnce
    (fun page uses => by
      obtain ⟨place, _, holds⟩ := matched.inv.held_of_uses isLive uses
      exact matched.inv.balanced.held holds)
    (matched.small here)
    (fun v below => by
      rw [← matched.inv.shape.user isLive (by omega)]
      exact (matched.sized here v).mpr below)
  rcases outcome with ⟨_, scarce, _⟩ | ⟨notZero, copied, _⟩
  · exact absurd (plenty.mono (by rw [isPage]; decide)) scarce
  · exact ⟨s, p, d, m', booted, here, isPage, ran, notZero, copied 0 (by rw [isPage]; decide)⟩

end Rexv6.Vm
