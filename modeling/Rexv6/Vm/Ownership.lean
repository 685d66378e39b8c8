import Rexv6.Foundation.Execution
import Rexv6.Vm.Copying

/-!
Contract: who owns each page of physical memory, over whole sequences of calls
on any number of address spaces.

Owns: the system of live directories with the size that the caller of each
tracks, the statement that every page handed out has one owner, and what
freeing a directory or failing to create one gives back.

Does not own: processes. A caller here grows, shrinks, copies and frees
directories in any order, as `exec`, `fork`, `growproc` and `wait` do.
-/

namespace Rexv6.Vm

open Rexv6.Foundation
open Rexv6.Foundation.Program
open Rexv6.Foundation.Execution (foldlM_keeps)
open Function (update update_of_ne update_self)

/-! ## The system -/

structure System where
  machine : Machine
  /-- For each live directory, the size its caller tracks. -/
  sizes : Nat → Option Nat
  /-- What the last call returned. -/
  returned : Nat

inductive Op
  | setupkvm
  | allocuvm (pgdir : Nat) (newsz : BitVec 32)
  | deallocuvm (pgdir : Nat) (newsz : BitVec 32)
  | copyuvm (pgdir : Nat)
  | freevm (pgdir : Nat)
  deriving DecidableEq, Repr

namespace System

def Live (s : System) (d : Nat) : Prop := s.sizes d ≠ none

/-- Before the first call: no directory, and no page handed out. -/
def boot (bytes : Nat → Foundation.LittleEndian.Bytes) (answers : List Nat) : System :=
  ⟨⟨bytes, answers, fun _ => 0, fun _ => 0⟩, fun _ => none, 0⟩

/-- The caller of `setupkvm` or `copyuvm` keeps a directory unless it is 0. -/
def keep (s : System) (sz : Nat) : Nat × Machine → System
  | (d, m) => ⟨m, if d = 0 then s.sizes else update s.sizes d (some sz), d⟩

/-- The caller of `allocuvm` or `deallocuvm` takes over the size that is
returned, unless it is 0. -/
def resize (s : System) (pgdir : Nat) : Nat × Machine → System
  | (sz, m) => ⟨m, if sz = 0 then s.sizes else update s.sizes pgdir (some sz), sz⟩

/-- One call. A call on a page that is no live directory does not happen. -/
def step (kernel : KernelImage) (s : System) : Op → Except Stop System
  | .setupkvm => ((setupkvm kernel).run s.machine).map (s.keep 0)
  | .allocuvm pgdir newsz =>
    match s.sizes pgdir with
    | none => .ok s
    | some sz => ((allocuvm pgdir sz newsz.toNat).run s.machine).map (s.resize pgdir)
  | .deallocuvm pgdir newsz =>
    match s.sizes pgdir with
    | none => .ok s
    | some sz => ((deallocuvm pgdir sz newsz.toNat).run s.machine).map (s.resize pgdir)
  | .copyuvm pgdir =>
    match s.sizes pgdir with
    | none => .ok s
    | some sz => ((copyuvm kernel pgdir sz).run s.machine).map (s.keep sz)
  | .freevm pgdir =>
    match s.sizes pgdir with
    | none => .ok s
    | some _ => ((freevm pgdir).run s.machine).map fun result =>
      ⟨result.2, update s.sizes pgdir none, 0⟩

def run (kernel : KernelImage) (s : System) (ops : List Op) : Except Stop System :=
  ops.foldlM (step kernel) s

def Holds (s : System) : Place → Nat → Prop
  | .dir d, page => s.Live d ∧ page = d
  | .table d k, page => s.Live d ∧ k < 1024 ∧ frame (s.machine.word d k) = some page
  | .user d vpn, page => s.Live d ∧ vpn < userPages ∧ s.machine.mapped d vpn = some page
  | .kstack _, _ => False
  | .hand, _ => False

/-- Every page has been freed as often as it was allocated and is owned
nowhere, or has been allocated once more and is owned by exactly one place. -/
def Accounted (s : System) : Prop :=
  ∀ page, (s.machine.allocs page = s.machine.frees page + 1 ∧ ∃! place, s.Holds place page) ∨
    (s.machine.allocs page = s.machine.frees page ∧ ∀ place, ¬ s.Holds place page)

/-- What a call gives back. Freeing a directory frees each of its pages once
and no other page. A failed `setupkvm` or `copyuvm` frees each page as often as
it allocated it, and no page that has an owner. -/
def Released (s : System) (op : Op) (after : System) : Prop :=
  match op with
  | .freevm pgdir => s.Live pgdir → ∀ page,
      after.machine.allocs page = s.machine.allocs page ∧
      ((∃ place, place.Of pgdir ∧ s.Holds place page) →
        after.machine.frees page = s.machine.frees page + 1) ∧
      ((∀ place, place.Of pgdir → ¬ s.Holds place page) →
        after.machine.frees page = s.machine.frees page)
  | .setupkvm | .copyuvm _ => after.returned = 0 →
      (∀ page, after.machine.allocs page + s.machine.frees page =
        s.machine.allocs page + after.machine.frees page) ∧
      ∀ place page, s.Holds place page →
        after.Holds place page ∧ after.machine.frees page = s.machine.frees page
  | _ => True

/-- A page below the size that the caller of `pgdir` tracks is not mapped. -/
def Missing (s : System) (pgdir : Nat) : Prop :=
  ∃ sz vpn, s.sizes pgdir = some sz ∧ vpn < pagesOf sz ∧ s.machine.mapped pgdir vpn = none

/-- The directories are read as `own`, and none of them maps a page at or above
the size its caller tracks. -/
structure Tracked (s : System) (own : Place → Option Nat) : Prop where
  inv : Inv s.Live s.machine own
  hand : own .hand = none
  noStack : ∀ slot, own (.kstack slot) = none
  small : ∀ {d sz}, s.sizes d = some sz → sz < kernBase
  above : ∀ {d sz}, s.sizes d = some sz → ∀ v, pagesOf sz ≤ v → own (.user d v) = none

end System

/-! ## Reading the owners off the system -/

section Reading

variable {s : System} {own : Place → Option Nat}

theorem System.Tracked.holds_iff (tracked : s.Tracked own) (place : Place) (page : Nat) :
    s.Holds place page ↔ own place = some page := by
  have shape := tracked.inv.shape
  cases place with
  | dir d =>
    constructor
    · rintro ⟨isLive, rfl⟩
      exact shape.dir isLive
    · intro holds
      have isLive : s.Live d := shape.live_of holds rfl
      rw [shape.dir isLive] at holds
      exact ⟨isLive, (Option.some.inj holds).symm⟩
  | table d k =>
    constructor
    · rintro ⟨isLive, below, framed⟩
      rw [shape.table isLive below, framed]
    · intro holds
      have isLive : s.Live d := shape.live_of holds rfl
      have below : k < 1024 := by
        by_contra large
        rw [shape.tableRange (by omega)] at holds
        exact absurd holds (by simp)
      exact ⟨isLive, below, by rw [← shape.table isLive below, holds]⟩
  | user d vpn =>
    constructor
    · rintro ⟨isLive, below, mapped⟩
      rw [shape.user isLive below, mapped]
    · intro holds
      have isLive : s.Live d := shape.live_of holds rfl
      have below : vpn < userPages := by
        by_contra large
        rw [shape.userRange (by omega)] at holds
        exact absurd holds (by simp)
      exact ⟨isLive, below, by rw [← shape.user isLive below, holds]⟩
  | kstack slot =>
    unfold System.Holds
    simp [tracked.noStack slot]
  | hand =>
    unfold System.Holds
    simp [tracked.hand]

theorem System.Tracked.accounted (tracked : s.Tracked own) : s.Accounted := by
  intro page
  by_cases held : ∃ place, own place = some page
  · obtain ⟨place, holds⟩ := held
    refine Or.inl ⟨tracked.inv.balanced.held holds, place,
      (tracked.holds_iff place page).mpr holds, ?_⟩
    intro other otherHolds
    exact tracked.inv.balanced.once ((tracked.holds_iff other page).mp otherHolds) holds
  · refine Or.inr ⟨tracked.inv.balanced.idle fun place holds => held ⟨place, holds⟩, ?_⟩
    intro place holds
    exact held ⟨place, (tracked.holds_iff place page).mp holds⟩

end Reading

/-! ## One call -/

section Step

variable {s : System} {own : Place → Option Nat} {m' : Machine}

theorem System.live_update {d sz : Nat} (e : Nat) :
    update s.sizes d (some sz) e ≠ none ↔ e = d ∨ s.Live e := by
  unfold System.Live
  by_cases same : e = d
  · simp [same]
  · simp [same]

/-- A failed call changes no owner, and frees what it allocated. -/
theorem System.Tracked.failed (tracked : s.Tracked own)
    (failed : Failed s.Live s.machine own m') :
    (⟨m', s.sizes, 0⟩ : System).Tracked own ∧
      (∀ page, m'.allocs page + s.machine.frees page = s.machine.allocs page + m'.frees page) ∧
      ∀ place page, s.Holds place page → (⟨m', s.sizes, 0⟩ : System).Holds place page ∧
        m'.frees page = s.machine.frees page := by
  have after : (⟨m', s.sizes, 0⟩ : System).Tracked own :=
    ⟨failed.inv, tracked.hand, tracked.noStack, tracked.small, tracked.above⟩
  refine ⟨after, failed.balance tracked.inv, ?_⟩
  · intro place page holds
    rw [tracked.holds_iff] at holds
    refine ⟨(after.holds_iff place page).mpr holds, ?_⟩
    have one := tracked.inv.balanced.held holds
    have two := failed.inv.balanced.held holds
    have kept := (failed.kept holds).1
    omega

/-- A new directory is tracked with a size from which on it maps nothing. -/
theorem System.Tracked.created {d sz : Nat} {own' : Place → Option Nat} (tracked : s.Tracked own)
    (created : Created s.Live s.machine own d m' own') (small : sz < kernBase)
    (above : ∀ v, pagesOf sz ≤ v → own' (.user d v) = none) :
    (s.keep sz (d, m')).Tracked own' := by
  have sizes : (s.keep sz (d, m')).sizes = update s.sizes d (some sz) :=
    if_neg created.notZero
  constructor
  · apply created.inv.of_live
    intro e
    unfold System.Live
    rw [sizes]
    exact System.live_update e
  · exact created.hand
  · intro slot
    rw [created.elsewhere.places (by simp [Place.Of]) (by simp), tracked.noStack]
  · intro e size isSize
    rw [sizes] at isSize
    by_cases same : e = d
    · rw [same, update_self] at isSize
      rwa [← Option.some.inj isSize]
    · rw [update_of_ne same] at isSize
      exact tracked.small isSize
  · intro e size isSize v isLow
    rw [sizes] at isSize
    by_cases same : e = d
    · rw [same, update_self] at isSize
      rw [← Option.some.inj isSize] at isLow
      rw [same]
      exact above v isLow
    · rw [update_of_ne same] at isSize
      rw [created.elsewhere.user same]
      exact tracked.above isSize v isLow

/-- A directory whose user pages changed is tracked with the new size, if it
maps nothing from there on. -/
theorem System.Tracked.resized {pgdir sz result : Nat} {own' : Place → Option Nat}
    (tracked : s.Tracked own) (size : s.sizes pgdir = some sz) (inv : Inv s.Live m' own')
    (elsewhere : Elsewhere pgdir s.machine own m' own') (hand : own' .hand = none)
    (small : result < kernBase)
    (above : ∀ v, pagesOf (if result = 0 then sz else result) ≤ v → own' (.user pgdir v) = none) :
    (s.resize pgdir (result, m')).Tracked own' := by
  have sizes : ∀ e, (s.resize pgdir (result, m')).sizes e =
      if e = pgdir then some (if result = 0 then sz else result) else s.sizes e := by
    intro e
    unfold System.resize
    by_cases zero : result = 0
    · simp only [zero, if_true]
      split
      · rename_i same
        rw [same, size]
      · rfl
    · simp only [zero, if_false]
      by_cases same : e = pgdir
      · rw [same, update_self, if_pos rfl]
      · rw [update_of_ne same, if_neg same]
  constructor
  · apply inv.of_live
    intro e
    unfold System.Live
    rw [sizes]
    by_cases same : e = pgdir
    · simp [same, size]
    · simp [same]
  · exact hand
  · intro slot
    rw [elsewhere.places (by simp [Place.Of]) (by simp), tracked.noStack]
  · intro e size' isSize
    rw [sizes] at isSize
    split at isSize
    · rw [← Option.some.inj isSize]
      split
      · exact tracked.small size
      · exact small
    · exact tracked.small isSize
  · intro e size' isSize v isLow
    rw [sizes] at isSize
    split at isSize
    · rename_i same
      rw [← Option.some.inj isSize] at isLow
      rw [same]
      exact above v isLow
    · rename_i different
      rw [elsewhere.user different]
      exact tracked.above isSize v isLow

/-- What is known of the outcome of a call: a state with an owner for every
page, with the pages given back as promised, or a panic of `copyuvm`. -/
def System.Sound (s : System) (op : Op) : Except Stop System → Prop
  | .ok after => (∃ own, after.Tracked own) ∧ s.Released op after
  | .error _ => ∃ pgdir, op = .copyuvm pgdir ∧ s.Missing pgdir

theorem System.Tracked.setupkvm (kernel : KernelImage) (tracked : s.Tracked own) :
    s.Sound .setupkvm (s.step kernel .setupkvm) := by
  apply (setupkvm_total kernel tracked.inv tracked.hand).outcome
  · rintro d m' ⟨⟨rfl, failed⟩ | ⟨own', created, noUser⟩, _⟩
    · obtain ⟨after, balance, kept⟩ := tracked.failed failed
      exact ⟨⟨own, after⟩, fun _ => ⟨balance, kept⟩⟩
    · refine ⟨⟨own', tracked.created created (by decide) fun v _ => noUser v⟩, ?_⟩
      intro returned
      exact absurd returned created.notZero
  · intro stop impossible
    exact impossible.elim

theorem System.live_of_size {pgdir sz : Nat} (size : s.sizes pgdir = some sz) : s.Live pgdir := by
  unfold System.Live
  rw [size]
  simp

theorem System.Tracked.copyuvm (kernel : KernelImage) (tracked : s.Tracked own) (pgdir : Nat) :
    s.Sound (.copyuvm pgdir) (s.step kernel (.copyuvm pgdir)) := by
  cases size : s.sizes pgdir with
  | none =>
    simp only [System.step, size]
    refine ⟨⟨own, tracked⟩, fun _ => ⟨fun _ => rfl, fun place page holds => ⟨holds, rfl⟩⟩⟩
  | some sz =>
    have small := tracked.small size
    have isLive := System.live_of_size size
    simp only [System.step, size]
    apply (copyuvm_meets kernel tracked.inv tracked.hand (fun d notLive => tracked.inv.apart isLive
      fun same => notLive (same ▸ isLive)) small.le).outcome
    · rintro d m' (⟨rfl, failed, _⟩ | ⟨own', created, copied, _⟩)
      · obtain ⟨after, balance, kept⟩ := tracked.failed failed
        exact ⟨⟨own, after⟩, fun _ => ⟨balance, kept⟩⟩
      · refine ⟨⟨own', tracked.created created small ?_⟩, ?_⟩
        · intro v isLow
          by_contra isCopied
          exact absurd ((copied v).mp isCopied) (by omega)
        · intro returned
          exact absurd returned created.notZero
    · rintro stop ⟨_, v, below, missing⟩
      exact ⟨pgdir, rfl, sz, v, size, below, missing⟩

theorem System.Tracked.allocuvm (kernel : KernelImage) (tracked : s.Tracked own) (pgdir : Nat)
    (newsz : BitVec 32) :
    s.Sound (.allocuvm pgdir newsz) (s.step kernel (.allocuvm pgdir newsz)) := by
  cases size : s.sizes pgdir with
  | none =>
    simp only [System.step, size]
    exact ⟨⟨own, tracked⟩, trivial⟩
  | some sz =>
    have small := tracked.small size
    have above := tracked.above size
    simp only [System.step, size]
    apply (allocuvm_total tracked.inv (System.live_of_size size) tracked.hand small.le
      above).outcome
    · rintro result m' ⟨own', allocated⟩
      refine ⟨⟨own', tracked.resized size allocated.inv allocated.elsewhere allocated.hand ?_ ?_⟩,
        trivial⟩
      · rcases allocated.outcome with ⟨rfl, _⟩ | ⟨_, newSmall, rfl, _⟩ | ⟨_, rfl, _⟩
        · decide
        · exact newSmall
        · exact small
      · intro v isLow
        unfold pagesOf at above isLow
        rcases allocated.outcome with ⟨rfl, same, _⟩ | ⟨grows, _, rfl, _, others, _⟩ |
          ⟨_, rfl, same, _⟩
        · rw [same v]
          exact above v isLow
        · have reaches : (sz + 4095) / 4096 ≤ v := by
            split at isLow <;> omega
          rw [others v (by unfold pagesOf; split at isLow <;> omega)]
          exact above v reaches
        · rw [same v]
          rw [ite_self] at isLow
          exact above v isLow
    · intro stop impossible
      exact impossible.elim

theorem System.Tracked.deallocuvm (kernel : KernelImage) (tracked : s.Tracked own) (pgdir : Nat)
    (newsz : BitVec 32) :
    s.Sound (.deallocuvm pgdir newsz) (s.step kernel (.deallocuvm pgdir newsz)) := by
  cases size : s.sizes pgdir with
  | none =>
    simp only [System.step, size]
    exact ⟨⟨own, tracked⟩, trivial⟩
  | some sz =>
    have small := tracked.small size
    have above := tracked.above size
    simp only [System.step, size]
    apply (deallocuvm_total tracked.inv (System.live_of_size size) small.le).outcome
    · rintro result m' ⟨rfl, own', unmapped⟩
      refine ⟨⟨own', tracked.resized size unmapped.inv unmapped.elsewhere ?_ (by omega) ?_⟩,
        trivial⟩
      · rw [unmapped.hand, tracked.hand]
      · intro v isLow
        by_cases inside : pagesOf newsz.toNat ≤ v ∧ v < pagesOf sz
        · exact unmapped.gone v inside.1 inside.2
        · rw [unmapped.rest _ (by simp; omega)]
          apply above
          unfold pagesOf at inside isLow ⊢
          split at isLow <;> omega
    · intro stop impossible
      exact impossible.elim

theorem System.Tracked.freed {pgdir : Nat} (tracked : s.Tracked own)
    (inv : Inv (fun e => s.Live e ∧ e ≠ pgdir) m' (strip pgdir own)) :
    (⟨m', update s.sizes pgdir none, 0⟩ : System).Tracked (strip pgdir own) := by
  have sizeOf : ∀ {e sz}, update s.sizes pgdir none e = some sz →
      e ≠ pgdir ∧ s.sizes e = some sz := by
    intro e sz size
    by_cases same : e = pgdir
    · rw [same, update_self] at size
      exact absurd size (by simp)
    · rw [update_of_ne same] at size
      exact ⟨same, size⟩
  constructor
  · apply inv.of_live
    intro e
    unfold System.Live
    by_cases same : e = pgdir
    · simp [same]
    · simp [same]
  · rw [strip_not (by simp [Place.Of]), tracked.hand]
  · intro slot
    rw [strip_not (by simp [Place.Of]), tracked.noStack]
  · intro e sz size
    exact tracked.small (sizeOf size).2
  · intro e sz size v isLow
    obtain ⟨other, before⟩ := sizeOf size
    rw [strip_not (show ¬ (Place.user e v).Of pgdir from other)]
    exact tracked.above before v isLow

theorem System.Tracked.freevm (kernel : KernelImage) (tracked : s.Tracked own) (pgdir : Nat) :
    s.Sound (.freevm pgdir) (s.step kernel (.freevm pgdir)) := by
  cases size : s.sizes pgdir with
  | none =>
    simp only [System.step, size]
    refine ⟨⟨own, tracked⟩, fun isLive => absurd size isLive⟩
  | some sz =>
    simp only [System.step, size]
    apply (freevm_total tracked.inv (System.live_of_size size)).outcome
    · rintro _ m' ⟨inv, allocs, _⟩
      refine ⟨⟨strip pgdir own, ?_⟩, ?_⟩
      · exact tracked.freed inv
      · intro _ page
        refine ⟨by rw [allocs], ?_, ?_⟩
        · rintro ⟨place, ofDir, holds⟩
          rw [tracked.holds_iff] at holds
          have one := tracked.inv.balanced.held holds
          have two : m'.allocs page = m'.frees page := by
            apply inv.balanced.idle
            intro other stripped
            obtain ⟨notOf, otherHolds⟩ := strip_eq_some.mp stripped
            exact notOf (tracked.inv.balanced.once holds otherHolds ▸ ofDir)
          rw [allocs] at two
          exact two.symm.trans one
        · intro notOwned
          by_cases held : ∃ place, own place = some page
          · obtain ⟨place, holds⟩ := held
            have notOf : ¬ place.Of pgdir := fun ofDir =>
              notOwned place ofDir ((tracked.holds_iff place page).mpr holds)
            have one := tracked.inv.balanced.held holds
            have two := inv.balanced.held (strip_eq_some.mpr ⟨notOf, holds⟩)
            rw [allocs] at two
            exact Nat.succ.inj (two.symm.trans one)
          · have one := tracked.inv.balanced.idle fun place holds => held ⟨place, holds⟩
            have two := inv.balanced.idle fun place holds =>
              held ⟨place, (strip_eq_some.mp holds).2⟩
            rw [allocs] at two
            exact two.symm.trans one
    · intro stop impossible
      exact impossible.elim

theorem System.Tracked.step (kernel : KernelImage) (tracked : s.Tracked own) (op : Op) :
    s.Sound op (s.step kernel op) := by
  cases op with
  | setupkvm => exact tracked.setupkvm kernel
  | allocuvm pgdir newsz => exact tracked.allocuvm kernel pgdir newsz
  | deallocuvm pgdir newsz => exact tracked.deallocuvm kernel pgdir newsz
  | copyuvm pgdir => exact tracked.copyuvm kernel pgdir
  | freevm pgdir => exact tracked.freevm kernel pgdir

end Step

/-! ## Whole runs -/

theorem System.boot_tracked (bytes : Nat → Foundation.LittleEndian.Bytes) (answers : List Nat) :
    (System.boot bytes answers).Tracked fun _ => none := by
  constructor
  · apply (Inv.empty _ fun _ => rfl).of_live
    intro d
    exact iff_of_false (fun isLive => isLive rfl) id
  · rfl
  · intro slot
    rfl
  · intro d sz size
    exact absurd size (by simp [System.boot])
  · intro d sz size
    exact absurd size (by simp [System.boot])

theorem System.run_tracked (kernel : KernelImage) {s final : System}
    (start : ∃ own, s.Tracked own) {ops : List Op} (run : s.run kernel ops = .ok final) :
    ∃ own, final.Tracked own := by
  refine foldlM_keeps (fun s => ∃ own, System.Tracked s own) ?_ ops start run
  rintro before op after ⟨own, tracked⟩ stepped
  have sound := tracked.step kernel op
  rw [stepped] at sound
  exact sound.1

/-- Whatever the allocator answers: in every state reached, every page handed
out has exactly one owner and every other page has been freed as often as it
was allocated; the next call keeps it so and gives back what it should. Only
`copyuvm` can fail to return, for a directory that does not map all pages below
its size. -/
theorem page_ownership (kernel : KernelImage) (bytes : Nat → Foundation.LittleEndian.Bytes)
    (answers : List Nat) {ops : List Op} {s : System}
    (run : (System.boot bytes answers).run kernel ops = .ok s) :
    s.Accounted ∧ ∀ op,
      match s.step kernel op with
      | .ok after => after.Accounted ∧ s.Released op after
      | .error _ => ∃ pgdir, op = .copyuvm pgdir ∧ s.Missing pgdir := by
  obtain ⟨own, tracked⟩ := System.run_tracked kernel ⟨_, System.boot_tracked bytes answers⟩ run
  refine ⟨tracked.accounted, ?_⟩
  intro op
  have sound := tracked.step kernel op
  cases stepped : s.step kernel op with
  | error stop =>
    rw [stepped] at sound
    exact sound
  | ok after =>
    rw [stepped] at sound
    obtain ⟨⟨own', tracked'⟩, released⟩ := sound
    exact ⟨tracked'.accounted, released⟩

/-- With a single page left, `setupkvm` takes it for the directory, finds no
page table and gives it back. -/
theorem page_ownership_one_page : ∃ s,
    (System.boot (fun _ _ => 0) [5]).run smallKernel [.setupkvm] = .ok s ∧ s.Accounted ∧
      s.machine.allocs 5 = 1 ∧ s.machine.frees 5 = 1 := by
  have counts : (((System.boot (fun _ _ => 0) [5]).run smallKernel [.setupkvm]).toOption.map
      fun s => (s.machine.allocs 5, s.machine.frees 5)) = some (1, 1) := by
    decide +kernel
  cases run : (System.boot (fun _ _ => 0) [5]).run smallKernel [.setupkvm] with
  | error stop =>
    rw [run] at counts
    exact absurd counts (by simp [Except.toOption])
  | ok s =>
    rw [run] at counts
    have both := Option.some.inj counts
    exact ⟨s, rfl, (page_ownership smallKernel _ _ run).1, congrArg Prod.fst both,
      congrArg Prod.snd both⟩

end Rexv6.Vm
