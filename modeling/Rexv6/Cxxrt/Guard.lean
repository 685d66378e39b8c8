import Rexv6.Foundation.Headcount
import Rexv6.Foundation.Mutex
import Rexv6.Locking.Interrupts

/-!
Contract: a static object is initialised once, by one caller.

Owns: `__cxa_guard_acquire`, `__cxa_guard_release` and `__cxa_guard_abort` of
`lib/libkcxxrt/cxxabi.cc` on one guard, for any callers on any CPUs, cut at each access to
the guard, and their `pushcli` and `popcli`.

Does not own: what the initialiser does, except that it takes and releases other locks, and
`__sync_synchronize`: the accesses to the guard happen one after the other.
-/

namespace Rexv6.Cxxrt

open Rexv6.Foundation (Headcount Held)
open Rexv6.Foundation.Execution (Along foldlM_keeps)
open Rexv6.Locking.Interrupts (Stop pushcli popcli)
open Rexv6.Locking.Interrupts.Cpu (Masked)
open Function (update update_eq_self update_self update_of_ne)

/-! ## The guard -/

/-- `*x`, the first byte of the guard. -/
def doneByte (guard : BitVec 64) : BitVec 8 := guard.setWidth 8

/-- `*l`, the last four bytes. -/
def spinWord (guard : BitVec 64) : BitVec 32 := (guard >>> 32).setWidth 32

/-- `*x = value`. -/
def setDone (guard : BitVec 64) (value : BitVec 8) : BitVec 64 :=
  (guard >>> 8) <<< 8 ||| value.setWidth 64

/-- `*l = value`. -/
def setSpin (guard : BitVec 64) (value : BitVec 32) : BitVec 64 :=
  (guard.setWidth 32).setWidth 64 ||| value.setWidth 64 <<< 32

@[simp] theorem doneByte_setDone (guard : BitVec 64) (value : BitVec 8) :
    doneByte (setDone guard value) = value := by
  apply BitVec.eq_of_getLsbD_eq
  intro i low
  simp [doneByte, setDone, low]

@[simp] theorem spinWord_setDone (guard : BitVec 64) (value : BitVec 8) :
    spinWord (setDone guard value) = spinWord guard := by
  apply BitVec.eq_of_getLsbD_eq
  intro i low
  have inside : 32 + i < 64 := by omega
  have high : 8 ≤ 32 + i := by omega
  simp [spinWord, setDone, low, inside, Nat.not_lt.mpr high, Nat.add_sub_cancel' high,
    BitVec.getLsbD_of_ge value _ high]

@[simp] theorem doneByte_setSpin (guard : BitVec 64) (value : BitVec 32) :
    doneByte (setSpin guard value) = doneByte guard := by
  apply BitVec.eq_of_getLsbD_eq
  intro i low
  simp [doneByte, setSpin, low]

@[simp] theorem spinWord_setSpin (guard : BitVec 64) (value : BitVec 32) :
    spinWord (setSpin guard value) = value := by
  apply BitVec.eq_of_getLsbD_eq
  intro i low
  have inside : 32 + i < 64 := by omega
  simp [spinWord, setSpin, low, inside]

/-! ## The callers -/

/-- Where a caller stands, with its CPU: in the loop of `__cxa_guard_acquire`, before the test
of `*x`, after a test that succeeded, before the `popcli` of that branch; between a call that
returned 1 and its release or abort; after the store of `__cxa_guard_release`; and before the
`popcli` of `__cxa_guard_release` or `__cxa_guard_abort`. -/
inductive Pc (ι : Type) where
  | out
  | spinning (c : ι)
  | entered (c : ι)
  | found (c : ι)
  | refused (c : ι)
  | initializing (c : ι)
  | published (c : ι)
  | leaving (c : ι)
deriving DecidableEq, Repr

namespace Pc

variable {ι : Type}

/-- The CPU on which the caller has called `pushcli`. -/
def cpu : Pc ι → Option ι
  | .out => none
  | .spinning c | .entered c | .found c | .refused c | .initializing c | .published c
  | .leaving c => some c

def On (c : ι) (pc : Pc ι) : Prop := pc.cpu = some c

theorem not_on_out {c : ι} : ¬ On c .out := nofun

/-- The caller's `xchg` found the word free, and it has not freed it again. -/
def locks : Pc ι → Bool
  | .entered _ | .found _ | .initializing _ | .published _ => true
  | _ => false

/-- The caller's acquire has returned 1, and its release or abort has not freed the word. -/
def initializes : Pc ι → Bool
  | .initializing _ | .published _ => true
  | _ => false

theorem locks_of_initializes {pc : Pc ι} (initializes : pc.initializes = true) :
    pc.locks = true := by
  cases pc with
  | initializing | published => rfl
  | _ => cases initializes

/-- The caller is in `__cxa_guard_release`, and has not freed the word. -/
def publishes : Pc ι → Bool
  | .published _ => true
  | _ => false

def finds : Pc ι → Bool
  | .found _ | .refused _ => true
  | _ => false

end Pc

/-- What callers do. `release` is the first access of `__cxa_guard_release`, `released` its
last, and `abort` the only one of `__cxa_guard_abort`. -/
inductive Event where
  | pushcli
  | popcli
  | acquired (result : Bool)
  | release
  | released
  | abort
deriving DecidableEq, Repr

/-- The event begins or ends the time between an acquire that returned 1 and its release or
abort. -/
def Event.turns : Event → Option Bool
  | .acquired result => some result
  | .released | .abort => some false
  | _ => none

@[simp] def tell {τ : Type} (t : τ) : List Event → List (τ × Event) → List (τ × Event)
  | [], trace => trace
  | event :: events, trace => (t, event) :: tell t events trace

/-- `struct cpu` without threads and locks. -/
abbrev Cpu := Rexv6.Locking.Interrupts.Cpu Empty Empty

structure State (ι τ : Type) where
  guard : BitVec 64
  cpus : ι → Cpu
  /-- The calls of `pushcli` on a CPU by other code that have no `popcli` yet. -/
  others : ι → Nat
  pc : τ → Pc ι
  /-- What has happened, the last event first. -/
  trace : List (τ × Event)

/-- `next` goes on with the function a caller is in. The last three are steps of other code on
a CPU: of the initialiser, of an interrupt handler, and of whoever called. -/
inductive Action (ι τ : Type) where
  | acquire (t : τ) (c : ι)
  | release (t : τ)
  | abort (t : τ)
  | next (t : τ)
  | pushcli (c : ι)
  | popcli (c : ι)
  | interrupts (c : ι) (flag : Bool)

namespace State

variable {ι τ : Type}

def boot (flags : ι → Bool) : State ι τ where
  guard := 0
  cpus c := ⟨0, false, flags c, none, .ready⟩
  others _ := 0
  pc _ := .out
  trace := []

variable [DecidableEq ι] [DecidableEq τ]

def setCpu (s : State ι τ) (c : ι) (cpu : Cpu) : State ι τ :=
  { s with cpus := update s.cpus c cpu }

def move (s : State ι τ) (t : τ) (pc : Pc ι) (guard : BitVec 64) (events : List Event) :
    State ι τ :=
  { s with
    guard
    pc := update s.pc t pc
    trace := tell t events s.trace }

/-- `__cxa_guard_acquire` up to its loop. -/
def acquire (s : State ι τ) (t : τ) (c : ι) : Except Stop (State ι τ) :=
  if s.pc t = .out then
    .ok ((s.setCpu c (pushcli (s.cpus c))).move t (.spinning c) s.guard [.pushcli])
  else .error .disabled

/-- `*x = 1` of `__cxa_guard_release`. -/
def release (s : State ι τ) (t : τ) : Except Stop (State ι τ) :=
  match s.pc t with
  | .initializing c => .ok (s.move t (.published c) (setDone s.guard 1) [.release])
  | _ => .error .disabled

/-- `xchg(l, 0)` of `__cxa_guard_abort`. -/
def abort (s : State ι τ) (t : τ) : Except Stop (State ι τ) :=
  match s.pc t with
  | .initializing c => .ok (s.move t (.leaving c) (setSpin s.guard 0) [.abort])
  | _ => .error .disabled

/-- The `popcli` at the end of a function, and its return. -/
def finish (s : State ι τ) (t : τ) (c : ι) (events : List Event) : Except Stop (State ι τ) := do
  let cpu ← popcli (s.cpus c)
  pure ((s.setCpu c cpu).move t .out s.guard events)

def next (s : State ι τ) (t : τ) : Except Stop (State ι τ) :=
  match s.pc t with
  | .spinning c =>
    if spinWord s.guard ≠ 0 then .ok (s.move t (.spinning c) (setSpin s.guard 1) [])
    else .ok (s.move t (.entered c) (setSpin s.guard 1) [])
  | .entered c =>
    if doneByte s.guard ≠ 0 then .ok (s.move t (.found c) s.guard [])
    else .ok (s.move t (.initializing c) s.guard [.acquired true])
  | .found c => .ok (s.move t (.refused c) (setSpin s.guard 0) [])
  | .refused c => s.finish t c [.acquired false, .popcli]
  | .published c => .ok (s.move t (.leaving c) (setSpin s.guard 0) [.released])
  | .leaving c => s.finish t c [.popcli]
  | .out | .initializing _ => .error .disabled

def step (s : State ι τ) : Action ι τ → Except Stop (State ι τ)
  | .acquire t c => s.acquire t c
  | .release t => s.release t
  | .abort t => s.abort t
  | .next t => s.next t
  | .pushcli c =>
    .ok { s.setCpu c (pushcli (s.cpus c)) with others := update s.others c (s.others c + 1) }
  | .popcli c =>
    if s.others c = 0 then .error .disabled
    else do
      let cpu ← popcli (s.cpus c)
      pure { s.setCpu c cpu with others := update s.others c (s.others c - 1) }
  | .interrupts c flag =>
    if (s.cpus c).ncli = 0 then .ok (s.setCpu c { s.cpus c with flag })
    else .error .disabled

end State

/-! ## What the trace says -/

section Trace

variable {τ : Type} [DecidableEq τ]

/-- The caller is between an acquire that returned 1 and its release or abort. -/
def initializing (t : τ) : List (τ × Event) → Bool
  | [] => false
  | (u, event) :: earlier =>
    if u = t then event.turns.getD (initializing t earlier) else initializing t earlier

/-- An acquire may return 1 if no release has begun, and 0 if one has freed the word. -/
def Answers (result : Bool) (earlier : List (τ × Event)) : Prop :=
  if result = true then ∀ u, (u, .release) ∉ earlier else ∃ u, (u, .released) ∈ earlier

def Explained (trace : List (τ × Event)) : Prop :=
  ∀ t result earlier, (t, .acquired result) :: earlier <:+ trace → Answers result earlier

omit [DecidableEq τ] in
theorem Explained.cons {trace : List (τ × Event)} (explained : Explained trace) {t : τ}
    {event : Event} (answers : ∀ result, event = .acquired result → Answers result trace) :
    Explained ((t, event) :: trace) := by
  intro u result earlier suffix
  cases List.suffix_cons_iff.mp suffix with
  | inl same =>
    injection same with first rest
    injection first with _ isEvent
    rw [rest]
    exact answers result isEvent.symm
  | inr older => exact explained u result earlier older

variable {t u : τ} (different : u ≠ t) (trace : List (τ × Event))
include different

theorem initializing_other :
    ∀ events : List Event, initializing u (tell t events trace) = initializing u trace
  | [] => rfl
  | event :: events => by
      rw [tell, initializing, if_neg different.symm]
      exact initializing_other events

theorem count_other (event : Event) :
    ∀ events : List Event, (tell t events trace).count (u, event) = trace.count (u, event)
  | [] => rfl
  | other :: events => by
      rw [tell, List.count_cons_of_ne]
      · exact count_other event events
      · intro same
        exact different (Prod.mk.inj same).1.symm

end Trace

/-! ## The guard and the trace -/

/-- What one step of a caller does to its place and to the guard, and what it adds to the
trace. -/
inductive Moves {ι : Type} :
    Pc ι → BitVec 64 → Pc ι → BitVec 64 → List Event → Prop
  | acquire c guard : Moves .out guard (.spinning c) guard [.pushcli]
  | spin c guard (taken : spinWord guard ≠ 0) :
      Moves (.spinning c) guard (.spinning c) (setSpin guard 1) []
  | enter c guard (free : spinWord guard = 0) :
      Moves (.spinning c) guard (.entered c) (setSpin guard 1) []
  | find c guard (isDone : doneByte guard ≠ 0) :
      Moves (.entered c) guard (.found c) guard []
  | start c guard (fresh : doneByte guard = 0) :
      Moves (.entered c) guard (.initializing c) guard [.acquired true]
  | refuse c guard : Moves (.found c) guard (.refused c) (setSpin guard 0) []
  | answer c guard :
      Moves (.refused c) guard .out guard [.acquired false, .popcli]
  | publish c guard :
      Moves (.initializing c) guard (.published c) (setDone guard 1) [.release]
  | free c guard :
      Moves (.published c) guard (.leaving c) (setSpin guard 0) [.released]
  | abort c guard :
      Moves (.initializing c) guard (.leaving c) (setSpin guard 0) [.abort]
  | leave c guard : Moves (.leaving c) guard .out guard [.popcli]

structure Told {ι τ : Type} [DecidableEq τ] (pc : Pc ι) (t : τ) (trace : List (τ × Event)) :
    Prop where
  inside : initializing t trace = pc.initializes
  balance : trace.count (t, .pushcli) = trace.count (t, .popcli) + pc.cpu.toList.length
  finds : pc.finds = true → ∃ u, (u, .released) ∈ trace

structure Guarded {ι τ : Type} [DecidableEq τ] (guard : BitVec 64) (pc : τ → Pc ι)
    (trace : List (τ × Event)) : Prop where
  held : ∃ holder, Held holder (fun t => (pc t).locks = true) ∧ (spinWord guard = 0 ↔ holder = none)
  done : doneByte guard = 0 ↔ ∀ u, (u, .release) ∉ trace
  freed : ∀ u, (u, .release) ∈ trace → (pc u).publishes = true ∨ (u, .released) ∈ trace
  told : ∀ t, Told (pc t) t trace
  explained : Explained trace

section Guarded

variable {ι τ : Type} [DecidableEq τ] {guard guard' : BitVec 64} {pc : τ → Pc ι} {pc' : Pc ι}
  {trace : List (τ × Event)} {events : List Event} {t : τ}

omit [DecidableEq τ] in
theorem mem_tell {u : τ} {event : Event} :
    (u, event) ∈ tell t events trace ↔ (u = t ∧ event ∈ events) ∨ (u, event) ∈ trace := by
  induction events with
  | nil => simp
  | cons head tail ih =>
    rw [tell, List.mem_cons, ih, List.mem_cons, Prod.mk.injEq, and_or_left,
      or_assoc]

theorem Guarded.held_moves (guarded : Guarded guard pc trace)
    (moves : Moves (pc t) guard pc' guard' events) :
    ∃ holder, Held holder (fun u => (update pc t pc' u).locks = true) ∧
      (spinWord guard' = 0 ↔ holder = none) := by
  obtain ⟨holder, held, word⟩ := guarded.held
  have leaves : (pc t).locks = true → pc'.locks = false → spinWord guard' = 0 →
      ∃ holder, Held holder (fun u => (update pc t pc' u).locks = true) ∧
        (spinWord guard' = 0 ↔ holder = none) :=
    fun was left isFree => ⟨none, held.release was left, iff_of_true isFree rfl⟩
  have stays : pc'.locks = (pc t).locks → (spinWord guard' = 0 ↔ spinWord guard = 0) →
      ∃ holder, Held holder (fun u => (update pc t pc' u).locks = true) ∧
        (spinWord guard' = 0 ↔ holder = none) :=
    fun same words => ⟨holder, held.move same, words.trans word⟩
  generalize isPc : pc t = here at moves leaves stays
  cases moves with
  | acquire c => exact stays rfl Iff.rfl
  | spin c _ taken =>
    apply stays rfl
    rw [spinWord_setSpin]
    exact iff_of_false (by decide) taken
  | enter c _ free =>
    rw [word.mp free] at held
    refine ⟨some t, held.take rfl, ?_⟩
    rw [spinWord_setSpin]
    exact iff_of_false (by decide) nofun
  | find c | start c | answer c | leave c => exact stays rfl Iff.rfl
  | refuse c | free c | abort c => exact leaves rfl rfl (spinWord_setSpin _ _)
  | publish c =>
    apply stays rfl
    rw [spinWord_setDone]

/-- Only the store of `__cxa_guard_release` changes `*x`. -/
theorem Moves.done {here : Pc ι} (moves : Moves here guard pc' guard' events) :
    doneByte guard' = 0 ↔ doneByte guard = 0 ∧ .release ∉ events := by
  cases moves <;> simp

theorem Moves.release_mem {here : Pc ι} (moves : Moves here guard pc' guard' events)
    (isRelease : .release ∈ events) : pc'.publishes = true := by
  cases moves <;> simp_all [Pc.publishes]

theorem Moves.released_mem {here : Pc ι} (moves : Moves here guard pc' guard' events)
    (publishes : here.publishes = true) : .released ∈ events := by
  cases moves <;> simp_all [Pc.publishes]

/-- Who finds `*x` set holds the word, so the release that set it has freed the word. -/
theorem Guarded.released_of_done (guarded : Guarded guard pc trace) (locks : (pc t).locks = true)
    (waits : (pc t).publishes = false) (isDone : doneByte guard ≠ 0) :
    ∃ u, (u, .released) ∈ trace := by
  rw [ne_eq, guarded.done] at isDone
  push Not at isDone
  obtain ⟨u, isRelease⟩ := isDone
  cases guarded.freed u isRelease with
  | inr isReleased => exact ⟨u, isReleased⟩
  | inl publishes =>
    obtain ⟨holder, held, -⟩ := guarded.held
    have inside : (pc u).locks = true := by
      cases isPc : pc u <;> simp_all [Pc.publishes, Pc.locks]
    rw [held.alone locks inside, publishes] at waits
    cases waits

theorem Moves.inside {here : Pc ι} (moves : Moves here guard pc' guard' events)
    (inside : initializing t trace = here.initializes) :
    initializing t (tell t events trace) = pc'.initializes := by
  cases moves with
  | start | answer | free | abort => simp [initializing, Event.turns, Pc.initializes]
  | _ => simpa [initializing, Event.turns, Pc.initializes] using inside

theorem Moves.balance {here : Pc ι} (moves : Moves here guard pc' guard' events)
    (balance : trace.count (t, .pushcli) = trace.count (t, .popcli) + here.cpu.toList.length) :
    (tell t events trace).count (t, .pushcli) =
      (tell t events trace).count (t, .popcli) +
        pc'.cpu.toList.length := by
  cases moves <;> simpa [Pc.cpu, List.count_cons] using balance

/-- A caller finds `*x` set when it looks, and remembers it until it returns. -/
theorem Moves.finds {here : Pc ι} (moves : Moves here guard pc' guard' events)
    (finds : pc'.finds = true) :
    here.finds = true ∨ here.locks = true ∧ here.publishes = false ∧ doneByte guard ≠ 0 := by
  cases moves with
  | find c _ isDone => exact Or.inr ⟨rfl, rfl, isDone⟩
  | refuse c => exact Or.inl rfl
  | _ => cases finds

theorem Guarded.told_moves (guarded : Guarded guard pc trace)
    (moves : Moves (pc t) guard pc' guard' events) (u : τ) :
    Told (update pc t pc' u) u (tell t events trace) := by
  have kept : (∃ v, (v, .released) ∈ trace) →
      ∃ v, (v, .released) ∈ tell t events trace := by
    intro known
    obtain ⟨v, isReleased⟩ := known
    exact ⟨v, mem_tell.mpr (Or.inr isReleased)⟩
  by_cases same : u = t
  · rw [same, update_self]
    have told := guarded.told t
    refine ⟨moves.inside told.inside, moves.balance told.balance, ?_⟩
    intro finds
    cases moves.finds finds with
    | inl before => exact kept (told.finds before)
    | inr looks => exact kept (guarded.released_of_done looks.1 looks.2.1 looks.2.2)
  · have told := guarded.told u
    rw [update_of_ne same]
    constructor
    · rw [initializing_other same]
      exact told.inside
    · rw [count_other same, count_other same]
      exact told.balance
    · intro finds
      exact kept (told.finds finds)

theorem Guarded.explained_moves (guarded : Guarded guard pc trace)
    (moves : Moves (pc t) guard pc' guard' events) :
    Explained (tell t events trace) := by
  have explained := guarded.explained
  have finds := (guarded.told t).finds
  generalize pc t = here at moves finds
  cases moves with
  | start c _ fresh =>
    apply explained.cons
    intro result isResult
    cases isResult
    exact guarded.done.mp fresh
  | answer c =>
    have popped : Explained ((t, .popcli) :: trace) := explained.cons fun _ => nofun
    apply popped.cons
    intro result isResult
    cases isResult
    obtain ⟨u, isReleased⟩ := finds rfl
    exact ⟨u, List.mem_cons_of_mem _ isReleased⟩
  | spin | enter | find | refuse => exact explained
  | _ => exact explained.cons fun _ => nofun

theorem Guarded.move (guarded : Guarded guard pc trace)
    (moves : Moves (pc t) guard pc' guard' events) :
    Guarded guard' (update pc t pc') (tell t events trace) where
  held := guarded.held_moves moves
  done := by
    rw [moves.done, guarded.done]
    constructor
    · intro both u member
      cases mem_tell.mp member with
      | inl isNew => exact both.2 isNew.2
      | inr isOld => exact both.1 u isOld
    · intro absent
      refine ⟨fun u isOld => absent u (mem_tell.mpr (Or.inr isOld)), ?_⟩
      intro isNew
      exact absent t (mem_tell.mpr (Or.inl ⟨rfl, isNew⟩))
  freed := by
    intro u member
    cases mem_tell.mp member with
    | inl isNew =>
      rw [isNew.1, update_self]
      exact Or.inl (moves.release_mem isNew.2)
    | inr isOld =>
      rw [mem_tell]
      cases guarded.freed u isOld with
      | inr isReleased => exact Or.inr (Or.inr isReleased)
      | inl publishes =>
        by_cases same : u = t
        · rw [same] at publishes ⊢
          exact Or.inr (Or.inl ⟨rfl, moves.released_mem publishes⟩)
        · rw [update_of_ne same]
          exact Or.inl publishes
  told := guarded.told_moves moves
  explained := guarded.explained_moves moves

end Guarded

/-! ## The CPUs -/

/-- `ncli` counts the callers on a CPU and the calls of other code. -/
structure Counted {ι τ : Type} (cpu : Cpu) (others : Nat) (pc : τ → Pc ι) (c : ι) : Prop where
  masked : cpu.Masked
  callers : Headcount (fun t => Pc.On c (pc t)) (cpu.ncli - others)

namespace Counted

variable {ι τ : Type} {cpu : Cpu} {others : Nat} {pc : τ → Pc ι} {c : ι} {t : τ} {pc' : Pc ι}

theorem nested (counted : Counted cpu others pc c) (on : Pc.On c (pc t)) : 0 < cpu.ncli := by
  have positive := counted.callers.positive on
  omega

theorem nested_others (counted : Counted cpu others pc c) (some : others ≠ 0) : 0 < cpu.ncli := by
  have nonneg := counted.callers.nonneg
  omega

theorem push_other (counted : Counted cpu others pc c) :
    Counted (pushcli cpu) (others + 1) pc c := by
  refine ⟨counted.masked.pushcli, ?_⟩
  have same : (pushcli cpu).ncli - ((others + 1 : Nat) : Int) = cpu.ncli - others := by
    simp only [pushcli]
    omega
  rw [same]
  exact counted.callers

theorem pop_other (counted : Counted cpu others pc c) (some : others ≠ 0) {flag : Bool}
    (popped : ({ cpu with ncli := cpu.ncli - 1, flag } : Cpu).Masked) :
    Counted { cpu with ncli := cpu.ncli - 1, flag } (others - 1) pc c := by
  refine ⟨popped, ?_⟩
  have same : cpu.ncli - 1 - ((others - 1 : Nat) : Int) = cpu.ncli - others := by omega
  rw [same]
  exact counted.callers

variable [DecidableEq τ]

theorem stay (counted : Counted cpu others pc c) (same : Pc.On c pc' ↔ Pc.On c (pc t)) :
    Counted cpu others (update pc t pc') c :=
  ⟨counted.masked, Headcount.move (Pc.On c) counted.callers same⟩

theorem push (counted : Counted cpu others pc c) (wasOut : ¬ Pc.On c (pc t))
    (on : Pc.On c pc') : Counted (pushcli cpu) others (update pc t pc') c := by
  refine ⟨counted.masked.pushcli, ?_⟩
  have more : (pushcli cpu).ncli - others = cpu.ncli - others + 1 := by
    simp only [pushcli]
    omega
  rw [more]
  exact Headcount.join (Pc.On c) counted.callers wasOut on

theorem pop (counted : Counted cpu others pc c) (on : Pc.On c (pc t)) (out : ¬ Pc.On c pc')
    {flag : Bool} (popped : ({ cpu with ncli := cpu.ncli - 1, flag } : Cpu).Masked) :
    Counted { cpu with ncli := cpu.ncli - 1, flag } others (update pc t pc') c := by
  refine ⟨popped, ?_⟩
  have less : cpu.ncli - 1 - (others : Int) = cpu.ncli - others - 1 := by omega
  rw [less]
  exact Headcount.leave (Pc.On c) counted.callers on out

end Counted

/-! ## Steps -/

structure Inv {ι τ : Type} [DecidableEq τ] (s : State ι τ) : Prop where
  guarded : Guarded s.guard s.pc s.trace
  counted : ∀ c, Counted (s.cpus c) (s.others c) s.pc c

section Steps

variable {ι τ : Type} [DecidableEq τ] {s s' : State ι τ} {t : τ} {c : ι}

theorem Inv.boot (flags : ι → Bool) : Inv (State.boot flags : State ι τ) where
  guarded := by
    have free : spinWord 0 = 0 := by decide
    have fresh : doneByte 0 = 0 := by decide
    refine ⟨⟨none, fun _ => iff_of_false nofun nofun, iff_of_true free rfl⟩, ?_, nofun, ?_, ?_⟩
    · exact iff_of_true fresh fun _ => List.not_mem_nil
    · intro t
      exact ⟨rfl, rfl, nofun⟩
    · intro t result earlier suffix
      cases List.suffix_nil.mp suffix
  counted c := ⟨Masked.of_free rfl, Headcount.nobody fun _ => nofun⟩

theorem Inv.move {pc : Pc ι} {guard : BitVec 64} {events : List Event} (inv : Inv s)
    (moves : Moves (s.pc t) s.guard pc guard events) (same : pc.cpu = (s.pc t).cpu) :
    Inv (s.move t pc guard events) where
  guarded := inv.guarded.move moves
  counted d := (inv.counted d).stay (by rw [Pc.On, Pc.On, same])

variable [DecidableEq ι]

/-- A step that does not happen now, or that keeps the invariant. None panics. -/
def Safe (result : Except Stop (State ι τ)) : Prop :=
  result = .error .disabled ∨ ∃ s', result = .ok s' ∧ Inv s'

omit [DecidableEq ι] in
theorem Inv.safe (inv : Inv s) : Safe (.ok s) := Or.inr ⟨s, rfl, inv⟩

theorem Inv.acquire (inv : Inv s) (t : τ) (c : ι) : Safe (s.acquire t c) := by
  unfold State.acquire
  split
  · rename_i isOut
    have moves : Moves (s.pc t) s.guard (.spinning c) s.guard [.pushcli] := by
      rw [isOut]
      exact .acquire c s.guard
    have wasOut : ∀ d, ¬ Pc.On d (s.pc t) := by
      intro d
      rw [isOut]
      exact Pc.not_on_out
    apply Inv.safe
    refine ⟨inv.guarded.move moves, ?_⟩
    intro d
    simp only [State.move, State.setCpu]
    by_cases here : d = c
    · rw [here, update_self]
      exact (inv.counted c).push (wasOut c) rfl
    · rw [update_of_ne here]
      apply (inv.counted d).stay
      refine iff_of_false ?_ (wasOut d)
      intro on
      exact here (Option.some.inj on).symm
  · exact Or.inl rfl

theorem Inv.finish {events : List Event} (inv : Inv s) (isCpu : (s.pc t).cpu = some c)
    (moves : Moves (s.pc t) s.guard .out s.guard events) : Safe (s.finish t c events) := by
  have counted := inv.counted c
  have nested := counted.nested isCpu
  rw [State.finish, counted.masked.popcli nested]
  apply Inv.safe
  refine ⟨inv.guarded.move moves, ?_⟩
  intro d
  simp only [State.move, State.setCpu]
  by_cases here : d = c
  · rw [here, update_self]
    exact counted.pop isCpu Pc.not_on_out (Masked.popped nested)
  · rw [update_of_ne here]
    apply (inv.counted d).stay
    refine iff_of_false Pc.not_on_out ?_
    rw [Pc.On, isCpu]
    intro same
    exact here (Option.some.inj same).symm

theorem Inv.inside (inv : Inv s) (t : τ) :
    Safe (s.next t) ∧ Safe (s.release t) ∧ Safe (s.abort t) := by
  have go : ∀ {pc guard events}, Moves (s.pc t) s.guard pc guard events →
      pc.cpu = (s.pc t).cpu → Safe (.ok (s.move t pc guard events)) :=
    fun moves same => (inv.move moves same).safe
  have finish : ∀ {c events}, (s.pc t).cpu = some c →
      Moves (s.pc t) s.guard .out s.guard events → Safe (s.finish t c events) :=
    fun isCpu moves => inv.finish isCpu moves
  have disabled : Safe (.error .disabled : Except Stop (State ι τ)) := Or.inl rfl
  unfold State.next State.release State.abort
  generalize s.pc t = here at go finish
  cases here with
  | out => exact ⟨disabled, disabled, disabled⟩
  | spinning c =>
    refine ⟨?_, disabled, disabled⟩
    simp only
    split
    · rename_i taken
      exact go (.spin c s.guard taken) rfl
    · rename_i free
      exact go (.enter c s.guard (not_not.mp free)) rfl
  | entered c =>
    refine ⟨?_, disabled, disabled⟩
    simp only
    split
    · rename_i isDone
      exact go (.find c s.guard isDone) rfl
    · rename_i fresh
      exact go (.start c s.guard (not_not.mp fresh)) rfl
  | found c => exact ⟨go (.refuse c s.guard) rfl, disabled, disabled⟩
  | refused c => exact ⟨finish rfl (.answer c s.guard), disabled, disabled⟩
  | initializing c =>
    exact ⟨disabled, go (.publish c s.guard) rfl, go (.abort c s.guard) rfl⟩
  | published c => exact ⟨go (.free c s.guard) rfl, disabled, disabled⟩
  | leaving c => exact ⟨finish rfl (.leave c s.guard), disabled, disabled⟩

theorem Inv.other {cpu : Cpu} {others : Nat} (inv : Inv s)
    (counted : Counted cpu others s.pc c) :
    Inv { s.setCpu c cpu with others := update s.others c others } := by
  refine ⟨inv.guarded, ?_⟩
  intro d
  simp only [State.setCpu]
  by_cases here : d = c
  · rw [here, update_self, update_self]
    exact counted
  · rw [update_of_ne here, update_of_ne here]
    exact inv.counted d

theorem Inv.step (inv : Inv s) : ∀ action, Safe (s.step action)
  | .acquire t c => inv.acquire t c
  | .release t => (inv.inside t).2.1
  | .abort t => (inv.inside t).2.2
  | .next t => (inv.inside t).1
  | .pushcli c => (inv.other (inv.counted c).push_other).safe
  | .popcli c => by
      rw [State.step]
      split
      · exact Or.inl rfl
      · rename_i some
        have counted := inv.counted c
        have nested := counted.nested_others some
        rw [counted.masked.popcli nested]
        exact (inv.other (counted.pop_other some (Masked.popped nested))).safe
  | .interrupts c flag => by
      rw [State.step]
      split
      · rename_i free
        have counted : Counted { s.cpus c with flag } (s.others c) s.pc c :=
          ⟨Masked.of_free free, (inv.counted c).callers⟩
        have kept := inv.other counted
        rw [update_eq_self] at kept
        exact kept.safe
      · exact Or.inl rfl

theorem Inv.run {actions : List (Action ι τ)} (inv : Inv s)
    (ran : actions.foldlM State.step s = .ok s') : Inv s' := by
  refine foldlM_keeps Inv ?_ actions inv ran
  intro before action after inv stepped
  cases inv.step action with
  | inl isDisabled =>
    rw [isDisabled] at stepped
    cases stepped
  | inr isOk =>
    obtain ⟨s', isOk, kept⟩ := isOk
    rw [isOk] at stepped
    cases stepped
    exact kept

/-- In every run of any callers on any CPUs: one caller at most is between an acquire that
returned 1 and its release or abort; no acquire returns 1 after a release has begun, and none
returns 0 before one has freed the word; each caller outside of the functions has called
`popcli` as often as `pushcli`, and a CPU that no caller is on has the `ncli` of its other code;
and `popcli` does not panic. -/
theorem guard_initializes_once {flags : ι → Bool} {actions : List (Action ι τ)}
    (ran : actions.foldlM State.step (State.boot flags) = .ok s) :
    (∀ t u, initializing t s.trace = true → initializing u s.trace = true → t = u) ∧
    (∀ t u earlier, (t, .acquired true) :: earlier <:+ s.trace → (u, .release) ∉ earlier) ∧
    (∀ t earlier, (t, .acquired false) :: earlier <:+ s.trace →
      ∃ u, (u, .released) ∈ earlier) ∧
    (∀ t, s.trace.count (t, .pushcli) =
      s.trace.count (t, .popcli) + if s.pc t = .out then 0 else 1) ∧
    (∀ c, (∀ t, (s.pc t).cpu ≠ some c) → (s.cpus c).ncli = s.others c) ∧
    ∀ action message, s.step action ≠ .error (.panic message) := by
  have inv := (Inv.boot flags).run ran
  refine ⟨?_, ?_, ?_, ?_, ?_, ?_⟩
  · intro t u first second
    obtain ⟨holder, held, -⟩ := inv.guarded.held
    rw [(inv.guarded.told t).inside] at first
    rw [(inv.guarded.told u).inside] at second
    exact held.alone (Pc.locks_of_initializes first) (Pc.locks_of_initializes second)
  · intro t u earlier suffix
    exact inv.guarded.explained t true earlier suffix u
  · intro t earlier suffix
    exact inv.guarded.explained t false earlier suffix
  · intro t
    rw [(inv.guarded.told t).balance]
    cases s.pc t <;> rfl
  · intro c nobody
    have none := (inv.counted c).callers.eq_zero nobody
    omega
  · intro action message panics
    cases inv.step action with
    | inl isDisabled =>
      rw [isDisabled] at panics
      cases panics
    | inr isOk =>
      obtain ⟨_, isOk, -⟩ := isOk
      rw [isOk] at panics
      cases panics

end Steps

/-- Two callers on two CPUs: the first aborts, the second initialises the object while the
first waits, and the first finds it initialised. -/
def contend : List (Action Bool Bool) :=
  [.acquire false false, .next false, .next false, .acquire true true, .next true, .abort false,
    .next true, .next true, .next false, .acquire false false, .next false, .release true,
    .next true, .next false, .next false, .next false, .next true, .next false]

def reach (actions : List (Action Bool Bool)) : State Bool Bool :=
  match actions.foldlM State.step (State.boot fun _ => true) with
  | .ok s => s
  | .error _ => State.boot fun _ => true

theorem guard_initializes_once_contend :
    contend.foldlM State.step (State.boot fun _ => true) = .ok (reach contend) ∧
      (true, .acquired true) ∈ (reach contend).trace ∧
      (false, .acquired false) ∈ (reach contend).trace ∧
      ∀ c, ((reach contend).cpus c).ncli = 0 := by
  have ran : contend.foldlM State.step (State.boot fun _ => true) = .ok (reach contend) := rfl
  have left : ∀ c t, ((reach contend).pc t).cpu ≠ some c := by decide
  refine ⟨ran, by decide, by decide, ?_⟩
  intro c
  exact (guard_initializes_once ran).2.2.2.2.1 c (left c)

end Rexv6.Cxxrt
