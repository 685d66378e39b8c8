import Mathlib.Data.List.Nodup
import Rexv6.Klib.VectorLists

/-!
Contract: which buffers of a program with vectors are released.

Owns: the destruction of the vectors that are left at the end, the buffers that no
call can release any more, and the programs that release every buffer exactly once.
Every reallocation leaves its `temp` behind, `Vector(s)` its first buffer, and an
assignment that of the vector assigned to.

Does not own: the contents of the buffers.
-/

namespace Rexv6.Klib.Vector

open Rexv6.Foundation
open Rexv6.Foundation.Execution (Along)
open Rexv6.Foundation.Program

/-! ## Programs to their end -/

section Endings

variable {α : Type}

/-- Runs the destructors of the vectors from `v` on that still exist. -/
def State.destroyFrom : (remaining v : Nat) → State α → Except Fault (State α)
  | 0, _, s => .ok s
  | remaining + 1, v, s => do
    let s ← if (s.vectors[v]?.join).isSome then s.step (.destroy v) else .ok s
    destroyFrom remaining (v + 1) s

/-- A program, and at its end the destructors of all vectors that are left. -/
def State.finish (s : State α) (ops : List (Op α)) : Except Fault (State α) := do
  let s ← s.run ops
  s.destroyFrom s.vectors.length 0

/-- The program comes to its end without an access to a released buffer, and then
every buffer has been released exactly once. -/
def ReleasesOnce (ops : List (Op α)) : Prop :=
  ∃ s : State α, start.finish ops = .ok s ∧
    ∀ p < s.memory.next, s.memory.released.count p = 1

def Op.names : Op α → List Nat
  | .construct _ => []
  | .copy obj => [obj]
  | .assign v obj => [v, obj]
  | .pushBack v _ | .popBack v | .insert v _ _ | .erase v _ | .clear v | .reserve v _
  | .shrinkToFit v | .destroy v => [v]

def Named (s : State α) (op : Op α) : Prop := ∀ v ∈ op.names, (s.vectors[v]?.join).isSome

instance (s : State α) (op : Op α) : Decidable (Named s op) :=
  inferInstanceAs (Decidable (∀ v ∈ op.names, _))

/-- No call that stores an element or allocates room for one, none that assigns a vector
to another one, and no `Vector(s)` of a size other than `0`. In vectors that are all empty
`insert` and `erase` reject every position but the first. -/
def Harmless : Op α → Prop
  | .construct size => size = 0
  | .assign v obj => v = obj
  | .insert _ current _ => 0 < current
  | .erase _ current => 0 < current
  | .pushBack _ _ | .reserve _ _ | .shrinkToFit _ => False
  | .copy _ | .popBack _ | .clear _ | .destroy _ => True

instance : ∀ op : Op α, Decidable (Harmless op)
  | .construct _ | .assign _ _ => inferInstanceAs (Decidable (_ = _))
  | .insert _ _ _ | .erase _ _ => inferInstanceAs (Decidable (0 < _))
  | .pushBack _ _ | .reserve _ _ | .shrinkToFit _ => .isFalse id
  | .copy _ | .popBack _ | .clear _ | .destroy _ => .isTrue trivial

end Endings

/-! ## What a call does to the buffers -/

section Effects

variable {α : Type} {m : Memory α} {vec : Vec}

/-- No buffer has been allocated or released. -/
def Keeps (m after : Memory α) : Prop := after.next = m.next ∧ after.released = m.released

theorem keeps_put (m : Memory α) (p : Nat) (cells : List (Option α)) : Keeps m (m.put p cells) :=
  ⟨rfl, rfl⟩

theorem Keeps.trans {middle after : Memory α} (first : Keeps m middle)
    (second : Keeps middle after) :
    Keeps m after :=
  ⟨second.1.trans first.1, second.2.trans first.2⟩

theorem turn_keeps {from_ i p q : Nat} {rest : Run α Unit}
    (keeps : ∀ m, Meets rest m (fun _ after => Keeps m after) fun _ => True) (m : Memory α) :
    Meets (do
      let value ← load p from_
      store q i value
      rest) m (fun _ after => Keeps m after) fun _ => True := by
  apply (load_returns p from_).bind
  rintro value _ rfl
  apply (store_returns q i value).bind
  rintro _ _ rfl
  exact (keeps _).mono fun _ after second => Keeps.trans ⟨rfl, rfl⟩ second

theorem copyLoop_keeps (target source remaining i : Nat) (m : Memory α) :
    Meets (copyLoop target source remaining i) m (fun _ after => Keeps m after) fun _ => True := by
  induction remaining generalizing i m with
  | zero => exact ⟨rfl, rfl⟩
  | succ remaining ih => exact turn_keeps (ih (i + 1)) m

theorem eraseLoop_keeps (data remaining i : Nat) (m : Memory α) :
    Meets (eraseLoop data remaining i) m (fun _ after => Keeps m after) fun _ => True := by
  induction remaining generalizing i m with
  | zero => exact ⟨rfl, rfl⟩
  | succ remaining ih => exact turn_keeps (ih (i + 1)) m

theorem insertLoop_keeps (data remaining i : Nat) (m : Memory α) :
    Meets (insertLoop data remaining i) m (fun _ after => Keeps m after) fun _ => True := by
  induction remaining generalizing i m with
  | zero => exact ⟨rfl, rfl⟩
  | succ remaining ih => exact turn_keeps (ih (i - 1)) m

/-- A call releases no buffer but its vector's, and its result has that one or a new
one. If it spills, it has moreover allocated a buffer that it neither released nor gave
to its result. -/
structure Touches (Spills : Prop) (m : Memory α) (vec result : Vec) (after : Memory α) : Prop where
  next : m.next ≤ after.next
  released : ∀ p ∈ after.released, p ∈ m.released ∨ p = vec.data
  data : result.data = vec.data ∨ m.next ≤ result.data
  spilt : Spills → m.next < after.next ∧ m.next < result.data

theorem Touches.refl {Spills : Prop} (none : ¬ Spills) (size : Nat) :
    Touches Spills m vec { vec with size } m :=
  ⟨le_rfl, fun _ => Or.inl, Or.inl rfl, fun spills => absurd spills none⟩

theorem Touches.keeps {Spills Spills' : Prop} {result : Vec} {middle after : Memory α}
    (touches : Touches Spills m vec result middle) (keeps : Keeps middle after) (size : Nat)
    (spills : Spills' → Spills) : Touches Spills' m vec { result with size } after := by
  obtain ⟨next, released⟩ := keeps
  refine ⟨by rw [next]; exact touches.next, by rw [released]; exact touches.released,
    touches.data, ?_⟩
  rw [next]
  exact fun isSpilt => touches.spilt (spills isSpilt)

/-- Every reallocation leaves `temp` behind. -/
theorem moveTo_touches (capacity : Nat) :
    Meets (moveTo vec capacity) m (Touches True m vec) fun _ => True := by
  rw [moveTo, meets_bind, meets_allocate]
  apply (copyLoop_keeps m.next vec.data vec.size 0 (m.grown vec.size)).bind
  intro _ middle first
  rw [meets_bind, meets_release, meets_bind, meets_allocate]
  apply (copyLoop_keeps middle.next m.next vec.size 0 ((middle.freed vec.data).grown capacity)).bind
  intro _ after second
  have isNext : middle.next = m.next + 1 := first.1
  have isLast : after.next = middle.next + 1 := second.1
  have released : after.released = vec.data :: m.released := second.2.trans (congrArg _ first.2)
  refine ⟨by omega, fun p member => ?_, Or.inr ?_, fun _ => ⟨by omega, ?_⟩⟩
  · rw [released] at member
    exact (List.mem_cons.mp member).symm
  · show m.next ≤ middle.next
    omega
  · show m.next < middle.next
    omega

/-- A vector without capacity is reallocated. -/
theorem reserve_touches (nsz : Nat) :
    Meets (reserve vec nsz) m (Touches (vec.capacity = 0) m vec) fun _ => True := by
  rw [reserve]
  split
  · exact (moveTo_touches _).mono fun _ _ touches => touches.keeps ⟨rfl, rfl⟩ _ fun _ => trivial
  · exact Touches.refl (by omega) _

theorem makeRoom_touches :
    Meets (makeRoom vec) m (Touches (vec.capacity = 0) m vec) fun _ => True := by
  rw [makeRoom]
  split
  · exact reserve_touches _
  · exact Touches.refl (by omega) _

theorem pushBack_touches (val : α) :
    Meets (pushBack vec val) m (Touches (vec.capacity = 0) m vec) fun _ => True := by
  apply makeRoom_touches.bind
  intro result middle touches
  apply (store_returns _ _ _).bind
  rintro _ _ rfl
  exact touches.keeps (keeps_put middle _ _) _ id

theorem insert_touches (current : Nat) (val : α) :
    Meets (insert vec current val) m (Touches (current ≤ vec.size ∧ vec.capacity = 0) m vec)
      fun _ => True := by
  rw [insert]
  split
  · exact Touches.refl (by omega) _
  · apply makeRoom_touches.bind
    intro result middle touches
    apply (insertLoop_keeps _ _ _ _).bind
    intro _ shifted first
    apply (store_returns _ _ _).bind
    rintro _ _ rfl
    exact touches.keeps (first.trans (keeps_put shifted _ _)) _ And.right

theorem erase_touches (current : Nat) :
    Meets (erase vec current) m (Touches False m vec) fun _ => True := by
  rw [erase]
  split
  · exact Touches.refl id _
  · apply (eraseLoop_keeps _ _ _ _).bind
    intro _ after keeps
    exact (Touches.refl id vec.size).keeps keeps _ id

theorem popBack_touches : Meets (popBack vec) m (Touches False m vec) fun _ => True := by
  rw [popBack]
  split
  · exact Touches.refl id _
  · exact Touches.refl id _

theorem clear_touches : Meets (clear vec) m (Touches False m vec) fun _ => True :=
  ⟨Nat.le_succ _, fun _ member => (List.mem_cons.mp member).symm, Or.inr le_rfl, False.elim⟩

/-- A constructor releases no buffer and takes a new one; `Vector(s)` has allocated
another one before it. -/
structure Creates (Spills : Prop) (m : Memory α) (result : Vec) (after : Memory α) : Prop where
  released : after.released = m.released
  data : m.next ≤ result.data
  allocated : result.data < after.next
  spilt : Spills → m.next < result.data

theorem construct_creates (s : Nat) :
    Meets (construct s) m (Creates (s ≠ 0) m) fun _ => True := by
  by_cases none : s = 0
  · subst none
    exact ⟨rfl, le_rfl, Nat.lt_succ_self _, fun some => absurd rfl some⟩
  · rw [construct, if_pos none, if_pos none]
    exact ⟨rfl, Nat.le_succ _, Nat.lt_succ_self _, fun _ => Nat.lt_succ_self _⟩

theorem copyOf_creates (obj : Vec) :
    Meets (copyOf obj) m (Creates False m) fun _ => True := by
  rw [copyOf, meets_bind, meets_allocate]
  apply (copyLoop_keeps _ _ _ _ _).bind
  intro _ after keeps
  refine ⟨keeps.2, le_rfl, ?_, False.elim⟩
  rw [keeps.1]
  exact Nat.lt_succ_self _

/-- `erase` of the first position of an empty vector reads beyond a buffer of at most one
element: `size_ - 1` wraps around. -/
theorem erase_empty (empty : vec.size = 0) (short : (m.cells vec.data).length ≤ 1) {current : Nat}
    (first : current = 0) : Meets (erase vec current) m (fun _ _ => False) fun _ => True := by
  have turns : (vec.size + 2 ^ 32 - 1) % 2 ^ 32 - current = 2 ^ 32 - 2 + 1 := by omega
  rw [erase, if_neg (by omega), turns, eraseLoop]
  apply Meets.bind _ fun _ _ => False.elim
  exact (load_outside (by omega)).bind fun _ _ => False.elim

end Effects

/-! ## Accounts -/

section Accounts

variable {α : Type} {s after : State α} {v : Nat} {vec : Vec}

def State.owned (s : State α) : List Nat := s.vectors.filterMap (Option.map Vec.data)

/-- The buffers that a vector has or that have been released. -/
def State.accounted (s : State α) : List Nat := s.owned ++ s.memory.released

/-- A buffer that no vector has and that has not been released. -/
def Leaky (s : State α) (p : Nat) : Prop := p < s.memory.next ∧ p ∉ s.accounted

/-- Buffers that were in no account before are new. -/
def Extends (s after : State α) : Prop :=
  s.memory.next ≤ after.memory.next ∧ ∀ p ∈ after.accounted, p ∈ s.accounted ∨ s.memory.next ≤ p

theorem Extends.refl (s : State α) : Extends s s := ⟨le_rfl, fun _ => Or.inl⟩

theorem Extends.leaky (grows : Extends s after) {p : Nat} (leaky : Leaky s p) : Leaky after p := by
  refine ⟨leaky.1.trans_le grows.1, fun member => ?_⟩
  rcases grows.2 p member with old | new
  · exact leaky.2 old
  · exact absurd leaky.1 (Nat.not_lt.mpr new)

theorem Extends.trans {middle : State α} (first : Extends s middle)
    (second : Extends middle after) :
    Extends s after := by
  refine ⟨first.1.trans second.1, fun p member => ?_⟩
  rcases second.2 p member with old | new
  · exact first.2 p old
  · exact Or.inr (first.1.trans new)

theorem owned_set (isVec : s.vectors[v]?.join = some vec) :
    ∃ rest, s.owned.Perm (vec.data :: rest) ∧
    ∀ (memory : Memory α) entry, (State.owned ⟨memory, s.vectors.set v entry⟩).Perm
      ((entry.map Vec.data).toList ++ rest) := by
  obtain ⟨inside, isEntry⟩ := List.getElem?_eq_some_iff.mp (Option.join_eq_some_iff.mp isVec)
  have placed : ∀ (memory : Memory α) entry, (State.owned ⟨memory, s.vectors.set v entry⟩).Perm
      ((entry.map Vec.data).toList ++ ((s.vectors.take v).filterMap (Option.map Vec.data) ++
        (s.vectors.drop (v + 1)).filterMap (Option.map Vec.data))) := by
    intro memory entry
    rw [State.owned, List.set_eq_take_append_cons_drop, if_pos inside, List.filterMap_append]
    cases entry with
    | none => exact .refl _
    | some result => exact List.perm_middle
  refine ⟨_, ?_, placed⟩
  have same := placed s.memory (some vec)
  rw [← isEntry, List.set_getElem_self] at same
  rw [isEntry] at same
  exact same

theorem owned_append (memory : Memory α) (entry : Vec) :
    State.owned ⟨memory, s.vectors ++ [some entry]⟩ = s.owned ++ [entry.data] := by
  rw [State.owned, List.filterMap_append]
  rfl

theorem owned_mem (isVec : s.vectors[v]?.join = some vec) : vec.data ∈ s.owned := by
  obtain ⟨rest, owned, -⟩ := owned_set isVec
  exact owned.mem_iff.mpr List.mem_cons_self

theorem change_ok {call : Vec → Run α Vec} (stepped : s.change v call = .ok after) :
    ∃ vec result memory, s.vectors[v]?.join = some vec ∧
      (call vec).run s.memory = .ok (result, memory) ∧
      after = ⟨memory, s.vectors.set v (some result)⟩ := by
  rw [State.change] at stepped
  cases isVec : s.vectors[v]?.join with
  | none =>
    rw [isVec] at stepped
    cases stepped
  | some vec =>
    rw [isVec] at stepped
    cases run : (call vec).run s.memory with
    | error fault =>
      simp only [run, Except.map] at stepped
      cases stepped
    | ok result =>
      simp only [run, Except.map, Except.ok.injEq] at stepped
      exact ⟨vec, result.1, result.2, rfl, run, stepped.symm⟩

theorem make_ok {call : Run α Vec} (stepped : s.make call = .ok after) :
    ∃ result memory, call.run s.memory = .ok (result, memory) ∧
      after = ⟨memory, s.vectors ++ [some result]⟩ := by
  rw [State.make] at stepped
  cases run : call.run s.memory with
  | error fault =>
    simp only [run, Except.map] at stepped
    cases stepped
  | ok result =>
    simp only [run, Except.map, Except.ok.injEq] at stepped
    exact ⟨result.1, result.2, rfl, stepped.symm⟩

theorem extends_set {memory : Memory α} {entry : Option Vec} (isVec : s.vectors[v]?.join = some vec)
    (next : s.memory.next ≤ memory.next)
    (released : ∀ p ∈ memory.released, p ∈ s.memory.released ∨ p = vec.data)
    (data : ∀ result ∈ entry, result.data ∈ s.accounted ∨ s.memory.next ≤ result.data) :
    Extends s ⟨memory, s.vectors.set v entry⟩ := by
  obtain ⟨rest, owned, placed⟩ := owned_set isVec
  have account : ∀ p ∈ vec.data :: rest, p ∈ s.accounted := fun p member =>
    List.mem_append_left _ (owned.mem_iff.mpr member)
  refine ⟨next, fun p member => ?_⟩
  rcases List.mem_append.mp member with isOwned | isReleased
  · rcases List.mem_append.mp ((placed memory entry).mem_iff.mp isOwned) with isData | other
    · obtain ⟨result, isResult, rfl⟩ := Option.map_eq_some_iff.mp (Option.mem_toList.mp isData)
      exact data result isResult
    · exact Or.inl (account p (List.mem_cons_of_mem _ other))
  · rcases released p isReleased with old | rfl
    · exact Or.inl (List.mem_append_right _ old)
    · exact Or.inl (account _ List.mem_cons_self)

theorem extends_change {Spills : Vec → Prop} {call : Vec → Run α Vec}
    (spec : ∀ vec, Meets (call vec) s.memory (Touches (Spills vec) s.memory vec) fun _ => True)
    (stepped : s.change v call = .ok after) : Extends s after := by
  obtain ⟨vec, result, memory, isVec, run, rfl⟩ := change_ok stepped
  have touches := (spec vec).of_run run
  refine extends_set isVec touches.next touches.released fun other isResult => ?_
  obtain rfl := Option.some.inj isResult
  rcases touches.data with same | new
  · rw [same]
    exact Or.inl (List.mem_append_left _ (owned_mem isVec))
  · exact Or.inr new

theorem extends_make {Spills : Prop} {call : Run α Vec}
    (spec : Meets call s.memory (Creates Spills s.memory) fun _ => True)
    (stepped : s.make call = .ok after) : Extends s after := by
  obtain ⟨result, memory, run, rfl⟩ := make_ok stepped
  have creates := spec.of_run run
  refine ⟨creates.data.trans creates.allocated.le, fun p member => ?_⟩
  rw [State.accounted, owned_append, creates.released, List.append_assoc, List.mem_append] at member
  rcases member with old | rest
  · exact Or.inl (List.mem_append_left _ old)
  · rcases List.mem_cons.mp rest with rfl | isReleased
    · exact Or.inr creates.data
    · exact Or.inl (List.mem_append_right _ isReleased)

theorem extends_destroy (stepped : s.step (.destroy v) = .ok after) : Extends s after := by
  simp only [State.step] at stepped
  cases isVec : s.vectors[v]?.join with
  | none =>
    rw [isVec] at stepped
    cases stepped
  | some vec =>
    rw [isVec] at stepped
    obtain rfl : ⟨s.memory.freed vec.data, s.vectors.set v none⟩ = after := Except.ok.inj stepped
    exact extends_set isVec le_rfl (fun _ member => (List.mem_cons.mp member).symm)
      (by simp)

/-- No call brings a buffer that has leaked back into the accounts. -/
theorem step_extends {op : Op α} (stepped : s.step op = .ok after) : Extends s after := by
  cases op with
  | construct size => exact extends_make (construct_creates size) stepped
  | copy obj =>
    simp only [State.step] at stepped
    split at stepped
    · cases stepped
    · exact extends_make (copyOf_creates _) stepped
  | assign v obj =>
    simp only [State.step] at stepped
    split at stepped
    · cases stepped
    · rename_i other isOther
      obtain ⟨vec, result, memory, isVec, run, rfl⟩ := change_ok stepped
      obtain ⟨rfl, rfl⟩ := Prod.mk.inj (Except.ok.inj run)
      refine extends_set isVec le_rfl (fun _ => Or.inl) fun _ isResult => Or.inl ?_
      obtain rfl := Option.some.inj isResult
      exact List.mem_append_left _ (owned_mem isOther)
  | pushBack v val => exact extends_change (fun _ => pushBack_touches val) stepped
  | popBack v => exact extends_change (fun _ => popBack_touches) stepped
  | insert v current val => exact extends_change (fun _ => insert_touches current val) stepped
  | erase v current => exact extends_change (fun _ => erase_touches current) stepped
  | clear v => exact extends_change (fun _ => clear_touches) stepped
  | reserve v nsz => exact extends_change (fun _ => reserve_touches nsz) stepped
  | shrinkToFit v => exact extends_change (fun _ => moveTo_touches _) stepped
  | destroy v => exact extends_destroy stepped

theorem destroyFrom_extends (remaining v : Nat) {s : State α}
    (run : s.destroyFrom remaining v = .ok after) : Extends s after := by
  induction remaining generalizing s v with
  | zero =>
    obtain rfl : s = after := Except.ok.inj run
    exact .refl s
  | succ remaining ih =>
    rw [State.destroyFrom] at run
    by_cases alive : (s.vectors[v]?.join).isSome
    · rw [if_pos alive] at run
      cases stepped : s.step (.destroy v) with
      | error fault =>
        simp only [stepped, bind, Except.bind] at run
        cases run
      | ok middle =>
        simp only [stepped, bind, Except.bind] at run
        exact (extends_destroy stepped).trans (ih (v + 1) run)
    · rw [if_neg alive] at run
      exact ih (v + 1) run

/-- A buffer that has leaked is not released by the end of the program. -/
theorem finish_extends (ops : List (Op α)) (run : s.finish ops = .ok after) : Extends s after := by
  rw [State.finish] at run
  cases ran : s.run ops with
  | error fault =>
    simp only [ran, bind, Except.bind] at run
    cases run
  | ok middle =>
    simp only [ran, bind, Except.bind] at run
    refine Extends.trans ?_ (destroyFrom_extends _ 0 run)
    exact Execution.foldlM_keeps (Extends s)
      (fun _ _ _ first stepped => first.trans (step_extends stepped)) ops (.refl s) ran

end Accounts

/-! ## Balanced programs -/

section Balanced

variable {α : Type} {s after : State α} {v : Nat} {vec : Vec}

/-- Every vector is empty, and every buffer is in the accounts once. -/
structure Blank (s : State α) : Prop where
  empty : ∀ vec, some vec ∈ s.vectors → vec.size = 0 ∧ vec.capacity = 0
  short : ∀ p, (s.memory.cells p).length ≤ 1
  once : s.accounted.Perm (List.range s.memory.next)

theorem mem_of_join (isVec : s.vectors[v]?.join = some vec) : some vec ∈ s.vectors :=
  List.mem_of_getElem? (Option.join_eq_some_iff.mp isVec)

theorem Blank.below (blank : Blank s) {p : Nat} (member : p ∈ s.accounted) : p < s.memory.next :=
  List.mem_range.mp (blank.once.mem_iff.mp member)

theorem Blank.capacity (blank : Blank s) (isVec : s.vectors[v]?.join = some vec) :
    vec.capacity = 0 :=
  (blank.empty vec (mem_of_join isVec)).2

theorem Blank.spill (blank : Blank s) {Spills : Vec → Prop} {call : Vec → Run α Vec}
    (spec : ∀ vec, Meets (call vec) s.memory (Touches (Spills vec) s.memory vec) fun _ => True)
    (spills : ∀ vec, s.vectors[v]?.join = some vec → Spills vec)
    (stepped : s.change v call = .ok after) : Leaky after s.memory.next := by
  obtain ⟨vec, result, memory, isVec, run, rfl⟩ := change_ok stepped
  have touches := (spec vec).of_run run
  obtain ⟨more, notResult⟩ := touches.spilt (spills vec isVec)
  obtain ⟨rest, owned, placed⟩ := owned_set isVec
  have old : ∀ p ∈ vec.data :: rest, p < s.memory.next := fun p member =>
    blank.below (List.mem_append_left _ (owned.mem_iff.mpr member))
  refine ⟨more, fun member => ?_⟩
  rcases List.mem_append.mp member with isOwned | isReleased
  · rcases List.mem_cons.mp ((placed memory (some result)).mem_iff.mp isOwned) with isData | other
    · exact absurd isData (Nat.ne_of_lt notResult)
    · exact Nat.lt_irrefl _ (old _ (List.mem_cons_of_mem _ other))
  · rcases touches.released _ isReleased with isOld | isData
    · exact Nat.lt_irrefl _ (blank.below (List.mem_append_right _ isOld))
    · exact Nat.lt_irrefl _ (old _ (List.mem_cons.mpr (Or.inl isData)))

/-- `Vector(s)` loses its first buffer. -/
theorem Blank.spill_construct (blank : Blank s) {size : Nat} (some : size ≠ 0)
    (stepped : s.step (.construct size) = .ok after) : Leaky after s.memory.next := by
  obtain ⟨result, memory, run, rfl⟩ := make_ok stepped
  have creates := (construct_creates size).of_run run
  have notResult := creates.spilt some
  refine ⟨creates.data.trans_lt creates.allocated, fun member => ?_⟩
  rw [State.accounted, owned_append, creates.released, List.append_assoc, List.mem_append] at member
  rcases member with isOld | rest
  · exact Nat.lt_irrefl _ (blank.below (List.mem_append_left _ isOld))
  · rcases List.mem_cons.mp rest with isData | isReleased
    · exact absurd isData (Nat.ne_of_lt notResult)
    · exact Nat.lt_irrefl _ (blank.below (List.mem_append_right _ isReleased))

/-- A vector that is assigned another one loses its buffer. -/
theorem Blank.spill_assign (blank : Blank s) {obj : Nat} (different : v ≠ obj)
    (stepped : s.step (.assign v obj) = .ok after) : ∃ p, Leaky after p := by
  simp only [State.step] at stepped
  split at stepped
  · cases stepped
  · rename_i other isOther
    obtain ⟨vec, result, memory, isVec, run, rfl⟩ := change_ok stepped
    obtain ⟨rfl, rfl⟩ := Prod.mk.inj (Except.ok.inj run)
    obtain ⟨rest, owned, placed⟩ := owned_set isVec
    have nodup : (vec.data :: rest ++ s.memory.released).Nodup :=
      ((owned.append_right _).symm.trans blank.once).nodup_iff.mpr List.nodup_range
    -- The other vector's buffer is one of the rest.
    have isRest : other.data ∈ rest := by
      refine (placed s.memory none).mem_iff.mp (owned_mem (v := obj) ?_)
      rw [join_set (lt_of_join isVec), if_neg different.symm]
      exact isOther
    rw [List.cons_append, List.nodup_cons, List.mem_append, not_or] at nodup
    obtain ⟨⟨notRest, live⟩, -⟩ := nodup
    refine ⟨vec.data, blank.below (List.mem_append_left _ (owned_mem isVec)), fun member => ?_⟩
    rcases List.mem_append.mp member with isOwned | isReleased
    · rcases List.mem_cons.mp ((placed s.memory (some other)).mem_iff.mp isOwned) with same | isOld
      · rw [same] at notRest
        exact notRest isRest
      · exact notRest isOld
    · exact live isReleased

/-- A call that is not harmless loses a buffer, if it returns. -/
theorem Blank.harmful (blank : Blank s) {op : Op α} (harmful : ¬ Harmless op)
    (stepped : s.step op = .ok after) : ∃ p, Leaky after p := by
  cases op with
  | construct size => exact ⟨_, blank.spill_construct harmful stepped⟩
  | assign v obj => exact blank.spill_assign harmful stepped
  | pushBack v val =>
    exact ⟨_, blank.spill (fun _ => pushBack_touches val) (fun _ => blank.capacity) stepped⟩
  | insert v current val =>
    obtain rfl : current = 0 := Nat.eq_zero_of_not_pos harmful
    exact ⟨_, blank.spill (fun _ => insert_touches 0 val)
      (fun _ isVec => ⟨Nat.zero_le _, blank.capacity isVec⟩) stepped⟩
  | erase v current =>
    obtain ⟨vec, result, memory, isVec, run, rfl⟩ := change_ok stepped
    have empty := (blank.empty vec (mem_of_join isVec)).1
    have first := Nat.eq_zero_of_not_pos harmful
    exact ((erase_empty empty (blank.short _) first).of_run run).elim
  | reserve v nsz =>
    exact ⟨_, blank.spill (fun _ => reserve_touches nsz) (fun _ => blank.capacity) stepped⟩
  | shrinkToFit v =>
    exact ⟨_, blank.spill (fun _ => moveTo_touches _) (fun _ _ => trivial) stepped⟩
  | copy obj | popBack v | clear v | destroy v => exact absurd trivial harmful

theorem Blank.grown_short (blank : Blank s) {size : Nat} (one : size ≤ 1) (p : Nat) :
    ((s.memory.grown size).cells p).length ≤ 1 := by
  by_cases isNew : p = s.memory.next
  · rw [isNew, Memory.grown_new, List.length_replicate]
    exact one
  · rw [Memory.grown_old _ isNew]
    exact blank.short p

theorem Blank.make (blank : Blank s) {size : Nat} (one : size ≤ 1) :
    Blank ⟨s.memory.grown size, s.vectors ++ [some ⟨0, 0, s.memory.next⟩]⟩ := by
  refine ⟨fun vec member => ?_, blank.grown_short one, ?_⟩
  · rcases List.mem_append.mp member with old | new
    · exact blank.empty vec old
    · obtain rfl := Option.some.inj (List.mem_singleton.mp new)
      exact ⟨rfl, rfl⟩
  · show (State.owned _ ++ s.memory.released).Perm (List.range (s.memory.next + 1))
    rw [owned_append, List.append_assoc, List.range_succ]
    exact List.perm_middle.trans ((blank.once.cons _).trans (List.perm_append_singleton _ _).symm)

/-- A vector gives up its buffer, and its place may get a new empty one. -/
theorem Blank.destroy (blank : Blank s) (isVec : s.vectors[v]?.join = some vec) :
    Blank ⟨s.memory.freed vec.data, s.vectors.set v none⟩ := by
  obtain ⟨rest, owned, placed⟩ := owned_set isVec
  refine ⟨fun other member => ?_, blank.short, ?_⟩
  · rcases List.mem_or_eq_of_mem_set member with old | new
    · exact blank.empty other old
    · cases new
  · show (State.owned _ ++ vec.data :: s.memory.released).Perm (List.range s.memory.next)
    refine ((placed _ none).append_right _).trans (List.perm_middle.trans ?_)
    exact (owned.append_right _).symm.trans blank.once

theorem Blank.clear (blank : Blank s) (isVec : s.vectors[v]?.join = some vec) :
    Blank ⟨(s.memory.freed vec.data).grown 1,
      s.vectors.set v (some ⟨0, 0, s.memory.next⟩)⟩ := by
  obtain ⟨rest, owned, placed⟩ := owned_set isVec
  refine ⟨fun other member => ?_, (blank.destroy isVec).grown_short le_rfl, ?_⟩
  · rcases List.mem_or_eq_of_mem_set member with old | new
    · exact blank.empty other old
    · obtain rfl := Option.some.inj new
      exact ⟨rfl, rfl⟩
  · show (State.owned _ ++ vec.data :: s.memory.released).Perm (List.range (s.memory.next + 1))
    rw [List.range_succ]
    refine ((placed _ _).append_right _).trans ?_
    refine List.Perm.trans (List.Perm.cons _ ?_) (List.perm_append_singleton _ _).symm
    exact List.perm_middle.trans ((owned.append_right _).symm.trans blank.once)

theorem change_same {call : Vec → Run α Vec} (isVec : s.vectors[v]?.join = some vec)
    (same : call vec = pure vec) : s.change v call = .ok s := by
  obtain ⟨inside, isEntry⟩ := List.getElem?_eq_some_iff.mp (Option.join_eq_some_iff.mp isVec)
  rw [State.change, isVec]
  simp only [same]
  show Except.ok (State.mk s.memory (s.vectors.set v (some vec))) = Except.ok s
  rw [← isEntry, List.set_getElem_self]

/-- Every harmless call returns and keeps the buffers balanced. -/
theorem Blank.step (blank : Blank s) {op : Op α} (named : Named s op) (harmless : Harmless op) :
    ∃ after, s.step op = .ok after ∧ Blank after := by
  have exists_ : ∀ v ∈ op.names, ∃ vec, s.vectors[v]?.join = some vec ∧ vec.size = 0 := by
    intro v member
    obtain ⟨vec, isVec⟩ := Option.isSome_iff_exists.mp (named v member)
    exact ⟨vec, isVec, (blank.empty vec (mem_of_join isVec)).1⟩
  cases op with
  | construct size =>
    obtain rfl : size = 0 := harmless
    exact ⟨_, rfl, blank.make le_rfl⟩
  | copy obj =>
    obtain ⟨vec, isVec, noSize⟩ := exists_ obj List.mem_cons_self
    refine ⟨_, ?_, blank.make (Nat.zero_le 1)⟩
    simp only [State.step, isVec, State.make, copyOf, noSize, blank.capacity isVec]
    rfl
  | assign v obj =>
    obtain rfl : v = obj := harmless
    obtain ⟨vec, isVec, -⟩ := exists_ v List.mem_cons_self
    refine ⟨s, ?_, blank⟩
    simp only [State.step, isVec]
    exact change_same isVec rfl
  | popBack v =>
    obtain ⟨vec, isVec, noSize⟩ := exists_ v List.mem_cons_self
    exact ⟨s, change_same isVec (if_pos noSize), blank⟩
  | insert v current val
  | erase v current =>
    obtain ⟨vec, isVec, noSize⟩ := exists_ v List.mem_cons_self
    exact ⟨s, change_same isVec (if_pos (by rw [noSize]; exact harmless)), blank⟩
  | clear v =>
    obtain ⟨vec, isVec, -⟩ := exists_ v List.mem_cons_self
    refine ⟨_, ?_, blank.clear isVec⟩
    simp only [State.step, State.change, isVec]
    rfl
  | destroy v =>
    obtain ⟨vec, isVec, -⟩ := exists_ v List.mem_cons_self
    refine ⟨_, ?_, blank.destroy isVec⟩
    simp only [State.step, isVec]
    rfl
  | pushBack v val => exact harmless.elim
  | reserve v nsz => exact harmless.elim
  | shrinkToFit v => exact harmless.elim

/-- Destroying the vectors that are left releases the last buffers. -/
theorem Blank.destroyFrom (remaining v : Nat) {s : State α} (blank : Blank s)
    (gone : ∀ w : Nat, w < v → s.vectors[w]?.join = none)
    (enough : s.vectors.length ≤ v + remaining) :
    ∃ after, s.destroyFrom remaining v = .ok after ∧
      ∀ p < after.memory.next, after.memory.released.count p = 1 := by
  induction remaining generalizing s v with
  | zero =>
    refine ⟨s, rfl, fun p below => ?_⟩
    have none : s.owned = [] := by
      rw [State.owned, List.filterMap_eq_nil_iff]
      intro entry member
      obtain ⟨w, isEntry⟩ := List.mem_iff_getElem?.mp member
      obtain ⟨inside, -⟩ := List.getElem?_eq_some_iff.mp isEntry
      have isGone := gone w (by omega)
      rw [isEntry] at isGone
      rw [show entry = Option.none from isGone]
      rfl
    have once := blank.once
    rw [State.accounted, none, List.nil_append] at once
    rw [once.count_eq]
    exact List.count_eq_one_of_mem List.nodup_range (List.mem_range.mpr below)
  | succ remaining ih =>
    rw [State.destroyFrom]
    cases isVec : s.vectors[v]?.join with
    | none =>
      apply ih (v + 1) blank _ (by omega)
      intro w below
      by_cases isLast : w = v
      · rw [isLast]
        exact isVec
      · exact gone w (by omega)
    | some vec =>
      have stepped : s.step (.destroy v) =
          .ok ⟨s.memory.freed vec.data, s.vectors.set v none⟩ := by
        simp only [State.step, isVec]
        rfl
      rw [if_pos (by simp), stepped]
      apply ih (v + 1) (blank.destroy isVec)
      · intro w below
        rw [join_set (lt_of_join isVec)]
        split
        · rfl
        · exact gone w (by omega)
      · rw [List.length_set]
        omega

theorem finish_cons {op : Op α} {rest : List (Op α)} (stepped : s.step op = .ok after) :
    s.finish (op :: rest) = after.finish rest := by
  rw [State.finish, State.run, List.foldlM_cons, stepped]
  rfl

/-- From a state with empty vectors, exactly the harmless programs release every
buffer once. -/
theorem Blank.finish_iff (ops : List (Op α)) {s : State α} (blank : Blank s)
    (named : Along State.step Named s ops) :
    (∃ final, s.finish ops = .ok final ∧
        ∀ p < final.memory.next, final.memory.released.count p = 1) ↔
      ∀ op ∈ ops, Harmless op := by
  induction ops generalizing s with
  | nil =>
    refine iff_of_true ?_ (by simp)
    exact blank.destroyFrom s.vectors.length 0 (fun w below => absurd below (Nat.not_lt_zero w))
      (by omega)
  | cons op rest ih =>
    by_cases harmless : Harmless op
    · obtain ⟨middle, stepped, next⟩ := blank.step named.head harmless
      rw [finish_cons stepped, ih next (named.tail stepped),
        List.forall_mem_cons]
      exact (and_iff_right harmless).symm
    · refine iff_of_false ?_ fun all => harmless (all op List.mem_cons_self)
      rintro ⟨final, run, once⟩
      cases stepped : s.step op with
      | error fault =>
        rw [State.finish, State.run, List.foldlM_cons, stepped] at run
        cases run
      | ok middle =>
        rw [finish_cons stepped] at run
        obtain ⟨p, leaky⟩ := blank.harmful harmless stepped
        obtain ⟨exists_, notReleased⟩ := (finish_extends rest run).leaky leaky
        have count := once p exists_
        rw [List.count_eq_zero.mpr fun member => notReleased (List.mem_append_right _ member)]
          at count
        cases count

end Balanced

/-- Which programs release every buffer exactly once: those that never store an
element, reserve room, shrink a vector or assign it to another one, never erase the first
position, and never construct a vector of a size other than `0`. -/
theorem releases_once_iff {α : Type} (ops : List (Op α))
    (named : Along State.step Named start ops) :
    ReleasesOnce ops ↔ ∀ op ∈ ops, Harmless op := by
  have blank : Blank (start : State α) :=
    ⟨fun _ member => absurd member List.not_mem_nil, fun _ => Nat.zero_le 1, .refl []⟩
  exact blank.finish_iff ops named

theorem releases_once_empty_vectors :
    ReleasesOnce ([.construct 0, .copy 0, .clear 0, .insert 1 1 7, .assign 0 0, .destroy 1] :
      List (Op Nat)) :=
  (releases_once_iff _ (by decide +kernel)).mpr (by decide)

/-- One element pushed on a vector: the `temp` of `reserve` is never released. -/
theorem push_back_leaks :
    ∃ s : State Nat, start.finish [.construct 0, .pushBack 0 7] = .ok s ∧ s.memory.next = 3 ∧
      s.memory.released = [2, 0] :=
  ⟨_, rfl, rfl, rfl⟩

end Rexv6.Klib.Vector
