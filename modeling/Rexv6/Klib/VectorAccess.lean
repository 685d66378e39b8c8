import Rexv6.Klib.VectorLists

/-!
Contract: accesses to the elements of a `Vector` by index and by position.

Owns: `operator[]`, `erase` and `insert` at any position with the pointer they return,
which positions they reject, and for which `s` a `Vector(s)` can be used without an
access outside its buffer.

Does not own: the rules of the single operations (`VectorOperations`).
-/

namespace Rexv6.Klib.Vector

open Rexv6.Foundation
open Rexv6.Foundation.Execution (Along)
open Rexv6.Foundation.Program

/-! ## Positions -/

section Positions

variable {α : Type}

/-- `erase(pos)`, where `diff` is `pos - data_`. Returns the vector and the index of the
position returned, or no index for `nullptr`. -/
def eraseAt (v : Vec) (diff : Int) : Run α (Vec × Option Nat) :=
  if diff < 0 ∨ diff.toNat > v.size then pure (v, none)
  else do
    let current := diff.toNat
    let v ← erase v current
    pure (v, some current)

/-- `insert(pos, val)`. The comparison of `diff` is one of unsigned numbers. -/
def insertAt (v : Vec) (diff : Int) (val : α) : Run α (Vec × Option Nat) :=
  let current := (diff % 2 ^ 32).toNat
  if current < 0 ∨ current > v.size then pure (v, none)
  else do
    let v ← insert v current val
    pure (v, some current)

/-- A call at `diff` has changed the elements to `after` and returned the position if
`diff` is one of the indices below `limit`, and has returned `nullptr` and changed
nothing otherwise. -/
def Handled (m : Memory α) (vec : Vec) (diff : Int) (limit : Nat) (after : Nat → List (Option α))
    (result : Vec × Option Nat) (m' : Memory α) : Prop :=
  if 0 ≤ diff ∧ diff < limit then
    result.2 = some diff.toNat ∧ Becomes m vec (after diff.toNat) result.1 m'
  else result = (vec, none) ∧ m' = m

variable {m : Memory α} {vec : Vec} {list : List (Option α)} {diff : Int}

theorem eraseAt_meets (owns : Owns m vec list) (wf : m.Wf) (notEnd : diff ≠ vec.size) :
    Meets (eraseAt vec diff) m (Handled m vec diff vec.size fun i => list.eraseIdx i)
      fun _ => False := by
  unfold eraseAt Handled
  by_cases inside : 0 ≤ diff ∧ diff < vec.size
  · simp only [if_pos inside]
    rw [if_neg (by omega), meets_bind]
    exact (erase_meets owns wf (by omega)).mono fun _ _ becomes => ⟨rfl, becomes⟩
  · simp only [if_neg inside]
    rw [if_pos (by omega)]
    exact ⟨rfl, rfl⟩

/-- At the end of the vector `erase` never returns `nullptr`. -/
theorem eraseAt_end : Meets (eraseAt vec vec.size) m (fun result _ => result.2 = some vec.size)
    fun _ => True := by
  rw [eraseAt, if_neg (by omega), Int.toNat_natCast, meets_bind]
  exact meets_true.mono fun _ _ _ => rfl

theorem insertAt_meets (owns : Owns m vec list) (wf : m.Wf) (small : vec.size + 1 < 2 ^ 31)
    (low : -2 ^ 31 ≤ diff) (high : diff < 2 ^ 31) (val : α) :
    Meets (insertAt vec diff val) m
      (Handled m vec diff (vec.size + 1) fun i => list.insertIdx i (some val)) fun _ => False := by
  unfold insertAt Handled
  by_cases inside : 0 ≤ diff ∧ diff < (vec.size + 1 : Nat)
  · have same : (diff % 2 ^ 32).toNat = diff.toNat := by omega
    simp only [if_pos inside, same]
    rw [if_neg (by omega), meets_bind]
    exact (insert_meets owns wf val (by omega) small).mono fun _ _ becomes => ⟨rfl, becomes⟩
  · simp only [if_neg inside]
    rw [if_pos (by omega)]
    exact ⟨rfl, rfl⟩

/-! A vector of two or more elements whose buffer has only one. -/

theorem eraseAt_short (short : (m.cells vec.data).length ≤ 1) (small : vec.size < 2 ^ 31) {i : Nat}
    (inside : i + 1 < vec.size) :
    Meets (eraseAt vec i) m (fun _ _ => False) fun _ => True := by
  have turns : (vec.size + 2 ^ 32 - 1) % 2 ^ 32 - i = vec.size - i - 2 + 1 := by omega
  rw [eraseAt, if_neg (by omega), meets_bind]
  simp only [Int.toNat_natCast, erase, if_neg (by omega : ¬ i > vec.size), turns, eraseLoop]
  apply Meets.bind _ fun _ _ => False.elim
  exact (load_outside (by omega)).bind fun _ _ => False.elim

theorem copyLoop_short {target source turns : Nat} (different : source ≠ target)
    (short : (m.cells source).length ≤ 1) :
    Meets (copyLoop target source (turns + 2) 0) m (fun _ _ => False) fun _ => True := by
  apply (load_returns source 0).bind
  rintro value _ rfl
  apply (store_returns target 0 value).bind
  rintro _ _ rfl
  apply Meets.bind _ fun _ _ => False.elim
  apply load_outside
  rw [Memory.put_other _ different]
  exact short

theorem insertAt_short (short : (m.cells vec.data).length ≤ 1) (allocated : vec.data < m.next)
    (large : 1 < vec.size) (small : vec.size < 2 ^ 31) {i : Nat} (inside : i < vec.size) (val : α) :
    Meets (insertAt vec i val) m (fun _ _ => False) fun _ => True := by
  have noWrap : (vec.size + 1) % 2 ^ 32 = vec.size + 1 := Nat.mod_eq_of_lt (by omega)
  have isPlace : ((i : Int) % 2 ^ 32).toNat = i := by omega
  simp only [insertAt, isPlace, insert, if_neg (by omega : ¬ i > vec.size), Nat.not_lt_zero,
    false_or,
    makeRoom, reserve, noWrap]
  apply Meets.bind _ fun _ _ => False.elim
  by_cases full : vec.size + 1 ≥ vec.capacity
  · -- The elements are copied to `temp` first.
    have turns : vec.size = vec.size - 2 + 2 := by omega
    rw [if_pos full, if_pos full, moveTo, meets_bind, meets_bind, meets_allocate, meets_bind, turns]
    apply (copyLoop_short (Nat.ne_of_lt allocated) _).mono fun _ _ => False.elim
    rw [Memory.grown_old _ (Nat.ne_of_lt allocated)]
    exact short
  · have turns : vec.size - i = vec.size - i - 1 + 1 := by omega
    rw [if_neg full, meets_bind, meets_pure, turns, insertLoop]
    apply Meets.bind _ fun _ _ => False.elim
    exact (load_outside (by omega)).bind fun _ _ => False.elim

theorem construct_short {s : Nat} (large : 1 < s) :
    Meets (construct s) m (fun made after => made.size = s ∧ made.data < after.next ∧
      (after.cells made.data).length ≤ 1) fun _ => False := by
  rw [construct, if_pos (by omega), if_pos (by omega)]
  exact ⟨rfl, Nat.lt_succ_self _, (congrArg List.length (Memory.grown_new _ 1)).le⟩

end Positions

/-- In a vector that has its elements in its buffer, `erase` handles a position as it
should exactly if it is not the end of the vector, and `insert` handles all positions.
In a `Vector(s)` whose buffer is shorter than `s` neither handles the first one: `erase`
returns only at its last position or beyond, `insert` only beyond it. -/
theorem positions_handled_iff {α : Type} {m : Memory α} {vec : Vec} {list : List (Option α)}
    {diff : Int} (owns : Owns m vec list) (wf : m.Wf) (low : -2 ^ 31 ≤ diff)
    (high : diff < 2 ^ 31) :
    (Meets (eraseAt vec diff) m (Handled m vec diff vec.size fun i => list.eraseIdx i)
      (fun _ => False) ↔ diff ≠ vec.size) ∧
    (vec.size + 1 < 2 ^ 31 → ∀ val, Meets (insertAt vec diff val) m
      (Handled m vec diff (vec.size + 1) fun i => list.insertIdx i (some val)) fun _ => False) ∧
    ∀ s : Nat, s < 2 ^ 31 → Meets (construct s) m (fun made after =>
      (s ≤ 1 → Owns after made (List.replicate s none)) ∧
      (1 < s → (∀ i : Nat, i + 1 < s →
          Meets (eraseAt made i) after (fun _ _ => False) fun _ => True) ∧
        ∀ i : Nat, i < s → ∀ val,
          Meets (insertAt made i val) after (fun _ _ => False) fun _ => True))
      fun _ => False := by
  refine ⟨⟨?_, eraseAt_meets owns wf⟩, fun small val => insertAt_meets owns wf small low high val,
    fun s small => ?_⟩
  · rintro handled rfl
    obtain ⟨result, after, ran, isHandled⟩ := handled.returns
    have returned := eraseAt_end.of_run ran
    unfold Handled at isHandled
    rw [if_neg (by omega)] at isHandled
    rw [isHandled.1] at returned
    cases returned
  · by_cases large : 1 < s
    · apply (construct_short large).mono
      rintro made after ⟨rfl, allocated, short⟩
      refine ⟨fun atMostOne => absurd large (by omega), fun _ => ⟨?_, ?_⟩⟩
      · exact fun i inside => eraseAt_short short small inside
      · exact fun i inside => insertAt_short short allocated large small inside
    · exact (construct_meets wf (by omega)).mono fun made after makes =>
        ⟨fun _ => makes.owns, fun more => absurd more large⟩

def oneElement : Memory Nat := ⟨1, fun _ => [some 7], []⟩

theorem oneElement_owns : Owns oneElement ⟨1, 1, 0⟩ [some 7] := by
  refine ⟨Nat.one_pos, List.not_mem_nil, rfl, by decide, le_rfl, le_rfl, fun j below => ?_⟩
  rfl

/-- `erase(end())` removes the last element and returns a position. -/
theorem erase_end_removes_last : Meets (eraseAt ⟨1, 1, 0⟩ 1) oneElement
    (fun result _ => result = (⟨0, 1, 0⟩, some 1)) fun _ => False := rfl

/-- The first position of that vector. -/
theorem positions_handled_iff_first : Meets (eraseAt ⟨1, 1, 0⟩ 0) oneElement
    (Handled oneElement ⟨1, 1, 0⟩ 0 1 fun i => [some 7].eraseIdx i) fun _ => False :=
  (positions_handled_iff oneElement_owns (fun _ member => absurd member List.not_mem_nil)
    (by decide) (by decide)).1.mpr (by decide)

/-! ## `Vector(s)` -/

/-- A use of the vectors of a program: `operator[]`, or a call. -/
inductive Use (α : Type) where
  | subscript (v i : Nat)
  | call (op : Op α)

section Uses

variable {α : Type}

def State.use (s : State α) : Use α → Except Fault (State α)
  | .subscript v i => s.change v fun vec => do
    let _ ← load vec.data i
    pure vec
  | .call op => s.step op

/-- `operator[]` at indices below the size, `push_back`, `pop_back`, `insert` and copy
construction, of vectors that stay below `2 ^ 31` elements. -/
def Permitted (s : State α) : Use α → Prop
  | .subscript v i => ∃ vec ∈ s.vectors[v]?.join, i < vec.size
  | .call (.copy obj) => (s.vectors[obj]?.join).isSome
  | .call (.pushBack v _) => ∃ vec ∈ s.vectors[v]?.join, vec.size + 1 < 2 ^ 31
  | .call (.popBack v) => (s.vectors[v]?.join).isSome
  | .call (.insert v _ _) => ∃ vec ∈ s.vectors[v]?.join, vec.size + 1 < 2 ^ 31
  | .call _ => False

/-- Every vector has its elements, whatever they are, in a buffer of its own. -/
def Guarded (s : State α) : Prop := ∃ lists : List (Option (List (Option α))), Refines id s lists

variable {s : State α} {v : Nat} {vec : Vec}

theorem Guarded.change (guarded : Guarded s) (isVec : s.vectors[v]?.join = some vec)
    {call : Vec → Run α Vec} (f : List (Option α) → List (Option α))
    (spec : ∀ list, s.memory.Wf → Owns s.memory vec list → Meets (call vec) s.memory
      (fun result after => Becomes s.memory vec (f list) result after) fun _ => False) :
    ∃ after, s.change v call = .ok after ∧ Guarded after := by
  obtain ⟨lists, refines⟩ := guarded
  obtain ⟨after, stepped, kept⟩ := refines.change isVec (f := f) fun list owns => by
    rw [List.map_id] at owns ⊢
    exact spec list refines.wf owns
  exact ⟨after, stepped, _, kept⟩

/-- Every permitted use stays inside the buffers. -/
theorem Guarded.use (guarded : Guarded s) {use : Use α} (permitted : Permitted s use) :
    ∃ after, s.use use = .ok after ∧ Guarded after := by
  cases use with
  | subscript v i =>
    obtain ⟨vec, isVec, inside⟩ := permitted
    apply guarded.change isVec id
    intro list wf owns
    rw [owns.size] at inside
    have isAt := owns.elements i inside
    rw [List.getElem?_eq_getElem inside] at isAt
    rw [meets_bind, meets_load owns.live isAt]
    exact .refl owns wf
  | call op =>
    cases op with
    | copy obj =>
      obtain ⟨vec, isVec⟩ := Option.isSome_iff_exists.mp permitted
      obtain ⟨lists, refines⟩ := guarded
      obtain ⟨list, -, owns⟩ := refines.owns obj vec isVec
      obtain ⟨after, made, kept⟩ := refines.make (copyOf_meets owns refines.wf)
      exact ⟨after, by simp only [State.use, State.step, isVec, made], _, kept⟩
    | pushBack v val =>
      obtain ⟨vec, isVec, small⟩ := permitted
      exact guarded.change isVec _ fun list wf owns => pushBack_meets owns wf val small
    | popBack v =>
      obtain ⟨vec, isVec⟩ := Option.isSome_iff_exists.mp permitted
      exact guarded.change isVec _ fun list wf owns => popBack_meets owns wf
    | insert v current val =>
      obtain ⟨vec, isVec, small⟩ := permitted
      by_cases inside : current ≤ vec.size
      · exact guarded.change isVec _ fun list wf owns => insert_meets owns wf val inside small
      · apply guarded.change isVec id
        intro list wf owns
        rw [insert, if_pos (by omega)]
        exact .refl owns wf
    | construct _ | assign _ _ | erase _ _ | clear _ | reserve _ _ | shrinkToFit _ | destroy _ =>
      exact permitted.elim

theorem guarded_construct {size : Nat} (atMostOne : size ≤ 1) {first : State α}
    (made : start.step (.construct size) = .ok first) : Guarded first := by
  have none : Refines id (start : State α) [] := .start id
  have makes : Meets (construct size) (start : State α).memory
      (Makes (start : State α).memory ((List.replicate size Option.none).map id))
      fun _ => False := by
    rw [List.map_id]
    exact construct_meets none.wf atMostOne
  obtain ⟨after, stepped, refines⟩ := none.make makes
  obtain rfl := Except.ok.inj (made.symm.trans stepped)
  exact ⟨_, refines⟩

theorem construct_step {size : Nat} (some : size ≠ 0) : (start : State α).step (.construct size) =
    .ok ⟨(start.memory.grown (getCapacity size)).grown 1, [.some ⟨size, getCapacity size, 1⟩]⟩ := by
  simp only [State.step, State.make, construct, if_pos some]
  rfl

/-- The second element of a larger `Vector(s)` lies outside its buffer. -/
theorem construct_outside {size : Nat} (large : 1 < size) {first : State α}
    (made : start.step (.construct size) = .ok first) :
    Permitted first (.subscript 0 1) ∧ first.use (.subscript 0 1) = .error .outOfBounds := by
  rw [construct_step (by omega)] at made
  obtain rfl := Except.ok.inj made
  exact ⟨⟨_, rfl, large⟩, rfl⟩

end Uses

/-- A `Vector(s)` can be used without an access outside a buffer exactly if `s` is at
most 1. -/
theorem construct_usable_iff (α : Type) (s : Nat) :
    (∀ (first : State α) (uses : List (Use α)), start.step (.construct s) = .ok first →
      Along State.use Permitted first uses → ∃ final, uses.foldlM State.use first = .ok final) ↔
      s ≤ 1 := by
  constructor
  · intro usable
    by_contra large
    have made : (start : State α).step (.construct s) = _ := construct_step (by omega)
    obtain ⟨permitted, outside⟩ := construct_outside (by omega) made
    obtain ⟨final, ran⟩ := usable _ [.subscript 0 1] made
      ⟨permitted, by rw [outside]; trivial⟩
    obtain ⟨_, stepped, _⟩ := Execution.foldlM_cons_ok ran
    cases stepped
  · intro atMostOne first uses made permitted
    obtain ⟨final, ran, _⟩ := Execution.foldlM_progress Permitted Guarded
      (fun _ _ isPermitted guarded => guarded.use isPermitted) uses permitted
      (guarded_construct atMostOne made)
    exact ⟨final, ran⟩

/-- The last element of a `Vector(2)`. -/
theorem construct_two_outside : ∃ first : State Nat, start.step (.construct 2) = .ok first ∧
    Permitted first (.subscript 0 1) ∧ first.use (.subscript 0 1) = .error .outOfBounds :=
  ⟨_, rfl, construct_outside Nat.one_lt_two rfl⟩

end Rexv6.Klib.Vector
