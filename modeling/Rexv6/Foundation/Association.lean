import Mathlib.Logic.Basic

/-!
Contract: finite maps kept as lists of cells, of which some are empty.

Owns: the value of a key, the condition that no key is kept twice, and what
storing a pair in a cell or emptying a cell does to both.

Does not own: how a cell is found, and how cells are encoded.
-/

namespace Rexv6.Foundation.Association

section Store

variable {α β : Type}

/-- The list with another element at `index`, which may be its end. -/
def store (cells : List α) (index : Nat) (cell : α) : List α :=
  cells.take index ++ cell :: cells.drop (index + 1)

variable {cells : List α} {index : Nat} {cell : α}

theorem getElem?_store (inside : index ≤ cells.length) (other : Nat) :
    (store cells index cell)[other]? = if other = index then some cell else cells[other]? := by
  have taken : (cells.take index).length = index := by
    rw [List.length_take]
    omega
  unfold store
  by_cases before : other < index
  · rw [List.getElem?_append_left (by omega), List.getElem?_take, if_pos before,
      if_neg (by omega)]
  · rw [List.getElem?_append_right (by omega), taken]
    by_cases same : other = index
    · rw [if_pos same, same, Nat.sub_self, List.getElem?_cons_zero]
    · have position : other - index = other - (index + 1) + 1 := by omega
      have behind : index + 1 + (other - (index + 1)) = other := by omega
      rw [if_neg same, position, List.getElem?_cons_succ, List.getElem?_drop, behind]

theorem map_store (change : α → β) :
    (store cells index cell).map change = store (cells.map change) index (change cell) := by
  simp [store]

end Store

variable {K V : Type}

def Holds (cells : List (Option (K × V))) (index : Nat) (key : K) (value : V) : Prop :=
  cells[index]? = some (some (key, value))

def Unique (cells : List (Option (K × V))) : Prop :=
  ∀ ⦃left right key first second⦄, Holds cells left key first → Holds cells right key second →
    left = right

section Lookup

variable [DecidableEq K]

/-- The value of a key: the first cell that keeps one counts. -/
def lookup : List (Option (K × V)) → K → Option V
  | [], _ => none
  | none :: rest, key => lookup rest key
  | some (kept, value) :: rest, key => if kept = key then some value else lookup rest key

variable {cells : List (Option (K × V))} {index : Nat} {key : K} {value : V}

theorem lookup_eq_none : lookup cells key = none ↔
    ∀ index value, ¬ Holds cells index key value := by
  induction cells with
  | nil => simp [lookup, Holds]
  | cons cell rest ih =>
    have split : (∀ index value, ¬ Holds (cell :: rest) index key value) ↔
        (∀ value, cell ≠ some (key, value)) ∧ ∀ index value, ¬ Holds rest index key value := by
      constructor
      · intro absent
        refine ⟨fun value isCell => absent 0 value ?_, fun index value => absent (index + 1) value⟩
        rw [Holds, List.getElem?_cons_zero, isCell]
      · rintro ⟨notFirst, notRest⟩ index value holds
        cases index with
        | zero => exact notFirst value (Option.some.inj holds)
        | succ index => exact notRest index value holds
    rw [split]
    cases cell with
    | none => simp [lookup, ih]
    | some pair =>
      rw [lookup]
      by_cases same : pair.1 = key
      · rw [if_pos same]
        refine iff_of_false (by simp) ?_
        rintro ⟨notFirst, _⟩
        exact notFirst pair.2 (by rw [← same])
      · rw [if_neg same, ih]
        refine ⟨fun absent => ⟨fun value isPair => ?_, absent⟩, And.right⟩
        rw [Option.some.inj isPair] at same
        exact same rfl

theorem Holds.of_lookup (found : lookup cells key = some value) :
    ∃ index, Holds cells index key value := by
  induction cells with
  | nil => cases found
  | cons cell rest ih =>
    have later : lookup rest key = some value → ∃ index, Holds (cell :: rest) index key value := by
      intro foundLater
      obtain ⟨index, holds⟩ := ih foundLater
      exact ⟨index + 1, holds⟩
    cases cell with
    | none => exact later found
    | some pair =>
      rw [lookup] at found
      by_cases same : pair.1 = key
      · rw [if_pos same] at found
        exact ⟨0, by rw [Holds, List.getElem?_cons_zero, ← same, ← Option.some.inj found]⟩
      · rw [if_neg same] at found
        exact later found

/-- The value of a key is the one that its only cell keeps. -/
theorem Unique.lookup_eq (unique : Unique cells) (holds : Holds cells index key value) :
    lookup cells key = some value := by
  cases found : lookup cells key with
  | none => exact absurd holds (lookup_eq_none.mp found index value)
  | some other =>
    obtain ⟨otherIndex, otherHolds⟩ := Holds.of_lookup found
    rw [unique otherHolds holds] at otherHolds
    have same := Option.some.inj (Option.some.inj (otherHolds.symm.trans holds))
    rw [(Prod.mk.inj same).2]

theorem lookup_congr {cells' : List (Option (K × V))} (unique' : Unique cells')
    (same : ∀ value, (∃ index, Holds cells' index key value) ↔
      ∃ index, Holds cells index key value) :
    lookup cells' key = lookup cells key := by
  cases found : lookup cells key with
  | some value =>
    obtain ⟨index, holds⟩ := (same value).mpr (Holds.of_lookup found)
    exact unique'.lookup_eq holds
  | none =>
    rw [lookup_eq_none]
    intro index value holds
    obtain ⟨before, heldBefore⟩ := (same value).mp ⟨index, holds⟩
    exact lookup_eq_none.mp found before value heldBefore

end Lookup

section Edit

variable {cells : List (Option (K × V))} {index : Nat} {key : K} {value : V}

theorem holds_store {cell : Option (K × V)} (inside : index ≤ cells.length) {other : Nat} {k : K}
    {v : V} : Holds (store cells index cell) other k v ↔
      (other = index ∧ cell = some (k, v)) ∨ (other ≠ index ∧ Holds cells other k v) := by
  unfold Holds
  rw [getElem?_store inside]
  by_cases same : other = index
  · simp [same]
  · simp [same]

theorem Unique.put (unique : Unique cells) (value : V) (inside : index ≤ cells.length)
    (absent : ∀ other v, ¬ Holds cells other key v) :
    Unique (store cells index (some (key, value))) := by
  intro left right k first second leftHolds rightHolds
  rw [holds_store inside] at leftHolds rightHolds
  rcases leftHolds with ⟨isLeft, leftCell⟩ | ⟨_, leftHeld⟩
  · rcases rightHolds with ⟨isRight, _⟩ | ⟨_, rightHeld⟩
    · rw [isLeft, isRight]
    · have isKey := (Prod.mk.inj (Option.some.inj leftCell)).1
      exact absurd (isKey ▸ rightHeld) (absent _ _)
  · rcases rightHolds with ⟨_, rightCell⟩ | ⟨_, rightHeld⟩
    · have isKey := (Prod.mk.inj (Option.some.inj rightCell)).1
      exact absurd (isKey ▸ leftHeld) (absent _ _)
    · exact unique leftHeld rightHeld

theorem Unique.clear (unique : Unique cells) (inside : index ≤ cells.length) :
    Unique (store cells index none) := by
  intro left right k first second leftHolds rightHolds
  rw [holds_store inside] at leftHolds rightHolds
  rcases leftHolds with ⟨_, isNone⟩ | ⟨_, leftHeld⟩
  · cases isNone
  · rcases rightHolds with ⟨_, isNone⟩ | ⟨_, rightHeld⟩
    · cases isNone
    · exact unique leftHeld rightHeld

variable [DecidableEq K]

/-- A new key in an empty cell gets its value, and the others keep theirs. -/
theorem lookup_put (unique : Unique cells) (inside : index ≤ cells.length)
    (absent : lookup cells key = none) (empty : ∀ k v, ¬ Holds cells index k v) (other : K) :
    lookup (store cells index (some (key, value))) other =
      if other = key then some value else lookup cells other := by
  have stored := unique.put value inside (lookup_eq_none.mp absent)
  by_cases same : other = key
  · rw [if_pos same, same]
    exact stored.lookup_eq ((holds_store inside).mpr (Or.inl ⟨rfl, rfl⟩))
  · rw [if_neg same]
    apply lookup_congr stored
    intro v
    constructor
    · rintro ⟨position, holds⟩
      rcases (holds_store inside).mp holds with ⟨_, isPair⟩ | ⟨_, held⟩
      · exact absurd (Prod.mk.inj (Option.some.inj isPair)).1.symm same
      · exact ⟨position, held⟩
    · rintro ⟨position, held⟩
      refine ⟨position, (holds_store inside).mpr (Or.inr ⟨?_, held⟩)⟩
      rintro rfl
      exact empty _ _ held

/-- Emptying the cell of a key removes this key only. -/
theorem lookup_clear (unique : Unique cells) (holds : Holds cells index key value) (other : K) :
    lookup (store cells index none) other =
      if other = key then none else lookup cells other := by
  have inside : index ≤ cells.length := by
    have bound := (List.getElem?_eq_some_iff.mp holds).1
    omega
  have cleared := unique.clear inside
  by_cases same : other = key
  · rw [if_pos same, same, lookup_eq_none]
    intro position v held
    rcases (holds_store inside).mp held with ⟨_, isNone⟩ | ⟨different, heldBefore⟩
    · cases isNone
    · exact different (unique heldBefore holds)
  · rw [if_neg same]
    apply lookup_congr cleared
    intro v
    constructor
    · rintro ⟨position, held⟩
      rcases (holds_store inside).mp held with ⟨_, isNone⟩ | ⟨_, heldBefore⟩
      · cases isNone
      · exact ⟨position, heldBefore⟩
    · rintro ⟨position, held⟩
      refine ⟨position, (holds_store inside).mpr (Or.inr ⟨?_, held⟩)⟩
      rintro rfl
      have isPair := Option.some.inj (Option.some.inj (held.symm.trans holds))
      exact same (Prod.mk.inj isPair).1

end Edit

end Rexv6.Foundation.Association
