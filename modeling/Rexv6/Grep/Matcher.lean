import Mathlib.Data.List.Basic

/-!
Contract: the matcher of `bin/grep/grep.c`.

Owns: `match`, `matchhere` and `matchstar` on strings, what a pattern means when it
is read from left to right, and that the matcher decides it.

Does not own: where the strings lie in memory. A string is the list of its characters
without the terminating NUL, a pointer into it the rest of the list.
-/

namespace Rexv6.Grep

/-! ## The code -/

def dot : UInt8 := 46
def star : UInt8 := 42
def dollar : UInt8 := 36
def caret : UInt8 := 94

/-- `matchstar`, where `here` is `matchhere` for the pattern behind the `*`. -/
def matchstar (here : List UInt8 → Bool) (c : UInt8) : List UInt8 → Bool
  | [] => here []
  | x :: text => here (x :: text) || ((x == c || c == dot) && matchstar here c text)

/-- The last part of `matchhere`: one character, and `here` for the pattern behind it. -/
def matchone (here : List UInt8 → Bool) (c : UInt8) : List UInt8 → Bool
  | [] => false
  | x :: text => (c == dot || c == x) && here text

/-- `matchhere`: search for a pattern at the beginning of the text. -/
def matchhere : List UInt8 → List UInt8 → Bool
  | [], _ => true
  | [c], text => if c = dollar then text.isEmpty else matchone (matchhere []) c text
  | c :: next :: re, text =>
    if next = star then matchstar (matchhere re) c text
    else matchone (matchhere (next :: re)) c text

/-- The loop of `match` over the positions of the text, the end included. -/
def search (re : List UInt8) : List UInt8 → Bool
  | [] => matchhere re []
  | x :: text => matchhere re (x :: text) || search re text

/-- `match`. -/
def grepMatch (re text : List UInt8) : Bool :=
  if re.head? = some caret then matchhere re.tail text else search re text

/-! ## What a pattern means -/

inductive Item where
  | repeated (c : UInt8)
  | single (c : UInt8)
  | atEnd
deriving DecidableEq

/-- A pattern read from left to right. -/
def items : List UInt8 → List Item
  | [] => []
  | [c] => if c = dollar then [.atEnd] else [.single c]
  | c :: next :: re =>
    if next = star then .repeated c :: items re else .single c :: items (next :: re)

def Stands (c x : UInt8) : Prop := c = dot ∨ x = c

/-- The string `word`, which `rest` follows, is one that the item stands for. -/
def Item.Accepts (word rest : List UInt8) : Item → Prop
  | .repeated c => ∀ x ∈ word, Stands c x
  | .single c => ∃ x, word = [x] ∧ Stands c x
  | .atEnd => word = [] ∧ rest = []

/-- `word`, which `rest` follows, is a sequence of strings that the items stand for. -/
def Accepts (rest : List UInt8) : List Item → List UInt8 → Prop
  | [], word => word = []
  | item :: others, word => ∃ front back, word = front ++ back ∧
      item.Accepts front (back ++ rest) ∧ Accepts rest others back

def Begins (parts : List Item) (text : List UInt8) : Prop :=
  ∃ word rest, text = word ++ rest ∧ Accepts rest parts word

section Meaning

variable {parts : List Item} {text : List UInt8} {c : UInt8}

theorem begins_nil : Begins [] text := ⟨[], text, rfl, rfl⟩

theorem begins_cons {item : Item} : Begins (item :: parts) text ↔
    ∃ front back, text = front ++ back ∧ item.Accepts front back ∧ Begins parts back := by
  constructor
  · rintro ⟨_, rest, isText, front, back, rfl, accepted, others⟩
    refine ⟨front, back ++ rest, ?_, accepted, back, rest, rfl, others⟩
    rw [isText, List.append_assoc]
  · rintro ⟨front, _, isText, accepted, back, rest, rfl, others⟩
    refine ⟨front ++ back, rest, ?_, front, back, rfl, accepted, others⟩
    rw [isText, List.append_assoc]

theorem begins_single_nil : ¬ Begins (.single c :: parts) [] := by
  rw [begins_cons]
  rintro ⟨_, back, isText, ⟨x, rfl, _⟩, _⟩
  cases isText

theorem begins_single_cons {x : UInt8} :
    Begins (.single c :: parts) (x :: text) ↔ Stands c x ∧ Begins parts text := by
  rw [begins_cons]
  constructor
  · rintro ⟨_, back, isText, ⟨y, rfl, stands⟩, others⟩
    obtain ⟨rfl, rfl⟩ := List.cons.inj isText
    exact ⟨stands, others⟩
  · rintro ⟨stands, others⟩
    exact ⟨[x], text, rfl, ⟨x, rfl, stands⟩, others⟩

theorem begins_atEnd : Begins [.atEnd] text ↔ text = [] := by
  rw [begins_cons]
  constructor
  · rintro ⟨front, back, isText, ⟨rfl, rfl⟩, _⟩
    exact isText
  · rintro rfl
    exact ⟨[], [], rfl, ⟨rfl, rfl⟩, begins_nil⟩

theorem begins_repeated_nil : Begins (.repeated c :: parts) [] ↔ Begins parts [] := by
  rw [begins_cons]
  constructor
  · rintro ⟨front, back, isText, _, others⟩
    obtain ⟨rfl, rfl⟩ := List.append_eq_nil_iff.mp isText.symm
    exact others
  · intro others
    exact ⟨[], [], rfl, fun x member => absurd member List.not_mem_nil, others⟩

/-- No repetition, or one and the rest of them. -/
theorem begins_repeated_cons {x : UInt8} : Begins (.repeated c :: parts) (x :: text) ↔
    Begins parts (x :: text) ∨ (Stands c x ∧ Begins (.repeated c :: parts) text) := by
  constructor
  · intro begins
    obtain ⟨front, back, isText, accepted, others⟩ := begins_cons.mp begins
    cases front with
    | nil =>
      rw [isText]
      exact Or.inl others
    | cons y front =>
      obtain ⟨rfl, rfl⟩ := List.cons.inj isText
      refine Or.inr ⟨accepted x List.mem_cons_self, begins_cons.mpr ⟨front, back, rfl, ?_, others⟩⟩
      exact fun z member => accepted z (List.mem_cons_of_mem _ member)
  · intro begins
    rw [begins_cons]
    cases begins with
    | inl others =>
      exact ⟨[], x :: text, rfl, fun y member => absurd member List.not_mem_nil, others⟩
    | inr both =>
      obtain ⟨front, back, rfl, accepted, others⟩ := begins_cons.mp both.2
      refine ⟨x :: front, back, rfl, fun y member => ?_, others⟩
      cases List.mem_cons.mp member with
      | inl isFirst =>
        rw [isFirst]
        exact both.1
      | inr later => exact accepted y later

/-! ## The code decides it -/

theorem stands_iff {x : UInt8} : (c == dot || c == x) = true ↔ Stands c x := by
  rw [Bool.or_eq_true, beq_iff_eq, beq_iff_eq, Stands, eq_comm (a := c) (b := x)]

theorem matchstar_iff {here : List UInt8 → Bool}
    (correct : ∀ text, here text = true ↔ Begins parts text) :
    matchstar here c text = true ↔ Begins (.repeated c :: parts) text := by
  induction text with
  | nil => rw [matchstar, correct, begins_repeated_nil]
  | cons x text ih =>
    rw [matchstar, Bool.or_eq_true, Bool.and_eq_true, correct, ih,
      begins_repeated_cons, Bool.or_comm, BEq.comm (a := x), stands_iff]

theorem matchone_iff {here : List UInt8 → Bool}
    (correct : ∀ text, here text = true ↔ Begins parts text) :
    matchone here c text = true ↔ Begins (.single c :: parts) text := by
  cases text with
  | nil => exact iff_of_false Bool.false_ne_true begins_single_nil
  | cons x text => rw [matchone, Bool.and_eq_true, correct, stands_iff, begins_single_cons]

theorem matchhere_iff (re : List UInt8) :
    ∀ text, matchhere re text = true ↔ Begins (items re) text := by
  fun_induction items re with
  | case1 => exact fun text => iff_of_true rfl begins_nil
  | case2 =>
    intro text
    rw [matchhere, if_pos rfl, List.isEmpty_iff, begins_atEnd]
  | case3 c plain =>
    intro text
    rw [matchhere, if_neg plain]
    exact matchone_iff fun text => iff_of_true rfl begins_nil
  | case4 c re ih =>
    intro text
    exact matchstar_iff ih
  | case5 c next re plain ih =>
    intro text
    rw [matchhere, if_neg plain]
    exact matchone_iff ih

theorem search_iff (re : List UInt8) : search re text = true ↔
    ∃ front back, text = front ++ back ∧ Begins (items re) back := by
  induction text with
  | nil =>
    rw [search, matchhere_iff]
    constructor
    · exact fun begins => ⟨[], [], rfl, begins⟩
    · rintro ⟨front, back, isText, begins⟩
      obtain ⟨rfl, rfl⟩ := List.append_eq_nil_iff.mp isText.symm
      exact begins
  | cons x text ih =>
    rw [search, Bool.or_eq_true, matchhere_iff, ih]
    constructor
    · rintro (begins | ⟨front, back, rfl, begins⟩)
      · exact ⟨[], x :: text, rfl, begins⟩
      · exact ⟨x :: front, back, rfl, begins⟩
    · rintro ⟨front, back, isText, begins⟩
      cases front with
      | nil =>
        rw [isText]
        exact Or.inl begins
      | cons y front =>
        obtain ⟨rfl, rfl⟩ := List.cons.inj isText
        exact Or.inr ⟨front, back, rfl, begins⟩

end Meaning

/-- `match` returns, and says whether some part of the text, or a first part of it
if the pattern begins with `^`, is one that the pattern stands for. -/
theorem grepMatch_iff (re text : List UInt8) : grepMatch re text = true ↔
    if re.head? = some caret then ∃ word rest, text = word ++ rest ∧
      Accepts rest (items re.tail) word
    else ∃ front word rest, text = front ++ (word ++ rest) ∧ Accepts rest (items re) word := by
  unfold grepMatch
  by_cases anchored : re.head? = some caret
  · rw [if_pos anchored, if_pos anchored, matchhere_iff]
    exact Iff.rfl
  · rw [if_neg anchored, if_neg anchored, search_iff]
    constructor
    · rintro ⟨front, _, isText, word, rest, rfl, accepted⟩
      exact ⟨front, word, rest, isText, accepted⟩
    · rintro ⟨front, word, rest, isText, accepted⟩
      exact ⟨front, word ++ rest, isText, word, rest, rfl, accepted⟩

end Rexv6.Grep
