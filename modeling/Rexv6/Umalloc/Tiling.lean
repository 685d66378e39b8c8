import Mathlib.Data.List.Basic
import Rexv6.Umalloc.Machine

/-!
Contract: a stretch of memory cut into blocks.

Owns: the blocks that lie one behind the other from an address on, where each of them
and of the free and the live ones starts, and how the lists change where the sequence of
blocks is split.

Does not own: headers and links, which `Rexv6.Umalloc.Invariant` puts on the blocks.
-/

namespace Rexv6.Umalloc

/-- A block with its number of units, header included. -/
structure Block where
  size : Nat
  free : Bool
deriving DecidableEq, Repr

variable {lo : Nat} {blocks xs ys : List Block} {b : Block} {x : Nat × Block}

def endOf (lo : Nat) : List Block → Nat
  | [] => lo
  | b :: rest => endOf (lo + headerSize * b.size) rest

def places (lo : Nat) : List Block → List (Nat × Block)
  | [] => []
  | b :: rest => (lo, b) :: places (lo + headerSize * b.size) rest

def frees (lo : Nat) (blocks : List Block) : List Nat :=
  ((places lo blocks).filter fun x => x.2.free).map Prod.fst

def lives (lo : Nat) (blocks : List Block) : List (Nat × Block) :=
  (places lo blocks).filter fun x => !x.2.free

@[simp] theorem endOf_append : endOf lo (xs ++ ys) = endOf (endOf lo xs) ys := by
  induction xs generalizing lo with
  | nil => rfl
  | cons b xs ih => exact ih

@[simp] theorem places_append : places lo (xs ++ ys) = places lo xs ++ places (endOf lo xs) ys := by
  induction xs generalizing lo with
  | nil => rfl
  | cons b xs ih => exact congrArg ((lo, b) :: ·) ih

@[simp] theorem frees_append : frees lo (xs ++ ys) = frees lo xs ++ frees (endOf lo xs) ys := by
  simp [frees]

@[simp] theorem lives_append : lives lo (xs ++ ys) = lives lo xs ++ lives (endOf lo xs) ys := by
  simp [lives]

@[simp] theorem frees_nil : frees lo [] = [] := rfl

@[simp] theorem lives_nil : lives lo [] = [] := rfl

@[simp] theorem frees_free {k : Nat} :
    frees lo (⟨k, true⟩ :: ys) = lo :: frees (lo + headerSize * k) ys := rfl

@[simp] theorem frees_live {k : Nat} :
    frees lo (⟨k, false⟩ :: ys) = frees (lo + headerSize * k) ys := rfl

@[simp] theorem lives_free {k : Nat} :
    lives lo (⟨k, true⟩ :: ys) = lives (lo + headerSize * k) ys := rfl

@[simp] theorem lives_live {k : Nat} :
    lives lo (⟨k, false⟩ :: ys) = (lo, ⟨k, false⟩) :: lives (lo + headerSize * k) ys := rfl

theorem mem_frees {a : Nat} : a ∈ frees lo blocks ↔ ∃ k, (a, ⟨k, true⟩) ∈ places lo blocks := by
  constructor
  · intro isFree
    obtain ⟨⟨address, size, free⟩, isPlaced, rfl⟩ := List.mem_map.mp isFree
    obtain ⟨isMember, isTrue⟩ := List.mem_filter.mp isPlaced
    have isFree : free = true := isTrue
    exact ⟨size, isFree ▸ isMember⟩
  · rintro ⟨k, isPlaced⟩
    exact List.mem_map.mpr ⟨_, List.mem_filter.mpr ⟨isPlaced, rfl⟩, rfl⟩

theorem mem_lives {a : Nat} :
    (a, b) ∈ lives lo blocks ↔ (a, b) ∈ places lo blocks ∧ b.free = false := by
  unfold lives
  rw [List.mem_filter, Bool.not_eq_true']

theorem le_endOf (lo : Nat) (blocks : List Block) : lo ≤ endOf lo blocks := by
  induction blocks generalizing lo with
  | nil => exact le_rfl
  | cons b rest ih => exact le_trans (Nat.le_add_right _ _) (ih _)

theorem places_bounds (isPlaced : x ∈ places lo blocks) :
    lo ≤ x.1 ∧ x.1 + headerSize * x.2.size ≤ endOf lo blocks ∧
      x.1 % headerSize = lo % headerSize := by
  induction blocks generalizing lo with
  | nil => cases isPlaced
  | cons b rest ih =>
    rcases List.mem_cons.mp isPlaced with isFirst | isLater
    · rw [isFirst]
      exact ⟨le_rfl, le_endOf _ _, rfl⟩
    · obtain ⟨above, below, aligned⟩ := ih isLater
      refine ⟨le_trans (Nat.le_add_right _ _) above, below, ?_⟩
      rw [aligned, Nat.add_mul_mod_self_left]

/-- A block stands where the ones before it end. -/
theorem places_split (isPlaced : x ∈ places lo blocks) :
    ∃ xs ys, blocks = xs ++ x.2 :: ys ∧ x.1 = endOf lo xs := by
  induction blocks generalizing lo with
  | nil => cases isPlaced
  | cons b rest ih =>
    rcases List.mem_cons.mp isPlaced with isFirst | isLater
    · rw [isFirst]
      exact ⟨[], rest, rfl, rfl⟩
    · obtain ⟨xs, ys, isRest, isAddress⟩ := ih isLater
      exact ⟨b :: xs, ys, by rw [isRest]; rfl, isAddress⟩

theorem mem_of_placed (isPlaced : x ∈ places lo blocks) : x.2 ∈ blocks := by
  obtain ⟨xs, ys, isSplit, _⟩ := places_split isPlaced
  rw [isSplit]
  exact List.mem_append_right _ List.mem_cons_self

section Positive

variable (positive : ∀ b ∈ blocks, 0 < b.size)

include positive

theorem places_inside (isPlaced : x ∈ places lo blocks) : lo ≤ x.1 ∧ x.1 < endOf lo blocks := by
  obtain ⟨above, below, _⟩ := places_bounds isPlaced
  have isPositive := positive x.2 (mem_of_placed isPlaced)
  simp only [headerSize] at below
  omega

theorem frees_inside {a : Nat} (isFree : a ∈ frees lo blocks) :
    lo ≤ a ∧ a < endOf lo blocks := by
  obtain ⟨size, isPlaced⟩ := mem_frees.mp isFree
  exact places_inside positive isPlaced

/-- No free block starts where the blocks do, if the first one is not free. -/
theorem lt_of_mem_frees (notFree : ∀ b ∈ blocks.head?, b.free = false) {a : Nat}
    (isFree : a ∈ frees lo blocks) : lo < a := by
  cases blocks with
  | nil => cases isFree
  | cons b rest =>
    have isLive : b = ⟨b.size, false⟩ := by rw [← notFree b rfl]
    have isPositive := positive b List.mem_cons_self
    rw [isLive, frees_live] at isFree
    have above := (frees_inside (fun c isMember => positive c (List.mem_cons_of_mem _ isMember))
      isFree).1
    simp only [headerSize] at above
    omega

/-- No free block ends where the blocks do, if the last one is not free. -/
theorem lt_endOf_of_free (notFree : ∀ b ∈ blocks.getLast?, b.free = false) {a k : Nat}
    (isPlaced : (a, ⟨k, true⟩) ∈ places lo blocks) : a + headerSize * k < endOf lo blocks := by
  rcases List.eq_nil_or_concat blocks with isNil | ⟨rest, b, isConcat⟩
  · rw [isNil] at isPlaced
    cases isPlaced
  · rw [List.concat_eq_append] at isConcat
    rw [isConcat] at positive notFree isPlaced ⊢
    have isPositive := positive b (List.mem_append_right _ List.mem_cons_self)
    have isLive := notFree b (by rw [List.getLast?_concat]; rfl)
    rw [places_append] at isPlaced
    rw [endOf_append]
    show a + headerSize * k < endOf lo rest + headerSize * b.size
    rcases List.mem_append.mp isPlaced with isBefore | isLast
    · have below := (places_bounds isBefore).2.1
      simp only [headerSize] at below ⊢
      omega
    · have same : ⟨k, true⟩ = b := congrArg Prod.snd (List.mem_singleton.mp isLast)
      rw [← same] at isLive
      cases isLive

theorem places_sorted : ((places lo blocks).map Prod.fst).Pairwise (· < ·) := by
  induction blocks generalizing lo with
  | nil => exact List.Pairwise.nil
  | cons b rest ih =>
    have isPositive := positive b List.mem_cons_self
    refine List.pairwise_cons.mpr ⟨?_, ih fun c isMember =>
      positive c (List.mem_cons_of_mem _ isMember)⟩
    intro a isLater
    obtain ⟨x, isPlaced, rfl⟩ := List.mem_map.mp isLater
    have above := (places_bounds isPlaced).1
    simp only [headerSize] at above
    omega

theorem frees_sorted : (frees lo blocks).Pairwise (· < ·) :=
  (places_sorted positive).sublist (List.filter_sublist.map Prod.fst)

theorem lives_other {front back : List (Nat × Block)} {a : Nat}
    (isLives : lives lo blocks = front ++ (a, b) :: back) : ∀ y ∈ front ++ back, y.1 ≠ a := by
  have sorted : ((lives lo blocks).map Prod.fst).Pairwise (· < ·) :=
    (places_sorted positive).sublist (List.filter_sublist.map Prod.fst)
  have nodup : ((lives lo blocks).map Prod.fst).Nodup := sorted.imp fun less => ne_of_lt less
  rw [isLives, List.map_append, List.map_cons, List.nodup_middle, ← List.map_append] at nodup
  intro y isMember same
  exact (List.nodup_cons.mp nodup).1 (List.mem_map.mpr ⟨y, isMember, same⟩)

theorem length_le : lo + blocks.length ≤ endOf lo blocks := by
  induction blocks generalizing lo with
  | nil => exact le_rfl
  | cons b rest ih =>
    have isPositive := positive b List.mem_cons_self
    have later : lo + headerSize * b.size + rest.length ≤ endOf (lo + headerSize * b.size) rest :=
      ih fun c isMember => positive c (List.mem_cons_of_mem _ isMember)
    show lo + (rest.length + 1) ≤ endOf (lo + headerSize * b.size) rest
    simp only [headerSize] at later ⊢
    omega

end Positive

theorem frees_length_le : (frees lo blocks).length ≤ blocks.length := by
  have isLength : ∀ (a : Nat) (bs : List Block), (places a bs).length = bs.length := by
    intro a bs
    induction bs generalizing a with
    | nil => rfl
    | cons c bs later => exact congrArg (· + 1) (later _)
  unfold frees
  rw [List.length_map, ← isLength lo blocks]
  exact List.length_filter_le _ _

end Rexv6.Umalloc
