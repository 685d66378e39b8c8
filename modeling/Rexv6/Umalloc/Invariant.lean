import Mathlib.Data.List.Chain
import Rexv6.Foundation.Execution
import Rexv6.Umalloc.Tiling

/-!
Contract: `malloc` and `free` keep the heap in order.

Owns: the blocks that the headers and the free list stand for, what `free`, `morecore`
and `malloc` do to them, that their loops end, and what holds after every run of a
client.

Does not own: which block `malloc` chooses.
-/

namespace Rexv6.Umalloc

open Rexv6.Foundation
open Rexv6.Foundation.Execution (Along foldlM_progress)
open Function (update update_of_ne update_self)

variable {base lo k : Nat} {heap heap' : Heap} {blocks xs ys : List Block}

/-! ## Headers -/

def Headers (size : Nat → Nat) (lo : Nat) (blocks : List Block) : Prop :=
  ∀ x ∈ places lo blocks, size x.1 = x.2.size

theorem headers_append {size : Nat → Nat} : Headers size lo (xs ++ ys) ↔
    Headers size lo xs ∧ Headers size (endOf lo xs) ys := by
  unfold Headers
  rw [places_append]
  exact List.forall_mem_append

theorem headers_cons {size : Nat → Nat} {b : Block} : Headers size lo (b :: ys) ↔
    size lo = b.size ∧ Headers size (lo + headerSize * b.size) ys :=
  List.forall_mem_cons

/-- Only the fields from the first block to the last one matter. -/
theorem Headers.congr {size size' : Nat → Nat} (headers : Headers size lo blocks)
    (positive : ∀ b ∈ blocks, 0 < b.size)
    (same : ∀ a, lo ≤ a → a < endOf lo blocks → size' a = size a) : Headers size' lo blocks := by
  intro x isPlaced
  obtain ⟨above, below⟩ := places_inside positive isPlaced
  exact (same x.1 above below).trans (headers x isPlaced)

/-! ## The heap -/

/-- Two blocks that may stand side by side. -/
def Apart (first second : Block) : Prop := ¬ (first.free = true ∧ second.free = true)

theorem apart_resize {m : Nat} {free : Bool} (apart : (xs ++ ⟨k, free⟩ :: ys).IsChain Apart) :
    (xs ++ ⟨m, free⟩ :: ys).IsChain Apart := by
  obtain ⟨before, after, between⟩ := List.isChain_append.mp apart
  refine List.isChain_append.mpr ⟨before, ?_, ?_⟩
  · obtain ⟨first, rest⟩ := List.isChain_cons.mp after
    exact List.isChain_cons.mpr ⟨first, rest⟩
  · intro b isLast c isHead
    rw [← Option.some.inj isHead]
    exact between b isLast ⟨k, free⟩ rfl

theorem apart_live (before : xs.IsChain Apart) (after : ys.IsChain Apart) :
    (xs ++ ⟨k, false⟩ :: ys).IsChain Apart := by
  refine List.isChain_append.mpr ⟨before, List.isChain_cons.mpr ⟨?_, after⟩, ?_⟩
  · intro c _ both
    exact Bool.false_ne_true both.1
  · intro b _ c isHead both
    rw [← Option.some.inj isHead] at both
    exact Bool.false_ne_true both.2

/-- The blocks of the heap, from its start to its end, each with its size in its header. -/
structure Laid (base lo : Nat) (heap : Heap) (blocks : List Block) : Prop where
  positive : ∀ b ∈ blocks, 0 < b.size
  brk : endOf lo blocks = heap.brk
  headers : Headers heap.size lo blocks
  baseSize : heap.size base = 0

/-- The free list is a circle through `base` and the free blocks in the order of their
addresses, and no two free blocks stand side by side. -/
structure Tiled (base lo : Nat) (heap : Heap) (blocks : List Block) : Prop
    extends Laid base lo heap blocks where
  circle : Leads heap.ptr base (frees lo blocks) base
  freep : heap.freep ∈ base :: frees lo blocks
  apart : blocks.IsChain Apart

namespace Laid

variable {free : Bool}

theorem size (laid : Laid base lo heap (xs ++ ⟨k, free⟩ :: ys)) : heap.size (endOf lo xs) = k :=
  (headers_cons.mp (headers_append.mp laid.headers).2).1

theorem parts {zs : List Block} (laid : Laid base lo heap (xs ++ zs)) :
    (∀ b ∈ xs, 0 < b.size) ∧ ∀ b ∈ zs, 0 < b.size :=
  List.forall_mem_append.mp laid.positive

variable (below : base + headerSize ≤ lo)

include below

theorem before {zs : List Block} (laid : Laid base lo heap (xs ++ zs)) :
    ∀ a ∈ base :: frees lo xs, a < endOf lo xs := by
  intro a isMember
  rcases List.mem_cons.mp isMember with isBase | isFree
  · have start := le_endOf lo xs
    simp only [headerSize] at below
    omega
  · exact (frees_inside laid.parts.1 isFree).2

theorem sorted (laid : Laid base lo heap blocks) :
    (base :: frees lo blocks).Pairwise (· < ·) := by
  refine List.pairwise_cons.mpr ⟨?_, frees_sorted laid.positive⟩
  intro a isFree
  have above := (frees_inside laid.positive isFree).1
  simp only [headerSize] at below
  omega

theorem nodup (laid : Laid base lo heap blocks) : (base :: frees lo blocks).Nodup :=
  (laid.sorted below).imp fun less => ne_of_lt less

/-- Some blocks are replaced by others on the same memory. -/
theorem replace (mid mid' : List Block) (laid : Laid base lo heap (xs ++ (mid ++ ys)))
    (sameBrk : heap'.brk = heap.brk) (positive : ∀ b ∈ mid', 0 < b.size)
    (isEnd : endOf (endOf lo xs) mid' = endOf (endOf lo xs) mid)
    (headers : Headers heap'.size (endOf lo xs) mid')
    (others : ∀ a, a < endOf lo xs ∨ endOf (endOf lo xs) mid ≤ a → heap'.size a = heap.size a) :
    Laid base lo heap' (xs ++ (mid' ++ ys)) := by
  obtain ⟨front, rest⟩ := laid.parts
  obtain ⟨_, back⟩ := List.forall_mem_append.mp rest
  obtain ⟨headersBefore, headersFrom⟩ := headers_append.mp laid.headers
  obtain ⟨_, headersBehind⟩ := headers_append.mp headersFrom
  have isBrk := laid.brk
  rw [endOf_append, endOf_append] at isBrk
  refine ⟨List.forall_mem_append.mpr ⟨front, List.forall_mem_append.mpr ⟨positive, back⟩⟩,
    ?_, ?_, ?_⟩
  · rw [endOf_append, endOf_append, isEnd, isBrk, sameBrk]
  · refine headers_append.mpr ⟨?_, headers_append.mpr ⟨headers, ?_⟩⟩
    · exact headersBefore.congr front fun a _ less => others a (Or.inl less)
    · rw [isEnd]
      exact headersBehind.congr back fun a above _ => others a (Or.inr above)
  · rw [others base (Or.inl (laid.before below base List.mem_cons_self))]
    exact laid.baseSize

theorem flip {free' : Bool} (laid : Laid base lo heap (xs ++ ⟨k, free⟩ :: ys))
    (sameBrk : heap'.brk = heap.brk) (sameSize : heap'.size = heap.size) :
    Laid base lo heap' (xs ++ ⟨k, free'⟩ :: ys) := by
  have isPositive : 0 < k := laid.parts.2 _ List.mem_cons_self
  refine laid.replace below [⟨k, free⟩] [⟨k, free'⟩] sameBrk
    (List.forall_mem_singleton.mpr isPositive) rfl ?_ fun a _ => by rw [sameSize]
  rw [sameSize]
  exact List.forall_mem_singleton.mpr laid.size

theorem join {m : Nat} {free' : Bool}
    (laid : Laid base lo heap (xs ++ ⟨k, free⟩ :: ⟨m, free'⟩ :: ys))
    (sameBrk : heap'.brk = heap.brk)
    (isSize : heap'.size = update heap.size (endOf lo xs) (k + m)) :
    Laid base lo heap' (xs ++ ⟨k + m, true⟩ :: ys) := by
  have isPositive : 0 < k := laid.parts.2 _ List.mem_cons_self
  have isEnd : endOf lo xs + headerSize * (k + m) =
      endOf lo xs + headerSize * k + headerSize * m := by
    rw [Nat.mul_add, Nat.add_assoc]
  refine laid.replace below [⟨k, free⟩, ⟨m, free'⟩] [⟨k + m, true⟩] sameBrk
    (List.forall_mem_singleton.mpr (Nat.add_pos_left isPositive m)) isEnd ?_ ?_
  · rw [isSize]
    exact List.forall_mem_singleton.mpr (update_self _ _ _)
  · intro a outside
    rw [isSize]
    refine update_of_ne ?_ _ _
    rcases outside with less | above
    · exact ne_of_lt less
    · have atLeast : endOf lo xs + headerSize * k + headerSize * m ≤ a := above
      simp only [headerSize] at atLeast
      omega

end Laid

namespace Tiled

/-- The circle of free blocks from `freep` on. -/
theorem enter (tiled : Tiled base lo heap blocks) :
    ∃ others, Leads heap.ptr heap.freep others heap.freep ∧
      (heap.freep :: others) ~r (base :: frees lo blocks) :=
  tiled.circle.enter tiled.freep

/-- No loop through the free blocks takes more turns than the heap has bytes. -/
theorem length_lt (tiled : Tiled base lo heap blocks) {others : List Nat}
    (rotated : (heap.freep :: others) ~r (base :: frees lo blocks)) :
    others.length < heap.brk + 2 := by
  have same := rotated.perm.length_eq
  rw [List.length_cons, List.length_cons] at same
  have fewer : (frees lo blocks).length ≤ blocks.length := frees_length_le
  have bounded : lo + blocks.length ≤ endOf lo blocks := length_le tiled.positive
  rw [tiled.brk] at bounded
  omega

end Tiled

/-! ## Freeing a block -/

/-- The heap while `free` is at work on the block between `xs` and `ys`: the free blocks
before it and the block with those behind it are linked, but not yet to each other. -/
structure Loose (base lo : Nat) (heap : Heap) (xs : List Block) (k : Nat) (ys : List Block) :
    Prop extends Laid base lo heap (xs ++ ⟨k, true⟩ :: ys) where
  before : ∃ next, Leads heap.ptr base (frees lo xs) next
  after : Leads heap.ptr (endOf lo xs) (frees (endOf lo xs + headerSize * k) ys) base
  apartBefore : xs.IsChain Apart
  apartAfter : (⟨k, true⟩ :: ys).IsChain Apart

theorem Laid.behind {free : Bool} (laid : Laid base lo heap (xs ++ ⟨k, free⟩ :: ys)) :
    ∀ a ∈ frees (endOf lo xs + headerSize * k) ys, endOf lo xs < a := by
  intro a isFree
  obtain ⟨isPositive, back⟩ := List.forall_mem_cons.mp laid.parts.2
  have above := (frees_inside back isFree).1
  simp only [headerSize] at above
  dsimp only at isPositive
  omega

section Free

variable (below : base + headerSize ≤ lo)

include below

/-- The loop of `free` ends at the last free block before the block. -/
theorem Tiled.between_iff (tiled : Tiled base lo heap (xs ++ ⟨k, false⟩ :: ys)) {a : Nat}
    (isNode : a ∈ base :: frees lo (xs ++ ⟨k, false⟩ :: ys)) :
    heap.between (endOf lo xs) a = true ↔ a = (frees lo xs).getLastD base := by
  have sorted := tiled.sorted below
  have circle := tiled.circle
  have allBefore := tiled.toLaid.before below
  have allBehind := tiled.toLaid.behind
  rw [frees_append, frees_live] at isNode sorted circle
  have sortedBefore : (base :: frees lo xs).Pairwise (· < ·) :=
    sorted.sublist ((List.sublist_append_left _ _).cons_cons base)
  have isLast : (frees lo xs).getLastD base ∈ base :: frees lo xs := List.getLastD_mem_cons
  have lastBelow := allBefore _ isLast
  have baseBelow := allBefore base List.mem_cons_self
  have split : ∀ x ∈ base :: (frees lo xs ++ frees (endOf lo xs + headerSize * k) ys),
      x < endOf lo xs → x ∈ base :: frees lo xs := by
    intro x isAny less
    rcases List.mem_append.mp (List.cons_append ▸ isAny) with isBefore | isBehind
    · exact isBefore
    · exact absurd (allBehind x isBehind) (not_lt_of_gt less)
  have isNode' : (frees lo xs).getLastD base ∈
      base :: (frees lo xs ++ frees (endOf lo xs + headerSize * k) ys) :=
    List.cons_append ▸ List.mem_append_left _ isLast
  unfold Heap.between
  simp only [Bool.or_eq_true, Bool.and_eq_true, decide_eq_true_eq]
  constructor
  · intro stops
    rcases circle.successor sorted isNode with ⟨isBase, greatest⟩ | ⟨less, _, gap⟩
    · have isBelow : a < endOf lo xs := by omega
      exact le_antisymm (le_getLastD sortedBefore (split a isNode isBelow)) (greatest _ isNode')
    · have isBelow : a < endOf lo xs := by omega
      refine le_antisymm (le_getLastD sortedBefore (split a isNode isBelow)) ?_
      rcases gap _ isNode' with isLe | isGe
      · exact isLe
      · omega
  · intro isPred
    rw [isPred]
    cases behind : frees (endOf lo xs + headerSize * k) ys with
    | nil =>
      rw [behind, List.append_nil] at circle
      have isBase := circle.last
      have isLe := le_getLastD sortedBefore List.mem_cons_self
      omega
    | cons z rest =>
      rw [behind] at circle allBehind
      have isNext := (leads_append.mp circle).1.last
      have above := allBehind z List.mem_cons_self
      omega

theorem Tiled.seek_eq (tiled : Tiled base lo heap (xs ++ ⟨k, false⟩ :: ys)) :
    seek heap.ptr (heap.between (endOf lo xs)) (heap.brk + 2) heap.freep =
      some ((frees lo xs).getLastD base) := by
  obtain ⟨others, circle, rotated⟩ := tiled.enter
  refine seek_circle circle (rotated.nodup_iff.mpr (tiled.nodup below)) ?_ ?_
    (tiled.length_lt rotated)
  · rw [rotated.mem_iff, frees_append, ← List.cons_append]
    exact List.mem_append_left _ List.getLastD_mem_cons
  · intro a isMember
    exact tiled.between_iff below (rotated.mem_iff.mp isMember)

/-- The link of the block is set to where another one leads, and the free blocks before and
behind it keep theirs. -/
theorem Tiled.linked (tiled : Tiled base lo heap (xs ++ ⟨k, false⟩ :: ys)) {cell : Nat}
    {rest : List Nat} (after : Leads heap.ptr cell rest base)
    (isRest : ∀ a ∈ rest, endOf lo xs < a) :
    (∃ next, Leads (update heap.ptr (endOf lo xs) (heap.ptr cell)) base (frees lo xs) next) ∧
      Leads (update heap.ptr (endOf lo xs) (heap.ptr cell)) (endOf lo xs) rest base := by
  have circle := tiled.circle
  rw [frees_append] at circle
  obtain ⟨next, before⟩ := circle.before
  refine ⟨⟨next, before.congr ?_⟩, ?_⟩
  · intro a isMember
    exact update_of_ne (ne_of_lt (tiled.toLaid.before below a isMember)) _ _
  · have linked : Leads (update heap.ptr (endOf lo xs) (heap.ptr cell)) (endOf lo xs) []
        (heap.ptr cell) := update_self _ _ _
    exact linked.attach after fun a isMember => update_of_ne (ne_of_gt (isRest a isMember)) _ _

/-- The block behind the freed one is free, and they become one. -/
theorem Tiled.joins_next {m : Nat}
    (tiled : Tiled base lo heap (xs ++ ⟨k, false⟩ :: ⟨m, true⟩ :: ys)) :
    Loose base lo (heap.joinNext (endOf lo xs) ((frees lo xs).getLastD base)) xs (k + m) ys := by
  have circle := tiled.circle
  have allBehind := tiled.toLaid.behind
  rw [frees_append, frees_live] at circle
  have behind := circle.behind
  obtain ⟨before, after⟩ := tiled.linked below behind.2 fun a isMember =>
    allBehind a (List.mem_cons_of_mem _ isMember)
  have isNextSize : heap.size (endOf lo xs + headerSize * k) = m :=
    (headers_cons.mp (headers_cons.mp (headers_append.mp tiled.headers).2).2).1
  have joins : heap.behind (endOf lo xs) = heap.ptr ((frees lo xs).getLastD base) := by
    rw [Heap.behind, tiled.size, behind.1]
  rw [Heap.joinNext, if_pos joins, tiled.size, behind.1, isNextSize]
  have chain := List.isChain_append.mp tiled.apart
  refine ⟨tiled.toLaid.join below rfl rfl, before, ?_, chain.1, ?_⟩
  · rw [Nat.mul_add, ← Nat.add_assoc]
    exact after
  · exact @apart_resize m [] ys (k + m) true (List.isChain_cons.mp chain.2.1).2

/-- The block behind the freed one is not free, and the freed one is linked. -/
theorem Tiled.links_next (tiled : Tiled base lo heap (xs ++ ⟨k, false⟩ :: ys))
    (notFree : ∀ b ∈ ys.head?, b.free = false) :
    Loose base lo (heap.joinNext (endOf lo xs) ((frees lo xs).getLastD base)) xs k ys := by
  have circle := tiled.circle
  rw [frees_append, frees_live] at circle
  have behind := circle.behind
  obtain ⟨before, after⟩ := tiled.linked below behind tiled.toLaid.behind
  obtain ⟨isPositive, back⟩ := List.forall_mem_cons.mp tiled.toLaid.parts.2
  -- The next free block lies above the one directly behind, or is `base`.
  have apart : heap.behind (endOf lo xs) ≠ heap.ptr ((frees lo xs).getLastD base) := by
    have start := tiled.toLaid.before below base List.mem_cons_self
    rw [Heap.behind, tiled.size]
    cases isFrees : frees (endOf lo xs + headerSize * k) ys with
    | nil =>
      rw [isFrees] at behind
      have isBase : heap.ptr ((frees lo xs).getLastD base) = base := behind
      omega
    | cons z others =>
      rw [isFrees] at behind
      have above := lt_of_mem_frees back notFree (isFrees ▸ List.mem_cons_self)
      rw [behind.1]
      exact ne_of_lt above
  rw [Heap.joinNext, if_neg apart]
  have chain := List.isChain_append.mp tiled.apart
  refine ⟨tiled.toLaid.flip below rfl rfl, before, after, chain.1,
    List.isChain_cons.mpr ⟨?_, (List.isChain_cons.mp chain.2.1).2⟩⟩
  intro c isHead both
  rw [notFree c isHead] at both
  exact Bool.false_ne_true both.2

/-- The block before the freed one is free, and they become one. -/
theorem Loose.joins_prev {m : Nat} (loose : Loose base lo heap (xs ++ [⟨m, true⟩]) k ys) :
    Tiled base lo { heap.joinPrev (endOf lo (xs ++ [⟨m, true⟩])) (endOf lo xs) with
      freep := endOf lo xs } (xs ++ ⟨m + k, true⟩ :: ys) := by
  have laid := loose.toLaid
  have allBehind := laid.behind
  obtain ⟨next, before⟩ := loose.before
  have after := loose.after
  have isStart : endOf lo (xs ++ [⟨m, true⟩]) = endOf lo xs + headerSize * m := by
    rw [endOf_append]
    rfl
  have isSize := laid.size
  rw [List.append_assoc] at laid
  have isLastSize : heap.size (endOf lo xs) = m := laid.size
  have nodup := laid.nodup below
  have joins : heap.behind (endOf lo xs) = endOf lo (xs ++ [⟨m, true⟩]) := by
    rw [Heap.behind, isLastSize, isStart]
  rw [Heap.joinPrev, if_pos joins, isLastSize, isSize]
  rw [isStart] at after allBehind ⊢
  have isFrees : frees lo (xs ++ [⟨m, true⟩]) = frees lo xs ++ [endOf lo xs] := by
    rw [frees_append]
    rfl
  rw [isFrees] at before
  have nodupBefore : (base :: (frees lo xs ++ [endOf lo xs])).Nodup := by
    refine nodup.sublist (List.Sublist.cons_cons base ?_)
    rw [frees_append]
    exact (List.sublist_append_left [endOf lo xs] _).append_left _
  refine ⟨laid.join below rfl rfl, ?_, ?_, ?_⟩
  · rw [frees_append, frees_free, Nat.mul_add, ← Nat.add_assoc]
    have redirected := before.redirect nodupBefore (heap.ptr (endOf lo xs + headerSize * m))
    rw [List.getLastD_concat] at redirected
    have whole := redirected.attach after fun a isMember => by
      have above := allBehind a isMember
      refine update_of_ne ?_ _ _
      omega
    rw [List.append_assoc] at whole
    exact whole
  · rw [frees_append, frees_free]
    exact List.mem_cons_of_mem _ (List.mem_append_right _ List.mem_cons_self)
  · obtain ⟨chain, _, between⟩ := List.isChain_append.mp loose.apartBefore
    have resized : (⟨m, true⟩ :: ys).IsChain Apart := @apart_resize k [] ys m true loose.apartAfter
    exact apart_resize (List.isChain_append.mpr ⟨chain, resized, between⟩)

/-- The block before the freed one is not free, and the last free block before it is linked
to it. -/
theorem Loose.links_prev (loose : Loose base lo heap xs k ys)
    (notFree : ∀ b ∈ xs.getLast?, b.free = false) :
    Tiled base lo { heap.joinPrev (endOf lo xs) ((frees lo xs).getLastD base) with
      freep := (frees lo xs).getLastD base } (xs ++ ⟨k, true⟩ :: ys) := by
  obtain ⟨next, before⟩ := loose.before
  have front := loose.toLaid.parts.1
  have isMember : (frees lo xs).getLastD base ∈ base :: frees lo xs := List.getLastD_mem_cons
  have isBelow := loose.toLaid.before below _ isMember
  have apart : heap.behind ((frees lo xs).getLastD base) ≠ endOf lo xs := by
    rcases List.mem_cons.mp isMember with isBase | isFree
    · rw [isBase] at isBelow ⊢
      rw [Heap.behind, loose.baseSize]
      exact ne_of_lt isBelow
    · obtain ⟨size, isPlaced⟩ := mem_frees.mp isFree
      have isSize : heap.size ((frees lo xs).getLastD base) = size :=
        (headers_append.mp loose.headers).1 _ isPlaced
      rw [Heap.behind, isSize]
      exact ne_of_lt (lt_endOf_of_free front notFree isPlaced)
  rw [Heap.joinPrev, if_neg apart]
  have nodup : (base :: frees lo xs).Nodup := by
    refine (loose.nodup below).sublist (List.Sublist.cons_cons base ?_)
    rw [frees_append]
    exact List.sublist_append_left _ _
  refine ⟨loose.toLaid.flip below rfl rfl, ?_, ?_, ?_⟩
  · rw [frees_append, frees_free]
    refine leads_append.mpr ⟨before.redirect nodup _, loose.after.congr ?_⟩
    intro a isLater
    refine update_of_ne (ne_of_gt (lt_of_lt_of_le isBelow ?_)) _ _
    rcases List.mem_cons.mp isLater with isBlock | isBehind
    · exact le_of_eq isBlock.symm
    · exact le_of_lt (loose.toLaid.behind a isBehind)
  · rw [frees_append, ← List.cons_append]
    exact List.mem_append_left _ isMember
  · refine List.isChain_append.mpr ⟨loose.apartBefore, loose.apartAfter, ?_⟩
    intro b isLast c isHead both
    rw [notFree b isLast] at both
    exact Bool.false_ne_true both.1

/-- The first half of `free`: the block takes in the one behind it if that is free. -/
theorem Tiled.joinNext (tiled : Tiled base lo heap (xs ++ ⟨k, false⟩ :: ys)) :
    ∃ size rest,
      Loose base lo (heap.joinNext (endOf lo xs) ((frees lo xs).getLastD base)) xs size rest ∧
      k ≤ size ∧
      lives (endOf lo xs + headerSize * size) rest = lives (endOf lo xs + headerSize * k) ys := by
  by_cases isNext : ∃ m rest, ys = ⟨m, true⟩ :: rest
  · obtain ⟨m, rest, rfl⟩ := isNext
    refine ⟨k + m, rest, tiled.joins_next below, Nat.le_add_right k m, ?_⟩
    rw [lives_free, Nat.mul_add, Nat.add_assoc]
  · refine ⟨k, ys, tiled.links_next below ?_, le_rfl, rfl⟩
    intro b isHead
    obtain ⟨rest, isCons⟩ := List.head?_eq_some_iff.mp isHead
    cases b with
    | mk m free =>
      cases free with
      | true => exact absurd ⟨m, rest, isCons⟩ isNext
      | false => rfl

/-- The second half: the block before it takes it in if that is free. -/
theorem Loose.joinPrev (loose : Loose base lo heap xs k ys) :
    ∃ blocks, Tiled base lo { heap.joinPrev (endOf lo xs) ((frees lo xs).getLastD base) with
        freep := (frees lo xs).getLastD base } blocks ∧
      lives lo blocks = lives lo xs ++ lives (endOf lo xs + headerSize * k) ys ∧
      ∃ a m, (a, ⟨m, true⟩) ∈ places lo blocks ∧ k ≤ m := by
  by_cases isPrev : ∃ m rest, xs = rest ++ [⟨m, true⟩]
  · obtain ⟨m, rest, rfl⟩ := isPrev
    have isLast : (frees lo (rest ++ [⟨m, true⟩])).getLastD base = endOf lo rest := by
      rw [frees_append, frees_free, frees_nil, List.getLastD_concat]
    rw [isLast]
    refine ⟨_, loose.joins_prev below, ?_, endOf lo rest, m + k, ?_, Nat.le_add_left k m⟩
    · rw [lives_append, lives_free, lives_append, lives_free, lives_nil, List.append_nil,
        endOf_append, Nat.mul_add, ← Nat.add_assoc]
      rfl
    · rw [places_append]
      exact List.mem_append_right _ List.mem_cons_self
  · refine ⟨_, loose.links_prev below ?_, ?_, endOf lo xs, k, ?_, le_rfl⟩
    · intro b isLast
      obtain ⟨rest, isConcat⟩ := List.getLast?_eq_some_iff.mp isLast
      cases b with
      | mk m free =>
        cases free with
        | true => exact absurd ⟨m, rest, isConcat⟩ isPrev
        | false => rfl
    · rw [lives_append, lives_free]
    · rw [places_append]
      exact List.mem_append_right _ List.mem_cons_self

/-- `free` of a live block ends, and leaves the other live blocks alone. -/
theorem Tiled.free (tiled : Tiled base lo heap (xs ++ ⟨k, false⟩ :: ys)) :
    ∃ after blocks, heap.free (endOf lo xs + headerSize) = some after ∧
      Tiled base lo after blocks ∧
      lives lo blocks = lives lo xs ++ lives (endOf lo xs + headerSize * k) ys ∧
      ∃ a m, (a, ⟨m, true⟩) ∈ places lo blocks ∧ k ≤ m := by
  obtain ⟨size, rest, loose, grown, sameBehind⟩ := tiled.joinNext below
  obtain ⟨blocks, joined, isLives, a, m, isPlaced, isLarge⟩ := loose.joinPrev below
  refine ⟨_, blocks, ?_, joined, ?_, a, m, isPlaced, le_trans grown isLarge⟩
  · rw [Heap.free, Nat.add_sub_cancel, tiled.seek_eq below]
    rfl
  · rw [isLives, sameBehind]

/-! ## More core -/

/-- New memory is a block at the end of the heap, which is then freed. -/
theorem Tiled.morecore (tiled : Tiled base lo heap blocks) (nu : Nat) (granted : Bool) :
    ∃ after found, heap.morecore nu granted = some (after, found) ∧
      ∃ blocks', Tiled base lo after blocks' ∧ lives lo blocks' = lives lo blocks ∧
        (found = true → ∃ a m, (a, ⟨m, true⟩) ∈ places lo blocks' ∧ nu ≤ m) := by
  cases granted with
  | false => exact ⟨heap, false, rfl, blocks, tiled, rfl, fun isTrue => by cases isTrue⟩
  | true =>
    have enough : nu ≤ Heap.units nu ∧ 0 < Heap.units nu := by
      unfold Heap.units
      split <;> omega
    have extended : Tiled base lo
        { heap with
          brk := heap.brk + Heap.units nu * headerSize
          size := update heap.size heap.brk (Heap.units nu) }
        (blocks ++ [⟨Heap.units nu, false⟩]) := by
      have isBase : base < heap.brk := by
        have start := le_endOf lo blocks
        rw [tiled.brk] at start
        simp only [headerSize] at below
        omega
      have sameFrees : frees lo (blocks ++ [⟨Heap.units nu, false⟩]) = frees lo blocks := by
        rw [frees_append, frees_live, frees_nil, List.append_nil]
      refine ⟨⟨?_, ?_, ?_, ?_⟩, ?_, ?_, apart_live tiled.apart List.isChain_nil⟩
      · exact List.forall_mem_append.mpr
          ⟨tiled.positive, List.forall_mem_singleton.mpr enough.2⟩
      · rw [endOf_append, tiled.brk, Nat.mul_comm]
        rfl
      · refine headers_append.mpr ⟨?_, headers_cons.mpr ⟨?_, List.forall_mem_nil _⟩⟩
        · refine tiled.headers.congr tiled.positive fun a _ less => ?_
          exact update_of_ne (ne_of_lt (tiled.brk ▸ less)) _ _
        · rw [tiled.brk]
          exact update_self _ _ _
      · exact (update_of_ne (ne_of_lt isBase) _ _).trans tiled.baseSize
      · rw [sameFrees]
        exact tiled.circle
      · rw [sameFrees]
        exact tiled.freep
    obtain ⟨after, blocks', freed, afterTiled, isLives, a, m, isPlaced, isLarge⟩ :=
      extended.free below
    rw [tiled.brk] at freed
    refine ⟨after, true, ?_, blocks', afterTiled, ?_,
      fun _ => ⟨a, m, isPlaced, le_trans enough.1 isLarge⟩⟩
    · dsimp only [Heap.morecore, Heap.sbrk]
      rw [if_pos rfl]
      dsimp only
      rw [freed]
      rfl
    · rw [isLives, lives_nil, List.append_nil]

end Free

/-! ## Looking for a block -/

/-- The loop of `malloc` finds a block that is large enough, with the one before it, unless
there is none up to `freep`. -/
theorem scan_leads {nunits start fuel : Nat} {cells : List Nat}
    (leads : Leads heap.ptr start cells heap.freep) (isNew : heap.freep ∉ cells)
    (enough : cells.length < fuel) :
    (∃ prevp ∈ start :: cells, ∃ p ∈ cells ++ [heap.freep], heap.ptr prevp = p ∧
      nunits ≤ heap.size p ∧ heap.scan nunits fuel start = some (some (prevp, p))) ∨
    (heap.scan nunits fuel start = some none ∧
      ∀ a ∈ cells ++ [heap.freep], heap.size a < nunits) := by
  induction cells generalizing start fuel with
  | nil =>
    obtain ⟨fuel, rfl⟩ := Nat.exists_eq_add_of_lt enough
    have isFreep : heap.ptr start = heap.freep := leads
    by_cases fits : nunits ≤ heap.size heap.freep
    · refine Or.inl ⟨start, List.mem_cons_self, heap.freep, List.mem_singleton_self _, isFreep,
        fits, ?_⟩
      rw [Heap.scan, isFreep, if_pos fits]
    · refine Or.inr ⟨?_, ?_⟩
      · rw [Heap.scan, isFreep, if_neg fits, if_pos rfl]
      · intro a isMember
        rw [List.mem_singleton.mp isMember]
        exact Nat.lt_of_not_le fits
  | cons first cells ih =>
    cases fuel with
    | zero => exact absurd enough (Nat.not_lt_zero _)
    | succ fuel =>
      rw [Heap.scan, leads.1]
      by_cases fits : nunits ≤ heap.size first
      · refine Or.inl ⟨start, List.mem_cons_self, first, List.mem_cons_self, leads.1, fits, ?_⟩
        rw [if_pos fits]
      · have notFreep : first ≠ heap.freep := fun same => isNew (same ▸ List.mem_cons_self)
        rw [if_neg fits, if_neg notFreep]
        rcases ih leads.2 (fun isMember => isNew (List.mem_cons_of_mem _ isMember))
          (Nat.lt_of_succ_lt_succ enough) with
          ⟨prevp, isPrev, p, isMember, isNext, isLarge, found⟩ | ⟨none, small⟩
        · exact Or.inl ⟨prevp, List.mem_cons_of_mem _ isPrev, p,
            List.mem_cons_of_mem _ isMember, isNext, isLarge, found⟩
        · refine Or.inr ⟨none, ?_⟩
          intro a isMember
          rcases List.mem_cons.mp isMember with isFirst | isLater
          · rw [isFirst]
            exact Nat.lt_of_not_le fits
          · exact small a isLater

section Malloc

variable (below : base + headerSize ≤ lo)

include below

theorem Tiled.scan (tiled : Tiled base lo heap blocks) (nunits : Nat) :
    (∃ prevp ∈ base :: frees lo blocks, ∃ p ∈ base :: frees lo blocks, heap.ptr prevp = p ∧
      nunits ≤ heap.size p ∧
      heap.scan nunits (heap.brk + 2) heap.freep = some (some (prevp, p))) ∨
    (heap.scan nunits (heap.brk + 2) heap.freep = some none ∧
      ∀ a ∈ base :: frees lo blocks, heap.size a < nunits) := by
  obtain ⟨others, circle, rotated⟩ := tiled.enter
  have isNew := (List.nodup_cons.mp (rotated.nodup_iff.mpr (tiled.nodup below))).1
  have isNode : ∀ a, a ∈ others ++ [heap.freep] ↔ a ∈ base :: frees lo blocks := by
    intro a
    rw [← rotated.mem_iff, List.mem_append, List.mem_singleton, List.mem_cons, or_comm]
  rcases scan_leads circle isNew (tiled.length_lt rotated) with
    ⟨prevp, isPrev, p, isMember, isNext, isLarge, found⟩ | ⟨none, small⟩
  · exact Or.inl ⟨prevp, rotated.mem_iff.mp isPrev, p, (isNode p).mp isMember, isNext, isLarge,
      found⟩
  · exact Or.inr ⟨none, fun a isMember => small a ((isNode a).mpr isMember)⟩

/-- The whole block is taken, and the links lead past it. -/
theorem Tiled.take_whole (tiled : Tiled base lo heap (xs ++ ⟨k, true⟩ :: ys)) :
    Tiled base lo { heap with
      ptr := update heap.ptr ((frees lo xs).getLastD base) (heap.ptr (endOf lo xs))
      freep := (frees lo xs).getLastD base } (xs ++ ⟨k, false⟩ :: ys) := by
  have nodup := tiled.nodup below
  have circle := tiled.circle
  rw [frees_append, frees_free] at circle nodup
  obtain ⟨before, after⟩ := leads_append.mp circle
  have isPrev : (frees lo xs).getLastD base ∈ base :: frees lo xs := List.getLastD_mem_cons
  have isLess := tiled.toLaid.before below _ isPrev
  have chain := List.isChain_append.mp tiled.apart
  refine ⟨tiled.toLaid.flip below rfl rfl, ?_, ?_,
    apart_live chain.1 (List.isChain_cons.mp chain.2.1).2⟩
  · rw [frees_append, frees_live]
    have nodupBefore := nodup.sublist ((List.sublist_append_left _ _).cons_cons base)
    refine (before.redirect nodupBefore (heap.ptr (endOf lo xs))).attach after ?_
    intro a isMember
    exact update_of_ne (ne_of_gt (isLess.trans (tiled.toLaid.behind a isMember))) _ _
  · rw [frees_append, ← List.cons_append]
    exact List.mem_append_left _ isPrev

/-- The tail of the block is taken. -/
theorem Tiled.take_tail (tiled : Tiled base lo heap (xs ++ ⟨k, true⟩ :: ys)) {nunits : Nat}
    (isPositive : 0 < nunits) (isLess : nunits < k) {prevp : Nat}
    (isPrev : prevp ∈ base :: frees lo (xs ++ ⟨k, true⟩ :: ys)) :
    Tiled base lo { heap with
      size := update (update heap.size (endOf lo xs) (k - nunits))
        (endOf lo xs + headerSize * (k - nunits)) nunits
      freep := prevp } (xs ++ ⟨k - nunits, true⟩ :: ⟨nunits, false⟩ :: ys) := by
  have isEnd : endOf lo xs + headerSize * (k - nunits) + headerSize * nunits =
      endOf lo xs + headerSize * k := by
    simp only [headerSize]
    omega
  have sameFrees : frees lo (xs ++ ⟨k - nunits, true⟩ :: ⟨nunits, false⟩ :: ys) =
      frees lo (xs ++ ⟨k, true⟩ :: ys) := by
    rw [frees_append, frees_free, frees_live, isEnd, frees_append, frees_free]
  refine ⟨?_, ?_, ?_, ?_⟩
  · refine tiled.toLaid.replace below [⟨k, true⟩] [⟨k - nunits, true⟩, ⟨nunits, false⟩] rfl
      ?_ isEnd ?_ ?_
    · exact List.forall_mem_cons.mpr
        ⟨Nat.sub_pos_of_lt isLess, List.forall_mem_singleton.mpr isPositive⟩
    · have notTail : endOf lo xs ≠ endOf lo xs + headerSize * (k - nunits) := by
        simp only [headerSize]
        omega
      exact headers_cons.mpr ⟨(update_of_ne notTail _ _).trans (update_self _ _ _),
        List.forall_mem_singleton.mpr (update_self _ _ _)⟩
    · intro a outside
      have isOutside : a < endOf lo xs ∨ endOf lo xs + headerSize * k ≤ a := outside
      simp only [headerSize] at isOutside
      have notBlock : a ≠ endOf lo xs := by omega
      have notTail : a ≠ endOf lo xs + headerSize * (k - nunits) := by
        simp only [headerSize]
        omega
      exact (update_of_ne notTail _ _).trans (update_of_ne notBlock _ _)
  · rw [sameFrees]
    exact tiled.circle
  · rw [sameFrees]
    exact isPrev
  · have resized : (xs ++ ⟨k - nunits, true⟩ :: ys).IsChain Apart := apart_resize tiled.apart
    obtain ⟨before, after, between⟩ := List.isChain_append.mp resized
    rw [List.append_cons]
    refine apart_live ?_ (List.isChain_cons.mp after).2
    exact List.isChain_append.mpr ⟨before, List.isChain_singleton _, between⟩

theorem Tiled.take (tiled : Tiled base lo heap blocks) {nunits prevp p : Nat}
    (isPositive : 0 < nunits) (isPrev : prevp ∈ base :: frees lo blocks)
    (isNode : p ∈ base :: frees lo blocks) (isNext : heap.ptr prevp = p)
    (fits : nunits ≤ heap.size p) :
    ∃ after a blocks' front back, heap.take nunits prevp p = (after, a + headerSize) ∧
      Tiled base lo after blocks' ∧ lives lo blocks = front ++ back ∧
      lives lo blocks' = front ++ (a, ⟨nunits, false⟩) :: back := by
  have isFree : p ∈ frees lo blocks := by
    rcases List.mem_cons.mp isNode with isBase | isFree
    · rw [isBase, tiled.baseSize] at fits
      omega
    · exact isFree
  obtain ⟨k, isPlaced⟩ := mem_frees.mp isFree
  have isSize : heap.size p = k := tiled.headers _ isPlaced
  obtain ⟨xs, ys, isSplit, isAddress⟩ := places_split isPlaced
  dsimp only at isSplit isAddress
  rw [isSplit] at tiled isPrev ⊢
  rw [Heap.take, isSize]
  by_cases isWhole : k = nunits
  · -- The links lead from one block to the next, so that `prevp` is the block before `p`.
    have circle := tiled.circle
    have isPred : prevp = (frees lo xs).getLastD base := by
      refine circle.injective ?_ isPrev ?_ ?_
      · exact List.nodup_append_comm.mp (tiled.nodup below)
      · rw [frees_append, ← List.cons_append]
        exact List.mem_append_left _ List.getLastD_mem_cons
      · rw [frees_append, frees_free] at circle
        rw [isNext, isAddress]
        exact (leads_append.mp circle).1.last.symm
    rw [if_pos isWhole, isPred, isAddress]
    refine ⟨_, endOf lo xs, _, lives lo xs, lives (endOf lo xs + headerSize * k) ys, rfl,
      tiled.take_whole below, ?_, ?_⟩
    · rw [lives_append, lives_free]
    · rw [lives_append, lives_live, isWhole]
  · have isLess : nunits < k := by omega
    have isEnd : endOf lo xs + headerSize * (k - nunits) + headerSize * nunits =
        endOf lo xs + headerSize * k := by
      simp only [headerSize]
      omega
    rw [if_neg isWhole, isAddress]
    refine ⟨_, endOf lo xs + headerSize * (k - nunits), _, lives lo xs,
      lives (endOf lo xs + headerSize * k) ys, rfl,
      tiled.take_tail below isPositive isLess isPrev, ?_, ?_⟩
    · rw [lives_append, lives_free]
    · rw [lives_append, lives_free, lives_live, isEnd]

/-- What `malloc` returns: nothing, or a new live block. -/
def Given (lo nunits : Nat) (before : List Block) (ap : Nat) (after : List Block) : Prop :=
  ap = 0 ∧ lives lo after = lives lo before ∨
    ∃ a front back, ap = a + headerSize ∧ lives lo before = front ++ back ∧
      lives lo after = front ++ (a, ⟨nunits, false⟩) :: back

/-- The loop of `malloc` ends, after one more round if there is more core. -/
theorem Tiled.search (tiled : Tiled base lo heap blocks) {nunits : Nat} (isPositive : 0 < nunits)
    (granted : Nat → Bool) :
    ∃ after ap blocks', Heap.search nunits granted 2 heap = some (after, ap) ∧
      Tiled base lo after blocks' ∧ Given lo nunits blocks ap blocks' := by
  rw [Heap.search]
  rcases tiled.scan below nunits with ⟨prevp, isPrev, p, isNode, isNext, fits, found⟩ | ⟨none, _⟩
  · obtain ⟨after, a, blocks', front, back, isTaken, afterTiled, isLives, isLives'⟩ :=
      tiled.take below isPositive isPrev isNode isNext fits
    refine ⟨after, a + headerSize, blocks', ?_, afterTiled,
      Or.inr ⟨a, front, back, rfl, isLives, isLives'⟩⟩
    rw [found]
    exact congrArg some isTaken
  · obtain ⟨more, moreFound, isMore, moreBlocks, moreTiled, sameLives, isLarge⟩ :=
      tiled.morecore below nunits (granted heap.brk)
    rw [none]
    cases moreFound with
    | false =>
      refine ⟨more, 0, moreBlocks, ?_, moreTiled, Or.inl ⟨rfl, sameLives⟩⟩
      show (heap.morecore nunits (granted heap.brk) >>= _) = _
      rw [isMore]
      rfl
    | true =>
      obtain ⟨a, m, isPlaced, enough⟩ := isLarge rfl
      have isFree : a ∈ base :: frees lo moreBlocks :=
        List.mem_cons_of_mem _ (mem_frees.mpr ⟨m, isPlaced⟩)
      have isSize : more.size a = m := moreTiled.headers _ isPlaced
      rcases moreTiled.scan below nunits with
        ⟨prevp, isPrev, p, isNode, isNext, fits, found⟩ | ⟨_, small⟩
      · obtain ⟨after, address, blocks', front, back, isTaken, afterTiled, isLives, isLives'⟩ :=
          moreTiled.take below isPositive isPrev isNode isNext fits
        refine ⟨after, address + headerSize, blocks', ?_, afterTiled,
          Or.inr ⟨address, front, back, rfl, sameLives.symm.trans isLives, isLives'⟩⟩
        show (heap.morecore nunits (granted heap.brk) >>= _) = _
        rw [isMore]
        show Heap.search nunits granted 1 more = _
        rw [Heap.search, found]
        exact congrArg some isTaken
      · have tooSmall := small a isFree
        omega

end Malloc

/-! ## The client -/

/-- The blocks of a state: none before the first `malloc`. -/
def Blocks (base lo : Nat) (heap : Heap) (blocks : List Block) : Prop :=
  Tiled base lo heap blocks ∨ heap.freep = 0 ∧ heap.brk = lo ∧ blocks = []

/-- The pointers the client holds are those of the live blocks, each with room for what was
asked for. -/
structure Owned (lo : Nat) (live : Nat → Option Nat) (blocks : List Block) : Prop where
  room : ∀ ap n, live ap = some n → ∃ a size, ap = a + headerSize ∧
    (a, ⟨size, false⟩) ∈ lives lo blocks ∧ n + headerSize ≤ headerSize * size
  held : ∀ x ∈ lives lo blocks, live (x.1 + headerSize) ≠ none

structure Inv (base lo : Nat) (s : State) (blocks : List Block) : Prop where
  tiles : Blocks base lo s.heap blocks
  owned : Owned lo s.live blocks

/-- What the client may do: ask for `2 ^ 28` bytes at most, free a pointer it holds, and write
to the bytes it asked for. -/
def Proper (s : State) : Action → Prop
  | .malloc n _ => n ≤ 2 ^ 28
  | .free ap => s.live ap ≠ none
  | .store ap i _ _ => ∃ n, s.live ap = some n ∧ i < n

theorem nunits_bounds {n : Nat} (isSmall : n + headerSize ≤ 2 ^ 32) :
    n + headerSize ≤ headerSize * Heap.nunits n := by
  simp only [Heap.nunits, headerSize] at isSmall ⊢
  omega

section Client

variable (below : base + headerSize ≤ lo) (positive : 0 < base)

include below positive

theorem Tiled.freep_ne_zero (tiled : Tiled base lo heap blocks) : heap.freep ≠ 0 := by
  intro isNull
  have isNode := tiled.freep
  rcases List.mem_cons.mp isNode with isBase | isFree
  · omega
  · have above := (frees_inside tiled.positive isFree).1
    omega

theorem Blocks.malloc (isBlocks : Blocks base lo heap blocks) (n : Nat) (granted : Nat → Bool) :
    ∃ after ap blocks', heap.malloc base n granted = some (after, ap) ∧
      Tiled base lo after blocks' ∧ Given lo (Heap.nunits n) blocks ap blocks' := by
  have isPositive : 0 < Heap.nunits n := Nat.succ_pos _
  unfold Heap.malloc
  rcases isBlocks with tiled | ⟨isNull, isBrk, isNil⟩
  · rw [if_neg (tiled.freep_ne_zero below positive)]
    exact tiled.search below isPositive granted
  · rw [if_pos isNull, isNil]
    have empty : Tiled base lo { heap with
        ptr := update heap.ptr base base
        size := update heap.size base 0
        freep := base } [] :=
      ⟨⟨List.forall_mem_nil _, isBrk.symm, List.forall_mem_nil _, update_self _ _ _⟩,
        update_self _ _ _, List.mem_cons_self, List.isChain_nil⟩
    exact empty.search below isPositive granted

omit below positive in
theorem Owned.give {live : Nat → Option Nat} {blocks' : List Block} {n ap : Nat}
    (owned : Owned lo live blocks) (isSmall : n ≤ 2 ^ 28)
    (given : Given lo (Heap.nunits n) blocks ap blocks') :
    Owned lo (if ap = 0 then live else update live ap (some n)) blocks' := by
  rcases given with ⟨isNull, sameLives⟩ | ⟨a, front, back, isAddress, isLives, isLives'⟩
  · rw [if_pos isNull]
    exact ⟨sameLives ▸ owned.room, sameLives ▸ owned.held⟩
  · have notNull : ap ≠ 0 := by
      rw [isAddress]
      exact Nat.succ_ne_zero _
    have isMember : ∀ x, x ∈ lives lo blocks' ↔
        x = (a, ⟨Heap.nunits n, false⟩) ∨ x ∈ lives lo blocks := by
      intro x
      rw [isLives, isLives', List.mem_append, List.mem_append, List.mem_cons]
      exact or_left_comm
    rw [if_neg notNull]
    constructor
    · intro other m isLive
      by_cases isAp : other = ap
      · rw [isAp, update_self] at isLive
        have fits : n + headerSize ≤ 2 ^ 32 :=
          le_trans (Nat.add_le_add_right isSmall headerSize) (by decide)
        rw [isAp, ← Option.some.inj isLive]
        exact ⟨a, Heap.nunits n, isAddress, (isMember _).mpr (Or.inl rfl), nunits_bounds fits⟩
      · rw [update_of_ne isAp] at isLive
        obtain ⟨address, size, isOther, isOld, room⟩ := owned.room other m isLive
        exact ⟨address, size, isOther, (isMember _).mpr (Or.inr isOld), room⟩
    · intro x isLive
      by_cases isAp : x.1 + headerSize = ap
      · rw [isAp, update_self]
        exact Option.some_ne_none n
      · rw [update_of_ne isAp]
        rcases (isMember x).mp isLive with isNew | isOld
        · rw [isNew] at isAp
          exact absurd isAddress.symm isAp
        · exact owned.held x isOld

omit below positive in
/-- What `malloc` returns is not a pointer that the client holds. -/
theorem Owned.fresh {live : Nat → Option Nat} {blocks' : List Block} {n ap : Nat}
    (owned : Owned lo live blocks) (allPositive : ∀ b ∈ blocks', 0 < b.size)
    (given : Given lo n blocks ap blocks') (notNull : ap ≠ 0) : live ap = none := by
  rcases given with ⟨isNull, _⟩ | ⟨a, front, back, isAddress, isLives, isLives'⟩
  · exact absurd isNull notNull
  · refine Option.eq_none_iff_forall_ne_some.mpr fun m isLive => ?_
    obtain ⟨a', size, isAddress', isBlock, _⟩ := owned.room ap m isLive
    rw [isLives] at isBlock
    exact lives_other allPositive isLives' _ isBlock
      (Nat.add_right_cancel (isAddress'.symm.trans isAddress))

omit below positive in
theorem Owned.drop {live : Nat → Option Nat} {blocks' : List Block} {a : Nat} {b : Block}
    {front back : List (Nat × Block)} (owned : Owned lo live blocks)
    (allPositive : ∀ b ∈ blocks, 0 < b.size)
    (isLives : lives lo blocks = front ++ (a, b) :: back)
    (isLives' : lives lo blocks' = front ++ back) :
    Owned lo (update live (a + headerSize) none) blocks' := by
  have isMember : ∀ x, x ∈ lives lo blocks ↔ x = (a, b) ∨ x ∈ lives lo blocks' := by
    intro x
    rw [isLives, isLives', List.mem_append, List.mem_append, List.mem_cons]
    exact or_left_comm
  constructor
  · intro other m isOther
    have notAp : other ≠ a + headerSize := by
      intro same
      rw [same, update_self] at isOther
      cases isOther
    rw [update_of_ne notAp] at isOther
    obtain ⟨address, size, isAddress, isOld, room⟩ := owned.room other m isOther
    rcases (isMember _).mp isOld with isSame | isKept
    · have same : address = a := congrArg Prod.fst isSame
      exact absurd (same ▸ isAddress) notAp
    · exact ⟨address, size, isAddress, isKept, room⟩
  · intro x isKept
    have notAp : x.1 + headerSize ≠ a + headerSize := fun same =>
      lives_other allPositive isLives x (isLives' ▸ isKept) (Nat.add_right_cancel same)
    rw [update_of_ne notAp]
    exact owned.held x ((isMember x).mpr (Or.inr isKept))

omit below positive in
theorem Inv.split {s : State} (inv : Inv base lo s blocks) {ap n : Nat}
    (isLive : s.live ap = some n) : ∃ xs k ys, blocks = xs ++ ⟨k, false⟩ :: ys ∧
      ap = endOf lo xs + headerSize ∧ n + headerSize ≤ headerSize * k ∧
      Tiled base lo s.heap (xs ++ ⟨k, false⟩ :: ys) := by
  obtain ⟨a, k, isAddress, isBlock, room⟩ := inv.owned.room ap n isLive
  obtain ⟨isPlaced, _⟩ := mem_lives.mp isBlock
  obtain ⟨xs, ys, isSplit, isEnd⟩ := places_split isPlaced
  rcases inv.tiles with tiled | ⟨_, _, isNil⟩
  · exact ⟨xs, k, ys, isSplit, isAddress.trans (congrArg (· + headerSize) isEnd), room,
      isSplit ▸ tiled⟩
  · rw [isNil] at isPlaced
    cases isPlaced

omit positive in
theorem Inv.free {s : State} (inv : Inv base lo s blocks) {ap : Nat} (isHeld : s.live ap ≠ none) :
    ∃ after blocks', s.heap.free ap = some after ∧
      Inv base lo ⟨after, update s.live ap none⟩ blocks' := by
  obtain ⟨n, isLive⟩ := Option.ne_none_iff_exists'.mp isHeld
  obtain ⟨xs, k, ys, isSplit, isAddress, _, tiled⟩ := inv.split isLive
  obtain ⟨after, blocks', freed, afterTiled, isLives, _⟩ := tiled.free below
  have owned := inv.owned
  rw [isSplit] at owned
  have isOld : lives lo (xs ++ ⟨k, false⟩ :: ys) = lives lo xs ++ (endOf lo xs, ⟨k, false⟩) ::
      lives (endOf lo xs + headerSize * k) ys := by
    rw [lives_append, lives_live]
  rw [isAddress]
  exact ⟨after, blocks', freed, Or.inl afterTiled, owned.drop tiled.positive isOld isLives⟩

omit positive in
/-- The client writes inside of a live block, where no header is. -/
theorem Inv.store {s : State} (inv : Inv base lo s blocks) {ap i n : Nat}
    (isLive : s.live ap = some n) (isWithin : i < n) (ptr size : Nat) :
    Inv base lo { s with heap := { s.heap with
      ptr := update s.heap.ptr (ap + i) ptr
      size := update s.heap.size (ap + i) size } } blocks := by
  obtain ⟨xs, k, ys, isSplit, isAddress, room, tiled⟩ := inv.split isLive
  have isInside : endOf lo xs < ap + i ∧ ap + i < endOf lo xs + headerSize * k := by
    simp only [headerSize] at isAddress room ⊢
    omega
  refine ⟨Or.inl ?_, inv.owned⟩
  rw [isSplit]
  refine ⟨?_, tiled.circle.congr ?_, tiled.freep, tiled.apart⟩
  · refine tiled.toLaid.replace below [⟨k, false⟩] [⟨k, false⟩] rfl ?_ rfl ?_ ?_
    · exact List.forall_mem_singleton.mpr (tiled.toLaid.parts.2 _ List.mem_cons_self)
    · exact List.forall_mem_singleton.mpr
        ((update_of_ne (ne_of_lt isInside.1) _ _).trans tiled.size)
    · intro a outside
      have isOutside : a < endOf lo xs ∨ endOf lo xs + headerSize * k ≤ a := outside
      have different : a ≠ ap + i := by omega
      exact update_of_ne different _ _
  · intro x isNode
    refine update_of_ne ?_ _ _
    rw [frees_append, frees_live, ← List.cons_append] at isNode
    rcases List.mem_append.mp isNode with isBefore | isBehind
    · have isBelow := tiled.toLaid.before below x isBefore
      omega
    · have back := (List.forall_mem_cons.mp tiled.toLaid.parts.2).2
      have isAbove := (frees_inside back isBehind).1
      omega

theorem Inv.step {s : State} (inv : Inv base lo s blocks) {action : Action}
    (proper : Proper s action) :
    ∃ s' blocks', s.step base action = .ok s' ∧ Inv base lo s' blocks' := by
  cases action with
  | malloc n granted =>
    obtain ⟨after, ap, blocks', isGiven, tiled, given⟩ :=
      inv.tiles.malloc below positive n granted
    refine ⟨⟨after, if ap = 0 then s.live else update s.live ap (some n)⟩, blocks', ?_,
      Or.inl tiled, inv.owned.give proper given⟩
    unfold State.step
    dsimp only
    rw [isGiven]
  | free ap =>
    obtain ⟨after, blocks', freed, afterInv⟩ := inv.free below proper
    refine ⟨_, blocks', ?_, afterInv⟩
    unfold State.step
    dsimp only
    rw [freed]
  | store ap i ptr size =>
    obtain ⟨n, isLive, isWithin⟩ := proper
    exact ⟨_, blocks, rfl, inv.store below isLive isWithin ptr size⟩

/-- After any calls of `malloc` and `free` by a client that writes only to what it has got,
each of which ends: the memory from `sbrk` is divided into free and live blocks, no two free
ones side by side; the circular list from `freep` passes `base` and every free block once,
in the order of their addresses; the pointers the client holds are those of the live
blocks, aligned as the heap is, with room for what was asked for; and what one more `malloc`
returns is not among them. -/
theorem malloc_free_invariant (ptr size : Nat → Nat) (actions : List Action)
    (proper : Along (State.step base) Proper (State.init ptr size lo) actions) :
    ∃ s blocks, actions.foldlM (State.step base) (State.init ptr size lo) = .ok s ∧
      (endOf lo blocks = s.heap.brk ∧ (∀ b ∈ blocks, 0 < b.size) ∧
        Headers s.heap.size lo blocks) ∧
      blocks.IsChain Apart ∧
      (s.heap.freep = 0 → blocks = []) ∧
      (s.heap.freep ≠ 0 → ∃ others, Leads s.heap.ptr s.heap.freep others s.heap.freep ∧
        (s.heap.freep :: others) ~r (base :: frees lo blocks)) ∧
      (base :: frees lo blocks).Pairwise (· < ·) ∧
      (∀ x ∈ lives lo blocks, s.live (x.1 + headerSize) ≠ none) ∧
      (∀ ap n, s.live ap = some n → ap % headerSize = lo % headerSize ∧
        ∃ a k, ap = a + headerSize ∧ (a, ⟨k, false⟩) ∈ lives lo blocks ∧
          n + headerSize ≤ headerSize * k) ∧
      ∀ n granted heap ap, s.heap.malloc base n granted = some (heap, ap) → ap ≠ 0 →
        s.live ap = none := by
  have initially : Inv base lo (State.init ptr size lo) [] :=
    ⟨Or.inr ⟨rfl, rfl, rfl⟩, ⟨fun _ _ live => (by cases live), List.forall_mem_nil _⟩⟩
  obtain ⟨s, ran, blocks, inv⟩ := foldlM_progress Proper (fun s => ∃ blocks, Inv base lo s blocks)
    (fun s action isProper isInv => isInv.elim fun blocks inv => by
      obtain ⟨s', blocks', stepped, next⟩ := inv.step below positive isProper
      exact ⟨s', stepped, blocks', next⟩) actions proper ⟨[], initially⟩
  have aligned : ∀ ap n, s.live ap = some n → ap % headerSize = lo % headerSize ∧
      ∃ a k, ap = a + headerSize ∧ (a, ⟨k, false⟩) ∈ lives lo blocks ∧
        n + headerSize ≤ headerSize * k := by
    intro ap n isLive
    obtain ⟨a, k, isAddress, isBlock, room⟩ := inv.owned.room ap n isLive
    refine ⟨?_, a, k, isAddress, isBlock, room⟩
    rw [isAddress, Nat.add_mod_right]
    exact (places_bounds (mem_lives.mp isBlock).1).2.2
  have fresh : ∀ n granted heap ap, s.heap.malloc base n granted = some (heap, ap) → ap ≠ 0 →
      s.live ap = none := by
    intro n granted heap ap returned notNull
    obtain ⟨after, ap', blocks', isGiven, tiled, given⟩ :=
      inv.tiles.malloc below positive n granted
    rw [returned] at isGiven
    cases isGiven
    exact inv.owned.fresh tiled.positive given notNull
  refine ⟨s, blocks, ran, ?_⟩
  rcases inv.tiles with tiled | ⟨isNull, isBrk, isNil⟩
  · exact ⟨⟨tiled.brk, tiled.positive, tiled.headers⟩, tiled.apart,
      fun isNull => absurd isNull (tiled.freep_ne_zero below positive), fun _ => tiled.enter,
      tiled.sorted below, inv.owned.held, aligned, fresh⟩
  · have held := inv.owned.held
    rw [isNil] at held aligned ⊢
    exact ⟨⟨isBrk.symm, List.forall_mem_nil _, List.forall_mem_nil _⟩, List.isChain_nil,
      fun _ => rfl, fun notNull => absurd isNull notNull, List.pairwise_singleton _ _, held,
      aligned, fresh⟩

end Client

instance Proper.instDecidable (s : State) : ∀ action, Decidable (Proper s action)
  | .malloc n _ => inferInstanceAs (Decidable (n ≤ 2 ^ 28))
  | .free ap => inferInstanceAs (Decidable (s.live ap ≠ none))
  | .store ap i _ _ =>
    match isLive : s.live ap with
    | none => .isFalse fun proper => by
        obtain ⟨n, isSome, _⟩ := proper
        rw [isLive] at isSome
        cases isSome
    | some n =>
      decidable_of_iff (i < n) ⟨fun isWithin => ⟨n, isLive, isWithin⟩, fun proper => by
        obtain ⟨m, isSome, isWithin⟩ := proper
        rw [isLive] at isSome
        exact Option.some.inj isSome ▸ isWithin⟩

/-- Two blocks are taken from the end of the first memory, the client writes to one, and both
are freed. -/
def session : List Action :=
  [.malloc 10 fun _ => true, .malloc 20 fun _ => true, .store 36848 3 7 7, .free 36848, .free 36816]

/-- Everything has been joined to one free block again. -/
theorem malloc_free_invariant_session :
    ∃ s blocks,
      session.foldlM (State.step 100) (State.init (fun _ => 0) (fun _ => 0) 4096) = .ok s ∧
      endOf 4096 blocks = s.heap.brk ∧ s.heap.size 4096 = 4096 := by
  have proper : Along (State.step 100) Proper (State.init (fun _ => 0) (fun _ => 0) 4096)
      session := by
    decide +kernel
  have outcome : (session.foldlM (State.step 100)
      (State.init (fun _ => 0) (fun _ => 0) 4096)).toOption.map (fun s => s.heap.size 4096) =
        some 4096 := by decide +kernel
  have below : 100 + headerSize ≤ 4096 := by decide
  have positive : 0 < 100 := by decide
  obtain ⟨s, blocks, ran, tiles, _⟩ := malloc_free_invariant below positive _ _ session proper
  rw [ran] at outcome
  exact ⟨s, blocks, ran, tiles.1, Option.some.inj outcome⟩

end Rexv6.Umalloc
