import Mathlib.Data.List.Basic
import Rexv6.Grep.Matcher
import Rexv6.Libc.Memmove

/-!
Contract: the loop of `bin/grep/grep.c` over the pieces that `read` returns.

Owns: the buffer, the search for lines in it, the line that is carried over to the
next turn, and for which splittings of its input `grep` prints the matching lines.

Does not own: `main` and its files, and what `write` does with the bytes.
-/

namespace Rexv6.Grep

open Rexv6.Libc (Memory userMemmove)
open Function (update update_self update_of_ne)

/-! ## The code -/

def newline : UInt8 := 10

/-- `sizeof(buf)`. Addresses are relative to `buf`. -/
def bufSize : Nat := 1024

/-- `strchr`, within `fuel` bytes. -/
def strchr (mem : Memory) (c : UInt8) : (fuel s : Nat) → Option Nat
  | 0, _ => none
  | fuel + 1, s =>
    if mem s = 0 then none else if mem s = c then some s else strchr mem c fuel (s + 1)

def stringAt (mem : Memory) : (fuel s : Nat) → List UInt8
  | 0, _ => []
  | fuel + 1, s => if mem s = 0 then [] else mem s :: stringAt mem fuel (s + 1)

def bytesAt (mem : Memory) : (p n : Nat) → List UInt8
  | _, 0 => []
  | p, n + 1 => mem p :: bytesAt mem (p + 1) n

def store (mem : Memory) : Nat → List UInt8 → Memory
  | _, [] => mem
  | p, x :: bytes => update (store mem (p + 1) bytes) p x

/-- The loop of `grep` over the lines in the buffer, from `p` on, within `fuel` turns.
Returns the final `p`, the buffer and what has been written. -/
def scan (pattern : List UInt8) : (fuel p : Nat) → Memory → List UInt8 → Nat × Memory × List UInt8
  | 0, p, buf, out => (p, buf, out)
  | fuel + 1, p, buf, out =>
    match strchr buf newline bufSize p with
    | none => (p, buf, out)
    | some q =>
      let buf := update buf q 0
      if grepMatch pattern (stringAt buf bufSize p) then
        let buf := update buf q newline
        scan pattern fuel (q + 1) buf (out ++ bytesAt buf p (q + 1 - p))
      else scan pattern fuel (q + 1) buf out

/-- The variables of `grep`, and the bytes written to the standard output. -/
structure State where
  buf : Memory
  m : Nat
  out : List UInt8

/-- One turn of the outer loop, in which `read` has returned `piece`. -/
def turn (pattern : List UInt8) (s : State) (piece : List UInt8) : State :=
  let m := s.m + piece.length
  let (p, buf, out) := scan pattern bufSize 0 (update (store s.buf s.m piece) m 0) s.out
  let m := if p = 0 then 0 else m
  if m > 0 then ⟨userMemmove 0 p ((m : Int) - p) buf, m - p, out⟩ else ⟨buf, m, out⟩

/-- `grep` on the pieces that `read` returns before it returns 0. -/
def grep (pattern : List UInt8) (buf : Memory) (pieces : List (List UInt8)) : State :=
  pieces.foldl (turn pattern) ⟨buf, 0, []⟩

/-- `read` returns at least one byte, and no more than it is asked for. -/
def Delivers (pattern : List UInt8) : State → List (List UInt8) → Prop
  | _, [] => True
  | s, piece :: rest => piece ≠ [] ∧ piece.length ≤ bufSize - s.m - 1 ∧
      Delivers pattern (turn pattern s piece) rest

/-! ## Lines -/

def lines (stream : List UInt8) : List (List UInt8) := (stream.splitOn newline).dropLast

def unfinished (stream : List UInt8) : List UInt8 := (stream.splitOn newline).getLastD []

def matching (pattern stream : List UInt8) : List UInt8 :=
  ((lines stream).filter fun line => grepMatch pattern line).flatMap fun line => line ++ [newline]

section Lines

variable {stream front back : List UInt8} {pattern : List UInt8}

theorem not_isNewline (none : newline ∉ stream) : ∀ x ∈ stream, (x == newline) = false := by
  intro x member
  rw [beq_eq_false_iff_ne]
  rintro rfl
  exact none member

theorem splitOn_of_notMem (none : newline ∉ stream) : stream.splitOn newline = [stream] :=
  List.splitOnP_eq_singleton (not_isNewline none)

theorem splitOn_line (none : newline ∉ front) :
    (front ++ newline :: back).splitOn newline = front :: back.splitOn newline :=
  List.splitOnP_append_cons_of_forall_mem (not_isNewline none) newline (beq_self_eq_true _) back

theorem splitOn_ne_nil : stream.splitOn newline ≠ [] := List.splitOnP_ne_nil _ _

theorem lines_of_notMem (none : newline ∉ stream) : lines stream = [] := by
  rw [lines, splitOn_of_notMem none]
  rfl

theorem unfinished_of_notMem (none : newline ∉ stream) : unfinished stream = stream := by
  rw [unfinished, splitOn_of_notMem none]
  rfl

theorem lines_line (none : newline ∉ front) :
    lines (front ++ newline :: back) = front :: lines back := by
  rw [lines, splitOn_line none, List.dropLast_cons_of_ne_nil splitOn_ne_nil, lines]

theorem unfinished_line (none : newline ∉ front) :
    unfinished (front ++ newline :: back) = unfinished back := by
  rw [unfinished, splitOn_line none, unfinished]
  cases isSplit : back.splitOn newline with
  | nil => exact absurd isSplit splitOn_ne_nil
  | cons line others => rfl

/-- Induction over the lines of a stream. -/
theorem line_induction {Holds : List UInt8 → Prop}
    (last : ∀ stream, newline ∉ stream → Holds stream)
    (line : ∀ front back, newline ∉ front → Holds back → Holds (front ++ newline :: back))
    (stream : List UInt8) : Holds stream := by
  induction isLength : stream.length using Nat.strong_induction_on generalizing stream with
  | _ length ih =>
    by_cases some : newline ∈ stream
    · obtain ⟨front, back, rfl, none⟩ := List.eq_append_cons_of_mem some
      apply line front back none
      apply ih back.length _ back rfl
      rw [List.length_append, List.length_cons] at isLength
      omega
    · exact last stream some

theorem newline_notMem_unfinished (stream : List UInt8) : newline ∉ unfinished stream := by
  induction stream using line_induction with
  | last stream none =>
    rw [unfinished_of_notMem none]
    exact none
  | line front back none ih =>
    rw [unfinished_line none]
    exact ih

/-- The lines of two parts: the second one finishes the last line of the first. -/
theorem lines_append (first second : List UInt8) :
    lines (first ++ second) = lines first ++ lines (unfinished first ++ second) := by
  induction first using line_induction with
  | last stream none => rw [lines_of_notMem none, unfinished_of_notMem none, List.nil_append]
  | line front back none ih =>
    rw [List.append_assoc, List.cons_append, lines_line none, lines_line none, unfinished_line none,
      ih, List.cons_append]

theorem unfinished_append (first : List UInt8) {second : List UInt8} (some : newline ∈ second) :
    unfinished (first ++ second) = unfinished second := by
  induction first using line_induction with
  | last stream none =>
    obtain ⟨front, back, rfl, noneFront⟩ := List.eq_append_cons_of_mem some
    rw [← List.append_assoc, unfinished_line, unfinished_line noneFront]
    rw [List.mem_append]
    exact not_or.mpr ⟨none, noneFront⟩
  | line front back none ih =>
    rw [List.append_assoc, List.cons_append, unfinished_line none, ih]

theorem matching_of_notMem (none : newline ∉ stream) : matching pattern stream = [] := by
  rw [matching, lines_of_notMem none]
  rfl

theorem matching_append (first second : List UInt8) : matching pattern (first ++ second) =
    matching pattern first ++ matching pattern (unfinished first ++ second) := by
  rw [matching, lines_append, List.filter_append, List.flatMap_append, matching, matching]

theorem matching_line (none : newline ∉ front) : matching pattern (front ++ newline :: back) =
    (if grepMatch pattern front then front ++ [newline] else []) ++ matching pattern back := by
  rw [matching, lines_line none, List.filter_cons]
  split
  · rw [List.flatMap_cons, matching]
  · rw [List.nil_append, matching]

theorem matching_all (stream : List UInt8) : matching [] stream ++ unfinished stream = stream := by
  have all : ∀ text, grepMatch [] text = true := by
    intro text
    cases text <;> rfl
  induction stream using line_induction with
  | last stream none => rw [matching_of_notMem none, unfinished_of_notMem none, List.nil_append]
  | line front back none ih =>
    rw [matching_line none, if_pos (all front), unfinished_line none, List.append_assoc,
      ih, List.append_assoc, List.singleton_append]

end Lines

/-! ## The buffer -/

def Contains (mem : Memory) : Nat → List UInt8 → Prop
  | _, [] => True
  | p, x :: data => mem p = x ∧ Contains mem (p + 1) data

section Buffer

variable {mem mem' : Memory} {p fuel : Nat} {data front back : List UInt8} {c : UInt8}

theorem contains_append : Contains mem p (front ++ back) ↔
    Contains mem p front ∧ Contains mem (p + front.length) back := by
  induction front generalizing p with
  | nil => exact (iff_of_eq (true_and _)).symm
  | cons x front ih =>
    rw [List.cons_append, Contains, Contains, ih, and_assoc, List.length_cons,
      Nat.add_assoc, Nat.add_comm 1]

theorem Contains.congr (contains : Contains mem p data)
    (same : ∀ a, p ≤ a → a < p + data.length → mem' a = mem a) : Contains mem' p data := by
  induction data generalizing p with
  | nil => trivial
  | cons x data ih =>
    rw [List.length_cons] at same
    refine ⟨(same p le_rfl (by omega)).trans contains.1, ih contains.2 ?_⟩
    intro a low high
    exact same a (by omega) (by omega)

theorem Contains.shift {q : Nat} (contains : Contains mem p data)
    (same : ∀ i < data.length, mem' (q + i) = mem (p + i)) : Contains mem' q data := by
  induction data generalizing p q with
  | nil => trivial
  | cons x data ih =>
    refine ⟨(same 0 (Nat.succ_pos _)).trans contains.1, ih contains.2 ?_⟩
    intro i inside
    have next := same (i + 1) (Nat.succ_lt_succ inside)
    rw [Nat.add_right_comm, Nat.add_assoc q, Nat.add_right_comm p, Nat.add_assoc p]
    exact next

theorem Contains.update_of (contains : Contains mem p data) {q : Nat} {x : UInt8}
    (outside : q < p ∨ p + data.length ≤ q) : Contains (update mem q x) p data := by
  apply contains.congr
  intro a low high
  exact update_of_ne (by omega) _ _

theorem contains_store : Contains (store mem p data) p data := by
  induction data generalizing p with
  | nil => trivial
  | cons x data ih =>
    exact ⟨update_self _ _ _, ih.update_of (Or.inl (Nat.lt_succ_self p))⟩

theorem store_below {a : Nat} (below : a < p) : store mem p data a = mem a := by
  induction data generalizing p with
  | nil => rfl
  | cons x data ih =>
    rw [store, update_of_ne (by omega), ih (by omega)]

theorem strchr_found (contains : Contains mem p (front ++ c :: back)) (nonzero : c ≠ 0)
    (noNul : 0 ∉ front) (first : c ∉ front) (enough : front.length < fuel) :
    strchr mem c fuel p = some (p + front.length) := by
  induction front generalizing p fuel with
  | nil =>
    obtain ⟨fuel, rfl⟩ := Nat.exists_eq_add_one.mpr enough
    have isByte : mem p = c := contains.1
    rw [strchr, isByte, if_neg nonzero, if_pos rfl]
    rfl
  | cons x front ih =>
    obtain ⟨fuel, rfl⟩ := Nat.exists_eq_add_one.mpr (Nat.zero_lt_of_lt enough)
    rw [List.mem_cons, not_or] at noNul first
    rw [strchr, contains.1, if_neg (Ne.symm noNul.1), if_neg (Ne.symm first.1),
      ih contains.2 noNul.2 first.2 (Nat.lt_of_succ_lt_succ enough),
      List.length_cons, Nat.add_assoc, Nat.add_comm 1]

theorem strchr_none (contains : Contains mem p data) (ends : mem (p + data.length) = 0)
    (absent : c ∉ data) : strchr mem c fuel p = none := by
  induction data generalizing p fuel with
  | nil =>
    cases fuel with
    | zero => rfl
    | succ fuel => rw [strchr, if_pos (show mem p = 0 from ends)]
  | cons x data ih =>
    rw [List.mem_cons, not_or] at absent
    cases fuel with
    | zero => rfl
    | succ fuel =>
      rw [List.length_cons, ← Nat.add_assoc, Nat.add_right_comm] at ends
      rw [strchr, contains.1, if_neg (Ne.symm absent.1),
        ih contains.2 ends absent.2, ite_self]

theorem stringAt_eq (contains : Contains mem p data) (ends : mem (p + data.length) = 0)
    (noNul : 0 ∉ data) (enough : data.length < fuel) : stringAt mem fuel p = data := by
  induction data generalizing p fuel with
  | nil =>
    obtain ⟨fuel, rfl⟩ := Nat.exists_eq_add_one.mpr enough
    rw [stringAt, if_pos (show mem p = 0 from ends)]
  | cons x data ih =>
    obtain ⟨fuel, rfl⟩ := Nat.exists_eq_add_one.mpr (Nat.zero_lt_of_lt enough)
    rw [List.mem_cons, not_or] at noNul
    rw [List.length_cons, ← Nat.add_assoc, Nat.add_right_comm] at ends
    rw [stringAt, contains.1, if_neg (Ne.symm noNul.1),
      ih contains.2 ends noNul.2 (Nat.lt_of_succ_lt_succ enough)]

theorem bytesAt_eq (contains : Contains mem p data) : bytesAt mem p data.length = data := by
  induction data generalizing p with
  | nil => rfl
  | cons x data ih =>
    rw [List.length_cons, bytesAt, contains.1, ih contains.2]

end Buffer

/-! ## One turn -/

section Turn

variable {pattern data : List UInt8}

theorem unfinished_length (data : List UInt8) : (unfinished data).length ≤ data.length := by
  have all := congrArg List.length (matching_all data)
  rw [List.length_append] at all
  omega

theorem unfinished_shorter (found : newline ∈ data) : (unfinished data).length < data.length := by
  obtain ⟨front, back, rfl, none⟩ := List.eq_append_cons_of_mem found
  have left := unfinished_length back
  rw [unfinished_line none, List.length_append, List.length_cons]
  omega

/-- The lines in the buffer are printed or not, and the last one is left over. -/
theorem scan_spec (data : List UInt8) : ∀ {fuel p : Nat} {buf : Memory} (out : List UInt8),
    Contains buf p data → buf (p + data.length) = 0 → 0 ∉ data → data.length < fuel →
    data.length < bufSize →
    ∃ buf', scan pattern fuel p buf out =
        (p + (data.length - (unfinished data).length), buf', out ++ matching pattern data) ∧
      Contains buf' (p + (data.length - (unfinished data).length)) (unfinished data) := by
  induction data using line_induction with
  | last data none =>
    intro fuel p buf out contains ends _ enough _
    obtain ⟨fuel, rfl⟩ := Nat.exists_eq_add_one.mpr (Nat.zero_lt_of_lt enough)
    rw [unfinished_of_notMem none, Nat.sub_self, matching_of_notMem none, List.append_nil, scan,
      strchr_none contains ends none]
    exact ⟨buf, rfl, contains⟩
  | line front back none ih =>
    intro fuel p buf out contains ends noNul enough small
    obtain ⟨fuel, rfl⟩ := Nat.exists_eq_add_one.mpr (Nat.zero_lt_of_lt enough)
    rw [List.length_append, List.length_cons] at enough small ends
    rw [List.mem_append, List.mem_cons, not_or, not_or] at noNul
    have found : strchr buf newline bufSize p = some (p + front.length) :=
      strchr_found contains (by decide) noNul.1 none (by omega)
    obtain ⟨inFront, isNewline, inBack⟩ := contains_append.mp contains
    have string : stringAt (update buf (p + front.length) 0) bufSize p = front :=
      stringAt_eq (inFront.update_of (by omega)) (update_self _ _ _) noNul.1 (by omega)
    have left := unfinished_length back
    have place : p + (front.length + (back.length + 1) - (unfinished back).length) =
        p + front.length + 1 + (back.length - (unfinished back).length) := by omega
    have ends : buf (p + front.length + 1 + back.length) = 0 := by
      rw [← ends]
      congr 1
      omega
    rw [unfinished_line none, matching_line none, List.length_append, List.length_cons, place, scan,
      found]
    dsimp only
    rw [string]
    by_cases isMatch : grepMatch pattern front = true
    · have printed : bytesAt (update (update buf (p + front.length) 0) (p + front.length) newline) p
          (p + front.length + 1 - p) = front ++ [newline] := by
        have length : p + front.length + 1 - p = (front ++ [newline]).length := by
          rw [List.length_append, List.length_singleton]
          omega
        rw [length]
        apply bytesAt_eq
        rw [contains_append]
        refine ⟨(inFront.update_of (by omega)).update_of (by omega), update_self _ _ _, trivial⟩
      have regroup : out ++ (front ++ [newline] ++ matching pattern back) =
        out ++ (front ++ [newline]) ++ matching pattern back := (List.append_assoc _ _ _).symm
      rw [if_pos isMatch, if_pos isMatch, printed, regroup]
      apply ih _ ((inBack.update_of (by omega)).update_of (by omega)) _ noNul.2.2
        (by omega) (by omega)
      rw [update_of_ne (by omega), update_of_ne (by omega)]
      exact ends
    · rw [if_neg isMatch, if_neg isMatch, List.nil_append]
      apply ih _ (inBack.update_of (by omega)) _ noNul.2.2 (by omega) (by omega)
      rw [update_of_ne (by omega)]
      exact ends

structure Carries (s : State) (carry : List UInt8) : Prop where
  length : s.m = carry.length
  contains : Contains s.buf 0 carry

/-- What a turn carries over: nothing if it has found no newline. -/
def carried (data : List UInt8) : List UInt8 := if newline ∈ data then unfinished data else []

theorem turn_spec {s : State} {carry piece : List UInt8} (carries : Carries s carry)
    (noNul : 0 ∉ carry ++ piece) (fits : piece.length ≤ bufSize - s.m - 1) (some : piece ≠ []) :
    Carries (turn pattern s piece) (carried (carry ++ piece)) ∧
      (turn pattern s piece).out = s.out ++ matching pattern (carry ++ piece) := by
  have positive := List.length_pos_iff.mpr some
  have isLength : s.m + piece.length = (carry ++ piece).length := by
    rw [carries.length, List.length_append]
  have contains : Contains (update (store s.buf s.m piece) (s.m + piece.length) 0) 0
      (carry ++ piece) := by
    apply Contains.update_of _ (by omega)
    rw [contains_append, Nat.zero_add, ← carries.length]
    refine ⟨carries.contains.congr fun a _ below => store_below ?_, contains_store⟩
    rw [carries.length]
    omega
  have small : (carry ++ piece).length < bufSize := by omega
  have ends : update (store s.buf s.m piece) (s.m + piece.length) 0
      (0 + (carry ++ piece).length) = 0 := by
    rw [Nat.zero_add, ← isLength]
    exact update_self _ _ _
  have scanned : ∃ buf, scan pattern bufSize 0 _ s.out = _ ∧ _ :=
    scan_spec (carry ++ piece) s.out contains ends noNul small small
  obtain ⟨buf, ran, rest⟩ := scanned
  unfold turn
  dsimp only
  rw [ran]
  rw [Nat.zero_add, isLength]
  unfold carried
  by_cases found : newline ∈ carry ++ piece
  · have shorter := unfinished_shorter found
    have moves : ¬ (carry ++ piece).length - (unfinished (carry ++ piece)).length = 0 := by omega
    have filled : (carry ++ piece).length > 0 := by omega
    rw [if_neg moves, if_pos filled, if_pos found]
    refine ⟨⟨by dsimp only; omega, ?_⟩, rfl⟩
    have turns : ((carry ++ piece).length : Int) -
        ((carry ++ piece).length - (unfinished (carry ++ piece)).length : Nat) =
          (unfinished (carry ++ piece)).length := by omega
    dsimp only
    rw [turns, userMemmove, Int.toNat_natCast, Libc.copyForward_eq (by omega)]
    rw [Nat.zero_add] at rest
    apply rest.shift
    intro i inside
    rw [Libc.moved, if_pos (by omega), Nat.zero_add, Nat.sub_zero]
  · rw [unfinished_of_notMem found, Nat.sub_self, if_pos rfl, if_neg found, if_neg (lt_irrefl 0)]
    exact ⟨⟨rfl, trivial⟩, rfl⟩

end Turn

/-! ## All turns -/

section Run

variable {pattern data : List UInt8}

theorem mem_of_mem_carried {x : UInt8} (member : x ∈ carried data) : x ∈ data := by
  unfold carried at member
  split at member
  · rw [← matching_all data]
    exact List.mem_append_right _ member
  · exact absurd member List.not_mem_nil

theorem newline_notMem_carried : newline ∉ carried data := by
  unfold carried
  split
  · exact newline_notMem_unfinished data
  · exact List.not_mem_nil

theorem first_turn {s : State} {carry piece : List UInt8} {rest : List (List UInt8)}
    (carries : Carries s carry) (noNul : 0 ∉ carry ++ (piece :: rest).flatten)
    (delivers : Delivers pattern s (piece :: rest)) :
    (Carries (turn pattern s piece) (carried (carry ++ piece)) ∧
      (turn pattern s piece).out = s.out ++ matching pattern (carry ++ piece)) ∧
    0 ∉ carried (carry ++ piece) ++ rest.flatten := by
  rw [List.flatten_cons, ← List.append_assoc, List.mem_append, not_or] at noNul
  refine ⟨turn_spec carries noNul.1 delivers.2.1 delivers.1, ?_⟩
  rw [List.mem_append, not_or]
  exact ⟨fun member => noNul.1 (mem_of_mem_carried member), noNul.2⟩

/-- As long as a piece without a newline has only such pieces behind it, the matching
lines are printed. -/
theorem run_of_ordered {pieces : List (List UInt8)} : ∀ {s : State} {carry : List UInt8},
    Carries s carry → 0 ∉ carry ++ pieces.flatten → newline ∉ carry → Delivers pattern s pieces →
    pieces.Pairwise (fun first second => newline ∈ second → newline ∈ first) →
    (pieces.foldl (turn pattern) s).out = s.out ++ matching pattern (carry ++ pieces.flatten) := by
  induction pieces with
  | nil =>
    intro s carry _ _ noLine _ _
    rw [List.flatten_nil, List.append_nil, matching_of_notMem noLine, List.append_nil]
    rfl
  | cons piece rest ih =>
    intro s carry carries noNul noLine delivers ordered
    obtain ⟨⟨next, out⟩, noNulLeft⟩ := first_turn carries noNul delivers
    rw [List.foldl_cons, ih next noNulLeft newline_notMem_carried delivers.2.2
      ordered.tail, out, List.append_assoc, List.flatten_cons, ← List.append_assoc carry]
    congr 1
    by_cases found : newline ∈ carry ++ piece
    · rw [carried, if_pos found, ← matching_append]
    · have none : newline ∉ rest.flatten := by
        intro member
        obtain ⟨second, isSecond, inSecond⟩ := List.mem_flatten.mp member
        have inFirst := (List.pairwise_cons.mp ordered).1 second isSecond inSecond
        exact found (List.mem_append_right _ inFirst)
      rw [carried, if_neg found, List.nil_append, matching_of_notMem none, List.append_nil,
        matching_of_notMem found, matching_of_notMem]
      rw [List.mem_append]
      exact not_or.mpr ⟨found, none⟩

theorem matching_all_append (front : List UInt8) {back : List UInt8} (found : newline ∈ back) :
    (matching [] (front ++ back)).length = front.length + (matching [] back).length := by
  have all := congrArg List.length (matching_all (front ++ back))
  have later := congrArg List.length (matching_all back)
  rw [List.length_append, unfinished_append front found, List.length_append] at all
  rw [List.length_append] at later
  omega

/-- With the empty pattern no more than all lines are printed, and fewer bytes if a
piece without a newline is thrown away before the end of its line. -/
theorem run_all_length {pieces : List (List UInt8)} : ∀ {s : State} {carry : List UInt8},
    Carries s carry → 0 ∉ carry ++ pieces.flatten → newline ∉ carry → Delivers [] s pieces →
    (pieces.foldl (turn []) s).out.length ≤
        s.out.length + (matching [] (carry ++ pieces.flatten)).length ∧
      ((pieces.foldl (turn []) s).out.length =
          s.out.length + (matching [] (carry ++ pieces.flatten)).length →
        pieces.Pairwise fun first second => newline ∈ second → newline ∈ first) := by
  induction pieces with
  | nil =>
    intro s carry _ _ _ _
    exact ⟨Nat.le_add_right _ _, fun _ => List.Pairwise.nil⟩
  | cons piece rest ih =>
    intro s carry carries noNul noLine delivers
    obtain ⟨⟨next, out⟩, noNulLeft⟩ := first_turn carries noNul delivers
    obtain ⟨atMost, ordered⟩ := ih next noNulLeft newline_notMem_carried
      delivers.2.2
    rw [List.foldl_cons, List.flatten_cons, ← List.append_assoc carry, List.pairwise_cons]
    rw [out, List.length_append] at atMost ordered
    by_cases found : newline ∈ carry ++ piece
    · have inPiece : newline ∈ piece := (List.mem_append.mp found).resolve_left noLine
      have both := congrArg List.length (@matching_append [] (carry ++ piece) rest.flatten)
      rw [carried, if_pos found] at atMost ordered
      rw [List.length_append] at both
      refine ⟨by omega, fun same => ⟨fun _ _ _ => inPiece, ordered (by omega)⟩⟩
    · rw [carried, if_neg found, List.nil_append, matching_of_notMem found, List.length_nil,
        Nat.add_zero] at atMost ordered
      by_cases later : newline ∈ rest.flatten
      · have more := matching_all_append (carry ++ piece) later
        have positive := List.length_pos_iff.mpr delivers.1
        rw [List.length_append] at more
        exact ⟨by omega, fun same => by omega⟩
      · have none : newline ∉ carry ++ piece ++ rest.flatten := by
          rw [List.mem_append]
          exact not_or.mpr ⟨found, later⟩
        rw [matching_of_notMem later] at atMost ordered
        rw [matching_of_notMem none]
        refine ⟨atMost, fun same => ⟨fun second isSecond inSecond => ?_, ordered same⟩⟩
        exact absurd (List.mem_flatten.mpr ⟨second, isSecond, inSecond⟩) later

end Run

/-- `grep` prints, for every pattern, the lines of its input that match, exactly if
every piece that `read` returns has a newline as long as there is a newline behind it. -/
theorem grep_prints_matching_iff {pieces : List (List UInt8)} {buf : Memory}
    (noNul : 0 ∉ pieces.flatten) (delivers : ∀ pattern, Delivers pattern ⟨buf, 0, []⟩ pieces) :
    (∀ pattern, (grep pattern buf pieces).out = matching pattern pieces.flatten) ↔
      pieces.Pairwise fun first second => newline ∈ second → newline ∈ first := by
  have begins : Carries ⟨buf, 0, []⟩ [] := ⟨rfl, trivial⟩
  constructor
  · intro prints
    apply (run_all_length begins noNul List.not_mem_nil (delivers [])).2
    have all := congrArg List.length (prints [])
    rw [List.nil_append, List.length_nil, Nat.zero_add]
    exact all
  · intro ordered pattern
    exact run_of_ordered begins noNul List.not_mem_nil (delivers pattern) ordered

/-- A line of two characters in two pieces: its first character is lost, and the line
is not printed. -/
theorem grep_loses_split_line :
    (grep [97] (fun _ => 0) [[97], [98, 10]]).out = [] ∧
      matching [97] [97, 98, 10] = [97, 98, 10] := by
  decide +kernel

/-- A line in two pieces, the first of which has a newline before it. -/
theorem grep_prints_matching_iff_two :
    (grep [97] (fun _ => 0) [[98, 10, 97], [98, 10]]).out = matching [97] [98, 10, 97, 98, 10] := by
  have delivers : ∀ pattern, Delivers pattern ⟨fun _ => 0, 0, []⟩ [[98, 10, 97], [98, 10]] := by
    intro pattern
    have begins : Carries ⟨fun _ => 0, 0, []⟩ [] := ⟨rfl, trivial⟩
    have isLength : (turn pattern ⟨fun _ => 0, 0, []⟩ [98, 10, 97]).m = 1 :=
      (turn_spec begins (show 0 ∉ [] ++ [98, 10, 97] by decide) (by decide)
        (by decide)).1.length
    refine ⟨by decide, by decide, by decide, ?_, trivial⟩
    rw [isLength]
    decide
  exact (grep_prints_matching_iff (by decide) delivers).mpr (by decide) [97]

end Rexv6.Grep
