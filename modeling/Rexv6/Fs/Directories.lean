import Mathlib.Data.List.TakeWhile
import Rexv6.Fs.Contents

/-!
Contract: directories are lists of entries for `dirlookup` and `dirlink`.

Owns: names as `namecmp` compares them, the entries of a directory, and what the
loops over entries find.

Does not own: which inodes the entries name.
-/

namespace Rexv6.Fs

open Rexv6.Foundation
open Rexv6.Foundation.Resumption

/-! ## Names -/

/-- The part of a name that counts: up to the first NUL, and `DIRSIZ` bytes at
most. -/
def shortName (name : List UInt8) : List UInt8 := (name.take dirSiz).takeWhile (· ≠ 0)

theorem strncmp_eq_zero : ∀ (n : Nat) (p q : List UInt8),
    strncmp n p q = 0 ↔ (p.take n).takeWhile (· ≠ 0) = (q.take n).takeWhile (· ≠ 0) := by
  have head : ∀ p : List UInt8, p.headD 0 = 0 → ∀ n, (p.take n).takeWhile (· ≠ 0) = [] := by
    intro p zero n
    cases p with
    | nil => simp
    | cons c rest =>
      have isZero : c = 0 := zero
      cases n with
      | zero => simp
      | succ n => simp [isZero]
  intro n
  induction n with
  | zero =>
    intro p q
    simp [strncmp]
  | succ n ih =>
    intro p q
    rw [strncmp]
    by_cases same : p.headD 0 ≠ 0 ∧ p.headD 0 = q.headD 0
    · rw [if_pos same]
      cases p with
      | nil => exact absurd rfl same.1
      | cons c rest =>
        cases q with
        | nil => exact absurd same.2 same.1
        | cons c' rest' =>
          have equal : c = c' := same.2
          have nonzero : c' ≠ 0 := equal ▸ same.1
          rw [List.tail_cons, List.tail_cons, ih]
          simp [equal, nonzero]
    · rw [if_neg same]
      have difference : ((p.headD 0).toNat : Int) - (q.headD 0).toNat = 0 ↔
          p.headD 0 = q.headD 0 := by
        rw [← UInt8.toNat_inj]
        omega
      rw [difference]
      constructor
      · intro equal
        have zero : p.headD 0 = 0 := by
          by_contra nonzero
          exact same ⟨nonzero, equal⟩
        rw [head p zero, head q (equal ▸ zero)]
      · intro equal
        cases p with
        | nil =>
          cases q with
          | nil => rfl
          | cons c rest =>
            by_contra different
            have nonzero : c ≠ 0 := fun zero => different zero.symm
            simp [nonzero] at equal
        | cons c rest =>
          by_cases zero : c = 0
          · rw [head (c :: rest) zero] at equal
            cases q with
            | nil => exact zero
            | cons c' rest' =>
              by_contra different
              have nonzero : c' ≠ 0 := fun zero' => different (zero.trans zero'.symm)
              simp [nonzero] at equal
          · exfalso
            cases q with
            | nil => simp [zero] at equal
            | cons c' rest' =>
              by_cases zero' : c' = 0
              · simp [zero, zero'] at equal
              · simp [zero, zero'] at equal
                exact same ⟨zero, equal.1⟩

theorem namecmp_eq_zero {s t : List UInt8} : namecmp s t = 0 ↔ shortName s = shortName t :=
  strncmp_eq_zero dirSiz s t

theorem shortName_of_string {name : List UInt8} (string : (0 : UInt8) ∉ name) :
    shortName name = name.take dirSiz := by
  apply List.takeWhile_eq_self_iff.mpr
  intro c member
  have nonzero : c ≠ 0 := fun zero => string (zero ▸ List.mem_of_mem_take member)
  simpa using nonzero

/-- The name in an entry counts as the name it was made from. -/
theorem shortName_direntName (name : List UInt8) :
    shortName (direntName name) = shortName name := by
  unfold shortName
  have length := direntName_length name
  rw [List.take_of_length_le (le_of_eq length), direntName]
  by_cases all : ∀ c ∈ name.take dirSiz, c ≠ 0
  · rw [List.takeWhile_append_of_pos (by simpa using all)]
    have none : (List.replicate (dirSiz - name.length) (0 : UInt8)).takeWhile (· ≠ 0) = [] := by
      cases dirSiz - name.length <;> simp [List.replicate_succ]
    rw [none, List.append_nil, List.takeWhile_eq_self_iff.mpr (by simpa using all)]
  · rw [List.takeWhile_append, if_neg]
    intro full
    apply all
    have self : (name.take dirSiz).takeWhile (· ≠ 0) = name.take dirSiz :=
      (List.takeWhile_prefix _).eq_of_length full
    simpa using List.takeWhile_eq_self_iff.mp self

/-! ## Entries -/

def direntAt (disk : Disk) (d : Dinode) (k : Nat) : Dirent :=
  Dirent.decode ((List.range direntSize).map fun i => byteAt disk d (direntSize * k + i))

/-- The entry that `dirlookup` looks for. -/
def Dirent.Matches (de : Dirent) (name : List UInt8) : Prop :=
  de.inum ≠ 0 ∧ shortName name = shortName de.name

instance (de : Dirent) (name : List UInt8) : Decidable (de.Matches name) :=
  inferInstanceAs (Decidable (_ ∧ _))

section Entries

variable {s : State} {dp : Slot} {stop : Nat}

theorem readDirent_meets {k : Nat} {message : String} {post : Dirent → State → Prop}
    {stops : Stop → Prop} (readable : Readable s dp stop)
    (notDevice : (s.inode dp).din.type ≠ tDev) (covered : direntSize * (k + 1) ≤ stop)
    (inside : direntSize * (k + 1) ≤ (s.inode dp).din.size.toNat)
    (holds : post (direntAt s.disk (s.inode dp).din k) s) :
    Meets (readDirent dp (direntSize * k) message) s post stops := by
  have next : direntSize * (k + 1) = direntSize * k + direntSize := rfl
  have read : Meets (readi dp (direntSize * k) direntSize) s _ _ :=
    readi_readable readable notDevice (by omega) (by omega)
      (show direntSize = min direntSize ((s.inode dp).din.size.toNat - direntSize * k) by omega)
      (by omega)
  apply Meets.bind
  · exact read.imp (fun _ _ result => result) fun _ none => none.elim
  · rintro result after ⟨same, isBytes⟩
    rw [isBytes, same]
    exact holds

/-- The first entry that matches is found, if the entries up to it can be read. -/
theorem lookupLoop_finds {name : List UInt8} {m : Nat} {post : Option (Slot × Nat) → State → Prop}
    {stops : Stop → Prop} (readable : Readable s dp stop)
    (notDevice : (s.inode dp).din.type ≠ tDev) (covered : direntSize * (m + 1) ≤ stop)
    (inside : direntSize * (m + 1) ≤ (s.inode dp).din.size.toNat)
    (found : (direntAt s.disk (s.inode dp).din m).Matches name)
    (first : ∀ k < m, ¬ (direntAt s.disk (s.inode dp).din k).Matches name)
    (holds : Meets (iget (direntAt s.disk (s.inode dp).din m).inum) s
      (fun ip s' => post (some (ip, direntSize * m)) s') stops) :
    ∀ (turns k : Nat), k ≤ m → m - k < turns →
      Meets (lookupLoop dp name turns (direntSize * k)) s post stops := by
  intro turns
  induction turns with
  | zero =>
    intro k _ enough
    exact absurd enough (Nat.not_lt_zero _)
  | succ turns ih =>
    intro k notPast enough
    have next : direntSize * (k + 1) = direntSize * k + direntSize := rfl
    have bound : direntSize * (k + 1) ≤ direntSize * (m + 1) :=
      Nat.mul_le_mul_left _ (by omega)
    have size : 0 < direntSize := by decide
    rw [lookupLoop, Meets, meets_bind, meets_get, if_pos (by omega), meets_bind]
    apply readDirent_meets readable notDevice (by omega) (by omega)
    by_cases last : k = m
    · rw [last, if_neg found.1, if_pos (namecmp_eq_zero.mpr found.2), meets_bind]
      exact holds
    · have more := ih (k + 1) (by omega) (by omega)
      by_cases empty : (direntAt s.disk (s.inode dp).din k).inum = 0
      · rw [if_pos empty]
        exact more
      · rw [if_neg empty, if_neg]
        · exact more
        · intro same
          exact first k (by omega) ⟨empty, namecmp_eq_zero.mp same⟩

/-- An incomplete entry at the end of the directory is not accepted. -/
theorem readDirent_partial {k : Nat} {message : String} {post : Dirent → State → Prop}
    {stops : Stop → Prop} (readable : Readable s dp (s.inode dp).din.size.toNat)
    (notDevice : (s.inode dp).din.type ≠ tDev)
    (started : direntSize * k ≤ (s.inode dp).din.size.toNat)
    (incomplete : (s.inode dp).din.size.toNat < direntSize * (k + 1))
    (holds : stops (.panic message)) :
    Meets (readDirent dp (direntSize * k) message) s post stops := by
  have limit : maxFile * bSize + direntSize < 2 ^ 32 := by decide
  have bound := readable.limit
  have next : direntSize * (k + 1) = direntSize * k + direntSize := rfl
  have read : Meets (readi dp (direntSize * k) direntSize) s _ _ :=
    readi_readable readable notDevice started (by omega)
      (show (s.inode dp).din.size.toNat - direntSize * k = _ by omega) (by omega)
  apply Meets.bind
  · exact read.imp (fun _ _ result => result) fun _ none => none.elim
  · rintro result after ⟨same, isBytes⟩
    rw [isBytes, same]
    dsimp only
    rw [if_neg (by simp; omega)]
    exact holds

/-- Without a match the loop runs to the end, unless an incomplete entry stops it. -/
theorem lookupLoop_misses {name : List UInt8} (readable : Readable s dp (s.inode dp).din.size.toNat)
    (notDevice : (s.inode dp).din.type ≠ tDev)
    (noMatch : ∀ k, direntSize * (k + 1) ≤ (s.inode dp).din.size.toNat →
      ¬ (direntAt s.disk (s.inode dp).din k).Matches name) :
    ∀ (turns k : Nat), direntSize * k < (s.inode dp).din.size.toNat + direntSize →
      (s.inode dp).din.size.toNat + direntSize ≤ direntSize * (k + turns) →
      Meets (lookupLoop dp name turns (direntSize * k)) s (fun result s' => result = none ∧ s' = s)
        (fun stop => stop = .panic "dirlookup read" ∧
          (s.inode dp).din.size.toNat % direntSize ≠ 0) := by
  intro turns
  induction turns with
  | zero =>
    intro k started enough
    exact absurd started (Nat.not_lt.mpr enough)
  | succ turns ih =>
    intro k started enough
    have next : direntSize * (k + 1) = direntSize * k + direntSize := rfl
    have shift : k + (turns + 1) = k + 1 + turns := by omega
    rw [lookupLoop, Meets, meets_bind, meets_get]
    by_cases more : direntSize * k < (s.inode dp).din.size.toNat
    · rw [if_pos more, meets_bind]
      by_cases complete : direntSize * (k + 1) ≤ (s.inode dp).din.size.toNat
      · apply readDirent_meets readable notDevice complete complete
        have rest := ih (k + 1) (by omega) (shift ▸ enough)
        by_cases empty : (direntAt s.disk (s.inode dp).din k).inum = 0
        · rw [if_pos empty]
          exact rest
        · rw [if_neg empty, if_neg]
          · exact rest
          · intro same
            exact noMatch k complete ⟨empty, namecmp_eq_zero.mp same⟩
      · apply readDirent_partial readable notDevice (by omega) (by omega)
        refine ⟨rfl, ?_⟩
        simp only [direntSize] at more complete ⊢
        omega
    · rw [if_neg more]
      exact ⟨rfl, rfl⟩

end Entries

end Rexv6.Fs
