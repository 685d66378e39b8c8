import Rexv6.Foundation.LittleEndian

/-!
Contract: how the kernel reads the MP configuration table, `drivers/cpu/mp.c`.

Owns: the search for the table, the checks of `mpconfig`, the loop of `mpinit` over
the entries, and for which tables it ends.

Does not own: the APICs. Memory is addressed by physical address, as `P2V` is the
same shift everywhere, and the table does not wrap around.
-/

namespace Rexv6.Mp

open Rexv6.Foundation.LittleEndian

/-! ## The code -/

def nCpu : Nat := 8

def mpProc : UInt8 := 0
def mpBus : UInt8 := 1
def mpIoapic : UInt8 := 2
def mpIointr : UInt8 := 3
def mpLintr : UInt8 := 4

/-- The sizes of `struct mp`, `struct mpconf`, `struct mpproc` and `struct mpioapic`. -/
def sizeMp : Nat := 16
def sizeConf : Nat := 44
def sizeProc : Nat := 20
def sizeIoapic : Nat := 8

section Code

variable (mem : Bytes)

def sum : (addr len : Nat) → UInt8
  | _, 0 => 0
  | addr, len + 1 => mem addr + sum (addr + 1) len

/-- `memcmp(p, text, text.length) == 0`. -/
def matchesAt : Nat → List UInt8 → Bool
  | _, [] => true
  | p, c :: text => mem p == c && matchesAt (p + 1) text

/-- `mpsearch1`, with `turns` structures to look at. -/
def mpsearch1 : (turns p : Nat) → Option Nat
  | 0, _ => none
  | turns + 1, p =>
    if matchesAt mem p [95, 77, 80, 95] ∧ sum mem p sizeMp = 0 then some p
    else mpsearch1 turns (p + sizeMp)

/-- `mpsearch`: in the EBDA or the last KB of base memory, and in the BIOS ROM. -/
def mpsearch : Option Nat :=
  let bda := 0x400
  let p := (mem (bda + 0x0F)).toNat * 256 + (mem (bda + 0x0E)).toNat
  let base := ((mem (bda + 0x14)).toNat * 256 + (mem (bda + 0x13)).toNat) * 1024
  let first := if p * 16 ≠ 0 then p * 16 else (base + 2 ^ 32 - 1024) % 2 ^ 32
  (mpsearch1 mem (1024 / sizeMp) first).or (mpsearch1 mem (0x10000 / sizeMp) 0xF0000)

def confLength (conf : Nat) : Nat := getLe mem (conf + 4) 2

/-- `mpconfig`: the structure and the table. -/
def mpconfig : Option (Nat × Nat) := do
  let mp ← mpsearch mem
  let conf := getLe mem (mp + 4) 4
  if conf = 0 then none
  else if matchesAt mem conf [80, 67, 77, 80] = false then none
  else if mem (conf + 6) ≠ 1 ∧ mem (conf + 6) ≠ 4 then none
  else if sum mem conf (confLength mem conf) ≠ 0 then none
  else some (mp, conf)

/-- The variables of the loop of `mpinit`: `cpus` are the `apicid`s of `cpus[0..ncpu)`. -/
structure State where
  p : Nat
  ismp : Bool
  cpus : List UInt8
  ioapicid : UInt8

/-- One turn of the loop. A type that is not known does not advance `p`. -/
def turn (s : State) : State :=
  if mem s.p = mpProc then
    { s with
      p := s.p + sizeProc
      cpus := if s.cpus.length < nCpu then s.cpus ++ [mem (s.p + 1)] else s.cpus }
  else if mem s.p = mpIoapic then
    { s with p := s.p + sizeIoapic, ioapicid := mem (s.p + 1) }
  else if mem s.p = mpBus ∨ mem s.p = mpIointr ∨ mem s.p = mpLintr then { s with p := s.p + 8 }
  else { s with ismp := false }

/-- The loop of `mpinit`, for at most `fuel` turns: `none` if it has not ended. -/
def loop (e : Nat) : (fuel : Nat) → State → Option State
  | 0, s => if s.p < e then none else some s
  | fuel + 1, s => if s.p < e then loop e fuel (turn mem s) else some s

structure Machine where
  lapic : Nat
  cpus : List UInt8
  ioapicid : UInt8
  imcr : Bool

/-- The end of `mpinit`, after the loop. -/
def finish (mp conf : Nat) (s : State) : Except String Machine :=
  if s.ismp = false then .error "Didn't find a suitable machine"
  else .ok ⟨getLe mem (conf + 36) 4, s.cpus, s.ioapicid, mem (mp + 12) ≠ 0⟩

/-- `mpinit`, with at most `fuel` turns of its loop: `none` if it has not ended. -/
def mpinit (fuel : Nat) : Option (Except String Machine) :=
  match mpconfig mem with
  | none => some (.error "Expect to run on an SMP")
  | some (mp, conf) =>
    (loop mem (conf + confLength mem conf) fuel ⟨conf + sizeConf, true, [], 0⟩).map
      (finish mem mp conf)

end Code

/-! ## Tables -/

section Tables

variable (mem : Bytes)

def entrySize (type : UInt8) : Option Nat :=
  if type = mpProc then some sizeProc
  else if type = mpIoapic then some sizeIoapic
  else if type = mpBus ∨ type = mpIointr ∨ type = mpLintr then some 8
  else none

/-- The addresses of the entries from `p` to `e`, up to the first one of an unknown
type. All entries have at least one byte, so that `e - p` steps are enough. -/
def entriesFrom (e : Nat) : (steps p : Nat) → List Nat
  | 0, _ => []
  | steps + 1, p =>
    if p < e then
      p :: match entrySize (mem p) with
        | some size => entriesFrom e steps (p + size)
        | none => []
    else []

def entries (conf : Nat) : List Nat :=
  entriesFrom mem (conf + confLength mem conf) (confLength mem conf) (conf + sizeConf)

/-- The second byte of each entry of the given type: the number of its APIC. -/
def apics (type : UInt8) (table : List Nat) : List UInt8 :=
  (table.filter fun entry => mem entry = type).map fun entry => mem (entry + 1)

variable {mem} {e : Nat} {s : State}

theorem entrySize_pos {type : UInt8} {size : Nat} (isSize : entrySize type = some size) :
    8 ≤ size := by
  unfold entrySize at isSize
  split at isSize
  · cases isSize
    decide
  · split at isSize
    · cases isSize
      decide
    · split at isSize
      · cases isSize
        exact le_rfl
      · cases isSize

def record (cpus : List UInt8) (type apicid : UInt8) : List UInt8 :=
  if type = mpProc ∧ cpus.length < nCpu then cpus ++ [apicid] else cpus

/-- A turn at an entry of a known type goes on to the next entry. -/
theorem turn_known {size : Nat} (isSize : entrySize (mem s.p) = some size) : turn mem s =
    { s with
      p := s.p + size
      cpus := record s.cpus (mem s.p) (mem (s.p + 1))
      ioapicid := if mem s.p = mpIoapic then mem (s.p + 1) else s.ioapicid } := by
  unfold entrySize at isSize
  unfold turn record
  by_cases isProc : mem s.p = mpProc
  · rw [if_pos isProc] at isSize ⊢
    cases isSize
    simp only [isProc, true_and, if_neg (show mpProc ≠ mpIoapic by decide)]
  rw [if_neg isProc] at isSize ⊢
  simp only [isProc, false_and, if_false]
  by_cases isIoapic : mem s.p = mpIoapic
  · rw [if_pos isIoapic] at isSize ⊢
    cases isSize
    rw [if_pos isIoapic]
  rw [if_neg isIoapic] at isSize ⊢
  rw [if_neg isIoapic]
  by_cases other : mem s.p = mpBus ∨ mem s.p = mpIointr ∨ mem s.p = mpLintr
  · rw [if_pos other] at isSize ⊢
    cases isSize
    rfl
  · rw [if_neg other] at isSize
    cases isSize

/-- A turn at an entry of an unknown type stays there. -/
theorem turn_unknown (unknown : entrySize (mem s.p) = none) :
    turn mem s = { s with ismp := false } := by
  unfold entrySize at unknown
  unfold turn
  split at unknown
  · cases unknown
  · next notProc =>
      split at unknown
      · cases unknown
      · next notIoapic =>
          split at unknown
          · cases unknown
          · next notOther => rw [if_neg notProc, if_neg notIoapic, if_neg notOther]

/-- At an entry of an unknown type the loop never ends. -/
theorem loop_stuck (below : s.p < e) (unknown : entrySize (mem s.p) = none) (fuel : Nat) :
    loop mem e fuel s = none := by
  induction fuel generalizing s with
  | zero => rw [loop, if_pos below]
  | succ fuel ih =>
    rw [loop, if_pos below, turn_unknown unknown]
    exact ih below unknown

/-- Before an entry of an unknown type the loop never ends. -/
theorem loop_unknown {steps : Nat} : ∀ {s : State},
    (∃ entry ∈ entriesFrom mem e steps s.p, entrySize (mem entry) = none) → ∀ fuel,
      loop mem e fuel s = none := by
  induction steps with
  | zero =>
    rintro s ⟨entry, member, _⟩ fuel
    exact absurd member List.not_mem_nil
  | succ steps ih =>
    rintro s ⟨entry, member, unknown⟩ fuel
    rw [entriesFrom] at member
    by_cases below : s.p < e
    · rw [if_pos below, List.mem_cons] at member
      cases isSize : entrySize (mem s.p) with
      | none => exact loop_stuck below isSize fuel
      | some size =>
        rw [isSize] at member
        have later : entry ∈ entriesFrom mem e steps (s.p + size) := by
          refine member.resolve_left fun isFirst => ?_
          rw [isFirst, isSize] at unknown
          cases unknown
        cases fuel with
        | zero => rw [loop, if_pos below]
        | succ fuel =>
          rw [loop, if_pos below, turn_known isSize]
          exact ih ⟨entry, later, unknown⟩ fuel
    · rw [if_neg below] at member
      exact absurd member List.not_mem_nil

theorem apics_cons {type : UInt8} {entry : Nat} {rest : List Nat} : apics mem type (entry :: rest) =
    if mem entry = type then mem (entry + 1) :: apics mem type rest else apics mem type rest := by
  unfold apics
  by_cases isType : mem entry = type
  · rw [List.filter_cons_of_pos (by simp [isType]), if_pos isType, List.map_cons]
  · rw [List.filter_cons_of_neg (by simp [isType]), if_neg isType]

/-- Only the first `NCPU` processors are recorded. -/
theorem take_record {cpus rest : List UInt8} {type apicid : UInt8} :
    (record cpus type apicid ++ rest).take nCpu =
      (cpus ++ if type = mpProc then apicid :: rest else rest).take nCpu := by
  unfold record
  by_cases isProc : type = mpProc
  · rw [if_pos isProc]
    by_cases room : cpus.length < nCpu
    · rw [if_pos ⟨isProc, room⟩, List.append_assoc, List.singleton_append]
    · have full : nCpu ≤ cpus.length := Nat.le_of_not_lt room
      rw [if_neg fun both => room both.2, List.take_append_of_le_length full,
        List.take_append_of_le_length full]
  · rw [if_neg isProc, if_neg fun both => isProc both.1]

theorem record_length {cpus : List UInt8} (short : cpus.length ≤ nCpu) (type apicid : UInt8) :
    (record cpus type apicid).length ≤ nCpu := by
  unfold record
  split
  · rw [List.length_append, List.length_singleton]
    omega
  · exact short

/-- Along entries of known types the loop ends, and has recorded them. -/
theorem loop_known {steps : Nat} : ∀ {s : State}, e - s.p ≤ steps → s.cpus.length ≤ nCpu →
    (∀ entry ∈ entriesFrom mem e steps s.p, entrySize (mem entry) ≠ none) →
    ∃ p, loop mem e steps s = some
      { s with
        p := p
        cpus := (s.cpus ++ apics mem mpProc (entriesFrom mem e steps s.p)).take nCpu
        ioapicid := (apics mem mpIoapic (entriesFrom mem e steps s.p)).getLastD s.ioapicid } := by
  have ends : ∀ {s : State}, s.cpus.length ≤ nCpu → (⟨s.p, s.ismp, (s.cpus ++ []).take nCpu,
      s.ioapicid⟩ : State) = s := by
    intro s short
    rw [List.append_nil, List.take_of_length_le short]
  induction steps with
  | zero =>
    intro s enough short _
    refine ⟨s.p, ?_⟩
    rw [loop, if_neg (by omega)]
    exact congrArg some (ends short).symm
  | succ steps ih =>
    intro s enough short known
    rw [entriesFrom] at known ⊢
    by_cases below : s.p < e
    · rw [if_pos below] at known ⊢
      cases isSize : entrySize (mem s.p) with
      | none => exact absurd isSize (known s.p List.mem_cons_self)
      | some size =>
        rw [isSize] at known
        have positive := entrySize_pos isSize
        rw [loop, if_pos below, turn_known isSize]
        obtain ⟨p, ran⟩ := ih (s := ⟨s.p + size, s.ismp,
            record s.cpus (mem s.p) (mem (s.p + 1)), _⟩) (by dsimp only; omega)
          (record_length short _ _) fun entry member => known entry (List.mem_cons_of_mem _ member)
        refine ⟨p, ran.trans (congrArg some ?_)⟩
        rw [apics_cons, apics_cons, take_record]
        by_cases isIoapic : mem s.p = mpIoapic
        · rw [if_pos isIoapic, if_pos isIoapic, List.getLastD_cons]
        · rw [if_neg isIoapic, if_neg isIoapic]
    · rw [if_neg below]
      refine ⟨s.p, ?_⟩
      rw [loop, if_neg below]
      exact congrArg some (ends short).symm

end Tables

/-- What `mpinit` is to do with the table at `conf`, which the structure at `mp` points
to: it panics if there is an entry of an unknown type, and records the processors and
the last I/O APIC otherwise. -/
def Specified (mem : Bytes) (mp conf : Nat) (result : Except String Machine) : Prop :=
  if ∃ entry ∈ entries mem conf, entrySize (mem entry) = none then
    result = .error "Didn't find a suitable machine"
  else
    result = .ok
      { lapic := getLe mem (conf + 36) 4
        cpus := (apics mem mpProc (entries mem conf)).take nCpu
        ioapicid := (apics mem mpIoapic (entries mem conf)).getLastD 0
        imcr := mem (mp + 12) ≠ 0 }

section Whole

variable {mem : Bytes} {mp conf : Nat}

theorem mpinit_eq (found : mpconfig mem = some (mp, conf)) (fuel : Nat) : mpinit mem fuel =
    (loop mem (conf + confLength mem conf) fuel ⟨conf + sizeConf, true, [], 0⟩).map
      (finish mem mp conf) := by
  rw [mpinit, found]

theorem mpinit_unknown (found : mpconfig mem = some (mp, conf))
    (unknown : ∃ entry ∈ entries mem conf, entrySize (mem entry) = none) (fuel : Nat) :
    mpinit mem fuel = none := by
  rw [mpinit_eq found, loop_unknown (s := ⟨conf + sizeConf, true, [], 0⟩) unknown]
  rfl

end Whole

/-- `mpinit` ends with the specified result exactly for the tables without an entry of
an unknown type. -/
theorem mpinit_specified_iff {mem : Bytes} {mp conf : Nat}
    (found : mpconfig mem = some (mp, conf)) :
    (∃ fuel result, mpinit mem fuel = some result ∧ Specified mem mp conf result) ↔
      ∀ entry ∈ entries mem conf, entrySize (mem entry) ≠ none := by
  constructor
  · rintro ⟨fuel, result, ran, _⟩ entry member unknown
    rw [mpinit_unknown found ⟨entry, member, unknown⟩] at ran
    cases ran
  · intro known
    obtain ⟨p, ran⟩ := loop_known (s := ⟨conf + sizeConf, true, [], 0⟩)
      (show _ ≤ confLength mem conf by dsimp only; omega) (Nat.zero_le _) known
    refine ⟨confLength mem conf, _, (mpinit_eq found _).trans (congrArg _ ran), ?_⟩
    unfold Specified
    rw [if_neg fun some => some.elim fun entry unknown => known entry unknown.1 unknown.2]
    rfl

/-- A floating pointer at the start of the BIOS ROM, and a table with one entry of 20
bytes, of the given type and with APIC number 5. -/
def smallTable (type : UInt8) : Bytes := fun a =>
  if 0xF0000 ≤ a then
    [95, 77, 80, 95, 0, 16, 0, 0, 1, 4, 144, 0, 0, 0, 0, 0].getD (a - 0xF0000) 0
  else if 0x1000 ≤ a then
    ([80, 67, 77, 80, 64, 0, 4, 168 - type] ++
      List.replicate 26 0 ++ [1, 0, 0, 0, 224, 254, 0, 0, 0, 0, type, 5]).getD
      (a - 0x1000) 0
  else 0

theorem smallTable_found (type : UInt8) : type = 0 ∨ type = 9 →
    mpconfig (smallTable type) = some (0xF0000, 0x1000) ∧
      entries (smallTable type) 0x1000 = [0x102C] := by
  rintro (rfl | rfl) <;> decide +kernel

/-- A table that passes the checks and has an entry of type 9: `mpinit` does not end. -/
theorem mpinit_hangs : mpconfig (smallTable 9) = some (0xF0000, 0x1000) ∧
    ∀ fuel, mpinit (smallTable 9) fuel = none := by
  obtain ⟨found, table⟩ := smallTable_found 9 (Or.inr rfl)
  refine ⟨found, mpinit_unknown found ?_⟩
  decide +kernel

/-- A table with one processor. -/
theorem mpinit_specified_iff_one_processor : ∃ fuel result,
    mpinit (smallTable 0) fuel = some result ∧ Specified (smallTable 0) 0xF0000 0x1000 result := by
  obtain ⟨found, table⟩ := smallTable_found 0 (Or.inl rfl)
  apply (mpinit_specified_iff found).mpr
  decide +kernel

end Rexv6.Mp
