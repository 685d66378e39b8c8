import Mathlib.Data.BitVec

/-!
Contract: how the kernel fetches the arguments of a system call.

Owns: `fetchint`, `fetchstr`, `argint`, `argptr` and `argstr` of
`kern/syscall/syscall.c`, which of the addresses they look at, and what they return.

Does not own: what the system calls do with their arguments, and the page tables: the
process owns the bytes below `sz`, and an access to any other byte is a fault.
-/

namespace Rexv6.Syscall

/-- What the functions read of the current process: `sz`, the saved `%esp` and the
memory. -/
structure Process where
  sz : BitVec 32
  esp : BitVec 32
  mem : BitVec 32 → UInt8

/-- An access to a byte outside the process. -/
inductive Fault where
  | outside
deriving DecidableEq

/-! ## The code -/

section Code

variable (p : Process)

/-- `*(char*)a`. -/
def load (a : BitVec 32) : Except Fault UInt8 := if a < p.sz then .ok (p.mem a) else .error .outside

/-- `*(int*)a`, least significant byte first. -/
def loadInt (a : BitVec 32) : Except Fault (BitVec 32) := do
  let b₀ ← load p a
  let b₁ ← load p (a + 1)
  let b₂ ← load p (a + 2)
  let b₃ ← load p (a + 3)
  return b₃.toBitVec ++ b₂.toBitVec ++ b₁.toBitVec ++ b₀.toBitVec

/-- `fetchint`; `none` is a return value of -1. -/
def fetchint (addr : BitVec 32) : Except Fault (Option (BitVec 32)) :=
  if addr ≥ p.sz ∨ addr + 4 > p.sz then .ok none else some <$> loadInt p addr

/-- The loop of `fetchstr` over the addresses below `ep`. -/
def findNul (s : BitVec 32) : Except Fault (Option (BitVec 32)) :=
  if s < p.sz then do
    if (← load p s) = 0 then return some s
    findNul (s + 1)
  else .ok none
termination_by p.sz.toNat - s.toNat
decreasing_by bv_omega

/-- `fetchstr`: the pointer and the length of the string. -/
def fetchstr (addr : BitVec 32) : Except Fault (Option (BitVec 32 × BitVec 32)) :=
  if addr ≥ p.sz then .ok none
  else do
    let some s ← findNul p addr | return none
    return some (addr, s - addr)

def argAddress (n : BitVec 32) : BitVec 32 := p.esp + 4 + 4 * n

def argint (n : BitVec 32) : Except Fault (Option (BitVec 32)) := fetchint p (argAddress p n)

def argptr (n size : BitVec 32) : Except Fault (Option (BitVec 32)) := do
  let some i ← argint p n | return none
  if size.toInt < 0 ∨ i ≥ p.sz ∨ i + size > p.sz then return none
  return some i

def argstr (n : BitVec 32) : Except Fault (Option (BitVec 32 × BitVec 32)) := do
  let some addr ← argint p n | return none
  fetchstr p addr

end Code

/-! ## What they return -/

section Fetch

variable {p : Process}

def Process.word (p : Process) (a : BitVec 32) : BitVec 32 :=
  (p.mem (a + 3)).toBitVec ++ (p.mem (a + 2)).toBitVec ++ (p.mem (a + 1)).toBitVec ++
    (p.mem a).toBitVec

/-- The string at `addr` has `length` bytes, and ends below `sz`. -/
structure StringAt (p : Process) (addr : BitVec 32) (length : Nat) : Prop where
  inside : addr.toNat + length < p.sz.toNat
  ends : p.mem (addr + BitVec.ofNat 32 length) = 0
  nonzero : ∀ i < length, p.mem (addr + BitVec.ofNat 32 i) ≠ 0

theorem load_inside {a : BitVec 32} (inside : a < p.sz) : load p a = .ok (p.mem a) := if_pos inside

theorem fetchint_eq (small : p.sz.toNat < 2 ^ 31) (addr : BitVec 32) : fetchint p addr =
    .ok (if addr.toNat + 4 ≤ p.sz.toNat then some (p.word addr) else none) := by
  unfold fetchint
  by_cases inside : addr.toNat + 4 ≤ p.sz.toNat
  · rw [if_neg (by bv_omega), if_pos inside, loadInt, load_inside (by bv_omega),
      load_inside (by bv_omega), load_inside (by bv_omega), load_inside (by bv_omega)]
    rfl
  · rw [if_pos (by bv_omega), if_neg inside]

theorem add_ofNat_succ (s : BitVec 32) (i : Nat) :
    s + BitVec.ofNat 32 (i + 1) = s + 1 + BitVec.ofNat 32 i := by
  rw [Nat.add_comm, BitVec.ofNat_add, BitVec.add_assoc]
  rfl

theorem stringAt_succ {s : BitVec 32} {length : Nat} (below : s < p.sz) :
    StringAt p s (length + 1) ↔ p.mem s ≠ 0 ∧ StringAt p (s + 1) length := by
  have next : (s + 1).toNat = s.toNat + 1 := by bv_omega
  constructor
  · intro isString
    refine ⟨?_, ?_, ?_, fun i inside => ?_⟩
    · have first := isString.nonzero 0 (Nat.succ_pos _)
      rw [BitVec.add_zero] at first
      exact first
    · have inside := isString.inside
      omega
    · rw [← add_ofNat_succ]
      exact isString.ends
    · rw [← add_ofNat_succ]
      exact isString.nonzero (i + 1) (Nat.succ_lt_succ inside)
  · rintro ⟨first, isString⟩
    refine ⟨?_, ?_, fun i inside => ?_⟩
    · have inside := isString.inside
      omega
    · rw [add_ofNat_succ]
      exact isString.ends
    · cases i with
      | zero =>
        rw [BitVec.add_zero]
        exact first
      | succ i =>
        rw [add_ofNat_succ]
        exact isString.nonzero i (Nat.lt_of_succ_lt_succ inside)

/-- The loop looks only at bytes below `sz`, and finds the first NUL. -/
theorem findNul_eq (s : BitVec 32) :
    (∃ length, StringAt p s length ∧ findNul p s = .ok (some (s + BitVec.ofNat 32 length))) ∨
      ((∀ length, ¬ StringAt p s length) ∧ findNul p s = .ok none) := by
  induction s using findNul.induct p with
  | case1 s below ih =>
    rw [findNul, if_pos below, load_inside below]
    by_cases isNul : p.mem s = 0
    · left
      refine ⟨0, ⟨below, ?_, fun i inside => absurd inside (Nat.not_lt_zero i)⟩, ?_⟩
      · rw [BitVec.add_zero]
        exact isNul
      · rw [BitVec.add_zero]
        exact if_pos isNul
    have further : (do
        if (← Except.ok (p.mem s)) = 0 then return some s
        findNul p (s + 1)) = findNul p (s + 1) := if_neg isNul
    rw [further]
    rcases ih with ⟨length, isString, found⟩ | ⟨none, found⟩
    · left
      refine ⟨length + 1, (stringAt_succ below).mpr ⟨isNul, isString⟩, ?_⟩
      rw [found, add_ofNat_succ]
    · right
      refine ⟨fun length isString => ?_, found⟩
      cases length with
      | zero =>
        have ends := isString.ends
        rw [BitVec.add_zero] at ends
        exact isNul ends
      | succ length => exact none length ((stringAt_succ below).mp isString).2
  | case2 s outside =>
    right
    refine ⟨fun length isString => ?_, ?_⟩
    · have inside := isString.inside
      bv_omega
    · rw [findNul, if_neg outside]

def Fetched (p : Process) (addr : BitVec 32) : Option (BitVec 32 × BitVec 32) → Prop
  | some (s, length) => s = addr ∧ StringAt p addr length.toNat
  | none => ∀ length, ¬ StringAt p addr length

theorem fetchstr_eq (addr : BitVec 32) :
    ∃ result, fetchstr p addr = .ok result ∧ Fetched p addr result := by
  unfold fetchstr
  by_cases outside : addr ≥ p.sz
  · rw [if_pos outside]
    refine ⟨none, rfl, fun length isString => ?_⟩
    have inside := isString.inside
    bv_omega
  rw [if_neg outside]
  rcases findNul_eq addr with ⟨length, isString, found⟩ | ⟨none, found⟩
  · refine ⟨some (addr, addr + BitVec.ofNat 32 length - addr), ?_, rfl, ?_⟩
    · rw [found]
      rfl
    · have inside := isString.inside
      have distance : (addr + BitVec.ofNat 32 length - addr).toNat = length := by bv_omega
      rw [distance]
      exact isString
  · refine ⟨.none, ?_, none⟩
    rw [found]
    rfl

end Fetch

/-- The functions that fetch the arguments of a system call return, without an access
outside the process: `fetchint` and `argint` the word if it lies below `sz`, `argptr` the
pointer if moreover the range lies below `sz` and begins there, and `fetchstr` and
`argstr` the string if it ends below `sz`. Otherwise they return -1. -/
theorem arguments_stay_inside {p : Process} (small : p.sz.toNat < 2 ^ 31) :
    (∀ addr, fetchint p addr =
      .ok (if addr.toNat + 4 ≤ p.sz.toNat then some (p.word addr) else none)) ∧
    (∀ addr, ∃ result, fetchstr p addr = .ok result ∧ Fetched p addr result) ∧
    ∀ n, argint p n = fetchint p (argAddress p n) ∧
      if (argAddress p n).toNat + 4 ≤ p.sz.toNat then
        (∀ size : BitVec 32, argptr p n size = .ok
          (if 0 ≤ size.toInt ∧ (p.word (argAddress p n)).toNat < p.sz.toNat ∧
              (p.word (argAddress p n)).toNat + size.toInt ≤ p.sz.toNat then
            some (p.word (argAddress p n))
          else none)) ∧
        argstr p n = fetchstr p (p.word (argAddress p n))
      else (∀ size, argptr p n size = .ok none) ∧ argstr p n = .ok none := by
  refine ⟨fetchint_eq small, fetchstr_eq, fun n => ⟨rfl, ?_⟩⟩
  have fetched : argint p n = _ := fetchint_eq small (argAddress p n)
  unfold argptr argstr
  rw [fetched]
  by_cases inside : (argAddress p n).toNat + 4 ≤ p.sz.toNat
  · rw [if_pos inside, if_pos inside]
    refine ⟨fun size => ?_, rfl⟩
    generalize p.word (argAddress p n) = i
    by_cases negative : size.toInt < 0
    · rw [if_neg (by omega)]
      exact if_pos (Or.inl negative)
    have isNat : size.toInt = size.toNat ∧ size.toNat < 2 ^ 31 := by
      have sign := BitVec.toInt_eq_toNat_cond size
      split at sign <;> omega
    by_cases range : i.toNat < p.sz.toNat ∧ (i.toNat : Int) + size.toInt ≤ p.sz.toNat
    · rw [if_pos ⟨by omega, range⟩]
      apply if_neg
      rw [not_or, not_or]
      exact ⟨negative, by bv_omega, by bv_omega⟩
    · rw [if_neg (fun all => range all.2)]
      apply if_pos
      by_cases below : i < p.sz
      · exact Or.inr (Or.inr (by bv_omega))
      · exact Or.inr (Or.inl (by bv_omega))
  · rw [if_neg inside, if_neg inside]
    exact ⟨fun size => rfl, rfl⟩

/-- A process of one page whose first argument is 7, and a range from there on that is
too long. -/
theorem arguments_stay_inside_page :
    argint ⟨4096, 0, fun a => if a = 4 then 7 else 0⟩ 0 = .ok (some 7) ∧
      argptr ⟨4096, 0, fun a => if a = 4 then 7 else 0⟩ 0 4090 = .ok none := by
  obtain ⟨word, _, arguments⟩ := arguments_stay_inside
    (show (⟨4096, 0, fun a => if a = 4 then 7 else 0⟩ : Process).sz.toNat < 2 ^ 31 by decide)
  have argument := (arguments 0).2
  refine ⟨((arguments 0).1.trans (word _)).trans ?_, (argument.1 4090).trans ?_⟩
  · decide
  · rw [if_neg (by decide)]

end Rexv6.Syscall
