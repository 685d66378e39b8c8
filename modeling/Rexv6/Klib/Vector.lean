import Mathlib.Algebra.Ring.Nat
import Mathlib.Logic.Function.Basic
import Rexv6.Foundation.Program

/-!
Contract: the `Vector` of `klib/vector.h`, over any element type, with the buffers
its allocator hands out.

Owns: the constructors, the destructor and every operation that changes a vector,
with their loops, the 32-bit sizes and the checks of each access to a buffer; and
programs that work on several vectors at once.

Does not own: `operator[]` and the iterators, which only expose `data_`. A position
is given by its index, so `pos - data_` is never negative.
-/

namespace Rexv6.Klib.Vector

open Rexv6.Foundation

/-- Why an operation does not finish: an access outside a buffer or to a released
one, or a vector that does not exist. -/
inductive Fault where
  | outOfBounds
  | released
  | noVector
deriving DecidableEq, Repr

/-- The buffers returned by `allocate`, numbered from `0`, and the calls of
`release` so far. A cell that was never assigned is `none`. -/
structure Memory (α : Type) where
  next : Nat
  cells : Nat → List (Option α)
  released : List Nat

/-- The members of a vector; `data_` is the number of a buffer. -/
structure Vec where
  size : Nat
  capacity : Nat
  data : Nat
deriving DecidableEq, Repr

abbrev Run (α β : Type) := Program (Memory α) Fault β

section Operations

variable {α : Type}

/-! ## Buffers -/

def allocate (size : Nat) : Run α Nat := do
  let m ← get
  set { m with next := m.next + 1,
               cells := Function.update m.cells m.next (List.replicate size none) }
  pure m.next

def release (p : Nat) : Run α Unit :=
  modify fun m => { m with released := p :: m.released }

/-- The value of `p[i]`. -/
def load (p i : Nat) : Run α (Option α) := do
  let m ← get
  if p ∈ m.released then throw .released
  else
    match (m.cells p)[i]? with
    | some value => pure value
    | none => throw .outOfBounds

/-- `p[i] = value`. -/
def store (p i : Nat) (value : Option α) : Run α Unit := do
  let m ← get
  if p ∈ m.released then throw .released
  else if i < (m.cells p).length then
    set { m with cells := Function.update m.cells p ((m.cells p).set i value) }
  else throw .outOfBounds

/-- `for (i = ...; i < size_; ++i) target[i] = source[i]`, with `remaining` turns
to go. -/
def copyLoop (target source : Nat) : (remaining i : Nat) → Run α Unit
  | 0, _ => pure ()
  | remaining + 1, i => do
    let value ← load source i
    store target i value
    copyLoop target source remaining (i + 1)

/-! ## Capacities -/

/-- The loop of `get_capacity` that looks for the highest bit of `n`. It ends within
32 turns for every `n` other than `0`. -/
def topMask (n : Nat) : (fuel mask : Nat) → Nat
  | 0, mask => mask
  | fuel + 1, mask => if mask &&& n = 0 then topMask n fuel (mask >>> 1) else mask

def getCapacity (n : Nat) : Nat :=
  if n = 0 then 0
  else
    let mask := topMask n 32 (2 ^ 31)
    if mask ≠ n then (mask <<< 1) % 2 ^ 32 else mask

/-! ## Constructors and destructor -/

/-- `Vector(s)`. -/
def construct (s : Nat) : Run α Vec := do
  let capacity := if s ≠ 0 then getCapacity s else 0
  if s ≠ 0 then
    let _ ← allocate capacity
  let data ← allocate 1
  pure ⟨s, capacity, data⟩

/-- `Vector(const Vector &)`. -/
def copyOf (obj : Vec) : Run α Vec := do
  let data ← allocate obj.capacity
  copyLoop data obj.data obj.size 0
  pure ⟨obj.size, obj.capacity, data⟩

/-- `~Vector()`. No constructor leaves `data_` null. -/
def destroy (v : Vec) : Run α Unit := release v.data

/-! ## Operations -/

/-- The body that `shrink_to_fit` and `reserve` share: move the elements to a new
buffer of the given capacity by way of `temp`. -/
def moveTo (v : Vec) (capacity : Nat) : Run α Vec := do
  let temp ← allocate v.size
  copyLoop temp v.data v.size 0
  release v.data
  let data ← allocate capacity
  copyLoop data temp v.size 0
  pure ⟨v.size, capacity, data⟩

def shrinkToFit (v : Vec) : Run α Vec := moveTo v (getCapacity v.size)

def reserve (v : Vec) (nsz : Nat) : Run α Vec :=
  if nsz ≥ v.capacity then moveTo v (getCapacity nsz) else pure v

/-- `if (size_ + 1 >= capacity_) reserve(size_ + 1)`. -/
def makeRoom (v : Vec) : Run α Vec :=
  if (v.size + 1) % 2 ^ 32 ≥ v.capacity then reserve v ((v.size + 1) % 2 ^ 32) else pure v

def pushBack (v : Vec) (val : α) : Run α Vec := do
  let v ← makeRoom v
  let v := { v with size := (v.size + 1) % 2 ^ 32 }
  store v.data ((v.size + 2 ^ 32 - 1) % 2 ^ 32) (some val)
  pure v

def popBack (v : Vec) : Run α Vec :=
  if v.size = 0 then pure v else pure { v with size := v.size - 1 }

def clear (v : Vec) : Run α Vec := do
  release v.data
  let data ← allocate 1
  pure ⟨0, getCapacity 0, data⟩

/-- `for (i = current; i < size_ - 1; i++) data_[i] = data_[i + 1]`, with
`remaining` turns to go. -/
def eraseLoop (data : Nat) : (remaining i : Nat) → Run α Unit
  | 0, _ => pure ()
  | remaining + 1, i => do
    let value ← load data (i + 1)
    store data i value
    eraseLoop data remaining (i + 1)

def erase (v : Vec) (current : Nat) : Run α Vec :=
  if current > v.size then pure v
  else do
    eraseLoop v.data ((v.size + 2 ^ 32 - 1) % 2 ^ 32 - current) current
    pure { v with size := (v.size + 2 ^ 32 - 1) % 2 ^ 32 }

/-- `for (i = size_; i > current; i--) data_[i] = data_[i - 1]`, with `remaining`
turns to go. -/
def insertLoop (data : Nat) : (remaining i : Nat) → Run α Unit
  | 0, _ => pure ()
  | remaining + 1, i => do
    let value ← load data (i - 1)
    store data i value
    insertLoop data remaining (i - 1)

def insert (v : Vec) (current : Nat) (val : α) : Run α Vec :=
  if current > v.size then pure v
  else do
    let v ← makeRoom v
    insertLoop v.data (v.size - current) v.size
    let v := { v with size := (v.size + 1) % 2 ^ 32 }
    store v.data current (some val)
    pure v

end Operations

/-! ## Programs with several vectors -/

/-- A call on the vectors of a program, which are numbered in the order of their
construction. -/
inductive Op (α : Type) where
  | construct (s : Nat)
  | copy (obj : Nat)
  | assign (v obj : Nat)
  | pushBack (v : Nat) (val : α)
  | popBack (v : Nat)
  | insert (v current : Nat) (val : α)
  | erase (v current : Nat)
  | clear (v : Nat)
  | reserve (v nsz : Nat)
  | shrinkToFit (v : Nat)
  | destroy (v : Nat)
deriving Repr

/-- The vectors constructed so far, without those that have been destroyed. -/
structure State (α : Type) where
  memory : Memory α
  vectors : List (Option Vec)

section Programs

variable {α : Type}

def start : State α := ⟨⟨0, fun _ => [], []⟩, []⟩

def State.make (s : State α) (call : Run α Vec) : Except Fault (State α) :=
  (call.run s.memory).map fun result => ⟨result.2, s.vectors ++ [some result.1]⟩

def State.change (s : State α) (v : Nat) (call : Vec → Run α Vec) : Except Fault (State α) :=
  match s.vectors[v]?.join with
  | none => .error .noVector
  | some vec => ((call vec).run s.memory).map fun result =>
    ⟨result.2, s.vectors.set v (some result.1)⟩

def State.step (s : State α) : Op α → Except Fault (State α)
  | .construct size => s.make (Vector.construct size)
  | .copy obj =>
    match s.vectors[obj]?.join with
    | none => .error .noVector
    | some vec => s.make (copyOf vec)
  | .assign v obj =>
    -- The class declares no `operator=`, so that the members are copied, `data_` among them.
    match s.vectors[obj]?.join with
    | none => .error .noVector
    | some vec => s.change v fun _ => pure vec
  | .pushBack v val => s.change v fun vec => Vector.pushBack vec val
  | .popBack v => s.change v Vector.popBack
  | .insert v current val => s.change v fun vec => Vector.insert vec current val
  | .erase v current => s.change v fun vec => Vector.erase vec current
  | .clear v => s.change v Vector.clear
  | .reserve v nsz => s.change v fun vec => Vector.reserve vec nsz
  | .shrinkToFit v => s.change v Vector.shrinkToFit
  | .destroy v =>
    match s.vectors[v]?.join with
    | none => .error .noVector
    | some vec => ((Vector.destroy vec).run s.memory).map fun result =>
      ⟨result.2, s.vectors.set v none⟩

def State.run (s : State α) (ops : List (Op α)) : Except Fault (State α) := ops.foldlM State.step s

end Programs

end Rexv6.Klib.Vector
