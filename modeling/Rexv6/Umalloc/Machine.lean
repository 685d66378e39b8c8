import Mathlib.Algebra.Ring.Nat
import Rexv6.Foundation.Circuit

/-!
Contract: the user-level allocator of `lib/ulibc/umalloc.c`.

Owns: `free`, `morecore` and `malloc` over the two fields of each `Header`, `freep` and
`base`, the `sbrk` they call, and the client that calls them and writes to its blocks.

Does not own: what the client stores, beyond that it may overwrite anything behind
the header of a block it has been given.

Addresses are byte addresses; a block is known by the address of its header. The heap
lies in the address space, so that no address or size computed from its blocks wraps.
-/

namespace Rexv6.Umalloc

open Rexv6.Foundation
open Function (update)

def headerSize : Nat := 8

/-- The fields `s.ptr` and `s.size` at each address, `freep` (0 before the first `malloc`),
and the end of the memory that `sbrk` has given. -/
structure Heap where
  ptr : Nat → Nat
  size : Nat → Nat
  freep : Nat
  brk : Nat

namespace Heap

/-- `bp + bp->s.size` -/
def behind (heap : Heap) (p : Nat) : Nat := p + headerSize * heap.size p

/-- `free` joins the block to the one behind it, or links it to the next one. -/
def joinNext (heap : Heap) (bp p : Nat) : Heap :=
  if heap.behind bp = heap.ptr p then
    { heap with
      size := update heap.size bp (heap.size bp + heap.size (heap.ptr p))
      ptr := update heap.ptr bp (heap.ptr (heap.ptr p)) }
  else { heap with ptr := update heap.ptr bp (heap.ptr p) }

/-- `free` joins the block to the one before it, or links that one to it. -/
def joinPrev (heap : Heap) (bp p : Nat) : Heap :=
  if heap.behind p = bp then
    { heap with
      size := update heap.size p (heap.size p + heap.size bp)
      ptr := update heap.ptr p (heap.ptr bp) }
  else { heap with ptr := update heap.ptr p bp }

/-- The tests that end the loop of `free`. -/
def between (heap : Heap) (bp p : Nat) : Bool :=
  (p < bp && bp < heap.ptr p) || (heap.ptr p ≤ p && (p < bp || bp < heap.ptr p))

/-- `free`. The loop visits blocks of the heap, so that it has ended after as many turns
as the heap has bytes, if it ends. -/
def free (heap : Heap) (ap : Nat) : Option Heap := do
  let bp := ap - headerSize
  let p ← seek heap.ptr (heap.between bp) (heap.brk + 2) heap.freep
  pure { (heap.joinNext bp p).joinPrev bp p with freep := p }

def sbrk (heap : Heap) (n : Nat) (granted : Bool) : Option (Nat × Heap) :=
  if granted = true then some (heap.brk, { heap with brk := heap.brk + n }) else none

/-- The units that `morecore` asks for. -/
def units (nu : Nat) : Nat := if nu < 4096 then 4096 else nu

/-- `morecore`: the new heap, and whether there is more core. -/
def morecore (heap : Heap) (nu : Nat) (granted : Bool) : Option (Heap × Bool) :=
  match heap.sbrk (units nu * headerSize) granted with
  | none => some (heap, false)
  | some (hp, heap) => do
    let heap ← { heap with size := update heap.size hp (units nu) }.free (hp + headerSize)
    pure (heap, true)

/-- The loop of `malloc` behind `prevp`, up to a block that is large enough, with the one
before it, or to `freep`. -/
def scan (heap : Heap) (nunits : Nat) : Nat → Nat → Option (Option (Nat × Nat))
  | 0, _ => none
  | fuel + 1, prevp =>
    let p := heap.ptr prevp
    if nunits ≤ heap.size p then some (some (prevp, p))
    else if p = heap.freep then some none
    else heap.scan nunits fuel p

/-- Take a block, or the tail of it. -/
def take (heap : Heap) (nunits prevp p : Nat) : Heap × Nat :=
  if heap.size p = nunits then
    ({ heap with ptr := update heap.ptr prevp (heap.ptr p), freep := prevp },
      p + headerSize)
  else
    let rest := heap.size p - nunits
    let tail := p + headerSize * rest
    ({ heap with
        size := update (update heap.size p rest) tail nunits
        freep := prevp }, tail + headerSize)

/-- The loop of `malloc`. Each round ends at a block, at a refusal, or with more core. -/
def search (nunits : Nat) (granted : Nat → Bool) : Nat → Heap → Option (Heap × Nat)
  | 0, _ => none
  | rounds + 1, heap => do
    match ← heap.scan nunits (heap.brk + 2) heap.freep with
    | some (prevp, p) => pure (heap.take nunits prevp p)
    | none =>
      match ← heap.morecore nunits (granted heap.brk) with
      | (heap, false) => pure (heap, 0)
      | (heap, true) => search nunits granted rounds heap

/-- The number of units for a request, in 32-bit arithmetic. -/
def nunits (nbytes : Nat) : Nat := (nbytes + headerSize - 1) % 2 ^ 32 / headerSize + 1

/-- `malloc`. `granted` says which calls of `sbrk` succeed, by the end of the memory at
the call. The third round would follow on memory that was just given. -/
def malloc (base : Nat) (heap : Heap) (nbytes : Nat) (granted : Nat → Bool) :
    Option (Heap × Nat) :=
  search (nunits nbytes) granted 2
    (if heap.freep = 0 then
      { heap with
        ptr := update heap.ptr base base
        size := update heap.size base 0
        freep := base }
    else heap)

end Heap

/-- The heap and the pointers that the client holds, each with the number of bytes it asked
for. -/
structure State where
  heap : Heap
  live : Nat → Option Nat

/-- `store` writes what would be a header to byte `i` of a block. -/
inductive Action where
  | malloc (n : Nat) (granted : Nat → Bool)
  | free (ap : Nat)
  | store (ap i ptr size : Nat)

/-- `hangs` is a loop that does not end. -/
inductive Stop where
  | hangs
deriving DecidableEq, Repr

namespace State

def step (base : Nat) (s : State) : Action → Except Stop State
  | .malloc n granted =>
    match s.heap.malloc base n granted with
    | none => .error .hangs
    | some (heap, ap) =>
      .ok ⟨heap, if ap = 0 then s.live else update s.live ap (some n)⟩
  | .free ap =>
    match s.heap.free ap with
    | none => .error .hangs
    | some heap => .ok ⟨heap, update s.live ap none⟩
  | .store ap i ptr size =>
    .ok { s with
      heap := { s.heap with
        ptr := update s.heap.ptr (ap + i) ptr
        size := update s.heap.size (ap + i) size } }

/-- Before the first call, with the heap starting at `lo` and whatever is in memory. -/
def init (ptr size : Nat → Nat) (lo : Nat) : State :=
  ⟨⟨ptr, size, 0, lo⟩, fun _ => none⟩

end State

end Rexv6.Umalloc
