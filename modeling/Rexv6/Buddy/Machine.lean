import Mathlib.Algebra.Order.Group.Nat
import Mathlib.Logic.Function.Basic
import Rexv6.Param

/-!
Contract: the buddy allocator of `kern/mm/buddy.c`, with its packed mark array,
its 16-bit links and its 32-bit address arithmetic.

Owns: `buddy_init`, the free lists and bitmaps of the orders, `buddy_kmalloc`
and `buddy_kmfree`.

Does not own: the spinlock (every call runs under it from start to end), the
`cprintf` traces of `buddy_init`, and the bytes of the heap itself. The sized
calls built on top are in `Sized`.
-/

namespace Rexv6.Buddy

def maxOrd : Nat := 12

def minOrd : Nat := 6

def nOrd : Nat := maxOrd - minOrd + 1

def nil : Nat := 0xFFFF

/-- `mark_t`. -/
structure Mark where
  lnks : BitVec 32
  bitmap : BitVec 32
deriving DecidableEq, Repr

/-- `order_t`. -/
structure Order where
  head : Nat
  offset : Nat
deriving DecidableEq, Repr

/-- The static `kmem`, with the array of marks that starts at `kmem.start`. -/
structure Kmem where
  start : Nat
  startHeap : Nat
  end_ : Nat
  initialized : Bool
  orders : Nat → Order
  marks : Nat → Mark

/-- Why a call does not return: a kernel panic, a store through a null pointer,
or a recursion or loop deeper than the bound it is run with. -/
inductive Halt where
  | panic (message : String)
  | fault
  | depth
deriving DecidableEq, Repr

/-! ## Words and addresses -/

def addU (a b : Nat) : Nat := (a + b) % 2 ^ 32

/-- `ALIGN_UP`, for an alignment that is a power of two. -/
def alignUp (size align : Nat) : Nat :=
  let sum := addU size (align - 1)
  sum - sum % align

def preLnk (lnks : BitVec 32) : Nat := (lnks >>> 16).toNat

def nextLnk (lnks : BitVec 32) : Nat := (lnks &&& 0xFFFF#32).toNat

def lnks (pre next : Nat) : BitVec 32 :=
  (BitVec.ofNat 32 pre <<< 16) ||| (BitVec.ofNat 32 next &&& 0xFFFF#32)

/-- `1 << (blk_id & 0x1F)`. -/
def bit (blkId : Nat) : BitVec 32 := 1#32 <<< (blkId % 32)

def available (bitmap : BitVec 32) (blkId : Nat) : Bool := bitmap &&& bit blkId != 0#32

namespace Kmem

def ord (k : Kmem) (order : Nat) : Order := k.orders (order - minOrd)

def getMark (k : Kmem) (order idx : Nat) : Mark := k.marks ((k.ord order).offset + idx)

/-- A store through the pointer `get_mark` returns. -/
def setMark (k : Kmem) (order idx : Nat) (mark : Mark) : Kmem :=
  { k with marks := Function.update k.marks ((k.ord order).offset + idx) mark }

def setHead (k : Kmem) (order head : Nat) : Kmem :=
  { k with orders := Function.update k.orders (order - minOrd) { k.ord order with head } }

def blkid2mem (k : Kmem) (order blkId : Nat) : Nat := addU k.startHeap (2 ^ order * blkId)

def mem2blkid (k : Kmem) (order mem : Nat) : Nat :=
  ((mem + 2 ^ 32 - k.startHeap) % 2 ^ 32) >>> order

/-! ## Bitmaps and free lists -/

/-- The part of `unmark_blk` that deletes an empty mark from its list. -/
def unlink (k : Kmem) (order idx : Nat) : Kmem :=
  let prev := preLnk (k.getMark order idx).lnks
  let next := nextLnk (k.getMark order idx).lnks
  let k :=
    if prev ≠ nil then
      let p := k.getMark order prev
      k.setMark order prev { p with lnks := lnks (preLnk p.lnks) next }
    else if (k.ord order).head = idx then k.setHead order next
    else k
  let k :=
    if next ≠ nil then
      let p := k.getMark order next
      k.setMark order next { p with lnks := lnks prev (nextLnk p.lnks) }
    else k
  k.setMark order idx { k.getMark order idx with lnks := lnks nil nil }

def unmarkBlk (k : Kmem) (order blkId : Nat) : Except Halt Kmem :=
  let mk := k.getMark order (blkId >>> 5)
  if ¬ available mk.bitmap blkId then .error (.panic "double alloc\n")
  else
    let bitmap := mk.bitmap &&& ~~~ bit blkId
    let k := k.setMark order (blkId >>> 5) { mk with bitmap }
    if bitmap = 0#32 then .ok (k.unlink order (blkId >>> 5)) else .ok k

/-- The part of `mark_blk` that inserts a mark at the head of its list. -/
def link (k : Kmem) (order idx : Nat) : Kmem :=
  let head := (k.ord order).head
  let k := k.setMark order idx { k.getMark order idx with lnks := lnks nil head }
  let k :=
    if head ≠ nil then
      let p := k.getMark order head
      k.setMark order head { p with lnks := lnks idx (nextLnk p.lnks) }
    else k
  k.setHead order idx

def markBlk (k : Kmem) (order blkId : Nat) : Except Halt Kmem :=
  let mk := k.getMark order (blkId >>> 5)
  if available mk.bitmap blkId then .error (.panic "double free\n")
  else
    let k' := k.setMark order (blkId >>> 5) { mk with bitmap := mk.bitmap ||| bit blkId }
    if mk.bitmap = 0#32 then .ok (k'.link order (blkId >>> 5)) else .ok k'

/-- The loop of `get_blk` that looks for the lowest set bit. -/
def lowestBit (bitmap : BitVec 32) : (remaining i : Nat) → Option Nat
  | 0, _ => none
  | remaining + 1, i =>
    if available bitmap i then some i else lowestBit bitmap remaining (i + 1)

/-- `get_blk`. A null pointer is `0`. -/
def getBlk (k : Kmem) (order : Nat) : Except Halt (Nat × Kmem) :=
  let head := (k.ord order).head
  let mk := k.getMark order head
  if mk.bitmap = 0#32 then .error (.panic "empty mark in the list\n")
  else
    match lowestBit mk.bitmap 32 0 with
    | none => .ok (0, k)
    | some i => do
      let k ← k.unmarkBlk order (head * 32 + i)
      .ok (k.blkid2mem order (head * 32 + i), k)

/-! ## Merging and splitting -/

/-- `__internal_kfree`, with a bound on its recursion. -/
def internalKfree : (fuel : Nat) → Kmem → (mem order : Nat) → Except Halt Kmem
  | 0, _, _, _ => .error .depth
  | fuel + 1, k, mem, order =>
    let blkId := k.mem2blkid order mem
    let mk := k.getMark order (blkId >>> 5)
    if available mk.bitmap blkId then .error (.panic "kmfree: double free")
    else
      let buddyId := blkId ^^^ 1
      if ¬ available mk.bitmap buddyId ∨ order = maxOrd then k.markBlk order blkId
      else do
        let k ← k.unmarkBlk order buddyId
        internalKfree fuel k (k.blkid2mem order (blkId - blkId % 2)) (order + 1)

/-- `__internal_kmalloc`, with a bound on its recursion. -/
def internalKmalloc : (fuel : Nat) → Kmem → (order : Nat) → Except Halt (Nat × Kmem)
  | 0, _, _ => .error .depth
  | fuel + 1, k, order =>
    if ¬ k.initialized then
      .error (.panic "__internal_kmalloc:buddy-malloc before buddy init.")
    else if (k.ord order).head ≠ nil then k.getBlk order
    else if order < maxOrd then do
      let (up, k) ← internalKmalloc fuel k (order + 1)
      if up ≠ 0 then
        let k ← internalKfree nOrd k (addU up (2 ^ order)) order
        .ok (up, k)
      else .ok (up, k)
    else .ok (0, k)

def buddyKmalloc (k : Kmem) (order : Nat) : Except Halt (Nat × Kmem) :=
  if order > maxOrd ∨ order < minOrd then .error (.panic "kmalloc: order out of range\n")
  else internalKmalloc nOrd k order

def buddyKmfree (k : Kmem) (mem order : Nat) : Except Halt Kmem :=
  if order > maxOrd ∨ order < minOrd ∨ mem % 2 ^ order ≠ 0 then
    .error (.panic "kmfree: order out of range or memory unaligned\n")
  else internalKfree nOrd k mem order

/-! ## Initialisation -/

/-- The inner loop of `buddy_init`, which empties the first `n` marks. -/
def clearMarks (k : Kmem) (order : Nat) : (n : Nat) → Kmem
  | 0 => k
  | n + 1 => (k.clearMarks order n).setMark order n ⟨lnks nil nil, 0#32⟩

/-- `ord->offset = total; ord->head = NIL`. -/
def placeOrder (k : Kmem) (i total : Nat) : Kmem :=
  { k with orders := Function.update k.orders i ⟨nil, total⟩ }

/-- The outer loop of `buddy_init` for `i` downwards; returns the final `total`. -/
def initOrders : (i : Nat) → Kmem → (n total : Nat) → Kmem × Nat
  | 0, k, _, total => (k, total)
  | i + 1, k, n, total =>
    initOrders i ((k.placeOrder i total).clearMarks (i + minOrd) n) (addU n n) (addU total n)

/-- The last loop of `buddy_init`, with a bound on its length. -/
def freePages : (fuel : Nat) → Kmem → (i : Nat) → Except Halt Kmem
  | 0, _, _ => .error .depth
  | fuel + 1, k, i =>
    if i < k.end_ then do
      let k ← k.buddyKmfree i maxOrd
      freePages fuel k (addU i (2 ^ maxOrd))
    else .ok k

def maxPages : Nat := 2 ^ 20

/-- `buddy_init`, over whatever `marks` the memory held before. The last loop
is cut off after as many turns as there are pages. -/
def buddyInit (marks : Nat → Mark) (vstart vend : Nat) : Except Halt Kmem :=
  let len := (vend + 2 ^ 32 - vstart) % 2 ^ 32
  let n := addU (len >>> (maxOrd + 5)) 1
  let zero : Kmem := ⟨vstart, 0, vend, false, fun _ => ⟨0, 0⟩, marks⟩
  let (k, total) := initOrders nOrd zero n 0
  let startHeap := alignUp (addU k.start (total * 8)) (2 ^ maxOrd)
  (freePages maxPages { k with startHeap } startHeap).map fun k => { k with initialized := true }

end Kmem

end Rexv6.Buddy
