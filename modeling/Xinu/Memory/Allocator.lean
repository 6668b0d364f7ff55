import Xinu.Foundations.CooperativeFlow

/-!
# The heap allocator

Embedding of `system/getmem.c`, `system/getstk.c`, `system/freemem.c` and of
the macros of `include/memory.h`.  The free list is the one the code builds: a
block at address `a` holds its own `mnext` and `mlength`, and the list starts
at the static block `memlist`.  Addresses and sizes are 32-bit words.
-/

namespace Xinu
namespace Memory

open Foundations Function

/-- Reduction to a 32-bit word. -/
def u32 (x : Nat) : Nat :=
  x % 0x100000000

/-- The null pointer. -/
def null : Nat := 0

/-- A `struct memblk *`: the static list head or a block of the heap. -/
inductive Blk where
  | memlist
  | heap (a : Nat)
deriving DecidableEq, Repr

structure Memblk where
  mnext : Nat
  mlength : Nat
deriving DecidableEq, Repr

/-- The free list, with the bounds of the heap. -/
structure Heap where
  blk : Blk → Memblk
  minheap : Nat
  maxheap : Nat
  /-- The address of the static block `memlist`, which is outside the heap. -/
  memlistAddr : Nat

abbrev HeapM := Coop Heap

namespace Heap

def setMnext (m : Heap) (p : Blk) (a : Nat) : Heap :=
  { m with blk := update m.blk p { m.blk p with mnext := a } }

def setMlength (m : Heap) (p : Blk) (n : Nat) : Heap :=
  { m with blk := update m.blk p { m.blk p with mlength := n } }

def mnext (m : Heap) (p : Blk) : Nat :=
  (m.blk p).mnext

def mlength (m : Heap) (p : Blk) : Nat :=
  (m.blk p).mlength

/-- The address of a block as an integer. -/
def addr (m : Heap) : Blk → Nat
  | .memlist => m.memlistAddr
  | .heap a => a

/-- `memlist.mlength -= nbytes` -/
def takeTotal (m : Heap) (nbytes : Nat) : Heap :=
  m.setMlength .memlist (u32 (m.mlength .memlist + 0x100000000 - nbytes))

/-- `memlist.mlength += nbytes` -/
def giveTotal (m : Heap) (nbytes : Nat) : Heap :=
  m.setMlength .memlist (u32 (m.mlength .memlist + nbytes))

end Heap

/-- Round a size up to a multiple of the size of a `memblk`. -/
def roundmb (x : Nat) : Nat :=
  u32 (7 + x) / 8 * 8

/-- Truncate an address to a multiple of the size of a `memblk`. -/
def truncmb (x : Nat) : Nat :=
  u32 x / 8 * 8

/-- More nodes than a free list of a 32-bit machine has. -/
def listFuel : Nat := 0x100000000

/-! ## getmem -/

/-- The loop of `getmem`: first fit. -/
def getmemLoop (nbytes : Nat) : Nat → Blk → Nat → HeapM (Option Nat)
  | 0, _, _ => Coop.diverge
  | fuel + 1, prev, curr => do
      if curr = null then
        return none
      let m ← get
      if m.mlength (.heap curr) = nbytes then
        modify (·.setMnext prev (m.mnext (.heap curr)))
        modify (·.takeTotal nbytes)
        return some curr
      else if m.mlength (.heap curr) > nbytes then
        let leftover := u32 (curr + nbytes)
        modify (·.setMnext prev leftover)
        modify fun m => m.setMnext (.heap leftover) (m.mnext (.heap curr))
        modify fun m => m.setMlength (.heap leftover) (m.mlength (.heap curr) - nbytes)
        modify (·.takeTotal nbytes)
        return some curr
      else
        getmemLoop nbytes fuel (.heap curr) (m.mnext (.heap curr))

/-- Allocate heap storage, returning the lowest address; `none` is `SYSERR`. -/
def getmem (nbytes : Nat) : HeapM (Option Nat) := do
  if nbytes = 0 then
    return none
  let m ← get
  getmemLoop (roundmb nbytes) listFuel .memlist (m.mnext .memlist)

/-! ## getstk -/

/-- The loop of `getstk`: remember the last block that fits, and its predecessor. -/
def getstkLoop (nbytes : Nat) :
    Nat → Blk → Nat → Nat → Blk → HeapM (Nat × Blk)
  | 0, _, _, _, _ => Coop.diverge
  | fuel + 1, prev, curr, fits, fitsprev => do
      if curr = null then
        return (fits, fitsprev)
      let m ← get
      if m.mlength (.heap curr) ≥ nbytes then
        getstkLoop nbytes fuel (.heap curr) (m.mnext (.heap curr)) curr prev
      else
        getstkLoop nbytes fuel (.heap curr) (m.mnext (.heap curr)) fits fitsprev

/-- Allocate stack memory, returning the highest word address; `none` is `SYSERR`. -/
def getstk (nbytes : Nat) : HeapM (Option Nat) := do
  if nbytes = 0 then
    return none
  let nbytes := roundmb nbytes
  let m ← get
  let (fits, fitsprev) ← getstkLoop nbytes listFuel .memlist (m.mnext .memlist) null .memlist
  if fits = null then
    return none
  let m ← get
  if nbytes = m.mlength (.heap fits) then
    modify (·.setMnext fitsprev (m.mnext (.heap fits)))
    modify (·.takeTotal nbytes)
    return some (u32 (fits + nbytes + 0x100000000 - 4))
  else
    modify (·.setMlength (.heap fits) (m.mlength (.heap fits) - nbytes))
    let fits := u32 (fits + (m.mlength (.heap fits) - nbytes))
    modify (·.takeTotal nbytes)
    return some (u32 (fits + nbytes + 0x100000000 - 4))

/-! ## freemem -/

/-- The loop of `freemem`: the neighbours of `block` in the free list. -/
def freememLoop (block : Nat) : Nat → Blk → Nat → HeapM (Blk × Nat)
  | 0, _, _ => Coop.diverge
  | fuel + 1, prev, next => do
      if next ≠ null ∧ next < block then
        let m ← get
        freememLoop block fuel (.heap next) (m.mnext (.heap next))
      else
        return (prev, next)

/-- Free a memory block, returning the block to the free list; `false` is
`SYSERR` and `true` is `OK`. -/
def freemem (blkaddr nbytes : Nat) : HeapM Bool := do
  let m ← get
  if nbytes = 0 ∨ blkaddr < m.minheap ∨ blkaddr > m.maxheap then
    return false
  let nbytes := roundmb nbytes
  let (prev, next) ← freememLoop blkaddr listFuel .memlist (m.mnext .memlist)
  let m ← get
  -- top of the previous block
  let top := if prev = .memlist then null else u32 (m.addr prev + m.mlength prev)
  if (prev ≠ .memlist ∧ blkaddr < top) ∨ (next ≠ null ∧ u32 (blkaddr + nbytes) > next) then
    return false
  modify (·.giveTotal nbytes)
  -- coalesce with the previous block or link in as a new node
  let block : Blk := if top = blkaddr then prev else .heap blkaddr
  if top = blkaddr then
    modify fun m => m.setMlength prev (u32 (m.mlength prev + nbytes))
  else
    modify (·.setMnext block next)
    modify (·.setMlength block nbytes)
    modify (·.setMnext prev blkaddr)
  -- coalesce with the next block if adjacent
  let m ← get
  if u32 (m.addr block + m.mlength block) = next then
    modify (·.setMlength block (u32 (m.mlength block + m.mlength (.heap next))))
    modify (·.setMnext block (m.mnext (.heap next)))
  return true

/-- Free stack memory allocated by `getstk`. -/
def freestk (p len : Nat) : HeapM Bool :=
  freemem (u32 (p + 0x100000000 - roundmb len + 4)) (roundmb len)

/-! ## meminit -/

/-- The heap after `meminit`: one free block between the two bounds. -/
def meminit (minheap maxheap memlistAddr : Nat) (contents : Blk → Memblk) : Heap where
  blk := update (update contents .memlist { contents .memlist with mnext := minheap })
    (.heap minheap) ⟨null, maxheap - minheap⟩
  minheap := minheap
  maxheap := maxheap
  memlistAddr := memlistAddr

end Memory
end Xinu
