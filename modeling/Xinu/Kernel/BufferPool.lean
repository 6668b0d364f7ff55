import Xinu.Kernel.Interrupts
import Xinu.Kernel.Process
import Xinu.Kernel.Semaphore

/-!
# Buffer pools

Embedding of `system/mkbufpool.c`, `system/getbuf.c` and `system/freebuf.c`.  The
word in front of a buffer links the free buffers of a pool, and holds the
identifier of the pool while the buffer is in use.
-/

namespace Xinu

open Foundations Function

/-- Entry in the table of buffer pools. -/
structure Bpentry where
  bpnext : Nat
  bpsem : Int
  bpsize : Int

/-- The table of buffer pools, and the words of the memory that its pools take. -/
structure Pools where
  buftab : Int → Bpentry
  nbpools : Int
  /-- The word at each address. -/
  word : Nat → Int

/-- States of which the buffer pools are a part. -/
class HasPools (τ : Type) where
  pools : τ → Pools
  setPools : τ → Pools → τ

def nbpoolsMax : Int := 20
def bpMaxb : Int := 8192
def bpMinb : Int := 8
def bpMaxn : Int := 2048

/-- `sizeof(bpid32)` -/
def sizeofBpid : Nat := 4

section

variable {τ : Type} [HasCpu τ] [HasPools τ]

def onPools (f : Pools → Pools) : Coop τ Unit :=
  modify fun t => HasPools.setPools t (f (HasPools.pools t))

/-- Change the entry of a pool. -/
def setBpentry (poolid : Int) (f : Bpentry → Bpentry) : Coop τ Unit :=
  onPools fun s => { s with buftab := update s.buftab poolid (f (s.buftab poolid)) }

/-- Store a word. -/
def setWord (a : Nat) (v : Int) : Coop τ Unit :=
  onPools fun s => { s with word := update s.word a v }

/-- Get a buffer from a preestablished buffer pool. -/
def getbuf (poolid : Int) : Coop τ Int := do
  let mask ← disable
  if poolid < 0 ∨ poolid ≥ (HasPools.pools (← get)).nbpools then
    restore mask
    return syserr
  -- wait for pool to have > 0 buffers and allocate a buffer
  let _ ← onKernel (wait ((HasPools.pools (← get)).buftab poolid).bpsem)
  let s := HasPools.pools (← get)
  let bufptr := (s.buftab poolid).bpnext
  -- unlink buffer from pool
  setBpentry poolid fun e => { e with bpnext := (s.word bufptr).toNat }
  -- record pool ID in first four bytes of buffer and skip
  setWord bufptr poolid
  restore mask
  return (bufptr + sizeofBpid : Nat)

/-- Free a buffer that was allocated from a pool by `getbuf`. -/
def freebuf (bufaddr : Nat) : Coop τ Int := do
  let mask ← disable
  let bufaddr := bufaddr - sizeofBpid
  let s := HasPools.pools (← get)
  let poolid := s.word bufaddr
  if poolid < 0 ∨ poolid ≥ s.nbpools then
    restore mask
    return syserr
  -- insert buffer into list and signal semaphore
  setWord bufaddr (s.buftab poolid).bpnext
  setBpentry poolid fun e => { e with bpnext := bufaddr }
  let _ ← onKernel (signal (s.buftab poolid).bpsem)
  restore mask
  return ok

/-- The loop of `mkbufpool`: link `n` more buffers behind the one at `buf`. -/
def mkbufpoolLoop (bufsiz : Nat) : Nat → Nat → Coop τ Unit
  | 0, buf => setWord buf 0
  | n + 1, buf => do
      setWord buf (buf + bufsiz : Nat)
      mkbufpoolLoop bufsiz n (buf + bufsiz)

/-- Allocate memory for a buffer pool and link the buffers. -/
def mkbufpool (bufsiz numbufs : Int) : Coop τ Int := do
  let mask ← disable
  if bufsiz < bpMinb ∨ bufsiz > bpMaxb ∨ numbufs < 1 ∨ numbufs > bpMaxn ∨
      (HasPools.pools (← get)).nbpools ≥ nbpoolsMax then
    restore mask
    return syserr
  -- round request to a multiple of 4 bytes
  let bufsiz := (bufsiz + 3) / 4 * 4
  match ← onKernel (onHeap (Memory.getmem (numbufs * (bufsiz + sizeofBpid)).toNat)) with
  | none =>
      restore mask
      return syserr
  | some buf =>
      let poolid := (HasPools.pools (← get)).nbpools
      onPools fun s => { s with nbpools := s.nbpools + 1 }
      setBpentry poolid fun e => { e with bpnext := buf, bpsize := bufsiz }
      let sem ← onKernel (semcreate numbufs)
      setBpentry poolid fun e => { e with bpsem := sem }
      if sem = syserr then
        onPools fun s => { s with nbpools := s.nbpools - 1 }
        restore mask
        return syserr
      mkbufpoolLoop (bufsiz.toNat + sizeofBpid) (numbufs.toNat - 1) buf
      restore mask
      return poolid

end

end Xinu
