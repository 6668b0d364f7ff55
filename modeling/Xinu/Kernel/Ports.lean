import Xinu.Kernel.Interrupts
import Xinu.Kernel.Semaphore

/-!
# Ports

Embedding of `system/ptcreate.c` and of the port table of `include/ports.h`.
-/

namespace Xinu

open Foundations Function

/-- States of a port. -/
inductive PtState where
  | ptFree
  | ptLimbo
  | ptAlloc
deriving DecidableEq, Repr

/-- Entry in the port table. -/
structure Ptentry where
  ptssem : Int
  ptrsem : Int
  ptstate : PtState
  ptmaxcnt : UInt16
  ptseq : Int
  pthead : Nat
  pttail : Nat

/-- The port table, and the next port to try. -/
structure Ports where
  porttab : Int → Ptentry
  ptnextid : Int

/-- States of which the ports are a part. -/
class HasPorts (τ : Type) where
  ports : τ → Ports
  setPorts : τ → Ports → τ

def nports : Int := 30

section

variable {τ : Type} [HasCpu τ] [HasPorts τ]

def onPorts (f : Ports → Ports) : Coop τ Unit :=
  modify fun t => HasPorts.setPorts t (f (HasPorts.ports t))

/-- Change the entry of a port. -/
def setPtentry (portid : Int) (f : Ptentry → Ptentry) : Coop τ Unit :=
  onPorts fun s => { s with porttab := update s.porttab portid (f (s.porttab portid)) }

/-- The loop of `ptcreate`, with `i` entries left to try. -/
def ptcreateLoop (count : Int) : Nat → Coop τ Int
  | 0 => return syserr
  | i + 1 => do
      let ptnum := (HasPorts.ports (← get)).ptnextid
      onPorts fun s => { s with ptnextid := s.ptnextid + 1 }
      if (HasPorts.ports (← get)).ptnextid ≥ nports then
        onPorts fun s => { s with ptnextid := 0 }
      -- check table entry that corresponds to ID ptnum
      if ((HasPorts.ports (← get)).porttab ptnum).ptstate = .ptFree then
        setPtentry ptnum fun e => { e with ptstate := .ptAlloc }
        let ssem ← onKernel (semcreate count)
        setPtentry ptnum fun e => { e with ptssem := ssem }
        let rsem ← onKernel (semcreate 0)
        setPtentry ptnum fun e => { e with ptrsem := rsem }
        setPtentry ptnum fun e => { e with pthead := Memory.null, pttail := Memory.null }
        setPtentry ptnum fun e => { e with ptseq := i32 (e.ptseq + 1) }
        setPtentry ptnum fun e => { e with ptmaxcnt := .ofNat count.toNat }
        return ptnum
      else
        ptcreateLoop count i

/-- Create a port that allows `count` outstanding messages. -/
def ptcreate (count : Int) : Coop τ Int := do
  let mask ← disable
  if count < 0 then
    restore mask
    return syserr
  let ptnum ← ptcreateLoop count nports.toNat
  restore mask
  return ptnum

end

end Xinu
