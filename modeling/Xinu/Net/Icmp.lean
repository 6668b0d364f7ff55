import Xinu.Net.Ip

/-!
# ICMP endpoints

Embedding of `icmp_register`, `icmp_recv` and `icmp_release` of `net/icmp.c`; `icmp_in`
is with the other input procedures.  The machine at the end runs them together with the
calls of the kernel.
-/

namespace Xinu
namespace Net

open Foundations Function

/-- The loop of `icmp_register` over the slots in a list: the free slot to use, or `none`
if the address is already registered. -/
def icmpScan (tab : Nat → Icmpentry) (remip : UInt32) : List Nat → Int → Option Int
  | [], freeslot => some freeslot
  | i :: slots, freeslot =>
      if (tab i).icstate = .icmpFree then
        icmpScan tab remip slots (if freeslot = -1 then i else freeslot)
      else if (tab i).icremip = remip then
        none
      else
        icmpScan tab remip slots freeslot

/-- The entry of an endpoint that was just registered. -/
def icmpOpened (remip : UInt32) (e : Icmpentry) : Icmpentry :=
  { e with
    icstate := .icmpUsed
    icremip := remip
    iccount := 0
    ichead := 0
    ictail := 0
    icpid := -1 }

/-- Register a remote IP address for ping replies. -/
def icmpRegister (remip : UInt32) : NetM Int := do
  let mask ← disable
  -- find a free slot in the table
  match icmpScan (← get).icmptab remip (List.range icmpSlots.toNat) (-1) with
  | none =>
      restore mask
      return syserr
  | some freeslot =>
      if freeslot = -1 then
        restore mask
        return syserr
      else
        setIcmp freeslot.toNat (icmpOpened remip)
        restore mask
        return freeslot

/-- Remove the first packet from the queue of an ICMP endpoint.  The head wraps at
`ICMP_SLOTS`. -/
def icmpPop (e : Icmpentry) : Icmpentry :=
  { e with
    ichead := Ring.next icmpSlots e.ichead
    iccount := e.iccount - 1 }

/-- The number of bytes that a receive copies from a packet into a buffer of `len`
bytes. -/
def icmpCopied (len : Int) (pkt : Netpacket) : Nat :=
  (min ((pkt.iplen.toNat : Int) - ipHdrLen - icmpHdrLen) len).toNat

/-- These bytes. -/
def icmpBytes (len : Int) (pkt : Netpacket) : List UInt8 :=
  (List.range (icmpCopied len pkt)).map pkt.icdata

/-- The end of a receive: dequeue a packet and copy its data. -/
def icmpTake (slot : Nat) (len : Int) (mask : Bool) : NetM Int := do
  let e := (← get).icmptab slot
  let pkt := e.icqueue e.ichead
  setIcmp slot icmpPop
  let p := (← get).packets pkt
  setVars fun v => { v with buff := icmpBytes len p }
  let _ ← freebuf pkt
  restore mask
  return icmpCopied len p

/-- The middle of a receive, once a message has ended its wait. -/
def icmpWoken (slot : Nat) (len : Int) (mask : Bool) (msg : Int) : NetM Int := do
  setIcmp slot fun e => { e with icstate := .icmpUsed }
  if msg = timeout then
    restore mask
    return timeout
  else if msg ≠ ok then
    restore mask
    return syserr
  else
    icmpTake slot len mask

/-- Receive an ICMP echo reply packet. -/
def icmpRecv (icmpid len : Int) (maxwait : Nat) : NetM Int := do
  -- verify that the ID is valid
  if icmpid < 0 ∨ icmpid ≥ icmpSlots then
    return syserr
  else
    let mask ← disable
    -- verify that the ID has been registered and is idle
    let e := (← get).icmptab icmpid.toNat
    if e.icstate ≠ .icmpUsed then
      restore mask
      return syserr
    else if e.iccount = 0 then
      -- no packet is waiting
      let me := (kernelOf (← get)).currpid
      setIcmp icmpid.toNat fun e => { e with icstate := .icmpRecv, icpid := me }
      let _ ← onKernel recvclr
      let msg ← onKernel (recvtime (i32 maxwait))
      icmpWoken icmpid.toNat len mask (i32 msg)
    else
      icmpTake icmpid.toNat len mask

/-- The loop of `icmp_release`, of `n` turns at most. -/
def icmpDrain (slot : Nat) : Nat → NetM Unit
  | 0 => do
      if ((← get).icmptab slot).iccount > 0 then
        Coop.diverge
  | n + 1 => do
      let e := (← get).icmptab slot
      if e.iccount > 0 then
        setIcmp slot fun e => { e with ichead := Ring.next icmpSlots e.ichead }
        let _ ← freebuf (e.icqueue e.ichead)
        setIcmp slot fun e => { e with iccount := e.iccount - 1 }
        icmpDrain slot n

/-- Release a previously-registered ICMP slot. -/
def icmpRelease (icmpid : Int) : NetM Int := do
  let mask ← disable
  -- check arg and insure entry in table is in use
  if icmpid < 0 ∨ icmpid ≥ icmpSlots then
    restore mask
    return syserr
  else
    let e := (← get).icmptab icmpid.toNat
    if e.icstate ≠ .icmpUsed then
      restore mask
      return syserr
    else
      -- remove each packet from the queue and free the buffer
      let _ ← onKernel (reschedCntl deferStart)
      icmpDrain icmpid.toNat e.iccount.toNat
      -- mark the entry free
      setIcmp icmpid.toNat fun e => { e with icstate := .icmpFree }
      let _ ← onKernel (reschedCntl deferStop)
      restore mask
      return ok

/-! ## The machine -/

/-- The calls of the kernel and of ICMP.  The network input process puts a packet in a
buffer before it calls `icmp_in`. -/
inductive IcmpCall where
  | kernel (c : KCall)
  | icmpRegister (remip : UInt32)
  | icmpIn (pkt : Netpacket) (buf : Nat)
  | icmpRecv (icmpid len : Int32) (timeout : UInt32)
  | icmpRelease (icmpid : Int32)

def IcmpCall.exec : IcmpCall → NetM Int
  | kernel c => onKernel c.exec
  | icmpRegister remip => Net.icmpRegister remip
  | icmpIn pkt buf => do
      setPacket buf fun _ => pkt
      Net.icmpIn buf
      return ok
  | icmpRecv icmpid len timeout => Net.icmpRecv icmpid.toInt len.toInt timeout.toNat
  | icmpRelease icmpid => Net.icmpRelease icmpid.toInt

/-- The processor, as the kernel and ICMP share it. -/
def icmpMachine : Machine State IcmpCall where
  current := fun t => (kernelOf t).currpid
  fresh := fun t p => decide (Fresh (kernelOf t) p)
  exec := IcmpCall.exec

end Net
end Xinu
