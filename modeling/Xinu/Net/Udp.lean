import Xinu.Net.State
import Xinu.Kernel.Interleaving
import Xinu.Foundations.RingBuffer

/-!
# UDP endpoints

Embedding of `udp_in`, `udp_register`, `udp_recv`, `udp_recvaddr` and `udp_release` of
`net/udp.c`.  The machine at the end runs them together with the calls of the kernel.
-/

namespace Xinu
namespace Net

open Foundations Function

/-- Change the entry of an endpoint. -/
def setUdp (i : Nat) (f : Udpentry → Udpentry) : NetM Unit :=
  modify fun t => { t with udptab := update t.udptab i (f (t.udptab i)) }

/-- Append a packet to the queue of an endpoint. -/
def udpPush (buf : Nat) (e : Udpentry) : Udpentry :=
  { e with
    udcount := e.udcount + 1
    udqueue := update e.udqueue e.udtail buf
    udtail := Ring.next udpQsiz e.udtail }

/-- Remove the first packet from the queue of an endpoint. -/
def udpPop (e : Udpentry) : Udpentry :=
  { e with
    udhead := Ring.next udpQsiz e.udhead
    udcount := e.udcount - 1 }

/-- The entry is in use, and matches the packet. -/
def udpMatches (pkt : Netpacket) (e : Udpentry) : Prop :=
  e.udstate ≠ .udpFree ∧ pkt.udpdport = e.udlocport ∧
    (e.udremport = 0 ∨ pkt.udpsport = e.udremport) ∧ (e.udremip = 0 ∨ pkt.ipsrc = e.udremip)

instance (pkt : Netpacket) (e : Udpentry) : Decidable (udpMatches pkt e) :=
  inferInstanceAs (Decidable (_ ∧ _ ∧ _ ∧ _))

/-- The first endpoint that matches the packet and has room for it. -/
def udpFind (tab : Nat → Udpentry) (pkt : Netpacket) : Option Nat :=
  (List.range udpSlots).find? fun i =>
    decide (udpMatches pkt (tab i) ∧ (tab i).udcount < udpQsiz)

/-- Handle an incoming UDP packet, which is in the buffer at address `buf`. -/
def udpIn (buf : Nat) : NetM Unit := do
  let mask ← disable
  let t ← get
  match udpFind t.udptab (t.packets buf) with
  | some i =>
      setUdp i (udpPush buf)
      let e := (← get).udptab i
      if e.udstate = .udpRecv then
        setUdp i fun e => { e with udstate := .udpUsed }
        let _ ← onKernel (send e.udpid ok)
      restore mask
  | none =>
      -- no match - simply discard packet
      let _ ← freebuf buf
      restore mask

/-- The entry of an endpoint that was just registered. -/
def udpOpened (remip : UInt32) (remport locport : UInt16) (e : Udpentry) : Udpentry :=
  { e with
    udlocport := locport
    udremport := remport
    udremip := remip
    udcount := 0
    udhead := 0
    udtail := 0
    udpid := -1
    udstate := .udpUsed }

/-- The request is already in the table. -/
def udpRegistered (tab : Nat → Udpentry) (remip : UInt32) (remport locport : UInt16) : Bool :=
  (List.range udpSlots).any fun i => decide ((tab i).udstate ≠ .udpFree ∧
    remport = (tab i).udremport ∧ locport = (tab i).udlocport ∧ remip = (tab i).udremip)

/-- The first free slot. -/
def udpVacant (tab : Nat → Udpentry) : Option Nat :=
  (List.range udpSlots).find? fun i => decide ((tab i).udstate = .udpFree)

/-- Register a remote IP, remote port & local port to receive incoming UDP messages. -/
def udpRegister (remip : UInt32) (remport locport : UInt16) : NetM Int := do
  let mask ← disable
  let tab := (← get).udptab
  -- see if request already registered
  if udpRegistered tab remip remport locport then
    restore mask
    return syserr
  -- find a free slot and allocate it
  match udpVacant tab with
  | some slot =>
      setUdp slot (udpOpened remip remport locport)
      restore mask
      return slot
  | none =>
      restore mask
      return syserr

/-- The end of a receive: dequeue a packet, note what the caller wants to know of it,
and copy its data. -/
def udpTake (note : Netpacket → Vars → Vars) (slot : Nat) (len : Int) (mask : Bool) :
    NetM Int := do
  let e := (← get).udptab slot
  let pkt := e.udqueue e.udhead
  setUdp slot udpPop
  let p := (← get).packets pkt
  let msglen := (p.udplen.toNat : Int) - udpHdrLen
  let msglen := if len < msglen then len else msglen
  setVars fun v => { note p v with buff := (List.range msglen.toNat).map p.udpdata }
  let _ ← freebuf pkt
  restore mask
  return msglen

/-- The middle of a receive, once a message has ended its wait. -/
def udpWoken (note : Netpacket → Vars → Vars) (slot : Nat) (len : Int) (mask : Bool)
    (msg : Int) : NetM Int := do
  setUdp slot fun e => { e with udstate := .udpUsed }
  if msg = timeout then
    restore mask
    return timeout
  else if msg ≠ ok then
    restore mask
    return syserr
  else
    udpTake note slot len mask

/-- `udp_recv` and `udp_recvaddr` differ in what they note of the packet. -/
def udpReceive (note : Netpacket → Vars → Vars) (slot len : Int) (maxwait : Nat) : NetM Int := do
  let mask ← disable
  -- verify that the slot is valid
  if slot < 0 ∨ slot ≥ udpSlots then
    restore mask
    return syserr
  -- verify that the slot has been registered and is valid
  let e := (← get).udptab slot.toNat
  if e.udstate ≠ .udpUsed then
    restore mask
    return syserr
  -- wait for a packet to arrive
  if e.udcount = 0 then
    let me := (kernelOf (← get)).currpid
    setUdp slot.toNat fun e => { e with udstate := .udpRecv, udpid := me }
    let _ ← onKernel recvclr
    let msg ← onKernel (recvtime (i32 maxwait))
    udpWoken note slot.toNat len mask (i32 msg)
  else
    udpTake note slot.toNat len mask

/-- Receive a UDP packet. -/
def udpRecv (slot len : Int) (maxwait : Nat) : NetM Int :=
  udpReceive (fun _ v => v) slot len maxwait

/-- Receive a UDP packet and record the sender's address. -/
def udpRecvaddr (slot len : Int) (maxwait : Nat) : NetM Int :=
  udpReceive (fun p v => { v with remip := p.ipsrc, remport := p.udpsport }) slot len maxwait

/-- The loop of `udp_release`, of `n` turns at most. -/
def udpDrain (slot : Nat) : Nat → NetM Unit
  | 0 => do
      if ((← get).udptab slot).udcount > 0 then
        Coop.diverge
  | n + 1 => do
      let e := (← get).udptab slot
      if e.udcount > 0 then
        setUdp slot fun e => { e with udhead := Ring.next udpQsiz e.udhead }
        let _ ← freebuf (e.udqueue e.udhead)
        setUdp slot fun e => { e with udcount := e.udcount - 1 }
        udpDrain slot n

/-- Release a previously-registered UDP slot. -/
def udpRelease (slot : Int) : NetM Int := do
  let mask ← disable
  if slot < 0 ∨ slot ≥ udpSlots then
    restore mask
    return syserr
  let e := (← get).udptab slot.toNat
  if e.udstate = .udpFree then
    restore mask
    return syserr
  -- defer rescheduling to prevent freebuf from switching context
  let _ ← onKernel (reschedCntl deferStart)
  udpDrain slot.toNat e.udcount.toNat
  setUdp slot.toNat fun e => { e with udstate := .udpFree }
  let _ ← onKernel (reschedCntl deferStop)
  restore mask
  return ok

/-! ## The machine -/

/-- The calls of the kernel and of UDP.  The network input process puts a packet in a
buffer before it calls `udp_in`. -/
inductive UdpCall where
  | kernel (c : KCall)
  | udpRegister (remip : UInt32) (remport locport : UInt16)
  | udpIn (pkt : Netpacket) (buf : Nat)
  | udpRecv (slot len : Int32) (timeout : UInt32)
  | udpRecvaddr (slot len : Int32) (timeout : UInt32)
  | udpRelease (slot : Int32)

def UdpCall.exec : UdpCall → NetM Int
  | kernel c => onKernel c.exec
  | udpRegister remip remport locport => Net.udpRegister remip remport locport
  | udpIn pkt buf => do
      setPacket buf fun _ => pkt
      Net.udpIn buf
      return ok
  | udpRecv slot len timeout => Net.udpRecv slot.toInt len.toInt timeout.toNat
  | udpRecvaddr slot len timeout => Net.udpRecvaddr slot.toInt len.toInt timeout.toNat
  | udpRelease slot => Net.udpRelease slot.toInt

/-- The processor, as the kernel and UDP share it. -/
def udpMachine : Machine State UdpCall where
  current := fun t => (kernelOf t).currpid
  fresh := fun t p => decide (Fresh (kernelOf t) p)
  exec := UdpCall.exec

end Net
end Xinu
