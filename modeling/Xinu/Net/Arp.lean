import Xinu.Net.State
import Xinu.Kernel.Interleaving

/-!
# Address resolution

Embedding of `net/arp.c`.  The machine at the end runs its two entry points together
with the calls of the kernel.
-/

namespace Xinu
namespace Net

open Foundations Function

def arpHalen : UInt8 := 6
def arpPalen : UInt8 := 4
def arpHtype : UInt16 := 1
def arpPtype : UInt16 := 0x0800
def arpOpReq : UInt16 := 1
def arpOpRply : UInt16 := 2
def arpSiz : Nat := 16
def arpRetry : Nat := 3
def arpTimeout : Int := 300

/-- Convert ARP packet fields from net to host byte order. -/
def arpNtoh (pkt : Arppacket) : Arppacket :=
  { pkt with
    htype := ntohs pkt.htype
    ptype := ntohs pkt.ptype
    op := ntohs pkt.op
    sndpa := ntohl pkt.sndpa
    tarpa := ntohl pkt.tarpa }

/-- Convert ARP packet fields from host to net byte order. -/
def arpHton (pkt : Arppacket) : Arppacket :=
  { pkt with
    htype := htons pkt.htype
    ptype := htons pkt.ptype
    op := htons pkt.op
    sndpa := htonl pkt.sndpa
    tarpa := htonl pkt.tarpa }

/-- Change the cache entry in slot `i`. -/
def setArp (i : Nat) (f : Arpentry → Arpentry) : NetM Unit :=
  modify fun t => { t with arpcache := update t.arpcache i (f (t.arpcache i)) }

/-- The first slot in use that holds the address. -/
def arpFind (cache : Nat → Arpentry) (addr : UInt32) : Option Nat :=
  (List.range arpSiz).find? fun i =>
    decide ((cache i).arstate ≠ .arFree ∧ (cache i).arpaddr = addr)

/-- The first slot in the given state. -/
def arpSearch (cache : Nat → Arpentry) (st : ArState) : Option Nat :=
  (List.range arpSiz).find? fun i => decide ((cache i).arstate = st)

/-- An entry of zeros. -/
def arpClear : Arpentry :=
  ⟨.arFree, 0, 0, fun _ => 0⟩

/-- Find a free slot or kick out an entry to create one; `none` is `SYSERR`. -/
def arpAlloc : NetM (Option Nat) := do
  let cache := (← get).arpcache
  match arpSearch cache .arFree with
  | some slot =>
      setArp slot fun _ => arpClear
      return some slot
  | none =>
      match arpSearch cache .arResolved with
      | some slot =>
          setArp slot fun _ => arpClear
          return some slot
      | none => return none

/-- The request that is broadcast to find an address. -/
def arpRequest (nd : NetData) (nxthop : UInt32) : Arppacket :=
  arpHton
    { ethdst := nd.ethbcast
      ethsrc := nd.ethucast
      ethtype := htons ethArp
      htype := arpHtype
      ptype := arpPtype
      hlen := arpHalen
      plen := arpPalen
      op := arpOpReq
      sndha := nd.ethucast
      sndpa := nd.ipucast
      tarha := fun _ => 0
      tarpa := nxthop }

/-- The loop of `arp_resolve`: send the packet `n` times and await response. -/
def arpAwait (apkt : Arppacket) : Nat → Int → NetM Int
  | 0, msg => return msg
  | n + 1, _ => do
      let _ ← ethwrite (.arp apkt) 42
      let msg := i32 (← onKernel (recvtime arpTimeout))
      if msg = timeout then arpAwait apkt n msg else return msg

/-- The end of `arp_resolve`, which has received `msg`. -/
def arpAnswer (slot : Nat) (mask : Bool) (msg : Int) : NetM (Int × Option Mac) := do
  if msg = syserr then
    restore mask
    return (syserr, none)
  -- if no response, return TIMEOUT
  if msg = timeout then
    setArp slot fun e => { e with arstate := .arFree }
    restore mask
    return (timeout, none)
  -- return hardware address
  let mac := ((← get).arpcache slot).arhaddr
  restore mask
  return (ok, some mac)

/-- Ask for the address, once there is an entry for it in slot `slot`. -/
def arpAsk (nxthop : UInt32) (slot : Nat) (mask : Bool) : NetM (Int × Option Mac) := do
  let apkt := arpRequest (← get).netData nxthop
  let msg ← onKernel recvclr
  let msg ← arpAwait apkt arpRetry (i32 msg)
  arpAnswer slot mask msg

/-- The entry of an address that the process `pid` asks for. -/
def pendingEntry (nxthop : UInt32) (pid : Int) (e : Arpentry) : Arpentry :=
  { e with arstate := .arPending, arpaddr := nxthop, arpid := pid }

/-- Use ARP to resolve an IP address to an Ethernet address.  The second component is
what is stored in the caller's array. -/
def arpResolve (nxthop : UInt32) : NetM (Int × Option Mac) := do
  let nd := (← get).netData
  if nxthop = ipBcast then
    return (ok, some nd.ethbcast)
  if nxthop = nd.ipbcast then
    return (ok, some nd.ethbcast)
  let mask ← disable
  let cache := (← get).arpcache
  match arpFind cache nxthop with
  | some i =>
      if (cache i).arstate = .arResolved then
        restore mask
        return (ok, some (cache i).arhaddr)
      else
        -- only one process can be waiting at a time
        restore mask
        return (syserr, none)
  | none =>
      match ← arpAlloc with
      | none =>
          restore mask
          return (syserr, none)
      | some slot =>
          let me := (kernelOf (← get)).currpid
          setArp slot (pendingEntry nxthop me)
          arpAsk nxthop slot mask

/-- The reply to a request. -/
def arpReply (nd : NetData) (pkt : Arppacket) : Arppacket :=
  arpHton
    { ethdst := pkt.sndha
      ethsrc := nd.ethucast
      ethtype := htons ethArp
      htype := arpHtype
      ptype := arpPtype
      hlen := arpHalen
      plen := arpPalen
      op := arpOpRply
      sndha := nd.ethucast
      sndpa := nd.ipucast
      tarha := pkt.sndha
      tarpa := pkt.sndpa }

/-- Update the sender's hardware address and inform a process that waits for it. -/
def arpUpdate (slot : Nat) (pkt : Arppacket) : NetM Unit := do
  setArp slot fun e => { e with arhaddr := pkt.sndha }
  let e := (← get).arpcache slot
  if e.arstate = .arPending then
    setArp slot fun e => { e with arstate := .arResolved }
    let _ ← onKernel (send e.arpid ok)

/-- Send a reply back to the requester. -/
def arpAcknowledge (pkt : Arppacket) (buf : Nat) (mask : Bool) : NetM Unit := do
  let _ ← ethwrite (.arp (arpReply (← get).netData pkt)) 42
  let _ ← freebuf buf
  restore mask

/-- What `arp_in` does once the sender's address has been looked up. -/
def arpServe (pkt : Arppacket) (buf : Nat) (mask found : Bool) : NetM Unit := do
  -- for an ARP reply, processing is complete
  if pkt.op = arpOpRply then
    let _ ← freebuf buf
    restore mask
  else
    let nd := (← get).netData
    if nd.ipvalid = false ∨ pkt.tarpa ≠ nd.ipucast then
      let _ ← freebuf buf
      restore mask
    else if found then
      arpAcknowledge pkt buf mask
    else
      -- add sender's info to cache, if not already present
      match ← arpAlloc with
      | none =>
          let _ ← freebuf buf
          restore mask
      | some slot =>
          setArp slot fun e =>
            { e with arpaddr := pkt.sndpa, arhaddr := pkt.sndha, arstate := .arResolved }
          arpAcknowledge pkt buf mask

/-- Handle an incoming ARP packet, which is in the buffer at address `buf`. -/
def arpIn (pkt : Arppacket) (buf : Nat) : NetM Unit := do
  let pkt := arpNtoh pkt
  if pkt.htype ≠ arpHtype ∨ pkt.ptype ≠ arpPtype then
    let _ ← freebuf buf
  else
    let mask ← disable
    match arpFind (← get).arpcache pkt.sndpa with
    | some slot =>
        arpUpdate slot pkt
        arpServe pkt buf mask true
    | none => arpServe pkt buf mask false

/-! ## The machine -/

/-- The calls of the kernel and of ARP. -/
inductive ArpCall where
  | kernel (c : KCall)
  | arpResolve (nxthop : UInt32)
  | arpIn (pkt : Arppacket) (buf : Nat)
deriving DecidableEq

def ArpCall.exec : ArpCall → NetM Int
  | kernel c => onKernel c.exec
  | arpResolve nxthop => do
      let (r, mac) ← Net.arpResolve nxthop
      if let some mac := mac then
        setVars fun v => { v with mac := mac }
      return r
  | arpIn pkt buf => do
      Net.arpIn pkt buf
      return ok

/-- The processor, as the kernel and ARP share it. -/
def arpMachine : Machine State ArpCall where
  current := fun t => (kernelOf t).currpid
  fresh := fun t p => decide (Fresh (kernelOf t) p)
  exec := ArpCall.exec

end Net
end Xinu
