import Xinu.Net.Arp
import Xinu.Net.Packet
import Xinu.Net.Udp

/-!
# Sending and delivering IP packets

Embedding of `net/ip.c`, and of `icmp_in`, `icmp_mkpkt` and `icmp_send` of
`net/icmp.c`.  A procedure that is passed a packet is passed the address of its buffer.
-/

namespace Xinu
namespace Net

open Foundations Function

def icmpEchoreply : UInt8 := 0
def icmpEchoreqst : UInt8 := 8

/-! ## The output queue -/

/-- Deposit an outgoing IP datagram on the IP output queue. -/
def ipEnqueue (buf : Nat) : NetM Int := do
  -- ensure only one process accesses output queue at a time
  let mask ← disable
  let q := (← get).ipoqueue
  if (← semcount q.iqsem) ≥ ipOqsiz then
    let _ ← freebuf buf
    restore mask
    return syserr
  modify fun t =>
    { t with
      ipoqueue :=
        { q with iqbuf := update q.iqbuf q.iqtail buf, iqtail := Ring.next ipOqsiz q.iqtail } }
  let _ ← onKernel (signal q.iqsem)
  restore mask
  return ok

/-! ## ICMP -/

/-- The fields of an ICMP packet, filled in. -/
def icmpFill (nd : NetData) (ipident : UInt32) (remip : UInt32) (type ident seq : UInt16)
    (data : Nat → UInt8) (len : Int) (p : Netpacket) : Netpacket :=
  { p with
    ethsrc := nd.ethucast
    ethtype := 0x800
    ipvh := 0x45
    iptos := 0
    iplen := UInt16.ofInt (ipHdrLen + icmpHdrLen + len)
    ipid := ipident.toUInt16
    ipfrag := 0
    ipttl := 0xFF
    ipproto := ipIcmp
    ipcksum := 0
    ipsrc := nd.ipucast
    ipdst := remip
    ictype := type.toUInt8
    iccode := 0
    iccksum := 0
    icident := ident
    icseq := seq
    icdata := fun i => if i < len then data i else p.icdata i }

/-- Make an ICMP packet by filling in fields. -/
def icmpMkpkt (remip : UInt32) (type ident seq : UInt16) (data : Nat → UInt8) (len : Int) :
    NetM Nat := do
  let pkt ← getbuf (← get).netbufpool
  if pkt = syserr then
    -- panic
    Coop.halt
  else
    let t ← get
    setPacket pkt.toNat (icmpFill t.netData t.ident.2.2 remip type ident seq data len)
    modify fun t => { t with ident := (t.ident.1, t.ident.2.1, t.ident.2.2 + 1) }
    return pkt.toNat

/-- Change the entry of an ICMP endpoint. -/
def setIcmp (i : Nat) (f : Icmpentry → Icmpentry) : NetM Unit :=
  modify fun t => { t with icmptab := update t.icmptab i (f (t.icmptab i)) }

/-- Append a packet to the queue of an ICMP endpoint. -/
def icmpPush (buf : Nat) (e : Icmpentry) : Icmpentry :=
  { e with
    iccount := e.iccount + 1
    icqueue := update e.icqueue e.ictail buf
    ictail := Ring.next icmpQsiz e.ictail }

/-- Handle an incoming ICMP packet. -/
def icmpIn (buf : Nat) : NetM Unit := do
  let mask ← disable
  let t ← get
  let pkt := t.packets buf
  -- discard all ICMP messages except ping
  if pkt.ictype ≠ icmpEchoreply ∧ pkt.ictype ≠ icmpEchoreqst then
    let _ ← freebuf buf
    restore mask
  else if pkt.ictype = icmpEchoreqst then
    -- send echo reply message
    let replypkt ← icmpMkpkt pkt.ipsrc icmpEchoreply.toUInt16 pkt.icident pkt.icseq pkt.icdata
      ((pkt.iplen.toNat : Int) - ipHdrLen - icmpHdrLen)
    let _ ← ipEnqueue replypkt
    let _ ← freebuf buf
    restore mask
  else
    -- handle echo reply message: verify that ID is valid
    let slot := pkt.icident.toNat
    if (slot : Int) ≥ icmpSlots then
      let _ ← freebuf buf
      restore mask
    else
      let e := t.icmptab slot
      if e.icstate = .icmpFree ∨ pkt.ipsrc ≠ e.icremip then
        let _ ← freebuf buf
        restore mask
      else
        -- add packet to queue
        setIcmp slot (icmpPush buf)
        if e.icstate = .icmpRecv then
          setIcmp slot fun e => { e with icstate := .icmpUsed }
          let _ ← onKernel (send e.icpid ok)
        restore mask

/-! ## Delivery -/

/-- Deliver an IP datagram to the local stack. -/
def ipLocal (buf : Nat) : NetM Unit := do
  let pkt := (← get).packets buf
  if pkt.ipproto = ipUdp then
    udpIn buf
  else if pkt.ipproto = ipIcmp then
    icmpIn buf
  else
    let _ ← freebuf buf

/-- The checks of `ip_in` on a packet in host byte order. -/
def ipDeliver (buf : Nat) : NetM Unit := do
  let t ← get
  let pkt := t.packets buf
  -- deliver 255.255.255.255 to local stack
  if pkt.ipdst = ipBcast then
    ipLocal buf
  else if t.netData.ipvalid = false then
    -- accept UDP packets (to get DHCP replies) and drop others
    if pkt.ipproto = ipUdp then
      ipLocal buf
    else
      let _ ← freebuf buf
  else if pkt.ipdst = t.netData.ipucast ∨ pkt.ipdst = t.netData.ipbcast ∨ pkt.ipdst = ipBcast then
    ipLocal buf
  else
    let _ ← freebuf buf

/-- Handle an IP packet that has arrived over a network. -/
def ipIn (buf : Nat) : NetM Unit := do
  -- verify checksum
  if ipcksum ((← get).packets buf) ≠ 0 then
    let _ ← freebuf buf
  else
    setPacket buf ipNtoh
    let pkt := (← get).packets buf
    if pkt.ipvh ≠ 0x45 then
      let _ ← freebuf buf
    else if pkt.ipproto = ipUdp then
      setPacket buf udpNtoh
      ipDeliver buf
    else if pkt.ipproto = ipIcmp then
      if icmpCksum pkt ((pkt.iplen.toNat : Int) - ipHdrLen) ≠ 0 then
        let _ ← freebuf buf
      else
        setPacket buf icmpNtoh
        ipDeliver buf
    else
      ipDeliver buf

/-! ## Sending -/

/-- Transmit an outgoing IP datagram. -/
def ipOut (buf : Nat) : NetM Int := do
  let pktlen := (((← get).packets buf).iplen.toNat : Int) + ethHdrLen
  setPacket buf ipFinish
  let retval ← ethwrite (.ip ((← get).packets buf)) pktlen
  let _ ← freebuf buf
  if retval = syserr then
    return syserr
  else
    return ok

/-- The next hop of a datagram: the destination on the local network, and otherwise the
default router. -/
def nextHop (nd : NetData) (dest : UInt32) : UInt32 :=
  if dest &&& nd.ipmask = nd.ipprefix then dest else nd.iprouter

/-- Store the Ethernet address of the destination, if there is one. -/
def setEthdst (buf : Nat) (mac : Option Mac) : NetM Unit := do
  if let some mac := mac then
    setPacket buf fun p => { p with ethdst := mac }

/-- The destinations that are delivered to the local stack: 127.0.0.0/8, and the IP
unicast address of the machine. -/
def loopsBack (nd : NetData) (dest : UInt32) : Prop :=
  dest &&& (0xFF000000 : UInt32) = (0x7F000000 : UInt32) ∨ dest = nd.ipucast

instance (nd : NetData) (dest : UInt32) : Decidable (loopsBack nd dest) :=
  inferInstanceAs (Decidable (_ ∨ _))

/-- Send an outgoing IP datagram from the local stack. -/
def ipSend (buf : Nat) : NetM Int := do
  let mask ← disable
  let t ← get
  let dest := (t.packets buf).ipdst
  if loopsBack t.netData dest then
    ipLocal buf
    restore mask
    return ok
  -- broadcast if destination is 255.255.255.255
  if dest = ipBcast ∨ dest = t.netData.ipbcast then
    setPacket buf fun p => { p with ethdst := t.netData.ethbcast }
    let retval ← ipOut buf
    restore mask
    return retval
  let nxthop := nextHop t.netData dest
  if nxthop = 0 then
    -- dest. invalid or no default route
    let _ ← freebuf buf
    return syserr
  -- resolve the next-hop address to get a MAC address
  let (retval, mac) ← arpResolve nxthop
  setEthdst buf mac
  if retval ≠ ok then
    let _ ← freebuf buf
    return syserr
  let retval ← ipOut buf
  restore mask
  return retval

/-- Send an ICMP packet. -/
def icmpSend (remip : UInt32) (type ident seq : UInt16) (data : Nat → UInt8) (len : Int) :
    NetM Int := do
  let mask ← disable
  let pkt ← icmpMkpkt remip type ident seq data len
  let retval ← ipSend pkt
  restore mask
  return retval

end Net
end Xinu
