import Xinu.Kernel.BufferPool
import Xinu.Kernel.Startup
import Mathlib.Data.Fintype.Basic

/-!
# Network state

The tables and global variables of `include/net.h`, `include/arp.h`, `include/udp.h`,
`include/icmp.h` and `include/ip.h`, and what `device/eth/ethwrite.c` does with a
packet.  A packet is a record of its fields; the UDP and the ICMP view of its payload
are kept apart, as no procedure reads one after it has written the other.
-/

namespace Xinu

/-! ## Byte order -/

def htons (x : UInt16) : UInt16 :=
  (x <<< 8) ||| (x >>> 8)

def ntohs (x : UInt16) : UInt16 :=
  htons x

def htonl (x : UInt32) : UInt32 :=
  (x <<< (24 : UInt32)) ||| ((x <<< (8 : UInt32)) &&& (0x00FF0000 : UInt32))
    ||| ((x >>> (8 : UInt32)) &&& (0x0000FF00 : UInt32)) ||| (x >>> (24 : UInt32))

def ntohl (x : UInt32) : UInt32 :=
  htonl x

namespace Net

open Foundations Function

/-- An Ethernet address. -/
abbrev Mac := Fin 6 → UInt8

def udpSlots : Nat := 6
def udpQsiz : Int := 8
def udpHdrLen : Int := 8
def icmpSlots : Int := 10
def icmpQsiz : Int := 8
def icmpHdrLen : Int := 8
def ipOqsiz : Int := 8
def ipHdrLen : Int := 20
def ethHdrLen : Int := 14
def ipBcast : UInt32 := 0xFFFFFFFF
def ipIcmp : UInt8 := 1
def ipUdp : UInt8 := 17
def ethArp : UInt16 := 0x0806

/-- Local network interface. -/
structure NetData where
  ipucast : UInt32
  ipbcast : UInt32
  ipmask : UInt32
  ipprefix : UInt32
  iprouter : UInt32
  ipvalid : Bool
  ethucast : Mac
  ethbcast : Mac

/-- Format of an Ethernet packet carrying IPv4. -/
structure Netpacket where
  ethdst : Mac
  ethsrc : Mac
  ethtype : UInt16
  ipvh : UInt8
  iptos : UInt8
  iplen : UInt16
  ipid : UInt16
  ipfrag : UInt16
  ipttl : UInt8
  ipproto : UInt8
  ipcksum : UInt16
  ipsrc : UInt32
  ipdst : UInt32
  udpsport : UInt16
  udpdport : UInt16
  udplen : UInt16
  udpcksum : UInt16
  udpdata : Nat → UInt8
  ictype : UInt8
  iccode : UInt8
  iccksum : UInt16
  icident : UInt16
  icseq : UInt16
  icdata : Nat → UInt8

/-- ARP packet for IP and Ethernet. -/
structure Arppacket where
  ethdst : Mac
  ethsrc : Mac
  ethtype : UInt16
  htype : UInt16
  ptype : UInt16
  hlen : UInt8
  plen : UInt8
  op : UInt16
  sndha : Mac
  sndpa : UInt32
  tarha : Mac
  tarpa : UInt32
deriving DecidableEq

/-- State of an ARP cache entry. -/
inductive ArState where
  | arFree
  | arPending
  | arResolved
deriving DecidableEq, Repr

/-- Entry in the ARP cache. -/
structure Arpentry where
  arstate : ArState
  arpaddr : UInt32
  arpid : Int
  arhaddr : Mac
deriving DecidableEq

/-- State of an endpoint. -/
inductive UdState where
  | udpFree
  | udpUsed
  | udpRecv
deriving DecidableEq, Repr

/-- Entry in the UDP endpoint table. -/
structure Udpentry where
  udstate : UdState
  udremip : UInt32
  udremport : UInt16
  udlocport : UInt16
  udhead : Int
  udtail : Int
  udcount : Int
  udpid : Int
  udqueue : Int → Nat

inductive IcState where
  | icmpFree
  | icmpUsed
  | icmpRecv
deriving DecidableEq, Repr

/-- Entry in the ICMP table. -/
structure Icmpentry where
  icstate : IcState
  icremip : UInt32
  ichead : Int
  ictail : Int
  iccount : Int
  icpid : Int
  icqueue : Int → Nat

/-- Queue of outgoing IP packets. -/
structure Iqentry where
  iqhead : Int
  iqtail : Int
  iqsem : Int
  iqbuf : Int → Nat

/-- What was handed to the Ethernet device. -/
inductive Frame where
  | arp (pkt : Arppacket)
  | ip (pkt : Netpacket)

/-- The Ethernet device: the semaphore that counts its free descriptors, and the
frames it has been given. -/
structure Ether where
  osem : Int
  txRing : List Frame

/-- The variables whose addresses a process passes to the network calls. -/
structure Vars where
  mac : Mac
  buff : List UInt8
  remip : UInt32
  remport : UInt16

/-- The processor and the tables of the network code. -/
structure State where
  cpu : Cpu
  pools : Pools
  netbufpool : Int
  netData : NetData
  /-- The contents of the packet buffer at each address. -/
  packets : Nat → Netpacket
  arpcache : Nat → Arpentry
  udptab : Nat → Udpentry
  icmptab : Nat → Icmpentry
  ipoqueue : Iqentry
  /-- `ident` of `udp_send`, `ident` of `udp_sendto` and `ipident` of `icmp_mkpkt` -/
  ident : UInt16 × UInt16 × UInt32
  ether : Ether
  vars : Int → Vars

instance : HasCpu State where
  cpu := State.cpu
  setCpu t s := { t with cpu := s }
  cpu_setCpu _ _ := rfl

instance : HasPools State where
  pools := State.pools
  setPools t s := { t with pools := s }

abbrev NetM := Coop State

/-- A packet of zeros. -/
def Netpacket.zero : Netpacket where
  ethdst := fun _ => 0
  ethsrc := fun _ => 0
  ethtype := 0
  ipvh := 0
  iptos := 0
  iplen := 0
  ipid := 0
  ipfrag := 0
  ipttl := 0
  ipproto := 0
  ipcksum := 0
  ipsrc := 0
  ipdst := 0
  udpsport := 0
  udpdport := 0
  udplen := 0
  udpcksum := 0
  udpdata := fun _ => 0
  ictype := 0
  iccode := 0
  iccksum := 0
  icident := 0
  icseq := 0
  icdata := fun _ => 0

/-- The state after startup, before the network is initialized: the tables are zero. -/
def bootNet (b : Board) : State where
  cpu := ⟨boot b, fun _ => true⟩
  pools := ⟨fun _ => ⟨0, 0, 0⟩, 0, fun _ => 0⟩
  netbufpool := 0
  netData := ⟨0, 0, 0, 0, 0, false, fun _ => 0, fun _ => 0⟩
  packets := fun _ => .zero
  arpcache := fun _ => ⟨.arFree, 0, 0, fun _ => 0⟩
  udptab := fun _ => ⟨.udpFree, 0, 0, 0, 0, 0, 0, 0, fun _ => 0⟩
  icmptab := fun _ => ⟨.icmpFree, 0, 0, 0, 0, 0, fun _ => 0⟩
  ipoqueue := ⟨0, 0, 0, fun _ => 0⟩
  ident := (1, 1, 32767)
  ether := ⟨0, []⟩
  vars := fun _ => ⟨fun _ => 0, [], 0, 0⟩

/-- Change the variables of the process that runs. -/
def setVars (f : Vars → Vars) : NetM Unit :=
  modify fun t =>
    { t with vars := update t.vars (kernelOf t).currpid (f (t.vars (kernelOf t).currpid)) }

/-- Change the packet in the buffer at address `a`. -/
def setPacket (a : Nat) (f : Netpacket → Netpacket) : NetM Unit :=
  modify fun t => { t with packets := update t.packets a (f (t.packets a)) }

/-- `semcount`, the count of a semaphore. -/
def semcount (sem : Int) : NetM Int := do
  let s := kernelOf (← get)
  if isbadsem sem then
    return syserr
  if (s.semtab sem).sstate = .sFree then
    return syserr
  return s.count sem

/-- Enqueue a frame for transmission, when there is an empty slot in the queue. -/
def ethwrite (frame : Frame) (count : Int) : NetM Int := do
  let _ ← onKernel (wait (← get).ether.osem)
  modify fun t => { t with ether := { t.ether with txRing := t.ether.txRing ++ [frame] } }
  return count

end Net
end Xinu
