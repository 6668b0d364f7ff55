import Xinu.Net.State

/-!
# Headers

The conversions between host and network byte order and the checksums of `net/ip.c`,
`net/udp.c`, `net/icmp.c` and `net/net.c`.  The processor stores the low byte of a word
first.
-/

namespace Xinu
namespace Net

/-! ## Byte order -/

/-- Convert Ethernet type field to network byte order. -/
def ethHton (p : Netpacket) : Netpacket :=
  { p with ethtype := htons p.ethtype }

/-- Convert Ethernet type field to host byte order. -/
def ethNtoh (p : Netpacket) : Netpacket :=
  { p with ethtype := ntohs p.ethtype }

/-- Convert IP header fields to network byte order. -/
def ipHton (p : Netpacket) : Netpacket :=
  { p with
    iplen := htons p.iplen
    ipid := htons p.ipid
    ipfrag := htons p.ipfrag
    ipsrc := htonl p.ipsrc
    ipdst := htonl p.ipdst }

/-- Convert IP header fields to host byte order. -/
def ipNtoh (p : Netpacket) : Netpacket :=
  { p with
    iplen := ntohs p.iplen
    ipid := ntohs p.ipid
    ipfrag := ntohs p.ipfrag
    ipsrc := ntohl p.ipsrc
    ipdst := ntohl p.ipdst }

/-- Convert packet header fields from host to net byte order. -/
def udpHton (p : Netpacket) : Netpacket :=
  { p with
    udpsport := htons p.udpsport
    udpdport := htons p.udpdport
    udplen := htons p.udplen }

/-- Convert UDP header fields from net to host byte order. -/
def udpNtoh (p : Netpacket) : Netpacket :=
  { p with
    udpsport := ntohs p.udpsport
    udpdport := ntohs p.udpdport
    udplen := ntohs p.udplen }

/-- Convert ICMP ping fields to network byte order. -/
def icmpHton (p : Netpacket) : Netpacket :=
  { p with
    iccksum := htons p.iccksum
    icident := htons p.icident
    icseq := htons p.icseq }

/-- Convert ICMP ping fields to host byte order. -/
def icmpNtoh (p : Netpacket) : Netpacket :=
  { p with
    iccksum := ntohs p.iccksum
    icident := ntohs p.icident
    icseq := ntohs p.icseq }

/-! ## Checksums -/

/-- The 16-bit word whose bytes are `lo` and `hi` in memory. -/
def leWord (lo hi : UInt8) : UInt16 :=
  lo.toUInt16 ||| (hi.toUInt16 <<< 8)

def lowHalf (x : UInt32) : UInt16 :=
  x.toUInt16

def highHalf (x : UInt32) : UInt16 :=
  (x >>> (16 : UInt32)).toUInt16

/-- The ten 16-bit words of the IP header, as they are stored. -/
def ipWords (p : Netpacket) : List UInt16 :=
  [leWord p.ipvh p.iptos, p.iplen, p.ipid, p.ipfrag, leWord p.ipttl p.ipproto, p.ipcksum,
    lowHalf p.ipsrc, highHalf p.ipsrc, lowHalf p.ipdst, highHalf p.ipdst]

/-- Add in carry, and take the ones-complement. -/
def foldCksum (cksum : UInt32) : UInt32 :=
  let cksum := cksum + (cksum >>> (16 : UInt32))
  (0xFFFF : UInt32) &&& ~~~cksum

/-- Compute the IP header checksum for a datagram. -/
def ipcksum (p : Netpacket) : UInt16 :=
  let cksum := foldCksum ((ipWords p).foldl (fun sum w => sum + (htons w).toUInt32) 0)
  -- use all-1s for zero
  if cksum = (0xFFFF : UInt32) then 0 else cksum.toUInt16

def lowByte (x : UInt16) : UInt8 :=
  x.toUInt8

def highByte (x : UInt16) : UInt8 :=
  (x >>> 8).toUInt8

/-- The byte at offset `i` from the type of an ICMP message. -/
def icmpByte (p : Netpacket) (i : Nat) : UInt8 :=
  match i with
  | 0 => p.ictype
  | 1 => p.iccode
  | 2 => lowByte p.iccksum
  | 3 => highByte p.iccksum
  | 4 => lowByte p.icident
  | 5 => highByte p.icident
  | 6 => lowByte p.icseq
  | 7 => highByte p.icseq
  | i + 8 => p.icdata i

/-- Compute a checksum for the first `buflen` bytes of an ICMP message. -/
def icmpCksum (p : Netpacket) (buflen : Int) : UInt16 :=
  let scount := (buflen / 2).toNat
  let words := (List.range scount).map fun k => leWord (icmpByte p (2 * k)) (icmpByte p (2 * k + 1))
  let cksum := words.foldl (fun sum w => sum + (ntohs w).toUInt32) 0
  -- if buffer length is odd, add last byte
  let cksum :=
    if buflen % 2 ≠ 0 then cksum + ((icmpByte p (2 * scount)).toUInt32 <<< (8 : UInt32)) else cksum
  (foldCksum cksum).toUInt16

/-! ## Processing of a packet in its buffer -/

/-- The headers of an outgoing IP datagram, as `ip_out` leaves them. -/
def ipFinish (p : Netpacket) : Netpacket :=
  -- convert encapsulated protocol to network byte order
  let p :=
    if p.ipproto = ipUdp then
      udpHton { p with udpcksum := 0 }
    else if p.ipproto = ipIcmp then
      let p := { icmpHton p with iccksum := 0 }
      { p with iccksum := htons (icmpCksum p ((p.iplen.toNat : Int) - ipHdrLen)) }
    else
      p
  let p := { ipHton p with ipcksum := 0 }
  ethHton { p with ipcksum := htons (ipcksum p) }

end Net
end Xinu
