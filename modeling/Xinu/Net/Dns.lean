import Xinu.Net.DottedQuad
import Xinu.Net.State
import Xinu.Net.Tftp

/-!
# The domain name client

Embedding of `net/dns.c`.  A packet is the memory from its first byte on; pointers into it
are offsets.  The functions follow what the network has sent, so that each of them may need
any number of turns: `fuel` bounds the turns of one loop over a name.

The network and the kernel are what the calls of `dns_qa` return.
-/

namespace Xinu
namespace Net
namespace Dns

open Foundations Function Lib DottedQuad

/-! ## dns.h -/

def dnsQtA : Nat := 1
def dnsQcIn : Nat := 1

/-- The offsets of `qdcount`, `ancount` and `data` in `struct dnspkt`. -/
def qdcountOffset : Nat := 4
def ancountOffset : Nat := 6
def dataOffset : Nat := 12

/-- The size of the array `data`. -/
def dataSize : Nat := 500

/-! ## dns_bldq -/

/-- The variables of `dns_bldq`, and the memory from `data` on. -/
structure Bldq where
  memory : Chars
  /-- `data` -/
  pos : Nat
  llptr : Nat
  qlen : Nat

/-- `*data++ = c;` -/
def Bldq.put (b : Bldq) (c : UInt8) : Bldq :=
  { b with memory := update b.memory b.pos c, pos := b.pos + 1 }

/-- `llptr = (byte *)(data++); *llptr = 0;` -/
def Bldq.label (b : Bldq) : Bldq :=
  { b.put 0 with llptr := b.pos }

/-- `*((uint16 *)data) = htons(x); data += 2;` -/
def Bldq.put16 (b : Bldq) (x : Nat) : Bldq :=
  (b.put (UInt8.ofNat (x / 256))).put (UInt8.ofNat x)

/-- One character of the name. -/
def Bldq.char (b : Bldq) (c : UInt8) : Bldq :=
  if c ≠ dot then
    let b := b.put c
    { b with memory := update b.memory b.llptr (b.memory b.llptr + 1), qlen := b.qlen + 1 }
  else { b.label with qlen := b.qlen + 1 }

/-- The loop over the characters of the name; `false` if the function returns `SYSERR`. -/
def bldqLoop : List UInt8 → Bldq → Bool × Bldq
  | [], b => (true, b)
  | c :: dname, b =>
      if 512 ≤ b.qlen then (false, b)
      else bldqLoop dname (b.char c)

/-- Build a DNS Question and return the length. -/
def dnsBldq (dname : List UInt8) (data : Chars) : UInt32 × Chars :=
  let b : Bldq := { memory := data, pos := 0, llptr := 0, qlen := 0 }
  match bldqLoop dname { b.label with qlen := 1 } with
  | (false, b) => (uSyserr, b.memory)
  | (true, b) => (UInt32.ofNat (b.qlen + 5), (((b.put 0).put16 dnsQtA).put16 dnsQcIn).memory)

/-! ## dns_getrname -/

/-- What a call touches: a byte of the packet or of the destination. -/
inductive Access where
  | read (off : Nat)
  | patch (off : Nat)
  | write (off : Nat)
deriving DecidableEq, Repr

/-- The packet, the destination, and the bytes that have been touched; no function reads
the last field. -/
structure NameMem where
  pkt : Chars
  dst : Chars
  touched : List Access

/-- `*son` -/
def NameMem.fetch (m : NameMem) (son : Nat) : UInt8 × NameMem :=
  (m.pkt son, { m with touched := m.touched ++ [.read son] })

/-- `*dst = c` -/
def NameMem.store (m : NameMem) (dst : Nat) (c : UInt8) : NameMem :=
  { m with dst := update m.dst dst c, touched := m.touched ++ [.write dst] }

/-- `*son = c` -/
def NameMem.patch (m : NameMem) (son : Nat) (c : UInt8) : NameMem :=
  { m with pkt := update m.pkt son c, touched := m.touched ++ [.patch son] }

/-- `for (i = 0; i < llen; i++) *dst++ = *son++;` -/
def copyLabel : Nat → Nat → Nat → NameMem → NameMem
  | 0, _, _, m => m
  | n + 1, son, dst, m =>
      let (c, m) := m.fetch son
      copyLabel n (son + 1) (dst + 1) (m.store dst c)

/-- The loop of `dns_getrname`, and the value returned; there is none if the loop needs more
turns. -/
def nameLoop : Nat → Nat → Nat → Nat → UInt8 → NameMem → NameMem × Option Nat
  | 0, _, _, _, _, m => (m, none)
  | fuel + 1, sson, son, dst, llen, m =>
      if llen = 0 then (m.store dst 0, some (son - sson))
      else if llen ≤ 63 then
        let n := llen.toNat
        let m := (copyLabel n son dst m).store (dst + n) dot
        let (llen, m) := m.fetch (son + n)
        nameLoop fuel sson (son + n + 1) (dst + n + 1) llen m
      else
        let son := son - 1
        let (c, m) := m.fetch son
        let m := m.patch son (c &&& 0x3f)
        let (hi, m) := m.fetch son
        let (lo, m) := m.fetch (son + 1)
        let offset := hi.toNat * 256 + lo.toNat
        -- `dns_getrname(sop, sop + offset, dst);`
        let (llen, m) := m.fetch offset
        match nameLoop fuel offset (offset + 1) dst llen m with
        | (m, none) => (m, none)
        | (m, some _) => (m, some (son + 2 - sson))

/-- Create a C string from Resource Record: the name at `son` goes to `dst`. -/
def dnsGetrname (fuel son dst : Nat) (m : NameMem) : NameMem × Option Nat :=
  let (llen, m) := m.fetch son
  nameLoop fuel son (son + 1) dst llen m

/-! ## dns_geta -/

/-- `strncmp` -/
def strncmp : Nat → Chars → Chars → Int
  | 0, _, _ => 0
  | n + 1, s1, s2 =>
      if s1 0 = s2 0 then
        if s1 0 = 0 then 0
        else strncmp n (fun i => s1 (i + 1)) (fun i => s2 (i + 1))
      else (s1 0).toNat - (s2 0).toNat

/-- The offset behind the name of a question. -/
def skipName (pkt : Chars) : Nat → Nat → Option Nat
  | 0, _ => none
  | fuel + 1, dptr =>
      let llen := pkt dptr
      if llen = 0 then some (dptr + 1)
      else if 63 < llen then some (dptr + 2)
      else skipName pkt fuel (dptr + (1 + llen.toNat))

/-- The offset behind so many questions. -/
def skipQuestions (pkt : Chars) (fuel : Nat) : Nat → Nat → Option Nat
  | 0, dptr => some dptr
  | k + 1, dptr =>
      match skipName pkt fuel dptr with
      | none => none
      | some dptr => skipQuestions pkt fuel k (dptr + (2 + 2))

/-- `*((uint32 *)dptr)` -/
def word32 (pkt : Chars) (dptr : Nat) : UInt32 :=
  UInt32.ofNat ((pkt dptr).toNat + 256 * ((pkt (dptr + 1)).toNat +
    256 * ((pkt (dptr + 2)).toNat + 256 * (pkt (dptr + 3)).toNat)))

/-- A call of `dns_getrname`: the packet before, and what the call leaves. -/
structure NameCall where
  before : Chars
  after : NameMem

/-- The loop over so many answers: the calls of `dns_getrname`, and the value returned. -/
def getaLoop (fuel : Nat) (dname : List UInt8) :
    Nat → Nat → NameMem → List NameCall × Option UInt32
  | 0, _, _ => ([], some uSyserr)
  | k + 1, dptr, m =>
      let (m', r) := dnsGetrname fuel dptr 0 { m with touched := [] }
      let call : NameCall := { before := m.pkt, after := m' }
      match r with
      | none => ([call], none)
      | some dlen =>
          let dptr := dptr + dlen
          if strncmp dname.length m'.dst (chars dname) = 0 ∧ ntohs m'.pkt dptr = dnsQtA then
            ([call], some (word32 m'.pkt (dptr + 10)))
          else
            let dptr := dptr + 8
            let (calls, r) := getaLoop fuel dname k (dptr + (2 + ntohs m'.pkt dptr)) m'
            (call :: calls, r)

/-- The first IP address in the Answer Section, as it lies in the packet.  `rname` is what
the array on the stack holds. -/
def dnsGeta (fuel : Nat) (dname : List UInt8) (rpkt rname : Chars) :
    List NameCall × Option UInt32 :=
  match skipQuestions rpkt fuel (ntohs rpkt qdcountOffset) dataOffset with
  | none => ([], none)
  | some dptr =>
      getaLoop fuel dname (ntohs rpkt ancountOffset) dptr
        { pkt := rpkt, dst := rname, touched := [] }

/-! ## dns_qa -/

/-- What a call of `udp_recv` returns; a response is the memory of the packet after it. -/
inductive Reply where
  | syserr
  | timeout
  | packet (rpkt : Chars)

/-- What the kernel and the network do for `dns_qa`. -/
structure Network where
  /-- `udp_register` finds a free slot. -/
  registers : Bool
  /-- The memory that `getmem` gives for the query, if there is any. -/
  qpkt : Option Chars
  /-- The same for the response. -/
  rpkt : Option Chars
  currpid : UInt16
  /-- What each call of `udp_recv` returns. -/
  recv : Nat → Reply
  /-- What lies on the stack. -/
  rname : Chars

/-- A call of `udp_send`: the length, and the memory of the message. -/
structure Sent where
  len : UInt32
  message : Chars

/-- The query packet without its question. -/
def queryHeader (currpid : UInt16) (qpkt : Chars) : Chars :=
  fun i =>
    if i = 0 then UInt8.ofNat currpid.toNat
    else if i = 1 then UInt8.ofNat (currpid.toNat / 256)
    else if i = 2 ∨ i = 5 then 1
    else if i < dataOffset + dataSize then 0
    else qpkt i

/-- The loop that sends the query and waits, with so many turns left. -/
def qaLoop (fuel : Nat) (dname : List UInt8) (net : Network) (query : Sent) :
    Nat → UInt32 → List Sent × Option UInt32
  | 0, ipaddr => ([], some ipaddr)
  | k + 1, ipaddr =>
      let ipaddr :=
        match net.recv (2 - k) with
        | .syserr => some ipaddr
        | .timeout => some ipaddr
        | .packet rpkt => (dnsGeta fuel dname rpkt net.rname).2
      match ipaddr with
      | none => ([query], none)
      | some ipaddr =>
          let (sent, r) := qaLoop fuel dname net query k ipaddr
          (query :: sent, r)

/-- Send a DNS Address Query and wait for the Response: the messages sent, and the value
returned. -/
def dnsQa (fuel : Nat) (dname : Option (List UInt8)) (net : Network) :
    List Sent × Option UInt32 :=
  match dname, net.registers, net.qpkt, net.rpkt with
  | some dname, true, some qpkt, some _ =>
      let qpkt := queryHeader net.currpid qpkt
      let (qlen, data) := dnsBldq dname fun i => qpkt (dataOffset + i)
      let message : Chars := fun i => if i < dataOffset then qpkt i else data (i - dataOffset)
      let (sent, r) := qaLoop fuel dname net { len := 12 + qlen, message } 3 uSyserr
      (sent, r.map ntohl)
  | _, _, _, _ => ([], some uSyserr)

end Dns
end Net
end Xinu
