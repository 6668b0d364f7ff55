import Xinu.Net.IcmpSpec
import Xinu.Net.Checksums
import Xinu.Foundations.NullTerminated

/-!
# Bounds of a received packet

Which bytes are read and written, and which lengths are computed, from the moment a packet has
arrived in its buffer until its data has been copied to a caller.

Main results:

- Theorems `icmpCksumRun_fst`, `icmpCksumRun_snd`: what the checksum of a message is, and which bytes it is
  computed from.
- Theorem `received_inside_iff`: all of this stays inside the buffers, and no length is negative,
  exactly if the lengths in the headers fit each other and the buffer.
-/

namespace Xinu
namespace Net
namespace PacketBounds

open Foundations Function

/-! ## The packet in its buffer -/

/-- The word of two bytes at offset `off`, as the processor reads it. -/
def half (b : Chars) (off : Nat) : UInt16 :=
  leWord (b off) (b (off + 1))

/-- The word of four bytes at offset `off`. -/
def long (b : Chars) (off : Nat) : UInt32 :=
  (half b off).toUInt32 ||| ((half b (off + 2)).toUInt32 <<< 16)

/-- Where the encapsulated message begins, and where its data does. -/
def ictypeOffset : Nat := 34
def dataOffset : Nat := 42

/-- `PACKLEN` -/
def packlen : Nat := 1514

/-- The packet whose first byte is `b 0`. -/
def packetAt (b : Chars) : Netpacket where
  ethdst i := b i
  ethsrc i := b (6 + i)
  ethtype := half b 12
  ipvh := b 14
  iptos := b 15
  iplen := half b 16
  ipid := half b 18
  ipfrag := half b 20
  ipttl := b 22
  ipproto := b 23
  ipcksum := half b 24
  ipsrc := long b 26
  ipdst := long b 30
  udpsport := half b 34
  udpdport := half b 36
  udplen := half b 38
  udpcksum := half b 40
  udpdata i := b (dataOffset + i)
  ictype := b 34
  iccode := b 35
  iccksum := half b 36
  icident := half b 38
  icseq := half b 40
  icdata i := b (dataOffset + i)

theorem lowByte_leWord (lo hi : UInt8) : lowByte (leWord lo hi) = lo := by
  have hlo := lo.toNat_lt
  rw [← UInt8.toNat_inj, lowByte_toNat, leWord_toNat]
  omega

theorem highByte_leWord (lo hi : UInt8) : highByte (leWord lo hi) = hi := by
  have hlo := lo.toNat_lt
  rw [← UInt8.toNat_inj, highByte_toNat, leWord_toNat]
  omega

/-- A byte of the ICMP message is the byte of memory at its place. -/
theorem icmpByte_packetAt (b : Chars) (i : Nat) :
    icmpByte (ipNtoh (packetAt b)) i = b (ictypeOffset + i) := by
  have hlow : ∀ off, lowByte (half b off) = b off := fun off => lowByte_leWord _ _
  have hhigh : ∀ off, highByte (half b off) = b (off + 1) := fun off => highByte_leWord _ _
  match i with
  | 0 => rfl
  | 1 => rfl
  | 2 => exact hlow 36
  | 3 => exact hhigh 36
  | 4 => exact hlow 38
  | 5 => exact hhigh 38
  | 6 => exact hlow 40
  | 7 => exact hhigh 40
  | i + 8 =>
      show b (dataOffset + i) = b (ictypeOffset + (i + 8))
      unfold dataOffset ictypeOffset
      rw [show 42 + i = 34 + (i + 8) by omega]

/-! ## Events -/

/-- The buffer of the received packet, that of the reply to it, and that of a caller. -/
inductive Buffer where
  | packet
  | reply
  | caller
deriving DecidableEq, Repr

/-- A length that was computed from a header, or a byte that was read or written. -/
inductive Event where
  | computed (n : Int)
  | touched (buf : Buffer) (off : Nat)
deriving DecidableEq, Repr

/-- The number of bytes in a buffer; the caller's has `len`. -/
def Buffer.size (len : Int) : Buffer → Int
  | packet => packlen
  | reply => packlen
  | caller => len

/-- The length is not negative, and the byte lies in its buffer. -/
def Event.Inside (len : Int) : Event → Prop
  | computed n => 0 ≤ n
  | touched buf off => off < buf.size len

instance (len : Int) (e : Event) : Decidable (e.Inside len) :=
  match e with
  | .computed n => inferInstanceAs (Decidable (0 ≤ n))
  | .touched buf off => inferInstanceAs (Decidable ((off : Int) < buf.size len))

/-- The bytes of a buffer from `off` on. -/
def span (buf : Buffer) (off n : Nat) : List Event :=
  (List.range' off n).map (.touched buf)

/-- A loop that copies `n` bytes, one at a time. -/
def copied (src : Buffer) (s : Nat) (dst : Buffer) (d n : Nat) : List Event :=
  (List.range n).flatMap fun i => [.touched src (s + i), .touched dst (d + i)]

section Events

variable {len : Int}

theorem span_inside_iff (buf : Buffer) (off n : Nat) :
    (∀ e ∈ span buf off n, e.Inside len) ↔ n = 0 ∨ (off + n : Nat) ≤ buf.size len := by
  unfold span
  simp only [List.forall_mem_map, List.mem_range'_1]
  constructor
  · intro h
    rcases Nat.eq_zero_or_pos n with hn | hn
    · exact Or.inl hn
    · have hlast : ((off + n - 1 : Nat) : Int) < buf.size len := h (off + n - 1) (by omega)
      omega
  · intro h i hi
    show (i : Int) < buf.size len
    omega

theorem copied_inside_iff (src : Buffer) (s : Nat) (dst : Buffer) (d n : Nat) :
    (∀ e ∈ copied src s dst d n, e.Inside len) ↔
      n = 0 ∨ ((s + n : Nat) ≤ src.size len ∧ (d + n : Nat) ≤ dst.size len) := by
  unfold copied
  simp only [List.forall_mem_flatMap, List.mem_range, List.forall_mem_cons]
  constructor
  · intro h
    rcases Nat.eq_zero_or_pos n with hn | hn
    · exact Or.inl hn
    · obtain ⟨hsrc, hdst, -⟩ := h (n - 1) (by omega)
      replace hsrc : ((s + (n - 1) : Nat) : Int) < src.size len := hsrc
      replace hdst : ((d + (n - 1) : Nat) : Int) < dst.size len := hdst
      omega
  · intro h i hi
    refine ⟨?_, ?_, fun e he => absurd he List.not_mem_nil⟩
    · show ((s + i : Nat) : Int) < src.size len
      omega
    · show ((d + i : Nat) : Int) < dst.size len
      omega

end Events

/-! ## The checksum of a message -/

/-- The loop of `icmp_cksum`: `scount` words are left, and `sptr` is the offset of the next. -/
def cksumLoop (b : Chars) : Nat → Nat → UInt32 → UInt32 × Nat × List Event
  | 0, sptr, cksum => (cksum, sptr, [])
  | scount + 1, sptr, cksum =>
      let word := half b sptr
      let (cksum, last, es) := cksumLoop b scount (sptr + 2) (cksum + (Xinu.ntohs word).toUInt32)
      (cksum, last, .touched .packet sptr :: .touched .packet (sptr + 1) :: es)

/-- `icmp_cksum` of `buflen` bytes at offset `buf`. -/
def icmpCksumRun (b : Chars) (buf : Nat) (buflen : Int) : UInt16 × List Event :=
  let scount := buflen / 2
  let (cksum, sptr, es) := cksumLoop b scount.toNat buf 0
  -- if buffer length is odd, add last byte
  if buflen % 2 ≠ 0 then
    ((foldCksum (cksum + ((b sptr).toUInt32 <<< (8 : UInt32)))).toUInt16,
      es ++ [.touched .packet sptr])
  else
    ((foldCksum cksum).toUInt16, es)

section Cksum

variable {b : Chars}

theorem cksumLoop_eq (scount sptr : Nat) (cksum : UInt32) :
    cksumLoop b scount sptr cksum =
      (((List.range scount).map fun k => half b (sptr + 2 * k)).foldl
          (fun sum w => sum + (Xinu.ntohs w).toUInt32) cksum,
        sptr + 2 * scount, span .packet sptr (2 * scount)) := by
  induction scount generalizing sptr cksum with
  | zero => rfl
  | succ scount ih =>
      have hwords : (List.range (scount + 1)).map (fun k => half b (sptr + 2 * k)) =
          half b sptr :: (List.range scount).map fun k => half b (sptr + 2 + 2 * k) := by
        rw [List.range_succ_eq_map, List.map_cons, List.map_map]
        refine congrArg (half b sptr :: ·) (List.map_congr_left fun k _ => ?_)
        show half b (sptr + 2 * (k + 1)) = _
        rw [show sptr + 2 * (k + 1) = sptr + 2 + 2 * k by omega]
      have hspan : span .packet sptr (2 * (scount + 1)) =
          .touched .packet sptr :: .touched .packet (sptr + 1) ::
            span .packet (sptr + 2) (2 * scount) := by
        unfold span
        rw [show 2 * (scount + 1) = 2 * scount + 1 + 1 by omega, List.range'_succ, List.range'_succ]
        rfl
      rw [cksumLoop, ih, hwords, hspan, List.foldl_cons]
      dsimp only
      rw [show sptr + 2 + 2 * scount = sptr + 2 * (scount + 1) by omega]

/-- The sum is that of the message in the packet. -/
theorem icmpCksumRun_fst (b : Chars) (buflen : Int) :
    (icmpCksumRun b ictypeOffset buflen).1 = icmpCksum (ipNtoh (packetAt b)) buflen := by
  have hwords : ∀ n, (List.range n).map (fun k => half b (ictypeOffset + 2 * k)) =
      (List.range n).map fun k => leWord (icmpByte (ipNtoh (packetAt b)) (2 * k))
        (icmpByte (ipNtoh (packetAt b)) (2 * k + 1)) := by
    intro n
    refine List.map_congr_left fun k _ => ?_
    rw [icmpByte_packetAt, icmpByte_packetAt]
    rfl
  unfold icmpCksumRun icmpCksum
  dsimp only
  rw [cksumLoop_eq, hwords, icmpByte_packetAt]
  split_ifs
  · rfl
  · rfl

/-- Every byte of the message is read, and for a negative length at most one. -/
theorem icmpCksumRun_snd (b : Chars) (buf : Nat) {buflen : Int} (h : 0 ≤ buflen) :
    (icmpCksumRun b buf buflen).2 = span .packet buf buflen.toNat := by
  unfold icmpCksumRun
  dsimp only
  rw [cksumLoop_eq]
  by_cases hodd : buflen % 2 ≠ 0
  · have hlen : buflen.toNat = 2 * (buflen / 2).toNat + 1 := by omega
    rw [if_pos hodd, hlen]
    unfold span
    rw [List.range'_concat, List.map_append]
    simp
  · have hlen : buflen.toNat = 2 * (buflen / 2).toNat := by omega
    rw [if_neg hodd, hlen]

end Cksum

/-! ## A packet on its way -/

theorem ipUdp_ne_ipIcmp : ipUdp ≠ ipIcmp := by decide

/-- The checks of `ip_in` on the packet in the buffer, and the packet in host byte order if it
passes them. -/
def ipInChecks (b : Chars) : List Event × Option Netpacket :=
  let pkt := packetAt b
  -- verify checksum
  if ipcksum pkt ≠ 0 then
    ([], none)
  else
    let pkt := ipNtoh pkt
    if pkt.ipvh ≠ 0x45 then
      ([], none)
    else if pkt.ipproto = ipUdp then
      ([], some (udpNtoh pkt))
    else if pkt.ipproto = ipIcmp then
      let icmplen := (pkt.iplen.toNat : Int) - ipHdrLen
      let (cksum, es) := icmpCksumRun b ictypeOffset icmplen
      (.computed icmplen :: es, if cksum ≠ 0 then none else some (icmpNtoh pkt))
    else
      ([], some pkt)

/-- The destination is one that `ip_in` accepts. -/
def Accepted (nd : NetData) (pkt : Netpacket) : Prop :=
  pkt.ipdst = ipBcast ∨
    if nd.ipvalid = false then pkt.ipproto = ipUdp
    else pkt.ipdst = nd.ipucast ∨ pkt.ipdst = nd.ipbcast ∨ pkt.ipdst = ipBcast

instance (nd : NetData) (pkt : Netpacket) : Decidable (Accepted nd pkt) :=
  inferInstanceAs (Decidable (_ ∨ ite _ _ _))

/-- `icmp_mkpkt` for a reply with `len` bytes of data, which fills in everything from the source
address of the frame on. -/
def icmpMkpktEvents (len : Int) : List Event :=
  .computed (ipHdrLen + icmpHdrLen + len) :: span .reply 6 36 ++
    copied .packet dataOffset .reply dataOffset len.toNat

/-- The loop of `icmp_recv`, from `i` on; `n` turns are left of those that `datalen` allows.
What it copies, and `i` at the end. -/
def icmpRecvLoop (len : Int) : Nat → Nat → List Event × Nat
  | 0, i => ([], i)
  | n + 1, i =>
      if (i : Int) ≥ len then
        ([], i)
      else
        let (es, last) := icmpRecvLoop len n (i + 1)
        (.touched .packet (dataOffset + i) :: .touched .caller i :: es, last)

/-- The copy of `icmp_recv` into a buffer of `len` bytes. -/
def icmpRecvEvents (len : Int) (pkt : Netpacket) : List Event :=
  let datalen := (pkt.iplen.toNat : Int) - ipHdrLen - icmpHdrLen
  .computed datalen :: (icmpRecvLoop len datalen.toNat 0).1

/-- The copy of `udp_recv` into a buffer of `len` bytes. -/
def udpRecvEvents (len : Int) (pkt : Netpacket) : List Event :=
  let msglen := (pkt.udplen.toNat : Int) - udpHdrLen
  .computed msglen ::
    copied .packet dataOffset .caller 0 (if len < msglen then len else msglen).toNat

/-- `icmp_in`, with the receive that takes the packet if it is queued. -/
def icmpInEvents (tab : Nat → Icmpentry) (len : Int) (pkt : Netpacket) : List Event :=
  -- discard all ICMP messages except ping
  if pkt.ictype ≠ icmpEchoreply ∧ pkt.ictype ≠ icmpEchoreqst then
    []
  else if pkt.ictype = icmpEchoreqst then
    let datalen := (pkt.iplen.toNat : Int) - ipHdrLen - icmpHdrLen
    .computed datalen :: icmpMkpktEvents datalen
  else
    let slot := pkt.icident.toNat
    if (slot : Int) ≥ icmpSlots then
      []
    else if (tab slot).icstate = .icmpFree ∨ pkt.ipsrc ≠ (tab slot).icremip then
      []
    else
      icmpRecvEvents len pkt

/-- `ip_local`, with the receive that takes the packet if it is queued. -/
def ipLocalEvents (t : State) (len : Int) (pkt : Netpacket) : List Event :=
  if pkt.ipproto = ipUdp then
    match udpFind t.udptab pkt with
    | some _ => udpRecvEvents len pkt
    | none => []
  else if pkt.ipproto = ipIcmp then
    icmpInEvents t.icmptab len pkt
  else
    []

/-- A packet that arrives in a buffer, and is received into `len` bytes. -/
def received (t : State) (len : Int) (b : Chars) : List Event :=
  match ipInChecks b with
  | (es, none) => es
  | (es, some pkt) => es ++ if Accepted t.netData pkt then ipLocalEvents t len pkt else []

/-! ## Lengths that fit -/

/-- The total length of the datagram, and the length of the encapsulated UDP datagram. -/
def totalLength (b : Chars) : Nat :=
  (Xinu.ntohs (packetAt b).iplen).toNat

def datagramLength (b : Chars) : Nat :=
  (Xinu.ntohs (packetAt b).udplen).toNat

/-- The packet in the buffer is a ping that is answered, or a reply that is queued. -/
def Pings (t : State) (b : Chars) : Prop :=
  let pkt := hostOrder (packetAt b)
  PassesChecks (packetAt b) ∧ pkt.ipproto = ipIcmp ∧ Accepted t.netData pkt ∧
    (pkt.ictype = icmpEchoreqst ∨ Icmp.IsReplyTo t.icmptab pkt pkt.icident.toNat)

/-- The packet in the buffer is a datagram that is queued. -/
def Queues (t : State) (b : Chars) : Prop :=
  let pkt := hostOrder (packetAt b)
  PassesChecks (packetAt b) ∧ pkt.ipproto = ipUdp ∧ Accepted t.netData pkt ∧
    udpFind t.udptab pkt ≠ none

/-- The lengths in the headers fit the headers and the buffer. -/
structure LengthsFit (t : State) (len : Int) (b : Chars) : Prop where
  message : ipcksum (packetAt b) = 0 → (packetAt b).ipvh = 0x45 → (packetAt b).ipproto = ipIcmp →
    20 ≤ totalLength b ∧ totalLength b ≤ 1500
  ping : Pings t b → 28 ≤ totalLength b
  datagram : Queues t b → 8 ≤ datagramLength b ∧ (datagramLength b ≤ 1480 ∨ len ≤ 1472)

section Copies

variable {len : Int}

theorem copied_succ (src : Buffer) (s : Nat) (dst : Buffer) (d n : Nat) :
    copied src s dst d (n + 1) =
      .touched src s :: .touched dst d :: copied src (s + 1) dst (d + 1) n := by
  unfold copied
  rw [List.range_succ_eq_map, List.flatMap_cons, List.flatMap_map]
  refine congrArg (Event.touched src s :: Event.touched dst d :: ·) ?_
  refine List.flatMap_congr fun i _ => ?_
  rw [show s + Nat.succ i = s + 1 + i by omega, show d + Nat.succ i = d + 1 + i by omega]

/-- The loop of `icmp_recv` stops at the end of the data or of the buffer. -/
theorem icmpRecvLoop_eq (len : Int) (n i : Nat) :
    icmpRecvLoop len n i =
      (copied .packet (dataOffset + i) .caller i (min (n : Int) (len - i)).toNat,
        i + (min (n : Int) (len - i)).toNat) := by
  induction n generalizing i with
  | zero =>
      rw [show (min ((0 : Nat) : Int) (len - i)).toNat = 0 by omega]
      rfl
  | succ n ih =>
      rw [icmpRecvLoop]
      by_cases hstop : (i : Int) ≥ len
      · rw [if_pos hstop, show (min ((n + 1 : Nat) : Int) (len - i)).toNat = 0 by omega]
        rfl
      · have hcount : (min ((n + 1 : Nat) : Int) (len - i)).toNat =
            (min (n : Int) (len - (i + 1 : Nat))).toNat + 1 := by omega
        rw [if_neg hstop, ih, hcount, copied_succ]
        dsimp only
        rw [show i + 1 + (min (n : Int) (len - (i + 1 : Nat))).toNat =
          i + ((min (n : Int) (len - (i + 1 : Nat))).toNat + 1) by omega]
        rfl

/-- It makes as many turns as `icmp_recv` returns. -/
theorem icmpRecvLoop_snd (len : Int) (pkt : Netpacket) :
    (icmpRecvLoop len ((pkt.iplen.toNat : Int) - ipHdrLen - icmpHdrLen).toNat 0).2 =
      icmpCopied len pkt := by
  rw [icmpRecvLoop_eq]
  unfold icmpCopied
  dsimp only
  omega

theorem icmpMkpkt_inside_iff {n : Int} (h : 0 ≤ n) :
    (∀ e ∈ icmpMkpktEvents n, e.Inside len) ↔ n ≤ 1472 := by
  have hfields : ∀ e ∈ span .reply 6 36, e.Inside len :=
    (span_inside_iff .reply 6 36).mpr (Or.inr (show ((6 + 36 : Nat) : Int) ≤ packlen by decide))
  have hlength : Event.Inside len (.computed (ipHdrLen + icmpHdrLen + n)) := by
    show 0 ≤ (20 : Int) + 8 + n
    omega
  unfold icmpMkpktEvents
  rw [List.cons_append, List.forall_mem_cons, List.forall_mem_append, copied_inside_iff]
  show _ ∧ _ ∧ (n.toNat = 0 ∨ (((42 + n.toNat : Nat) : Int) ≤ (1514 : Nat) ∧
    ((42 + n.toNat : Nat) : Int) ≤ (1514 : Nat))) ↔ _
  constructor
  · rintro ⟨-, -, hcopy⟩
    omega
  · intro hn
    exact ⟨hlength, hfields, by omega⟩

theorem icmpRecv_inside_iff (pkt : Netpacket) (h : pkt.iplen.toNat ≤ 1500) :
    (∀ e ∈ icmpRecvEvents len pkt, e.Inside len) ↔ 28 ≤ pkt.iplen.toNat := by
  unfold icmpRecvEvents
  dsimp only
  rw [List.forall_mem_cons, icmpRecvLoop_eq, copied_inside_iff]
  show 0 ≤ (pkt.iplen.toNat : Int) - 20 - 8 ∧ (_ = 0 ∨ ((_ : Nat) : Int) ≤ (1514 : Nat) ∧ _ ≤ len) ↔ _
  unfold dataOffset ipHdrLen icmpHdrLen
  omega

theorem udpRecv_inside_iff (pkt : Netpacket) :
    (∀ e ∈ udpRecvEvents len pkt, e.Inside len) ↔
      8 ≤ pkt.udplen.toNat ∧ (pkt.udplen.toNat ≤ 1480 ∨ len ≤ 1472) := by
  unfold udpRecvEvents
  dsimp only
  rw [List.forall_mem_cons, copied_inside_iff]
  show 0 ≤ (pkt.udplen.toNat : Int) - 8 ∧ (_ = 0 ∨ ((_ : Nat) : Int) ≤ (1514 : Nat) ∧ _ ≤ len) ↔ _
  unfold dataOffset udpHdrLen
  split_ifs with hlen
  · omega
  · omega

/-- A ping that is answered and a reply that is queued need a whole header. -/
theorem icmpIn_inside_iff (tab : Nat → Icmpentry) (pkt : Netpacket) (h : pkt.iplen.toNat ≤ 1500) :
    (∀ e ∈ icmpInEvents tab len pkt, e.Inside len) ↔
      (pkt.ictype = icmpEchoreqst ∨ Icmp.IsReplyTo tab pkt pkt.icident.toNat →
        28 ≤ pkt.iplen.toNat) := by
  have hnone : ∀ e ∈ ([] : List Event), e.Inside len := fun e he => absurd he List.not_mem_nil
  unfold icmpInEvents Icmp.IsReplyTo
  dsimp only
  by_cases hrequest : pkt.ictype = icmpEchoreqst
  · rw [if_neg (fun hother => hother.2 hrequest), if_pos hrequest, List.forall_mem_cons]
    constructor
    · rintro ⟨hdata, -⟩ -
      replace hdata : 0 ≤ (pkt.iplen.toNat : Int) - 20 - 8 := hdata
      omega
    · intro hlen
      have hlen := hlen (Or.inl hrequest)
      have hdata : 0 ≤ (pkt.iplen.toNat : Int) - 20 - 8 := by omega
      exact ⟨hdata, (icmpMkpkt_inside_iff hdata).mpr (by omega)⟩
  · by_cases hreply : pkt.ictype = icmpEchoreply
    · rw [if_neg (fun hother => hother.1 hreply), if_neg hrequest]
      by_cases hslot : (pkt.icident.toNat : Int) ≥ icmpSlots
      · rw [if_pos hslot]
        simp only [hrequest, not_lt.mpr hslot, false_and, and_false, or_self, false_implies, iff_true]
        exact hnone
      · rw [if_neg hslot]
        by_cases hentry : (tab pkt.icident.toNat).icstate = .icmpFree ∨
            pkt.ipsrc ≠ (tab pkt.icident.toNat).icremip
        · rw [if_pos hentry]
          refine iff_of_true hnone fun hping => ?_
          rcases hping with hping | ⟨-, -, -, hused, hsrc⟩
          · exact absurd hping hrequest
          · rcases hentry with hfree | hother
            · exact absurd hfree hused
            · exact absurd hsrc hother
        · rw [if_neg hentry, icmpRecv_inside_iff pkt h]
          rw [not_or, not_not] at hentry
          simp [hreply, not_le.mp hslot, hentry.1, hentry.2]
    · rw [if_pos ⟨hreply, hrequest⟩]
      simp only [hrequest, hreply, false_and, or_self, false_implies, iff_true]
      exact hnone

/-- What is done with a packet that has passed the checks. -/
theorem ipLocal_inside_iff (t : State) (pkt : Netpacket)
    (h : pkt.ipproto = ipIcmp → pkt.iplen.toNat ≤ 1500) :
    (∀ e ∈ ipLocalEvents t len pkt, e.Inside len) ↔
      (pkt.ipproto = ipIcmp →
        pkt.ictype = icmpEchoreqst ∨ Icmp.IsReplyTo t.icmptab pkt pkt.icident.toNat →
          28 ≤ pkt.iplen.toNat) ∧
      (pkt.ipproto = ipUdp → udpFind t.udptab pkt ≠ none →
        8 ≤ pkt.udplen.toNat ∧ (pkt.udplen.toNat ≤ 1480 ∨ len ≤ 1472)) := by
  unfold ipLocalEvents
  by_cases hudp : pkt.ipproto = ipUdp
  · rw [if_pos hudp]
    cases hfind : udpFind t.udptab pkt with
    | none => simp [hudp, ipUdp_ne_ipIcmp]
    | some i => simp [hudp, ipUdp_ne_ipIcmp, udpRecv_inside_iff pkt]
  · rw [if_neg hudp]
    by_cases hicmp : pkt.ipproto = ipIcmp
    · rw [if_pos hicmp, icmpIn_inside_iff _ pkt (h hicmp)]
      simp [hicmp, ipUdp_ne_ipIcmp.symm]
    · rw [if_neg hicmp]
      simp [hicmp, hudp]

end Copies

section Checks

variable {len : Int} {b : Chars}

/-- A packet passes the checks if it passes those of `ip_in`, and is then in host byte order. -/
theorem ipInChecks_snd (b : Chars) :
    (ipInChecks b).2 =
      if PassesChecks (packetAt b) then some (hostOrder (packetAt b)) else none := by
  have hproto : (ipNtoh (packetAt b)).ipproto = (packetAt b).ipproto := rfl
  have hvh : (ipNtoh (packetAt b)).ipvh = (packetAt b).ipvh := rfl
  unfold ipInChecks PassesChecks Verifies hostOrder
  dsimp only
  rw [hproto, hvh, icmpCksumRun_fst]
  by_cases hcksum : ipcksum (packetAt b) = 0
  · by_cases hversion : (packetAt b).ipvh = 0x45
    · by_cases hudp : (packetAt b).ipproto = ipUdp
      · simp [hcksum, hversion, hudp, ipUdp_ne_ipIcmp]
      · by_cases hicmp : (packetAt b).ipproto = ipIcmp
        · by_cases hmessage : icmpCksum (ipNtoh (packetAt b))
              (((ipNtoh (packetAt b)).iplen.toNat : Int) - ipHdrLen) = 0
          · simp [hcksum, hversion, hicmp, hmessage, ipUdp_ne_ipIcmp.symm]
          · simp [hcksum, hversion, hicmp, hmessage, ipUdp_ne_ipIcmp.symm]
        · simp [hcksum, hversion, hudp, hicmp]
    · simp [hcksum, hversion]
  · simp [hcksum]

/-- The checksum of a message is computed inside the packet if its length fits. -/
theorem ipInChecks_inside_iff (b : Chars) :
    (∀ e ∈ (ipInChecks b).1, e.Inside len) ↔
      (ipcksum (packetAt b) = 0 → (packetAt b).ipvh = 0x45 → (packetAt b).ipproto = ipIcmp →
        20 ≤ totalLength b ∧ totalLength b ≤ 1500) := by
  have hproto : (ipNtoh (packetAt b)).ipproto = (packetAt b).ipproto := rfl
  have hvh : (ipNtoh (packetAt b)).ipvh = (packetAt b).ipvh := rfl
  have hlen : (ipNtoh (packetAt b)).iplen.toNat = totalLength b := rfl
  unfold ipInChecks
  dsimp only
  rw [hproto, hvh, hlen]
  by_cases hcksum : ipcksum (packetAt b) = 0
  · rw [if_neg (not_not.mpr hcksum)]
    by_cases hversion : (packetAt b).ipvh = 0x45
    · rw [if_neg (not_not.mpr hversion)]
      by_cases hudp : (packetAt b).ipproto = ipUdp
      · rw [if_pos hudp]
        simp [hudp, ipUdp_ne_ipIcmp]
      · rw [if_neg hudp]
        by_cases hicmp : (packetAt b).ipproto = ipIcmp
        · rw [if_pos hicmp, List.forall_mem_cons]
          simp only [hcksum, hversion, hicmp, true_implies]
          constructor
          · rintro ⟨hpos, hread⟩
            replace hpos : 0 ≤ (totalLength b : Int) - ipHdrLen := hpos
            rw [icmpCksumRun_snd b ictypeOffset hpos, span_inside_iff] at hread
            replace hread : _ ∨ ((34 + _ : Nat) : Int) ≤ (1514 : Nat) := hread
            unfold ipHdrLen at hpos hread
            omega
          · intro hfit
            have hpos : 0 ≤ (totalLength b : Int) - ipHdrLen := by
              unfold ipHdrLen
              omega
            refine ⟨hpos, ?_⟩
            rw [icmpCksumRun_snd b ictypeOffset hpos, span_inside_iff]
            show _ ∨ ((34 + _ : Nat) : Int) ≤ (1514 : Nat)
            unfold ipHdrLen
            omega
        · rw [if_neg hicmp]
          simp [hicmp]
    · rw [if_pos hversion]
      simp [hversion]
  · rw [if_pos hcksum]
    simp [hcksum]

theorem hostOrder_ipproto (p : Netpacket) : (hostOrder p).ipproto = p.ipproto := by
  unfold hostOrder
  split_ifs
  · rfl
  · rfl
  · rfl

theorem hostOrder_iplen (p : Netpacket) : (hostOrder p).iplen = Xinu.ntohs p.iplen := by
  unfold hostOrder
  split_ifs
  · rfl
  · rfl
  · rfl

theorem hostOrder_udplen {p : Netpacket} (h : p.ipproto = ipUdp) :
    (hostOrder p).udplen = Xinu.ntohs p.udplen := by
  unfold hostOrder
  rw [if_pos h]
  rfl

/--
A packet is processed inside the buffers exactly if its total length is that of an IP header and
a message that fits the packet, a ping has a whole header, and the length of a datagram includes
its header and does not exceed both the packet and the buffer of the caller.
-/
theorem received_inside_iff (t : State) (len : Int) (b : Chars) :
    (∀ e ∈ received t len b, e.Inside len) ↔ LengthsFit t len b := by
  have hchecks := @ipInChecks_inside_iff len b
  have hpacket := ipInChecks_snd b
  have hproto := hostOrder_ipproto (packetAt b)
  have hlen : (hostOrder (packetAt b)).iplen.toNat = totalLength b := by
    rw [hostOrder_iplen]
    rfl
  unfold received
  obtain ⟨⟨es, pkt⟩, hrun⟩ : ∃ r, ipInChecks b = r := ⟨_, rfl⟩
  rw [hrun] at hchecks hpacket ⊢
  dsimp only at hchecks hpacket
  subst hpacket
  by_cases hpasses : PassesChecks (packetAt b)
  · rw [if_pos hpasses]
    dsimp only
    rw [List.forall_mem_append, hchecks]
    by_cases haccepted : Accepted t.netData (hostOrder (packetAt b))
    · rw [if_pos haccepted]
      constructor
      · rintro ⟨hmessage, hlocal⟩
        rw [ipLocal_inside_iff t _ fun hicmp => by
          rw [hlen]
          exact (hmessage hpasses.1.1 hpasses.2 (hproto ▸ hicmp)).2, hlen] at hlocal
        refine ⟨hmessage, fun hping => hlocal.1 hping.2.1 hping.2.2.2, fun hqueued => ?_⟩
        have hfit := hlocal.2 hqueued.2.1 hqueued.2.2.2
        rw [hostOrder_udplen (hproto ▸ hqueued.2.1)] at hfit
        exact hfit
      · intro hfit
        refine ⟨hfit.message, ?_⟩
        rw [ipLocal_inside_iff t _ fun hicmp => by
          rw [hlen]
          exact (hfit.message hpasses.1.1 hpasses.2 (hproto ▸ hicmp)).2, hlen]
        refine ⟨fun hicmp hping => hfit.ping ⟨hpasses, hicmp, haccepted, hping⟩, fun hudp hfind => ?_⟩
        rw [hostOrder_udplen (hproto ▸ hudp)]
        exact hfit.datagram ⟨hpasses, hudp, haccepted, hfind⟩
    · rw [if_neg haccepted]
      exact ⟨fun h => ⟨h.1, fun hping => absurd hping.2.2.1 haccepted,
        fun hqueued => absurd hqueued.2.2.1 haccepted⟩,
        fun h => ⟨h.message, fun e he => absurd he List.not_mem_nil⟩⟩
  · rw [if_neg hpasses, hchecks]
    exact ⟨fun h => ⟨h, fun hping => absurd hping.1 hpasses, fun hqueued => absurd hqueued.1 hpasses⟩,
      fun h => h.message⟩

theorem mem_received_of_mem_checks {t : State} {e : Event} (h : e ∈ (ipInChecks b).1) :
    e ∈ received t len b := by
  unfold received
  obtain ⟨⟨es, pkt⟩, hrun⟩ : ∃ r, ipInChecks b = r := ⟨_, rfl⟩
  rw [hrun] at h ⊢
  cases pkt with
  | none => exact h
  | some pkt => exact List.mem_append_left _ h

end Checks

/-- A frame that begins with an IP header, the rest of which is zero. -/
def frameOf (header : List UInt8) (i : Nat) : UInt8 :=
  if i < 14 then 0 else chars header (i - 14)

/-- An ICMP message of 1980 bytes. -/
def longMessage : Chars :=
  frameOf [0x45, 0, 0x07, 0xD0, 0, 0, 0, 0, 64, 1, 0x5F, 0x2B, 10, 0, 0, 1, 10, 0, 0, 2]

/-- A UDP datagram of length zero. -/
def emptyDatagram : Chars :=
  frameOf [0x45, 0, 0, 28, 0, 0, 0, 0, 64, 17, 0x70, 0xD1, 10, 0, 0, 1, 255, 255, 255, 255]

/-- One endpoint is registered, which takes every datagram to port 0. -/
def anyRemote : State :=
  let t := bootNet smallBoard
  { t with udptab := update t.udptab 0 (udpOpened 0 0 0 (t.udptab 0)) }

/-- The checksum of the message is computed from bytes behind the buffer, and the length of the
data in the datagram is -8. -/
theorem leaves_buffers :
    (∃ e ∈ received anyRemote 1500 longMessage, ¬ e.Inside 1500) ∧
      Event.computed (-8) ∈ received anyRemote 1500 emptyDatagram ∧
      ¬ (Event.computed (-8)).Inside 1500 := by
  have hlong : ¬ ∀ e ∈ (ipInChecks longMessage).1, e.Inside 1500 := by
    rw [ipInChecks_inside_iff]
    decide +kernel
  refine ⟨?_, by decide +kernel, by decide⟩
  obtain ⟨e, he, houtside⟩ : ∃ e ∈ (ipInChecks longMessage).1, ¬ e.Inside 1500 := by
    simpa only [not_forall, exists_prop] using hlong
  exact ⟨e, mem_received_of_mem_checks he, houtside⟩

end PacketBounds
end Net
end Xinu
