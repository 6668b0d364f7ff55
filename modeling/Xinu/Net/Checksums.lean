import Xinu.Net.Ip
import Xinu.Foundations.OnesComplement

/-!
# Checksums of IP and ICMP

The words of a header or a message are added in 32 bits, and the carries are added once.

Main results:

- Theorem `checksums`: the checksums are those of the one's-complement sum if and only if one
  addition of the carries is enough; what an outgoing packet needs to be accepted.
- Theorem `ipIn_run`: what `ip_in` verifies before it delivers a packet.
-/

namespace Xinu
namespace Net

open Foundations Function

/-! ## Words -/

section Words

theorem or_bytes {a b : Nat} (hb : b < 256) : a * 256 ||| b = a * 256 + b := by
  have h := Nat.shiftLeft_add_eq_or_of_lt (show b < 2 ^ 8 from hb) a
  rw [Nat.shiftLeft_eq] at h
  exact h.symm

theorem leWord_toNat (lo hi : UInt8) : (leWord lo hi).toNat = hi.toNat * 256 + lo.toNat := by
  have hlo := lo.toNat_lt
  have hhi := hi.toNat_lt
  have hshift : (hi.toUInt16 <<< 8).toNat = hi.toNat * 256 := by
    rw [UInt16.toNat_shiftLeft, UInt8.toNat_toUInt16, Nat.shiftLeft_eq]
    show hi.toNat * 256 % 65536 = _
    omega
  unfold leWord
  rw [UInt16.toNat_or, hshift, UInt8.toNat_toUInt16, Nat.or_comm, or_bytes hlo]

theorem htons_toNat (x : UInt16) : (Xinu.htons x).toNat = x.toNat % 256 * 256 + x.toNat / 256 := by
  have hx := x.toNat_lt
  have hleft : (x <<< 8).toNat = x.toNat % 256 * 256 := by
    rw [UInt16.toNat_shiftLeft, Nat.shiftLeft_eq]
    show x.toNat * 256 % 65536 = _
    omega
  have hright : (x >>> 8).toNat = x.toNat / 256 := by
    rw [UInt16.toNat_shiftRight, Nat.shiftRight_eq_div_pow]
    rfl
  unfold Xinu.htons
  rw [UInt16.toNat_or, hleft, hright, or_bytes (by omega)]

theorem htons_htons (x : UInt16) : Xinu.htons (Xinu.htons x) = x := by
  have hx := x.toNat_lt
  rw [← UInt16.toNat_inj, htons_toNat, htons_toNat]
  omega

theorem ntohs_leWord (a b : UInt8) : Xinu.ntohs (leWord a b) = netWord a b := by
  have ha := a.toNat_lt
  have hb := b.toNat_lt
  unfold Xinu.ntohs
  rw [← UInt16.toNat_inj, htons_toNat, leWord_toNat, netWord_toNat]
  omega

theorem foldCksum_toNat (x : UInt32) : (foldCksum x).toNat = 65535 - foldOnce x.toNat := by
  have hx := x.toNat_lt
  have hright : (x >>> (16 : UInt32)).toNat = x.toNat / 65536 := by
    rw [UInt32.toNat_shiftRight, Nat.shiftRight_eq_div_pow]
    rfl
  have hmask : ∀ n, (0xFFFF : UInt32).toNat &&& n = n % 65536 := by
    intro n
    rw [Nat.and_comm]
    exact Nat.and_two_pow_sub_one_eq_mod n 16
  unfold foldCksum
  dsimp only
  rw [UInt32.toNat_and, UInt32.toNat_not, UInt32.toNat_add, hright, hmask]
  unfold foldOnce
  show (4294967296 - 1 - (x.toNat + x.toNat / 65536) % 4294967296) % 65536 = _
  omega

/-- A loop that adds words in 32 bits. -/
theorem foldl_words (ws : List UInt16) (f : UInt16 → UInt16) (x : UInt32) :
    (ws.foldl (fun sum w => sum + (f w).toUInt32) x).toNat =
      (x.toNat + wordSum (ws.map f)) % 0x100000000 := by
  induction ws generalizing x with
  | nil => exact (Nat.mod_eq_of_lt x.toNat_lt).symm
  | cons w ws ih =>
      rw [List.foldl_cons, ih, List.map_cons, wordSum_cons, UInt32.toNat_add,
        UInt16.toNat_toUInt32]
      show ((x.toNat + (f w).toNat) % 0x100000000 + _) % _ = _
      omega

end Words

/-! ## The checksum of a header -/

/-- The words of the IP header, in network byte order. -/
def headerWords (p : Netpacket) : List UInt16 :=
  (ipWords p).map Xinu.htons

section Header

variable {p : Netpacket}

theorem headerSum_le (p : Netpacket) : wordSum (headerWords p) ≤ 655350 :=
  wordSum_le (headerWords p)

theorem ipcksum_toNat (p : Netpacket) : (ipcksum p).toNat =
    if foldOnce (wordSum (headerWords p)) = 0 then 0 else 65535 - foldOnce (wordSum (headerWords p))
      := by
  have hle := headerSum_le p
  have hsum := foldl_words (ipWords p) Xinu.htons 0
  rw [UInt32.toNat_zero, Nat.zero_add, Nat.mod_eq_of_lt (by show wordSum (headerWords p) < _; omega)]
    at hsum
  have hfold := foldCksum_toNat ((ipWords p).foldl (fun sum w => sum + (Xinu.htons w).toUInt32) 0)
  rw [hsum] at hfold
  have hlt := foldOnce_lt (wordSum (headerWords p))
  change _ = 65535 - foldOnce (wordSum (headerWords p)) at hfold
  unfold ipcksum
  dsimp only
  generalize foldCksum _ = c at hfold
  have hc : c = 0xFFFF ↔ foldOnce (wordSum (headerWords p)) = 0 := by
    rw [← UInt32.toNat_inj, hfold]
    show 65535 - _ = 65535 ↔ _
    omega
  by_cases hzero : foldOnce (wordSum (headerWords p)) = 0
  · rw [if_pos (hc.mpr hzero), if_pos hzero]
    rfl
  · rw [if_neg (mt hc.mp hzero), if_neg hzero, UInt32.toNat_toUInt16, hfold]
    omega

/-- The checksum of a header is right if and only if one addition of the carries is enough. -/
theorem ipcksum_iff (p : Netpacket) :
    SameOnes (ipcksum p) (onesChecksum (headerWords p)) ↔ CarriesOnce (wordSum (headerWords p)) := by
  have hle := headerSum_le p
  have hlt := foldOnce_lt (wordSum (headerWords p))
  have hlen : (headerWords p).length ≤ 0x40000000 := by
    show 10 ≤ 0x40000000
    decide
  have hwide : wordSum (headerWords p) % 0x100000000 = wordSum (headerWords p) :=
    Nat.mod_eq_of_lt (by omega)
  apply foldedChecksum_iff hlen
  rw [ipcksum_toNat, hwide]
  split
  · next hzero => rw [hzero]
  · rfl

theorem ipcksum_eq_zero_iff : ipcksum p = 0 ↔
    foldOnce (wordSum (headerWords p)) = 0 ∨ foldOnce (wordSum (headerWords p)) = 65535 := by
  have hlt := foldOnce_lt (wordSum (headerWords p))
  rw [← UInt16.toNat_inj, ipcksum_toNat, UInt16.toNat_zero]
  split
  · next hzero => simp [hzero]
  · omega

/-- A header is accepted whose sum is a zero, and no other one, unless the low half of the
sum and its carries are one more than a word holds. -/
theorem accepts_only_zero (p : Netpacket) :
    (ipcksum p = 0 → IsZero (onesSum (headerWords p))) ↔
      wordSum (headerWords p) % 65536 + wordSum (headerWords p) / 65536 ≠ 65536 := by
  have hle := headerSum_le p
  rw [ipcksum_eq_zero_iff, isZero_iff, onesSum_mod]
  generalize wordSum (headerWords p) = s at hle
  by_cases honce : CarriesOnce s
  · rw [honce.foldOnce_eq]
    unfold CarriesOnce at honce
    omega
  · have hfold := foldOnce_of_not (by omega) honce
    unfold CarriesOnce at honce
    omega

/-- The checksum that is filled in makes the header acceptable, even if a carry is lost. -/
theorem filled_accepted {s : Nat} (hs : s ≤ 589815) :
    foldOnce (s + if foldOnce s = 0 then 0 else 65535 - foldOnce s) = 0 ∨
      foldOnce (s + if foldOnce s = 0 then 0 else 65535 - foldOnce s) = 65535 := by
  split
  · next hzero => exact Or.inl hzero
  · by_cases honce : CarriesOnce s
    · exact Or.inr honce.filled
    · exact Or.inl (filled_of_not (by omega) honce)

end Header

/-! ## The checksum of a buffer -/

/-- `icmp_cksum` for the bytes of any buffer. -/
def bufferCksum (buf : Nat → UInt8) (buflen : Int) : UInt16 :=
  let scount := (buflen / 2).toNat
  let words := (List.range scount).map fun k => leWord (buf (2 * k)) (buf (2 * k + 1))
  let cksum := words.foldl (fun sum w => sum + (Xinu.ntohs w).toUInt32) 0
  let cksum :=
    if buflen % 2 ≠ 0 then cksum + ((buf (2 * scount)).toUInt32 <<< (8 : UInt32)) else cksum
  (foldCksum cksum).toUInt16

theorem icmpCksum_eq (p : Netpacket) (buflen : Int) :
    icmpCksum p buflen = bufferCksum (icmpByte p) buflen :=
  rfl

/-- The words of the first `n` bytes, in network byte order. -/
def bufferWords (buf : Nat → UInt8) (n : Nat) : List UInt16 :=
  networkWords ((List.range n).map buf)

section Buffer

variable {buf : Nat → UInt8} {n : Nat}

theorem toNat_foldCksum_toUInt16 (x : UInt32) :
    (foldCksum x).toUInt16.toNat = 65535 - foldOnce x.toNat := by
  rw [UInt32.toNat_toUInt16, foldCksum_toNat]
  omega

/-- The last byte is the high one of a word. -/
theorem toNat_shift (x : UInt8) : (x.toUInt32 <<< (8 : UInt32)).toNat = x.toNat * 256 := by
  have hx := x.toNat_lt
  rw [UInt32.toNat_shiftLeft, UInt8.toNat_toUInt32, Nat.shiftLeft_eq]
  show x.toNat * 256 % 4294967296 = _
  omega

theorem bufferCksum_toNat (buf : Nat → UInt8) (n : Nat) : (bufferCksum buf n).toNat =
    65535 - foldOnce (wordSum (bufferWords buf n) % 0x100000000) := by
  have hscount : ((n : Int) / 2).toNat = n / 2 := by omega
  have hodd : (n : Int) % 2 ≠ 0 ↔ n % 2 ≠ 0 := by omega
  have hwords : ((List.range (n / 2)).map fun k =>
      leWord (buf (2 * k)) (buf (2 * k + 1))).map Xinu.ntohs =
      (List.range (n / 2)).map fun k => netWord (buf (2 * k)) (buf (2 * k + 1)) := by
    rw [List.map_map]
    exact List.map_congr_left fun k _ => ntohs_leWord _ _
  have hsum := foldl_words
    ((List.range (n / 2)).map fun k => leWord (buf (2 * k)) (buf (2 * k + 1))) Xinu.ntohs 0
  rw [hwords, UInt32.toNat_zero, Nat.zero_add] at hsum
  unfold bufferCksum bufferWords
  dsimp only
  rw [hscount, toNat_foldCksum_toUInt16, networkWords_range, wordSum_append]
  by_cases hlast : n % 2 ≠ 0
  · have hzero : wordSum [netWord (buf (2 * (n / 2))) 0] = (buf (2 * (n / 2))).toNat * 256 := by
      rw [wordSum_cons, wordSum_nil, netWord_toNat, UInt8.toNat_zero, Nat.add_zero]
    rw [if_pos (hodd.mpr hlast), if_pos hlast, UInt32.toNat_add, hsum, toNat_shift, hzero]
    show 65535 - foldOnce ((_ % 4294967296 + _) % 4294967296) = _
    rw [Nat.mod_add_mod]
  · rw [if_neg (mt hodd.mp hlast), if_neg hlast, hsum]
    rfl

/-- The checksum of a buffer is right if and only if one addition of the carries is enough. -/
theorem bufferCksum_iff (hn : n < 0x80000000) :
    SameOnes (bufferCksum buf n) (onesChecksum (bufferWords buf n)) ↔
      CarriesOnce (wordSum (bufferWords buf n)) := by
  have hlen : (bufferWords buf n).length ≤ n / 2 + 1 := length_networkWords_range buf n
  apply foldedChecksum_iff
  · omega
  · rw [bufferCksum_toNat]

theorem bufferCksum_eq_zero_iff : bufferCksum buf n = 0 ↔
    foldOnce (wordSum (bufferWords buf n) % 0x100000000) = 65535 := by
  have hlt := foldOnce_lt (wordSum (bufferWords buf n) % 0x100000000)
  rw [← UInt16.toNat_inj, bufferCksum_toNat, UInt16.toNat_zero]
  omega

/-- A message of one byte at most is not accepted. -/
theorem bufferCksum_short {buflen : Int} (h : buflen ≤ 1) : bufferCksum buf buflen ≠ 0 := by
  have hx := (buf 0).toNat_lt
  have hscount : (buflen / 2).toNat = 0 := by omega
  intro hzero
  have hnat := congrArg UInt16.toNat hzero
  unfold bufferCksum at hnat
  dsimp only at hnat
  rw [hscount, toNat_foldCksum_toUInt16, UInt16.toNat_zero] at hnat
  have hsmall : ∀ y : UInt32, y.toNat ≤ 65280 → 65535 - foldOnce y.toNat ≠ 0 := by
    intro y hy
    rw [foldOnce_of_lt (by omega)]
    omega
  split at hnat
  · apply hsmall _ _ hnat
    rw [UInt32.toNat_add, toNat_shift]
    show (0 + (buf 0).toNat * 256) % 4294967296 ≤ 65280
    omega
  · exact hsmall 0 (Nat.zero_le _) hnat

end Buffer

/-! ## A packet that is sent and received -/

/-- The checksums of a packet in network byte order are those that `ip_in` wants. -/
def Verifies (p : Netpacket) : Prop :=
  ipcksum p = 0 ∧
    (p.ipproto = ipIcmp → icmpCksum (ipNtoh p) (((ipNtoh p).iplen.toNat : Int) - ipHdrLen) = 0)

instance (p : Netpacket) : Decidable (Verifies p) :=
  inferInstanceAs (Decidable (_ ∧ (_ → _)))

/-- The ICMP message of an outgoing packet, before its checksum is computed. -/
def icmpOutgoing (p : Netpacket) : Netpacket :=
  { icmpHton p with iccksum := 0 }

/-- The sum of an outgoing message needs one addition of the carries at most; a message that is
too short for its checksum has the sum of all ones by itself. -/
def MessageFits (p : Netpacket) : Prop :=
  if 24 ≤ p.iplen.toNat then
    CarriesOnce (wordSum (bufferWords (icmpByte (icmpOutgoing p)) (p.iplen.toNat - 20)))
  else
    p.iplen.toNat = 22 ∧ p.ictype = 0xFF ∧ p.iccode = 0xFF ∨
      p.iplen.toNat = 23 ∧ p.iccode = 0xFF

instance (p : Netpacket) : Decidable (MessageFits p) :=
  inferInstanceAs (Decidable (ite _ _ _))

section Filled

variable {p q : Netpacket} {n : Nat}

theorem icmpByte_iccksum (p : Netpacket) (x : UInt16) (i : Nat) :
    icmpByte { p with iccksum := x } (i + 4) = icmpByte p (i + 4) := by
  match i with
  | 0 | 1 | 2 | 3 | _ + 4 => rfl

theorem lowByte_toNat (x : UInt16) : (lowByte x).toNat = x.toNat % 256 :=
  UInt16.toNat_toUInt8 x

theorem highByte_toNat (x : UInt16) : (highByte x).toNat = x.toNat / 256 := by
  have hx := x.toNat_lt
  unfold highByte
  rw [UInt16.toNat_toUInt8, UInt16.toNat_shiftRight, Nat.shiftRight_eq_div_pow]
  show x.toNat / 256 % 256 = _
  omega

theorem netWord_bytes (x : UInt16) : netWord (lowByte x) (highByte x) = Xinu.htons x := by
  rw [← UInt16.toNat_inj, netWord_toNat, htons_toNat, lowByte_toNat, highByte_toNat]

theorem bufferWords_four (buf : Nat → UInt8) (n : Nat) : bufferWords buf (n + 4) =
    netWord (buf 0) (buf 1) :: netWord (buf 2) (buf 3) :: bufferWords (fun i => buf (i + 4)) n := by
  have hrange : (List.range (n + 4)).map buf = buf 0 :: buf 1 :: buf 2 :: buf 3 ::
      (List.range n).map fun i => buf (i + 4) := by
    simp [List.range_succ_eq_map, Function.comp_def]
  unfold bufferWords
  rw [hrange, networkWords, networkWords]

/-- The checksum is one of the words of its message. -/
theorem bufferWords_filled (p : Netpacket) (x : UInt16) (n : Nat) :
    wordSum (bufferWords (icmpByte { p with iccksum := x }) (n + 4)) =
      wordSum (bufferWords (icmpByte { p with iccksum := 0 }) (n + 4)) + (Xinu.htons x).toNat := by
  have hrest : ∀ y : UInt16, (fun i => icmpByte { p with iccksum := y } (i + 4)) =
      fun i => icmpByte p (i + 4) := fun y => funext fun i => icmpByte_iccksum p y i
  have hzero : (Xinu.htons 0).toNat = 0 := rfl
  rw [bufferWords_four, bufferWords_four, hrest x, hrest 0, wordSum_cons, wordSum_cons, wordSum_cons,
    wordSum_cons]
  show _ + ((netWord (lowByte x) (highByte x)).toNat + _) =
    _ + ((netWord (lowByte 0) (highByte 0)).toNat + _) + _
  rw [netWord_bytes, netWord_bytes, hzero]
  show (netWord p.ictype p.iccode).toNat + _ = (netWord p.ictype p.iccode).toNat + _ + _
  omega

theorem headerWords_filled (p : Netpacket) (x : UInt16) :
    wordSum (headerWords { p with ipcksum := x }) =
      wordSum (headerWords { p with ipcksum := 0 }) + (Xinu.htons x).toNat := by
  have hzero : (Xinu.htons 0).toNat = 0 := rfl
  unfold headerWords ipWords
  simp only [List.map_cons, List.map_nil, wordSum_cons, wordSum_nil, hzero]
  omega

/-- The header of an outgoing packet is accepted. -/
theorem header_verifies (p : Netpacket) :
    ipcksum { p with ipcksum := Xinu.htons (ipcksum { p with ipcksum := 0 }) } = 0 := by
  have hfull := headerWords_filled p 0xFFFF
  have hle := headerSum_le { p with ipcksum := 0xFFFF }
  have hones : (Xinu.htons 0xFFFF).toNat = 65535 := rfl
  rw [ipcksum_eq_zero_iff, headerWords_filled, htons_htons, ipcksum_toNat]
  apply filled_accepted
  omega

/-- The message of an outgoing packet is accepted if and only if one addition of the carries is
enough. -/
theorem message_verifies (hlen : 24 ≤ p.iplen.toNat) (hq : q = icmpOutgoing p) :
    bufferCksum (icmpByte { q with iccksum := Xinu.htons (bufferCksum (icmpByte q)
      ((p.iplen.toNat - 20 : Nat) : Int)) }) ((p.iplen.toNat - 20 : Nat) : Int) = 0 ↔
        CarriesOnce (wordSum (bufferWords (icmpByte q) (p.iplen.toNat - 20))) := by
  have hlt := p.iplen.toNat_lt
  have hsame : { q with iccksum := 0 } = q := by rw [hq]; rfl
  obtain ⟨n, hn⟩ : ∃ n, p.iplen.toNat - 20 = n + 4 := ⟨p.iplen.toNat - 24, by omega⟩
  have hwords : (bufferWords (icmpByte q) (n + 4)).length ≤ (n + 4) / 2 + 1 :=
    length_networkWords_range _ _
  have hle := wordSum_le (bufferWords (icmpByte q) (n + 4))
  rw [bufferCksum_eq_zero_iff, hn, bufferWords_filled, hsame, htons_htons, bufferCksum_toNat]
  generalize wordSum (bufferWords (icmpByte q) (n + 4)) = s at hle
  have hfold := foldOnce_lt s
  rw [Nat.mod_eq_of_lt (show s < 0x100000000 by omega), Nat.mod_eq_of_lt (by omega)]
  by_cases honce : CarriesOnce s
  · simp only [honce, iff_true]
    exact honce.filled
  · simp only [honce, iff_false]
    rw [filled_of_not (by omega) honce]
    exact Nat.zero_ne_add_one 65534

/-- A message without a checksum of its own. -/
theorem short_verifies (hlen : p.iplen.toNat < 24) (x : UInt16)
    (hx : x = Xinu.htons (bufferCksum (icmpByte (icmpOutgoing p)) ((p.iplen.toNat : Int) - 20))) :
    bufferCksum (icmpByte { icmpOutgoing p with iccksum := x }) ((p.iplen.toNat : Int) - 20) = 0 ↔
      p.iplen.toNat = 22 ∧ p.ictype = 0xFF ∧ p.iccode = 0xFF ∨
        p.iplen.toNat = 23 ∧ p.iccode = 0xFF := by
  have ht := p.ictype.toNat_lt
  have hc := p.iccode.toNat_lt
  have hones : ∀ a : UInt8, a = 0xFF ↔ a.toNat = 255 := fun a => UInt8.toNat_inj.symm
  have htwo : ∀ buf, bufferWords buf 2 = [netWord (buf 0) (buf 1)] := fun _ => rfl
  have hthree : ∀ buf, bufferWords buf 3 = [netWord (buf 0) (buf 1), netWord (buf 2) 0] :=
    fun _ => rfl
  rw [hones, hones]
  by_cases hshort : p.iplen.toNat ≤ 21
  · have hle : (p.iplen.toNat : Int) - 20 ≤ 1 := by omega
    have hnot := @bufferCksum_short (icmpByte { icmpOutgoing p with iccksum := x }) _ hle
    simp only [hnot, false_iff]
    omega
  have htype : ∀ y, icmpByte { icmpOutgoing p with iccksum := y } 0 = p.ictype := fun _ => rfl
  have hcode : ∀ y, icmpByte { icmpOutgoing p with iccksum := y } 1 = p.iccode := fun _ => rfl
  have hword : ∀ y, icmpByte { icmpOutgoing p with iccksum := y } 2 = lowByte y := fun _ => rfl
  by_cases heven : p.iplen.toNat = 22
  · have hn : (p.iplen.toNat : Int) - 20 = (2 : Nat) := by omega
    rw [hn, bufferCksum_eq_zero_iff, htwo, wordSum_cons, wordSum_nil, netWord_toNat, htype, hcode,
      foldOnce_short (by omega)]
    omega
  · have hn : (p.iplen.toNat : Int) - 20 = (3 : Nat) := by omega
    have hlow : (lowByte 0).toNat = 0 := rfl
    have hsum : ∀ y, wordSum (bufferWords (icmpByte { icmpOutgoing p with iccksum := y }) 3) =
        p.ictype.toNat * 256 + p.iccode.toNat + (lowByte y).toNat * 256 := by
      intro y
      rw [hthree, wordSum_cons, wordSum_cons, wordSum_nil, netWord_toNat, netWord_toNat, htype,
        hcode, hword, UInt8.toNat_zero, Nat.add_zero]
    -- the high byte of the checksum is the last byte of the message
    have hlast : (lowByte x).toNat = 255 - p.ictype.toNat := by
      have hzero := hsum 0
      rw [hlow] at hzero
      rw [lowByte_toNat, hx, htons_toNat, hn, bufferCksum_toNat]
      change wordSum (bufferWords (icmpByte (icmpOutgoing p)) 3) = _ at hzero
      rw [hzero, foldOnce_short (by omega)]
      generalize hcksum : 65535 - (p.ictype.toNat * 256 + p.iccode.toNat + 0 * 256) = c
      have hhigh : c / 256 = 255 - p.ictype.toNat := by omega
      rw [hhigh]
      omega
    rw [hn, bufferCksum_eq_zero_iff, hsum, hlast, foldOnce_short (by omega)]
    omega

/-- What an outgoing packet needs to be accepted. -/
theorem ipFinish_verifies (p : Netpacket) :
    Verifies (ipFinish p) ↔ (p.ipproto = ipIcmp → MessageFits p) := by
  have hheader : ipcksum (ipFinish p) = 0 := by
    unfold ipFinish
    exact header_verifies _
  have hproto : (ipFinish p).ipproto = p.ipproto := by
    unfold ipFinish
    dsimp only
    split
    · rfl
    · split
      · rfl
      · rfl
  unfold Verifies
  rw [hheader, hproto]
  simp only [true_and]
  apply imp_congr_right
  intro hicmp
  have hudp : p.ipproto ≠ ipUdp := by
    rw [hicmp]
    decide
  have hfinish : ∃ x, x = Xinu.htons (bufferCksum (icmpByte (icmpOutgoing p))
      ((p.iplen.toNat : Int) - 20)) ∧
      icmpByte (ipNtoh (ipFinish p)) = icmpByte { icmpOutgoing p with iccksum := x } ∧
        (ipNtoh (ipFinish p)).iplen = Xinu.ntohs (Xinu.htons p.iplen) := by
    refine ⟨_, rfl, ?_, ?_⟩
    · unfold ipFinish
      rw [if_neg hudp, if_pos hicmp]
      rfl
    · unfold ipFinish
      rw [if_neg hudp, if_pos hicmp]
      rfl
  obtain ⟨x, hx, hbytes, hiplen⟩ := hfinish
  have hlen : (ipNtoh (ipFinish p)).iplen = p.iplen := hiplen.trans (htons_htons p.iplen)
  rw [icmpCksum_eq, hbytes, hlen]
  unfold MessageFits
  split
  · next hlong =>
      have hcast : (p.iplen.toNat : Int) - 20 = ((p.iplen.toNat - 20 : Nat) : Int) := by omega
      show bufferCksum _ ((p.iplen.toNat : Int) - 20) = 0 ↔ _
      rw [hx, hcast]
      exact message_verifies hlong rfl
  · next hshort => exact short_verifies (by omega) x hx

end Filled

/-! ## What `ip_in` does -/

section Delivery

variable {t : State} {buf : Nat}

/-- The packet in host byte order. -/
def hostOrder (p : Netpacket) : Netpacket :=
  if p.ipproto = ipUdp then udpNtoh (ipNtoh p)
  else if p.ipproto = ipIcmp then icmpNtoh (ipNtoh p)
  else ipNtoh p

/-- The buffer holds the packet `p`. -/
def State.putPacket (t : State) (buf : Nat) (p : Netpacket) : State :=
  { t with packets := update t.packets buf p }

theorem putPacket_putPacket (t : State) (buf : Nat) (p q : Netpacket) :
    (t.putPacket buf p).putPacket buf q = t.putPacket buf q := by
  unfold State.putPacket
  dsimp only
  rw [update_idem]

/-- The packet has what `ip_in` verifies: the checksums and the version. -/
def PassesChecks (p : Netpacket) : Prop :=
  Verifies p ∧ p.ipvh = 0x45

instance (p : Netpacket) : Decidable (PassesChecks p) :=
  inferInstanceAs (Decidable (_ ∧ _))

/-- The packet is dropped. -/
def Dropped (buf : Nat) (t : State) : Prop :=
  ∃ t' : State, t'.cpu = t.cpu ∧ t'.pools = t.pools ∧
    ipIn buf t = (freebuf buf >>= fun _ => pure () : NetM Unit) t'

/-- The packet is delivered in host byte order. -/
def ToThisHost (buf : Nat) (t : State) : Prop :=
  ipIn buf t = ipDeliver buf (t.putPacket buf (hostOrder (t.packets buf)))

/-- `ip_in`, from where the header is in host byte order. -/
def ipInHost (buf : Nat) : NetM Unit := do
  let pkt := (← get).packets buf
  if pkt.ipvh ≠ 0x45 then
    let _ ← freebuf buf
  else if pkt.ipproto = ipUdp then
    setPacket buf udpNtoh
    ipDeliver buf
  else if pkt.ipproto = ipIcmp then
    if icmpCksum pkt ((pkt.iplen.toNat : Int) - ipHdrLen) ≠ 0 then
      let _ ← freebuf buf
    else
      setPacket buf icmpNtoh
      ipDeliver buf
  else
    ipDeliver buf

theorem ipIn_eq (buf : Nat) (t : State) : ipIn buf t =
    if ipcksum (t.packets buf) ≠ 0 then (freebuf buf >>= fun _ => pure () : NetM Unit) t
    else ipInHost buf (t.putPacket buf (ipNtoh (t.packets buf))) := by
  unfold ipIn
  rw [Coop.run_bind, Coop.run_get, Flow.bind_done, Coop.run_ite]
  rfl

theorem ipInHost_eq (buf : Nat) (t : State) : ipInHost buf t =
    if (t.packets buf).ipvh ≠ 0x45 then (freebuf buf >>= fun _ => pure () : NetM Unit) t
    else if (t.packets buf).ipproto = ipUdp then
      ipDeliver buf (t.putPacket buf (udpNtoh (t.packets buf)))
    else if (t.packets buf).ipproto = ipIcmp then
      if icmpCksum (t.packets buf) (((t.packets buf).iplen.toNat : Int) - ipHdrLen) ≠ 0 then
        (freebuf buf >>= fun _ => pure () : NetM Unit) t
      else
        ipDeliver buf (t.putPacket buf (icmpNtoh (t.packets buf)))
    else
      ipDeliver buf t := by
  unfold ipInHost
  rw [Coop.run_bind, Coop.run_get, Flow.bind_done, Coop.run_ite, Coop.run_ite, Coop.run_ite,
    Coop.run_ite]
  rfl

/-- A packet is delivered if its checksums and its version are right, and dropped otherwise. -/
theorem ipIn_run (buf : Nat) (t : State) :
    (PassesChecks (t.packets buf) → ToThisHost buf t) ∧
      (¬ PassesChecks (t.packets buf) → Dropped buf t) := by
  unfold ToThisHost Dropped PassesChecks Verifies hostOrder
  rw [ipIn_eq]
  obtain ⟨p, hp⟩ : ∃ p, t.packets buf = p := ⟨_, rfl⟩
  obtain ⟨t', ht'⟩ : ∃ t', t.putPacket buf (ipNtoh p) = t' := ⟨_, rfl⟩
  have hpacket : t'.packets buf = ipNtoh p := by
    rw [← ht']
    exact update_self _ _ _
  have hput : ∀ q, t'.putPacket buf q = t.putPacket buf q := by
    intro q
    rw [← ht']
    exact putPacket_putPacket t buf _ q
  have hcpu : t'.cpu = t.cpu := by rw [← ht']; rfl
  have hpools : t'.pools = t.pools := by rw [← ht']; rfl
  have hproto : (ipNtoh p).ipproto = p.ipproto := rfl
  have hvh : (ipNtoh p).ipvh = p.ipvh := rfl
  rw [hp, ht', ipInHost_eq, hpacket, hput, hput, hproto, hvh]
  by_cases hcksum : ipcksum p = 0
  · rw [if_neg (not_not.mpr hcksum)]
    by_cases hversion : p.ipvh = 0x45
    · rw [if_neg (not_not.mpr hversion)]
      by_cases hudp : p.ipproto = ipUdp
      · have hicmp : p.ipproto ≠ ipIcmp := by
          rw [hudp]
          decide
        rw [if_pos hudp, if_pos hudp]
        simp [hcksum, hversion, hicmp]
      · rw [if_neg hudp, if_neg hudp]
        by_cases hicmp : p.ipproto = ipIcmp
        · rw [if_pos hicmp, if_pos hicmp]
          by_cases hmessage : icmpCksum (ipNtoh p) (((ipNtoh p).iplen.toNat : Int) - ipHdrLen) = 0
          · rw [if_neg (not_not.mpr hmessage)]
            simp [hcksum, hversion, hmessage]
          · rw [if_pos hmessage]
            refine ⟨fun h => absurd (h.1.2 hicmp) hmessage, fun _ => ⟨t', hcpu, hpools, rfl⟩⟩
        · rw [if_neg hicmp, if_neg hicmp, ← ht']
          simp [hcksum, hversion, hicmp]
    · rw [if_pos hversion]
      exact ⟨fun h => absurd h.2 hversion, fun _ => ⟨t', hcpu, hpools, rfl⟩⟩
  · rw [if_pos hcksum]
    exact ⟨fun h => absurd h.1.1 hcksum, fun _ => ⟨t, rfl, rfl, rfl⟩⟩

end Delivery

/-! ## The checksums -/

/--
The checksums of a header and of a buffer are those of the one's-complement sum exactly if one
addition of the carries is enough.  An outgoing packet is always accepted but for an ICMP message
that needs a second addition, or that has no room for its checksum.  A header whose sum is not
zero is accepted exactly if its low half and its carries are one more than a word holds.
-/
theorem checksums (p : Netpacket) (data : Nat → UInt8) (n : Nat) :
    (SameOnes (ipcksum p) (onesChecksum (headerWords p)) ↔
      CarriesOnce (wordSum (headerWords p))) ∧
    (n < 0x80000000 →
      (SameOnes (bufferCksum data n) (onesChecksum (bufferWords data n)) ↔
        CarriesOnce (wordSum (bufferWords data n)))) ∧
    (Verifies (ipFinish p) ↔ (p.ipproto = ipIcmp → MessageFits p)) ∧
    ((ipcksum p = 0 → IsZero (onesSum (headerWords p))) ↔
      wordSum (headerWords p) % 65536 + wordSum (headerWords p) / 65536 ≠ 65536) ∧
    ∀ buf t, (PassesChecks (t.packets buf) → ToThisHost buf t) ∧
      (¬ PassesChecks (t.packets buf) → Dropped buf t) :=
  ⟨ipcksum_iff p, bufferCksum_iff, ipFinish_verifies p, accepts_only_zero p, ipIn_run⟩

/-- Three bytes have the right checksum. -/
theorem three_bytes : SameOnes (bufferCksum (fun _ => 0x12) 3) 0xDBED ∧
    CarriesOnce (wordSum (bufferWords (fun _ => 0x12) 3)) := by
  have honce : CarriesOnce (wordSum (bufferWords (fun _ => 0x12) 3)) := by decide
  exact ⟨((checksums Netpacket.zero (fun _ => 0x12) 3).2.1 (by decide)).mpr honce, honce⟩

/-- A UDP datagram whose checksum is one more than it should be. -/
def wrongHeader : Netpacket :=
  { Netpacket.zero with
    ipvh := 0x45
    iplen := Xinu.htons 84
    ipttl := 64
    ipproto := ipUdp
    ipcksum := Xinu.htons 0xF746
    ipsrc := htonl 0xC0A80101
    ipdst := htonl 0xC0A80102 }

/-- An echo request without data. -/
def echoRequest : Netpacket :=
  { Netpacket.zero with
    ipvh := 0x45
    iplen := 28
    ipproto := ipIcmp
    ictype := icmpEchoreqst
    icident := 0xFFFF
    icseq := 0xF800 }

/-- The second carry is lost: the header is accepted, and the request is not. -/
theorem carry_lost :
    (PassesChecks wrongHeader ∧ ¬ IsZero (onesSum (headerWords wrongHeader)) ∧
      ¬ SameOnes (ipcksum wrongHeader) (onesChecksum (headerWords wrongHeader))) ∧
    ¬ Verifies (ipFinish echoRequest) := by
  decide +kernel

end Net
end Xinu
