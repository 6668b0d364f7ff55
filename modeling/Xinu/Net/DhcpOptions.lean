import Xinu.Net.Dhcp
import Xinu.Foundations.TaggedFields

/-!
# Options of a DHCP message

What is read back of the options of an offer and of a request.

Main results:

- Theorem `dumpOptions_run`: `dump_dhcp_msg` prints every option.
- Theorem `request_unreadable`: the requested address is not found in any request.
- Theorem `readsBack_iff`: when every option of an offer is found by its code.
-/

namespace Xinu
namespace Net
namespace Dhcp

open Foundations Function

/-! ## The readers -/

section Readers

variable {msg : Chars} {size opt k : Nat} {key : UInt8}

theorem optionLoop_fst : (optionLoop msg size key opt).1 =
    ((leaps msg size opt).find? (msg · = key)).map (· + 2) := by
  induction opt using leaps.induct msg size with
  | case1 opt hlt ih =>
      rw [optionLoop, if_pos hlt, leaps_of_lt hlt]
      by_cases hkey : msg opt = key
      · rw [if_pos hkey, List.find?_cons_of_pos (by simpa using hkey)]
        rfl
      · rw [if_neg hkey, List.find?_cons_of_neg (by simpa using hkey)]
        exact ih
  | case2 opt hlt =>
      rw [optionLoop, if_neg hlt, leaps_of_le (Nat.not_lt.mp hlt)]
      rfl

/-- Codes and lengths are read inside the message. -/
theorem optionLoop_reads (h : k ∈ (optionLoop msg size key opt).2) : k < size := by
  induction opt using leaps.induct msg size with
  | case1 opt hlt ih =>
      rw [optionLoop, if_pos hlt] at h
      by_cases hkey : msg opt = key
      · rw [if_pos hkey] at h
        have hk := List.mem_singleton.mp h
        omega
      · rw [if_neg hkey] at h
        rcases List.mem_cons.mp h with rfl | h
        · omega
        · rcases List.mem_cons.mp h with rfl | h
          · exact hlt
          · exact ih h
  | case2 opt hlt =>
      rw [optionLoop, if_neg hlt] at h
      exact absurd h List.not_mem_nil

theorem getDhcpOptionValue_eq : getDhcpOptionValue msg size key =
    ((leaps msg size dcOpt).find? (msg · = key)).map (· + 2) :=
  optionLoop_fst

/-- The client looks at the same options, one after the other. -/
theorem scanOptions_eq (msg : Chars) (inlen : Int) (opt : Nat) (o : Options) :
    scanOptions msg (inlen - 1) opt o = (leaps msg inlen.toNat opt).foldl (·.note msg) o := by
  induction opt, o using scanOptions.induct msg (inlen - 1) with
  | case1 opt o hlt len ih =>
      rw [scanOptions, if_pos hlt, leaps_of_lt (by omega)]
      exact ih
  | case2 opt o hlt =>
      rw [scanOptions, if_neg hlt, leaps_of_le (by omega)]
      rfl

/-- The options that are printed are those of the sequence, whatever padding is between them. -/
theorem dumpOptions_run {os ps : List Nat} {e : Nat} (h : Run msg opt os ps e) (he : e < size) :
    dumpOptions msg size opt = os ++ dumpOptions msg size e := by
  induction h with
  | nil e => rfl
  | @pad opt e os ps hpad rest ih =>
      have hle := rest.le
      have hcode : msg opt = dhcpPadding ∨ msg opt = dhcpMessageEnd := Or.inl hpad
      rw [dumpOptions, if_pos (by omega), if_pos hcode, ih he]
  | @value opt e os ps h0 h255 rest ih =>
      have hle := rest.le
      have hcode : ¬ (msg opt = dhcpPadding ∨ msg opt = dhcpMessageEnd) := not_or.mpr ⟨h0, h255⟩
      rw [dumpOptions, if_pos (by omega), if_neg hcode]
      dsimp only
      rw [ih he, List.cons_append]

end Readers

/-! ## A request -/

/-- The value of an option is found by its code. -/
def FindsBytes (msg : Chars) (len : Int) (key : UInt8) (bs : List UInt8) : Prop :=
  ∃ off, getDhcpOptionValue msg len.toNat key = some off ∧ bytesAt msg off bs.length = bs

/-- The options of the request for an offer, whose options are at `os`, are found by their codes. -/
structure RequestReadsBack (mac : Mac) (offer : Chars) (size : Nat) (os : List Nat) : Prop where
  messageType : FindsBytes (buildDhcpRequest mac offer size).1 (buildDhcpRequest mac offer size).2
    dhcpMessageType [3]
  requestedIp : FindsBytes (buildDhcpRequest mac offer size).1 (buildDhcpRequest mac offer size).2
    dhcpRequestedIp (bytesAt offer dcYip 4)
  serverId : ∀ o, os.find? (offer · = dhcpServerId) = some o →
    FindsBytes (buildDhcpRequest mac offer size).1 (buildDhcpRequest mac offer size).2
      dhcpServerId (bytesAt offer (o + 2) 4)

section Request

variable {offer : Chars} {size : Nat}

theorem store_at (msg : Chars) (off i : Nat) (bs : List UInt8) :
    store msg off bs (off + i) = bs.getD i (msg (off + i)) := by
  unfold store
  rw [if_pos (Nat.le_add_right off i), Nat.add_sub_cancel_left]

/-- The bytes of a request up to the code of the requested address. -/
def requestHead : List UInt8 :=
  [dhcpMessageType, 1, 3, 0, 0, 0, dhcpRequestedIp, 4]

/-- The padding behind the message type makes a reader leap over the rest of the request. -/
theorem request_leaps {msg : Chars} (bs : List UInt8) :
    leaps (store msg dcOpt (requestHead ++ bs)) 261 dcOpt = [240, 243, 245] := by
  obtain ⟨req, hreq⟩ : ∃ req, req = store msg dcOpt (requestHead ++ bs) := ⟨_, rfl⟩
  have hlen : req 241 = 1 := by
    rw [hreq]
    exact store_at msg dcOpt 1 _
  have hpad : req 244 = 0 := by
    rw [hreq]
    exact store_at msg dcOpt 4 _
  have hcode : req 246 = 50 := by
    rw [hreq]
    exact store_at msg dcOpt 6 _
  rw [← hreq, show dcOpt = 240 from rfl, leaps_of_lt (by decide), hlen]
  show 240 :: leaps req 261 243 = _
  rw [leaps_of_lt (by decide), hpad]
  show 240 :: 243 :: leaps req 261 245 = _
  rw [leaps_of_lt (by decide), hcode]
  show 240 :: 243 :: 245 :: leaps req 261 297 = _
  rw [leaps_of_le (by decide)]

/-- The options of a request behind the code of the requested address. -/
def requestTail (offer : Chars) (serverIp : Nat) : List UInt8 :=
  bytesAt offer dcYip 4 ++ ([0, 0, dhcpServerId, 4] ++ bytesAt offer serverIp 4)

theorem buildDhcpRequest_none (mac : Mac)
    (h : getDhcpOptionValue offer size dhcpServerId = none) :
    buildDhcpRequest mac offer size = (store (dhcpHeader mac (bytesAt offer dcSip 4)) dcOpt
      (requestHead ++ bytesAt offer dcYip 4), syserr) := by
  unfold buildDhcpRequest
  rw [h]
  rfl

theorem buildDhcpRequest_some (mac : Mac) {serverIp : Nat}
    (h : getDhcpOptionValue offer size dhcpServerId = some serverIp) :
    buildDhcpRequest mac offer size = (store (dhcpHeader mac (bytesAt offer dcSip 4)) dcOpt
      (requestHead ++ requestTail offer serverIp), 261) := by
  simp [buildDhcpRequest, h, requestHead, requestTail, bytesAt]
  decide

/-- No option of a request is found but its message type. -/
theorem request_find {mac : Mac} {key : UInt8} {off : Nat}
    (h : getDhcpOptionValue (buildDhcpRequest mac offer size).1
      (buildDhcpRequest mac offer size).2.toNat key = some off) :
    key = dhcpMessageType ∨ key = 0 := by
  rw [getDhcpOptionValue_eq] at h
  cases hserver : getDhcpOptionValue offer size dhcpServerId with
  | none =>
      rw [buildDhcpRequest_none mac hserver, show syserr.toNat = 0 from rfl,
        leaps_of_le (Nat.zero_le _)] at h
      exact absurd h (by simp)
  | some serverIp =>
      rw [buildDhcpRequest_some mac hserver, show (261 : Int).toNat = 261 from rfl,
        request_leaps] at h
      obtain ⟨o, ho, -⟩ := Option.map_eq_some_iff.mp h
      have hkey : store (dhcpHeader mac (bytesAt offer dcSip 4)) dcOpt
          (requestHead ++ requestTail offer serverIp) o = key := by
        simpa using List.find?_some ho
      rw [← hkey]
      have hmem := List.mem_of_find?_eq_some ho
      simp only [List.mem_cons, List.not_mem_nil, or_false] at hmem
      rcases hmem with rfl | rfl | rfl
      · exact Or.inl (store_at _ dcOpt 0 _)
      · exact Or.inr (store_at _ dcOpt 3 _)
      · exact Or.inr (store_at _ dcOpt 5 _)

/-- The requested address is not found. -/
theorem request_unreadable (mac : Mac) (offer : Chars) (size : Nat) (os : List Nat) :
    ¬ RequestReadsBack mac offer size os := by
  intro h
  obtain ⟨off, hoff, -⟩ := h.requestedIp
  rcases request_find hoff with hkey | hkey
  · exact absurd hkey (by decide)
  · exact absurd hkey (by decide)

end Request

/-! ## An offer -/

/-- The options of an offer, which are at `os`, are found by their codes, and so are those of the
request for it. -/
structure ReadsBack (mac : Mac) (offer : Chars) (size : Nat) (os : List Nat) : Prop where
  value : ∀ key, getDhcpOptionValue offer size key = (os.find? (offer · = key)).map (· + 2)
  inside : ∀ key, ∀ i ∈ (optionLoop offer size key dcOpt).2, i < size
  request : (∃ o ∈ os, offer o = dhcpServerId) → RequestReadsBack mac offer size os

section Offer

variable {mac : Mac} {offer : Chars} {size e o : Nat} {os ps : List Nat} {key : UInt8}

/-- An option that fills space, or a byte behind the end option, is taken for an option. -/
theorem packed_of_value (h : Layout offer dcOpt os ps e) (he : e < size)
    (hvalue : ∀ key, getDhcpOptionValue offer size key = (os.find? (offer · = key)).map (· + 2)) :
    ps = [] ∧ e + 1 = size := by
  simp only [getDhcpOptionValue_eq] at hvalue
  have hnone : ∀ key, key = 0 ∨ key = 255 → ∀ o ∈ leaps offer size dcOpt, offer o ≠ key := by
    intro key hkey o ho hcode
    have hfind := hvalue key
    rw [h.find_eq_none hkey, Option.map_none, Option.map_eq_none_iff, List.find?_eq_none] at hfind
    exact hfind o ho (by simpa using hcode)
  have hps : ps = [] := by
    cases ps with
    | nil => rfl
    | cons p ps =>
        obtain ⟨os', hleaps, -, hzero⟩ := leaps_run_pad h.run he
        have hmem : p ∈ leaps offer size dcOpt := by
          rw [hleaps]
          exact List.mem_append_right _ List.mem_cons_self
        exact absurd hzero (hnone 0 (Or.inl rfl) p hmem)
  subst hps
  refine ⟨rfl, ?_⟩
  by_contra hlast
  have hmem : e ∈ leaps offer size dcOpt := by
    rw [leaps_run h.run he, @leaps_of_lt offer size e (by omega)]
    exact List.mem_append_right _ List.mem_cons_self
  exact hnone 255 (Or.inr rfl) e hmem h.last

/-- Behind the end of the options there is nothing but padding. -/
def PaddedBehind (offer : Chars) (size e : Nat) : Prop :=
  ∀ i, e < i → i < size → offer i = 0

/-- Padding by pairs of bytes does no harm to a code that an option can have. -/
theorem value_of_paired (h : Layout offer dcOpt os ps e) (he : e < size) (hps : Paired ps)
    (hbehind : PaddedBehind offer size e) (h0 : key ≠ 0) (h255 : key ≠ 255) :
    getDhcpOptionValue offer size key = (os.find? (offer · = key)).map (· + 2) := by
  have hfinds : Finds offer size key os e dcOpt := (find_leaps h.run he h0).1 hps
  have hnone : (leaps offer size e).find? (offer · = key) = none := by
    rw [List.find?_eq_none]
    intro i hi hcode
    have hcode := of_decide_eq_true hcode
    obtain ⟨hle, hlt⟩ := le_of_mem_leaps hi
    rcases Nat.eq_or_lt_of_le hle with rfl | hlt'
    · exact h255 (hcode.symm.trans h.last)
    · exact h0 (hcode.symm.trans (hbehind i hlt' (by omega)))
  rw [getDhcpOptionValue_eq, hfinds, hnone, Option.or_none]

/-- One byte of padding hides the option behind it. -/
theorem value_ne_of_pad {p : Nat} (h : Run offer dcOpt os ps p) (hps : Paired ps) (hp : p + 1 < size)
    (hzero : offer p = 0) (hcode : offer (p + 1) ≠ 0)
    (hnot : ∀ o ∈ os, offer o ≠ offer (p + 1)) :
    getDhcpOptionValue offer size (offer (p + 1)) ≠ some (p + 1 + 2) := by
  have hfinds : Finds offer size (offer (p + 1)) os p dcOpt :=
    (find_leaps h (by omega) hcode).1 hps
  have hnone : os.find? (offer · = offer (p + 1)) = none := by
    rw [List.find?_eq_none]
    intro o ho hfound
    exact hnot o ho (of_decide_eq_true hfound)
  rw [getDhcpOptionValue_eq, hfinds, hnone, Option.none_or, leaps_of_lt hp,
    List.find?_cons_of_neg (by simpa [hzero] using hcode.symm)]
  intro hfound
  obtain ⟨o, ho, hoff⟩ := Option.map_eq_some_iff.mp hfound
  have hle := (le_of_mem_leaps (List.mem_of_find?_eq_some ho)).1
  omega

/--
Every option of an offer is read back exactly if there is no padding between the options, nothing
behind their end, and no server identifier among them: for that one a request is written whose
padding hides what it requests.  Padding by pairs of bytes hides no option of the offer.
-/
theorem readsBack_iff (mac : Mac) (h : Layout offer dcOpt os ps e) (he : e < size) :
    (ReadsBack mac offer size os ↔
      (ps = [] ∧ e + 1 = size) ∧ ∀ o ∈ os, offer o ≠ dhcpServerId) ∧
    (Paired ps → PaddedBehind offer size e → ∀ key, key ≠ 0 → key ≠ 255 →
      getDhcpOptionValue offer size key = (os.find? (offer · = key)).map (· + 2)) := by
  refine ⟨⟨fun hreads => ?_, ?_⟩, fun hps hbehind key => value_of_paired h he hps hbehind⟩
  · refine ⟨packed_of_value h he hreads.value, fun o ho hserver => ?_⟩
    exact request_unreadable mac offer size os (hreads.request ⟨o, ho, hserver⟩)
  · rintro ⟨⟨rfl, hlast⟩, hserver⟩
    refine ⟨fun key => ?_, fun key i hi => optionLoop_reads hi, fun ⟨o, ho, hcode⟩ => ?_⟩
    · rw [getDhcpOptionValue_eq, leaps_run h.run he, @leaps_of_le offer size e (by omega),
        List.append_nil]
    · exact absurd hcode (hserver o ho)

end Offer

/-- A message whose options are `opts`. -/
def withOptions (opts : List UInt8) : Chars :=
  store (fun _ => 0) dcOpt opts

/-- An offer with a lease time. -/
def leaseOffer : Chars :=
  withOptions [53, 1, 2, 51, 4, 0, 1, 0, 0, 255]

theorem leaseOffer_layout : Layout leaseOffer dcOpt [240, 243] [] 249 :=
  ⟨.value (by decide) (by decide) (.value (by decide) (by decide) (.nil 249)), by decide⟩

theorem leaseOffer_readsBack : ReadsBack (fun _ => 0) leaseOffer 250 [240, 243] :=
  (readsBack_iff _ leaseOffer_layout (by decide)).1.mpr (by decide)

/-- An offer with a server identifier, and one with a byte of padding in front of it. -/
def plainOffer : Chars :=
  withOptions [53, 1, 2, 54, 4, 10, 0, 0, 1, 255]

def paddedOffer : Chars :=
  withOptions [53, 1, 2, 0, 54, 4, 10, 0, 0, 1, 255]

/-- The address that the request asks for is not read back, and neither is the identifier behind
the padding. -/
theorem options_lost :
    (Layout plainOffer dcOpt [240, 243] [] 249 ∧
      ¬ ReadsBack (fun _ => 0) plainOffer 250 [240, 243]) ∧
    Layout paddedOffer dcOpt [240, 244] [243] 250 ∧
      getDhcpOptionValue paddedOffer 251 dhcpServerId ≠ some 246 := by
  have hplain : Run plainOffer dcOpt [240, 243] [] 249 :=
    .value (by decide) (by decide) (.value (by decide) (by decide) (.nil 249))
  have hfront : Run paddedOffer dcOpt [240] [] 243 := .value (by decide) (by decide) (.nil 243)
  have hpadded : Run paddedOffer dcOpt [240, 244] [243] 250 :=
    .value (by decide) (by decide) (.pad (by decide) (.value (by decide) (by decide) (.nil 250)))
  refine ⟨⟨⟨hplain, by decide⟩, fun h => ?_⟩, ⟨hpadded, by decide⟩, ?_⟩
  · exact request_unreadable _ _ _ _ (h.request ⟨243, by decide, by decide⟩)
  · exact value_ne_of_pad hfront .nil (by decide) (by decide) (by decide) (by decide)

end Dhcp
end Net
end Xinu
