import Xinu.Net.DhcpOptions
import Xinu.Net.UdpSpec
import Xinu.Device.RemoteCommSpec

/-!
# Endpoints of the network clients

Which endpoints are registered after the machine has asked for its address or for the time.

Main results:

- Theorem `udpRegister_opens`: what `udp_register` does to the table of endpoints.
- Theorem `retryLoop_ends`: the first message that decides the exchange ends it.
- Theorem `endpoints_kept_iff`: a client leaves its endpoint registered exactly if it returns when
  a receive or the building of a request fails, or when it asks for the time without an address.
-/

namespace Xinu
namespace Net
namespace Dhcp

open Foundations Function DottedQuad
open Remote (load32 bytes32 load32_congr load32_bytes32 ntohl_htonl)

/-! ## Endpoints -/

/-- The addresses that an endpoint is registered for. -/
def endpoint (e : Udpentry) : Option (UInt32 × UInt16 × UInt16) :=
  if e.udstate = .udpFree then none else some (e.udremip, e.udremport, e.udlocport)

/-- The registered endpoints, by their slots. -/
def endpoints (tab : Nat → Udpentry) (i : Nat) : Option (UInt32 × UInt16 × UInt16) :=
  endpoint (tab i)

section Endpoints

variable {tab tab' : Nat → Udpentry} {slot : Nat} {remip : UInt32} {remport locport : UInt16}

theorem endpoints_update (tab : Nat → Udpentry) (i : Nat) (e : Udpentry) :
    endpoints (update tab i e) = update (endpoints tab) i (endpoint e) := by
  funext k
  by_cases hk : k = i
  · subst hk
    rw [update_self]
    unfold endpoints
    rw [update_self]
  · rw [update_of_ne hk]
    unfold endpoints
    rw [update_of_ne hk]

theorem udpOpen_some (h : udpOpen tab remip remport locport = some (slot, tab')) :
    endpoints tab slot = none ∧
      endpoints tab' = update (endpoints tab) slot (some (remip, remport, locport)) := by
  unfold udpOpen at h
  split_ifs at h
  obtain ⟨i, hi, hpair⟩ := Option.map_eq_some_iff.mp h
  obtain ⟨rfl, rfl⟩ := Prod.mk.inj hpair
  have hfree := List.find?_some hi
  simp only [decide_eq_true_eq] at hfree
  constructor
  · unfold endpoints endpoint
    rw [if_pos hfree]
  · rw [endpoints_update]
    rfl

theorem endpoints_close (tab : Nat → Udpentry) (slot : Nat) :
    endpoints (udpClose tab slot) = update (endpoints tab) slot none := by
  unfold udpClose
  rw [endpoints_update]
  rfl

/-- An endpoint that is closed again was never there. -/
theorem endpoints_reopen (h : udpOpen tab remip remport locport = some (slot, tab')) :
    endpoints (udpClose tab' slot) = endpoints tab := by
  obtain ⟨hnone, htab⟩ := udpOpen_some h
  rw [endpoints_close, htab, update_idem, ← hnone, update_eq_self]

theorem endpoints_open_ne (h : udpOpen tab remip remport locport = some (slot, tab')) :
    endpoints tab' ≠ endpoints tab := by
  obtain ⟨hnone, htab⟩ := udpOpen_some h
  intro heq
  have hslot := congrFun (htab.symm.trans heq) slot
  rw [update_self, hnone] at hslot
  exact absurd hslot (Option.some_ne_none _)

/-- `udp_register` opens an endpoint in the table. -/
theorem udpRegister_opens (remip : UInt32) (remport locport : UInt16) (t : State) :
    ∃ v t', udpRegister remip remport locport t = .done v t' ∧
      match udpOpen t.udptab remip remport locport with
      | none => v = syserr ∧ t'.udptab = t.udptab
      | some (slot, tab) => v = slot ∧ t'.udptab = tab := by
  have htab : (withMask t false).udptab = t.udptab := rfl
  unfold udpOpen
  cases hused : udpRegistered t.udptab remip remport locport with
  | true =>
      refine ⟨syserr, withMask (withMask t false) (maskOf t (kernelOf t).currpid), ?_, rfl, rfl⟩
      simp [udpRegister, htab, hused]
  | false =>
      cases hfind : udpVacant t.udptab with
      | none =>
          refine ⟨syserr, withMask (withMask t false) (maskOf t (kernelOf t).currpid), ?_, rfl, rfl⟩
          simp [udpRegister, htab, hused, hfind]
      | some i =>
          obtain ⟨t₁, ht₁⟩ : ∃ t₁ : State, { withMask t false with
            udptab := update t.udptab i (udpOpened remip remport locport (t.udptab i)) } = t₁ := ⟨_, rfl⟩
          refine ⟨i, withMask t₁ (maskOf t (kernelOf t).currpid), ?_, rfl, ?_⟩
          · rw [← ht₁]
            simp [udpRegister, setUdp, htab, hused, hfind]
          · rw [← ht₁]
            rfl

/-- `udp_release` closes it, or is refused. -/
theorem Released.closes {t t' : State} {i : Nat} (h : Released i t t') :
    t'.udptab = t.udptab ∨ endpoints t'.udptab = endpoints (udpClose t.udptab i) := by
  cases h with
  | refused h => exact Or.inl h.view
  | closed k hslot hlt e hfree htab hcalm =>
      obtain rfl : i = k := Int.ofNat.inj hslot
      refine Or.inr ?_
      rw [htab, endpoints_close, endpoints_update]
      unfold endpoint
      rw [if_pos hfree]

end Endpoints

/-! ## Messages that decide -/

/-- The message type that a client notes: the last one among the options. -/
def messageType (r : Receipt) : UInt8 :=
  (((leaps r.msg r.inlen.toNat dcOpt).filter (r.msg · = dhcpMessageType)).getLast?.map
    fun opt => r.msg (opt + 2)).getD 0

/-- The first four bytes of the Ethernet address, as a word. -/
def xidOf (mac : Mac) : UInt32 :=
  load32 ((List.ofFn mac).getD · 0) 0

/-- A message was received, and has the ID of our requests. -/
def Answers (mac : Mac) (r : Receipt) : Prop :=
  r.inlen ≠ timeout ∧ r.inlen ≠ syserr ∧ ntohl (load32 r.msg dcXid) = xidOf mac

/-- The receive failed, or no request can be built for an offer, as it has no server identifier. -/
def Fails (mac : Mac) (r : Receipt) : Prop :=
  r.inlen = syserr ∨ Answers mac r ∧ messageType r = dhcpOffer ∧
    ∀ opt ∈ leaps r.msg r.inlen.toNat dcOpt, r.msg opt ≠ dhcpServerId

/-- An acknowledgement. -/
def Acknowledges (mac : Mac) (r : Receipt) : Prop :=
  Answers mac r ∧ messageType r ≠ dhcpOffer ∧ r.msg (dcOpt + 2) = dhcpAck

def Decides (mac : Mac) (r : Receipt) : Prop :=
  Fails mac r ∨ Acknowledges mac r

instance (mac : Mac) (r : Receipt) : Decidable (Answers mac r) :=
  inferInstanceAs (Decidable (_ ∧ _ ∧ _))

instance (mac : Mac) (r : Receipt) : Decidable (Fails mac r) :=
  inferInstanceAs (Decidable (_ ∨ _ ∧ _ ∧ ∀ opt ∈ leaps r.msg r.inlen.toNat dcOpt,
    r.msg opt ≠ dhcpServerId))

instance (mac : Mac) (r : Receipt) : Decidable (Acknowledges mac r) :=
  inferInstanceAs (Decidable (_ ∧ _ ∧ _))

instance (mac : Mac) (r : Receipt) : Decidable (Decides mac r) :=
  inferInstanceAs (Decidable (_ ∨ _))

section Messages

variable {mac : Mac} {r : Receipt}

theorem Acknowledges.not_fails (h : Acknowledges mac r) : ¬ Fails mac r := by
  rintro (hfail | ⟨-, htype, -⟩)
  · exact h.1.2.1 hfail
  · exact h.2.1 htype

theorem foldl_note_msgtype (msg : Chars) (opts : List Nat) (o : Options) :
    (opts.foldl (·.note msg) o).msgtype =
      ((opts.filter (msg · = dhcpMessageType)).getLast?.map fun opt => msg (opt + 2)).getD o.msgtype
      := by
  induction opts using List.reverseRecOn with
  | nil => rfl
  | append_singleton opts opt ih =>
      rw [List.foldl_append, List.foldl_cons, List.foldl_nil, List.filter_append]
      by_cases htype : msg opt = dhcpMessageType
      · simp [Options.note, htype]
      · have hkeep : (Options.note msg (opts.foldl (·.note msg) o) opt).msgtype =
            (opts.foldl (·.note msg) o).msgtype := by
          unfold Options.note
          rw [if_neg htype]
          split_ifs
          · rfl
          · rfl
          · rfl
        rw [hkeep, ih]
        simp [htype]

theorem scanOptions_msgtype (r : Receipt) :
    (scanOptions r.msg (r.inlen - 1) dcOpt ⟨0, 0, 0⟩).msgtype = messageType r := by
  rw [scanOptions_eq, foldl_note_msgtype]
  rfl

theorem getDhcpOptionValue_eq_none_iff {msg : Chars} {size : Nat} {key : UInt8} :
    getDhcpOptionValue msg size key = none ↔ ∀ opt ∈ leaps msg size dcOpt, msg opt ≠ key := by
  rw [getDhcpOptionValue_eq, Option.map_eq_none_iff, List.find?_eq_none]
  simp

/-- Every request has the ID of the machine. -/
theorem dhcpHeader_xid (mac : Mac) (sip opts : List UInt8) :
    ntohl (load32 (store (dhcpHeader mac sip) dcOpt opts) dcXid) = xidOf mac := by
  have hword : load32 (store (dhcpHeader mac sip) dcOpt opts) dcXid =
      load32 ((bytes32 (htonl (xidOf mac))).getD · 0) 0 := by
    apply load32_congr
    intro j hj
    rw [Nat.zero_add]
    match j, hj with
    | 0, _ => rfl
    | 1, _ => rfl
    | 2, _ => rfl
    | 3, _ => rfl
  rw [hword, load32_bytes32, ntohl_htonl]

end Messages

/-! ## The exchange -/

/-- The outgoing message has the ID of the machine. -/
structure Ready (mac : Mac) (x : Exchange) : Prop where
  xid : ntohl (load32 x.dmsgSnd dcXid) = xidOf mac
  ethucast : x.netData.ethucast = mac

/-- What the receipts `rs` lead to: the first that decides is what counts. -/
inductive Ends (mac : Mac) (slot : Nat) (rs : List Receipt) (x : Exchange) :
    Option UInt32 × Exchange → Prop where
  | goesOn (hnone : rs.find? (Decides mac) = none) (x' : Exchange) (htab : x'.udptab = x.udptab)
      (hboot : x'.boot = x.boot) (hready : Ready mac x') : Ends mac slot rs x (none, x')
  | fails (r : Receipt) (hfirst : rs.find? (Decides mac) = some r) (hfails : Fails mac r)
      (x' : Exchange) (htab : x'.udptab = x.udptab) : Ends mac slot rs x (some uSyserr, x')
  | acknowledged (r : Receipt) (hfirst : rs.find? (Decides mac) = some r)
      (hacks : Acknowledges mac r) (v : UInt32) (x' : Exchange)
      (htab : x'.udptab = udpClose x.udptab slot)
      (haddr : x.boot = none → v = ntohl (load32 r.msg dcYip)) : Ends mac slot rs x (some v, x')

section Exchange

variable {mac : Mac} {slot : Nat} {rs rs' : List Receipt} {r : Receipt} {x x' : Exchange}
  {garbage : UInt8}

theorem Ends.append {res : Option UInt32 × Exchange} (h : Ends mac slot rs x (none, x'))
    (h' : Ready mac x' → Ends mac slot rs' x' res) : Ends mac slot (rs ++ rs') x res := by
  cases h with
  | goesOn hnone _ htab hboot hready =>
      have hfind : (rs ++ rs').find? (Decides mac) = rs'.find? (Decides mac) := by
        rw [List.find?_append, hnone, Option.none_or]
      cases h' hready with
      | goesOn hnone' x'' htab' hboot' hready' =>
          exact .goesOn (hfind.trans hnone') x'' (htab'.trans htab) (hboot'.trans hboot) hready'
      | fails r hfirst hfails x'' htab' =>
          exact .fails r (hfind.trans hfirst) hfails x'' (htab'.trans htab)
      | acknowledged r hfirst hacks v x'' htab' haddr =>
          exact .acknowledged r (hfind.trans hfirst) hacks v x'' (htab ▸ htab')
            fun hnoboot => haddr (hboot.trans hnoboot)

theorem Ends.stop {v : UInt32} (h : Ends mac slot rs x (some v, x')) (rs' : List Receipt) :
    Ends mac slot (rs ++ rs') x (some v, x') := by
  have hfind : ∀ r, rs.find? (Decides mac) = some r → (rs ++ rs').find? (Decides mac) = some r := by
    intro r hr
    rw [List.find?_append, hr, Option.some_or]
  cases h with
  | fails r hfirst hfails _ htab => exact .fails r (hfind r hfirst) hfails _ htab
  | acknowledged r hfirst hacks _ _ htab haddr =>
      exact .acknowledged r (hfind r hfirst) hacks _ _ htab haddr

/-- Sending changes nothing that counts. -/
theorem Ends.unsent {res : Option UInt32 × Exchange} (h : Ends mac slot rs x.send res) :
    Ends mac slot rs x res := by
  cases h with
  | goesOn hnone x' htab hboot hready => exact .goesOn hnone x' htab hboot hready
  | fails r hfirst hfails x' htab => exact .fails r hfirst hfails x' htab
  | acknowledged r hfirst hacks v x' htab haddr =>
      exact .acknowledged r hfirst hacks v x' htab haddr

theorem find_singleton_none (h : ¬ Decides mac r) : [r].find? (Decides mac) = none := by
  simp [h]

theorem find_singleton_some (h : Decides mac r) : [r].find? (Decides mac) = some r := by
  simp [h]

/-- A message that is none of ours is passed over. -/
theorem not_decides_of_not_answers (hne : r.inlen ≠ syserr) (h : ¬ Answers mac r) :
    ¬ Decides mac r := by
  rintro ((hfail | ⟨hanswers, -⟩) | hacks)
  · exact hne hfail
  · exact h hanswers
  · exact h hacks.1

theorem receiveTurn_ends (hready : Ready mac x) :
    Ends mac slot [r] x (receiveTurn garbage slot r x) := by
  have hkeep : ¬ Decides mac r → Ends mac slot [r] x (none, x) := fun hnot =>
    .goesOn (find_singleton_none hnot) x rfl rfl hready
  unfold receiveTurn
  by_cases htimeout : r.inlen = timeout
  · rw [if_pos htimeout]
    refine hkeep (not_decides_of_not_answers ?_ fun h => h.1 htimeout)
    rw [htimeout]
    decide
  rw [if_neg htimeout]
  by_cases hsyserr : r.inlen = syserr
  · rw [if_pos hsyserr]
    exact .fails r (find_singleton_some (Or.inl (Or.inl hsyserr))) (Or.inl hsyserr) x rfl
  rw [if_neg hsyserr, hready.xid]
  by_cases hxid : ntohl (load32 r.msg dcXid) ≠ xidOf mac
  · rw [if_pos hxid]
    exact hkeep (not_decides_of_not_answers hsyserr fun h => hxid h.2.2)
  rw [if_neg hxid]
  have hanswers : Answers mac r := ⟨htimeout, hsyserr, not_not.mp hxid⟩
  dsimp only
  rw [scanOptions_msgtype, hready.ethucast]
  by_cases hoffer : messageType r = dhcpOffer
  · rw [if_pos hoffer]
    cases hserver : getDhcpOptionValue r.msg r.inlen.toNat dhcpServerId with
    | none =>
        have hfails : Fails mac r :=
          Or.inr ⟨hanswers, hoffer, getDhcpOptionValue_eq_none_iff.mp hserver⟩
        rw [buildDhcpRequest_none mac hserver]
        exact .fails r (find_singleton_some (Or.inl hfails)) hfails _ rfl
    | some serverIp =>
        have hnot : ¬ Decides mac r := by
          rintro ((hfail | ⟨-, -, hnone⟩) | hacks)
          · exact hsyserr hfail
          · rw [getDhcpOptionValue_eq_none_iff.mpr hnone] at hserver
            exact absurd hserver.symm (Option.some_ne_none _)
          · exact hacks.2.1 hoffer
        rw [buildDhcpRequest_some mac hserver]
        exact .goesOn (find_singleton_none hnot) _ rfl rfl ⟨dhcpHeader_xid mac _ _, hready.ethucast⟩
  rw [if_neg hoffer]
  by_cases hack : r.msg (dcOpt + 2) ≠ dhcpAck
  · rw [if_pos hack]
    refine hkeep ?_
    rintro ((hfail | hfail) | hacks)
    · exact hsyserr hfail
    · exact hoffer hfail.2.1
    · exact hack hacks.2.2
  rw [if_neg hack]
  have hacks : Acknowledges mac r := ⟨hanswers, hoffer, not_not.mp hack⟩
  have hfirst := find_singleton_some (Or.inr hacks : Decides mac r)
  cases hboot : x.boot with
  | none => exact .acknowledged r hfirst hacks _ _ rfl fun _ => rfl
  | some v =>
      have hgiven : x.boot ≠ none := by
        rw [hboot]
        exact Option.some_ne_none v
      dsimp only
      cases bootVars garbage r.msg x.len v with
      | none => exact .acknowledged r hfirst hacks _ _ rfl fun hnone => absurd hnone hgiven
      | some v => exact .acknowledged r hfirst hacks _ _ rfl fun hnone => absurd hnone hgiven

theorem receiveLoop_ends (recv : Nat → Receipt) (n j : Nat) (hready : Ready mac x) :
    Ends mac slot ((List.range' j n).map recv) x (receiveLoop garbage slot recv n j x) := by
  induction n generalizing j x with
  | zero => exact .goesOn rfl x rfl rfl hready
  | succ n ih =>
      have hturn : Ends mac slot [recv j] x (receiveTurn garbage slot (recv j) x) :=
        receiveTurn_ends hready
      rw [receiveLoop, List.range'_succ, List.map_cons]
      generalize receiveTurn garbage slot (recv j) x = turn at hturn ⊢
      obtain ⟨res, x'⟩ := turn
      cases res with
      | none => exact hturn.append fun hready' => ih (j + 1) hready'
      | some v => exact hturn.stop _

/-- The receipts of the outer loop, `n` turns of it from the `i`-th on. -/
def rounds (recv : Nat → Nat → Receipt) (n i : Nat) : List Receipt :=
  (List.range' i n).flatMap fun i => (List.range' 0 3).map (recv i)

theorem retryLoop_ends (recv : Nat → Nat → Receipt) (n i : Nat) (hready : Ready mac x) :
    Ends mac slot (rounds recv n i) x (retryLoop garbage slot recv n i x) := by
  induction n generalizing i x with
  | zero => exact .goesOn rfl x rfl rfl hready
  | succ n ih =>
      have hround : Ends mac slot ((List.range' 0 3).map (recv i)) x.send
          (receiveLoop garbage slot (recv i) 3 0 x.send) :=
        receiveLoop_ends (recv i) 3 0 ⟨hready.xid, hready.ethucast⟩
      have hsplit : rounds recv (n + 1) i = (List.range' 0 3).map (recv i) ++ rounds recv n (i + 1) := by
        unfold rounds
        rw [List.range'_succ (s := i), List.flatMap_cons]
      rw [retryLoop, hsplit]
      generalize receiveLoop garbage slot (recv i) 3 0 x.send = round at hround ⊢
      obtain ⟨res, x'⟩ := round
      cases res with
      | none => exact (hround.append fun hready' => ih (i + 1) hready').unsent
      | some v => exact (hround.stop _).unsent

end Exchange

/-! ## The clients -/

/-- The receipts of an exchange, in their order. -/
def receipts (recv : Nat → Nat → Receipt) : List Receipt :=
  rounds recv dhcpRetry 0

/-- The client registers an endpoint, and the first message that decides the exchange is one that
fails. -/
def Abandons (recv : Nat → Nat → Receipt) (x : Exchange) : Prop :=
  (udpOpen x.udptab 0 udpDhcpSport udpDhcpCport).isSome ∧
    ∃ r, (receipts recv).find? (Decides x.netData.ethucast) = some r ∧ Fails x.netData.ethucast r

/-- There is no address: it is that of a broadcast, the endpoint for DHCP cannot be registered, or
no acknowledgement comes before a failure. -/
def NoAddress (recv : Nat → Nat → Receipt) (nd : NetData) (tab : Nat → Udpentry) : Prop :=
  if nd.ipvalid = true then nd.ipucast = uSyserr
  else
    udpOpen tab 0 udpDhcpSport udpDhcpCport = none ∨
      ∀ r, (receipts recv).find? (Decides nd.ethucast) = some r →
        Fails nd.ethucast r ∨ ntohl (load32 r.msg dcYip) = uSyserr

section Clients

variable {x : Exchange} {slot : Nat} {tab : Nat → Udpentry}

theorem getlocalipBoot_none (garbage : UInt8) (recv : Nat → Nat → Receipt)
    (h : udpOpen x.udptab 0 udpDhcpSport udpDhcpCport = none) :
    getlocalipBoot garbage recv x = (uSyserr, x) := by
  unfold getlocalipBoot
  rw [h]

/-- What an exchange returns and leaves. -/
theorem getlocalipBoot_some (garbage : UInt8) (recv : Nat → Nat → Receipt)
    (h : udpOpen x.udptab 0 udpDhcpSport udpDhcpCport = some (slot, tab)) :
    ∃ v x', getlocalipBoot garbage recv x = (v, x') ∧
      ((receipts recv).find? (Decides x.netData.ethucast) = none → v = uSyserr ∧
        endpoints x'.udptab = endpoints x.udptab) ∧
      ∀ r, (receipts recv).find? (Decides x.netData.ethucast) = some r →
        (Fails x.netData.ethucast r → v = uSyserr ∧ endpoints x'.udptab = endpoints tab) ∧
        (Acknowledges x.netData.ethucast r → endpoints x'.udptab = endpoints x.udptab ∧
          (x.boot = none → v = ntohl (load32 r.msg dcYip))) := by
  obtain ⟨mac, hmac⟩ : ∃ mac, x.netData.ethucast = mac := ⟨_, rfl⟩
  obtain ⟨x₁, hx₁⟩ : ∃ x₁ : Exchange, { x with
    udptab := tab
    dmsgSnd := (buildDhcpDiscover mac).1
    len := (buildDhcpDiscover mac).2 } = x₁ := ⟨_, rfl⟩
  have hready : Ready mac x₁ := by
    rw [← hx₁]
    exact ⟨dhcpHeader_xid mac _ _, hmac⟩
  have hends : Ends mac slot (receipts recv) x₁ (retryLoop garbage slot recv dhcpRetry 0 x₁) :=
    retryLoop_ends recv dhcpRetry 0 hready
  have hlen : (buildDhcpDiscover mac).2 ≠ syserr := by
    show (249 : Int) ≠ -1
    decide
  have hreturned : ∀ v x', retryLoop garbage slot recv dhcpRetry 0 x₁ = (some v, x') →
      getlocalipBoot garbage recv x = (v, x') := by
    intro v x' hloop
    unfold getlocalipBoot
    rw [h]
    dsimp only
    rw [hmac, if_neg hlen, hx₁]
    simp only [hloop]
  have hover : ∀ x', retryLoop garbage slot recv dhcpRetry 0 x₁ = (none, x') →
      getlocalipBoot garbage recv x =
        (uSyserr, { x' with udptab := udpClose x'.udptab slot }) := by
    intro x' hloop
    unfold getlocalipBoot
    rw [h]
    dsimp only
    rw [hmac, if_neg hlen, hx₁]
    simp only [hloop]
  have htab₁ : x₁.udptab = tab := by rw [← hx₁]
  have hboot₁ : x₁.boot = x.boot := by rw [← hx₁]
  rw [hmac]
  generalize retryLoop garbage slot recv dhcpRetry 0 x₁ = res at hends hreturned hover
  cases hends with
  | goesOn hnone x' htab hboot hready' =>
      refine ⟨_, _, hover x' rfl, fun _ => ⟨rfl, ?_⟩, fun r hr => ?_⟩
      · show endpoints (udpClose x'.udptab slot) = _
        rw [htab, htab₁]
        exact endpoints_reopen h
      · rw [hnone] at hr
        exact absurd hr.symm (Option.some_ne_none r)
  | fails r hfirst hfails x' htab =>
      refine ⟨_, _, hreturned _ x' rfl, fun hnone => ?_,
        fun r' hr' => ⟨fun _ => ⟨rfl, ?_⟩, fun hacks => ?_⟩⟩
      · rw [hnone] at hfirst
        exact absurd hfirst.symm (Option.some_ne_none r)
      · rw [htab, htab₁]
      · obtain rfl : r = r' := Option.some.inj (hfirst.symm.trans hr')
        exact absurd hfails hacks.not_fails
  | acknowledged r hfirst hacks v x' htab haddr =>
      refine ⟨_, _, hreturned v x' rfl, fun hnone => ?_, fun r' hr' => ?_⟩
      · rw [hnone] at hfirst
        exact absurd hfirst.symm (Option.some_ne_none r)
      · obtain rfl : r = r' := Option.some.inj (hfirst.symm.trans hr')
        refine ⟨fun hfails => absurd hfails hacks.not_fails, fun _ => ⟨?_, fun hnone => ?_⟩⟩
        · rw [htab, htab₁]
          exact endpoints_reopen h
        · exact haddr (hboot₁.trans hnone)

/-- The first message that decides fails or acknowledges. -/
theorem decides_of_find {mac : Mac} {rs : List Receipt} {r : Receipt}
    (h : rs.find? (Decides mac) = some r) : Fails mac r ∨ Acknowledges mac r := by
  have hdecides : decide (Decides mac r) = true :=
    List.find?_some (p := fun r => decide (Decides mac r)) h
  exact of_decide_eq_true hdecides

theorem getlocalipBoot_kept_iff (garbage : UInt8) (recv : Nat → Nat → Receipt) (x : Exchange) :
    endpoints (getlocalipBoot garbage recv x).2.udptab = endpoints x.udptab ↔ ¬ Abandons recv x := by
  unfold Abandons
  cases hopen : udpOpen x.udptab 0 udpDhcpSport udpDhcpCport with
  | none =>
      rw [getlocalipBoot_none garbage recv hopen]
      simp
  | some opened =>
      obtain ⟨slot, tab⟩ := opened
      obtain ⟨v, x', hrun, hnone, hsome⟩ := getlocalipBoot_some garbage recv hopen
      rw [hrun]
      cases hfirst : (receipts recv).find? (Decides x.netData.ethucast) with
      | none => simp [(hnone hfirst).2]
      | some r =>
          rcases decides_of_find hfirst with hfails | hacks
          · simp [((hsome r hfirst).1 hfails).2, endpoints_open_ne hopen, hfails]
          · simp [((hsome r hfirst).2 hacks).1, hacks.not_fails]

/-- What `getlocalip` returns, and which endpoints it leaves. -/
theorem getlocalip_leaves (garbage : UInt8) (recv : Nat → Nat → Receipt) (x : Exchange) :
    ((getlocalip garbage recv x).1 = uSyserr ↔ NoAddress recv x.netData x.udptab) ∧
      (¬ NoAddress recv x.netData x.udptab →
        endpoints (getlocalip garbage recv x).2.udptab = endpoints x.udptab) ∧
      ∀ i a, endpoints x.udptab i = some a →
        endpoints (getlocalip garbage recv x).2.udptab i = some a := by
  unfold getlocalip NoAddress
  by_cases hvalid : x.netData.ipvalid = true
  · rw [if_pos hvalid, if_pos hvalid]
    exact ⟨Iff.rfl, fun _ => rfl, fun _ _ h => h⟩
  rw [if_neg hvalid, if_neg hvalid]
  obtain ⟨x₁, hx₁⟩ : ∃ x₁ : Exchange, { x with boot := none } = x₁ := ⟨_, rfl⟩
  have htab₁ : x₁.udptab = x.udptab := by rw [← hx₁]
  have hnd₁ : x₁.netData = x.netData := by rw [← hx₁]
  have hboot₁ : x₁.boot = none := by rw [← hx₁]
  rw [hx₁, ← htab₁, ← hnd₁]
  cases hopen : udpOpen x₁.udptab 0 udpDhcpSport udpDhcpCport with
  | none =>
      rw [getlocalipBoot_none garbage recv hopen]
      simp
  | some opened =>
      obtain ⟨slot, tab⟩ := opened
      obtain ⟨v, x', hrun, hnone, hsome⟩ := getlocalipBoot_some garbage recv hopen
      rw [hrun]
      cases hfirst : (receipts recv).find? (Decides x₁.netData.ethucast) with
      | none =>
          obtain ⟨hv, htab⟩ := hnone hfirst
          simp [hv, htab]
      | some r =>
          rcases decides_of_find hfirst with hfails | hacks
          · obtain ⟨hv, htab⟩ := (hsome r hfirst).1 hfails
            refine ⟨by simp [hv, hfails], by simp [hfails], fun i a hi => ?_⟩
            obtain ⟨hfree, hadd⟩ := udpOpen_some hopen
            have hne : i ≠ slot := by
              rintro rfl
              rw [hfree] at hi
              exact absurd hi.symm (Option.some_ne_none a)
            show endpoints x'.udptab i = some a
            rw [htab, hadd, update_of_ne hne]
            exact hi
          · obtain ⟨htab, haddr⟩ := (hsome r hfirst).2 hacks
            simp [haddr hboot₁, htab, hacks.not_fails]

/-- The time is asked for over an endpoint that was registered, and there is no address. -/
def AsksInVain (garbage : UInt8) (timeserver : Chars) (calls : TimeCalls) (c : Clock)
    (x : Exchange) : Prop :=
  c.dtBootvalid = false ∧ (dot2ip garbage timeserver 0).1 ≠ uSyserr ∧
    ∃ slot tab, udpOpen x.udptab (dot2ip garbage timeserver 0).2 timerport timelport =
      some (slot, tab) ∧ NoAddress calls.dhcp x.netData tab

theorem getutime_kept_iff (garbage : UInt8) (timeserver : Chars) (clktime : UInt32)
    (calls : TimeCalls) (c : Clock) (x : Exchange) :
    endpoints (getutime garbage timeserver clktime calls c x).2.2.udptab = endpoints x.udptab ↔
      ¬ AsksInVain garbage timeserver calls c x := by
  unfold getutime AsksInVain
  by_cases hvalid : c.dtBootvalid = true
  · rw [if_pos hvalid]
    simp [hvalid]
  rw [if_neg hvalid, Bool.not_eq_true] at *
  obtain ⟨⟨retval, serverip⟩, hserver⟩ : ∃ r, dot2ip garbage timeserver 0 = r := ⟨_, rfl⟩
  rw [hserver]
  dsimp only
  by_cases hretval : retval = uSyserr
  · rw [if_pos hretval]
    simp [hretval]
  rw [if_neg hretval]
  cases hopen : udpOpen x.udptab serverip timerport timelport with
  | none => simp
  | some opened =>
      obtain ⟨slot, tab⟩ := opened
      obtain ⟨hfree, hadd⟩ := udpOpen_some hopen
      dsimp only
      obtain ⟨haddr, hsame, hkeeps⟩ := getlocalip_leaves garbage calls.dhcp { x with udptab := tab }
      generalize getlocalip garbage calls.dhcp { x with udptab := tab } = res at haddr hsame hkeeps ⊢
      obtain ⟨addr, x'⟩ := res
      by_cases hno : NoAddress calls.dhcp x.netData tab
      · rw [if_pos (haddr.mpr hno)]
        refine iff_of_false (fun hkept => ?_) fun hkept => ?_
        · have hslot := hkeeps slot (serverip, timerport, timelport) (by rw [hadd, update_self])
          rw [hkept, hfree] at hslot
          exact absurd hslot.symm (Option.some_ne_none _)
        · exact hkept ⟨hvalid, hretval, slot, tab, rfl, hno⟩
      · have hclosed : endpoints (udpClose x'.udptab slot) = endpoints x.udptab := by
          rw [endpoints_close, hsame hno]
          exact (endpoints_close tab slot).symm.trans (endpoints_reopen hopen)
        rw [if_neg fun hsyserr => hno (haddr.mp hsyserr)]
        refine iff_of_true ?_ fun ⟨_, _, slot', tab', hopen', hno'⟩ => ?_
        · split_ifs
          · exact hclosed
          · exact hclosed
          · exact hclosed
        · obtain ⟨-, rfl⟩ := Prod.mk.inj (Option.some.inj hopen')
          exact hno hno'

/--
The registered endpoints are the same after a call of a client as before it, unless a message that
fails is the first to decide an exchange, or the time is asked for without an address.
-/
theorem endpoints_kept_iff (garbage : UInt8) (x : Exchange) :
    (∀ recv, endpoints (getlocalipBoot garbage recv x).2.udptab = endpoints x.udptab ↔
      ¬ Abandons recv x) ∧
    ∀ timeserver clktime calls c,
      endpoints (getutime garbage timeserver clktime calls c x).2.2.udptab = endpoints x.udptab ↔
        ¬ AsksInVain garbage timeserver calls c x :=
  ⟨fun recv => getlocalipBoot_kept_iff garbage recv x,
    fun timeserver clktime calls c => getutime_kept_iff garbage timeserver clktime calls c x⟩

end Clients

/-- A machine without endpoints and without an address. -/
def newHost : Exchange where
  udptab := (bootNet smallBoard).udptab
  netData := (bootNet smallBoard).netData
  boot := none
  dmsgSnd := fun _ => 0
  len := 0
  sent := []

/-- `udp_recv` returns an error, and always the same result. -/
def noReceive (inlen : Int) : Nat → Nat → Receipt :=
  fun _ _ => ⟨inlen, fun _ => 0⟩

/-- The time server of `date.h`. -/
def timeserver : Chars :=
  chars "128.10.2.6".toUTF8.toList

/-- An error of the first receive leaves the endpoint of DHCP registered, and timeouts that of the
time server. -/
theorem endpoint_abandoned :
    endpoints (getlocalipBoot 0 (noReceive syserr) newHost).2.udptab 0 = some (0, 67, 68) ∧
    (getutime 0 timeserver 0 ⟨noReceive timeout, ok, 4, 0⟩ ⟨0, false, 0⟩ newHost).1 = syserr ∧
    endpoints (getutime 0 timeserver 0 ⟨noReceive timeout, ok, 4, 0⟩ ⟨0, false, 0⟩ newHost).2.2.udptab
      0 = some (0x800A0206, 37, 42345) ∧
    endpoints newHost.udptab 0 = none := by
  decide +kernel

end Dhcp
end Net
end Xinu
