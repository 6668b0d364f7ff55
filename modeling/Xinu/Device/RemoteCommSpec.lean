import Xinu.Device.RemoteComm
import Mathlib.Data.List.GetD

/-!
# Which reply an exchange returns

Requests carry the sequence number of their exchange, and so do the replies to them.  The
remote file client compares the numbers for equality; the remote disk client is content
with a smaller one.

Main results:

- Theorem `Session.numbered`: in every session the messages on the wire have the sequence
  numbers of their exchanges.
- Theorem `rfscomm_holds_reply`: what `rfscomm` returns is a reply to its own request.
- Theorem `rdscomm_holds_reply_iff`: `rdscomm` returns a reply to its own request, unless a
  late reply that it takes for one was received.
-/

namespace Xinu
namespace Remote

open Foundations Function

/-! ## Words of a message -/

/-- Bit `i` of a word whose bytes are reversed. -/
theorem getLsbD_htonl (x : UInt32) {i : Nat} (hi : i < 32) :
    (htonl x).toBitVec.getLsbD i = x.toBitVec.getLsbD (24 - 8 * (i / 8) + i % 8) := by
  unfold htonl
  simp only [UInt32.toBitVec_or, UInt32.toBitVec_and, UInt32.toBitVec_shiftLeft,
    UInt32.toBitVec_shiftRight]
  generalize x.toBitVec = y
  interval_cases i <;> simp

theorem ntohl_htonl (x : UInt32) : ntohl (htonl x) = x := by
  apply UInt32.toBitVec_inj.mp
  apply BitVec.eq_of_getLsbD_eq
  intro i hi
  have hswap : 24 - 8 * (i / 8) + i % 8 < 32 := by omega
  unfold ntohl
  rw [getLsbD_htonl _ hi, getLsbD_htonl _ hswap]
  congr 1
  omega

variable {b b' : Nat → UInt8} {msg bytes : List UInt8} {rlen i : Nat}

theorem load16_congr {k : Nat} (h : ∀ j < 2, b (i + j) = b' (k + j)) :
    load16 b i = load16 b' k := by
  unfold load16
  rw [show b i = b' k from h 0 (by omega), h 1 (by omega)]

theorem load32_congr {k : Nat} (h : ∀ j < 4, b (i + j) = b' (k + j)) :
    load32 b i = load32 b' k := by
  unfold load32
  rw [show b i = b' k from h 0 (by omega), h 1 (by omega), h 2 (by omega), h 3 (by omega)]

/-- A word is what its four bytes say. -/
theorem load32_bytes32 (x : UInt32) : load32 ((bytes32 x).getD · 0) 0 = x := by
  have hx := x.toNat_lt
  apply UInt32.toNat.inj
  unfold load32 bytes32
  simp only [List.getD_cons_zero, List.getD_cons_succ, UInt8.toNat_ofNat', UInt32.toNat_ofNat']
  omega

/-- The sequence number that was stored is the one that is read. -/
theorem seqOf_storeSeq (h : 8 ≤ msg.length) (x : UInt32) : seqOf (storeSeq msg (htonl x)) = x := by
  have hlen : (msg.take 4).length = 4 := List.length_take_of_le (by omega)
  have hload : load32 ((storeSeq msg (htonl x)).getD · 0) 4 =
      load32 ((bytes32 (htonl x)).getD · 0) 0 := by
    apply load32_congr
    intro j hj
    have hj' : j < (bytes32 (htonl x)).length := hj
    unfold storeSeq
    simp only [List.getD_eq_getElem?_getD]
    rw [List.append_assoc, List.getElem?_append_right (by omega), hlen, Nat.add_sub_cancel_left,
      List.getElem?_append_left hj', Nat.zero_add]
  unfold seqOf seqField
  rw [hload, load32_bytes32, ntohl_htonl]

theorem typeField_storeSeq (h : 8 ≤ msg.length) (x : UInt32) :
    typeField ((storeSeq msg x).getD · 0) = typeField (msg.getD · 0) := by
  apply load16_congr
  intro j hj
  have hlen : (msg.take 4).length = 4 := List.length_take_of_le (by omega)
  unfold storeSeq
  simp only [List.getD_eq_getElem?_getD]
  rw [List.append_assoc, List.getElem?_append_left (by omega), List.getElem?_take_of_lt (by omega)]

/-! ## The reply buffer -/

theorem fill_getD {buff : Nat → UInt8} (h : i < rlen) (h' : i < bytes.length) :
    fill rlen bytes buff i = bytes.getD i 0 := by
  unfold fill
  rw [if_pos h, List.getD_eq_getElem _ _ h', List.getD_eq_getElem _ _ h']

theorem holds_fill (rlen : Nat) (bytes : List UInt8) (buff : Nat → UInt8) :
    Holds (fill rlen bytes buff) rlen bytes := by
  intro i hi
  rw [fill_getD (by omega) (by omega), List.getD_eq_getElem _ _ (by omega)]
  exact List.getElem?_eq_getElem (by omega)

/-- The header of a reply, as it stands in the buffer. -/
theorem fill_header (buff : Nat → UInt8) (h : 8 ≤ rlen) (h' : 8 ≤ bytes.length) :
    ntohl (seqField (fill rlen bytes buff)) = seqOf bytes ∧
      typeField (fill rlen bytes buff) = typeField (bytes.getD · 0) ∧
      statusField (fill rlen bytes buff) = statusField (bytes.getD · 0) := by
  have hsame : ∀ j < 8, fill rlen bytes buff j = bytes.getD j 0 := by
    intro j hj
    exact fill_getD (by omega) (by omega)
  refine ⟨?_, ?_, ?_⟩
  · have hload : load32 (fill rlen bytes buff) 4 = load32 (bytes.getD · 0) 4 :=
      load32_congr fun j hj => hsame (4 + j) (by omega)
    unfold seqOf seqField
    rw [hload]
  · exact load16_congr fun j hj => hsame (0 + j) (by omega)
  · exact load16_congr fun j hj => hsame (2 + j) (by omega)

/-! ## The messages on the wire -/

/-- Every exchange has its own sequence number, counted from `seq₀`, and the messages of
an exchange carry it. -/
structure Numbered (seq₀ : UInt32) (w : World) : Prop where
  next : w.seq = seq₀ + UInt32.ofNat w.made
  requests : ∀ q ∈ w.requests,
    q.exchange < w.made ∧ seqOf q.bytes = seq₀ + UInt32.ofNat q.exchange
  replies : ∀ r ∈ w.replies,
    r.exchange < w.made ∧ seqOf r.bytes = seq₀ + UInt32.ofNat r.exchange ∧ 8 ≤ r.bytes.length

/-- A server that does what the claim about it says. -/
def Copies (answers : List UInt8 → List UInt8 → Prop) : Prop :=
  ∀ q r, answers q r → CopiesSeq q r

variable {answers : List UInt8 → List UInt8 → Prop} {seq₀ : UInt32} {w w' : World}

theorem World.Begins.numbered (h : w.Begins seq₀) : Numbered seq₀ w := by
  obtain ⟨hseq, hmade, hreq, hrep⟩ := h
  constructor
  · rw [hseq, hmade]
    exact (UInt32.add_zero seq₀).symm
  · intro q hq
    rw [hreq] at hq
    contradiction
  · intro r hr
    rw [hrep] at hr
    contradiction

/-- Replies are as numbered as the requests they answer. -/
theorem Numbered.between (hcopies : Copies answers) (h : Numbered seq₀ w)
    (hw : Between answers w w') : Numbered seq₀ w' := by
  have hmade : w'.made = w.made := by rw [hw.same]
  have hseq : w'.seq = w.seq := by rw [hw.same]
  have hreq : w'.requests = w.requests := by rw [hw.same]
  constructor
  · rw [hseq, hmade]
    exact h.next
  · rw [hreq, hmade]
    exact h.requests
  · intro r hr
    rw [hmade]
    rcases hw.answered r hr with hold | ⟨q, hq, hexch, hans⟩
    · exact h.replies r hold
    · obtain ⟨hlen, hsame⟩ := hcopies q.bytes r.bytes hans
      have hnum := h.requests q hq
      rw [hexch] at hnum
      exact ⟨hnum.1, hsame.trans hnum.2, hlen⟩

/-- A request of the exchange that is being made. -/
theorem Numbered.sent (h : Numbered seq₀ w) {n : Nat} (hn : n < w.made)
    (hseq : seqOf msg = seq₀ + UInt32.ofNat n) :
    Numbered seq₀ { w with requests := w.requests ++ [⟨n, msg⟩] } := by
  constructor
  · exact h.next
  · intro q hq
    rcases List.mem_append.mp hq with hq | hq
    · exact h.requests q hq
    · rw [List.mem_singleton.mp hq]
      exact ⟨hn, hseq⟩
  · exact h.replies

/-- The next exchange begins. -/
theorem Numbered.begun (h : Numbered seq₀ w) :
    Numbered seq₀ { w with seq := w.seq + 1, made := w.made + 1 } := by
  constructor
  · show w.seq + 1 = seq₀ + UInt32.ofNat (w.made + 1)
    rw [h.next, UInt32.ofNat_add, UInt32.add_assoc]
    rfl
  · intro q hq
    have hnum := h.requests q hq
    exact ⟨Nat.lt_succ_of_lt hnum.1, hnum.2⟩
  · intro r hr
    have hnum := h.replies r hr
    exact ⟨Nat.lt_succ_of_lt hnum.1, hnum.2⟩

/-! ## One exchange -/

/-- Exchange `n` is being made. -/
structure Exchanging (seq₀ : UInt32) (n : Nat) (w : World) : Prop where
  numbered : Numbered seq₀ w
  made : w.made = n + 1

variable {n : Nat}

theorem Exchanging.between (hcopies : Copies answers) (h : Exchanging seq₀ n w)
    (hw : Between answers w w') : Exchanging seq₀ n w' := by
  have hmade : w'.made = w.made := by rw [hw.same]
  exact ⟨h.numbered.between hcopies hw, hmade.trans h.made⟩

/-- The state of the exchange after a part of it, in which nothing was received. -/
def Waited (seq₀ : UInt32) (n : Nat) (w w' : World) : Prop :=
  Exchanging seq₀ n w' ∧ w'.taken = w.taken

/-- A datagram was received, and copied to the buffer. -/
def Took (seq₀ : UInt32) (n rlen : Nat) (w : World) (v : Int) (w' : World) : Prop :=
  Exchanging seq₀ n w' ∧ ∃ d ∈ w'.replies, v = (min rlen d.bytes.length : Nat) ∧
    w'.taken = w.taken ++ [d] ∧ ∃ buff, w'.reply = fill rlen d.bytes buff

theorem udpSend_returns (hcopies : Copies answers) (h : Exchanging seq₀ n w)
    (hseq : seqOf msg = seq₀ + UInt32.ofNat n) :
    (udpSend n msg w).Returns (Between answers) fun _ w' => Waited seq₀ n w w' := by
  simp only [udpSend, Coop.run_bind, Coop.run_giveAway, Flow.bind_suspended, Flow.bind_done,
    Coop.run_get, Coop.run_ite, Flow.Returns]
  intro w' hw
  have hw' := h.between hcopies hw
  have htaken : w'.taken = w.taken := by rw [hw.same]
  by_cases hres : w'.result = syserr
  · rw [if_neg (not_not_intro hres)]
    exact ⟨hw', htaken⟩
  · have hn : n < w'.made := by
      rw [hw'.made]
      exact Nat.lt_succ_self n
    rw [if_pos hres]
    exact ⟨⟨hw'.numbered.sent hn hseq, hw'.made⟩, htaken⟩

theorem transmit_returns (hcopies : Copies answers) (h : Exchanging seq₀ n w)
    (hseq : seqOf msg = seq₀ + UInt32.ofNat n) (xmit : Bool) :
    (transmit n msg xmit w).Returns (Between answers) fun _ w' => Waited seq₀ n w w' := by
  unfold transmit
  cases xmit with
  | true => exact udpSend_returns hcopies h hseq
  | false => exact ⟨h, rfl⟩

theorem udpRecv_returns (hcopies : Copies answers) (h : Exchanging seq₀ n w) (rlen : Nat) :
    (udpRecv rlen w).Returns (Between answers) fun v w' =>
      ((v = syserr ∨ v = timeout) ∧ Waited seq₀ n w w') ∨ Took seq₀ n rlen w v w' := by
  simp only [udpRecv, Coop.run_bind, Coop.run_giveAway, Flow.bind_suspended, Flow.bind_done,
    Coop.run_get, Flow.Returns]
  intro w' hw
  have hw' := h.between hcopies hw
  have htaken : w'.taken = w.taken := by rw [hw.same]
  cases harr : w'.arrival with
  | syserr => exact Or.inl ⟨Or.inl rfl, hw', htaken⟩
  | timeout => exact Or.inl ⟨Or.inr rfl, hw', htaken⟩
  | packet d =>
      have hnum : Numbered seq₀ w' := hw'.numbered
      refine Or.inr ⟨⟨⟨hnum.next, hnum.requests, hnum.replies⟩, hw'.made⟩, d,
        hw.delivered d harr, rfl, ?_, w'.reply, rfl⟩
      show w'.taken ++ [d] = w.taken ++ [d]
      rw [htaken]

/-- What `rfscomm` returns if it returns a length. -/
def Got (seq : UInt32) (rlen : Nat) (v : Int) (w : World) : Prop :=
  ∃ d ∈ w.replies, w.taken.getLast? = some d ∧ seqOf d.bytes = seq ∧
    v = (min rlen d.bytes.length : Nat) ∧ Holds w.reply rlen d.bytes

theorem rfsTries_returns (hcopies : Copies answers) (seq : UInt32) (hrlen : 8 ≤ rlen)
    (hseq : seqOf msg = seq₀ + UInt32.ofNat n) (h : Exchanging seq₀ n w) (i : Nat) :
    (rfsTries n msg seq rlen i w).Returns (Between answers) fun v w' =>
      Exchanging seq₀ n w' ∧ (0 ≤ v → Got seq rlen v w') := by
  have hneg : ∀ v, v = syserr ∨ v = timeout → ¬ 0 ≤ v := by
    intro v hv
    unfold syserr timeout at hv
    omega
  induction i generalizing w with
  | zero => exact ⟨h, fun hv => (hneg timeout (Or.inr rfl) hv).elim⟩
  | succ i ih =>
      unfold rfsTries
      rw [Coop.run_bind, Flow.returns_bind]
      refine (udpSend_returns hcopies h hseq).mono ?_
      rintro sent w₁ ⟨h₁, -⟩
      by_cases hsent : sent = syserr
      · rw [if_pos hsent]
        exact ⟨h₁, fun hv => (hneg syserr (Or.inl rfl) hv).elim⟩
      rw [if_neg hsent, Coop.run_bind, Flow.returns_bind]
      refine (udpRecv_returns hcopies h₁ rlen).mono ?_
      rintro v w₂ (⟨hv, h₂, -⟩ | ⟨h₂, d, hd, hv, htaken, buff, hbuff⟩)
      · by_cases htime : v = timeout
        · rw [if_pos htime]
          exact ih h₂
        · have hsys : v = syserr := hv.resolve_right htime
          rw [if_neg htime, if_pos hsys]
          exact ⟨h₂, fun hv => (hneg syserr (Or.inl rfl) hv).elim⟩
      · have hpos : 0 ≤ v := by omega
        have htime : v ≠ timeout := fun hv => hneg v (Or.inr hv) hpos
        have hsys : v ≠ syserr := fun hv => hneg v (Or.inl hv) hpos
        have hlen := (h₂.numbered.replies d hd).2.2
        rw [if_neg htime, if_neg hsys, Coop.run_bind, Coop.run_get, Flow.bind_done]
        simp only [hbuff, (fill_header buff hrlen hlen).1]
        by_cases hmatch : seqOf d.bytes = seq
        · rw [if_neg (not_not_intro hmatch)]
          by_cases htype : typeDiffers msg (fill rlen d.bytes buff)
          · rw [if_pos htype]
            exact ih h₂
          · rw [if_neg htype]
            refine ⟨h₂, fun _ => ⟨d, hd, ?_, hmatch, hv, ?_⟩⟩
            · rw [htaken, List.getLast?_append, List.getLast?_singleton]
              rfl
            · rw [hbuff]
              exact holds_fill rlen d.bytes buff
        · rw [if_pos hmatch]
          exact ih h₂

/-! ## Sessions -/

/-- The exchange has not begun. -/
structure Early (seq₀ : UInt32) (w w' : World) : Prop where
  numbered : Numbered seq₀ w'
  made : w'.made = w.made
  seq : w'.seq = w.seq
  taken : w'.taken = w.taken

theorem Early.between (hcopies : Copies answers) {w₁ : World} (h : Early seq₀ w w₁)
    (hw : Between answers w₁ w') : Early seq₀ w w' := by
  have hsame : w'.made = w₁.made ∧ w'.seq = w₁.seq ∧ w'.taken = w₁.taken := by
    rw [hw.same]
    exact ⟨rfl, rfl, rfl⟩
  exact ⟨h.numbered.between hcopies hw, hsame.1.trans h.made, hsame.2.1.trans h.seq,
    hsame.2.2.trans h.taken⟩

theorem Numbered.early (h : Numbered seq₀ w) : Early seq₀ w w :=
  ⟨h, rfl, rfl, rfl⟩

theorem Early.trans {w₁ : World} (h : Early seq₀ w w₁) (h' : Early seq₀ w₁ w') :
    Early seq₀ w w' :=
  ⟨h'.numbered, h'.made.trans h.made, h'.seq.trans h.seq, h'.taken.trans h.taken⟩

theorem registerPort_returns (hcopies : Copies answers) (h : Numbered seq₀ w) :
    (registerPort w).Returns (Between answers) fun _ w' => Early seq₀ w w' := by
  simp only [registerPort, udpRegister, Coop.run_bind, Coop.run_get, Flow.bind_done, Coop.run_ite]
  by_cases hreg : w.registered = true
  · rw [if_pos hreg]
    exact h.early
  · rw [if_neg hreg]
    intro w' hw
    have hw' := h.early.between hcopies hw
    by_cases hres : w'.result = syserr
    · simp only [Coop.run_bind, Flow.bind_done, Coop.run_pure, Coop.run_get, Coop.run_ite, hres]
      exact hw'
    · simp only [Coop.run_bind, Flow.bind_done, Coop.run_pure, Coop.run_get, Coop.run_ite, hres]
      have hnum : Numbered seq₀ w' := hw'.numbered
      exact ⟨⟨hnum.next, hnum.requests, hnum.replies⟩, hw'.made, hw'.seq, hw'.taken⟩

theorem needAddress_returns (hcopies : Copies answers) (h : Numbered seq₀ w) :
    (needAddress w).Returns (Between answers) fun _ w' => Early seq₀ w w' := by
  simp only [needAddress, getlocalip, Coop.run_bind, Coop.run_get, Flow.bind_done, Coop.run_ite]
  by_cases hvalid : w.ipvalid = true
  · rw [if_pos hvalid]
    exact h.early
  · rw [if_neg hvalid]
    intro w' hw
    have hw' := h.early.between hcopies hw
    simp only [Coop.run_bind, Flow.bind_done, Coop.run_get, Coop.run_ite]
    by_cases hres : w'.result = syserr
    · rw [if_neg (not_not_intro hres)]
      exact hw'
    · rw [if_pos hres]
      have hnum : Numbered seq₀ w' := hw'.numbered
      exact ⟨⟨hnum.next, hnum.requests, hnum.replies⟩, hw'.made, hw'.seq, hw'.taken⟩

/-- The exchange has begun: its number is the one that `made` was, and the sequence number
that it is given is the one of the messages of that exchange. -/
theorem Early.exchanging {w₁ : World} (h : Early seq₀ w w₁) :
    Exchanging seq₀ w.made { w₁ with seq := w₁.seq + 1, made := w₁.made + 1 } ∧
      w₁.seq = seq₀ + UInt32.ofNat w.made := by
  constructor
  · exact ⟨h.numbered.begun, congrArg (· + 1) h.made⟩
  · rw [h.numbered.next, h.made]

theorem rfscomm_returns (hcopies : Copies answers) (h : Numbered seq₀ w) (c : Call rfMsgHdrSize) :
    (rfscomm c w).Returns (Between answers) fun v w' =>
      Numbered seq₀ w' ∧ w'.made ≤ w.made + 1 ∧ (0 ≤ v → Got w.seq c.rlen v w') := by
  have hmsg : 8 ≤ c.msg.length := Nat.le_trans (by decide) c.hdr_le_msg
  have hrlen : 8 ≤ c.rlen := Nat.le_trans (by decide) c.hdr_le_reply
  unfold rfscomm
  rw [Coop.run_bind, Flow.returns_bind]
  refine (registerPort_returns hcopies h).mono ?_
  intro retval w₁ h₁
  by_cases hret : retval = syserr
  · rw [if_pos hret]
    exact ⟨h₁.numbered, Nat.le_succ_of_le (Nat.le_of_eq h₁.made), fun hv => absurd hv (by decide)⟩
  · rw [if_neg hret]
    have hbegun := h₁.exchanging
    have hseq : seqOf (storeSeq c.msg (htonl w₁.seq)) = seq₀ + UInt32.ofNat w.made :=
      (seqOf_storeSeq hmsg w₁.seq).trans hbegun.2
    show Flow.Returns _ _ (rfsTries w₁.made _ w₁.seq c.rlen rfRetries _)
    rw [h₁.made]
    refine (rfsTries_returns hcopies w₁.seq hrlen hseq hbegun.1 rfRetries).mono ?_
    rintro v w₂ ⟨h₂, hgot⟩
    rw [← h₁.seq]
    exact ⟨h₂.numbered, Nat.le_of_eq h₂.made, hgot⟩

/-- Every session keeps the messages numbered, and has made no more exchanges than calls. -/
theorem Session.numbered {κ : Type} {comm : κ → CommM Int} {k : Nat} (hcopies : Copies answers)
    (hcomm : ∀ c w, Numbered seq₀ w → w.taken = [] →
      (comm c w).Returns (Between answers) fun _ w' =>
        Numbered seq₀ w' ∧ w'.made ≤ w.made + 1)
    (h : Session answers comm seq₀ k w) : Numbered seq₀ w ∧ w.made ≤ k := by
  induction h with
  | start hbegins => exact ⟨hbegins.numbered, Nat.le_of_eq hbegins.2.1⟩
  | wait hsession hw ih =>
      have hmade := congrArg World.made hw.same
      exact ⟨ih.1.between hcopies hw, by rw [hmade]; exact ih.2⟩
  | call hsession buff hcall ih =>
      have hentered : Numbered seq₀ (World.entered _ buff) :=
        ⟨ih.1.next, ih.1.requests, ih.1.replies⟩
      have hafter := (hcomm _ _ hentered rfl).reaches hcall
      exact ⟨hafter.1, Nat.le_trans hafter.2 (Nat.succ_le_succ ih.2)⟩

/-- One more thing that the script says. -/
theorem Between.move [∀ q r, Decidable (answers q r)] (h : Between answers w w') (move : Move) :
    Between answers w (move.apply answers w') := by
  cases move with
  | result v =>
      refine ⟨?_, h.answered, h.kept, h.delivered⟩
      rw [h.same]
      rfl
  | answer request reply =>
      simp only [Move.apply]
      split
      · exact h
      · next q hq =>
          have hmem : q ∈ w.requests := by
            have hreq := congrArg World.requests h.same
            rw [← hreq]
            exact List.mem_of_getElem? hq
          split
          · next hans =>
              refine ⟨?_, ?_, ?_, ?_⟩
              · rw [h.same]
              · intro r hr
                rcases List.mem_append.mp hr with hr | hr
                · exact h.answered r hr
                · rw [List.mem_singleton.mp hr]
                  exact Or.inr ⟨q, hmem, rfl, hans⟩
              · exact fun r hr => List.mem_append_left _ (h.kept r hr)
              · exact fun d hd => List.mem_append_left _ (h.delivered d hd)
          · exact h
  | deliver reply =>
      simp only [Move.apply]
      split
      · refine ⟨?_, h.answered, h.kept, fun d hd => by cases hd⟩
        rw [h.same]
      · next d hd =>
          refine ⟨?_, h.answered, h.kept, ?_⟩
          · rw [h.same]
          · intro e he
            cases he
            exact List.mem_of_getElem? hd

/-- What the script makes the network do is what a network may do. -/
theorem between_play [∀ q r, Decidable (answers q r)] (moves : List Move) (w : World) :
    Between answers w (play answers moves w) := by
  have hall : ∀ w', Between answers w w' →
      Between answers w (moves.foldl (Move.apply answers) w') := by
    induction moves with
    | nil => exact fun w' h => h
    | cons move moves ih => exact fun w' h => ih _ (h.move move)
  exact hall _ ⟨rfl, fun r hr => Or.inl hr, fun r hr => hr, fun d hd => by cases hd⟩

/-- A call that is played from a script is a call of a session. -/
theorem reaches_of_script [∀ q r, Decidable (answers q r)] {x : CommM Int}
    {script : List (List Move)} {v : Int}
    (h : (x w).feed (script.map (play answers)) = some (v, w')) :
    (x w).Reaches (Between answers) v w' := by
  apply Flow.reaches_of_feed ?_ h
  intro move hmove u
  obtain ⟨moves, -, rfl⟩ := List.mem_map.mp hmove
  exact between_play moves u

/-- Two exchanges among fewer than 2³² have different sequence numbers. -/
theorem seq_injective {m : Nat} (hm : m < 0x100000000) (hn : n < 0x100000000)
    (h : seq₀ + UInt32.ofNat m = seq₀ + UInt32.ofNat n) : m = n := by
  have hnat := congrArg UInt32.toNat (UInt32.add_right_inj seq₀ |>.mp h)
  rw [UInt32.toNat_ofNat', UInt32.toNat_ofNat'] at hnat
  omega

theorem rfsAnswers_copies : Copies RfsAnswers :=
  fun _ _ h => h.1

/-- Whenever `rfscomm` returns a length, the reply buffer holds a reply of the server to the
request that this call has sent. -/
theorem rfscomm_holds_reply {seq : UInt32} {k : Nat} {w w' : World} {c : Call rfMsgHdrSize}
    {v : Int} {buff : Nat → UInt8} (hsession : Session RfsAnswers rfscomm seq k w)
    (hfew : k + 1 < 0x100000000)
    (hcall : (rfscomm c (w.entered buff)).Reaches (Between RfsAnswers) v w') (hv : 0 ≤ v) :
    HoldsReply w.made c.rlen w' := by
  have hspec := fun c w (h : Numbered seq w) => rfscomm_returns rfsAnswers_copies h c
  obtain ⟨hnum, hmade⟩ := hsession.numbered rfsAnswers_copies fun c w h _ =>
    (hspec c w h).mono fun _ _ hpost => ⟨hpost.1, hpost.2.1⟩
  have hentered : Numbered seq (w.entered buff) := ⟨hnum.next, hnum.requests, hnum.replies⟩
  obtain ⟨hnum', hmade', hgot⟩ := (hspec c _ hentered).reaches hcall
  obtain ⟨d, hd, hlast, hseq, -, hholds⟩ := hgot hv
  have hlt : d.exchange < w'.made := (hnum'.replies d hd).1
  have hmade'' : w'.made ≤ w.made + 1 := hmade'
  have hsame : seq + UInt32.ofNat d.exchange = seq + UInt32.ofNat w.made := by
    rw [← (hnum'.replies d hd).2.1, hseq]
    exact hnum.next
  have hexch : d.exchange = w.made := seq_injective (by omega) (by omega) hsame
  exact ⟨d, hd, hlast, hexch, hholds⟩

/-- The client as `rfsinit` and `rdsinit` leave it. -/
def bootWorld : World where
  registered := false
  slot := 0
  seq := 1
  ipvalid := false
  reply := fun _ => 0
  made := 0
  requests := []
  replies := []
  taken := []
  result := 0
  arrival := .timeout

theorem bootWorld_begins : bootWorld.Begins 1 :=
  ⟨rfl, rfl, rfl, rfl⟩

/-- A request to delete a file. -/
def deleteRequest : Call rfMsgHdrSize where
  msg := [0, 4] ++ List.replicate 134 0
  rlen := rfMsgHdrSize
  hdr_le_msg := by
    rw [List.length_append, List.length_replicate]
    decide
  hdr_le_reply := by decide

/-- The port is registered, the request is lost once, and then answered. -/
def deleteScript : List (List Move) :=
  [[], [.result 1], [], [], [.answer 1 ([1, 4, 0, 0, 0, 0, 0, 1] ++ List.replicate 128 0),
    .deliver 0]]

theorem rfscomm_holds_reply_deleted :
    ∃ w', (rfscomm deleteRequest (bootWorld.entered fun _ => 0)).Reaches (Between RfsAnswers)
      136 w' ∧ HoldsReply 0 136 w' := by
  have hplay : ((rfscomm deleteRequest (bootWorld.entered fun _ => 0)).feed
      (deleteScript.map (play RfsAnswers))).map Prod.fst = some 136 := by
    decide +kernel
  obtain ⟨⟨v, w'⟩, hfeed, rfl⟩ := Option.map_eq_some_iff.mp hplay
  have hcall := reaches_of_script hfeed
  exact ⟨w', hcall, rfscomm_holds_reply (.start bootWorld_begins) (by omega) hcall (by omega)⟩

/-! ## The remote disk -/

/-- The three tests that `rdscomm` makes before it returns `OK`. -/
def Passes (msg : List UInt8) (seq : UInt32) (bytes : List UInt8) : Prop :=
  seqOf bytes ≤ seq ∧ ¬ typeDiffers msg (bytes.getD · 0) ∧
    ntohs (statusField (bytes.getD · 0)) = 0

/-- What `rdscomm` has received when it returns `OK`: the last datagram passes the tests
and is in the buffer. -/
def Accepted (msg : List UInt8) (seq : UInt32) (rlen : Nat) (w : World) : Prop :=
  ∃ d ∈ w.replies, ∃ skipped, w.taken = skipped ++ [d] ∧
    (∀ e ∈ skipped, ¬ Passes msg seq e.bytes) ∧ Passes msg seq d.bytes ∧
      Holds w.reply rlen d.bytes

/-- All that was received was skipped. -/
def Skipped (msg : List UInt8) (seq : UInt32) (w : World) : Prop :=
  ∀ e ∈ w.taken, ¬ Passes msg seq e.bytes

theorem Skipped.waited {seq : UInt32} (h : Skipped msg seq w) (hw : Waited seq₀ n w w') :
    Skipped msg seq w' := by
  intro e he
  rw [hw.2] at he
  exact h e he

/-- One more datagram that does not pass. -/
theorem Skipped.snoc {seq : UInt32} {d : Datagram} (h : Skipped msg seq w)
    (htaken : w'.taken = w.taken ++ [d]) (hd : ¬ Passes msg seq d.bytes) :
    Skipped msg seq w' := by
  intro e he
  rw [htaken] at he
  rcases List.mem_append.mp he with he | he
  · exact h e he
  · rw [List.mem_singleton.mp he]
    exact hd

theorem typeDiffers_congr (msg : List UInt8) (h : typeField b = typeField b') :
    typeDiffers msg b ↔ typeDiffers msg b' := by
  unfold typeDiffers
  rw [h]

theorem rdsTries_returns (hcopies : Copies answers) (seq : UInt32) (hrlen : 8 ≤ rlen)
    (hseq : seqOf msg = seq₀ + UInt32.ofNat n) (h : Exchanging seq₀ n w)
    (hskipped : Skipped msg seq w) (i : Nat) (xmit : Bool) :
    (rdsTries n msg seq rlen i xmit w).Returns (Between answers) fun v w' =>
      Exchanging seq₀ n w' ∧
        (v = ok ∧ Accepted msg seq rlen w' ∨ v ≠ ok ∧ Skipped msg seq w') := by
  have hbad : ∀ v, v = syserr ∨ v = timeout → v ≠ ok := by
    intro v hv
    unfold syserr timeout at hv
    unfold ok
    omega
  induction i generalizing w xmit with
  | zero => exact ⟨h, Or.inr ⟨hbad timeout (Or.inr rfl), hskipped⟩⟩
  | succ i ih =>
      unfold rdsTries
      rw [Coop.run_bind, Flow.returns_bind]
      refine (transmit_returns hcopies h hseq xmit).mono ?_
      intro sent w₁ hw₁
      have h₁ := hw₁.1
      have hskipped₁ := hskipped.waited hw₁
      by_cases hsent : sent = syserr
      · rw [if_pos hsent]
        exact ⟨h₁, Or.inr ⟨hbad syserr (Or.inl rfl), hskipped₁⟩⟩
      rw [if_neg hsent, Coop.run_bind, Flow.returns_bind]
      refine (udpRecv_returns hcopies h₁ rlen).mono ?_
      rintro v w₂ (⟨hv, hw₂⟩ | ⟨h₂, d, hd, hv, htaken, buff, hbuff⟩)
      · have hskipped₂ := hskipped₁.waited hw₂
        by_cases htime : v = timeout
        · rw [if_pos htime]
          exact ih hw₂.1 hskipped₂ true
        · have hsys : v = syserr := hv.resolve_right htime
          rw [if_neg htime, if_pos hsys]
          exact ⟨hw₂.1, Or.inr ⟨hbad syserr (Or.inl rfl), hskipped₂⟩⟩
      · have hpos : 0 ≤ v := by omega
        have htime : v ≠ timeout := by
          unfold timeout
          omega
        have hsys : v ≠ syserr := by
          unfold syserr
          omega
        have hlen := (h₂.numbered.replies d hd).2.2
        obtain ⟨hseqd, htyped, hstatusd⟩ := fill_header buff hrlen hlen
        rw [if_neg htime, if_neg hsys, Coop.run_bind, Coop.run_get, Flow.bind_done]
        simp only [hbuff, hseqd, hstatusd]
        have htype := typeDiffers_congr msg htyped
        by_cases hlater : ¬ seqOf d.bytes < seq ∧ seqOf d.bytes ≠ seq
        · rw [if_pos hlater]
          refine ih h₂ (hskipped₁.snoc htaken ?_) true
          rintro ⟨hle, -⟩
          exact hlater.2 (UInt32.le_antisymm hle (UInt32.not_lt.mp hlater.1))
        rw [if_neg hlater]
        by_cases hdiffers : typeDiffers msg (fill rlen d.bytes buff)
        · rw [if_pos hdiffers]
          refine ih h₂ (hskipped₁.snoc htaken ?_) _
          rintro ⟨-, hsame, -⟩
          exact hsame (htype.mp hdiffers)
        rw [if_neg hdiffers]
        by_cases hstatus : ntohs (statusField (d.bytes.getD · 0)) = 0
        · rw [if_neg (not_not_intro hstatus)]
          refine ⟨h₂, Or.inl ⟨rfl, d, hd, w₁.taken, htaken, hskipped₁, ⟨?_, ?_, hstatus⟩, ?_⟩⟩
          · by_contra hnot
            have hlt : seq < seqOf d.bytes := UInt32.not_le.mp hnot
            exact hlater ⟨UInt32.lt_asymm hlt, (UInt32.ne_of_lt hlt).symm⟩
          · exact fun hd => hdiffers (htype.mpr hd)
          · rw [hbuff]
            exact holds_fill rlen d.bytes buff
        · rw [if_pos hstatus]
          refine ⟨h₂, Or.inr ⟨hbad syserr (Or.inl rfl), hskipped₁.snoc htaken ?_⟩⟩
          rintro ⟨-, -, hzero⟩
          exact hstatus hzero

/-- The type of the request is the one that the caller has chosen. -/
theorem passes_storeSeq (h : 8 ≤ msg.length) (x seq : UInt32) (bytes : List UInt8) :
    Passes (storeSeq msg x) seq bytes ↔ Passes msg seq bytes := by
  unfold Passes typeDiffers
  rw [typeField_storeSeq h]

theorem rdscomm_returns (hcopies : Copies answers) (h : Numbered seq₀ w) (htaken : w.taken = [])
    (c : Call rdMsgHdrSize) :
    (rdscomm c w).Returns (Between answers) fun v w' =>
      (Numbered seq₀ w' ∧ w'.made ≤ w.made + 1) ∧
        (v = ok ∧ Accepted c.msg w.seq c.rlen w' ∨ v ≠ ok ∧ Skipped c.msg w.seq w') := by
  have hmsg : 8 ≤ c.msg.length := Nat.le_trans (by decide) c.hdr_le_msg
  have hrlen : 8 ≤ c.rlen := Nat.le_trans (by decide) c.hdr_le_reply
  have hsyserr : syserr ≠ ok := by decide
  have hearly : ∀ w', Early seq₀ w w' → Skipped c.msg w.seq w' := by
    intro w' hw' e he
    rw [hw'.taken, htaken] at he
    contradiction
  unfold rdscomm
  rw [Coop.run_bind, Flow.returns_bind]
  refine (registerPort_returns hcopies h).mono ?_
  intro retval w₁ h₁
  by_cases hret : retval = syserr
  · rw [if_pos hret]
    exact ⟨⟨h₁.numbered, Nat.le_succ_of_le (Nat.le_of_eq h₁.made)⟩,
      Or.inr ⟨hsyserr, hearly w₁ h₁⟩⟩
  rw [if_neg hret, Coop.run_bind, Flow.returns_bind]
  refine (needAddress_returns hcopies h₁.numbered).mono ?_
  intro localip w₂ h₁₂
  have h₂ := h₁.trans h₁₂
  by_cases hip : localip = syserr
  · rw [if_pos hip]
    exact ⟨⟨h₂.numbered, Nat.le_succ_of_le (Nat.le_of_eq h₂.made)⟩,
      Or.inr ⟨hsyserr, hearly w₂ h₂⟩⟩
  rw [if_neg hip]
  have hbegun := h₂.exchanging
  have hseq : seqOf (storeSeq c.msg (htonl w₂.seq)) = seq₀ + UInt32.ofNat w.made :=
    (seqOf_storeSeq hmsg w₂.seq).trans hbegun.2
  have hskipped : Skipped (storeSeq c.msg (htonl w₂.seq)) w₂.seq
      { w₂ with seq := w₂.seq + 1, made := w₂.made + 1 } := by
    intro e he
    rw [show _ = w.taken from h₂.taken, htaken] at he
    contradiction
  show Flow.Returns _ _ (rdsTries w₂.made _ w₂.seq c.rlen rdRetries true _)
  rw [h₂.made]
  refine (rdsTries_returns hcopies w₂.seq hrlen hseq hbegun.1 hskipped rdRetries true).mono ?_
  rintro v w₃ ⟨h₃, hpost⟩
  rw [← h₂.seq]
  simp only [Accepted, Skipped, passes_storeSeq hmsg] at hpost
  exact ⟨⟨h₃.numbered, Nat.le_of_eq h₃.made⟩, hpost⟩

/-- A datagram that answers another exchange, but passes the tests: its sequence number is
at most the one of the request. -/
def LateReply (c : Call rdMsgHdrSize) (w : World) (d : Datagram) : Prop :=
  d.exchange ≠ w.made ∧ Passes c.msg w.seq d.bytes

theorem copiesSeq_copies : Copies CopiesSeq :=
  fun _ _ h => h

/-- If `rdscomm` returns `OK`, the reply buffer holds a reply of the server to the request
that this call has sent: this is so if and only if the call has received no late reply. -/
theorem rdscomm_holds_reply_iff {seq : UInt32} {k : Nat} {w w' : World} {c : Call rdMsgHdrSize}
    {v : Int} {buff : Nat → UInt8} (hsession : Session CopiesSeq rdscomm seq k w)
    (hcall : (rdscomm c (w.entered buff)).Reaches (Between CopiesSeq) v w') :
    (v = ok → HoldsReply w.made c.rlen w') ↔ ∀ d ∈ w'.taken, ¬ LateReply c w d := by
  have hnum : Numbered seq w := (hsession.numbered copiesSeq_copies fun c w h htaken =>
    (rdscomm_returns copiesSeq_copies h htaken c).mono fun _ _ hpost => hpost.1).1
  have hentered : Numbered seq (w.entered buff) := ⟨hnum.next, hnum.requests, hnum.replies⟩
  have hpost := ((rdscomm_returns copiesSeq_copies hentered rfl c).reaches hcall).2
  constructor
  · rintro hholds d hd ⟨hother, hpasses⟩
    rcases hpost with ⟨hok, e, -, skipped, htaken, hnot, -⟩ | ⟨-, hskipped⟩
    · obtain ⟨d', -, hlast, hexch, -⟩ := hholds hok
      rw [htaken, List.getLast?_append, List.getLast?_singleton] at hlast
      have hed : e = d' := Option.some.inj hlast
      rw [htaken] at hd
      rcases List.mem_append.mp hd with hd | hd
      · exact hnot d hd hpasses
      · rw [List.mem_singleton.mp hd, hed] at hother
        exact hother hexch
    · exact hskipped d hd hpasses
  · intro hnone hok
    rcases hpost with ⟨-, d, hd, skipped, htaken, -, hpasses, hholds⟩ | ⟨hnot, -⟩
    · have hmem : d ∈ w'.taken := by
        rw [htaken]
        exact List.mem_append_right skipped (List.mem_singleton_self d)
      refine ⟨d, hd, ?_, ?_, hholds⟩
      · rw [htaken, List.getLast?_append, List.getLast?_singleton]
        rfl
      · by_contra hother
        exact hnone d hmem ⟨hother, hpasses⟩
    · exact absurd hok hnot

/-- A request to read a block of the disk. -/
def readRequest : Call rdMsgHdrSize where
  msg := [0, 0x10] ++ List.replicate 74 0
  rlen := 588
  hdr_le_msg := by
    rw [List.length_append, List.length_replicate]
    decide
  hdr_le_reply := by decide

/-- The reply of the server to the read request with sequence number `seq`. -/
def readReply (seq : UInt8) : List UInt8 :=
  [1, 0x10, 0, 0, 0, 0, 0, seq] ++ List.replicate 580 0

def firstRead : List (List Move) :=
  [[], [], [.result 1], [.answer 0 (readReply 1), .deliver 0]]

/-- The reply to the first request arrives a second time. -/
def secondRead : List (List Move) :=
  [[.result 1], [.deliver 0]]

/-- The world between the two reads, the result of the second and the world after it. -/
def twoReads : Option (World × Int × World) :=
  ((rdscomm readRequest (bootWorld.entered fun _ => 0)).feed
    (firstRead.map (play CopiesSeq))).bind fun r =>
      ((rdscomm readRequest (r.2.entered fun _ => 0)).feed
        (secondRead.map (play CopiesSeq))).map fun r' => (r.2, r')

/-- A duplicate of the reply to the first read is returned as the reply to the second. -/
theorem late_reply_returned :
    ∃ k w w', Session CopiesSeq rdscomm 1 k w ∧
      (rdscomm readRequest (w.entered fun _ => 0)).Reaches (Between CopiesSeq) ok w' ∧
        ¬ HoldsReply w.made readRequest.rlen w' := by
  have hplay : twoReads.map (fun r =>
      (r.2.1, decide (HoldsReply r.1.made readRequest.rlen r.2.2))) = some (ok, false) := by
    decide +kernel
  obtain ⟨⟨w, v, w'⟩, htwo, hres⟩ := Option.map_eq_some_iff.mp hplay
  obtain ⟨r, hfirst, hrest⟩ := Option.bind_eq_some_iff.mp htwo
  obtain ⟨r', hsecond, heq⟩ := Option.map_eq_some_iff.mp hrest
  cases heq
  obtain ⟨rfl, hnot⟩ := Prod.mk.inj hres
  refine ⟨1, r.2, w', ?_, reaches_of_script hsecond, of_decide_eq_false hnot⟩
  exact .call (.start bootWorld_begins) _ (reaches_of_script hfirst)

/-- A first read, whose reply is not late. -/
theorem rdscomm_holds_reply_iff_first :
    ∃ v w', (rdscomm readRequest (bootWorld.entered fun _ => 0)).Reaches (Between CopiesSeq) v w' ∧
      ((v = ok → HoldsReply 0 588 w') ↔ ∀ d ∈ w'.taken, ¬ LateReply readRequest bootWorld d) := by
  have hplay : ((rdscomm readRequest (bootWorld.entered fun _ => 0)).feed
      (firstRead.map (play CopiesSeq))).map Prod.fst = some ok := by
    decide +kernel
  obtain ⟨⟨v, w'⟩, hfeed, -⟩ := Option.map_eq_some_iff.mp hplay
  have hcall := reaches_of_script hfeed
  exact ⟨v, w', hcall, rdscomm_holds_reply_iff (.start bootWorld_begins) hcall⟩

end Remote
end Xinu
