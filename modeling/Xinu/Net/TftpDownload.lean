import Xinu.Net.Tftp

/-!
# What a download stores

A server answers with the blocks of one file.  Its packets may be lost,
duplicated, delayed and reordered, and other packets that are no data packets may
come in between.

Main results:

- Theorem `awaitBlock_returns`: what `tftp_send1` accepts is the expected block.
- Theorem `moveBlock_fills`: a block goes to the next free cells of the buffers.
- Theorem `download_returns_file`: what a successful download returns and stores.
-/

namespace Xinu
namespace Net

open Foundations

/-- The number of data packets for a file; the last one is short. -/
def numBlocks (file : List UInt8) : Nat :=
  file.length / 512 + 1

/-- The payload, if it is a data packet, is one for the file: the data packet
number `b` carries the block `b - 1` of the file. -/
def FromServer (file payload : List UInt8) : Prop :=
  4 ≤ payload.length → ntohs (payload.getD · 0) 0 = tftpData →
    1 ≤ ntohs (payload.getD · 0) 2 ∧ ntohs (payload.getD · 0) 2 ≤ numBlocks file ∧
      payload.drop 4 = block 512 file (ntohs (payload.getD · 0) 2 - 1)

/-- All packets come from the server of the file. -/
def Served (file : List UInt8) (arrivals : List Received) : Prop :=
  ∀ port payload, .packet port payload ∈ arrivals → FromServer file payload

section Receiving

variable {file payload : List UInt8} {arrivals : List Received} {c c' : Client} {msg : List UInt8}
variable {net : Network} {expected : Nat} {n : Int}

theorem Served.tail {r : Received} (h : Served file (r :: arrivals)) : Served file arrivals :=
  fun port payload hmem => h port payload (List.mem_cons_of_mem r hmem)

/-- What is in the message buffer after a short enough payload was copied. -/
theorem copyPayload_getD {m : Nat → UInt8} {i : Nat} (hi : i < payload.length)
    (hle : payload.length ≤ tftpMsgSize) : copyPayload payload m i = payload.getD i 0 := by
  unfold copyPayload
  rw [if_pos (by omega), List.getD_eq_getElem _ _ hi, List.getD_eq_getElem _ _ hi]

theorem copyPayload_head {m : Nat → UInt8} {i : Nat} (hi : i < 4) (hlen : 4 ≤ payload.length) :
    copyPayload payload m i = payload.getD i 0 := by
  unfold copyPayload
  have hlt : i < payload.length := by omega
  have hsize : i < tftpMsgSize := by
    unfold tftpMsgSize tftpMaxdata
    omega
  rw [if_pos hsize, List.getD_eq_getElem _ _ hlt, List.getD_eq_getElem _ _ hlt]

theorem ntohs_copyPayload {m : Nat → UInt8} {i : Nat} (hi : i < 3) (hlen : 4 ≤ payload.length) :
    ntohs (copyPayload payload m) i = ntohs (payload.getD · 0) i := by
  unfold ntohs
  rw [copyPayload_head (by omega) hlen, copyPayload_head (by omega) hlen]

/-- The data in the message buffer is the data of the packet. -/
theorem tfData_copyPayload {m : Nat → UInt8} (hle : payload.length ≤ tftpMsgSize) :
    tfData (copyPayload payload m) (payload.length - 4) = payload.drop 4 := by
  unfold tfData
  apply List.ext_getElem
  · simp
  · intro i hi hi'
    have hlt : 4 + i < payload.length := by
      simp only [List.length_map, List.length_range] at hi
      omega
    simp only [List.getElem_map, List.getElem_range, List.getElem_drop]
    rw [copyPayload_getD hlt hle, List.getD_eq_getElem _ _ hlt]

/-- The message buffer holds the expected block of the file. -/
structure GotBlock (file : List UInt8) (expected : Nat) (n : Int) (c : Client) : Prop where
  expected_pos : 1 ≤ expected
  expected_le : expected ≤ numBlocks file
  size : n = (block 512 file (expected - 1)).length + 4
  data : tfData c.inmsg (n.toNat - 4) = block 512 file (expected - 1)

/-- A data packet that matches the expected block number. -/
theorem FromServer.gotBlock {m : Nat → UInt8} {c : Client} (h : FromServer file payload)
    (hlen : 4 ≤ payload.length) (hinmsg : c.inmsg = copyPayload payload m)
    (hop : tfOpcode c.inmsg = tftpData) (hblk : tfDblk c.inmsg = expected) :
    GotBlock file expected (min tftpMsgSize payload.length : Nat) c := by
  unfold tfOpcode at hop
  unfold tfDblk at hblk
  rw [hinmsg, ntohs_copyPayload (by omega) hlen] at hop hblk
  obtain ⟨hpos, hle, hdata⟩ := h hlen hop
  rw [hblk] at hpos hle hdata
  have hdrop : payload.length - 4 = (block 512 file (expected - 1)).length := by
    rw [← hdata, List.length_drop]
  have hshort : payload.length ≤ tftpMsgSize := by
    rw [length_block] at hdrop
    unfold tftpMsgSize tftpMaxdata
    omega
  have hn : ((min tftpMsgSize payload.length : Nat) : Int).toNat - 4 = payload.length - 4 := by
    omega
  refine ⟨hpos, hle, by omega, ?_⟩
  rw [hn, hinmsg, tfData_copyPayload hshort, hdata]

/-- `tftp_send1` returns when the receiving call fails or times out, on an error
packet, and with the block that is expected. -/
theorem awaitBlock_returns (hserved : Served file arrivals)
    (h : awaitBlock expected arrivals c = some (n, c')) :
    Served file c'.arrivals ∧ (n = syserr ∨ n = timeout ∨ GotBlock file expected n c') := by
  induction arrivals generalizing c with
  | nil => simp [awaitBlock] at h
  | cons r rest ih =>
      cases r with
      | syserr =>
          obtain ⟨rfl, rfl⟩ : syserr = n ∧ _ = c' := by simpa [awaitBlock] using h
          exact ⟨hserved.tail, Or.inl rfl⟩
      | timeout =>
          obtain ⟨rfl, rfl⟩ : timeout = n ∧ _ = c' := by simpa [awaitBlock] using h
          exact ⟨hserved.tail, Or.inr (Or.inl rfl)⟩
      | packet port payload =>
          have hpacket : FromServer file payload := hserved port payload (by simp)
          simp only [awaitBlock] at h
          split at h
          · exact ih hserved.tail h
          · next hlen =>
              have hlen' : 4 ≤ payload.length := by omega
              split at h
              · obtain ⟨rfl, rfl⟩ : syserr = n ∧ _ = c' := by simpa using h
                exact ⟨hserved.tail, Or.inl rfl⟩
              · split at h
                · next hmatch =>
                    obtain ⟨rfl, rfl⟩ : ((min tftpMsgSize payload.length : Nat) : Int) = n ∧ _ = c' := by
                      simpa using h
                    refine ⟨hserved.tail, Or.inr (Or.inr ?_)⟩
                    exact hpacket.gotBlock hlen' rfl hmatch.1 hmatch.2
                · exact ih hserved.tail h

theorem arrivals_udpSendto (net : Network) (port : Nat) (msg : List UInt8) (c : Client) :
    (udpSendto net port msg c).2.arrivals = c.arrivals := by
  unfold udpSendto
  split <;> rfl

theorem tftpSend1_returns (hserved : Served file c.arrivals)
    (h : tftpSend1 net msg expected c = some (n, c')) :
    Served file c'.arrivals ∧ (n = syserr ∨ n = timeout ∨ GotBlock file expected n c') := by
  have harr := arrivals_udpSendto net c.remport msg c
  simp only [tftpSend1] at h
  split at h
  · obtain ⟨rfl, rfl⟩ : syserr = n ∧ _ = c' := by simpa using h
    exact ⟨by rw [harr]; exact hserved, Or.inl rfl⟩
  · exact awaitBlock_returns (by rw [harr]; exact hserved) h

/-- A request is answered by the expected block, or it fails. -/
theorem request_returns {i : Nat} (hserved : Served file c.arrivals)
    (h : request net msg expected i c = some (n, c')) :
    Served file c'.arrivals ∧ (n = syserr ∨ GotBlock file expected n c') := by
  induction i generalizing c with
  | zero =>
      obtain ⟨rfl, rfl⟩ : syserr = n ∧ c = c' := by simpa [request] using h
      exact ⟨hserved, Or.inl rfl⟩
  | succ i ih =>
      simp only [request] at h
      split at h
      · contradiction
      · next n₁ c₁ hsend =>
          obtain ⟨hserved₁, hres⟩ := tftpSend1_returns hserved hsend
          split at h
          · next hpos =>
              obtain ⟨rfl, rfl⟩ : n₁ = n ∧ c₁ = c' := by simpa using h
              refine ⟨hserved₁, Or.inr ?_⟩
              rcases hres with rfl | rfl | hgot
              · exact absurd hpos (by decide)
              · exact absurd hpos (by decide)
              · exact hgot
          · split at h
            · obtain ⟨rfl, rfl⟩ : syserr = n ∧ c₁ = c' := by simpa using h
              exact ⟨hserved₁, Or.inl rfl⟩
            · exact ih hserved₁ h

/-! ## The number of turns -/

theorem awaitBlock_shrinks (h : awaitBlock expected arrivals c = some (n, c')) :
    c'.arrivals.length < arrivals.length := by
  induction arrivals generalizing c with
  | nil => simp [awaitBlock] at h
  | cons r rest ih =>
      have hrest : c'.arrivals.length < rest.length → c'.arrivals.length < (r :: rest).length :=
        fun hlt => Nat.lt_succ_of_lt hlt
      cases r with
      | syserr =>
          obtain ⟨-, rfl⟩ : syserr = n ∧ _ = c' := by simpa [awaitBlock] using h
          exact Nat.lt_succ_self _
      | timeout =>
          obtain ⟨-, rfl⟩ : timeout = n ∧ _ = c' := by simpa [awaitBlock] using h
          exact Nat.lt_succ_self _
      | packet port payload =>
          simp only [awaitBlock] at h
          split at h
          · exact hrest (ih h)
          · split at h
            · obtain ⟨-, rfl⟩ : syserr = n ∧ _ = c' := by simpa using h
              exact Nat.lt_succ_self _
            · split at h
              · obtain ⟨-, rfl⟩ : _ = n ∧ _ = c' := by simpa using h
                exact Nat.lt_succ_self _
              · exact hrest (ih h)

theorem request_shrinks {i : Nat} (h : request net msg expected i c = some (n, c'))
    (hn : n ≠ syserr) : c'.arrivals.length < c.arrivals.length := by
  induction i generalizing c with
  | zero =>
      obtain ⟨rfl, -⟩ : syserr = n ∧ c = c' := by simpa [request] using h
      exact (hn rfl).elim
  | succ i ih =>
      simp only [request] at h
      split at h
      · contradiction
      · next n₁ c₁ hsend =>
          have hlt : n₁ ≠ syserr → c₁.arrivals.length < c.arrivals.length := by
            intro hn₁
            simp only [tftpSend1] at hsend
            split at hsend
            · obtain ⟨rfl, -⟩ : syserr = n₁ ∧ _ = c₁ := by simpa using hsend
              exact (hn₁ rfl).elim
            · have hshrinks := awaitBlock_shrinks hsend
              rwa [arrivals_udpSendto] at hshrinks
          split at h
          · obtain ⟨rfl, rfl⟩ : n₁ = n ∧ c₁ = c' := by simpa using h
            exact hlt hn
          · split at h
            · obtain ⟨rfl, -⟩ : syserr = n ∧ c₁ = c' := by simpa using h
              exact (hn rfl).elim
            · next hne => exact Nat.lt_trans (ih h) (hlt hne)

/-- More turns than there are arrivals change nothing. -/
theorem transfer_turns {sizes : List Nat} {turns : Nat} {s : Sink}
    (h : c.arrivals.length < turns) :
    transfer net sizes (turns + 1) msg expected c s = transfer net sizes turns msg expected c s := by
  induction turns generalizing expected msg c s with
  | zero => exact absurd h (Nat.not_lt_zero _)
  | succ turns ih =>
      rw [transfer, transfer]
      split
      · rfl
      · next n₁ c₁ hreq =>
          split
          · rfl
          · next hne =>
              have hlt := request_shrinks hreq hne
              dsimp only
              split
              · rfl
              · split
                · rfl
                · exact ih (by omega)

end Receiving

/-! ## Filling the buffers -/

/-- The first `k` bytes of the file are stored, and nothing else. -/
structure Filled (sizes : List Nat) (file : List UInt8) (bufs : Nat → Nat → UInt8) (k : Nat)
    (s : Sink) : Prop where
  scattered : Scattered sizes file bufs s.bufs k
  position : startOf sizes s.currBufInd + s.currUsed = k
  ind_lt : s.currBufInd < sizes.length
  used_le : s.currUsed ≤ sizes.getD s.currBufInd 0
  filesiz : s.filesiz = k

section Filling

variable {sizes : List Nat} {file : List UInt8} {bufs : Nat → Nat → UInt8} {k : Nat} {s : Sink}

/-- What is stored fits in the buffers. -/
theorem Filled.le_sum (h : Filled sizes file bufs k s) : k ≤ sizes.sum := by
  have hle := startOf_le_sum sizes (s.currBufInd + 1)
  rw [startOf_succ h.ind_lt] at hle
  have hpos := h.position
  have hused := h.used_le
  omega

/-- When the last buffer is full, all cells are filled. -/
theorem Filled.eq_sum (h : Filled sizes file bufs k s)
    (hfull : s.currUsed ≥ sizes.getD s.currBufInd 0) (hlast : s.currBufInd + 1 ≥ sizes.length) :
    k = sizes.sum := by
  have hsum := startOf_succ h.ind_lt
  have hind : s.currBufInd + 1 = sizes.length := by
    have := h.ind_lt
    omega
  rw [hind, startOf_length] at hsum
  have hpos := h.position
  have hused := h.used_le
  omega

/-- A full buffer is followed by an empty one. -/
theorem Filled.next (h : Filled sizes file bufs k s)
    (hfull : s.currUsed ≥ sizes.getD s.currBufInd 0) (hmore : s.currBufInd + 1 < sizes.length) :
    Filled sizes file bufs k { s with currBufInd := s.currBufInd + 1, currUsed := 0 } := by
  refine ⟨h.scattered, ?_, hmore, Nat.zero_le _, h.filesiz⟩
  have hsucc := startOf_succ h.ind_lt
  have hpos := h.position
  have hused := h.used_le
  show startOf sizes (s.currBufInd + 1) + 0 = k
  omega

/-- One byte is stored in a buffer that is not full. -/
theorem Filled.push {b : UInt8} (h : Filled sizes file bufs k s)
    (hroom : s.currUsed < sizes.getD s.currBufInd 0) (hb : file[k]? = some b)
    (hk : (k : Int) + 1 < 0x80000000) :
    Filled sizes file bufs (k + 1)
      { s with
        bufs := store s.bufs s.currBufInd s.currUsed b
        currUsed := s.currUsed + 1
        filesiz := i32 (s.filesiz + 1) } := by
  refine ⟨h.scattered.store ⟨h.ind_lt, hroom⟩ h.position hb, ?_, h.ind_lt, hroom, ?_⟩
  · have hpos := h.position
    show startOf sizes s.currBufInd + (s.currUsed + 1) = k + 1
    omega
  · have hfile := h.filesiz
    show i32 (s.filesiz + 1) = ((k + 1 : Nat) : Int)
    rw [hfile]
    unfold i32
    rw [Int.bmod_eq_of_le (by omega) (by omega)]
    omega

/-- A block is moved to the next free cells, or until no cell is free. -/
theorem moveBlock_fills {data : List UInt8} (hsizes : ∀ x ∈ sizes, x ≠ 0)
    (h : Filled sizes file bufs k s) (hdata : ∀ j, j < data.length → file[k + j]? = data[j]?)
    (hk : (k : Int) + data.length < 0x80000000) :
    match moveBlock sizes data s with
    | .ok s' => Filled sizes file bufs (k + data.length) s'
    | .error s' => Filled sizes file bufs sizes.sum s' ∧ sizes.sum < k + data.length := by
  induction data generalizing s k with
  | nil => exact h
  | cons b data ih =>
      have hb : file[k]? = some b := by simpa using hdata 0 (by simp)
      have hdata' : ∀ j, j < data.length → file[k + 1 + j]? = data[j]? := by
        intro j hj
        have hstep := hdata (j + 1) (by simpa using hj)
        rw [List.getElem?_cons_succ] at hstep
        rw [← hstep, Nat.add_assoc, Nat.add_comm 1 j]
      have hlen : (b :: data).length = data.length + 1 := rfl
      simp only [moveBlock]
      by_cases hfull : s.currUsed ≥ sizes.getD s.currBufInd 0
      · by_cases hlast : s.currBufInd + 1 ≥ sizes.length
        · rw [if_pos ⟨hfull, hlast⟩]
          have hsum := h.eq_sum hfull hlast
          exact ⟨hsum ▸ h, by omega⟩
        · rw [if_neg fun hand => hlast hand.2, if_pos hfull]
          have hlt : s.currBufInd + 1 < sizes.length := by omega
          have hroom : 0 < sizes.getD (s.currBufInd + 1) 0 := by
            rw [List.getD_eq_getElem _ _ hlt]
            exact Nat.pos_of_ne_zero (hsizes _ (List.getElem_mem hlt))
          have hnext := (h.next hfull hlt).push hroom hb (by omega)
          have hrest := ih hnext hdata' (by omega)
          rw [hlen, Nat.add_comm data.length 1, ← Nat.add_assoc]
          exact hrest
      · rw [if_neg fun hand => hfull hand.1, if_neg hfull]
        have hrest := ih (h.push (by omega) hb (by omega)) hdata' (by omega)
        rw [hlen, Nat.add_comm data.length 1, ← Nat.add_assoc]
        exact hrest

end Filling

/-! ## The download -/

section Download

variable {file : List UInt8} {sizes : List Nat} {bufs : Nat → Nat → UInt8} {net : Network}
variable {c c' : Client} {s s' : Sink} {n : Int}

/-- What the buffers hold when the download has returned `n`. -/
def Delivered (sizes : List Nat) (file : List UInt8) (bufs : Nat → Nat → UInt8) (n : Int)
    (s : Sink) : Prop :=
  n = (min file.length sizes.sum : Nat) ∧
    Scattered sizes file bufs s.bufs (min file.length sizes.sum)

theorem Filled.delivered (h : Filled sizes file bufs (min file.length sizes.sum) s) :
    Delivered sizes file bufs s.filesiz s :=
  ⟨h.filesiz, h.scattered⟩

/-- The main loop, after `e` blocks were moved and acknowledged. -/
theorem transfer_delivers {turns e : Nat} {msg : List UInt8} (hsizes : ∀ x ∈ sizes, x ≠ 0)
    (hfile : numBlocks file < 65535) (hserved : Served file c.arrivals)
    (he : 512 * e ≤ file.length) (h : Filled sizes file bufs (512 * e) s)
    (hrun : transfer net sizes turns msg (e + 1) c s = some (n, c', s')) (hn : 0 ≤ n) :
    Delivered sizes file bufs n s' := by
  induction turns generalizing e msg c s with
  | zero => simp [transfer] at hrun
  | succ turns ih =>
      simp only [transfer] at hrun
      split at hrun
      · contradiction
      · next n₁ c₁ hreq =>
          obtain ⟨hserved₁, hres⟩ := request_returns hserved hreq
          split at hrun
          · next hfail =>
              obtain ⟨rfl, -⟩ : syserr = n ∧ _ := by simpa using hrun
              exact absurd hn (by decide)
          · next hgood =>
              have hgot := hres.resolve_left hgood
              have hsize := hgot.size
              have hlen := length_block 512 file e
              simp only [Nat.add_sub_cancel] at hsize
              have hdlen : n₁.toNat - 4 = (block 512 file e).length := by omega
              have hdata : tfData c₁.inmsg (n₁.toNat - 4) = block 512 file e := hgot.data
              unfold numBlocks at hfile
              have hmove := @moveBlock_fills sizes file bufs _ _ (block 512 file e) hsizes h
                (fun j hj => (getElem?_block (by omega)).symm) (by omega)
              rw [hdata] at hrun
              split at hrun
              · next s₁ hstop =>
                  rw [hstop] at hmove
                  obtain ⟨rfl, rfl, rfl⟩ : s₁.filesiz = n ∧ c₁ = c' ∧ s₁ = s' := by
                    simpa using hrun
                  have hmin : min file.length sizes.sum = sizes.sum := by omega
                  exact (hmin.symm ▸ hmove.1 :
                    Filled sizes file bufs (min file.length sizes.sum) s₁).delivered
              · next s₁ hdone =>
                  rw [hdone] at hmove
                  split at hrun
                  · next hlast =>
                      have hmin : 512 * e + (block 512 file e).length =
                          min file.length sizes.sum := by
                        have hsum := hmove.le_sum
                        omega
                      rw [hmin] at hmove
                      split at hrun
                      · obtain ⟨rfl, -⟩ : syserr = n ∧ _ := by simpa using hrun
                        exact absurd hn (by decide)
                      · obtain ⟨rfl, -, rfl⟩ : s₁.filesiz = n ∧ _ ∧ s₁ = s' := by
                          simpa using hrun
                        exact hmove.delivered
                  · next hmore =>
                      have hfull : (block 512 file e).length = 512 := by omega
                      have hexp : (e + 1 + 1) % 0x10000 = e + 1 + 1 := by omega
                      rw [hexp] at hrun
                      have hmul : 512 * e + 512 = 512 * (e + 1) := by omega
                      rw [hfull, hmul] at hmove
                      exact ih hserved₁ (by omega) hmove hrun

/--
If the download returns a size, it is the smaller one of the size of the file
and the size of all buffers, and this many bytes of the file are stored, in
order, while every other cell is as before.
-/
theorem download_returns_file {serverip : Nat} {filename : Option (List UInt8)}
    {rcvBufs : List RcvBuf} {arrivals : List Received} {inmsg : Nat → UInt8}
    (hfile : numBlocks file < 65535) (hserved : Served file arrivals)
    (hrun : tftpgetMb net serverip filename rcvBufs arrivals inmsg bufs = some (n, c', s'))
    (hn : 0 ≤ n) : Delivered (rcvBufs.map RcvBuf.size) file bufs n s' := by
  have hbad : ∀ {s₀ : Sink} {c₀ : Client}, some (syserr, c₀, s₀) = some (n, c', s') → False := by
    intro s₀ c₀ heq
    obtain ⟨rfl, -⟩ : syserr = n ∧ _ := by simpa using heq
    exact absurd hn (by decide)
  unfold tftpgetMb at hrun
  split at hrun
  · exact (hbad hrun).elim
  · split at hrun
    · exact (hbad hrun).elim
    · next hargs =>
        split at hrun
        · exact (hbad hrun).elim
        · split at hrun
          · exact (hbad hrun).elim
          · push Not at hargs
            obtain ⟨-, hne, hbufs⟩ := hargs
            have hsizes : ∀ x ∈ rcvBufs.map RcvBuf.size, x ≠ 0 := by
              intro x hx
              obtain ⟨b, hb, rfl⟩ := List.mem_map.mp hx
              exact (hbufs b hb).2
            have hlen : 0 < (rcvBufs.map RcvBuf.size).length := by
              rw [List.length_map]
              exact List.length_pos_iff.mpr hne
            have hstart : Filled (rcvBufs.map RcvBuf.size) file bufs (512 * 0) ⟨bufs, 0, 0, 0⟩ :=
              ⟨.empty _ _ _, rfl, hlen, Nat.zero_le _, rfl⟩
            exact transfer_delivers hsizes hfile hserved (Nat.zero_le _) hstart hrun hn

end Download

/-- The server sends a file of 513 bytes in two packets. -/
def twoBlocks : List UInt8 :=
  List.replicate 512 7 ++ [9]

/-- What the server sends as data packet number `b`. -/
def dataPayload (file : List UInt8) (b : Nat) : List UInt8 :=
  htons tftpData ++ htons b ++ block 512 file (b - 1)

/-- The second packet overtakes the first one, which then comes twice. -/
def reordered : List Received :=
  .timeout :: [2, 1, 1, 2].map fun b => .packet 2000 (dataPayload twoBlocks b)

instance (file payload : List UInt8) : Decidable (FromServer file payload) := by
  unfold FromServer
  infer_instance

theorem download_returns_file_reordered :
    ∃ c' s', tftpgetMb ⟨some 0, true, fun _ => true⟩ 1 (some [102]) [⟨false, 300⟩, ⟨false, 400⟩]
        reordered (fun _ => 0) (fun _ _ => 0) = some (513, c', s') ∧
      Delivered [300, 400] twoBlocks (fun _ _ => 0) 513 s' := by
  have hserved : Served twoBlocks reordered := by
    intro port payload hmem
    have hpackets : ∀ b ∈ [2, 1, 1, 2], FromServer twoBlocks (dataPayload twoBlocks b) := by
      decide +kernel
    obtain ⟨b, hb, heq⟩ := List.mem_map.mp (List.mem_of_ne_of_mem (by simp) hmem)
    obtain ⟨-, rfl⟩ : 2000 = port ∧ dataPayload twoBlocks b = payload := by simpa using heq
    exact hpackets b hb
  have hreplay : (tftpgetMb ⟨some 0, true, fun _ => true⟩ 1 (some [102])
      [⟨false, 300⟩, ⟨false, 400⟩] reordered (fun _ => 0) fun _ _ => 0).map Prod.fst =
        some 513 := by
    decide +kernel
  obtain ⟨⟨n, c', s'⟩, hrun, rfl⟩ := Option.map_eq_some_iff.mp hreplay
  have hfile : numBlocks twoBlocks < 65535 := by
    decide +kernel
  have hpos : (0 : Int) ≤ 513 := by decide
  have hdelivered := download_returns_file hfile hserved hrun hpos
  exact ⟨c', s', hrun, hdelivered⟩

end Net
end Xinu
