import Xinu.Device.RemoteCommSpec
import Xinu.Foundations.NullTerminated

/-!
# Reading a remote file

Embedding of `device/rfs/rflread.c`, between `wait(Rf_data.rf_mutex)` and the call of
`signal` that each path ends with: the control block of the file is not changed by others
meanwhile.

Main results:

- Theorem `rflread_returns`: what is stored and returned on every path.
- Theorem `rflread_inside_iff`: a read stays inside the buffers if the accepted reply is no
  longer than what was asked for.
-/

namespace Xinu
namespace Remote

open Foundations Function

/-! ## rfilesys.h -/

/-- `RF_NAMLEN` and `RF_DATALEN` -/
def rfNamlen : Nat := 128
def rfDatalen : Nat := 1024

/-- `RF_FREE`, and `RF_MODE_R` -/
def rfFree : Int := 0
def rfModeR : UInt32 := 1

/-- `RF_MSG_RREQ` -/
def rfMsgRreq : UInt16 := 1

/-- Control block of a remote file. -/
structure Rflcblk where
  rfstate : Int
  rfname : Chars
  rfpos : UInt32
  rfmode : UInt32

/-- `sizeof(struct rf_msg_rres)` -/
def rfMsgRresSize : Nat := rfMsgHdrSize + 4 + 4 + rfDatalen

/-- `rf_len` and `rf_data` of `struct rf_msg_rres` -/
def lenField (b : Nat → UInt8) : UInt32 := load32 b (rfMsgHdrSize + 4)
def dataField (b : Nat → UInt8) : Nat → UInt8 := fun i => b (rfMsgHdrSize + 8 + i)

/-! ## rflread.c -/

/-- The client, one of its files and the buffer of the caller. -/
structure Reader where
  world : World
  file : Rflcblk
  buff : Nat → UInt8
  /-- The number of bytes that were copied, from the first one of `rf_data` on. -/
  copied : Nat
  /-- The reply that `rfscomm` has accepted. -/
  accepted : Option (Nat → UInt8)

abbrev ReadM := Coop Reader

/-- The field `rf_name` of a request: the name and zeros behind it. -/
def nameBytes (name : List UInt8) : List UInt8 :=
  (name ++ List.replicate rfNamlen 0).take rfNamlen

theorem length_nameBytes (name : List UInt8) : (nameBytes name).length = rfNamlen := by
  unfold nameBytes
  rw [List.length_take, List.length_append, List.length_replicate]
  omega

/-- The read request, and the size of the buffer for the response. -/
def rreq (name : List UInt8) (pos len : UInt32) : Call rfMsgHdrSize where
  msg := [0, 1, 0, 0, 0, 0, 0, 0] ++ nameBytes name ++ bytes32 (htonl pos) ++ bytes32 (htonl len)
  rlen := rfMsgRresSize
  hdr_le_msg := by
    have hword : ∀ x, (bytes32 x).length = 4 := fun _ => rfl
    simp only [List.length_append, length_nameBytes, hword]
    decide
  hdr_le_reply := by decide

/-- `rfscomm`, and which reply it has accepted. -/
def exchange (c : Call rfMsgHdrSize) : ReadM Int := do
  let retval ← Coop.zoom Reader.world (fun s w => { s with world := w }) (rfscomm c)
  modify fun s => { s with
    accepted := if retval = syserr ∨ retval = timeout then none else some s.world.reply }
  return retval

/-- Copy data to application buffer and update file position. -/
def copyData : ReadM Int := do
  let resp := (← get).world.reply
  let len := htonl (lenField resp)
  modify fun s => { s with
    buff := copyChars len.toNat (dataField resp) 0 s.buff, copied := len.toNat }
  modify fun s => { s with file := { s.file with rfpos := s.file.rfpos + len } }
  return len.toInt32.toInt

/-- Read data from a remote file. -/
def rflread (count : Int) : ReadM Int := do
  -- verify count is legitimate
  if count ≤ 0 ∨ count > rfDatalen then
    return syserr
  -- if device not currently in use, report an error
  if (← get).file.rfstate = rfFree then
    return syserr
  -- verify pseudo-device allows reading
  if (← get).file.rfmode &&& rfModeR = 0 then
    return syserr
  -- copy name to request
  let name := spelled (← get).file.rfname rfNamlen
  if name.length ≥ rfNamlen then
    return syserr
  let retval ← exchange (rreq name (← get).file.rfpos (UInt32.ofNat count.toNat))
  -- check response
  if retval = syserr then
    return syserr
  else if retval = timeout then
    return syserr
  else if ntohs (statusField (← get).world.reply) ≠ 0 then
    return syserr
  else
    copyData

/-! ## Paths -/

/-- What happens while the client waits for a reply. -/
structure Meanwhile (answers : List UInt8 → List UInt8 → Prop) (s s' : Reader) : Prop where
  between : Between answers s.world s'.world
  same : s' = { s with world := s'.world }

/-- The state when `rflread` is called. -/
def Reader.Begins (s : Reader) : Prop :=
  s.copied = 0 ∧ s.accepted = none

/-- The read stores at most `count` bytes, which it takes from the data area of the reply, and
returns how far the position has advanced, or `SYSERR`. -/
structure ReadOk (count : Int) (s : Reader) (r : Int) (s' : Reader) : Prop where
  stored : (s'.copied : Int) ≤ count
  inside : s'.copied ≤ rfDatalen
  same : ∀ i, s'.copied ≤ i → s'.buff i = s.buff i
  result : 0 ≤ r ∧ r ≤ count ∧ s'.file.rfpos = s.file.rfpos + UInt32.ofNat r.toNat ∨
    r = syserr ∧ s'.file.rfpos = s.file.rfpos

/-- A reply without an error has no more bytes than were asked for. -/
def FitsCount (count : Int) (reply : Nat → UInt8) : Prop :=
  ntohs (statusField reply) = 0 → ((htonl (lenField reply)).toNat : Int) ≤ count

instance (count : Int) (reply : Nat → UInt8) : Decidable (FitsCount count reply) :=
  inferInstanceAs (Decidable (_ → _))

/-- What a read has left: all as before, or the data of the accepted reply. -/
inductive ReadDone (s : Reader) : Int → Reader → Prop
  | refused {s' : Reader} (hcopied : s'.copied = 0) (hbuff : s'.buff = s.buff)
      (hfile : s'.file = s.file)
      (hreply : ∀ reply, s'.accepted = some reply → ntohs (statusField reply) ≠ 0) :
      ReadDone s syserr s'
  | copied {s' : Reader} {reply : Nat → UInt8} (haccepted : s'.accepted = some reply)
      (hstatus : ntohs (statusField reply) = 0)
      (hcopied : s'.copied = (htonl (lenField reply)).toNat)
      (hbuff : s'.buff = copyChars s'.copied (dataField reply) 0 s.buff)
      (hfile : s'.file = { s.file with rfpos := s.file.rfpos + htonl (lenField reply) }) :
      ReadDone s (htonl (lenField reply)).toInt32.toInt s'

section Paths

variable {answers : List UInt8 → List UInt8 → Prop} {s s' : Reader} {count r : Int}

/-- An exchange changes nothing but the world. -/
theorem zoom_world_returns (x : Flow World Int) (s : Reader) :
    (x.zoom Reader.world (fun s w => { s with world := w }) s).Returns (Meanwhile answers)
      fun _ s' => s' = { s with world := s'.world } := by
  induction x generalizing s with
  | done a w => rfl
  | suspended w k ih =>
      intro s₁ hs₁
      refine (ih _ s₁).mono ?_
      intro a s₂ hs₂
      rw [hs₂, hs₁.same]
  | halted w => trivial
  | stuck => trivial

/-- After the exchange, either no reply is there or the one that was accepted. -/
theorem exchange_returns (c : Call rfMsgHdrSize) (s : Reader) :
    (exchange c s).Returns (Meanwhile answers) fun retval s' =>
      s' = { s with world := s'.world, accepted := s'.accepted } ∧
        s'.accepted = if retval = syserr ∨ retval = timeout then none else some s'.world.reply := by
  unfold exchange
  rw [Coop.run_bind, Flow.returns_bind, Coop.run_zoom]
  refine (zoom_world_returns _ s).mono ?_
  intro retval s₁ hs₁
  rw [Coop.run_bind, Coop.run_modify, Flow.bind_done]
  constructor
  · rw [hs₁]
  · rfl

theorem copyData_returns {s₁ : Reader}
    (hs₁ : s₁ = { s with world := s₁.world, accepted := s₁.accepted })
    (haccepted : s₁.accepted = some s₁.world.reply)
    (hstatus : ntohs (statusField s₁.world.reply) = 0) :
    (copyData s₁).Returns (Meanwhile answers) fun r s' => ReadDone s r s' := by
  have hbuff : s₁.buff = s.buff := by rw [hs₁]
  have hfile : s₁.file = s.file := by rw [hs₁]
  refine ReadDone.copied haccepted hstatus rfl ?_ ?_
  · simp [hbuff]
  · simp [hfile]

/-- What is stored and returned on every path. -/
theorem rflread_returns (hs : s.Begins) :
    (rflread count s).Returns (Meanwhile answers) fun r s' => ReadDone s r s' := by
  obtain ⟨hcopied, hnone⟩ := hs
  have hrefused : ReadDone s syserr s := .refused hcopied rfl rfl (by simp [hnone])
  unfold rflread
  by_cases hcount : count ≤ 0 ∨ count > rfDatalen
  · rw [if_pos hcount]
    exact hrefused
  rw [if_neg hcount, Coop.run_bind, Coop.run_get, Flow.bind_done]
  by_cases hfree : s.file.rfstate = rfFree
  · rw [if_pos hfree]
    exact hrefused
  rw [if_neg hfree, Coop.run_bind, Coop.run_get, Flow.bind_done]
  by_cases hmode : s.file.rfmode &&& rfModeR = 0
  · rw [if_pos hmode]
    exact hrefused
  rw [if_neg hmode, Coop.run_bind, Coop.run_get, Flow.bind_done]
  by_cases hname : (spelled s.file.rfname rfNamlen).length ≥ rfNamlen
  · rw [if_pos hname]
    exact hrefused
  rw [if_neg hname, Coop.run_bind, Coop.run_get, Flow.bind_done, Coop.run_bind, Flow.returns_bind]
  refine (exchange_returns _ s).mono ?_
  rintro retval s₁ ⟨hs₁, haccepted⟩
  have hrefused₁ : (s₁.accepted = none ∨ ntohs (statusField s₁.world.reply) ≠ 0 ∧
      s₁.accepted = some s₁.world.reply) → ReadDone s syserr s₁ := by
    intro hwhy
    refine .refused (by rw [hs₁]; exact hcopied) (by rw [hs₁]) (by rw [hs₁]) ?_
    rintro reply hreply
    rcases hwhy with hnone | ⟨hstatus, hsome⟩
    · rw [hnone] at hreply
      cases hreply
    · rw [hsome] at hreply
      cases hreply
      exact hstatus
  by_cases hsys : retval = syserr
  · rw [if_pos hsys]
    exact hrefused₁ (Or.inl (by rw [haccepted, if_pos (Or.inl hsys)]))
  rw [if_neg hsys]
  by_cases htime : retval = timeout
  · rw [if_pos htime]
    exact hrefused₁ (Or.inl (by rw [haccepted, if_pos (Or.inr htime)]))
  rw [if_neg htime, Coop.run_bind, Coop.run_get, Flow.bind_done]
  have hsome : s₁.accepted = some s₁.world.reply := by
    rw [haccepted, if_neg (by simp [hsys, htime])]
  by_cases hstatus : ntohs (statusField s₁.world.reply) = 0
  · rw [if_neg (not_not_intro hstatus)]
    exact copyData_returns hs₁ hsome hstatus
  · rw [if_pos hstatus]
    exact hrefused₁ (Or.inr ⟨hstatus, hsome⟩)

/-- A length that is not negative as an `int32`. -/
theorem toInt_of_le {x : UInt32} (h : x.toNat ≤ rfDatalen) : x.toInt32.toInt = (x.toNat : Int) := by
  have hlt : 2 * x.toBitVec.toNat < 0x100000000 := by
    have hle : x.toBitVec.toNat ≤ rfDatalen := h
    unfold rfDatalen at hle
    omega
  exact BitVec.toInt_eq_toNat_of_lt hlt

/-- A read stays inside the buffers if and only if the reply that was accepted is not longer
than what was asked for. -/
theorem rflread_inside_iff (hcount : 0 < count ∧ count ≤ rfDatalen) (hs : s.Begins)
    (hpath : (rflread count s).Reaches (Meanwhile answers) r s') :
    ReadOk count s r s' ↔ ∀ reply, s'.accepted = some reply → FitsCount count reply := by
  have hdone := (rflread_returns hs).reaches hpath
  cases hdone with
  | refused hcopied hbuff hfile hreply =>
      constructor
      · intro _ reply haccepted hstatus
        exact absurd hstatus (hreply reply haccepted)
      · intro _
        refine ⟨by omega, by omega, fun i _ => by rw [hbuff], Or.inr ⟨rfl, by rw [hfile]⟩⟩
  | copied haccepted hstatus hcopied hbuff hfile =>
      rename_i reply
      constructor
      · intro h reply' haccepted' _
        rw [haccepted] at haccepted'
        cases haccepted'
        rw [← hcopied]
        exact h.stored
      · intro h
        have hle := h reply haccepted hstatus
        have hint := toInt_of_le (x := htonl (lenField reply)) (by omega)
        refine ⟨by rwa [hcopied], by omega, ?_, Or.inl ⟨by omega, by omega, ?_⟩⟩
        · intro i hi
          rw [hbuff]
          exact copyChars_outside (Or.inr (by omega))
        · rw [hfile, hint, Int.toNat_natCast, UInt32.ofNat_toNat]

/-- What is returned, other than `SYSERR`, is the length of the accepted reply. -/
theorem accepted_of_done (h : ReadDone s r s') (hr : 0 ≤ r) :
    ∃ reply, s'.accepted = some reply ∧ ((htonl (lenField reply)).toNat : Int) = r := by
  cases h with
  | refused => exact absurd hr (by decide)
  | copied haccepted hstatus hcopied hbuff hfile =>
      rename_i reply
      refine ⟨reply, haccepted, ?_⟩
      have hint : (htonl (lenField reply)).toInt32.toInt = _ :=
        BitVec.toInt_eq_toNat_cond (htonl (lenField reply)).toBitVec
      have hlt := (htonl (lenField reply)).toBitVec.isLt
      change ((htonl (lenField reply)).toBitVec.toNat : Int) = _
      rw [hint] at hr ⊢
      split at hr
      · rename_i hsmall
        rw [if_pos hsmall]
      · omega

end Paths

/-! ## Two replies -/

/-- A file that is open, whose name is `f`. -/
def openReader : Reader where
  world := bootWorld.entered fun _ => 0
  file := ⟨1, chars [102], 0, rfModeR⟩
  buff := fun _ => 0
  copied := 0
  accepted := none

/-- A reply that says that `n` bytes follow. -/
def rresBytes (n : UInt8) : List UInt8 :=
  [1, 1, 0, 0, 0, 0, 0, 1] ++ List.replicate 132 0 ++ [0, 0, 0, n] ++ List.replicate 16 7

/-- The request is answered at once. -/
def readScript (n : UInt8) : List (List Move) :=
  [[], [], [.answer 0 (rresBytes n), .deliver 0]]

/-- What the script makes the network do. -/
def playRead (moves : List Move) (s : Reader) : Reader :=
  { s with world := play RfsAnswers moves s.world }

theorem reaches_of_readScript {n : UInt8} {r : Int}
    (h : ((rflread 4 openReader).feed ((readScript n).map playRead)).map Prod.fst = some r) :
    ∃ s', (rflread 4 openReader).Reaches (Meanwhile RfsAnswers) r s' := by
  obtain ⟨⟨v, s'⟩, hfeed, rfl⟩ := Option.map_eq_some_iff.mp h
  refine ⟨s', Flow.reaches_of_feed ?_ hfeed⟩
  intro move hmove s
  obtain ⟨moves, -, rfl⟩ := List.mem_map.mp hmove
  exact ⟨between_play moves s.world, rfl⟩

/-- Two bytes of the four that were asked for. -/
theorem rflread_inside_two : ∃ s', (rflread 4 openReader).Reaches (Meanwhile RfsAnswers) 2 s' ∧
    ReadOk 4 openReader 2 s' := by
  obtain ⟨s', hpath⟩ := reaches_of_readScript (n := 2) (r := 2) (by decide +kernel)
  refine ⟨s', hpath, (rflread_inside_iff (by decide) ⟨rfl, rfl⟩ hpath).mpr ?_⟩
  intro reply haccepted _
  obtain ⟨reply', haccepted', hlen⟩ :=
    accepted_of_done ((rflread_returns ⟨rfl, rfl⟩).reaches hpath) (by decide)
  rw [haccepted] at haccepted'
  cases haccepted'
  omega

/-- The server sends eight bytes where four were asked for. -/
theorem reply_overruns : ∃ s', (rflread 4 openReader).Reaches (Meanwhile RfsAnswers) 8 s' ∧
    ¬ ReadOk 4 openReader 8 s' := by
  obtain ⟨s', hpath⟩ := reaches_of_readScript (n := 8) (r := 8) (by decide +kernel)
  refine ⟨s', hpath, fun h => ?_⟩
  rcases h.result with ⟨-, hle, -⟩ | ⟨hsys, -⟩
  · exact absurd hle (by decide)
  · exact absurd hsys (by decide)

end Remote
end Xinu
