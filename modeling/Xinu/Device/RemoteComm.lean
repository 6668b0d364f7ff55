import Xinu.Net.State
import Xinu.Foundations.ReturnPaths
import Mathlib.Tactic.IntervalCases

/-!
# Exchanges with a remote server

Embedding of `device/rfs/rfscomm.c` and `device/rds/rdscomm.c`.  Both clients send a
request and wait for a reply that has its sequence number.  The UDP calls give the
processor away; the world that they come back to is one that the network and the server
have made of it.  Messages to the console are left out.
-/

namespace Xinu
namespace Remote

open Foundations Function

/-! ## Words of a message -/

/-- The 16-bit word at offset `i`, as the processor loads it. -/
def load16 (b : Nat → UInt8) (i : Nat) : UInt16 :=
  UInt16.ofNat ((b i).toNat + 0x100 * (b (i + 1)).toNat)

/-- The 32-bit word at offset `i`. -/
def load32 (b : Nat → UInt8) (i : Nat) : UInt32 :=
  UInt32.ofNat ((b i).toNat + 0x100 * (b (i + 1)).toNat + 0x10000 * (b (i + 2)).toNat +
    0x1000000 * (b (i + 3)).toNat)

/-- The four bytes of a word, the low one first. -/
def bytes32 (x : UInt32) : List UInt8 :=
  [UInt8.ofNat x.toNat, UInt8.ofNat (x.toNat / 0x100), UInt8.ofNat (x.toNat / 0x10000),
    UInt8.ofNat (x.toNat / 0x1000000)]

/-- Store a word at offset 4, where both message headers have their sequence number. -/
def storeSeq (msg : List UInt8) (x : UInt32) : List UInt8 :=
  msg.take 4 ++ bytes32 x ++ msg.drop 8

/-! ## rfilesys.h and rdisksys.h -/

/-- The fields that both headers begin with: `rf_type`, `rf_status` and `rf_seq`, or
`rd_type`, `rd_status` and `rd_seq`. -/
def typeField (b : Nat → UInt8) : UInt16 := load16 b 0
def statusField (b : Nat → UInt8) : UInt16 := load16 b 2
def seqField (b : Nat → UInt8) : UInt32 := load32 b 4

/-- `sizeof(struct rf_msg_hdr)` and `sizeof(struct rd_msg_hdr)` -/
def rfMsgHdrSize : Nat := 2 + 2 + 4 + 128
def rdMsgHdrSize : Nat := 2 + 2 + 4 + 64

/-- `RF_MSG_RESPONSE`, and `RD_MSG_RESPONSE` -/
def msgResponse : UInt16 := 0x0100

def rfRetries : Nat := 3
def rdRetries : Nat := 3

/-! ## The world -/

/-- A message on the wire, with the number of the exchange it was sent in. -/
structure Datagram where
  exchange : Nat
  bytes : List UInt8
deriving DecidableEq

/-- What `udp_recv` finds. -/
inductive Arrival where
  | syserr
  | timeout
  | packet (d : Datagram)

/-- The variables of the client, the messages that are or were on the wire, and what the
next calls of the client will come back with. -/
structure World where
  /-- `rf_registered`, `rf_udp_slot` and `rf_seq`, or the fields of `struct rdscblk` -/
  registered : Bool
  slot : Int
  seq : UInt32
  /-- `NetData.ipvalid` -/
  ipvalid : Bool
  /-- The reply buffer of the caller. -/
  reply : Nat → UInt8
  /-- The number of exchanges that have been given a sequence number. -/
  made : Nat
  /-- All requests that were sent, and all replies. -/
  requests : List Datagram
  replies : List Datagram
  /-- The datagrams received in the current exchange. -/
  taken : List Datagram
  /-- The result of the next registration, sending or address call. -/
  result : Int
  arrival : Arrival

abbrev CommM := Coop World

def udpRegister : CommM Int := do
  Coop.giveAway
  return (← get).result

def getlocalip : CommM Int := do
  Coop.giveAway
  let retval := (← get).result
  if retval ≠ syserr then
    modify fun w => { w with ipvalid := true }
  return retval

/-- `udp_send`, and `udp_sendto` to the server, of a request of exchange `n`. -/
def udpSend (n : Nat) (msg : List UInt8) : CommM Int := do
  Coop.giveAway
  let retval := (← get).result
  if retval ≠ syserr then
    modify fun w => { w with requests := w.requests ++ [⟨n, msg⟩] }
  return retval

/-- The bytes of a datagram that fit the buffer are copied there. -/
def fill (rlen : Nat) (bytes : List UInt8) (buff : Nat → UInt8) : Nat → UInt8 :=
  fun i => if i < rlen then bytes.getD i (buff i) else buff i

def udpRecv (rlen : Nat) : CommM Int := do
  Coop.giveAway
  match (← get).arrival with
  | .syserr => return syserr
  | .timeout => return timeout
  | .packet d =>
      modify fun w => { w with reply := fill rlen d.bytes w.reply, taken := w.taken ++ [d] }
      return (min rlen d.bytes.length : Nat)

/-! ## The exchanges -/

/-- What a caller passes: a request, with a header of `hdr` bytes at least, and the size
of a reply buffer that can hold one. -/
structure Call (hdr : Nat) where
  msg : List UInt8
  rlen : Nat
  hdr_le_msg : hdr ≤ msg.length
  hdr_le_reply : hdr ≤ rlen

/-- `rtype != ( ntohs(msg->rf_type) | RF_MSG_RESPONSE)`, where `rtype` is an `int16` -/
def typeDiffers (msg : List UInt8) (reply : Nat → UInt8) : Prop :=
  (ntohs (typeField reply)).toInt16.toInt ≠
    ((ntohs (typeField (msg.getD · 0)) ||| msgResponse).toNat : Int)

instance (msg : List UInt8) (reply : Nat → UInt8) : Decidable (typeDiffers msg reply) :=
  inferInstanceAs (Decidable (_ ≠ _))

/-- For the first time after reboot, register the server port. -/
def registerPort : CommM Int := do
  if (← get).registered then
    return ok
  let retval ← udpRegister
  if retval = syserr then
    return syserr
  modify fun w => { w with slot := retval, registered := true }
  return ok

/-- Assign the message the next sequence number; an exchange begins. -/
def nextSeq : CommM (Nat × UInt32) := do
  let w ← get
  modify fun w => { w with seq := w.seq + 1, made := w.made + 1 }
  return (w.made, w.seq)

/-- The loop of `rfscomm`, with `i` attempts left. -/
def rfsTries (n : Nat) (msg : List UInt8) (seq : UInt32) (rlen : Nat) : Nat → CommM Int
  | 0 => return timeout
  | i + 1 => do
      let retval ← udpSend n msg
      if retval = syserr then
        return syserr
      let retval ← udpRecv rlen
      if retval = timeout then
        rfsTries n msg seq rlen i
      else if retval = syserr then
        return syserr
      else
        let reply := (← get).reply
        -- verify that sequence in reply matches request
        if ntohl (seqField reply) ≠ seq then
          rfsTries n msg seq rlen i
        -- verify the type in the reply matches the request
        else if typeDiffers msg reply then
          rfsTries n msg seq rlen i
        else
          return retval

/-- Handle communication with RFS server. -/
def rfscomm (c : Call rfMsgHdrSize) : CommM Int := do
  let retval ← registerPort
  if retval = syserr then
    return syserr
  let (n, seq) ← nextSeq
  let msg := storeSeq c.msg (htonl seq)
  rfsTries n msg seq c.rlen rfRetries

/-- `if (xmit)`: send a copy of the message; the result is that of the call. -/
def transmit (n : Nat) (msg : List UInt8) (xmit : Bool) : CommM Int := do
  if xmit then
    udpSend n msg
  else
    return ok

/-- The loop of `rdscomm`, with `i` attempts left. -/
def rdsTries (n : Nat) (msg : List UInt8) (seq : UInt32) (rlen : Nat) : Nat → Bool → CommM Int
  | 0, _ => return timeout
  | i + 1, xmit => do
      let retval ← transmit n msg xmit
      if retval = syserr then
        return syserr
      let retval ← udpRecv rlen
      if retval = timeout then
        rdsTries n msg seq rlen i true
      else if retval = syserr then
        return syserr
      else
        let reply := (← get).reply
        -- verify that sequence in reply matches request
        if ¬ ntohl (seqField reply) < seq ∧ ntohl (seqField reply) ≠ seq then
          rdsTries n msg seq rlen i true
        -- verify the type in the reply matches the request
        else if typeDiffers msg reply then
          -- `xmit` was cleared if the reply is an old one
          rdsTries n msg seq rlen i (decide (¬ ntohl (seqField reply) < seq))
        -- check the status
        else if ntohs (statusField reply) ≠ 0 then
          return syserr
        else
          return ok

/-- `if ( NetData.ipvalid == FALSE )`: obtain a local address. -/
def needAddress : CommM Int := do
  if (← get).ipvalid then
    return ok
  else
    getlocalip

/-- Handle communication with a remote disk server. -/
def rdscomm (c : Call rdMsgHdrSize) : CommM Int := do
  let retval ← registerPort
  if retval = syserr then
    return syserr
  let localip ← needAddress
  if localip = syserr then
    return syserr
  let (n, seq) ← nextSeq
  let msg := storeSeq c.msg (htonl seq)
  rdsTries n msg seq c.rlen rdRetries true

/-! ## The network and the server -/

/-- The sequence number of a message, as it was sent. -/
def seqOf (bytes : List UInt8) : UInt32 :=
  ntohl (seqField (bytes.getD · 0))

/-- The server copies the sequence number of the request into its reply. -/
def CopiesSeq (request reply : List UInt8) : Prop :=
  8 ≤ reply.length ∧ seqOf reply = seqOf request

instance (request reply : List UInt8) : Decidable (CopiesSeq request reply) :=
  inferInstanceAs (Decidable (_ ∧ _))

/-- The reply to a request that the remote file server sends: it also sets the response
bit in the type. -/
def RfsAnswers (request reply : List UInt8) : Prop :=
  CopiesSeq request reply ∧
    ntohs (typeField (reply.getD · 0)) = ntohs (typeField (request.getD · 0)) ||| msgResponse

instance (request reply : List UInt8) : Decidable (RfsAnswers request reply) :=
  inferInstanceAs (Decidable (_ ∧ _))

/-- What happens while the client waits: the server answers requests, each as often as a
copy of it arrives or not at all, and the network delivers any reply that was ever sent,
or none. -/
structure Between (answers : List UInt8 → List UInt8 → Prop) (w w' : World) : Prop where
  same : w' = { w with replies := w'.replies, result := w'.result, arrival := w'.arrival }
  answered : ∀ r ∈ w'.replies, r ∈ w.replies ∨
    ∃ q ∈ w.requests, q.exchange = r.exchange ∧ answers q.bytes r.bytes
  kept : ∀ r ∈ w.replies, r ∈ w'.replies
  delivered : ∀ d, w'.arrival = .packet d → d ∈ w'.replies

/-- No exchange has been made yet; `seq` is the first sequence number. -/
def World.Begins (seq : UInt32) (w : World) : Prop :=
  w.seq = seq ∧ w.made = 0 ∧ w.requests = [] ∧ w.replies = []

/-- The caller hands over a reply buffer, and nothing has been received yet. -/
def World.entered (w : World) (buff : Nat → UInt8) : World :=
  { w with reply := buff, taken := [] }

/-- `n` calls of one client, one at a time, from a world in which none was made: the
world after the last one. -/
inductive Session {κ : Type} (answers : List UInt8 → List UInt8 → Prop)
    (comm : κ → CommM Int) (seq : UInt32) : Nat → World → Prop
  | start {w : World} (h : w.Begins seq) : Session answers comm seq 0 w
  | wait {n : Nat} {w w' : World} (h : Session answers comm seq n w)
      (hw : Between answers w w') : Session answers comm seq n w'
  | call {n : Nat} {w w' : World} {c : κ} {v : Int} (h : Session answers comm seq n w)
      (buff : Nat → UInt8)
      (hcall : (comm c (w.entered buff)).Reaches (Between answers) v w') :
      Session answers comm seq (n + 1) w'

/-- The buffer holds a datagram, as much of it as fits. -/
def Holds (buff : Nat → UInt8) (rlen : Nat) (bytes : List UInt8) : Prop :=
  ∀ i < min rlen bytes.length, bytes[i]? = some (buff i)

instance (buff : Nat → UInt8) (rlen : Nat) (bytes : List UInt8) :
    Decidable (Holds buff rlen bytes) :=
  inferInstanceAs (Decidable (∀ i < min rlen bytes.length, _))

/-- The reply buffer was last filled with a reply to a request of exchange `n`. -/
def HoldsReply (n rlen : Nat) (w : World) : Prop :=
  ∃ d ∈ w.replies, w.taken.getLast? = some d ∧ d.exchange = n ∧ Holds w.reply rlen d.bytes

instance (n rlen : Nat) (w : World) : Decidable (HoldsReply n rlen w) :=
  inferInstanceAs (Decidable (∃ d ∈ w.replies, _))

/-! ## Scripts -/

/-- One thing that the network or the server does. -/
inductive Move where
  | result (v : Int)
  | answer (request : Nat) (reply : List UInt8)
  | deliver (reply : Nat)

/-- Replies that the server may not send are not sent. -/
def Move.apply (answers : List UInt8 → List UInt8 → Prop) [∀ q r, Decidable (answers q r)]
    (w : World) : Move → World
  | .result v => { w with result := v }
  | .answer request reply =>
      match w.requests[request]? with
      | none => w
      | some q =>
          if answers q.bytes reply then
            { w with replies := w.replies ++ [⟨q.exchange, reply⟩] }
          else
            w
  | .deliver reply =>
      match w.replies[reply]? with
      | none => { w with arrival := .timeout }
      | some d => { w with arrival := .packet d }

/-- While the client waits, nothing old arrives unless the script says so. -/
def play (answers : List UInt8 → List UInt8 → Prop) [∀ q r, Decidable (answers q r)]
    (moves : List Move) (w : World) : World :=
  moves.foldl (Move.apply answers) { w with arrival := .timeout }

end Remote
end Xinu
