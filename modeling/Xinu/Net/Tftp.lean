import Xinu.Foundations.ScatteredList
import Xinu.Kernel.State

/-!
# Downloading a file

Embedding of `net/tftp.c`.  The network is what the calls of the UDP module
return: the successive outcomes of `udp_recvaddr` are a list, and whether a
call of `udp_sendto` succeeds is a function of the number of messages sent so
far.  Messages to the console are left out.
-/

namespace Xinu
namespace Net

open Foundations

/-! ## tftp.h -/

def tftpRrq : Nat := 1
def tftpData : Nat := 3
def tftpAck : Nat := 4
def tftpError : Nat := 5

def tftpPort : Nat := 69
def tftpMaxnam : Nat := 64
def tftpMaxdata : Nat := 512
def tftpMaxretries : Nat := 3

/-- `sizeof(struct tftp_msg)` -/
def tftpMsgSize : Nat := 2 + 2 + tftpMaxdata

/-! ## The network -/

/-- What a call of `udp_recvaddr` returns. -/
inductive Received where
  | syserr
  | timeout
  | packet (port : Nat) (payload : List UInt8)

/-- What the kernel and the network do for the client. -/
structure Network where
  /-- `getutime`, if it succeeds -/
  utime : Option Nat
  /-- `udp_register` finds a free slot. -/
  registers : Bool
  /-- `udp_sendto` succeeds after so many messages. -/
  sends : Nat → Bool

/-- The client, and what is still to arrive. -/
structure Client where
  remport : Nat
  /-- The bytes of the message buffer. -/
  inmsg : Nat → UInt8
  arrivals : List Received
  /-- The messages sent, with the port each was sent to. -/
  sent : List (Nat × List UInt8)

/-- `ntohs` of the two bytes at offset `i` -/
def ntohs (msg : Nat → UInt8) (i : Nat) : Nat :=
  (msg i).toNat * 256 + (msg (i + 1)).toNat

/-- `htons`, as two bytes -/
def htons (x : Nat) : List UInt8 :=
  [UInt8.ofNat (x / 256), UInt8.ofNat x]

def tfOpcode (msg : Nat → UInt8) : Nat := ntohs msg 0
def tfDblk (msg : Nat → UInt8) : Nat := ntohs msg 2

/-- `tf_data[0]`, ..., `tf_data[n - 1]` -/
def tfData (msg : Nat → UInt8) (n : Nat) : List UInt8 :=
  (List.range n).map fun i => msg (4 + i)

/-- Send a message; the result is `OK` or `SYSERR`. -/
def udpSendto (net : Network) (port : Nat) (msg : List UInt8) (c : Client) : Int × Client :=
  if net.sends c.sent.length then
    (ok, { c with sent := c.sent ++ [(port, msg)] })
  else
    (syserr, c)

/-- The bytes of a payload that fit the message buffer are copied there. -/
def copyPayload (payload : List UInt8) (msg : Nat → UInt8) : Nat → UInt8 :=
  fun i => if i < tftpMsgSize then payload.getD i (msg i) else msg i

/-! ## tftp_send1 -/

/-- The loop of `tftp_send1`: read messages until one is an error or the block
that is expected.  There is no result while the next message is awaited. -/
def awaitBlock (expected : Nat) : List Received → Client → Option (Int × Client)
  | [], _ => none
  | .syserr :: rest, c => some (syserr, { c with arrivals := rest })
  | .timeout :: rest, c => some (timeout, { c with arrivals := rest })
  | .packet port payload :: rest, c =>
      let n := min tftpMsgSize payload.length
      let c := { c with
        arrivals := rest
        remport := port
        inmsg := copyPayload payload c.inmsg }
      if n < 4 then
        -- too small to be a valid packet
        awaitBlock expected rest c
      else if tfOpcode c.inmsg = tftpError then
        some (syserr, c)
      else if tfOpcode c.inmsg = tftpData ∧ tfDblk c.inmsg = expected then
        some (n, c)
      else
        -- invalid, or a duplicate
        awaitBlock expected rest c

/-- Send one outgoing request (RRQ or ACK) and get a matching response. -/
def tftpSend1 (net : Network) (msg : List UInt8) (expected : Nat) (c : Client) :
    Option (Int × Client) :=
  let (ret, c) := udpSendto net c.remport msg c
  if ret = syserr then
    some (syserr, c)
  else
    awaitBlock expected c.arrivals c

/-! ## tftpget_mb -/

/-- The loop that retransmits a request, with `i` attempts left. -/
def request (net : Network) (msg : List UInt8) (expected : Nat) :
    Nat → Client → Option (Int × Client)
  | 0, c => some (syserr, c)
  | i + 1, c =>
      match tftpSend1 net msg expected c with
      | none => none
      | some (n, c) =>
          if n > 0 then some (n, c)
          else if n = syserr then some (syserr, c)
          else request net msg expected i c

/-- The receive buffers, and how far they are filled. -/
structure Sink where
  /-- Byte `j` of buffer `i`. -/
  bufs : Nat → Nat → UInt8
  currBufInd : Nat
  currUsed : Nat
  filesiz : Int

/-- The loop that moves a block into the buffers.  The result `error` is the
return from the middle of it, when the last buffer is full. -/
def moveBlock (sizes : List Nat) : List UInt8 → Sink → Except Sink Sink
  | [], s => .ok s
  | b :: data, s =>
      let full := s.currUsed ≥ sizes.getD s.currBufInd 0
      if full ∧ s.currBufInd + 1 ≥ sizes.length then
        .error s
      else
        let s := if full then { s with currBufInd := s.currBufInd + 1, currUsed := 0 } else s
        moveBlock sizes data
          { s with
            bufs := store s.bufs s.currBufInd s.currUsed b
            currUsed := s.currUsed + 1
            filesiz := i32 (s.filesiz + 1) }

/-- The main loop of `tftpget_mb`: request a block, move it, acknowledge it.
Every turn uses up an arrival, so as many turns as there are arrivals are enough. -/
def transfer (net : Network) (sizes : List Nat) :
    Nat → List UInt8 → Nat → Client → Sink → Option (Int × Client × Sink)
  | 0, _, _, _, _ => none
  | turns + 1, msg, expected, c, s =>
      match request net msg expected tftpMaxretries c with
      | none => none
      | some (n, c) =>
          if n = syserr then
            some (syserr, c, s)
          else
            let dlen := n.toNat - 4
            match moveBlock sizes (tfData c.inmsg dlen) s with
            | .error s => some (s.filesiz, c, s)
            | .ok s =>
                let ack := htons tftpAck ++ htons expected
                if dlen < 512 then
                  -- the last packet: send the final ACK
                  let (ret, c) := udpSendto net c.remport ack c
                  if ret = syserr then some (syserr, c, s) else some (s.filesiz, c, s)
                else
                  transfer net sizes turns ack ((expected + 1) % 0x10000) c s

/-- A receive buffer of the caller. -/
structure RcvBuf where
  null : Bool
  size : Nat

/-- A Read Request for the file, in mode "octet". -/
def rrq (filename : List UInt8) : List UInt8 :=
  htons tftpRrq ++ filename ++ [0] ++ "octet".toUTF8.toList ++ [0]

/-- Download a file into several buffers, whose bytes are `bufs` at first. -/
def tftpgetMb (net : Network) (serverip : Nat) (filename : Option (List UInt8))
    (rcvBufs : List RcvBuf) (arrivals : List Received) (inmsg : Nat → UInt8)
    (bufs : Nat → Nat → UInt8) : Option (Int × Client × Sink) :=
  let c : Client := ⟨tftpPort, inmsg, arrivals, []⟩
  let s : Sink := ⟨bufs, 0, 0, 0⟩
  match filename with
  | none => some (syserr, c, s)
  | some name =>
      if serverip = 0 ∨ rcvBufs = [] ∨ ∃ b ∈ rcvBufs, b.null = true ∨ b.size = 0 then
        some (syserr, c, s)
      else if name.length = 0 ∨ name.length > tftpMaxnam then
        some (syserr, c, s)
      else if net.utime = none ∨ net.registers = false then
        some (syserr, c, s)
      else
        transfer net (rcvBufs.map RcvBuf.size) (arrivals.length + 1) (rrq name) 1 c s

end Net
end Xinu
