import Xinu.Net.Udp
import Xinu.Net.DottedQuad
import Xinu.Device.RemoteComm

/-!
# DHCP and the time of day

Embedding of `net/dhcp.c` and `net/getutime.c`.  A message is the memory from its first byte on.
What the network does is what the calls of the UDP module return; those of `udp_sendto` are not
looked at.  Messages to the console are left out.
-/

namespace Xinu
namespace Net
namespace Dhcp

open Foundations Function DottedQuad
open Remote (load32 bytes32)

/-! ## dhcp.h -/

def dhcpRetry : Nat := 5

def dhcpPadding : UInt8 := 0
def dhcpSubnetMask : UInt8 := 1
def dhcpRouter : UInt8 := 3
def dhcpRequestedIp : UInt8 := 50
def dhcpMessageType : UInt8 := 53
def dhcpServerId : UInt8 := 54
def dhcpParameterRequestList : UInt8 := 55
def dhcpMessageEnd : UInt8 := 255

def dhcpOffer : UInt8 := 2
def dhcpAck : UInt8 := 5

/-! The offsets of the fields of a message. -/

def dcXid : Nat := 4
def dcYip : Nat := 16
def dcSip : Nat := 20
def dcChaddr : Nat := 28
def sname : Nat := 44
def bootfile : Nat := 108
def dcCookie : Nat := 236
def dcOpt : Nat := 240

/-- `sizeof(dmsg_rvc.bootfile)` -/
def bootfileSize : UInt32 := 128

/-! ## Memory -/

def bytesAt (msg : Chars) (off n : Nat) : List UInt8 :=
  (List.range n).map fun i => msg (off + i)

/-- Memory with the bytes `bs` at offset `off`. -/
def store (msg : Chars) (off : Nat) (bs : List UInt8) : Chars :=
  fun i => if off ≤ i then bs.getD (i - off) (msg i) else msg i

/-! ## Options -/

/-- The loop of `get_dhcp_option_value`, with `opt_tmp` at `opt`: where the value is, and the bytes
that are read. -/
def optionLoop (msg : Chars) (size : Nat) (key : UInt8) (opt : Nat) : Option Nat × List Nat :=
  if opt + 1 < size then
    if msg opt = key then
      -- offset past the option value and the size
      (some (opt + 2), [opt])
    else
      let len := opt + 1
      let (found, reads) := optionLoop msg size key (len + (msg len).toNat + 1)
      (found, opt :: len :: reads)
  else
    (none, [])
termination_by size - opt

/-- Retrieve a pointer to the value for a particular DHCP options key. -/
def getDhcpOptionValue (msg : Chars) (size : Nat) (key : UInt8) : Option Nat :=
  (optionLoop msg size key dcOpt).1

/-- The loop of `dump_dhcp_msg`: where the options are that it prints, from `opt` on. -/
def dumpOptions (msg : Chars) (size : Nat) (opt : Nat) : List Nat :=
  if opt + 1 < size then
    if msg opt = dhcpPadding ∨ msg opt = dhcpMessageEnd then
      dumpOptions msg size (opt + 1)
    else
      let len := opt + 1
      opt :: dumpOptions msg size (len + (msg len).toNat + 1)
  else
    []
termination_by size - opt

/-- What a client wants to know of the options. -/
structure Options where
  msgtype : UInt8
  addrmask : UInt32
  routeraddr : UInt32

/-- What the `switch` over the options does with the one at `opt`. -/
def Options.note (msg : Chars) (o : Options) (opt : Nat) : Options :=
  if msg opt = dhcpMessageType then
    { o with msgtype := msg (opt + 2) }
  else if msg opt = dhcpSubnetMask then
    { o with addrmask := ntohl (load32 msg (opt + 2)) }
  else if msg opt = dhcpRouter then
    { o with routeraddr := ntohl (load32 msg (opt + 2)) }
  else
    o

/-- The loop of `getlocalip_boot` over the options, from `opt` on. -/
def scanOptions (msg : Chars) (eop : Int) (opt : Nat) (o : Options) : Options :=
  if (opt : Int) < eop then
    let len := opt + 1
    scanOptions msg eop (len + (msg len).toNat + 1) (o.note msg opt)
  else
    o
termination_by (eop - opt).toNat

/-! ## Messages -/

/-- The part of an outgoing message in front of its options. -/
def dhcpHeader (mac : Mac) (sip : List UInt8) : Chars :=
  -- use 4 bytes from MAC as XID
  let xid := load32 (fun i => (List.ofFn mac).getD i 0) 0
  let msg : Chars := fun _ => 0
  let msg := store msg 0 [0x01, 0x01, 0x06, 0x00]
  let msg := store msg dcXid (bytes32 (htonl xid))
  let msg := store msg dcSip sip
  let msg := store msg dcChaddr (List.ofFn mac)
  store msg dcCookie (bytes32 (htonl 0x63825363))

/-- Handcraft a DHCP Discover message. -/
def buildDhcpDiscover (mac : Mac) : Chars × Int :=
  let opts := [dhcpMessageType, 1, 1, 0, dhcpParameterRequestList, 2, dhcpSubnetMask, dhcpRouter]
  (store (dhcpHeader mac [0, 0, 0, 0]) dcOpt opts, dcOpt + opts.length + 1)

/-- Handcraft a DHCP request message for an offer of `offerSize` bytes. -/
def buildDhcpRequest (mac : Mac) (offer : Chars) (offerSize : Nat) : Chars × Int :=
  let msg := dhcpHeader mac (bytesAt offer dcSip 4)
  let opts := [dhcpMessageType, 1, 3, 0, 0, 0, dhcpRequestedIp, 4] ++ bytesAt offer dcYip 4
  -- retrieve the DHCP server IP from the DHCP options
  match getDhcpOptionValue offer offerSize dhcpServerId with
  | none => (store msg dcOpt opts, syserr)
  | some serverIp =>
      let opts := opts ++ [0, 0, dhcpServerId, 4] ++ bytesAt offer serverIp 4
      (store msg dcOpt opts, dcOpt + opts.length + 1)

/-! ## Endpoints -/

/-- `udp_register`: the slot and the table with the endpoint in it, if there is room. -/
def udpOpen (tab : Nat → Udpentry) (remip : UInt32) (remport locport : UInt16) :
    Option (Nat × (Nat → Udpentry)) :=
  if udpRegistered tab remip remport locport then
    none
  else
    (udpVacant tab).map fun slot =>
      (slot, update tab slot (udpOpened remip remport locport (tab slot)))

/-- `udp_release`: the table without the endpoint.  Packets and their queues are left out, so that
a queue is as empty as it was when the endpoint was registered. -/
def udpClose (tab : Nat → Udpentry) (slot : Nat) : Nat → Udpentry :=
  update tab slot { tab slot with udstate := .udpFree }

/-! ## getlocalip -/

/-- What a call of `udp_recv` returns, and the buffer that it leaves. -/
structure Receipt where
  inlen : Int
  msg : Chars

/-- The variables at `boot_server`, `boot_file` and `size`. -/
structure BootVars where
  bootServer : UInt32
  bootFile : Chars
  size : UInt32

/-- The variables of `getlocalip_boot`, and what it has sent.  There are no variables for the boot
server if one of the pointers is null. -/
structure Exchange where
  udptab : Nat → Udpentry
  netData : NetData
  boot : Option BootVars
  dmsgSnd : Chars
  len : Int
  sent : List (Chars × Int)

/-- `udp_sendto` -/
def Exchange.send (x : Exchange) : Exchange :=
  { x with sent := x.sent ++ [(x.dmsgSnd, x.len)] }

/-- The boot server and the boot file that an acknowledgement names; `none` if there is no
server.  `garbage` is what a variable of `dot2ip` holds. -/
def bootVars (garbage : UInt8) (ack : Chars) (len : Int) (v : BootVars) : Option BootVars :=
  let copyFile (server : UInt32) : BootVars :=
    let size := if v.size < bootfileSize then v.size else bootfileSize
    ⟨server, store v.bootFile 0 (bytesAt ack bootfile size.toNat), size⟩
  let (retval, server) := dot2ip garbage (fun i => ack (sname + i)) v.bootServer
  if retval ≠ uOk then
    -- assume the boot server is the DHCP server
    (getDhcpOptionValue ack len.toNat dhcpServerId).map fun serverIp =>
      copyFile (ntohl (load32 ack serverIp))
  else
    some (copyFile server)

/-- The interface as an acknowledgement sets it. -/
def NetData.acknowledge (nd : NetData) (ack : Chars) (o : Options) : NetData :=
  let nd := if o.addrmask ≠ 0 then { nd with ipmask := o.addrmask } else nd
  let nd := if o.routeraddr ≠ 0 then { nd with iprouter := o.routeraddr } else nd
  let nd := { nd with ipucast := ntohl (load32 ack dcYip) }
  let nd := { nd with ipprefix := nd.ipucast &&& nd.ipmask }
  { nd with ipbcast := nd.ipprefix ||| ~~~nd.ipmask, ipvalid := true }

/-- One turn of the inner loop: the value returned, if there is one. -/
def receiveTurn (garbage : UInt8) (slot : Nat) (r : Receipt) (x : Exchange) :
    Option UInt32 × Exchange :=
  if r.inlen = timeout then
    (none, x)
  else if r.inlen = syserr then
    (some uSyserr, x)
  -- ID must match our request
  else if ntohl (load32 r.msg dcXid) ≠ ntohl (load32 x.dmsgSnd dcXid) then
    (none, x)
  else
    let o := scanOptions r.msg (r.inlen - 1) dcOpt ⟨0, 0, 0⟩
    if o.msgtype = dhcpOffer then
      -- offer - send request
      let (dmsgSnd, len) := buildDhcpRequest x.netData.ethucast r.msg r.inlen.toNat
      let x := { x with dmsgSnd := dmsgSnd, len := len }
      if len = syserr then
        (some uSyserr, x)
      else
        (none, x.send)
    else if r.msg (dcOpt + 2) ≠ dhcpAck then
      -- if not an ack skip it
      (none, x)
    else
      let x := { x with
        netData := NetData.acknowledge x.netData r.msg o
        udptab := udpClose x.udptab slot }
      match x.boot with
      | none => (some x.netData.ipucast, x)
      | some v =>
          match bootVars garbage r.msg x.len v with
          | none => (some uSyserr, x)
          | some v => (some x.netData.ipucast, { x with boot := some v })

/-- Read incoming DHCP messages, `n` more of them from the `j`-th on. -/
def receiveLoop (garbage : UInt8) (slot : Nat) (recv : Nat → Receipt) :
    Nat → Nat → Exchange → Option UInt32 × Exchange
  | 0, _, x => (none, x)
  | n + 1, j, x =>
      match receiveTurn garbage slot (recv j) x with
      | (some v, x) => (some v, x)
      | (none, x) => receiveLoop garbage slot recv n (j + 1) x

/-- The outer loop, with `n` turns left from the `i`-th on.  `recv i j` is what the `j`-th receive
of turn `i` gives. -/
def retryLoop (garbage : UInt8) (slot : Nat) (recv : Nat → Nat → Receipt) :
    Nat → Nat → Exchange → Option UInt32 × Exchange
  | 0, _, x => (none, x)
  | n + 1, i, x =>
      match receiveLoop garbage slot (recv i) 3 0 x.send with
      | (some v, x) => (some v, x)
      | (none, x) => retryLoop garbage slot recv n (i + 1) x

def udpDhcpSport : UInt16 := 67
def udpDhcpCport : UInt16 := 68

/-- Use DHCP to obtain an IP address. -/
def getlocalipBoot (garbage : UInt8) (recv : Nat → Nat → Receipt) (x : Exchange) :
    UInt32 × Exchange :=
  match udpOpen x.udptab 0 udpDhcpSport udpDhcpCport with
  | none => (uSyserr, x)
  | some (slot, tab) =>
      let (dmsgSnd, len) := buildDhcpDiscover x.netData.ethucast
      let x := { x with udptab := tab, dmsgSnd := dmsgSnd, len := len }
      if len = syserr then
        (uSyserr, x)
      else
        match retryLoop garbage slot recv dhcpRetry 0 x with
        | (some v, x) => (v, x)
        | (none, x) => (uSyserr, { x with udptab := udpClose x.udptab slot })

/-- The IP address, or that of the DHCP server's choice. -/
def getlocalip (garbage : UInt8) (recv : Nat → Nat → Receipt) (x : Exchange) : UInt32 × Exchange :=
  if x.netData.ipvalid = true then
    (x.netData.ipucast, x)
  else
    getlocalipBoot garbage recv { x with boot := none }

/-! ## getutime -/

/-- `dt_boot` and `dt_bootvalid` of the date, and the location of the result. -/
structure Clock where
  dtBoot : UInt32
  dtBootvalid : Bool
  timvar : UInt32

/-- The constant of `ntim2xtim` -/
def epochGap : UInt32 := 2208988800

def timerport : UInt16 := 37
def timelport : UInt16 := 42345

/-- What the calls of UDP return to `getutime`: those in `getlocalip`, `udp_send`, and `udp_recv`
with the time in network format. -/
structure TimeCalls where
  dhcp : Nat → Nat → Receipt
  send : Int
  recv : Int
  nnow : UInt32

/-- Obtain time in seconds past Jan 1, 1970. -/
def getutime (garbage : UInt8) (timeserver : Chars) (clktime : UInt32) (calls : TimeCalls)
    (c : Clock) (x : Exchange) : Int × Clock × Exchange :=
  if c.dtBootvalid = true then
    -- return time from local info
    (ok, { c with timvar := c.dtBoot + clktime }, x)
  else
    let (retval, serverip) := dot2ip garbage timeserver 0
    if retval = uSyserr then
      (syserr, c, x)
    else
      -- contact the time server to get the date and time
      match udpOpen x.udptab serverip timerport timelport with
      | none => (syserr, c, x)
      | some (slot, tab) =>
          let (addr, x) := getlocalip garbage calls.dhcp { x with udptab := tab }
          if addr = uSyserr then
            (syserr, c, x)
          else if calls.send = syserr then
            (syserr, c, { x with udptab := udpClose x.udptab slot })
          else if calls.recv = syserr ∨ calls.recv = timeout then
            (syserr, c, { x with udptab := udpClose x.udptab slot })
          else
            let x := { x with udptab := udpClose x.udptab slot }
            let now := ntohl calls.nnow - epochGap
            (ok, ⟨now - clktime, true, now⟩, x)

end Dhcp
end Net
end Xinu
