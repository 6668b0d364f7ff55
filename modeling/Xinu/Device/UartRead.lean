import Xinu.Device.Tty
import Xinu.Device.Uart

/-!
# Reading from the serial device

The upper half of input, `uartRead`, takes bytes from the buffer that the interrupt handler
fills, and echoes them.  Beside the entry of `uarttab` stands a record of the bytes that
were stored and taken; no procedure reads it.

Main results:

- Theorem `inputStart_observed`: initialization leaves an empty buffer and an empty record.
-/

namespace Xinu

open Foundations

/-- What is recorded of the input. -/
inductive InputEvent
  /-- The interrupt handler stores the byte. -/
  | stored (ch : UInt8)
  /-- A reader takes the byte `ch`, with this `icount` and these `iflags`, and passes `c` to
  its caller. -/
  | taken (icount : Int) (iflags ch c : UInt8)
deriving DecidableEq, Repr

/-- The entry of `uarttab`, and the record. -/
structure Observed where
  uart : Uart
  events : List InputEvent

abbrev ReadM := WorldM Observed UartEvent

/-- The world without the record. -/
def uartView (w : World Observed UartEvent) : World Uart UartEvent :=
  w.map Observed.uart

/-- The world with the record of `w`. -/
def uartPut (w : World Observed UartEvent) (s : World Uart UartEvent) :
    World Observed UartEvent :=
  s.map fun d => ⟨d, w.shared.events⟩

/-- A procedure of the driver that leaves the record alone. -/
def onUart {α : Type} (x : UartM α) : ReadM α :=
  Coop.zoom uartView uartPut x

/-! ## The upper half -/

/-- Write a single character. -/
def uartPutc (me : Int) (ch : UInt8) : UartM Int := do
  if (← uartWrite me [ch]) = 1 then
    return ch.toNat
  else
    return syserr

/-- Take the first byte from the input buffer. -/
def Uart.take (d : Uart) : Uart :=
  { d with
    icount := d.icount - 1
    istart := (d.istart + 1).tmod uartIblen }

/-- The byte that is passed to the caller for the byte `ch`. -/
def Uart.translate (d : Uart) (ch : UInt8) : UInt8 :=
  if d.iflags &&& ttyIcrnl ≠ 0 ∧ ch = tyReturn then tyNewline else ch

/-- The first byte is taken and passed on. -/
def Observed.take (r : Observed) : Observed where
  uart := r.uart.take
  events :=
    let ch := r.uart.input r.uart.istart
    r.events ++ [.taken r.uart.icount r.uart.iflags ch (r.uart.translate ch)]

/-- Read up to `n` bytes; `count` have been read before. -/
def uartReadLoop (me : Int) (count : Nat) : Nat → ReadM Nat
  | 0 => return count
  | n + 1 => do
      let d := (← get).shared.uart
      if d.iflags &&& uartNoblock ≠ 0 ∧ d.icount = 0 then
        return count
      else
        let _ ← World.wait me d.isema
        let d := (← get).shared.uart
        let c := d.translate (d.input d.istart)
        modify (·.setShared Observed.take)
        if d.iflags &&& uartIflagEcho ≠ 0 then
          let _ ← onUart (uartPutc me c)
        if c = tyNewline ∨ c = tyReturn then
          return count
        else
          uartReadLoop me (count + 1) n

/-- Read up to `len` bytes for process `me`. -/
def uartRead (me : Int) (len : Nat) : ReadM Int := do
  if (← get).shared.uart.csr = false then
    return syserr
  let count ← uartReadLoop me 0 len
  return i32 count

/-! ## The lower half -/

/-- The bytes for which the interrupt handler finds room. -/
def stores : List UInt8 → Int → List UInt8
  | [], _ => []
  | c :: received, icount =>
      if icount < uartIblen then
        c :: stores received (icount + 1)
      else
        stores received icount

/-- The handler will store the bytes for which there is room. -/
def Observed.receive (received : List UInt8) (r : Observed) : Observed :=
  { r with events := r.events ++ (stores received r.uart.icount).map .stored }

/-- The bytes that are read from the device. -/
def UartCall.received : UartCall → List UInt8
  | .interrupt _ received => received
  | _ => []

/-- What happens while a process runs: it reads, or what can happen without readers. -/
inductive ReadCall
  | read (len : Nat)
  | other (c : UartCall)
deriving DecidableEq, Repr

def ReadCall.exec (me : Int) : ReadCall → ReadM Int
  | .read len => uartRead me len
  | .other c => do
      modify (·.setShared (Observed.receive c.received))
      onUart (c.exec me)

def readCrew : Crew (World Observed UartEvent) ReadCall where
  exec := ReadCall.exec
  ready := World.Ready

/-- What initialization leaves. -/
structure ReadStart (w : World Observed UartEvent) : Prop where
  uart : UartStart (uartView w)
  input : InputStart (uartView w)
  events : w.shared.events = []

/-- The record begins when the device has been initialized. -/
theorem inputStart_observed {w s : World Uart UartEvent} (htidy : w.Tidy) (hlog : w.log = [])
    (h : uartInit w = .done ok s) : ReadStart (s.map fun d => ⟨d, []⟩) := by
  obtain ⟨huart, hinput⟩ := uartInit_starts htidy hlog h
  exact ⟨huart, hinput, rfl⟩

end Xinu
