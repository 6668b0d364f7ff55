import Xinu.Kernel.SemaphoreWorld

/-!
# The serial device

The upper half, `uartWrite`, sends a byte directly while the transmitter is idle and
stores it in the output buffer otherwise.  The lower half, `uartInterrupt`, moves bytes
from the buffer to the transmitter, and notes that the transmitter is idle when it finds
the buffer empty.

Main results:

- Theorem `uartInit_starts`: what initialization leaves.
-/

namespace Xinu

open Foundations Function

/-! ## The transmitter -/

/-- The transmitter, whose FIFOs are disabled: a holding register, and the line behind
it.  The interrupt is raised when the holding register becomes empty, and cleared by a
write to it. -/
structure Pl011 where
  dr : Option UInt8
  /-- What went out on the line since the hardware was initialized. -/
  wire : List UInt8
  txris : Bool
deriving DecidableEq

/-- Write a byte to the holding register; one that is still there is lost. -/
def Pl011.write (r : Pl011) (c : UInt8) : Pl011 :=
  { r with dr := some c, txris := false }

/-- The transmitter takes the byte from the holding register. -/
def Pl011.shift (r : Pl011) : Pl011 :=
  match r.dr with
  | some c => ⟨none, r.wire ++ [c], true⟩
  | none => r

/-! ## The driver -/

def uartIblen : Int := 1024

def uartOblen : Int := 1024

/-- Do non-blocking input or output, `UART_IFLAG_NOBLOCK` and `UART_OFLAG_NOBLOCK`. -/
def uartNoblock : UInt8 := 0x01

def uartIflagEcho : UInt8 := 0x02

def ttyIcrnl : UInt8 := 0x08

/-- The entry of `uarttab`, and the registers of the device. -/
structure Uart where
  csr : Bool
  cout : UInt32
  cin : UInt32
  ovrrn : UInt32
  iirq : UInt32
  oirq : UInt32
  iflags : UInt8
  isema : Int
  istart : Int
  icount : Int
  input : Int → UInt8
  oflags : UInt8
  osema : Int
  ostart : Int
  ocount : Int
  out : Int → UInt8
  oidle : Bool
  regs : Pl011

/-- What is recorded of the bytes that are accepted. -/
inductive UartEvent
  /-- The byte is written to the device. -/
  | direct (ch : UInt8)
  /-- The byte is stored in the buffer, with this `oidle`. -/
  | stored (oidle : Bool) (ch : UInt8)
deriving DecidableEq, Repr

def UartEvent.byte : UartEvent → UInt8
  | .direct ch => ch
  | .stored _ ch => ch

abbrev UartM := WorldM Uart UartEvent

/-- Initialize the hardware: no byte is left in the transmitter and no interrupt is
pending. -/
def uartHwInit : UartM Int := do
  modify (·.setShared fun d => { d with regs := ⟨none, [], false⟩ })
  return ok

/-- Initialize the device. -/
def uartInit : UartM Int := do
  modify (·.setShared fun d => { d with cout := 0, cin := 0, ovrrn := 0, iirq := 0, oirq := 0 })
  let isema ← World.semcreate 0
  modify (·.setShared fun d =>
    { d with isema := isema, iflags := uartIflagEcho ||| ttyIcrnl, istart := 0, icount := 0 })
  if isbadsem isema then
    return syserr
  let osema ← World.semcreate uartOblen
  modify (·.setShared fun d =>
    { d with osema := osema, oflags := 0, ostart := 0, ocount := 0, oidle := true })
  if isbadsem osema then
    let _ ← World.semdelete isema
    return syserr
  if (← uartHwInit) ≠ ok then
    let _ ← World.semdelete isema
    let _ ← World.semdelete osema
    return syserr
  modify (·.setShared fun d => { d with csr := true })
  return ok

/-- Send `ch` directly. -/
def Uart.putDirect (ch : UInt8) (d : Uart) : Uart :=
  { d with regs := d.regs.write ch, oidle := false, cout := d.cout + 1 }

/-- Store `ch` in the output buffer. -/
def Uart.store (ch : UInt8) (d : Uart) : Uart :=
  { d with
    out := update d.out ((d.ostart + d.ocount).tmod uartOblen) ch
    ocount := d.ocount + 1 }

/-- Write the bytes of `buf`, of which `count` have been written before. -/
def uartWriteLoop (me : Int) (count : Nat) : List UInt8 → UartM Nat
  | [] => return count
  | ch :: buf => do
      let d := (← get).shared
      if d.oidle = true then
        modify fun w => (w.setShared (Uart.putDirect ch)).note (.direct ch)
        uartWriteLoop me (count + 1) buf
      else if d.oflags &&& uartNoblock ≠ 0 ∧ d.ocount = uartOblen then
        return count
      else
        let _ ← World.wait me d.osema
        modify fun w => (w.setShared (Uart.store ch)).note (.stored w.shared.oidle ch)
        uartWriteLoop me (count + 1) buf

/-- Write a buffer of data for process `me`. -/
def uartWrite (me : Int) (buf : List UInt8) : UartM Int := do
  if (← get).shared.csr = false then
    return syserr
  let count ← uartWriteLoop me 0 buf
  return i32 count

/-- Move one byte from the output buffer to the transmitter. -/
def Uart.send (d : Uart) : Uart :=
  { d with
    regs := d.regs.write (d.out d.ostart)
    ostart := (d.ostart + 1).tmod uartOblen
    ocount := d.ocount - 1 }

/-- Move bytes to the transmitter until it is full or the buffer is empty, and count them.
`shifts` says, for each byte, whether the transmitter takes it before its flag is read;
`n` bounds the number of bytes. -/
def Uart.drain : Nat → List Bool → Uart → Uart × Int
  | 0, _, d => (d, 0)
  | n + 1, shifts, d =>
      let d := d.send
      let d := if shifts.headD false then { d with regs := d.regs.shift } else d
      if d.regs.dr = none ∧ d.ocount > 0 then
        let (d, count) := Uart.drain n shifts.tail d
        (d, count + 1)
      else
        (d, 1)

/-- Buffer the bytes that were received, and count those for which there is room. -/
def Uart.receive : List UInt8 → Uart → Uart × Int
  | [], d => (d, 0)
  | c :: received, d =>
      if d.icount < uartIblen then
        let (d, count) := Uart.receive received
          { d with
            input := update d.input ((d.istart + d.icount).tmod uartIblen) c
            icount := d.icount + 1 }
        (d, count + 1)
      else
        Uart.receive received { d with ovrrn := d.ovrrn + 1 }

/-- Count and clear the transmit interrupt. -/
def Uart.acknowledge (d : Uart) : Uart :=
  { d with oirq := d.oirq + 1, regs := { d.regs with txris := false } }

/-- The transmit interrupt is asserted. -/
def transmitInterrupt (shifts : List Bool) : UartM Unit := do
  modify (·.setShared Uart.acknowledge)
  let d := (← get).shared
  if d.ocount > 0 then
    let r := d.drain d.ocount.toNat shifts
    modify (·.setShared fun _ => { r.1 with cout := r.1.cout + UInt32.ofInt r.2 })
    let _ ← World.signaln d.osema r.2
  else
    modify (·.setShared fun d => { d with oidle := true })

/-- The receive interrupt is asserted. -/
def receiveInterrupt (received : List UInt8) : UartM Unit := do
  modify (·.setShared fun d => { d with iirq := d.iirq + 1 })
  let d := (← get).shared
  let r := d.receive received
  modify (·.setShared fun _ => { r.1 with cin := r.1.cin + UInt32.ofInt r.2 })
  let _ ← World.signaln d.isema r.2

/-- Handle an interrupt request.  `shifts` are the times at which the transmitter takes a
byte, and `received` the bytes that are read, if the receive interrupt is asserted. -/
def uartInterrupt (shifts : List Bool) (received : List UInt8) : UartM Int := do
  let _ ← World.reschedCntl deferStart
  let txmis := (← get).shared.regs.txris
  if txmis = true then
    transmitInterrupt shifts
  if received ≠ [] then
    receiveInterrupt received
  World.reschedCntl deferStop

/-- Change flags that `look` reads and `put` writes; interrupts are enabled. -/
def changeFlags (look : Uart → UInt8) (put : UInt8 → Uart → Uart) (f : UInt8 → UInt8) :
    UartM Unit := do
  Coop.giveAway
  let flags := look (← get).shared
  Coop.giveAway
  modify (·.setShared (put (f flags)))

/-- Control parameters of the device. -/
def uartControl (func : Int) (arg1 : UInt8) : UartM Int := do
  let d := (← get).shared
  if func = 0x10 then
    changeFlags Uart.iflags (fun flags d => { d with iflags := flags }) (· ||| arg1)
    return (d.iflags &&& arg1).toNat
  else if func = 0x11 then
    changeFlags Uart.iflags (fun flags d => { d with iflags := flags }) (· &&& ~~~arg1)
    return (d.iflags &&& arg1).toNat
  else if func = 0x12 then
    return d.iflags.toNat
  else if func = 0x13 then
    changeFlags Uart.oflags (fun flags d => { d with oflags := flags }) (· ||| arg1)
    return (d.oflags &&& arg1).toNat
  else if func = 0x14 then
    changeFlags Uart.oflags (fun flags d => { d with oflags := flags }) (· &&& ~~~arg1)
    return (d.oflags &&& arg1).toNat
  else if func = 0x15 then
    return d.oflags.toNat
  else if func = 0x16 then
    return if d.oidle = true then 1 else 0
  else
    return syserr

/-! ## The system -/

/-- What happens while a process runs: a call of it, an interrupt, or the transmitter
takes a byte. -/
inductive UartCall
  | write (buf : List UInt8)
  | control (func : Int) (arg1 : UInt8)
  | interrupt (shifts : List Bool) (received : List UInt8)
  | shift
deriving DecidableEq, Repr

def UartCall.exec (me : Int) : UartCall → UartM Int
  | .write buf => uartWrite me buf
  | .control func arg1 => uartControl func arg1
  | .interrupt shifts received => uartInterrupt shifts received
  | .shift => do
      modify (·.setShared fun d => { d with regs := d.regs.shift })
      return ok

def uartCrew : Crew (World Uart UartEvent) UartCall where
  exec := UartCall.exec
  ready := World.Ready

/-- What initialization leaves. -/
structure UartStart (w : World Uart UartEvent) : Prop where
  tidy : w.Tidy
  csr : w.shared.csr = true
  isema : (w.sems w.shared.isema).used = true
  apart : w.shared.isema ≠ w.shared.osema
  osema : w.sems w.shared.osema = ⟨true, uartOblen, []⟩
  granted : w.granted w.shared.osema = []
  ostart : w.shared.ostart = 0
  ocount : w.shared.ocount = 0
  oidle : w.shared.oidle = true
  regs : w.shared.regs = ⟨none, [], false⟩
  log : w.log = []

/-- What initialization leaves of the input buffer: it is empty, and nobody waits. -/
structure InputStart (w : World Uart UartEvent) : Prop where
  isema : w.sems w.shared.isema = ⟨true, 0, []⟩
  granted : w.granted w.shared.isema = []
  istart : w.shared.istart = 0
  icount : w.shared.icount = 0

theorem not_done_of_fail {σ α : Type} {x : Flow σ α} {s : σ}
    (h : (x.bind fun _ => pure syserr) = .done ok s) : False := by
  cases x with
  | done a s' => cases h
  | suspended s' k => cases h
  | halted s' => cases h
  | stuck => cases h

/-- Initialization that succeeds. -/
theorem uartInit_starts {w s : World Uart UartEvent} (htidy : w.Tidy) (hlog : w.log = [])
    (h : uartInit w = .done ok s) : UartStart s ∧ InputStart s := by
  have htidy' : ∀ f : Uart → Uart, (w.setShared f).Tidy := fun f =>
    htidy.congr rfl rfl rfl rfl
  unfold uartInit at h
  rw [Coop.run_bind, Coop.run_modify, Flow.bind_done, Coop.run_bind] at h
  obtain ⟨next, h₀, hlt, hfail | ⟨isema, hi, hunused, hdone⟩⟩ :=
    World.semcreate_done (htidy' _) (n := 0) (Int.le_refl 0)
  · rw [hfail] at h
    cases h
  rw [hdone, Flow.bind_done, Coop.run_bind, Coop.run_modify, Flow.bind_done, Coop.run_ite,
    if_neg hi, Coop.run_bind] at h
  have htidy₁ := (htidy' fun d =>
    { d with cout := 0, cin := 0, ovrrn := 0, iirq := 0, oirq := 0 }).created hi h₀ hlt 0
  have hsem : (({ w.setShared fun d =>
      { d with cout := 0, cin := 0, ovrrn := 0, iirq := 0, oirq := 0 } with
        nextsem := next } : World Uart UartEvent).setSem isema fun _ =>
          ⟨true, 0, []⟩).sems isema = ⟨true, 0, []⟩ := by
    simp
  have hgranted : (({ w.setShared fun d =>
      { d with cout := 0, cin := 0, ovrrn := 0, iirq := 0, oirq := 0 } with
        nextsem := next } : World Uart UartEvent).setSem isema fun _ =>
          ⟨true, 0, []⟩).granted isema = [] :=
    htidy.granted isema hunused
  have hlog₁ : (({ w.setShared fun d =>
      { d with cout := 0, cin := 0, ovrrn := 0, iirq := 0, oirq := 0 } with
        nextsem := next } : World Uart UartEvent).setSem isema fun _ => ⟨true, 0, []⟩).log = [] :=
    hlog
  generalize (World.setSem _ isema fun _ => ⟨true, 0, []⟩) = w₁ at h htidy₁ hsem hgranted hlog₁
  obtain ⟨next', h₀', hlt', hfail | ⟨osema, ho, hounused, hdone'⟩⟩ :=
    World.semcreate_done (w := w₁.setShared fun d =>
      { d with isema := isema, iflags := uartIflagEcho ||| ttyIcrnl, istart := 0, icount := 0 })
      (htidy₁.congr rfl rfl rfl rfl) (n := uartOblen) (by decide)
  · rw [hfail, Flow.bind_done, Coop.run_bind, Coop.run_modify, Flow.bind_done, Coop.run_ite,
      if_pos (show isbadsem syserr from Or.inl (by decide))] at h
    exact (not_done_of_fail h).elim
  rw [hdone', Flow.bind_done, Coop.run_bind, Coop.run_modify, Flow.bind_done, Coop.run_ite,
    if_neg ho] at h
  obtain ⟨-, rfl⟩ := Flow.done.inj h
  have hunused' : (w₁.sems osema).used = false := hounused
  have hne : isema ≠ osema := by
    rintro rfl
    rw [hsem] at hunused'
    contradiction
  refine ⟨?_, ⟨(update_of_ne hne _ _).trans hsem, hgranted, rfl, rfl⟩⟩
  constructor
  · exact ((htidy₁.congr rfl rfl rfl rfl : (w₁.setShared _).Tidy).created ho h₀' hlt'
      uartOblen).congr rfl rfl rfl rfl
  · rfl
  · show (update w₁.sems osema _ isema).used = true
    rw [update_of_ne hne, hsem]
  · exact hne
  · exact update_self _ _ _
  · exact htidy₁.granted osema hunused'
  · rfl
  · rfl
  · rfl
  · rfl
  · exact hlog₁

end Xinu
