import Xinu.Kernel.WorldBystanders

/-!
# The terminal device

The terminal has an input buffer, an output buffer and an echo buffer.  The semaphore of
the input buffer counts the characters that may be read, and the one of the output buffer
the places that are free.

Main results:

- Theorem `ttyinit_start`: what initialization leaves.
-/

namespace Xinu

open Foundations Function

def tyEbuflen : Int := 20

def tyIbuflen : Int := 128

def tyObuflen : Int := 64

/-- Characters in the output FIFO of the UART. -/
def uartFifoSize : Int := 64

/-- Input modes. -/
inductive InputMode
  | raw
  | cooked
  | cbreak
deriving DecidableEq, Repr

def tyBacksp : UInt8 := 0x08

def tyBell : UInt8 := 0x07

def tyEofch : UInt8 := 0x04

def tyBlank : UInt8 := 0x20

def tyNewline : UInt8 := 0x0A

def tyReturn : UInt8 := 0x0D

def tyStopch : UInt8 := 0x13

def tyStrtch : UInt8 := 0x11

def tyKillch : UInt8 := 0x15

def tyUparrow : UInt8 := 0x5E

def tyDel : UInt8 := 0x7F

def tcNextc : Int := 3

def tcModer : Int := 4

def tcModec : Int := 5

def tcModek : Int := 6

def tcIchars : Int := 8

def tcEcho : Int := 9

def tcNoecho : Int := 10

/-- End of file, as `ttygetc` returns it. -/
def ttyEof : Int := -2

/-- The control block of a terminal line, with indices for the pointers into the buffers,
and the enable bit of the transmit interrupt. -/
structure Ttycblk where
  tyihead : Int
  tyitail : Int
  tyibuff : Int → UInt8
  tyisem : Int
  tyohead : Int
  tyotail : Int
  tyobuff : Int → UInt8
  tyosem : Int
  tyehead : Int
  tyetail : Int
  tyebuff : Int → UInt8
  tyimode : InputMode
  tyiecho : Bool
  tyieback : Bool
  tyevis : Bool
  tyecrlf : Bool
  tyicrlf : Bool
  tyierase : Bool
  tyierasec : UInt8
  tyeof : Bool
  tyeofch : UInt8
  tyikill : Bool
  tyikillc : UInt8
  tyicursor : Int
  tyoflow : Bool
  tyoheld : Bool
  tyostop : UInt8
  tyostart : UInt8
  tyocrlf : Bool
  tyifullc : UInt8
  etbei : Bool

/-- What `ttyhandle_in` does with a character that concerns the input buffer. -/
inductive InputPath
  | raw
  | cbreak
  | kill
  | erase
  | eol
  | eof
  | text
deriving DecidableEq, Repr

/-- What is recorded of the calls, each where it happens. -/
inductive TtyEvent
  /-- A character has been stored in the output buffer. -/
  | put (ch : UInt8)
  /-- A character of the output buffer is handed to the device. -/
  | sent (ch : UInt8)
  /-- The handler begins to empty the output buffer, with this space left in the device,
  this count of the semaphore, and this many units that nobody has used. -/
  | flush (uspace count units : Int)
  /-- A character takes this path, with this tail and cursor, and this many units that
  nobody has used. -/
  | input (path : InputPath) (tail cursor units : Int)
  /-- A reader takes a character. -/
  | taken (ch : UInt8)
deriving DecidableEq, Repr

abbrev TtyM := WorldM Ttycblk TtyEvent

/-! ## Initialization -/

/-- Initialize the terminal. -/
def ttyinit : TtyM Int := do
  let isem ← World.semcreate 0
  let osem ← World.semcreate tyObuflen
  modify (·.setShared fun d =>
    { d with
      tyihead := 0, tyitail := 0, tyisem := isem
      tyohead := 0, tyotail := 0, tyosem := osem
      tyehead := 0, tyetail := 0
      tyimode := .cooked, tyiecho := true, tyieback := true, tyevis := true
      tyecrlf := true, tyicrlf := true, tyierase := true, tyierasec := tyBacksp
      tyeof := true, tyeofch := tyEofch, tyikill := true, tyikillc := tyKillch
      tyicursor := 0, tyoflow := true, tyoheld := false
      tyostop := tyStopch, tyostart := tyStrtch, tyocrlf := true, tyifullc := tyBell
      etbei := true })
  return ok

/-! ## Echo -/

/-- The pointer after `i` in a buffer of length `n`. -/
def wrapped (n i : Int) : Int :=
  if i + 1 ≥ n then 0 else i + 1

namespace Ttycblk

/-- Force the hardware to generate an output interrupt. -/
def ttykickout (d : Ttycblk) : Ttycblk :=
  { d with etbei := true }

/-- Put one character in the echo queue. -/
def eputc (ch : UInt8) (d : Ttycblk) : Ttycblk :=
  { d with
    tyebuff := update d.tyebuff d.tyetail ch
    tyetail := wrapped tyEbuflen d.tyetail }.ttykickout

/-- Echo a character with visual and newline options. -/
def echoch (ch : UInt8) (d : Ttycblk) : Ttycblk :=
  if (ch = tyNewline ∨ ch = tyReturn) ∧ d.tyecrlf = true then
    (d.eputc tyReturn).eputc tyNewline
  else if (ch < tyBlank ∨ ch = tyDel) ∧ d.tyevis = true then
    (d.eputc tyUparrow).eputc (ch + 0x40)
  else
    d.eputc ch

/-- Step back over one character on the screen. -/
def backspace (d : Ttycblk) : Ttycblk :=
  if d.tyieback = true then
    ((d.eputc tyBacksp).eputc tyBlank).eputc tyBacksp
  else
    d.eputc tyBacksp

/-- Erase `ch` on the screen. -/
def echoErase (ch : UInt8) (d : Ttycblk) : Ttycblk :=
  if d.tyiecho = true then
    if ch < tyBlank ∨ ch = tyDel then
      if d.tyevis = true then d.backspace.backspace else d.backspace
    else
      d.backspace
  else
    d

/-- Move the tail of the input buffer back, and wrap. -/
def retreat (d : Ttycblk) : Ttycblk :=
  { d with tyitail := if d.tyitail - 1 < 0 then d.tyitail - 1 + tyIbuflen else d.tyitail - 1 }

/-- Erase one character honoring erasing backspace. -/
def erase1 (d : Ttycblk) : Ttycblk :=
  d.retreat.echoErase (d.retreat.tyibuff d.retreat.tyitail)

/-- Echo the character if characters are echoed. -/
def echoIf (ch : UInt8) (d : Ttycblk) : Ttycblk :=
  if d.tyiecho = true then d.echoch ch else d

section View

variable {ρ : Type} {view : Ttycblk → ρ} {d : Ttycblk} {ch : UInt8}

/-! Echoing changes nothing that one character in the echo queue does not change. -/

theorem echoch_view (hview : ∀ c d, view (eputc c d) = view d) :
    view (d.echoch ch) = view d := by
  unfold echoch
  split
  · exact (hview _ _).trans (hview _ _)
  · split
    · exact (hview _ _).trans (hview _ _)
    · exact hview _ _

theorem echoIf_view (hview : ∀ c d, view (eputc c d) = view d) :
    view (d.echoIf ch) = view d := by
  unfold echoIf
  split
  · exact echoch_view hview
  · rfl

theorem backspace_view (hview : ∀ c d, view (eputc c d) = view d) :
    view d.backspace = view d := by
  unfold backspace
  split
  · exact (hview _ _).trans ((hview _ _).trans (hview _ _))
  · exact hview _ _

theorem echoErase_view (hview : ∀ c d, view (eputc c d) = view d) :
    view (d.echoErase ch) = view d := by
  unfold echoErase
  split
  · split
    · split
      · exact (backspace_view hview).trans (backspace_view hview)
      · exact backspace_view hview
    · exact backspace_view hview
  · rfl

end View

/-- Store a character at the tail of the input buffer, which is not wrapped. -/
def storeRaw (ch : UInt8) (d : Ttycblk) : Ttycblk :=
  { d with tyibuff := update d.tyibuff d.tyitail ch, tyitail := d.tyitail + 1 }

/-- Store a character at the tail of the input buffer, and wrap. -/
def store (ch : UInt8) (d : Ttycblk) : Ttycblk :=
  { d with
    tyibuff := update d.tyibuff d.tyitail ch
    tyitail := wrapped tyIbuflen d.tyitail }

/-- Remove the characters of the current line. -/
def killLine (d : Ttycblk) : Ttycblk :=
  let tail := d.tyitail - d.tyicursor
  { d with
    tyitail := tail
    tyihead := if tail < 0 then d.tyihead + tyIbuflen else d.tyihead
    tyicursor := 0 }

end Ttycblk

/-! ## The lower half -/

/-- Record the path that a character takes. -/
def tracePath (path : InputPath) : TtyM Unit :=
  modify fun w => w.note
    (.input path w.shared.tyitail w.shared.tyicursor (w.units w.shared.tyisem))

/-- The common part of cooked and cbreak mode is over; handle a character in cooked mode. -/
def ttyhandleCooked (ch : UInt8) : TtyM Unit := do
  let d := (← get).shared
  if ch = d.tyikillc ∧ d.tyikill = true then
    tracePath .kill
    modify (·.setShared fun d => (d.killLine.eputc tyReturn).eputc tyNewline)
  else if ch = d.tyierasec ∧ d.tyierase = true then
    if d.tyicursor > 0 then
      tracePath .erase
      modify (·.setShared fun d => { d with tyicursor := d.tyicursor - 1 }.erase1)
  else if ch = tyNewline ∨ ch = tyReturn then
    tracePath .eol
    modify (·.setShared fun d => (d.echoIf ch).store ch)
    let _ ← World.signaln d.tyisem (d.tyicursor + 1)
    modify (·.setShared fun d => { d with tyicursor := 0 })
  else
    let avail := max ((← get).semcount d.tyisem) 0
    if avail + d.tyicursor ≥ tyIbuflen - 1 then
      modify (·.setShared fun d => d.eputc d.tyifullc)
    else if ch = d.tyeofch ∧ d.tyeof = true then
      if d.tyicursor ≠ 0 then
        modify (·.setShared fun d => d.echoIf ch)
      else
        tracePath .eof
        modify (·.setShared fun d => (d.echoIf ch).storeRaw ch)
        let _ ← World.signal d.tyisem
    else
      tracePath .text
      modify (·.setShared fun d =>
        { d.echoIf ch with tyicursor := d.tyicursor + 1 }.store ch)

/-- Handle one arriving character. -/
def ttyhandleIn (ch : UInt8) : TtyM Unit := do
  let w ← get
  let d := w.shared
  let avail := max (w.semcount d.tyisem) 0
  if d.tyimode = .raw then
    if avail ≥ tyIbuflen then
      return ()
    tracePath .raw
    modify (·.setShared fun d => d.storeRaw ch)
    modify (·.setShared fun d =>
      { d with tyotail := if d.tyotail ≥ tyObuflen then 0 else d.tyotail })
    let _ ← World.signal d.tyisem
  else
    let ch := if ch = tyReturn ∧ d.tyicrlf = true then tyNewline else ch
    if d.tyoflow = true ∧ ch = d.tyostart then
      modify (·.setShared fun d => { d with tyoheld := false }.ttykickout)
    else if d.tyoflow = true ∧ ch = d.tyostop then
      modify (·.setShared fun d => { d with tyoheld := true })
    else
      modify (·.setShared fun d => { d with tyoheld := false })
      if d.tyimode = .cbreak then
        if avail ≥ tyIbuflen then
          modify (·.setShared fun d => d.eputc d.tyifullc)
        else
          tracePath .cbreak
          modify (·.setShared fun d => (d.store ch).echoIf ch)
      else
        ttyhandleCooked ch

/-- Handle the arriving characters, one by one. -/
def ttyhandleAll : List UInt8 → TtyM Unit
  | [] => return ()
  | ch :: chars => do
      ttyhandleIn ch
      ttyhandleAll chars

/-- Send characters of the echo queue while there is space: the control block and the
space that is left.  `n` bounds the number of characters. -/
def Ttycblk.sendEcho : Nat → Int → Ttycblk → Ttycblk × Int
  | 0, uspace, d => (d, uspace)
  | n + 1, uspace, d =>
      if uspace > 0 ∧ d.tyehead ≠ d.tyetail then
        Ttycblk.sendEcho n (uspace - 1) { d with tyehead := wrapped tyEbuflen d.tyehead }
      else
        (d, uspace)

/-- Hand `n` characters of the output buffer to the device. -/
def sendChars : Nat → TtyM Unit
  | 0 => return ()
  | n + 1 => do
      modify fun w => (w.note (.sent (w.shared.tyobuff w.shared.tyohead))).setShared fun d =>
        { d with tyohead := wrapped tyObuflen d.tyohead }
      sendChars n

/-- The echo queue is empty and no place of the output buffer is in use. -/
def outputEmpty (w : World Ttycblk TtyEvent) : Prop :=
  w.shared.tyehead = w.shared.tyetail ∧ w.semcount w.shared.tyosem ≥ tyObuflen

instance (w : World Ttycblk TtyEvent) : Decidable (outputEmpty w) :=
  inferInstanceAs (Decidable (_ ∧ _))

/-- Turn off the output interrupt if there is nothing to send. -/
def turnOff : TtyM Unit := do
  if outputEmpty (← get) then
    modify (·.setShared fun d => { d with etbei := false })

/-- Handle an output interrupt, with `level` characters in the FIFO of the device. -/
def ttyhandleOut (level : Nat) : TtyM Unit := do
  if (← get).shared.tyoheld = true then
    return ()
  if outputEmpty (← get) then
    modify (·.setShared fun d => { d with etbei := false })
    return ()
  let uspace := uartFifoSize - level
  let r := (← get).shared.sendEcho uspace.toNat uspace
  modify (·.setShared fun _ => r.1)
  let w ← get
  let osem := w.shared.tyosem
  let count := w.semcount osem
  modify (·.note (.flush r.2 count (w.units osem)))
  let ochars := max (min r.2 (tyObuflen - count)) 0
  sendChars ochars.toNat
  if ochars > 0 then
    let _ ← World.signaln osem ochars
  turnOff

/-- Causes of an interrupt. -/
inductive TtyCause
  /-- Receiver line status. -/
  | rlsi
  /-- Characters are available. -/
  | rda (chars : List UInt8)
  /-- The transmitter is ready for more, with this many characters in its FIFO. -/
  | thre (level : Nat)
  /-- Modem status change. -/
  | msc
deriving DecidableEq, Repr

/-- Handle an interrupt of the device; the transmitter raises one only while its interrupt
is enabled. -/
def ttyhandler : TtyCause → TtyM Int
  | .rlsi => return ok
  | .rda chars => do
      let _ ← World.reschedCntl deferStart
      ttyhandleAll chars
      World.reschedCntl deferStop
  | .thre level => do
      if (← get).shared.etbei = true then
        ttyhandleOut level
      return ok
  | .msc => return ok

/-! ## The upper half -/

/-- Wait for a place in the output buffer, and store a character. -/
def ttyputOne (me : Int) (ch : UInt8) : TtyM Unit := do
  let _ ← World.wait me (← get).shared.tyosem
  modify fun w => (w.setShared fun d =>
    { d with
      tyobuff := update d.tyobuff d.tyotail ch
      tyotail := wrapped tyObuflen d.tyotail }.ttykickout).note (.put ch)

/-- Write one character for process `me`. -/
def ttyputc (me : Int) (ch : UInt8) : TtyM Int := do
  if ch = tyNewline ∧ (← get).shared.tyocrlf = true then
    ttyputOne me tyReturn
  ttyputOne me ch
  return ok

/-- Write the characters of `buff`. -/
def ttywrite (me : Int) : List UInt8 → TtyM Int
  | [] => return ok
  | ch :: buff => do
      let _ ← ttyputc me ch
      ttywrite me buff

/-- Read one character for process `me`. -/
def ttygetc (me : Int) : TtyM Int := do
  let _ ← World.wait me (← get).shared.tyisem
  let d := (← get).shared
  let ch := d.tyibuff d.tyihead
  modify fun w => (w.setShared fun d =>
    { d with tyihead := wrapped tyIbuflen d.tyihead }).note (.taken ch)
  if d.tyimode = .cooked ∧ d.tyeof = true ∧ ch = d.tyeofch then
    return ttyEof
  return ch.toNat

/-- Read `count` characters. -/
def ttyreadChars (me : Int) : Nat → TtyM (List UInt8)
  | 0 => return []
  | count + 1 => do
      let ch ← ttygetc me
      let rest ← ttyreadChars me count
      return UInt8.ofInt ch :: rest

/-- Read the rest of a line after `ch`, at most `count` characters. -/
def ttyreadLine (me : Int) : Nat → UInt8 → TtyM (List UInt8)
  | 0, _ => return []
  | count + 1, ch => do
      if ch ≠ tyNewline ∧ ch ≠ tyReturn then
        let next ← ttygetc me
        let rest ← ttyreadLine me count (UInt8.ofInt next)
        return UInt8.ofInt next :: rest
      else
        return []

/-- Read characters: their number, and the characters. -/
def ttyread (me count : Int) : TtyM (Int × List UInt8) := do
  if count < 0 then
    return (syserr, [])
  let w ← get
  if w.shared.tyimode ≠ .cooked then
    let avail := w.semcount w.shared.tyisem
    if count = 0 ∧ avail = 0 then
      return (0, [])
    let buff ← ttyreadChars me (if count = 0 then avail else count).toNat
    return (buff.length, buff)
  let firstch ← ttygetc me
  if firstch = ttyEof then
    return (ttyEof, [])
  let rest ← ttyreadLine me (count - 1).toNat (UInt8.ofInt firstch)
  return (rest.length + 1, UInt8.ofInt firstch :: rest)

/-- Change the input mode. -/
def setMode (mode : InputMode) : TtyM Int := do
  modify (·.setShared fun d => { d with tyimode := mode })
  return ok

/-- Control functions of the terminal. -/
def ttycontrol (me func : Int) : TtyM Int := do
  if func = tcNextc then
    let isem := (← get).shared.tyisem
    let _ ← World.wait me isem
    let d := (← get).shared
    let ch := d.tyibuff d.tyitail
    let _ ← World.signal isem
    return ch.toNat
  else if func = tcModer then
    setMode .raw
  else if func = tcModec then
    setMode .cooked
  else if func = tcModek then
    setMode .cbreak
  else if func = tcIchars then
    let w ← get
    return w.semcount w.shared.tyisem
  else if func = tcEcho then
    modify (·.setShared fun d => { d with tyiecho := true })
    return ok
  else if func = tcNoecho then
    modify (·.setShared fun d => { d with tyiecho := false })
    return ok
  else
    return syserr

/-! ## The system -/

/-- What happens while a process runs: a call of it, or an interrupt. -/
inductive TtyCall
  | putc (ch : UInt8)
  | write (buff : List UInt8)
  | getc
  | read (count : Int)
  | control (func : Int)
  | interrupt (cause : TtyCause)
deriving DecidableEq, Repr

def TtyCall.exec (me : Int) : TtyCall → TtyM Int
  | .putc ch => ttyputc me ch
  | .write buff => ttywrite me buff
  | .getc => ttygetc me
  | .read count => do
      let r ← ttyread me count
      return r.1
  | .control func => ttycontrol me func
  | .interrupt cause => ttyhandler cause

def ttyCrew : Crew (World Ttycblk TtyEvent) TtyCall where
  exec := TtyCall.exec
  ready := World.Ready

/-- What initialization leaves. -/
structure TtyStart (w : World Ttycblk TtyEvent) : Prop where
  tidy : w.Tidy
  isem : w.sems w.shared.tyisem = ⟨true, 0, []⟩
  osem : w.sems w.shared.tyosem = ⟨true, tyObuflen, []⟩
  apart : w.shared.tyisem ≠ w.shared.tyosem
  igranted : w.granted w.shared.tyisem = []
  ogranted : w.granted w.shared.tyosem = []
  ihead : w.shared.tyihead = 0
  itail : w.shared.tyitail = 0
  icursor : w.shared.tyicursor = 0
  ohead : w.shared.tyohead = 0
  otail : w.shared.tyotail = 0
  log : w.log = []

/-- Initialization, if there were two semaphores for it. -/
theorem ttyinit_start {w s : World Ttycblk TtyEvent} (htidy : w.Tidy) (hlog : w.log = [])
    (h : ttyinit w = .done ok s) (hisem : ¬ isbadsem s.shared.tyisem)
    (hosem : ¬ isbadsem s.shared.tyosem) : TtyStart s := by
  have hbad : isbadsem syserr := Or.inl (by decide)
  unfold ttyinit at h
  rw [Coop.run_bind] at h
  obtain ⟨next, h₀, hlt, hfail | ⟨isem, hi, hunused, hdone⟩⟩ :=
    World.semcreate_done htidy (n := 0) (Int.le_refl 0)
  · have htidy₁ : ({ w with nextsem := next } : World Ttycblk TtyEvent).Tidy :=
      ⟨h₀, hlt, htidy.ndefers, htidy.good, htidy.queue, htidy.granted⟩
    rw [hfail, Flow.bind_done, Coop.run_bind] at h
    obtain ⟨next', -, -, hfail' | ⟨osem, -, -, hdone'⟩⟩ :=
      World.semcreate_done htidy₁ (n := tyObuflen) (by decide)
    · rw [hfail'] at h
      obtain ⟨-, rfl⟩ := Flow.done.inj h
      exact (hisem hbad).elim
    · rw [hdone'] at h
      obtain ⟨-, rfl⟩ := Flow.done.inj h
      exact (hisem hbad).elim
  rw [hdone, Flow.bind_done, Coop.run_bind] at h
  have htidy₁ := htidy.created hi h₀ hlt 0
  obtain ⟨next', h₀', hlt', hfail | ⟨osem, ho, hounused, hdone'⟩⟩ :=
    World.semcreate_done htidy₁ (n := tyObuflen) (by decide)
  · rw [hfail] at h
    obtain ⟨-, rfl⟩ := Flow.done.inj h
    exact (hosem hbad).elim
  rw [hdone'] at h
  obtain ⟨-, rfl⟩ := Flow.done.inj h
  have hne : isem ≠ osem := by
    rintro rfl
    simp at hounused
  have hold : (w.sems osem).used = false := by
    rw [← hounused]
    show _ = (update w.sems isem _ osem).used
    rw [update_of_ne hne.symm]
  constructor
  · exact (htidy₁.created ho h₀' hlt' tyObuflen).congr rfl rfl rfl rfl
  · show update (update w.sems isem ⟨true, 0, []⟩) osem _ isem = _
    rw [update_of_ne hne, update_self]
  · exact update_self _ _ _
  · exact hne
  · exact htidy.granted isem hunused
  · exact htidy.granted osem hold
  · rfl
  · rfl
  · rfl
  · rfl
  · rfl
  · exact hlog

/-! ## Calls that keep an invariant -/

section Sparing

variable {Γ : Type} {I : World Ttycblk TtyEvent → (Int → Option Γ) → Prop}
variable {G : World Ttycblk TtyEvent → Prop} {me : Int}

theorem ttyputc_spares (hput : ∀ ch, World.Sparing ttyCrew I G me (ttyputOne me ch))
    (ch : UInt8) : World.Sparing ttyCrew I G me (ttyputc me ch) := by
  apply World.Sparing.read
  intro w L _
  apply World.Sparing.ite
  · exact (hput tyReturn).bind fun _ => (hput ch).bind fun _ => .pure _
  · exact (hput ch).bind fun _ => .pure _

theorem ttywrite_spares (hput : ∀ ch, World.Sparing ttyCrew I G me (ttyputOne me ch))
    (buff : List UInt8) : World.Sparing ttyCrew I G me (ttywrite me buff) := by
  induction buff with
  | nil => exact .pure _
  | cons ch buff ih => exact (ttyputc_spares hput ch).bind fun _ => ih

theorem ttyreadChars_spares (hget : World.Sparing ttyCrew I G me (ttygetc me)) (count : Nat) :
    World.Sparing ttyCrew I G me (ttyreadChars me count) := by
  induction count with
  | zero => exact .pure _
  | succ count ih => exact hget.bind fun _ => ih.bind fun _ => .pure _

theorem ttyreadLine_spares (hget : World.Sparing ttyCrew I G me (ttygetc me)) (count : Nat)
    (ch : UInt8) : World.Sparing ttyCrew I G me (ttyreadLine me count ch) := by
  induction count generalizing ch with
  | zero => exact .pure _
  | succ count ih =>
      apply World.Sparing.ite
      · exact hget.bind fun _ => (ih _).bind fun _ => .pure _
      · exact .pure _

theorem ttyread_spares (hget : World.Sparing ttyCrew I G me (ttygetc me)) (count : Int) :
    World.Sparing ttyCrew I G me (ttyread me count) := by
  apply World.Sparing.ite
  · exact .pure _
  apply World.Sparing.read
  intro w L _
  apply World.Sparing.ite
  · apply World.Sparing.ite
    · exact .pure _
    · exact (ttyreadChars_spares hget _).bind fun _ => .pure _
  · apply hget.bind
    intro firstch
    apply World.Sparing.ite
    · exact .pure _
    · exact (ttyreadLine_spares hget _ _).bind fun _ => .pure _

/-- The control functions but for the one that looks at the next character. -/
theorem ttycontrol_spares (hnext : World.Sparing ttyCrew I G me (ttycontrol me tcNextc))
    (hmode : ∀ mode w L, I w L → I (w.setShared fun d => { d with tyimode := mode }) L)
    (hecho : ∀ echo w L, I w L → I (w.setShared fun d => { d with tyiecho := echo }) L)
    (func : Int) : World.Sparing ttyCrew I G me (ttycontrol me func) := by
  have hset : ∀ mode, World.Sparing ttyCrew I G me (setMode mode) := by
    intro mode
    apply World.Sparing.bind
    · exact .modify (hmode mode)
    · exact fun _ => .pure _
  by_cases hfunc : func = tcNextc
  · rw [hfunc]
    exact hnext
  unfold ttycontrol
  rw [if_neg hfunc]
  apply World.Sparing.ite
  · exact hset _
  apply World.Sparing.ite
  · exact hset _
  apply World.Sparing.ite
  · exact hset _
  apply World.Sparing.ite
  · apply World.Sparing.read
    exact fun _ _ _ => .pure _
  apply World.Sparing.ite
  · apply World.Sparing.bind
    · exact .modify (hecho true)
    · exact fun _ => .pure _
  apply World.Sparing.ite
  · apply World.Sparing.bind
    · exact .modify (hecho false)
    · exact fun _ => .pure _
  · exact .pure _

end Sparing

end Xinu
