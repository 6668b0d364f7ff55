import Xinu.Kernel.Interleaving
import Xinu.Kernel.Interrupts

/-!
# Futures

Embedding of `include/future.h`, `system/future.c`, `system/future_wait.c`,
`system/future_signal.c` and `system/future_alloc.c`.  The future calls work on
the process table, on the queues and on the interrupt mask by hand, so their state
is that of the processor with the futures added to it.
-/

namespace Xinu

open Foundations Function

inductive FutureState where
  | futureEmpty
  | futureWaiting
  | futureReady
deriving DecidableEq, Repr

inductive FutureMode where
  | futureExclusive
  | futureShared
  | futureQueue
deriving DecidableEq, Repr

structure Future where
  value : Int
  state : FutureState
  mode : FutureMode
  pid : Int
  setQueue : Int
  getQueue : Int
deriving DecidableEq, Repr

/-- The processor and the futures that the processes use. -/
structure Futures where
  cpu : Cpu
  /-- The `future_t` at each address that holds one. -/
  future : Nat → Option Future
  /-- The variable that each process has passed to `future_get`. -/
  out : Int → Int

instance : HasCpu Futures where
  cpu := Futures.cpu
  setCpu t s := { t with cpu := s }
  cpu_setCpu _ _ := rfl

abbrev FutureM := Coop Futures

/-- `*f`; the machine stops where `f` does not lead to a future. -/
def theFuture (f : Nat) : FutureM Future := do
  match (← get).future f with
  | some e => return e
  | none => Coop.halt

/-- Change the fields of `*f`. -/
def setFuture (f : Nat) (g : Future → Future) : FutureM Unit :=
  modify fun t => { t with future := update t.future f ((t.future f).map g) }

/-- `*value = v` -/
def setOut (v : Int) : FutureM Unit :=
  modify fun t => { t with out := update t.out (kernelOf t).currpid v }

/-- `proctab[currpid].prstate = PR_WAIT` -/
def waitState : FutureM Unit :=
  onKernel (modify fun s => s.setState s.currpid .prWait)

/-- `enqueue(currpid, q)` -/
def enqueueMe (q : Int) : FutureM Int :=
  onKernel do enqueue (← get).currpid q

/-- `ready(dequeue(q))` -/
def readyFirst (q : Int) : FutureM Int :=
  onKernel do
    let pid ← dequeue q
    ready pid

/-! ## future_wait.c and future_signal.c -/

/-- Make the current process wait for the future. -/
def futureWait (f : Nat) : FutureM Int := do
  let mask ← disable
  let e ← theFuture f
  if e.state = .futureEmpty ∨ e.state = .futureWaiting then
    match e.mode with
    | .futureExclusive =>
        waitState
        if e.pid = -1 then
          let me := (kernelOf (← get)).currpid
          setFuture f fun e => { e with pid := me }
        onKernel resched
    | .futureShared =>
        waitState
        onKernel resched
    | .futureQueue =>
        waitState
        onKernel resched
  restore mask
  return ok

/-- The loop of `future_signal`. -/
def futureSignalLoop (q : Int) : Nat → FutureM Unit
  | 0 => Coop.diverge
  | fuel + 1 => do
      if nonempty (kernelOf (← get)).queuetab q then
        let _ ← readyFirst q
        futureSignalLoop q fuel

/-- Make ready those that wait for the future. -/
def futureSignal (f : Nat) : FutureM Int := do
  let mask ← disable
  let e ← theFuture f
  if e.state = .futureReady then
    match e.mode with
    | .futureExclusive =>
        let _ ← onKernel (ready e.pid)
    | .futureShared =>
        futureSignalLoop e.getQueue queueFuel
    | .futureQueue =>
        let _ ← readyFirst e.getQueue
  else if e.state = .futureEmpty then
    match e.mode with
    | .futureExclusive => pure ()
    | .futureShared => pure ()
    | .futureQueue =>
        let _ ← readyFirst e.setQueue
  restore mask
  return ok

/-! ## future.c -/

/-- The loop of `future_set`: empty the queue of the getters. -/
def futureSetLoop (q : Int) : Nat → KernelM Unit
  | 0 => Coop.diverge
  | fuel + 1 => do
      let s ← get
      if nonempty s.queuetab q then
        let pid ← getfirst q
        let _ ← ready pid
        futureSetLoop q fuel

/-- Set the value of a future. -/
def futureSet (f : Nat) (value : Int) : FutureM Int := do
  let mask ← disable
  let e ← theFuture f
  if e.state = .futureWaiting ∨ e.state = .futureEmpty then
    match e.mode with
    | .futureExclusive =>
        setFuture f fun e => { e with value := value }
        setFuture f fun e => { e with state := .futureReady }
        let _ ← futureSignal f
        return ok
    | .futureShared =>
        setFuture f fun e => { e with value := value }
        setFuture f fun e => { e with state := .futureReady }
        let _ ← onKernel (reschedCntl deferStart)
        onKernel (futureSetLoop e.getQueue queueFuel)
        let _ ← onKernel (reschedCntl deferStop)
        restore mask
        return ok
    | .futureQueue =>
        if isempty (kernelOf (← get)).queuetab e.getQueue then
          let _ ← enqueueMe e.setQueue
          let _ ← futureWait f
        setFuture f fun e => { e with value := value }
        setFuture f fun e => { e with state := .futureReady }
        let _ ← futureSignal f
        return ok
  else
    match e.mode with
    | .futureExclusive =>
        setFuture f fun e => { e with state := .futureEmpty }
        restore mask
        return ok
    | .futureShared => return syserr
    | .futureQueue => return syserr

/-- The part of `future_get` that waits for a shared future. -/
def futureGetShared (f : Nat) (e : Future) (mask : Bool) : FutureM Int := do
  waitState
  let _ ← enqueueMe e.getQueue
  onKernel resched
  setOut (← theFuture f).value
  restore mask
  return ok

/-- Get the value of a future.  In queue mode the procedure calls itself; `depth` is
the number of calls that the stack of the process has room for. -/
def futureGet (f : Nat) : Nat → FutureM Int
  | 0 => Coop.halt
  | depth + 1 => do
      let mask ← disable
      let e ← theFuture f
      match e.state with
      | .futureEmpty =>
          match e.mode with
          | .futureExclusive =>
              setFuture f fun e => { e with state := .futureWaiting }
              let _ ← futureWait f
              setOut (← theFuture f).value
              setFuture f fun e => { e with state := .futureEmpty }
              return ok
          | .futureShared =>
              setFuture f fun e => { e with state := .futureWaiting }
              futureGetShared f e mask
          | .futureQueue =>
              if isempty (kernelOf (← get)).queuetab e.setQueue then
                let _ ← enqueueMe e.getQueue
                let _ ← futureWait f
                let _ ← futureGet f depth
                return ok
              else
                let _ ← enqueueMe e.getQueue
                let _ ← futureSignal f
                let _ ← futureWait f
                let _ ← futureGet f depth
                return ok
      | .futureReady =>
          setOut e.value
          setFuture f fun e => { e with state := .futureEmpty }
          return ok
      | .futureWaiting =>
          match e.mode with
          | .futureExclusive => return syserr
          | .futureShared => futureGetShared f e mask
          | .futureQueue => return ok

/-! ## future_alloc.c -/

/-- The size of a `future_t`, whose enumerations take one byte each. -/
def sizeofFuture : Nat := 16

/-- Allocate a future.  Without memory the source writes through `SYSERR`. -/
def futureAlloc (mode : FutureMode) : FutureM Int := do
  match ← onKernel (onHeap (Memory.getmem sizeofFuture)) with
  | none => Coop.halt
  | some f =>
      modify fun t => { t with future := update t.future f (some ⟨0, .futureEmpty, mode, -1, -1, -1⟩) }
      if mode = .futureShared ∨ mode = .futureQueue then
        let q ← onKernel newqueue
        setFuture f fun e => { e with getQueue := q }
      if mode = .futureQueue then
        let q ← onKernel newqueue
        setFuture f fun e => { e with setQueue := q }
      return f

/-! ## The machine -/

/-- The calls of the kernel and those of the futures. -/
inductive FCall where
  | kernel (c : KCall)
  | futureAlloc (mode : FutureMode)
  | futureSet (f : Nat) (value : Int32)
  | futureGet (f : Nat) (depth : Nat)
deriving DecidableEq

def FCall.exec : FCall → FutureM Int
  | kernel c => onKernel c.exec
  | futureAlloc mode => Xinu.futureAlloc mode
  | futureSet f value => Xinu.futureSet f value.toInt
  | futureGet f depth => Xinu.futureGet f depth

/-- The processor, as the kernel and the futures share it. -/
def futureMachine : Machine Futures FCall where
  current := fun t => (kernelOf t).currpid
  fresh := fun t p => decide (Fresh (kernelOf t) p)
  exec := FCall.exec

/-- The state after startup: no future has been allocated. -/
def bootFutures (b : Board) : Futures :=
  ⟨⟨boot b, fun _ => true⟩, fun _ => none, fun _ => 0⟩

end Xinu
