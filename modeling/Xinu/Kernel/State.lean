import Xinu.Memory.Allocator
import Mathlib.Data.Int.Init

/-!
# Kernel state

The constants, tables and global variables of `include/kernel.h`,
`include/conf.h`, `include/process.h`, `include/queue.h`,
`include/semaphore.h`, `include/resched.h` and `include/clock.h`.  Tables are
functions of an index; the index is an integer, as process and queue
identifiers are signed in the source and `-1` is a value of both.
-/

namespace Xinu

open Foundations Function

/-! ## Constants -/

/-- Universal return constants. -/
def ok : Int := 1
def syserr : Int := -1
def timeout : Int := -3

/-- Sizes of the process, semaphore, future and queue tables. -/
def nproc : Int := 100
def nsem : Int := 100
def nfut : Int := 20
def nqent : Int := nproc + 4 + nsem + nsem + nfut + nfut

/-- Null value for a `qnext` or `qprev` index. -/
def empty : Int := -1

def maxkey : Int := 0x7FFFFFFF
def minkey : Int := -0x80000000

def nullproc : Int := 0
def minstk : Nat := 400
def nullstk : Nat := 8192
def quantum : Nat := 2
def ndevs : Int := 13

/-- Reduction to a signed 32-bit integer. -/
def i32 (x : Int) : Int :=
  x.bmod (0x100000000)

/-! ## Tables -/

/-- Process states. -/
inductive PrState where
  | prFree
  | prCurr
  | prReady
  | prRecv
  | prSleep
  | prSusp
  | prWait
  | prRectim
deriving DecidableEq, Repr

/-- What `prstkptr` leads to: the frame laid out by `create`, or the context
that `ctxsw` saved when the process lost the processor. -/
inductive Context where
  | initial
  | saved
deriving DecidableEq, Repr

/-- Entry in the process table. -/
structure Procent where
  prstate : PrState
  prprio : Int16
  prstkptr : Context
  prstkbase : Nat
  prstklen : Nat
  prsem : Int
  prparent : Int
  prmsg : Int
  prhasmsg : Bool
  prdesc : Int → Int

/-- Entry in the queue table. -/
structure Qentry where
  qkey : Int
  qnext : Int
  qprev : Int

/-- Table of process queues. -/
abbrev QueueTab := Int → Qentry

/-- Semaphore states. -/
inductive SState where
  | sFree
  | sUsed
deriving DecidableEq, Repr

/-- Entry in the semaphore table. -/
structure Sentry where
  sstate : SState
  scount : Int
  squeue : Int

/-- Items related to deferred rescheduling. -/
structure Defer where
  ndefers : Int
  attempt : Bool

/-- The two boards the kernel is built for. -/
inductive Platform where
  | armQemu
  | armBbb
deriving DecidableEq, Repr

/-- The global variables of the kernel, and the static ones of its functions. -/
structure Kernel where
  platform : Platform
  proctab : Int → Procent
  queuetab : QueueTab
  semtab : Int → Sentry
  heap : Memory.Heap
  readylist : Int
  sleepq : Int
  prcount : Int
  currpid : Int
  defer : Defer
  preempt : Nat
  clktime : Nat
  /-- `clkticks` on one board, `count1000` on the other. -/
  clkticks : Nat
  /-- `nextqid` of `newqueue` -/
  nextqid : Int
  /-- `nextpid` of `newpid` -/
  nextpid : Int
  /-- `nextsem` of `newsem` -/
  nextsem : Int

abbrev KernelM := Coop Kernel

/-- A heap call made by the kernel. -/
def onHeap {α : Type} (x : Memory.HeapM α) : KernelM α :=
  Coop.zoom Kernel.heap (fun s m => { s with heap := m }) x

/-! ## Inline predicates -/

/-- Indices of the process table. -/
def IsPid (p : Int) : Prop :=
  0 ≤ p ∧ p < nproc

instance (p : Int) : Decidable (IsPid p) :=
  inferInstanceAs (Decidable (_ ∧ _))

def isbadpid (s : Kernel) (x : Int) : Prop :=
  x < 0 ∨ x ≥ nproc ∨ (s.proctab x).prstate = .prFree

instance (s : Kernel) (x : Int) : Decidable (isbadpid s x) :=
  inferInstanceAs (Decidable (_ ∨ _ ∨ _))

def isbadsem (x : Int) : Prop :=
  x < 0 ∨ x ≥ nsem

instance (x : Int) : Decidable (isbadsem x) :=
  inferInstanceAs (Decidable (_ ∨ _))

def isbadqid (x : Int) : Prop :=
  x < 0 ∨ x ≥ nqent - 1

instance (x : Int) : Decidable (isbadqid x) :=
  inferInstanceAs (Decidable (_ ∨ _))

def isbaddev (x : Int) : Prop :=
  x < 0 ∨ x ≥ ndevs

instance (x : Int) : Decidable (isbaddev x) :=
  inferInstanceAs (Decidable (_ ∨ _))

/-! ## Updates of one table entry -/

namespace Kernel

/-- Change the table entry of process `p`. -/
def setProc (s : Kernel) (p : Int) (f : Procent → Procent) : Kernel :=
  { s with proctab := update s.proctab p (f (s.proctab p)) }

/-- Change the table entry of semaphore `sem`. -/
def setSem (s : Kernel) (sem : Int) (f : Sentry → Sentry) : Kernel :=
  { s with semtab := update s.semtab sem (f (s.semtab sem)) }

/-- `proctab[p].prstate = st` -/
def setState (s : Kernel) (p : Int) (st : PrState) : Kernel :=
  s.setProc p fun e => { e with prstate := st }

/-- `semtab[sem].scount = n` -/
def setCount (s : Kernel) (sem n : Int) : Kernel :=
  s.setSem sem fun e => { e with scount := n }

def state (s : Kernel) (p : Int) : PrState :=
  (s.proctab p).prstate

def prio (s : Kernel) (p : Int) : Int :=
  (s.proctab p).prprio.toInt

def count (s : Kernel) (sem : Int) : Int :=
  (s.semtab sem).scount

def squeue (s : Kernel) (sem : Int) : Int :=
  (s.semtab sem).squeue

end Kernel

end Xinu
