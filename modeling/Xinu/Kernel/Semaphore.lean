import Xinu.Kernel.Scheduler

/-!
# Semaphores

Embedding of `system/semcreate.c`, `system/semdelete.c`, `system/semreset.c`,
`system/wait.c`, `system/signal.c` and `system/signaln.c`.
-/

namespace Xinu

open Foundations Function

/-- `newsem`, with `i` entries left to try. -/
def newsemLoop : Nat → KernelM Int
  | 0 => return syserr
  | i + 1 => do
      let sem := (← get).nextsem
      modify fun s => { s with nextsem := s.nextsem + 1 }
      if (← get).nextsem ≥ nsem then
        modify fun s => { s with nextsem := 0 }
      if ((← get).semtab sem).sstate = .sFree then
        modify (·.setSem sem fun e => { e with sstate := .sUsed })
        return sem
      else
        newsemLoop i

/-- Allocate an unused semaphore and return its index. -/
def newsem : KernelM Int :=
  newsemLoop nsem.toNat

/-- Create a new semaphore and return the ID to the caller. -/
def semcreate (count : Int) : KernelM Int := do
  if count < 0 then
    return syserr
  let sem ← newsem
  if sem = syserr then
    return syserr
  modify (·.setCount sem count)
  return sem

/-- Cause current process to wait on a semaphore. -/
def wait (sem : Int) : KernelM Int := do
  if isbadsem sem then
    return syserr
  let s ← get
  if (s.semtab sem).sstate = .sFree then
    return syserr
  modify fun s => s.setCount sem (i32 (s.count sem - 1))
  -- if caller must block
  if (← get).count sem < 0 then
    modify fun s => s.setProc s.currpid fun e => { e with prstate := .prWait, prsem := sem }
    let s ← get
    let _ ← enqueue s.currpid (s.squeue sem)
    resched
  return ok

/-- Signal a semaphore, releasing a process if one is waiting. -/
def signal (sem : Int) : KernelM Int := do
  if isbadsem sem then
    return syserr
  let s ← get
  if (s.semtab sem).sstate = .sFree then
    return syserr
  modify fun s => s.setCount sem (i32 (s.count sem + 1))
  if s.count sem < 0 then
    let pid ← dequeue (s.squeue sem)
    let _ ← ready pid
  return ok

/-- The loop of `signaln`, with `n` signals left. -/
def signalnLoop (sem : Int) : Nat → KernelM Unit
  | 0 => return
  | n + 1 => do
      let s ← get
      modify fun s => s.setCount sem (i32 (s.count sem + 1))
      if s.count sem < 0 then
        let pid ← dequeue (s.squeue sem)
        let _ ← ready pid
      signalnLoop sem n

/-- Signal a semaphore `count` times, releasing that many waiting processes. -/
def signaln (sem count : Int) : KernelM Int := do
  if isbadsem sem ∨ count < 0 then
    return syserr
  if ((← get).semtab sem).sstate = .sFree then
    return syserr
  let _ ← reschedCntl deferStart
  signalnLoop sem count.toNat
  let _ ← reschedCntl deferStop
  return ok

/-- More turns than the loop of `semdelete` makes. -/
def countFuel : Nat := 0x100000000

/-- The loop of `semdelete`: free all waiting processes. -/
def semdeleteLoop (sem : Int) : Nat → KernelM Unit
  | 0 => Coop.diverge
  | fuel + 1 => do
      let s ← get
      modify fun s => s.setCount sem (i32 (s.count sem + 1))
      if s.count sem < 0 then
        let pid ← getfirst (s.squeue sem)
        let _ ← ready pid
        semdeleteLoop sem fuel

/-- Delete a semaphore by releasing its table entry. -/
def semdelete (sem : Int) : KernelM Int := do
  if isbadsem sem then
    return syserr
  if ((← get).semtab sem).sstate = .sFree then
    return syserr
  modify (·.setSem sem fun e => { e with sstate := .sFree })
  let _ ← reschedCntl deferStart
  semdeleteLoop sem countFuel
  let _ ← reschedCntl deferStop
  return ok

/-- The loop of `semreset`: free all waiting processes. -/
def semresetLoop (semqueue : Int) : Nat → KernelM Unit
  | 0 => Coop.diverge
  | fuel + 1 => do
      let pid ← getfirst semqueue
      if pid ≠ empty then
        let _ ← ready pid
        semresetLoop semqueue fuel

/-- Reset a semaphore's count and release waiting processes. -/
def semreset (sem count : Int) : KernelM Int := do
  let s ← get
  if count < 0 ∨ isbadsem sem ∨ (s.semtab sem).sstate = .sFree then
    return syserr
  let semqueue := s.squeue sem
  let _ ← reschedCntl deferStart
  semresetLoop semqueue queueFuel
  modify (·.setCount sem count)
  let _ ← reschedCntl deferStop
  return ok

end Xinu
