import Xinu.Kernel.Queue

/-!
# Rescheduling

Embedding of `system/resched.c` and `system/ready.c`.  `ctxsw` is the only
place where a procedure of the kernel gives the processor away.
-/

namespace Xinu

open Foundations Function

/-- Save the context of the process `old` and continue another one; the call
returns when `old` is given the processor again. -/
def ctxsw (old : Int) : KernelM Unit := do
  modify (·.setProc old fun e => { e with prstkptr := .saved })
  Coop.giveAway

/-- Reschedule processor to highest priority eligible process. -/
def resched : KernelM Unit := do
  let s ← get
  -- if rescheduling is deferred, record attempt and return
  if s.defer.ndefers > 0 then
    modify fun s => { s with defer := { s.defer with attempt := true } }
    return
  let ptold := s.currpid
  if s.state ptold = .prCurr then
    if s.prio ptold > firstkey s.queuetab s.readylist then
      return
    -- old process will no longer remain current
    modify (·.setState ptold .prReady)
    let _ ← insert ptold s.readylist (s.prio ptold)
  -- force context switch to highest priority ready process
  let ptnew ← dequeue s.readylist
  modify fun s => { s with currpid := ptnew }
  modify (·.setState ptnew .prCurr)
  modify fun s => { s with preempt := quantum }
  ctxsw ptold

def deferStart : Int := 1
def deferStop : Int := 2

/-- Control whether rescheduling is deferred or allowed. -/
def reschedCntl (defer : Int) : KernelM Int := do
  if defer = deferStart then
    let s ← get
    modify fun s => { s with defer := { s.defer with ndefers := i32 (s.defer.ndefers + 1) } }
    if s.defer.ndefers = 0 then
      modify fun s => { s with defer := { s.defer with attempt := false } }
    return ok
  else if defer = deferStop then
    let s ← get
    if s.defer.ndefers ≤ 0 then
      return syserr
    modify fun s => { s with defer := { s.defer with ndefers := s.defer.ndefers - 1 } }
    let s ← get
    if s.defer.ndefers = 0 ∧ s.defer.attempt = true then
      resched
    return ok
  else
    return syserr

/-- Make a process eligible for CPU service. -/
def ready (pid : Int) : KernelM Int := do
  let s ← get
  if isbadpid s pid then
    return syserr
  -- set process state to indicate ready and add to ready list
  modify (·.setState pid .prReady)
  let _ ← insert pid s.readylist (s.prio pid)
  resched
  return ok

end Xinu
