import Xinu.Kernel.Clock

/-!
# Processes and messages

Embedding of `system/send.c`, `system/receive.c`, `system/recvtime.c`,
`system/recvclr.c`, `system/create.c`, `system/kill.c`, `system/resume.c`,
`system/suspend.c`, `system/chprio.c` and of what they need of
`system/close.c` and `system/xdone.c`.
-/

namespace Xinu

open Foundations Function

/-! ## Messages -/

/-- Pass a message to a process and start recipient if waiting. -/
def send (pid msg : Int) : KernelM Int := do
  let s ← get
  if isbadpid s pid then
    return syserr
  if (s.proctab pid).prhasmsg = true then
    return syserr
  modify (·.setProc pid fun e => { e with prmsg := msg, prhasmsg := true })
  -- if recipient waiting or in timed-wait make it ready
  if s.state pid = .prRecv then
    let _ ← ready pid
  else if s.state pid = .prRectim then
    let _ ← unsleep pid
    let _ ← ready pid
  return ok

/-- Wait for a message and return the message to the caller. -/
def receive : KernelM Int := do
  let s ← get
  let me := s.currpid
  if (s.proctab me).prhasmsg = false then
    modify (·.setState me .prRecv)
    resched
  let msg := ((← get).proctab me).prmsg
  modify (·.setProc me fun e => { e with prhasmsg := false })
  return msg

/-- Wait specified time to receive a message and return. -/
def recvtime (maxwait : Int) : KernelM Int := do
  if maxwait < 0 then
    return syserr
  let s ← get
  let me := s.currpid
  -- schedule wakeup and place process in timed-receive state
  if (s.proctab me).prhasmsg = false then
    if (← insertd me s.sleepq maxwait) = syserr then
      return syserr
    modify (·.setState me .prRectim)
    resched
  -- either message arrived or timer expired
  let s ← get
  if (s.proctab me).prhasmsg = true then
    modify (·.setProc me fun e => { e with prhasmsg := false })
    return (s.proctab me).prmsg
  else
    return timeout

/-- Clear incoming message, and return message if one waiting. -/
def recvclr : KernelM Int := do
  let s ← get
  if (s.proctab s.currpid).prhasmsg = true then
    modify (·.setProc s.currpid fun e => { e with prhasmsg := false })
    return (s.proctab s.currpid).prmsg
  else
    return ok

/-! ## Creation -/

/-- `newpid`, with `i` slots left to try. -/
def newpidLoop : Nat → KernelM Int
  | 0 => return syserr
  | i + 1 => do
      modify fun s => { s with nextpid := s.nextpid % nproc }
      let s ← get
      modify fun s => { s with nextpid := s.nextpid + 1 }
      if s.state s.nextpid = .prFree then
        return s.nextpid
      else
        newpidLoop i

/-- Obtain a new (free) process ID. -/
def newpid : KernelM Int :=
  newpidLoop nproc.toNat

def roundew (x : Nat) : Nat :=
  Memory.u32 (x + 3) / 4 * 4

/-- The console of a board, which a new process gets as its three descriptors. -/
def consoleOf : Platform → Int
  | .armBbb => 0
  | .armQemu => 11

/-- The table entry of a process that was just created. -/
def newProcent (s : Kernel) (e : Procent) (saddr ssize : Nat) (priority : Int16) : Procent :=
  { e with
    prstate := .prSusp
    prprio := priority
    prstkbase := saddr
    prstklen := ssize
    prsem := -1
    prparent := s.currpid
    prhasmsg := false
    prdesc := fun i => if 0 ≤ i ∧ i < 3 then consoleOf s.platform else e.prdesc i
    prstkptr := .initial }

/-- Create a process to start running a procedure. -/
def create (ssize : Nat) (priority : Int16) : KernelM Int := do
  let ssize := roundew (if ssize < minstk then minstk else ssize)
  match ← onHeap (Memory.getstk ssize) with
  | none => return syserr
  | some saddr =>
      let pid ← newpid
      if pid = syserr ∨ priority.toInt < 1 then
        return syserr
      modify fun s => { s with prcount := i32 (s.prcount + 1) }
      modify fun s => s.setProc pid fun e => newProcent s e saddr ssize priority
      return pid

/-! ## Termination -/

/-- Print system completion message as last process exits, and halt. -/
def xdone : KernelM Unit :=
  Coop.halt

/-- Close a device.  The descriptors of a process are its console, whose close
routine is `ionull`. -/
def close (descrp : Int) : KernelM Int :=
  if isbaddev descrp then return syserr else return ok

/-- The second half of `kill`: release what the process holds and its slot. -/
def killTail (pid : Int) : KernelM Int := do
  let _ ← close (((← get).proctab pid).prdesc 0)
  let _ ← close (((← get).proctab pid).prdesc 1)
  let _ ← close (((← get).proctab pid).prdesc 2)
  let s ← get
  let _ ← onHeap (Memory.freestk (s.proctab pid).prstkbase (s.proctab pid).prstklen)
  let s ← get
  match s.state pid with
  | .prCurr =>
      modify (·.setState pid .prFree)
      resched
      -- falls through
      let _ ← unsleep pid
      modify (·.setState pid .prFree)
  | .prSleep | .prRectim =>
      let _ ← unsleep pid
      modify (·.setState pid .prFree)
  | .prWait =>
      modify fun s => s.setSem (s.proctab pid).prsem fun e => { e with scount := i32 (e.scount + 1) }
      let _ ← getitem pid
      modify (·.setState pid .prFree)
  | .prReady =>
      let _ ← getitem pid
      modify (·.setState pid .prFree)
  | _ =>
      modify (·.setState pid .prFree)
  return ok

/-- Kill a process and remove it from the system. -/
def kill (pid : Int) : KernelM Int := do
  let s ← get
  if isbadpid s pid ∨ pid = nullproc ∨ s.state pid = .prFree then
    return syserr
  modify fun s => { s with prcount := i32 (s.prcount - 1) }
  if (← get).prcount ≤ 1 then
    xdone
  let _ ← send (s.proctab pid).prparent pid
  killTail pid

/-! ## Suspension and priorities -/

/-- Unsuspend a process, making it ready. -/
def resume (pid : Int) : KernelM Int := do
  let s ← get
  if isbadpid s pid then
    return syserr
  if s.state pid ≠ .prSusp then
    return syserr
  let _ ← ready pid
  return s.prio pid

/-- Suspend a process, placing it in hibernation. -/
def suspend (pid : Int) : KernelM Int := do
  let s ← get
  if isbadpid s pid ∨ pid = nullproc then
    return syserr
  -- only suspend a process that is current or ready
  if s.state pid ≠ .prCurr ∧ s.state pid ≠ .prReady then
    return syserr
  if s.state pid = .prReady then
    let _ ← getitem pid
    modify (·.setState pid .prSusp)
  else
    modify (·.setState pid .prSusp)
    resched
  return (← get).prio pid

/-- Change the scheduling priority of a process. -/
def chprio (pid : Int) (newprio : Int16) : KernelM Int := do
  let s ← get
  if isbadpid s pid then
    return syserr
  modify (·.setProc pid fun e => { e with prprio := newprio })
  return s.prio pid

end Xinu
