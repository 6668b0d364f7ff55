import Xinu.Kernel.Scheduler

/-!
# Sleeping and the clock

Embedding of `system/unsleep.c`, `system/wakeup.c`, `system/sleep.c`,
`system/yield.c` and of the clock interrupt handlers of the two boards.
-/

namespace Xinu

open Foundations Function

/-- Remove a process from the sleep queue prematurely. -/
def unsleep (pid : Int) : KernelM Int := do
  let s ← get
  if isbadpid s pid then
    return syserr
  -- verify that candidate process is on the sleep queue
  if s.state pid ≠ .prSleep ∧ s.state pid ≠ .prRectim then
    return syserr
  -- increment delay of next process if such a process exists
  let pidnext := s.queuetab.qnext pid
  if pidnext < nproc then
    onQueues fun t => t.setQkey pidnext (i32 (t.qkey pidnext + t.qkey pid))
  let _ ← getitem pid
  return ok

/-- The loop of `wakeup`. -/
def wakeupLoop : Nat → KernelM Unit
  | 0 => Coop.diverge
  | fuel + 1 => do
      let s ← get
      if nonempty s.queuetab s.sleepq ∧ firstkey s.queuetab s.sleepq ≤ 0 then
        let pid ← dequeue s.sleepq
        let _ ← ready pid
        wakeupLoop fuel

/-- Awaken all processes that have no more time to sleep. -/
def wakeup : KernelM Unit := do
  let _ ← reschedCntl deferStart
  wakeupLoop queueFuel
  let _ ← reschedCntl deferStop
  return

/-- Voluntarily relinquish the CPU (end a timeslice). -/
def yield : KernelM Int := do
  resched
  return ok

/-- Delay the calling process `delay` milliseconds. -/
def sleepms (delay : Nat) : KernelM Int := do
  if delay = 0 then
    let _ ← yield
    return ok
  let s ← get
  if (← insertd s.currpid s.sleepq (i32 delay)) = syserr then
    return syserr
  modify (·.setState s.currpid .prSleep)
  resched
  return ok

/-- Max seconds per 32-bit msec. -/
def maxseconds : Nat := 4294967

/-- Delay the calling process `delay` seconds. -/
def sleep (delay : Nat) : KernelM Int := do
  if delay > maxseconds then
    return syserr
  let _ ← sleepms (Memory.u32 (1000 * delay))
  return ok

/-- `--queuetab[firstid(sleepq)].qkey` -/
def tickFirst (s : Kernel) : KernelM Unit :=
  onQueues fun t => t.setQkey (firstid t s.sleepq) (i32 (firstkey t s.sleepq - 1))

def clkticksPerSec : Nat := 1000

/-- Interrupt handler of the timer of the `arm-qemu` board. -/
def clkhandlerQemu : KernelM Unit := do
  modify fun s => { s with clkticks := s.clkticks + 1 }
  if (← get).clkticks = clkticksPerSec then
    modify fun s => { s with clktime := Memory.u32 (s.clktime + 1), clkticks := 0 }
  let s ← get
  -- if sleepq is not empty, decrement first key; if key reaches zero, call wakeup
  if nonempty s.queuetab s.sleepq then
    tickFirst s
    if firstkey (← get).queuetab s.sleepq ≤ 0 then
      wakeup
    else
      resched
  else
    resched

/-- `n--` on an unsigned 32-bit integer. -/
def decr (n : Nat) : Nat :=
  if n = 0 then 0xFFFFFFFF else n - 1

/-- Interrupt handler of the timer of the `arm-bbb` board, on an overflow interrupt. -/
def clkhandlerBbb : KernelM Unit := do
  modify fun s => { s with clkticks := decr s.clkticks }
  if (← get).clkticks = 0 then
    modify fun s => { s with clktime := Memory.u32 (s.clktime + 1), clkticks := 1000 }
  let s ← get
  if ¬ isempty s.queuetab s.sleepq then
    tickFirst s
    if firstkey (← get).queuetab s.sleepq = 0 then
      wakeup
  -- decrement the preemption counter; reschedule if necessary
  modify fun s => { s with preempt := decr s.preempt }
  if (← get).preempt = 0 then
    modify fun s => { s with preempt := quantum }
    resched

/-- High level clock interrupt handler. -/
def clkhandler : KernelM Int := do
  match (← get).platform with
  | .armQemu => clkhandlerQemu
  | .armBbb => clkhandlerBbb
  return ok

end Xinu
