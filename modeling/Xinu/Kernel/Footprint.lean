import Xinu.Kernel.Interleaving

/-!
# What the procedures leave alone

The scheduler, the semaphores and the clock work on queues, process states and
counters.  A relation that allows any change of these holds over every stretch of
all their procedures, between two context switches.

Main results:

- Theorems `resched_within` and `ready_within`, and one theorem for each call that
  is built from them.
-/

namespace Xinu

open Foundations Function

/-- The relation allows everything that the scheduler, the semaphores and the clock
may do; they free no slot, and only `wait` makes a process wait. -/
structure Blind (r : Kernel → Kernel → Prop) : Prop where
  queuetab : ∀ s t, r s { s with queuetab := t }
  currpid : ∀ s p, r s { s with currpid := p }
  defer : ∀ s d, r s { s with defer := d }
  clock : ∀ s ticks time slice,
    r s { s with clkticks := ticks, clktime := time, preempt := slice }
  state : ∀ s p st, st ≠ .prFree → st ≠ .prWait → r s (s.setState p st)
  context : ∀ s p, r s (s.setProc p fun e => { e with prstkptr := .saved })
  prio : ∀ s p n, r s (s.setProc p fun e => { e with prprio := n })
  semtab : ∀ s x f, r s (s.setSem x f)
  nextsem : ∀ s k, r s { s with nextsem := k }

section Within

variable {r : Kernel → Kernel → Prop} [IsPreorder Kernel r]

omit [IsPreorder Kernel r] in
theorem onQueues_within (h : Blind r) (f : QueueTab → QueueTab) : (onQueues f).Within r :=
  .modify fun s => h.queuetab s (f s.queuetab)

theorem enqueue_within (h : Blind r) (pid q : Int) : (enqueue pid q).Within r := by
  refine .read fun s => .ite (.pure _) ?_
  refine .bind (onQueues_within h _) fun _ => ?_
  refine .bind (onQueues_within h _) fun _ => ?_
  refine .bind (onQueues_within h _) fun _ => ?_
  exact .bind (onQueues_within h _) fun _ => .pure _

theorem getitem_within (h : Blind r) (pid : Int) : (getitem pid).Within r := by
  refine .read fun s => .bind (onQueues_within h _) fun _ => ?_
  exact .bind (onQueues_within h _) fun _ => .pure _

theorem getfirst_within (h : Blind r) (q : Int) : (getfirst q).Within r :=
  .read fun _ => .ite (.pure _) (getitem_within h _)

theorem dequeue_within (h : Blind r) (q : Int) : (dequeue q).Within r := by
  refine .read fun s => .ite (.pure _) (.ite (.pure _) ?_)
  refine .bind (getfirst_within h q) fun pid => ?_
  refine .bind (onQueues_within h _) fun _ => ?_
  exact .bind (onQueues_within h _) fun _ => .pure _

theorem insert_within (h : Blind r) (pid q key : Int) : (insert pid q key).Within r := by
  refine .read fun s => .ite (.pure _) ?_
  split
  · exact .diverge
  · refine .bind (onQueues_within h _) fun _ => ?_
    refine .bind (onQueues_within h _) fun _ => ?_
    refine .bind (onQueues_within h _) fun _ => ?_
    refine .bind (onQueues_within h _) fun _ => ?_
    exact .bind (onQueues_within h _) fun _ => .pure _

theorem insertd_within (h : Blind r) (pid q key : Int) : (insertd pid q key).Within r := by
  refine .read fun s => .ite (.pure _) ?_
  split
  · exact .diverge
  · refine .bind (onQueues_within h _) fun _ => ?_
    refine .bind (onQueues_within h _) fun _ => ?_
    refine .bind (onQueues_within h _) fun _ => ?_
    refine .bind (onQueues_within h _) fun _ => ?_
    refine .bind (onQueues_within h _) fun _ => ?_
    exact .when (onQueues_within h _) fun _ => .pure _

/-! ## The scheduler -/

omit [IsPreorder Kernel r] in
theorem setState_within (h : Blind r) (p : Int) {st : PrState} (hst : st ≠ .prFree)
    (hwait : st ≠ .prWait) : (modify (·.setState p st) : KernelM Unit).Within r :=
  .modify fun s => h.state s p st hst hwait

theorem ctxsw_within (h : Blind r) (old : Int) : (ctxsw old).Within r :=
  .bind (.modify fun s => h.context s old) fun _ => .giveAway

theorem resched_within (h : Blind r) : resched.Within r := by
  have hdispatch : ∀ readylist ptold, (do
      let ptnew ← dequeue readylist
      modify fun s => { s with currpid := ptnew }
      modify (·.setState ptnew .prCurr)
      modify fun s => { s with preempt := quantum }
      ctxsw ptold : KernelM Unit).Within r := by
    intro readylist ptold
    refine .bind (dequeue_within h _) fun ptnew => ?_
    refine .bind (.modify fun s => h.currpid s _) fun _ => ?_
    refine .bind (setState_within h _ (by decide) (by decide)) fun _ => ?_
    refine .bind (.modify fun s => h.clock s s.clkticks s.clktime quantum) fun _ => ?_
    exact ctxsw_within h _
  refine .read fun s => .ite ?_ (.ite (.ite (.pure _) ?_) (hdispatch _ _))
  · exact .bind (.modify fun s => h.defer s _) fun _ => .pure _
  · refine .bind (setState_within h _ (by decide) (by decide)) fun _ => ?_
    exact .bind (insert_within h _ _ _) fun _ => hdispatch _ _

theorem ready_within (h : Blind r) (pid : Int) : (ready pid).Within r := by
  refine .read fun s => .ite (.pure _) ?_
  refine .bind (setState_within h _ (by decide) (by decide)) fun _ => ?_
  refine .bind (insert_within h _ _ _) fun _ => ?_
  exact .bind (resched_within h) fun _ => .pure _

theorem reschedCntl_within (h : Blind r) (defer : Int) : (reschedCntl defer).Within r := by
  refine .ite ?_ (.ite ?_ (.pure _))
  · refine .read fun s => .bind (.modify fun s => h.defer s _) fun _ => ?_
    exact .when (.modify fun s => h.defer s _) fun _ => .pure _
  · refine .read fun s => .ite (.pure _) ?_
    refine .bind (.modify fun s => h.defer s _) fun _ => .read fun _ => ?_
    exact .when (resched_within h) fun _ => .pure _

/-! ## The clock -/

theorem yield_within (h : Blind r) : yield.Within r :=
  .bind (resched_within h) fun _ => .pure _

theorem unsleep_within (h : Blind r) (pid : Int) : (unsleep pid).Within r := by
  refine .read fun s => .ite (.pure _) (.ite (.pure _) ?_)
  refine .when (onQueues_within h _) fun _ => ?_
  exact .bind (getitem_within h _) fun _ => .pure _

theorem sleepms_within (h : Blind r) (delay : Nat) : (sleepms delay).Within r := by
  refine .ite (.bind (yield_within h) fun _ => .pure _) ?_
  refine .read fun s => .bind (insertd_within h _ _ _) fun v => .ite (.pure _) ?_
  refine .bind (setState_within h _ (by decide) (by decide)) fun _ => ?_
  exact .bind (resched_within h) fun _ => .pure _

theorem wakeupLoop_within (h : Blind r) (fuel : Nat) : (wakeupLoop fuel).Within r := by
  induction fuel with
  | zero => exact .diverge
  | succ fuel ih =>
      refine .read fun s => .ite ?_ (.pure _)
      refine .bind (dequeue_within h _) fun _ => ?_
      exact .bind (ready_within h _) fun _ => ih

theorem wakeup_within (h : Blind r) : wakeup.Within r := by
  refine .bind (reschedCntl_within h _) fun _ => ?_
  refine .bind (wakeupLoop_within h _) fun _ => ?_
  exact .bind (reschedCntl_within h _) fun _ => .pure _

theorem clkhandlerQemu_within (h : Blind r) : clkhandlerQemu.Within r := by
  refine .bind (.modify fun s => h.clock s (s.clkticks + 1) s.clktime s.preempt) fun _ => ?_
  refine .read fun s => .when (.modify fun s => ?_) fun _ => .read fun s => ?_
  · exact h.clock s 0 _ s.preempt
  · refine .ite ?_ (resched_within h)
    refine .bind (onQueues_within h _) fun _ => .read fun _ => ?_
    exact .ite (wakeup_within h) (resched_within h)

theorem clkhandlerBbb_within (h : Blind r) : clkhandlerBbb.Within r := by
  refine .bind (.modify fun s => h.clock s (decr s.clkticks) s.clktime s.preempt) fun _ => ?_
  refine .read fun s => .when (.modify fun s => ?_) fun _ => .read fun s => ?_
  · exact h.clock s 1000 _ s.preempt
  · have hslice : ∀ _ : PUnit, (do
        modify fun s => { s with preempt := decr s.preempt }
        if (← get).preempt = 0 then
          modify fun s => { s with preempt := quantum }
          resched : KernelM Unit).Within r := by
      intro _
      refine .bind (.modify fun s => h.clock s s.clkticks s.clktime _) fun _ => .read fun _ => ?_
      refine .ite (.bind (.modify fun s => ?_) fun _ => resched_within h) (.pure _)
      exact h.clock s s.clkticks s.clktime quantum
    refine .ite ?_ (hslice ⟨⟩)
    refine .bind (onQueues_within h _) fun _ => .read fun _ => ?_
    exact .when (wakeup_within h) hslice

theorem clkhandler_within (h : Blind r) : clkhandler.Within r := by
  refine .read fun s => ?_
  dsimp only
  split
  · exact .bind (clkhandlerQemu_within h) fun _ => .pure _
  · exact .bind (clkhandlerBbb_within h) fun _ => .pure _

/-! ## The semaphores -/

theorem newsemLoop_within (h : Blind r) (i : Nat) : (newsemLoop i).Within r := by
  induction i with
  | zero => exact .pure _
  | succ i ih =>
      refine .read fun s => .bind (.modify fun s => h.nextsem s _) fun _ => .read fun _ => ?_
      refine .when (.modify fun s => h.nextsem s _) fun _ => .read fun _ => ?_
      exact .ite (.bind (.modify fun s => h.semtab s _ _) fun _ => .pure _) ih

theorem semcreate_within (h : Blind r) (count : Int) : (semcreate count).Within r := by
  refine .ite (.pure _) (.bind (newsemLoop_within h _) fun sem => .ite (.pure _) ?_)
  exact .bind (.modify fun s => h.semtab s _ _) fun _ => .pure _

/-- The relation allows a process to be made to wait for a semaphore. -/
def MayWait (r : Kernel → Kernel → Prop) : Prop :=
  ∀ s p x, r s (s.setProc p fun e => { e with prstate := .prWait, prsem := x })

theorem wait_within (h : Blind r) (hwait : MayWait r) (sem : Int) : (wait sem).Within r := by
  refine .ite (.pure _) (.read fun s => .ite (.pure _) ?_)
  refine .bind (.modify fun s => h.semtab s _ _) fun _ => .read fun _ => ?_
  refine .ite (.bind (.modify fun s => hwait s _ _) fun _ => .read fun _ => ?_) (.pure _)
  refine .bind (enqueue_within h _ _) fun _ => ?_
  exact .bind (resched_within h) fun _ => .pure _

theorem signal_within (h : Blind r) (sem : Int) : (signal sem).Within r := by
  refine .ite (.pure _) (.read fun s => .ite (.pure _) ?_)
  refine .bind (.modify fun s => h.semtab s _ _) fun _ => ?_
  refine .ite (.bind (dequeue_within h _) fun _ => ?_) (.pure _)
  exact .bind (ready_within h _) fun _ => .pure _

theorem signalnLoop_within (h : Blind r) (sem : Int) (n : Nat) :
    (signalnLoop sem n).Within r := by
  induction n with
  | zero => exact .pure _
  | succ n ih =>
      refine .read fun s => .bind (.modify fun s => h.semtab s _ _) fun _ => ?_
      refine .ite (.bind (dequeue_within h _) fun _ => ?_) ih
      exact .bind (ready_within h _) fun _ => ih

theorem signaln_within (h : Blind r) (sem count : Int) : (signaln sem count).Within r := by
  refine .ite (.pure _) (.read fun s => .ite (.pure _) ?_)
  refine .bind (reschedCntl_within h _) fun _ => .bind (signalnLoop_within h _ _) fun _ => ?_
  exact .bind (reschedCntl_within h _) fun _ => .pure _

theorem semdeleteLoop_within (h : Blind r) (sem : Int) (fuel : Nat) :
    (semdeleteLoop sem fuel).Within r := by
  induction fuel with
  | zero => exact .diverge
  | succ fuel ih =>
      refine .read fun s => .bind (.modify fun s => h.semtab s _ _) fun _ => .ite ?_ (.pure _)
      refine .bind (getfirst_within h _) fun _ => ?_
      exact .bind (ready_within h _) fun _ => ih

theorem semdelete_within (h : Blind r) (sem : Int) : (semdelete sem).Within r := by
  refine .ite (.pure _) (.read fun s => .ite (.pure _) ?_)
  refine .bind (.modify fun s => h.semtab s _ _) fun _ => ?_
  refine .bind (reschedCntl_within h _) fun _ => .bind (semdeleteLoop_within h _ _) fun _ => ?_
  exact .bind (reschedCntl_within h _) fun _ => .pure _

theorem semresetLoop_within (h : Blind r) (q : Int) (fuel : Nat) :
    (semresetLoop q fuel).Within r := by
  induction fuel with
  | zero => exact .diverge
  | succ fuel ih =>
      refine .bind (getfirst_within h _) fun pid => .ite ?_ (.pure _)
      exact .bind (ready_within h _) fun _ => ih

theorem semreset_within (h : Blind r) (sem count : Int) : (semreset sem count).Within r := by
  refine .read fun s => .ite (.pure _) ?_
  refine .bind (reschedCntl_within h _) fun _ => .bind (semresetLoop_within h _ _) fun _ => ?_
  refine .bind (.modify fun s => h.semtab s _ _) fun _ => ?_
  exact .bind (reschedCntl_within h _) fun _ => .pure _

/-! ## Processes -/

theorem resume_within (h : Blind r) (pid : Int) : (resume pid).Within r := by
  refine .read fun s => .ite (.pure _) (.ite (.pure _) ?_)
  exact .bind (ready_within h _) fun _ => .pure _

theorem suspend_within (h : Blind r) (pid : Int) : (suspend pid).Within r := by
  refine .read fun s => .ite (.pure _) (.ite (.pure _) ?_)
  have hlast : ∀ _ : PUnit, (do return (← get).prio pid : KernelM Int).Within r := fun _ =>
    .read fun _ => .pure _
  refine .ite ?_ ?_
  · exact .bind (getitem_within h _) fun _ => .bind (setState_within h _ (by decide) (by decide)) hlast
  · exact .bind (setState_within h _ (by decide) (by decide)) fun _ => .bind (resched_within h) hlast

theorem chprio_within (h : Blind r) (pid : Int) (newprio : Int16) :
    (chprio pid newprio).Within r := by
  refine .read fun s => .ite (.pure _) ?_
  exact .bind (.modify fun s => h.prio s _ _) fun _ => .pure _

theorem close_within (d : Int) : (close d).Within r :=
  .ite (.pure _) (.pure _)

omit [IsPreorder Kernel r] in
/-- A heap call, if the heap may change. -/
theorem onHeap_within {α : Type} (hheap : ∀ s m, r s { s with heap := m })
    (x : Memory.HeapM α) : (onHeap x).Within r :=
  .zoom hheap x

theorem killState_within (h : Blind r) (pid : Int) (hfree : ∀ s, r s (s.setState pid .prFree)) :
    (killState pid).Within r := by
  have hlast : ∀ _ : Unit, (do
      modify (·.setState pid .prFree)
      return ok : KernelM Int).Within r := fun _ => .bind (.modify hfree) fun _ => .pure _
  refine .read fun s => ?_
  dsimp only
  split
  · refine .bind (.modify hfree) fun _ => .bind (resched_within h) fun _ => ?_
    exact .bind (unsleep_within h _) fun _ => hlast ⟨⟩
  · exact .bind (unsleep_within h _) fun _ => hlast ⟨⟩
  · exact .bind (unsleep_within h _) fun _ => hlast ⟨⟩
  · refine .bind (.modify fun s => h.semtab s _ _) fun _ => ?_
    exact .bind (getitem_within h _) fun _ => hlast ⟨⟩
  · exact .bind (getitem_within h _) fun _ => hlast ⟨⟩
  · exact hlast ⟨⟩

theorem killTail_within (h : Blind r) (hheap : ∀ s m, r s { s with heap := m }) (pid : Int)
    (hfree : ∀ s, r s (s.setState pid .prFree)) : (killTail pid).Within r := by
  refine .read fun s => .bind (close_within _) fun _ => ?_
  refine .read fun s => .bind (close_within _) fun _ => ?_
  refine .read fun s => .bind (close_within _) fun _ => .read fun s => ?_
  exact .bind (onHeap_within hheap _) fun _ => killState_within h pid hfree

/-- What `send` does once the message is in its slot. -/
def wake (st : PrState) (pid : Int) : KernelM Int := do
  if st = .prRecv then
    let _ ← ready pid
  else if st = .prRectim then
    let _ ← unsleep pid
    let _ ← ready pid
  return ok

theorem send_eq (pid msg : Int) (s : Kernel) :
    send pid msg s =
      if isbadpid s pid ∨ (s.proctab pid).prhasmsg = true then .done syserr s
      else wake (s.state pid) pid (s.setProc pid fun e => { e with prmsg := msg, prhasmsg := true }) := by
  by_cases hbad : isbadpid s pid
  · simp [send, hbad]
  by_cases hfull : (s.proctab pid).prhasmsg = true
  · simp [send, hbad, hfull]
  · by_cases hrecv : s.state pid = .prRecv
    · simp [send, wake, hbad, hfull, hrecv]
    · by_cases hrectim : s.state pid = .prRectim
      · simp [send, wake, hbad, hfull, hrectim]
      · simp [send, wake, hbad, hfull, hrecv, hrectim]

/-- Waking the recipient is all that is left but to return. -/
theorem wake_eq (st : PrState) (pid : Int) :
    ∃ x : KernelM Int, (∀ s, wake st pid s = (x s).bind fun _ => pure ok) ∧
      ∀ {r : Kernel → Kernel → Prop} [IsPreorder Kernel r], Blind r → x.Within r := by
  by_cases hrecv : st = .prRecv
  · exact ⟨ready pid, fun s => by simp [wake, hrecv], fun h => ready_within h pid⟩
  by_cases hrectim : st = .prRectim
  · refine ⟨unsleep pid >>= fun _ => ready pid, fun s => ?_, ?_⟩
    · simp [wake, hrectim, Flow.bind_assoc]
      rfl
    · exact fun h => .bind (unsleep_within h pid) fun _ => ready_within h pid
  · exact ⟨pure ok, fun s => by simp [wake, hrecv, hrectim], fun _ => .pure _⟩

/-! ## Messages -/

/-- The relation allows messages to be passed, too. -/
structure Deaf (r : Kernel → Kernel → Prop) : Prop extends Blind r where
  passed : ∀ s p msg, r s (s.setProc p fun e => { e with prmsg := msg, prhasmsg := true })
  taken : ∀ s p, r s (s.setProc p fun e => { e with prhasmsg := false })

theorem send_within (h : Deaf r) (pid msg : Int) : (send pid msg).Within r := by
  intro s
  rw [send_eq]
  split
  · exact refl_of r s
  · obtain ⟨x, hwake, hwithin⟩ := wake_eq (s.state pid) pid
    rw [hwake]
    refine Flow.Within.after ?_ (h.passed s pid msg)
    exact (hwithin h.toBlind _).bind fun _ => .pure _

theorem receive_within (h : Deaf r) : receive.Within r := by
  have htail : ∀ me, ∀ _ : PUnit, (receiveTail me).Within r := fun me _ =>
    .read fun _ => .bind (.modify fun s => h.taken s me) fun _ => .pure _
  refine .read fun s => .ite ?_ (htail _ ⟨⟩)
  refine .bind (setState_within h.toBlind _ (by decide) (by decide)) fun _ => ?_
  exact .bind (resched_within h.toBlind) (htail _)

theorem recvtime_within (h : Deaf r) (maxwait : Int) : (recvtime maxwait).Within r := by
  have htail : ∀ me, ∀ _ : PUnit, (recvtimeTail me).Within r := fun me _ =>
    .read fun _ => .ite (.bind (.modify fun s => h.taken s me) fun _ => .pure _) (.pure _)
  refine .ite (.pure _) (.read fun s => .ite ?_ (htail _ ⟨⟩))
  refine .bind (insertd_within h.toBlind _ _ _) fun _ => .ite (.pure _) ?_
  refine .bind (setState_within h.toBlind _ (by decide) (by decide)) fun _ => ?_
  exact .bind (resched_within h.toBlind) (htail _)

theorem recvclr_within (h : Deaf r) : recvclr.Within r :=
  .read fun _ => .ite (.bind (.modify fun s => h.taken s _) fun _ => .pure _) (.pure _)

/-- A kill, if the heap, the number of processes and the state of its target may change. -/
theorem kill_within (h : Deaf r) (hheap : ∀ s m, r s { s with heap := m })
    (hcount : ∀ s n, r s { s with prcount := n }) (pid : Int)
    (hfree : ∀ s, r s (s.setState pid .prFree)) : (kill pid).Within r := by
  have htail := killTail_within h.toBlind hheap pid hfree
  have hsend : ∀ p msg, (send p msg >>= fun _ => killTail pid).Within r := fun p msg =>
    .bind (send_within h p msg) fun _ => htail
  refine .read fun s => .ite (.pure _) ?_
  refine .bind (.modify fun s => hcount s _) fun _ => .read fun _ => .ite ?_ (hsend _ _)
  exact .bind (fun s => refl_of r s) fun _ => hsend _ _

/-- The calls that neither create a process nor kill one. -/
def KeepsProcs : KCall → Prop
  | .create _ _ | .kill _ => False
  | _ => True

theorem exec_within (h : Deaf r) {c : KCall} (hc : KeepsProcs c)
    (hwait : (∃ sem, c = .wait sem) → MayWait r) : c.exec.Within r := by
  have hblind := h.toBlind
  cases c with
  | create ssize priority => exact hc.elim
  | resume pid => exact resume_within hblind _
  | suspend pid => exact suspend_within hblind _
  | kill pid => exact hc.elim
  | wait sem => exact wait_within hblind (hwait ⟨sem, rfl⟩) _
  | signal sem => exact signal_within hblind _
  | signaln sem count => exact signaln_within hblind _ _
  | semcreate count => exact semcreate_within hblind _
  | semdelete sem => exact semdelete_within hblind _
  | semreset sem count => exact semreset_within hblind _ _
  | sleepms delay => exact sleepms_within hblind _
  | recvtime maxwait => exact recvtime_within h _
  | receive => exact receive_within h
  | send pid msg => exact send_within h _ _
  | recvclr => exact recvclr_within h
  | yield => exact yield_within hblind
  | chprio pid newprio => exact chprio_within hblind _ _
  | tick => exact clkhandler_within hblind
  | ready pid => exact ready_within hblind _
  | reschedCntl defer => exact reschedCntl_within hblind _

end Within

/-! ## Who begins to wait -/

/-- No process begins to wait. -/
def NobodyWaits (s s' : Kernel) : Prop :=
  ∀ p, s'.state p = .prWait → s.state p = .prWait

instance : IsPreorder Kernel NobodyWaits where
  refl _ _ h := h
  trans _ _ _ h h' p hp := h p (h' p hp)

/-- Only the process that runs the segment may begin to wait. -/
def WaitsAlone (seg : Segment Kernel KCall) : Prop :=
  ∀ p, seg.after.state p = .prWait → seg.before.state p = .prWait ∨ p = seg.who

theorem nobodyWaits_setProc (s : Kernel) (p : Int) (f : Procent → Procent)
    (hf : ∀ e, (f e).prstate = .prWait → e.prstate = .prWait) :
    NobodyWaits s (s.setProc p f) := by
  intro r hr
  unfold Kernel.state at hr ⊢
  rw [proctab_setProc] at hr
  split at hr
  · next h =>
      rw [h]
      exact hf _ hr
  · exact hr

theorem nobodyWaits_deaf : Deaf NobodyWaits := by
  have hsame : ∀ s s' : Kernel, s'.proctab = s.proctab → NobodyWaits s s' := by
    intro s s' hproc p hp
    unfold Kernel.state at hp ⊢
    rwa [hproc] at hp
  refine ⟨⟨?_, ?_, ?_, ?_, ?_, ?_, ?_, ?_, ?_⟩, ?_, ?_⟩
  · exact fun s _ => hsame s _ rfl
  · exact fun s _ => hsame s _ rfl
  · exact fun s _ => hsame s _ rfl
  · exact fun s _ _ _ => hsame s _ rfl
  · exact fun s p st _ hst => nobodyWaits_setProc s p _ fun _ h => (hst h).elim
  · exact fun s p => nobodyWaits_setProc s p _ fun _ h => h
  · exact fun s p n => nobodyWaits_setProc s p _ fun _ h => h
  · exact fun s _ _ => hsame s _ rfl
  · exact fun s _ => hsame s _ rfl
  · exact fun s p msg => nobodyWaits_setProc s p _ fun _ h => h
  · exact fun s p => nobodyWaits_setProc s p _ fun _ h => h

theorem create_within (ssize : Nat) (priority : Int16) :
    (create ssize priority).Within NobodyWaits := by
  have hpid : ∀ i, (newpidLoop i).Within NobodyWaits := by
    intro i
    induction i with
    | zero => exact .pure _
    | succ i ih =>
        refine .bind (.modify fun s => refl_of NobodyWaits s) fun _ => .read fun s => ?_
        refine .bind (.modify fun s => refl_of NobodyWaits s) fun _ => .ite (.pure _) ih
  apply Coop.Within.bind (onHeap_within (fun s _ => refl_of NobodyWaits s) _)
  intro r
  cases r with
  | none => exact .pure _
  | some saddr =>
      refine .bind (hpid _) fun pid => .ite (.pure _) ?_
      refine .bind (.modify fun s => refl_of NobodyWaits s) fun _ => ?_
      refine .bind (.modify fun s => ?_) fun _ => .pure _
      exact nobodyWaits_setProc s pid _ nofun

theorem wait_alone (sem : Int32) (s : Kernel) :
    kernelMachine.Obeys WaitsAlone (.wait sem) (wait sem.toInt s) false s := by
  have hdone : ∀ v s', s'.state = s.state →
      kernelMachine.Obeys WaitsAlone (.wait sem) (.done v s') false s := by
    intro v s' hst p hp
    change s'.state p = .prWait at hp
    rw [hst] at hp
    exact Or.inl hp
  obtain ⟨s₁, hs₁⟩ : ∃ s₁, s.setCount sem.toInt (i32 (s.count sem.toInt - 1)) = s₁ := ⟨_, rfl⟩
  have hst₁ : s₁.state = s.state := by
    rw [← hs₁]
    rfl
  have hcur₁ : s₁.currpid = s.currpid := by
    rw [← hs₁]
    rfl
  by_cases hbad : isbadsem sem.toInt
  · have hrun : wait sem.toInt s = .done syserr s := by simp [wait, hbad]
    rw [hrun]
    exact hdone _ _ rfl
  by_cases hfree : (s.semtab sem.toInt).sstate = .sFree
  · have hrun : wait sem.toInt s = .done syserr s := by simp [wait, hbad, hfree]
    rw [hrun]
    exact hdone _ _ rfl
  by_cases hneg : s₁.count sem.toInt < 0
  · obtain ⟨s₂, hs₂⟩ : ∃ s₂, (s₁.setProc s₁.currpid fun e =>
        { e with prstate := .prWait, prsem := sem.toInt }) = s₂ := ⟨_, rfl⟩
    have hst₂ : ∀ p, s₂.state p = .prWait → s.state p = .prWait ∨ p = s.currpid := by
      intro p hp
      unfold Kernel.state at hp
      rw [← hs₂, proctab_setProc] at hp
      split at hp
      · next h => exact Or.inr (h.trans hcur₁)
      · left
        rw [← hst₁]
        exact hp
    have hrun : wait sem.toInt s =
        (do let _ ← enqueue s₂.currpid (s₂.squeue sem.toInt); resched; return ok : KernelM Int)
          s₂ := by
      simp [wait, hbad, hfree, hs₁, hneg, hs₂]
    have hwithin : (do let _ ← enqueue s₂.currpid (s₂.squeue sem.toInt); resched; return ok :
        KernelM Int).Within NobodyWaits := by
      refine .bind (enqueue_within nobodyWaits_deaf.toBlind _ _) fun _ => ?_
      exact .bind (resched_within nobodyWaits_deaf.toBlind) fun _ => .pure _
    rw [hrun]
    apply Machine.obeys_within (hwithin s₂)
    · exact fun s' o hr p hp => hst₂ p (hr p hp)
    · exact fun s' s'' o hr p hp => Or.inl (hr p hp)
  · have hrun : wait sem.toInt s = .done ok s₁ := by simp [wait, hbad, hfree, hs₁, hneg]
    rw [hrun]
    exact hdone _ _ hst₁

/-- Only the running process begins to wait. -/
theorem exec_waitsAlone (s : Kernel) (c : KCall) :
    kernelMachine.Obeys WaitsAlone c (kernelMachine.exec c s) false s := by
  have hall : ∀ x : KernelM Int, x.Within NobodyWaits →
      kernelMachine.Obeys WaitsAlone c (x s) false s := by
    intro x hx
    apply Machine.obeys_within (hx s)
    · exact fun s' o hr p hp => Or.inl (hr p hp)
    · exact fun s' s'' o hr p hp => Or.inl (hr p hp)
  by_cases hwait : ∃ sem, c = .wait sem
  · obtain ⟨sem, rfl⟩ := hwait
    exact wait_alone sem s
  by_cases hprocs : KeepsProcs c
  · exact hall _ (exec_within nobodyWaits_deaf hprocs fun h => (hwait h).elim)
  · cases c with
    | create ssize priority => exact hall _ (create_within _ _)
    | kill pid =>
        refine hall _ (kill_within nobodyWaits_deaf ?_ ?_ _ ?_)
        · exact fun s _ => refl_of NobodyWaits s
        · exact fun s _ => refl_of NobodyWaits s
        · exact fun s => nobodyWaits_setProc s _ _ nofun
    | _ => exact (hprocs trivial).elim

end Xinu
