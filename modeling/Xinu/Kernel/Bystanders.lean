import Xinu.Foundations.RelyGuarantee
import Xinu.Kernel.Messages
import Xinu.Kernel.Interrupts

/-!
# Processes that look on

What a call does to the process that makes it, as far as the processor goes, and what
it leaves of the processes that only look on: they stay in the process table, their
saved contexts stay saved, and their message slots hold what they held.

Main results:

- Theorem `resched_lends` and the theorems built from it: a process that gives the
  processor away in a call has its context saved, and holds the processor again when
  the call returns.
- Theorem `exec_outlives`: only a kill of a process removes it from the table.
- Theorem `recvtime_stretches`: what `recvtime` returns, and when it waits.
- Theorem `onKernel_obeys`: what a call of the kernel does in a larger state.
-/

namespace Xinu

open Foundations Function

variable {α β : Type} {me : Int} {s s' s₁ : Kernel}

/-! ## Giving the processor away -/

/-- When process `me` gives the processor away, its context is saved, and when the
call returns, it holds the processor. -/
def Lends (me : Int) (x : KernelM α) : Prop :=
  ∀ s, s.currpid = me → (x s).Stretches (fun s => s.currpid = me) (fun _ s => ¬ Fresh s me)
    (fun _ _ s => s.currpid = me) s

theorem Lends.pure (a : α) : Lends me (Pure.pure a : KernelM α) :=
  fun _ h => h

theorem Lends.bind {x : KernelM α} {f : α → KernelM β} (hx : Lends me x)
    (hf : ∀ a, Lends me (f a)) : Lends me (x >>= f) := by
  intro s hs
  apply (hx s hs).seq
  intro a s₁ s₂ hcur
  apply (hf a s₂ hcur).mono
  · exact fun _ h => h
  · exact fun _ _ h => h
  · exact fun _ _ _ h => h
  · exact fun _ _ _ _ h => h

theorem Lends.read {f : Kernel → KernelM α} (hf : ∀ a, Lends me (f a)) :
    Lends me (MonadState.get >>= f) :=
  fun s hs => hf s s hs

theorem Lends.modify {f : Kernel → Kernel} (hf : ∀ s, (f s).currpid = s.currpid) :
    Lends me (modify f : KernelM PUnit) :=
  fun s hs => (hf s).trans hs

theorem Lends.ite {c : Prop} [Decidable c] {x y : KernelM α} (hx : Lends me x)
    (hy : Lends me y) : Lends me (if c then x else y) := by
  split
  · exact hx
  · exact hy

theorem Lends.diverge : Lends me (Coop.diverge : KernelM α) :=
  fun _ _ => trivial

theorem onQueues_lends (f : QueueTab → QueueTab) : Lends me (onQueues f) :=
  .modify fun _ => rfl

theorem enqueue_lends (pid q : Int) : Lends me (enqueue pid q) := by
  refine .read fun s => .ite (.pure _) ?_
  refine .bind (onQueues_lends _) fun _ => .bind (onQueues_lends _) fun _ => ?_
  exact .bind (onQueues_lends _) fun _ => .bind (onQueues_lends _) fun _ => .pure _

theorem getitem_lends (pid : Int) : Lends me (getitem pid) :=
  .read fun _ => .bind (onQueues_lends _) fun _ => .bind (onQueues_lends _) fun _ => .pure _

theorem dequeue_lends (q : Int) : Lends me (dequeue q) := by
  refine .read fun s => .ite (.pure _) (.ite (.pure _) ?_)
  refine .bind (.read fun s => .ite (.pure _) (getitem_lends _)) fun pid => ?_
  exact .bind (onQueues_lends _) fun _ => .bind (onQueues_lends _) fun _ => .pure _

theorem insert_lends (pid q key : Int) : Lends me (insert pid q key) := by
  refine .read fun s => .ite (.pure _) ?_
  split
  · exact .diverge
  · refine .bind (onQueues_lends _) fun _ => .bind (onQueues_lends _) fun _ => ?_
    refine .bind (onQueues_lends _) fun _ => .bind (onQueues_lends _) fun _ => ?_
    exact .bind (onQueues_lends _) fun _ => .pure _

theorem getfirst_lends (q : Int) : Lends me (getfirst q) :=
  .read fun _ => .ite (.pure _) (getitem_lends _)

theorem resched_lends : Lends me resched := by
  have hdispatch : ∀ readylist, Lends me (do
      let ptnew ← dequeue readylist
      modify fun s => { s with currpid := ptnew }
      modify (·.setState ptnew .prCurr)
      modify fun s => { s with preempt := quantum }
      ctxsw me : KernelM Unit) := by
    intro readylist s hs
    apply (dequeue_lends readylist s hs).seq
    intro ptnew s₁ s₂ _
    constructor
    · have hsaved : ∀ s : Kernel,
          ¬ Fresh (s.setProc me fun e => { e with prstkptr := .saved }) me := by
        intro s hinit
        unfold Fresh at hinit
        rw [proctab_setProc, if_pos rfl] at hinit
        contradiction
      exact hsaved _
    · exact fun s' hs' => hs'
  intro s hs
  by_cases hdefer : s.defer.ndefers > 0
  · have hrun : resched s = .done () { s with defer := { s.defer with attempt := true } } := by
      simp [resched, hdefer]
    rw [hrun]
    exact hs
  by_cases hcurr : s.state s.currpid = .prCurr
  · by_cases hprio : s.prio s.currpid > firstkey s.queuetab s.readylist
    · have hrun : resched s = .done () s := by simp [resched, hdefer, hcurr, hprio]
      rw [hrun]
      exact hs
    · have hrun : resched s = (do
          modify (·.setState me .prReady)
          let _ ← insert me s.readylist (s.prio me)
          let ptnew ← dequeue s.readylist
          modify fun s => { s with currpid := ptnew }
          modify (·.setState ptnew .prCurr)
          modify fun s => { s with preempt := quantum }
          ctxsw me : KernelM Unit) s := by
        rw [← hs]
        simp [resched, hdefer, hcurr, hprio]
      rw [hrun]
      have hready : Lends me (modify (·.setState me .prReady) : KernelM PUnit) :=
        .modify fun _ => rfl
      have hinsert : Lends me (insert me s.readylist (s.prio me)) := insert_lends _ _ _
      exact hready.bind (fun _ => hinsert.bind fun _ => hdispatch s.readylist) s hs
  · have hrun : resched s = (do
        let ptnew ← dequeue s.readylist
        modify fun s => { s with currpid := ptnew }
        modify (·.setState ptnew .prCurr)
        modify fun s => { s with preempt := quantum }
        ctxsw me : KernelM Unit) s := by
      rw [← hs]
      simp [resched, hdefer, hcurr]
    rw [hrun]
    exact hdispatch s.readylist s hs

/-- `dequeue` never gives the processor away. -/
theorem dequeue_done (q : Int) (s : Kernel) :
    ∃ v t', dequeue q s = .done v { s with queuetab := t' } := by
  by_cases hbad : isbadqid q
  · exact ⟨syserr, s.queuetab, by simp [dequeue, hbad]⟩
  by_cases hempty : isempty s.queuetab q
  · exact ⟨empty, s.queuetab, by simp [dequeue, hbad, hempty]⟩
  · exact ⟨_, _, by simp [dequeue, getfirst, getitem, hbad, hempty, onQueues]; exact ⟨rfl, rfl⟩⟩

/-- `insert` never gives the processor away. -/
theorem insert_cases (pid q key : Int) (s : Kernel) :
    (∃ v t', insert pid q key s = .done v { s with queuetab := t' }) ∨
      insert pid q key s = .stuck := by
  by_cases hbad : isbadqid q ∨ isbadpid s pid
  · exact Or.inl ⟨syserr, s.queuetab, by simp [insert, hbad]⟩
  cases hloop : insertLoop s.queuetab key queueFuel (firstid s.queuetab q) with
  | none => exact Or.inr (by simp [insert, hbad, hloop])
  | some curr => exact Or.inl ⟨ok, _, by simp [insert, hbad, hloop, onQueues]; rfl⟩

/-- `resched` gives the processor away once at most, at its end. -/
theorem resched_once (s : Kernel) :
    (∃ s', resched s = .done () s') ∨ (∃ s', resched s = .suspended s' fun s => .done () s) ∨
      resched s = .stuck := by
  have hdispatch : ∀ readylist old s, ∃ s', (do
      let ptnew ← dequeue readylist
      modify fun s => { s with currpid := ptnew }
      modify (·.setState ptnew .prCurr)
      modify fun s => { s with preempt := quantum }
      ctxsw old : KernelM Unit) s = .suspended s' fun s => .done () s := by
    intro readylist old s
    obtain ⟨v, t', hrun⟩ := dequeue_done readylist s
    simp only [Coop.run_bind, hrun, Flow.bind_done, ctxsw]
    exact ⟨_, rfl⟩
  by_cases hdefer : s.defer.ndefers > 0
  · exact Or.inl ⟨_, by simp [resched, hdefer]; rfl⟩
  by_cases hcurr : s.state s.currpid = .prCurr
  · by_cases hprio : s.prio s.currpid > firstkey s.queuetab s.readylist
    · exact Or.inl ⟨s, by simp [resched, hdefer, hcurr, hprio]⟩
    · rcases insert_cases s.currpid s.readylist (s.prio s.currpid)
        (s.setState s.currpid .prReady) with ⟨v, t', hins⟩ | hins
      · obtain ⟨s', hrun⟩ := hdispatch s.readylist s.currpid
          { s.setState s.currpid .prReady with queuetab := t' }
        exact Or.inr (Or.inl ⟨s', by rw [← hrun]; simp [resched, hdefer, hcurr, hprio, hins]⟩)
      · exact Or.inr (Or.inr (by simp [resched, hdefer, hcurr, hprio, hins]))
  · obtain ⟨s', hrun⟩ := hdispatch s.readylist s.currpid s
    exact Or.inr (Or.inl ⟨s', by rw [← hrun]; simp [resched, hdefer, hcurr]⟩)

theorem ready_lends (pid : Int) : Lends me (ready pid) := by
  refine .read fun s => .ite (.pure _) (.bind (.modify fun _ => rfl) fun _ => ?_)
  exact .bind (insert_lends _ _ _) fun _ => .bind resched_lends fun _ => .pure _

theorem wait_lends (sem : Int) : Lends me (wait sem) := by
  refine .ite (.pure _) (.read fun s => .ite (.pure _) ?_)
  refine .bind (.modify fun _ => rfl) fun _ => .read fun s => ?_
  refine .ite (.bind (.modify fun _ => rfl) fun _ => .read fun _ => ?_) (.pure _)
  exact .bind (enqueue_lends _ _) fun _ => .bind resched_lends fun _ => .pure _

theorem signal_lends (sem : Int) : Lends me (signal sem) := by
  refine .ite (.pure _) (.read fun s => .ite (.pure _) ?_)
  refine .bind (.modify fun _ => rfl) fun _ => ?_
  refine .ite (.bind (dequeue_lends _) fun _ => ?_) (.pure _)
  exact .bind (ready_lends _) fun _ => .pure _

theorem reschedCntl_lends (defer : Int) : Lends me (reschedCntl defer) := by
  apply Lends.ite
  · refine .read fun s => .bind (.modify fun _ => rfl) fun _ => ?_
    exact .ite (.bind (.modify fun _ => rfl) fun _ => .pure _) (.pure _)
  · refine .ite (.read fun s => .ite (.pure _) ?_) (.pure _)
    refine .bind (.modify fun _ => rfl) fun _ => .read fun s => ?_
    exact .ite (.bind resched_lends fun _ => .pure _) (.pure _)

theorem unsleep_lends (pid : Int) : Lends me (unsleep pid) := by
  refine .read fun s => .ite (.pure _) (.ite (.pure _) ?_)
  exact .ite (.bind (onQueues_lends _) fun _ => .bind (getitem_lends _) fun _ => .pure _)
    (.bind (getitem_lends _) fun _ => .pure _)

theorem send_lends (pid msg : Int) : Lends me (send pid msg) := by
  refine .read fun s => .ite (.pure _) (.ite (.pure _) ?_)
  refine .bind (.modify fun _ => rfl) fun _ => .ite ?_ (.ite ?_ (.pure _))
  · exact .bind (ready_lends _) fun _ => .pure _
  · exact .bind (unsleep_lends _) fun _ => .bind (ready_lends _) fun _ => .pure _

theorem recvclr_lends : Lends me recvclr :=
  .read fun _ => .ite (.bind (.modify fun _ => rfl) fun _ => .pure _) (.pure _)

/-! ## Giving the processor away once -/

/-- The procedure does not give the processor away. -/
def Straight (x : KernelM α) : Prop :=
  ∀ s, (∃ a s', x s = .done a s') ∨ x s = .stuck

/-- The procedure gives the processor away once at most, at its end. -/
def Once (x : KernelM α) : Prop :=
  ∀ s, (∃ a s', x s = .done a s') ∨ (∃ a s', x s = .suspended s' fun s => .done a s) ∨
    x s = .stuck

theorem Once.pure (a : α) : Once (Pure.pure a : KernelM α) :=
  fun s => Or.inl ⟨a, s, rfl⟩

theorem Once.read {f : Kernel → KernelM α} (hf : ∀ s, Once (f s)) :
    Once (MonadState.get >>= f) :=
  fun s => hf s s

theorem Once.ite {c : Prop} [Decidable c] {x y : KernelM α} (hx : Once x) (hy : Once y) :
    Once (if c then x else y) := by
  split
  · exact hx
  · exact hy

theorem Once.after {x : KernelM α} {f : α → KernelM β} (hx : Straight x) (hf : ∀ a, Once (f a)) :
    Once (x >>= f) := by
  intro s
  rcases hx s with ⟨a, s₁, hrun⟩ | hrun
  · rw [Coop.run_bind, hrun, Flow.bind_done]
    exact hf a s₁
  · exact Or.inr (Or.inr (by rw [Coop.run_bind, hrun, Flow.bind_stuck]))

theorem Once.before {x : KernelM α} (hx : Once x) (b : β) : Once (x >>= fun _ => Pure.pure b) := by
  intro s
  rcases hx s with ⟨a, s₁, hrun⟩ | ⟨a, s₁, hrun⟩ | hrun
  · exact Or.inl ⟨b, s₁, by rw [Coop.run_bind, hrun]; rfl⟩
  · exact Or.inr (Or.inl ⟨b, s₁, by rw [Coop.run_bind, hrun]; rfl⟩)
  · exact Or.inr (Or.inr (by rw [Coop.run_bind, hrun, Flow.bind_stuck]))

theorem Straight.modify (f : Kernel → Kernel) : Straight (modify f : KernelM PUnit) :=
  fun s => Or.inl ⟨⟨⟩, f s, rfl⟩

theorem enqueue_straight (pid q : Int) : Straight (enqueue pid q) := by
  intro s
  by_cases hbad : isbadqid q ∨ isbadpid s pid
  · exact Or.inl ⟨syserr, s, by simp [enqueue, hbad]⟩
  · exact Or.inl ⟨pid, _, by simp [enqueue, hbad, onQueues]; rfl⟩

theorem dequeue_straight (q : Int) : Straight (dequeue q) := by
  intro s
  rcases dequeue_done q s with ⟨v, t', hrun⟩
  exact Or.inl ⟨v, _, hrun⟩

theorem insert_straight (pid q key : Int) : Straight (insert pid q key) := by
  intro s
  rcases insert_cases pid q key s with ⟨v, t', hrun⟩ | hrun
  · exact Or.inl ⟨v, _, hrun⟩
  · exact Or.inr hrun

theorem reschedOnce : Once resched := by
  intro s
  rcases resched_once s with ⟨s', hrun⟩ | ⟨s', hrun⟩ | hrun
  · exact Or.inl ⟨(), s', hrun⟩
  · exact Or.inr (Or.inl ⟨(), s', hrun⟩)
  · exact Or.inr (Or.inr hrun)

theorem ready_once (pid : Int) : Once (ready pid) := by
  refine .read fun s => .ite (.pure _) (.after (.modify _) fun _ => ?_)
  exact .after (insert_straight _ _ _) fun _ => reschedOnce.before _

theorem wait_once (sem : Int) : Once (wait sem) := by
  refine .ite (.pure _) (.read fun s => .ite (.pure _) (.after (.modify _) fun _ => .read fun s => ?_))
  refine .ite (.after (.modify _) fun _ => .read fun _ => ?_) (.pure _)
  exact .after (enqueue_straight _ _) fun _ => reschedOnce.before _

theorem signal_once (sem : Int) : Once (signal sem) := by
  refine .ite (.pure _) (.read fun s => .ite (.pure _) (.after (.modify _) fun _ => ?_))
  exact .ite (.after (dequeue_straight _) fun _ => (ready_once _).before _) (.pure _)

/-! ## Looking on -/

/-- Process `p` stays in the table, and its saved context stays saved. -/
structure Outlives (p : Int) (s s' : Kernel) : Prop where
  sleepq : s'.sleepq = s.sleepq
  alive : s.state p ≠ .prFree → s'.state p ≠ .prFree
  saved : s.state p ≠ .prFree → ¬ Fresh s p → ¬ Fresh s' p

instance (p : Int) : IsPreorder Kernel (Outlives p) where
  refl _ := ⟨rfl, id, fun _ h => h⟩
  trans _ _ _ h h' :=
    ⟨h'.sleepq.trans h.sleepq, fun ha => h'.alive (h.alive ha),
      fun ha hf => h'.saved (h.alive ha) (h.saved ha hf)⟩

theorem Outlives.isbadpid {p : Int} (h : Outlives p s s') (hbad : Xinu.isbadpid s' p) :
    Xinu.isbadpid s p := by
  rcases hbad with hneg | hbig | hfree
  · exact Or.inl hneg
  · exact Or.inr (Or.inl hbig)
  · right
    right
    by_contra halive
    exact h.alive halive hfree

theorem outlives_setProc (p : Int) (s : Kernel) (r : Int) {f : Procent → Procent}
    (hf : r = p → ∀ e, e.prstate ≠ .prFree → (f e).prstate ≠ .prFree ∧
      (e.prstkptr ≠ .initial → (f e).prstkptr ≠ .initial)) :
    Outlives p s (s.setProc r f) := by
  refine ⟨rfl, ?_, ?_⟩
  · intro ha
    unfold Kernel.state at ha ⊢
    rw [proctab_setProc]
    split
    · next h =>
        subst h
        exact (hf rfl _ ha).1
    · exact ha
  · intro ha hfresh
    unfold Kernel.state at ha
    unfold Fresh at hfresh ⊢
    rw [proctab_setProc]
    split
    · next h =>
        subst h
        exact (hf rfl _ ha).2 hfresh
    · exact hfresh

theorem outlives_of_eq (p : Int) {s s' : Kernel} (hproc : s'.proctab = s.proctab)
    (hsleepq : s'.sleepq = s.sleepq) : Outlives p s s' := by
  refine ⟨hsleepq, ?_, ?_⟩
  · unfold Kernel.state
    rw [hproc]
    exact id
  · unfold Fresh
    rw [hproc]
    exact fun _ h => h

theorem outlives_deaf (p : Int) : Deaf (Outlives p) := by
  refine ⟨⟨?_, ?_, ?_, ?_, ?_, ?_, ?_, ?_, ?_⟩, ?_, ?_⟩
  · exact fun s _ => outlives_of_eq p rfl rfl
  · exact fun s _ => outlives_of_eq p rfl rfl
  · exact fun s _ => outlives_of_eq p rfl rfl
  · exact fun s _ _ _ => outlives_of_eq p rfl rfl
  · exact fun s r st hst _ => outlives_setProc p s r fun _ e _ => ⟨hst, id⟩
  · exact fun s r => outlives_setProc p s r fun _ e he => ⟨he, fun _ h => by contradiction⟩
  · exact fun s r n => outlives_setProc p s r fun _ e he => ⟨he, id⟩
  · exact fun s _ _ => outlives_of_eq p rfl rfl
  · exact fun s _ => outlives_of_eq p rfl rfl
  · exact fun s r msg => outlives_setProc p s r fun _ e he => ⟨he, id⟩
  · exact fun s r => outlives_setProc p s r fun _ e he => ⟨he, id⟩

theorem outlives_mayWait (p : Int) : MayWait (Outlives p) :=
  fun s r _ => outlives_setProc p s r fun _ _ _ => ⟨by simp, id⟩

theorem create_outlives (p : Int) (ssize : Nat) (priority : Int16) :
    (create ssize priority).Within (Outlives p) := by
  obtain ⟨size, hsize⟩ : ∃ size, roundew (if ssize < minstk then minstk else ssize) = size :=
    ⟨_, rfl⟩
  rw [create_eq, hsize]
  refine .bind (onHeap_within (fun s _ => outlives_of_eq p rfl rfl) _) fun r s => ?_
  cases r with
  | none => exact refl_of (Outlives p) s
  | some saddr =>
      rcases newpidLoop_run nproc.toNat s with ⟨k, hnew⟩ | ⟨k, pid, hnew, -, hfree⟩
      · simp only [createRest, newpid, Coop.run_bind, hnew, Flow.bind_done]
        exact outlives_of_eq p rfl rfl
      · by_cases hbad : pid = syserr ∨ priority.toInt < 1
        · simp only [createRest, newpid, Coop.run_bind, hnew, Flow.bind_done, hbad, if_true]
          exact outlives_of_eq p rfl rfl
        · simp only [createRest, newpid, Coop.run_bind, hnew, Flow.bind_done, hbad, if_false]
          obtain ⟨s₁, hs₁⟩ : ∃ s₁ : Kernel,
              { s with nextpid := k, prcount := i32 (s.prcount + 1) } = s₁ := ⟨_, rfl⟩
          have hproc : s₁.proctab = s.proctab := by rw [← hs₁]
          have hentry : s.state p ≠ .prFree →
              (s₁.setProc pid fun e => newProcent s₁ e saddr size priority).proctab p =
                s.proctab p := by
            intro ha
            have hne : p ≠ pid := by
              rintro rfl
              exact ha hfree
            rw [proctab_setProc, if_neg hne, hproc]
          have hend : Outlives p s (s₁.setProc pid fun e => newProcent s₁ e saddr size priority) := by
            refine ⟨by rw [← hs₁]; rfl, ?_, ?_⟩
            · intro ha
              unfold Kernel.state
              rw [hentry ha]
              exact ha
            · intro ha hfresh
              unfold Fresh
              rw [hentry ha]
              exact hfresh
          rw [← hs₁] at hend
          exact hend

theorem kill_outlives {p pid : Int} (hne : pid ≠ p) : (kill pid).Within (Outlives p) := by
  apply kill_within (outlives_deaf p)
  · exact fun s _ => outlives_of_eq p rfl rfl
  · exact fun s _ => outlives_of_eq p rfl rfl
  · exact fun s => outlives_setProc p s pid fun h => (hne h).elim

/-- The call is not a kill of process `p`. -/
def Spares (c : KCall) (p : Int) : Prop :=
  ∀ pid, c = .kill pid → pid.toInt ≠ p

/-- Only a kill of a process removes it from the table. -/
theorem exec_outlives (s : Kernel) (c : KCall) :
    kernelMachine.Obeys (fun seg => ∀ p, Spares c p → Outlives p seg.before seg.after) c
      (kernelMachine.exec c s) false s := by
  have hall : ∀ p, c.exec.Within (Outlives p) → kernelMachine.Obeys
      (fun seg => Spares c p → Outlives p seg.before seg.after) c (c.exec s) false s := by
    intro p hx
    apply Machine.obeys_within (hx s)
    · exact fun s' o hr _ => hr
    · exact fun s' s'' o hr _ => hr
  apply Machine.Obeys.forall
  intro p
  by_cases hspares : Spares c p
  swap
  · exact Machine.obeys_all (fun _ _ h => (hspares h).elim) _ _ _
  by_cases hprocs : KeepsProcs c
  · exact hall p (exec_within (outlives_deaf p) hprocs fun _ => outlives_mayWait p)
  · cases c with
    | create ssize priority => exact hall p (create_outlives p _ _)
    | kill pid => exact hall p (kill_outlives (hspares pid rfl))
    | _ => exact (hprocs trivial).elim

/-! ## Calm stretches -/

/-- The message slots hold what they held, too. -/
structure Calm (s s' : Kernel) : Prop where
  mail : mailView s' = mailView s
  outlives : ∀ p, Outlives p s s'

instance : IsPreorder Kernel Calm where
  refl s := ⟨rfl, fun p => refl_of (Outlives p) s⟩
  trans _ _ _ h h' := ⟨h'.mail.trans h.mail, fun p => trans_of (Outlives p) (h.outlives p) (h'.outlives p)⟩

theorem calm_blind : Blind Calm := by
  have hmail := mailView_blind
  have hout := fun p => (outlives_deaf p).toBlind
  constructor
  · exact fun s t => ⟨hmail.queuetab s t, fun p => (hout p).queuetab s t⟩
  · exact fun s r => ⟨hmail.currpid s r, fun p => (hout p).currpid s r⟩
  · exact fun s d => ⟨hmail.defer s d, fun p => (hout p).defer s d⟩
  · exact fun s i j k => ⟨hmail.clock s i j k, fun p => (hout p).clock s i j k⟩
  · exact fun s r st hst hw => ⟨hmail.state s r st hst hw, fun p => (hout p).state s r st hst hw⟩
  · exact fun s r => ⟨hmail.context s r, fun p => (hout p).context s r⟩
  · exact fun s r n => ⟨hmail.prio s r n, fun p => (hout p).prio s r n⟩
  · exact fun s x f => ⟨hmail.semtab s x f, fun p => (hout p).semtab s x f⟩
  · exact fun s k => ⟨hmail.nextsem s k, fun p => (hout p).nextsem s k⟩

theorem calm_mayWait : MayWait Calm :=
  fun s r x => ⟨mailView_mayWait s r x, fun p => outlives_mayWait p s r x⟩

/-- Every stretch of the call is calm. -/
theorem Lends.calm {x : KernelM α} (hx : Lends me x) (hw : x.Within Calm) (hs : s.currpid = me) :
    (x s).Stretches (fun s => s.currpid = me) (fun s s' => ¬ Fresh s' me ∧ Calm s s')
      (fun _ s s' => s'.currpid = me ∧ Calm s s') s :=
  (hx s hs).within (hw s)

/-! ## Taking a message -/

/-- Process `me` took its message, if it had one. -/
structure Took (me : Int) (s s' : Kernel) : Prop where
  mail : ∀ p, mailbox s' p = if p = me then [] else mailbox s p
  outlives : ∀ p, Outlives p s s'

theorem took_setProc (me : Int) (s : Kernel) :
    Took me s (s.setProc me fun e => { e with prhasmsg := false }) :=
  ⟨mailbox_take s me, fun p => (outlives_deaf p).taken s me⟩

theorem took_of_empty (hempty : mailbox s me = []) (h : Calm s s') : Took me s s' := by
  refine ⟨?_, h.outlives⟩
  intro p
  rw [mailbox_congr (congrFun h.mail p)]
  split
  · next heq => rw [heq, hempty]
  · rfl

theorem Took.calm (h : Took me s s') (hcalm : Calm s' s₁) : Took me s s₁ := by
  refine ⟨?_, fun p => trans_of (Outlives p) (h.outlives p) (hcalm.outlives p)⟩
  intro p
  rw [mailbox_congr (congrFun hcalm.mail p)]
  exact h.mail p

/-- `recvclr` leaves its caller without a message. -/
theorem recvclr_took (s : Kernel) :
    ∃ v s', recvclr s = .done v s' ∧ s'.currpid = s.currpid ∧ Took s.currpid s s' := by
  by_cases hmail : HasMessage s s.currpid
  · refine ⟨(s.proctab s.currpid).prmsg,
      s.setProc s.currpid fun e => { e with prhasmsg := false }, ?_, rfl, took_setProc _ s⟩
    unfold HasMessage at hmail
    simp [recvclr, hmail]
  · refine ⟨ok, s, ?_, rfl, took_of_empty (mailbox_of_not hmail) (refl_of Calm s)⟩
    unfold HasMessage at hmail
    simp [recvclr, hmail]

/-- What a call of `recvtime` returns. -/
def Answers (me v : Int) (s s' : Kernel) : Prop :=
  s'.currpid = me ∧
    ((mailbox s me = [v] ∧ Took me s s') ∨
      mailbox s me = [] ∧ Calm s s' ∧ (v = timeout ∨ v = syserr ∧ (isbadqid s.sleepq ∨ isbadpid s me)))

theorem recvtimeTail_answers (hs : s'.currpid = me) (hcalm : Calm s s') :
    ∃ v s₁, recvtimeTail me s' = .done v s₁ ∧ Answers me v s s₁ := by
  have hmailbox : mailbox s' me = mailbox s me := mailbox_congr (congrFun hcalm.mail me)
  by_cases hmail : HasMessage s' me
  · refine ⟨(s'.proctab me).prmsg, s'.setProc me fun e => { e with prhasmsg := false }, ?_, hs,
      Or.inl ⟨?_, ?_⟩⟩
    · unfold HasMessage at hmail
      simp only [recvtimeTail, Coop.run_bind, Coop.run_get, Flow.bind_done, Coop.run_ite, hmail,
        if_true, Coop.run_modify, Coop.run_pure]
    · rw [← hmailbox]
      exact mailbox_of_hasMessage hmail
    · have htook := took_setProc me s'
      refine ⟨?_, fun p => trans_of (Outlives p) (hcalm.outlives p) (htook.outlives p)⟩
      intro p
      rw [htook.mail p, mailbox_congr (congrFun hcalm.mail p)]
  · refine ⟨timeout, s', ?_, hs, Or.inr ⟨?_, hcalm, Or.inl rfl⟩⟩
    · unfold HasMessage at hmail
      simp [recvtimeTail, hmail]
    · rw [← hmailbox]
      exact mailbox_of_not hmail

/-- While `recvtime` waits, its caller has no message; and it returns the message that
has come, or else `TIMEOUT`. -/
theorem recvtime_stretches {maxwait : Int} (hpos : 0 ≤ maxwait) (hs : s.currpid = me) :
    (recvtime maxwait s).Stretches (fun s => s.currpid = me)
      (fun s s' => ¬ Fresh s' me ∧ mailbox s me = [] ∧ Calm s s') (Answers me) s := by
  by_cases hmail : HasMessage s s.currpid
  · rw [recvtime_pass hpos hmail, hs]
    obtain ⟨v, s₁, hrun, hanswers⟩ := recvtimeTail_answers hs (refl_of Calm s)
    rw [hrun]
    exact hanswers
  have hempty : mailbox s me = [] := hs ▸ mailbox_of_not hmail
  have hflag : (s.proctab s.currpid).prhasmsg = false := by
    unfold HasMessage at hmail
    simpa using hmail
  have hneg : ¬ maxwait < 0 := by omega
  rcases insertd_cases s.currpid s.sleepq maxwait s with ⟨hbad, hins⟩ | ⟨t', hins⟩ | hins
  · have hrun : recvtime maxwait s = .done syserr s := by simp [recvtime, hneg, hflag, hins]
    rw [hrun]
    rw [hs] at hbad
    exact ⟨hs, Or.inr ⟨hempty, refl_of Calm s, Or.inr ⟨rfl, hbad⟩⟩⟩
  · obtain ⟨s', hs'⟩ : ∃ s', { s with queuetab := t' }.setState s.currpid .prRectim = s' :=
      ⟨_, rfl⟩
    have hne : ok ≠ syserr := by decide
    have hrun : recvtime maxwait s = (resched s').bind fun _ => recvtimeTail s.currpid := by
      simp [recvtime, recvtimeTail, hneg, hflag, hins, hne, hs']
    have hcalm : Calm s s' := by
      rw [← hs']
      apply trans_of Calm (calm_blind.queuetab s t')
      exact calm_blind.state _ _ _ (by decide) (by decide)
    have hcur : s'.currpid = me := by
      rw [← hs', ← hs]
      rfl
    have hstretches := resched_lends.calm (resched_within calm_blind) hcur
    rw [hrun, hs]
    rcases resched_once s' with ⟨s₁, hres⟩ | ⟨s₁, hres⟩ | hres
    · rw [hres] at hstretches ⊢
      obtain ⟨v, s₂, hrun', hanswers⟩ :=
        recvtimeTail_answers hstretches.1 (trans_of Calm hcalm hstretches.2)
      rw [Flow.bind_done, hrun']
      exact hanswers
    · rw [hres] at hstretches ⊢
      refine ⟨⟨hstretches.1.1, hempty, trans_of Calm hcalm hstretches.1.2⟩, ?_⟩
      intro s₂ hs₂
      obtain ⟨v, s₃, hrun', hanswers⟩ := recvtimeTail_answers hs₂ (refl_of Calm s₂)
      change Flow.Stretches _ _ _ s₂ (recvtimeTail me s₂)
      rw [hrun']
      exact hanswers
    · rw [hres]
      trivial
  · have hrun : recvtime maxwait s = .stuck := by simp [recvtime, hneg, hflag, hins]
    rw [hrun]
    trivial

theorem recvtime_lends (maxwait : Int) : Lends me (recvtime maxwait) := by
  intro s hs
  by_cases hneg : maxwait < 0
  · have hrun : recvtime maxwait s = .done syserr s := by simp [recvtime, hneg]
    rw [hrun]
    exact hs
  · apply (recvtime_stretches (by omega) hs).mono
    · exact fun _ h => h.1
    · exact fun _ _ h => h.1
    · exact fun _ _ _ h => h.1
    · exact fun _ _ _ _ h => h.1

/-- The state in which the message was passed to process `pid`, if it is accepted. -/
def sent (s : Kernel) (pid msg : Int) : Kernel :=
  if Accepts s pid then placed s pid msg else s

/-- All that `send` does beyond passing the message is calm. -/
theorem send_calm (s : Kernel) (pid msg : Int) :
    (send pid msg s).Within Calm (sent s pid msg) := by
  rw [send_eq]
  unfold sent
  by_cases hacc : Accepts s pid
  · have hnot : ¬ (isbadpid s pid ∨ (s.proctab pid).prhasmsg = true) := by
      intro h
      rcases h with hbad | hmail
      · exact hacc.1 hbad
      · exact hacc.2 hmail
    obtain ⟨x, hwake, hwithin⟩ := wake_eq (s.state pid) pid
    rw [if_neg hnot, if_pos hacc, hwake]
    exact (hwithin calm_blind _).bind fun _ => .pure _
  · have hbad : isbadpid s pid ∨ (s.proctab pid).prhasmsg = true := by
      by_contra hnot
      exact hacc ⟨fun hb => hnot (Or.inl hb), fun hm => hnot (Or.inr hm)⟩
    rw [if_pos hbad, if_neg hacc]
    exact refl_of Calm s

theorem sent_outlives (s : Kernel) (pid msg p : Int) : Outlives p s (sent s pid msg) := by
  unfold sent
  split
  · exact (outlives_deaf p).passed s pid msg
  · exact refl_of (Outlives p) s

/-- A message was passed or not, and the rest is calm. -/
theorem outlives_of_sent {c : Prop} [Decidable c] {s s' : Kernel} {pid msg : Int}
    (h : Calm (if c then sent s pid msg else s) s') (p : Int) : Outlives p s s' := by
  apply trans_of (Outlives p) _ (h.outlives p)
  split
  · exact sent_outlives s pid msg p
  · exact refl_of (Outlives p) s

theorem mailbox_sent (s : Kernel) (pid msg p : Int) :
    mailbox (sent s pid msg) p = if Accepts s pid ∧ p = pid then [msg] else mailbox s p := by
  unfold sent
  by_cases hacc : Accepts s pid
  · rw [if_pos hacc, mailbox_placed]
    simp [hacc]
  · rw [if_neg hacc, if_neg fun h => hacc h.1]

/-! ## In a larger state -/

/-- A procedure of the kernel changes nothing but the kernel. -/
theorem onKernel_stretches {τ : Type} [HasCpu τ] {t : τ} {x : KernelM α}
    {q : Kernel → Kernel → Prop} {post : α → Kernel → Kernel → Prop}
    (hx : (x (kernelOf t)).Stretches (fun s => s.currpid = me) q post (kernelOf t)) :
    ((onKernel x : Coop τ α) t).Stretches (fun t => (kernelOf t).currpid = me)
      (fun t t' => q (kernelOf t) (kernelOf t') ∧ t' = withKernel t (kernelOf t'))
      (fun a t t' => post a (kernelOf t) (kernelOf t') ∧ t' = withKernel t (kernelOf t')) t := by
  rw [run_onKernel]
  exact Flow.Stretches.zoom kernelOf_withKernel hx

section Calls

variable {τ κ : Type} [HasCpu τ]

/-- The segment of a kernel call, as the kernel sees it. -/
def kernelSegment (c : KCall) (seg : Segment τ κ) : Segment Kernel KCall :=
  ⟨seg.who, c, seg.resumed, kernelOf seg.before, seg.outcome, kernelOf seg.after⟩

/-- What a segment of a kernel call does in a larger state. -/
structure KernelEffect (c : KCall) (seg : Segment τ κ) : Prop where
  after : ∃ s, seg.after = withKernel seg.before s
  mail : MailOk (kernelSegment c seg)
  outlives : ∀ p, Spares c p → Outlives p (kernelOf seg.before) (kernelOf seg.after)

/-- The segments of a kernel call in a machine that has the kernel as a part. -/
theorem onKernel_obeys {N : Machine τ κ} (hcur : ∀ t, N.current t = (kernelOf t).currpid)
    (embed : KCall → κ) (c : KCall) (t : τ) :
    N.Obeys (KernelEffect c) (embed c) ((onKernel c.exec : Coop τ Int) t) false t := by
  have hin : Machine.Inside kernelMachine N kernelOf withKernel := ⟨hcur, kernelOf_withKernel⟩
  have hobeys := (exec_obeys (kernelOf t) c).and (exec_outlives (kernelOf t) c)
  rw [run_onKernel]
  apply Machine.Obeys.zoom hin _ hobeys
  intro b t s o h
  refine ⟨⟨s, rfl⟩, ?_, ?_⟩
  · unfold kernelSegment
    rw [kernelOf_withKernel, hcur]
    exact h.1
  · rw [kernelOf_withKernel]
    exact h.2

/-- What a call of the kernel puts into the mailbox of another process. -/
theorem KernelEffect.mailbox_cases {c : KCall} {seg : Segment τ κ} {p : Int}
    (h : KernelEffect c seg) (hne : p ≠ seg.who) (hused : (kernelOf seg.before).state p ≠ .prFree) :
    mailbox (kernelOf seg.after) p = mailbox (kernelOf seg.before) p ∨
      ∃ m ∈ passed p (kernelSegment c seg), mailbox (kernelOf seg.before) p = [] ∧
        mailbox (kernelOf seg.after) p = [m] := by
  have hbalance := h.mail.balance p hused
  rw [taken_of_other (Ne.symm hne), List.nil_append] at hbalance
  have hsame : mailbox (kernelOf seg.before) p ++ passed p (kernelSegment c seg) =
      mailbox (kernelOf seg.after) p := hbalance
  cases hp : passed p (kernelSegment c seg) with
  | nil =>
      left
      rw [← hsame, hp, List.append_nil]
  | cons m ms =>
      have hlen : (mailbox (kernelOf seg.after) p).length ≤ 1 := by
        unfold mailbox
        split <;> simp
      rw [← hsame, hp, List.length_append, List.length_cons] at hlen
      have hempty : mailbox (kernelOf seg.before) p = [] := List.length_eq_zero_iff.mp (by omega)
      obtain rfl : ms = [] := List.length_eq_zero_iff.mp (by omega)
      refine Or.inr ⟨m, List.mem_cons_self, hempty, ?_⟩
      rw [← hsame, hp, hempty, List.nil_append]

/-- The call passes no message `OK` to a process that waits, and kills no such process. -/
def Discreet (waits : Int → Prop) (c : KCall) (seg : Segment τ κ) : Prop :=
  match c with
  | .send pid msg =>
      waits pid.toInt → i32 msg.toNat = ok →
        seg.resumed = true ∨ ¬ Accepts (kernelOf seg.before) pid.toInt
  | .kill pid =>
      ¬ waits pid.toInt ∧
        ∀ parent, parent = ((kernelOf seg.before).proctab pid.toInt).prparent →
          waits parent → i32 pid.toInt = ok → seg.resumed = true ∨
            ¬ (Notifies (kernelOf seg.before) pid.toInt parent ∧
              Accepts (kernelOf seg.before) parent)
  | _ => True

instance (waits : Int → Prop) [DecidablePred waits] (c : KCall) (seg : Segment τ κ) :
    Decidable (Discreet waits c seg) :=
  match c with
  | .send _ _ => inferInstanceAs (Decidable (_ → _ → _))
  | .kill pid =>
      decidable_of_iff (¬ waits pid.toInt ∧
        (waits ((kernelOf seg.before).proctab pid.toInt).prparent → i32 pid.toInt = ok →
          seg.resumed = true ∨ ¬ (Notifies (kernelOf seg.before) pid.toInt
            ((kernelOf seg.before).proctab pid.toInt).prparent ∧
              Accepts (kernelOf seg.before)
                ((kernelOf seg.before).proctab pid.toInt).prparent))) <| by
        constructor
        · rintro ⟨hpid, hparent⟩
          refine ⟨hpid, ?_⟩
          rintro parent rfl
          exact hparent
        · exact fun h => ⟨h.1, h.2 _ rfl⟩
  | .receive | .recvclr | .recvtime _ | .create _ _ | .resume _ | .suspend _ | .wait _ | .signal _
  | .signaln _ _ | .semcreate _ | .semdelete _ | .semreset _ _ | .sleepms _ | .yield | .chprio _ _
  | .tick | .ready _ | .reschedCntl _ => instDecidableTrue

theorem Discreet.spares {waits : Int → Prop} {c : KCall} {seg : Segment τ κ} {p : Int}
    (h : Discreet waits c seg) (hwaits : waits p) : Spares c p := by
  rintro pid rfl rfl
  exact h.1 hwaits

theorem Discreet.passed {waits : Int → Prop} {c : KCall} {seg : Segment τ κ} {p m : Int}
    (h : Discreet waits c seg) (hwaits : waits p) (hm : m ∈ passed p (kernelSegment c seg)) :
    i32 m ≠ ok := by
  intro hok
  unfold Xinu.passed kernelSegment at hm
  cases c with
  | send pid msg =>
      dsimp only at hm
      split at hm
      · next hcond =>
          obtain ⟨hfirst, rfl, hacc⟩ := hcond
          rw [List.mem_singleton] at hm
          subst hm
          rcases h hwaits hok with hres | hnot
          · rw [hres] at hfirst
            contradiction
          · exact hnot hacc
      · contradiction
  | kill pid =>
      dsimp only at hm
      split at hm
      · next hcond =>
          obtain ⟨hfirst, hnotifies, hacc⟩ := hcond
          rw [List.mem_singleton] at hm
          subst hm
          rcases h.2 p hnotifies.2.2.symm hwaits hok with hres | hnot
          · rw [hres] at hfirst
            contradiction
          · exact hnot ⟨hnotifies, hacc⟩
      · contradiction
  | _ => contradiction

end Calls

end Xinu
