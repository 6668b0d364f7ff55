import Xinu.Kernel.KillOnce

/-!
# The running process has the highest priority

Whoever calls the kernel, and in whatever order, each return with no deferral
pending leaves the processor with a process that no ready process outranks, and
the ready list sorted by the priorities of its processes.  The exception is
`chprio`, which writes the new priority and neither moves the process on the
ready list nor calls `resched`.

Main results:

- Theorem `scheduled_of_run`: the law, in every run in which each `chprio` leaves
  the priority of a ready process alone and does not put the current process
  below a ready one.
- Theorem `outranked_after_chprio`: a run in which a process promotes another.
-/

namespace Xinu

open Foundations Function

/-- No ready process outranks the current one, and each is on the ready list
under its own priority. -/
structure Scheduled (s : Kernel) : Prop where
  highest : ∀ p, IsPid p → s.state p = .prReady → s.prio p ≤ s.prio s.currpid
  keyed : ∀ p, IsPid p → s.state p = .prReady →
    p ∈ members s.queuetab s.readylist ∧ s.queuetab.qkey p = s.prio p

/-- What the callers of the kernel promise.  `ready` is given a process that is
on no queue, and a receiver only with its message; the count of deferrals does
not overflow; the process that blocks is the running one, and not the null process. -/
def CalledRight (s : Kernel) (c : KCall) : Prop :=
  (match c with
    | .ready pid => isbadpid s pid.toInt ∨ ¬ Queued (s.state pid.toInt) ∧
        (s.state pid.toInt = .prRecv → HasMessage s pid.toInt)
    | .reschedCntl defer => defer.toInt = deferStart → DeferRoom s
    | .signaln _ _ | .semdelete _ | .semreset _ _ | .tick => DeferRoom s
    | _ => True) ∧
  (Blocks s c → MayBlock s)

/-- A change of priority that the ready list need not hear of. -/
def KeepsRank (s : Kernel) : KCall → Prop
  | .chprio pid newprio =>
      (s.state pid.toInt = .prReady → newprio.toInt = s.prio pid.toInt) ∧
        (Settled s → pid.toInt = s.currpid →
          ∀ r, IsPid r → s.state r = .prReady → s.prio r ≤ newprio.toInt)
  | _ => True

/-- The rule of a run: each call is made as its caller promises. -/
def Promised (s : Kernel) (resumed : Bool) (c : KCall) : Prop :=
  resumed = false → CalledRight s c

/-- The rule of a run whose changes of priority keep the order of the ready list. -/
def Ranked (s : Kernel) (resumed : Bool) (c : KCall) : Prop :=
  resumed = false → CalledRight s c ∧ KeepsRank s c

/-- The assumptions of such a run: the keys are right, and calls may be deferred. -/
def ranked : Assumed :=
  ⟨True, True, False⟩

section Runs

variable {s : Kernel} {c : KCall}

/-- What the kernel invariant says where no deferral is pending. -/
theorem Inv.scheduled (h : Inv ranked s) (hnd : s.defer.ndefers = 0) : Scheduled s := by
  have hcons := h.kernelOk.consistent
  constructor
  · exact h.kernelOk.top trivial (Or.inl hnd)
  · intro p hp hready
    have hmem : p ∈ members s.queuetab s.readylist := hcons.ready_iff.mpr ⟨hp, hready⟩
    exact ⟨hmem, hcons.keys trivial p hmem⟩

/-- The two rules together give what each call needs. -/
theorem permitted_of_ranked (hright : CalledRight s c) (hrank : KeepsRank s c) :
    Permitted ranked s c := by
  cases c with
  | kill pid => exact Or.inl trivial
  | chprio pid newprio => exact fun _ => hrank
  | ready pid => exact ⟨id, hright.1⟩
  | reschedCntl defer => exact ⟨id, hright.1⟩
  | signaln sem count => exact hright.1
  | semdelete sem => exact hright.1
  | semreset sem count => exact hright.1
  | tick => exact hright.1
  | _ => trivial

/-- A call that begins as the rules allow keeps the invariant. -/
theorem ranked_keeps (hI : Inv ranked s) (hok : Ranked s false c) :
    kernelMachine.Keeps Ranked (Inv ranked) Doomed SegOk c (kernelMachine.exec c s) false s := by
  obtain ⟨hright, hrank⟩ := hok rfl
  refine exec_keeps hI (permitted_of_ranked hright hrank) hright.2 ?_
  exact fun _ _ _ _ => Or.inl trivial

end Runs

/--
In every run whose callers keep their promises and whose changes of priority
keep the order of the ready list, the current process has the highest priority
wherever no deferral is pending, and the keys of the ready list are the
priorities of its processes: at the end of the run, and where any of its
segments ends, be it by a return or by a context switch.
-/
theorem scheduled_of_run {b : Board} {tr : List (Segment Kernel KCall)} {C : Config Kernel KCall}
    (hrun : kernelMachine.Run Ranked (Machine.initial (boot b)) tr C) :
    (C.state.defer.ndefers = 0 → Scheduled C.state) ∧
      ∀ seg ∈ tr, seg.after.defer.ndefers = 0 → Scheduled seg.after := by
  have hI := (boot_eq b).2.inv ranked
  have hkeeps : ∀ s c, Inv ranked s → Ranked s false c →
      kernelMachine.Keeps Ranked (Inv ranked) Doomed SegOk c (kernelMachine.exec c s) false s :=
    fun _ _ hI hok => ranked_keeps hI hok
  constructor
  · exact (Machine.run_keeps hI (doomed_stays ranked) hkeeps hrun).1.scheduled
  · refine Machine.run_observe
      (P := fun tr _ => ∀ seg ∈ tr, seg.after.defer.ndefers = 0 → Scheduled seg.after)
      hI (doomed_stays ranked) hkeeps (by simp) ?_ hrun
    intro tr seg ih _ hafter _ _ _ seg' hmem hnd
    rcases List.mem_append.mp hmem with hmem | hmem
    · exact ih seg' hmem hnd
    · rw [List.mem_singleton.mp hmem] at hnd ⊢
      exact hafter.scheduled hnd

/-! ## Scripts -/

instance (s : Kernel) : Decidable (DeferRoom s) :=
  inferInstanceAs (Decidable (_ < _))

instance (s : Kernel) : Decidable (MayBlock s) :=
  inferInstanceAs (Decidable (_ ∧ _))

instance (s : Kernel) : Decidable (Settled s) :=
  inferInstanceAs (Decidable (_ ∨ _))

instance (s : Kernel) (c : KCall) : Decidable (CalledRight s c) :=
  match c with
  | .ready _ => inferInstanceAs (Decidable ((_ ∨ ¬ _ ∧ (_ → _)) ∧ (_ → _)))
  | .reschedCntl _ => inferInstanceAs (Decidable ((_ → _) ∧ (_ → _)))
  | .signaln _ _ | .semdelete _ | .semreset _ _ | .tick =>
      inferInstanceAs (Decidable (DeferRoom s ∧ (_ → _)))
  | .create _ _ | .resume _ | .suspend _ | .kill _ | .wait _ | .signal _ | .semcreate _
  | .sleepms _ | .recvtime _ | .receive | .send _ _ | .recvclr | .yield | .chprio _ _ =>
      inferInstanceAs (Decidable (True ∧ (_ → _)))

instance (s : Kernel) (c : KCall) : Decidable (KeepsRank s c) :=
  match c with
  | .chprio _ _ => inferInstanceAs (Decidable ((_ → _) ∧ (_ → _ → ∀ r, IsPid r → _ → _)))
  | .create _ _ | .resume _ | .suspend _ | .kill _ | .wait _ | .signal _ | .signaln _ _
  | .semcreate _ | .semdelete _ | .semreset _ _ | .sleepms _ | .recvtime _ | .receive
  | .send _ _ | .recvclr | .yield | .tick | .ready _ | .reschedCntl _ =>
      instDecidableTrue

instance (s : Kernel) (resumed : Bool) (c : KCall) : Decidable (Promised s resumed c) :=
  inferInstanceAs (Decidable (_ → _))

instance (s : Kernel) (resumed : Bool) (c : KCall) : Decidable (Ranked s resumed c) :=
  inferInstanceAs (Decidable (_ → _ ∧ _))

/-- Process 1 defers rescheduling, makes a process of higher priority ready, raises
its own priority above it, and ends the deferral. -/
def raiseScript : List (Option KCall) :=
  [some (.create 400 20), some (.resume 1), some (.create 400 30), some (.reschedCntl 1),
    some (.ready 2), some (.chprio 1 40), some (.reschedCntl 2)]

theorem scheduled_after_raise :
    ∃ tr C, kernelMachine.Run Ranked (Machine.initial (boot smallBoard)) tr C ∧
      C.state.currpid = 1 ∧ C.state.state 2 = .prReady ∧ C.state.defer.ndefers = 0 ∧
      Scheduled C.state := by
  have hreplay : (kernelMachine.replay Ranked raiseScript []
      (Machine.initial (boot smallBoard))).map (fun r => decide (r.2.state.currpid = 1 ∧
        r.2.state.state 2 = .prReady ∧ r.2.state.defer.ndefers = 0)) = some true := by
    decide +kernel
  obtain ⟨⟨tr, C⟩, hr, hst⟩ := Option.map_eq_some_iff.mp hreplay
  obtain ⟨hcur, hready, hnd⟩ := of_decide_eq_true hst
  have hrun := kernelMachine.replay_run .start hr
  exact ⟨tr, C, hrun, hcur, hready, hnd, (scheduled_of_run hrun).1 hnd⟩

/-- Process 1 makes another process ready and then gives it a higher priority than its own. -/
def promoteScript : List (Option KCall) :=
  [some (.create 400 20), some (.resume 1), some (.create 400 10), some (.resume 2),
    some (.chprio 2 30)]

/-- `chprio` returns while a ready process outranks its caller, and stands on the
ready list under its old priority. -/
theorem outranked_after_chprio :
    ∃ tr C, kernelMachine.Run Promised (Machine.initial (boot smallBoard)) tr C ∧
      (∃ seg ∈ tr.getLast?, seg.call = .chprio 2 30 ∧ seg.outcome = .returned 10) ∧
      C.state.defer.ndefers = 0 ∧ C.state.currpid = 1 ∧ C.state.prio 1 = 20 ∧
      C.state.state 2 = .prReady ∧ C.state.prio 2 = 30 ∧ C.state.queuetab.qkey 2 = 10 ∧
      ¬ Scheduled C.state := by
  have hreplay : (kernelMachine.replay Promised promoteScript []
      (Machine.initial (boot smallBoard))).map (fun r => decide
        ((∃ seg ∈ r.1.getLast?, seg.call = .chprio 2 30 ∧ seg.outcome = .returned 10) ∧
          r.2.state.defer.ndefers = 0 ∧ r.2.state.currpid = 1 ∧ r.2.state.prio 1 = 20 ∧
          r.2.state.state 2 = .prReady ∧ r.2.state.prio 2 = 30 ∧
          r.2.state.queuetab.qkey 2 = 10)) = some true := by
    decide +kernel
  obtain ⟨⟨tr, C⟩, hr, hst⟩ := Option.map_eq_some_iff.mp hreplay
  obtain ⟨hlast, hnd, hcur, hown, hready, hprio, hkey⟩ := of_decide_eq_true hst
  have hrun := kernelMachine.replay_run .start hr
  refine ⟨tr, C, hrun, hlast, hnd, hcur, hown, hready, hprio, hkey, ?_⟩
  intro h
  have hle := h.highest 2 (by decide) hready
  rw [hcur, hprio, hown] at hle
  omega

end Xinu
