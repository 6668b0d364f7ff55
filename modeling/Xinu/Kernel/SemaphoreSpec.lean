import Xinu.Foundations.RotatingSearch
import Xinu.Kernel.SchedulerSpec
import Xinu.Kernel.Semaphore

/-!
# What the semaphore calls do

Each call keeps the kernel invariant and acts on the semaphore table as the
events it stands for.

Main results:

- Theorems `wait_run`, `signal_run`, `signaln_run`, `semcreate_run`,
  `semdelete_run` and `semreset_run`.
-/

namespace Xinu

open Foundations Function

/-- The semaphore is in the table and allocated. -/
def Usable (s : Kernel) (x : Int) : Prop :=
  ¬ isbadsem x ∧ (s.semtab x).sstate ≠ .sFree

instance (s : Kernel) (x : Int) : Decidable (Usable s x) :=
  inferInstanceAs (Decidable (_ ∧ _))

section Views

variable {s s' : Kernel} {x : Int} {e : Sentry}

theorem sstate_ne_sFree {st : SState} : st ≠ .sFree ↔ st = .sUsed := by
  cases st <;> simp

theorem semView_usable (h : Usable s x) :
    semView s x = ⟨true, s.count x, members s.queuetab (s.squeue x)⟩ := by
  unfold semView
  rw [if_neg h.1, if_pos (sstate_ne_sFree.mp h.2)]

theorem queue_semView (hx : ¬ isbadsem x) :
    (semView s x).queue = members s.queuetab (s.squeue x) := by
  unfold semView
  rw [if_neg hx]
  split <;> rfl

/-- What is seen of one entry of the table. -/
def viewEntry (e : Sentry) (l : List Int) : Sem Int :=
  if e.sstate = .sUsed then ⟨true, e.scount, l⟩ else ⟨false, 0, l⟩

/-- Changing one entry of the table and its queue. -/
theorem semView_update (s' : Kernel) (hx : ¬ isbadsem x) (htab : s'.semtab = update s.semtab x e)
    (hsq : e.squeue = s.squeue x)
    (hother : ∀ y, ¬ isbadsem y → y ≠ x →
      members s'.queuetab (s.squeue y) = members s.queuetab (s.squeue y)) :
    semView s' =
      update (semView s) x (viewEntry e (members s'.queuetab (s.squeue x))) := by
  funext y
  by_cases hyx : y = x
  · subst y
    rw [update_self]
    unfold semView viewEntry Kernel.count Kernel.squeue at *
    simp [hx, htab, hsq]
  · rw [update_of_ne hyx]
    unfold semView Kernel.count Kernel.squeue at *
    by_cases hy : isbadsem y
    · simp [hy]
    · simp [hy, htab, hyx, hother y hy hyx]

/-- An update of the queue of semaphore `x` leaves the other semaphores alone. -/
theorem QueueIds.sem_other {t' : QueueTab} {l : List Int} (hids : QueueIds s)
    (hx : ¬ isbadsem x) (hupd : QueueUpdate s.queuetab t' s.nextqid (s.squeue x) l) :
    ∀ y, ¬ isbadsem y → y ≠ x →
      members t' (s.squeue y) = members s.queuetab (s.squeue y) := by
  intro y hy hyx
  refine hupd.other _ (hids.sem y hy) ?_
  intro heq
  exact hyx (hids.sem_inj y x hy hx heq)

end Views

/-! ## Counts -/

section Counts

variable {o : Assumed} {s : Kernel} {hole : Option Int} {x c : Int}

/-- Changing a count leaves the queues and the processes alone. -/
theorem Consistent.setCount (h : Consistent o hole s) : Consistent o hole (s.setCount x c) := by
  refine h.congr ⟨rfl, rfl, rfl, rfl, rfl, rfl, ?_, fun _ => rfl, fun _ => rfl,
    fun _ _ _ => rfl, fun _ => ⟨rfl, rfl⟩⟩
  intro y
  unfold Kernel.squeue Kernel.setCount Kernel.setSem
  by_cases hy : y = x <;> simp [hy]

theorem CountsOk.setCount (h : CountsOk s) (hc : -0x80000000 ≤ c ∧ c < 0x80000000) :
    CountsOk (s.setCount x c) := by
  intro y
  unfold Kernel.count Kernel.setCount Kernel.setSem
  by_cases hy : y = x
  · simp [hy, hc]
  · simp only [ne_eq, hy, not_false_eq_true, update_of_ne]
    exact h y

theorem KernelOk.setCount (h : KernelOk o s) (hc : -0x80000000 ≤ c ∧ c < 0x80000000) :
    KernelOk o (s.setCount x c) :=
  ⟨h.consistent.setCount, h.counts.setCount hc, h.ndefers, h.running, h.top⟩

/-- Changing an entry of the semaphore table, its queue identifier apart. -/
theorem Tame.setSem (s : Kernel) (x : Int) {f : Sentry → Sentry}
    (hf : ∀ e, (f e).squeue = e.squeue) : Tame [] s (s.setSem x f) := by
  refine .of_eq rfl rfl rfl rfl ?_ rfl rfl fun _ h => h
  funext y
  unfold Kernel.squeue Kernel.setSem
  by_cases hy : y = x
  · subst y
    simp [hf]
  · simp [hy]

theorem Tame.setCount (s : Kernel) (x c : Int) : Tame [] s (s.setCount x c) :=
  .setSem s x fun _ => rfl

end Counts

/-! ## wait -/

/-- The call `wait(x)` blocks its caller. -/
def WaitBlocks (s : Kernel) (x : Int) : Prop :=
  Usable s x ∧ i32 (s.count x - 1) < 0

instance (s : Kernel) (x : Int) : Decidable (WaitBlocks s x) :=
  inferInstanceAs (Decidable (_ ∧ _))

/-- The event that `wait(x)` stands for. -/
def waitEvents (s : Kernel) (x : Int) : List (SemEvent Int) :=
  if Usable s x then [.wait x s.currpid] else []

section Runs

variable {o : Assumed} {s : Kernel} {x : Int}

theorem wait_bad (hx : ¬ Usable s x) : wait x s = .done syserr s := by
  unfold Usable at hx
  by_cases hbad : isbadsem x
  · simp [wait, hbad]
  · have hfree : (s.semtab x).sstate = .sFree := by
      by_contra hne
      exact hx ⟨hbad, hne⟩
    simp [wait, hbad, hfree]

/-- `wait` that does not block. -/
theorem wait_pass (hx : Usable s x) (hc : ¬ i32 (s.count x - 1) < 0) :
    wait x s = .done ok (s.setCount x (i32 (s.count x - 1))) := by
  simp [wait, hx.1, hx.2, hc]

/-- A moving process that waits for a semaphore joins its queue. -/
theorem Consistent.enqueueWait {p : Int} (h : Consistent o (some p) s) (hx : ¬ isbadsem x)
    (hst : s.state p = .prWait) (hsem : (s.proctab p).prsem = x) (hp : p ≠ nullproc) :
    ∃ t', enqueue p (s.squeue x) s = .done p { s with queuetab := t' } ∧
      Consistent o none { s with queuetab := t' } ∧
      QueueUpdate s.queuetab t' s.nextqid (s.squeue x) (members s.queuetab (s.squeue x) ++ [p]) ∧
        ∀ i, t'.qkey i = s.queuetab.qkey i := by
  obtain ⟨hpid, hun⟩ := h.loose p rfl
  have hne := h.ids.sem_ne x hx
  have hbad : ¬ isbadpid s p := not_isbadpid hpid (by rw [hst]; decide)
  obtain ⟨t', hrun, hupd, hkey⟩ := enqueue_run h.queues (h.ids.sem x hx) hbad hun
  have hready : members t' s.readylist = members s.queuetab s.readylist :=
    hupd.other _ h.ids.ready hne.1.symm
  have hlist : ∀ r, r ∈ members s.queuetab (s.squeue x) ++ [p] ↔
      r = p ∨ r ∈ members s.queuetab (s.squeue x) := by
    intro r
    simp only [List.mem_append, List.mem_singleton]
    exact Or.comm
  have hhome : Home s (s.squeue x) (s.proctab p).prstate := Or.inr (Or.inr ⟨hst, hne.1, hne.2⟩)
  refine ⟨t', hrun, ?_, hupd, hkey⟩
  have hlink := h.link (e := s.proctab p) hupd hlist hhome ?_
    (fun y hy heq => hsem.trans (h.ids.sem_inj x y hx hy heq)) ⟨rfl, rfl⟩ (fun heq => (hp heq).elim)
    ?_ ?_
  · rwa [update_eq_self] at hlink
  · intro _ _
    rw [hsem]
    exact ⟨hx, rfl⟩
  · rw [hready]
    refine h.sorted.imp ?_
    intro a b hab
    rw [hkey a, hkey b]
    exact hab
  · intro hk r hr
    rw [hready] at hr
    have hrp : r ≠ p := by
      rintro rfl
      exact hun _ h.ids.ready hr
    rw [hkey r, if_neg hrp]
    exact h.keys hk r hr

/-- Before it reschedules, a `wait` that blocks puts its caller on the queue. -/
theorem wait_block (h : KernelOk o s) (hx : WaitBlocks s x) (hcur : s.state s.currpid = .prCurr)
    (hnull : s.currpid ≠ nullproc) :
    ∃ s₂, wait x s = (resched s₂).bind (fun _ => pure ok) ∧ Consistent o none s₂ ∧
      CountsOk s₂ ∧ Frame [.wait x s.currpid] [] s s₂ ∧ s₂.currpid = s.currpid ∧
        s₂.defer = s.defer ∧
          ∀ r, s₂.state r = if r = s.currpid then .prWait else s.state r := by
  obtain ⟨husable, hneg⟩ := hx
  have hpid := h.consistent.pid
  have hun := h.consistent.unlinked (p := s.currpid) (by rw [hcur]; decide)
  have hopen : Consistent o (some s.currpid) ((s.setCount x (i32 (s.count x - 1))).setProc s.currpid
      fun e => { e with prstate := .prWait, prsem := x }) :=
    ((h.consistent.openLoose hpid hun).setCount).setProc fun hp => h.consistent.stack _ hp
  have hstate : ∀ r, ((s.setCount x (i32 (s.count x - 1))).setProc s.currpid
      fun e => { e with prstate := .prWait, prsem := x }).state r =
        if r = s.currpid then .prWait else s.state r := by
    intro r
    unfold Kernel.state
    rw [proctab_setProc]
    split <;> rfl
  have hsq : ((s.setCount x (i32 (s.count x - 1))).setProc s.currpid
      fun e => { e with prstate := .prWait, prsem := x }).squeue x = s.squeue x := by
    simp [Kernel.squeue, Kernel.setProc, Kernel.setCount, Kernel.setSem]
  obtain ⟨t', henq, hcons, hupd, hkey⟩ := hopen.enqueueWait husable.1 (by rw [hstate, if_pos rfl])
    (by rw [proctab_setProc, if_pos rfl]) hnull
  rw [hsq] at henq hupd
  change QueueUpdate s.queuetab t' s.nextqid _ (members s.queuetab _ ++ _) at hupd
  refine ⟨_, ?_, hcons, ?_, ⟨?_, ?_⟩, rfl, rfl, hstate⟩
  · simp [wait, husable.1, husable.2, hneg, henq]
  · exact h.counts.setCount (i32_range _)
  · rw [semView_update _ (e := { s.semtab x with scount := i32 (s.count x - 1) }) husable.1 rfl rfl
      (h.consistent.ids.sem_other husable.1 hupd)]
    have hused := sstate_ne_sFree.mp husable.2
    simp [SemEvent.applyAll, SemEvent.apply, SemEvent.sem, SemEvent.effect, Sem.wait,
      semView_usable husable, viewEntry, hused, hneg, hupd.self]
  · refine .of_update h.consistent.ids hupd (Or.inr (Or.inr ⟨x, husable.1, rfl⟩)) rfl rfl rfl rfl
      ?_ ?_ ?_ ?_ ?_
    · exact (Tame.setCount s x _).squeue
    · exact alarmList_of_update h.consistent.ids rfl rfl hupd
        (h.consistent.ids.sem_ne x husable.1).2.symm fun i _ => hkey i
    · intro r _ hne
      refine ⟨(hstate r).trans ?_, hne⟩
      rw [if_neg (Ne.symm hne)]
    · exact fun r hr => (hasMessage_setProc
        (f := fun e => { e with prstate := .prWait, prsem := x }) (fun _ => rfl) _ _ r).mpr hr
    · intro r hr
      have hrc : r ≠ s.currpid := by
        rintro rfl
        rw [hr.1] at hcur
        contradiction
      refine ⟨(hstate r).trans (by rw [if_neg hrc]; exact hr.1), ?_⟩
      intro y hy heq hin
      rcases List.mem_append.mp hin with hin | hin
      · exact hr.2 x husable.1 hin
      · exact hrc (List.mem_singleton.mp hin)

/-- `wait` keeps the invariant, if a caller that it blocks may be blocked. -/
theorem wait_run (h : KernelOk o s)
    (hblock : WaitBlocks s x → s.state s.currpid = .prCurr ∧ s.currpid ≠ nullproc) :
    ∃ v s₁, Flow.Lands (wait x s) v s₁ ∧ KernelOk o s₁ ∧ Frame (waitEvents s x) [] s s₁ ∧
      s₁.defer.ndefers = s.defer.ndefers := by
  by_cases hx : Usable s x
  · have hev : waitEvents s x = [.wait x s.currpid] := if_pos hx
    rw [hev]
    by_cases hneg : i32 (s.count x - 1) < 0
    · obtain ⟨hcur, hnull⟩ := hblock ⟨hx, hneg⟩
      obtain ⟨s₂, heq, hcons, hc, hframe, -, hdefer, -⟩ := wait_block h ⟨hx, hneg⟩ hcur hnull
      obtain ⟨s₁, hres, hok, hframe', hnd⟩ :=
        resched_run hcons hc (by rw [hdefer]; exact h.ndefers)
      refine ⟨ok, s₁, ?_, hok, hframe.trans hframe', by rw [hnd, hdefer]⟩
      rw [heq]
      exact hres.lands.bind_pure fun _ => rfl
    · refine ⟨ok, _, .done (wait_pass hx hneg), h.setCount (i32_range _), ⟨?_, ?_⟩, rfl⟩
      · refine (semView_update (s.setCount x (i32 (s.count x - 1)))
          (e := { s.semtab x with scount := i32 (s.count x - 1) }) hx.1 rfl rfl
          fun _ _ _ => rfl).trans ?_
        have hused := sstate_ne_sFree.mp hx.2
        simp [SemEvent.applyAll, SemEvent.apply, SemEvent.sem, SemEvent.effect, Sem.wait,
          semView_usable hx, viewEntry, hused, hneg]
      · exact .setCount s x _
  · have hev : waitEvents s x = [] := if_neg hx
    rw [hev]
    exact ⟨syserr, s, .done (wait_bad hx), h, .refl s, rfl⟩

/-! ## Releasing a waiter -/

/-- The first waiter of a semaphore leaves the queue and waits no more. -/
theorem Consistent.takeFirst {p : Int} {m : List Int} {t' : QueueTab} (h : Consistent o none s)
    (hx : ¬ isbadsem x) (hm : members s.queuetab (s.squeue x) = p :: m)
    (hupd : QueueUpdate s.queuetab t' s.nextqid (s.squeue x) m)
    (hun : Unlinked t' s.nextqid p) (hkey : ∀ i, t'.qkey i = s.queuetab.qkey i) :
    Consistent o (some p) ({ s with queuetab := t' }.setState p .prSusp) ∧
      (IsPid p ∧ s.state p = .prWait) ∧ Tame [] s ({ s with queuetab := t' }.setState p .prSusp) ∧
        semView ({ s with queuetab := t' }.setState p .prSusp) =
          update (semView s) x { semView s x with queue := (semView s x).queue.tail } := by
  have hmem : p ∈ members s.queuetab (s.squeue x) := by rw [hm]; simp
  have herase : (members s.queuetab (s.squeue x)).erase p = m := by
    rw [hm, List.erase_cons_head]
  have hwait := h.wait_of_mem hx hmem
  have hopen : Consistent o (some p) { s with queuetab := t' } :=
    h.unlink hmem (herase.symm ▸ hupd) hun fun i _ => hkey i
  have hstate : ∀ r, ({ s with queuetab := t' }.setState p .prSusp).state r =
      if r = p then .prSusp else s.state r := fun r => state_setState _ _ _ _
  have hother : ∀ r, s.state r ≠ .prWait →
      ({ s with queuetab := t' }.setState p .prSusp).state r = s.state r := by
    intro r hr
    have hrp : r ≠ p := by
      rintro rfl
      exact hr hwait
    rw [hstate, if_neg hrp]
  refine ⟨hopen.setState, ⟨h.isPid hmem, hwait⟩, ?_, ?_⟩
  · refine .of_update h.ids hupd (Or.inr (Or.inr ⟨x, hx, rfl⟩)) rfl rfl rfl rfl rfl ?_ ?_ ?_ ?_
    · exact alarmList_of_update h.ids rfl rfl hupd (h.ids.sem_ne x hx).2.symm fun i _ => hkey i
    · intro r hr hcur
      refine ⟨hother r ?_, hcur⟩
      rcases hr with hr | hr <;> rw [hr] <;> decide
    · exact fun r hr => (hasMessage_setState _ p r .prSusp).mpr hr
    · intro r hr
      have hrp : r ≠ p := by
        rintro rfl
        exact hr.2 x hx hmem
      rw [hstate, if_neg hrp]
      refine ⟨hr.1, fun y hy heq hin => ?_⟩
      apply hr.2 x hx
      rw [hm]
      exact List.mem_cons_of_mem p hin
  refine (semView_update ({ s with queuetab := t' }.setState p .prSusp) (e := s.semtab x) hx (update_eq_self x s.semtab).symm rfl
    (h.ids.sem_other hx hupd)).trans ?_
  congr 1
  unfold semView viewEntry Kernel.count
  rw [if_neg hx]
  split <;> simp [hm, hupd.self]

/-- Without a waiter, dropping the first one changes nothing. -/
theorem semView_tail_nil (hx : ¬ isbadsem x) (hm : members s.queuetab (s.squeue x) = []) :
    semView s = update (semView s) x { semView s x with queue := (semView s x).queue.tail } := by
  have hq : (semView s x).queue = [] := (queue_semView hx).trans hm
  rw [hq]
  funext y
  by_cases hy : y = x
  · subst y
    rw [update_self]
    cases hv : semView s x
    rw [hv] at hq
    simpa using hq
  · rw [update_of_ne hy]

theorem ready_empty (s : Kernel) : ready empty s = .done syserr s := by
  have hbad : isbadpid s empty := Or.inl (by decide)
  simp [ready, hbad]

/-- Taking the first waiter, if there is one, and making it ready. -/
theorem release_run (h : KernelOk o s) (hx : ¬ isbadsem x) :
    ∃ v s₁, Flow.Lands ((dequeue (s.squeue x) >>= ready) s) v s₁ ∧ KernelOk o s₁ ∧
      Tame [] s s₁ ∧ s₁.defer.ndefers = s.defer.ndefers ∧
      semView s₁ = update (semView s) x { semView s x with queue := (semView s x).queue.tail } := by
  have hq := h.consistent.ids.sem x hx
  cases hm : members s.queuetab (s.squeue x) with
  | nil =>
      have hrun : (dequeue (s.squeue x) >>= ready) s = .done syserr s := by
        simp [dequeue_run_nil h.consistent.queues hq hm, ready_empty]
      exact ⟨syserr, s, .done hrun, h, .refl s, rfl, semView_tail_nil hx hm⟩
  | cons p m =>
      obtain ⟨t', hdeq, hupd, hun, hkey⟩ := dequeue_run_cons h.consistent.queues hq hm
      obtain ⟨hopen, ⟨hpid, hwait⟩, htame, hview⟩ := h.consistent.takeFirst hx hm hupd hun hkey
      have hsusp : ({ s with queuetab := t' }.setState p .prSusp).state p = .prSusp := by
        rw [state_setState, if_pos rfl]
      obtain ⟨s₁, hlands, hok, hframe, hnd, -⟩ := ready_run hopen (by rw [hsusp]; decide)
        (by rw [hsusp]; decide) (fun hst => by rw [hsusp] at hst; contradiction) h.counts h.ndefers
      refine ⟨ok, s₁, ?_, hok, htame.trans hframe.tame, hnd, hframe.sems.trans hview⟩
      have hlive : ({ s with queuetab := t' } : Kernel).state p ≠ .prFree := by
        show s.state p ≠ .prFree
        rw [hwait]
        decide
      rw [ready_setState hpid hlive (by decide)] at hlands
      simpa [hdeq] using hlands

/-- The procedure `take` removes the first waiter of `x`, or returns `EMPTY`. -/
structure TakesFirst (s : Kernel) (x : Int) (take : KernelM Int) : Prop where
  nil : members s.queuetab (s.squeue x) = [] → take s = .done empty s
  cons : ∀ p m, members s.queuetab (s.squeue x) = p :: m →
    ∃ t', take s = .done p { s with queuetab := t' } ∧
      QueueUpdate s.queuetab t' s.nextqid (s.squeue x) m ∧ Unlinked t' s.nextqid p ∧
      ∀ i, t'.qkey i = s.queuetab.qkey i

theorem KernelOk.dequeue_takesFirst (h : KernelOk o s) (hx : ¬ isbadsem x) :
    TakesFirst s x (dequeue (s.squeue x)) :=
  ⟨fun hm => dequeue_run_nil h.consistent.queues (h.consistent.ids.sem x hx) hm,
    fun _ _ hm => dequeue_run_cons h.consistent.queues (h.consistent.ids.sem x hx) hm⟩

theorem KernelOk.getfirst_takesFirst (h : KernelOk o s) (hx : ¬ isbadsem x) :
    TakesFirst s x (getfirst (s.squeue x)) :=
  ⟨fun hm => getfirst_run_nil h.consistent.queues (h.consistent.ids.sem x hx) hm,
    fun _ _ hm => getfirst_run_cons h.consistent.queues (h.consistent.ids.sem x hx) hm⟩

/-- Taking the first waiter while rescheduling is deferred. -/
theorem release_run_deferred {take : KernelM Int} (h : KernelOk o s) (hx : ¬ isbadsem x)
    (htake : TakesFirst s x take) (hn : 0 < s.defer.ndefers) :
    ∃ v s₁, (take >>= ready) s = .done v s₁ ∧ KernelOk o s₁ ∧ Tame [] s s₁ ∧
      s₁.defer.ndefers = s.defer.ndefers ∧ s₁.semtab = s.semtab ∧
      semView s₁ = update (semView s) x { semView s x with queue := (semView s x).queue.tail } := by
  cases hm : members s.queuetab (s.squeue x) with
  | nil =>
      have hrun : (take >>= ready) s = .done syserr s := by
        simp [htake.nil hm, ready_empty]
      exact ⟨syserr, s, hrun, h, .refl s, rfl, rfl, semView_tail_nil hx hm⟩
  | cons p m =>
      obtain ⟨t', hrun, hupd, hun, hkey⟩ := htake.cons p m hm
      obtain ⟨hopen, ⟨hpid, hwait⟩, htame, hview⟩ := h.consistent.takeFirst hx hm hupd hun hkey
      have hsusp : ({ s with queuetab := t' }.setState p .prSusp).state p = .prSusp := by
        rw [state_setState, if_pos rfl]
      obtain ⟨s₁, hready, hok, hframe, hnd, htab, -⟩ := ready_run_deferred hopen
        (by rw [hsusp]; decide) (by rw [hsusp]; decide)
        (fun hst => by rw [hsusp] at hst; contradiction) h.counts hn
      refine ⟨ok, s₁, ?_, hok, htame.trans hframe.tame, hnd, htab, hframe.sems.trans hview⟩
      have hlive : ({ s with queuetab := t' } : Kernel).state p ≠ .prFree := by
        show s.state p ≠ .prFree
        rw [hwait]
        decide
      rw [ready_setState hpid hlive (by decide)] at hready
      simpa [hrun] using hready

/-! ## signal and signaln -/

/-- The event that `signal(x)` stands for. -/
def signalEvents (s : Kernel) (x : Int) : List (SemEvent Int) :=
  if Usable s x then [.signal x] else []

/-- The count of a usable semaphore after a change. -/
theorem semView_setCount {c : Int} (hx : Usable s x) :
    semView (s.setCount x c) = update (semView s) x { semView s x with count := c } := by
  refine (semView_update (s.setCount x c) (e := { s.semtab x with scount := c }) hx.1 rfl rfl
    fun _ _ _ => rfl).trans ?_
  rw [semView_usable hx]
  have hused := sstate_ne_sFree.mp hx.2
  simp [viewEntry, hused]

theorem Usable.setCount {c y : Int} (hx : Usable s x) : Usable (s.setCount y c) x :=
  ⟨hx.1, by rw [sstate_setCount]; exact hx.2⟩

/-- A signal, as a change of the count followed by a release. -/
theorem semView_signal (hx : Usable s x) :
    SemEvent.applyAll i32 (semView s) [.signal x] =
      if s.count x < 0 then
        update (semView (s.setCount x (i32 (s.count x + 1)))) x
          { semView (s.setCount x (i32 (s.count x + 1))) x with
            queue := (semView (s.setCount x (i32 (s.count x + 1))) x).queue.tail }
      else semView (s.setCount x (i32 (s.count x + 1))) := by
  rw [semView_setCount hx]
  by_cases hneg : s.count x < 0
  · simp [SemEvent.applyAll, SemEvent.apply, SemEvent.sem, SemEvent.effect, Sem.signal,
      semView_usable hx, hneg]
  · simp [SemEvent.applyAll, SemEvent.apply, SemEvent.sem, SemEvent.effect, Sem.signal,
      semView_usable hx, hneg]

theorem signal_bad (hx : ¬ Usable s x) : signal x s = .done syserr s := by
  unfold Usable at hx
  by_cases hbad : isbadsem x
  · simp [signal, hbad]
  · have hfree : (s.semtab x).sstate = .sFree := by
      by_contra hne
      exact hx ⟨hbad, hne⟩
    simp [signal, hbad, hfree]

/-- `signal` keeps the invariant and releases the first waiter, if any. -/
theorem signal_run (h : KernelOk o s) :
    ∃ v s₁, Flow.Lands (signal x s) v s₁ ∧ KernelOk o s₁ ∧ Frame (signalEvents s x) [] s s₁ ∧
      s₁.defer.ndefers = s.defer.ndefers := by
  by_cases hx : Usable s x
  · have hev : signalEvents s x = [.signal x] := if_pos hx
    have hset := h.setCount (x := x) (i32_range (s.count x + 1))
    rw [hev]
    by_cases hneg : s.count x < 0
    · obtain ⟨v, s₁, hlands, hok, htame, hnd, hview⟩ := release_run hset hx.1
      refine ⟨ok, s₁, ?_, hok, ⟨?_, (Tame.setCount s x _).trans htame⟩, hnd⟩
      · have hrun : signal x s = ((dequeue ((s.setCount x (i32 (s.count x + 1))).squeue x) >>=
            ready) (s.setCount x (i32 (s.count x + 1)))).bind fun _ => pure ok := by
          simp [signal, hx.1, hx.2, hneg, Flow.bind_assoc]
          rfl
        rw [hrun]
        exact hlands.bind_pure fun _ => rfl
      · rw [hview, semView_signal hx, if_pos hneg]
    · have hrun : signal x s = .done ok (s.setCount x (i32 (s.count x + 1))) := by
        simp [signal, hx.1, hx.2, hneg]
      refine ⟨ok, _, .done hrun, hset, ⟨?_, .setCount s x _⟩, rfl⟩
      rw [semView_signal hx, if_neg hneg]
  · have hev : signalEvents s x = [] := if_neg hx
    rw [hev]
    exact ⟨syserr, s, .done (signal_bad hx), h, .refl s, rfl⟩

/-- The loop of `signaln`, while rescheduling is deferred. -/
theorem signalnLoop_run (n : Nat) (h : KernelOk o s) (hx : Usable s x)
    (hn : 0 < s.defer.ndefers) :
    ∃ s₁, signalnLoop x n s = .done () s₁ ∧ KernelOk o s₁ ∧
      Frame (List.replicate n (.signal x)) [] s s₁ ∧ s₁.defer.ndefers = s.defer.ndefers := by
  induction n generalizing s with
  | zero => exact ⟨s, by simp [signalnLoop], h, .refl s, rfl⟩
  | succ n ih =>
      have hset := h.setCount (x := x) (i32_range (s.count x + 1))
      have hone : ∃ s₂, signalnLoop x (n + 1) s = signalnLoop x n s₂ ∧ KernelOk o s₂ ∧
          Frame [.signal x] [] s s₂ ∧ s₂.defer.ndefers = s.defer.ndefers ∧ Usable s₂ x := by
        by_cases hneg : s.count x < 0
        · obtain ⟨v, s₂, hrun, hok, hfree, hnd, htab, hview⟩ :=
            release_run_deferred hset hx.1 (hset.dequeue_takesFirst hx.1) hn
          refine ⟨s₂, ?_, hok, ⟨?_, (Tame.setCount s x _).trans hfree⟩, hnd, ?_⟩
          · have hbody : signalnLoop x (n + 1) s =
                ((dequeue ((s.setCount x (i32 (s.count x + 1))).squeue x) >>= ready)
                  (s.setCount x (i32 (s.count x + 1)))).bind fun _ => signalnLoop x n := by
              simp [signalnLoop, hneg, Flow.bind_assoc]
              rfl
            rw [hbody, hrun, Flow.bind_done]
          · rw [hview, semView_signal hx, if_pos hneg]
          · unfold Usable
            rw [htab, sstate_setCount]
            exact hx
        · refine ⟨s.setCount x (i32 (s.count x + 1)), by simp [signalnLoop, hneg], hset,
            ⟨?_, .setCount s x _⟩, rfl, hx.setCount⟩
          rw [semView_signal hx, if_neg hneg]
      obtain ⟨s₂, heq, hok₂, hframe₂, hnd₂, hx₂⟩ := hone
      obtain ⟨s₁, hrun, hok, hframe, hnd⟩ := ih hok₂ hx₂ (by omega)
      refine ⟨s₁, heq.trans hrun, hok, ?_, hnd.trans hnd₂⟩
      rw [List.replicate_succ]
      exact hframe₂.trans hframe

/-- The events that `signaln(x, n)` stands for. -/
def signalnEvents (s : Kernel) (x n : Int) : List (SemEvent Int) :=
  if Usable s x then List.replicate n.toNat (.signal x) else []

theorem signaln_run {n : Int} (h : KernelOk o s) (hmax : s.defer.ndefers + 1 < 0x80000000) :
    ∃ v s₁, Flow.Lands (signaln x n s) v s₁ ∧ KernelOk o s₁ ∧
      Frame (signalnEvents s x n) [] s s₁ ∧ s₁.defer.ndefers = s.defer.ndefers := by
  by_cases hx : Usable s x ∧ 0 ≤ n
  · obtain ⟨hx, hn⟩ := hx
    have hev : signalnEvents s x n = List.replicate n.toNat (.signal x) := if_pos hx
    have hneg : ¬ n < 0 := by omega
    rw [hev]
    have hloop : ∀ s₁, KernelOk o s₁ → 0 < s₁.defer.ndefers → semView s₁ = semView s →
        s₁.semtab = s.semtab →
        ∃ s₂, signalnLoop x n.toNat s₁ = .done () s₂ ∧ KernelOk o s₂ ∧
          semView s₂ = SemEvent.applyAll i32 (semView s) (List.replicate n.toNat (.signal x)) ∧
            Tame [] s₁ s₂ ∧ s₂.defer.ndefers = s₁.defer.ndefers := by
      intro s₁ hok hpos hview htab
      have hx₁ : Usable s₁ x := by
        unfold Usable
        rw [htab]
        exact hx
      obtain ⟨s₂, hrun, hok₂, hframe, hnd⟩ := signalnLoop_run n.toNat hok hx₁ hpos
      exact ⟨s₂, hrun, hok₂, hview ▸ hframe.sems, hframe.tame, hnd⟩
    obtain ⟨s₁, hlands, hok₁, hview, hfree, hnd⟩ :=
      deferred_run (signalnLoop x n.toNat) ok h hmax hloop
    refine ⟨ok, s₁, ?_, hok₁, ⟨hview, hfree⟩, hnd⟩
    have hrun : signaln x n s = (do
        let _ ← reschedCntl deferStart
        signalnLoop x n.toNat
        let _ ← reschedCntl deferStop
        return ok : KernelM Int) s := by
      simp [signaln, hx.1, hx.2, hneg]
    rw [hrun]
    exact hlands
  · have hev : signalnEvents s x n = [] := by
      unfold signalnEvents
      by_cases hu : Usable s x
      · have hn : n.toNat = 0 := by
          have : ¬ 0 ≤ n := fun hn => hx ⟨hu, hn⟩
          omega
        rw [if_pos hu, hn]
        rfl
      · rw [if_neg hu]
    have hrun : signaln x n s = .done syserr s := by
      unfold Usable at hx
      by_cases hbad : isbadsem x ∨ n < 0
      · simp [signaln, hbad]
      · have hfree : (s.semtab x).sstate = .sFree := by
          by_contra hne
          refine hx ⟨⟨fun hb => hbad (Or.inl hb), hne⟩, ?_⟩
          by_contra hlt
          exact hbad (Or.inr (by omega))
        simp [signaln, hbad, hfree]
    rw [hev]
    exact ⟨syserr, s, .done hrun, h, .refl s, rfl⟩

/-! ## semcreate -/

/-- The search of `newsem` allocates a free entry or finds none. -/
theorem newsemLoop_run (i : Nat) (s : Kernel) :
    (∃ k, newsemLoop i s = .done syserr { s with nextsem := k }) ∨
      ∃ k sem, newsemLoop i s =
          .done sem ({ s with nextsem := k }.setSem sem fun e => { e with sstate := .sUsed }) ∧
        (s.semtab sem).sstate = .sFree := by
  induction i generalizing s with
  | zero => exact Or.inl ⟨s.nextsem, rfl⟩
  | succ i ih =>
      obtain ⟨k, hk⟩ : ∃ k, (if s.nextsem + 1 ≥ nsem then 0 else s.nextsem + 1) = k := ⟨_, rfl⟩
      by_cases hfree : (s.semtab s.nextsem).sstate = .sFree
      · right
        refine ⟨k, s.nextsem, ?_, hfree⟩
        by_cases hwrap : s.nextsem + 1 ≥ nsem
        · simp [newsemLoop, hwrap, hfree, ← hk]
        · simp [newsemLoop, hwrap, hfree, ← hk]
      · have hstep : newsemLoop (i + 1) s = newsemLoop i { s with nextsem := k } := by
          by_cases hwrap : s.nextsem + 1 ≥ nsem
          · simp [newsemLoop, hwrap, hfree, ← hk]
          · simp [newsemLoop, hwrap, hfree, ← hk]
        rw [hstep]
        exact ih { s with nextsem := k }

/-- The search of `newsem` goes through the table from its cursor on. -/
theorem newsemLoop_rotate (i : Nat) {s : Kernel} (hlow : 0 ≤ s.nextsem) (hhigh : s.nextsem < nsem) :
    ∃ k, newsemLoop i s =
      match rotate (fun x => decide ((s.semtab x).sstate = .sFree)) nsem i s.nextsem with
      | none => .done syserr { s with nextsem := k }
      | some sem => .done sem
          ({ s with nextsem := k }.setSem sem fun e => { e with sstate := .sUsed }) := by
  induction i generalizing s with
  | zero => exact ⟨s.nextsem, rfl⟩
  | succ i ih =>
      rw [rotate_wrap hlow hhigh]
      obtain ⟨k, hk⟩ : ∃ k, (if s.nextsem + 1 ≥ nsem then 0 else s.nextsem + 1) = k := ⟨_, rfl⟩
      have hnext : 0 ≤ k ∧ k < nsem := by
        rw [← hk]
        split
        · exact ⟨Int.le_refl 0, by decide⟩
        · omega
      by_cases hfree : (s.semtab s.nextsem).sstate = .sFree
      · refine ⟨k, ?_⟩
        by_cases hwrap : s.nextsem + 1 ≥ nsem
        · simp [newsemLoop, hwrap, hfree, ← hk]
        · simp [newsemLoop, hwrap, hfree, ← hk]
      · have hstep : newsemLoop (i + 1) s = newsemLoop i { s with nextsem := k } := by
          by_cases hwrap : s.nextsem + 1 ≥ nsem
          · simp [newsemLoop, hwrap, hfree, ← hk]
          · simp [newsemLoop, hwrap, hfree, ← hk]
        obtain ⟨k', hrun⟩ := ih (s := { s with nextsem := k }) hnext.1 hnext.2
        refine ⟨k', ?_⟩
        rw [hstep, hrun, if_neg (by simpa using hfree), hk]

/-- Every call of `semcreate` returns. -/
theorem semcreate_done (n : Int) (s : Kernel) : ∃ v s', semcreate n s = .done v s' := by
  by_cases hneg : n < 0
  · exact ⟨syserr, s, by simp [semcreate, hneg]⟩
  · rcases newsemLoop_run nsem.toNat s with ⟨k, hloop⟩ | ⟨k, sem, hloop, -⟩
    · exact ⟨syserr, _, by simp [semcreate, newsem, hneg, hloop]; rfl⟩
    · by_cases hsem : sem = syserr
      · exact ⟨syserr, _, by simp [semcreate, newsem, hneg, hloop, hsem]; rfl⟩
      · exact ⟨sem, _, by simp [semcreate, newsem, hneg, hloop, hsem]; rfl⟩

/-- A free entry of the semaphore table. -/
def FreeSem (s : Kernel) (x : Int) : Prop :=
  ¬ isbadsem x ∧ (s.semtab x).sstate = .sFree

/-- `semcreate` fails if and only if no entry is free, and then it changes nothing but the
cursor of the search. -/
theorem semcreate_cases {n : Int} {s : Kernel} (hn : 0 ≤ n) (hlow : 0 ≤ s.nextsem)
    (hhigh : s.nextsem < nsem) :
    (∀ x, ¬ FreeSem s x) ∧ (∃ k, semcreate n s = .done syserr { s with nextsem := k }) ∨
      ∃ x s', FreeSem s x ∧ semcreate n s = .done x s' ∧ s'.heap = s.heap := by
  have hpos : ¬ n < 0 := by omega
  obtain ⟨k, hrun⟩ := newsemLoop_rotate nsem.toNat hlow hhigh
  cases hr : rotate (fun x => decide ((s.semtab x).sstate = .sFree)) nsem nsem.toNat s.nextsem with
  | none =>
      rw [hr] at hrun
      left
      refine ⟨?_, k, by simp [semcreate, newsem, hpos, hrun]⟩
      rintro x ⟨hx, hfree⟩
      have hused := (rotate_eq_none_iff (by decide)).mp hr x
      unfold isbadsem at hx
      have hfalse := hused (by omega) (by omega)
      rw [hfree] at hfalse
      exact absurd hfalse (by decide)
  | some x =>
      rw [hr] at hrun
      obtain ⟨hxlow, hxhigh, hfree⟩ := rotate_some (by decide) hr
      have hx : x ≠ syserr := by
        unfold syserr
        omega
      right
      refine ⟨x, ({ s with nextsem := k }.setSem x fun e => { e with sstate := .sUsed }).setCount x n,
        ⟨?_, of_decide_eq_true hfree⟩, by simp [semcreate, newsem, hpos, hrun, hx], rfl⟩
      unfold isbadsem
      omega

/-- The event that a call of `semcreate(n)` with result `v` stands for. -/
def semcreateEvents (v n : Int) : List (SemEvent Int) :=
  if isbadsem v then [] else [.create v n]

/-- An entry outside the table is not seen. -/
theorem semView_setSem_bad {f : Sentry → Sentry} (hx : isbadsem x) :
    semView (s.setSem x f) = semView s := by
  funext y
  unfold semView Kernel.count Kernel.squeue Kernel.setSem
  by_cases hy : isbadsem y
  · simp [hy]
  · have hyx : y ≠ x := fun heq => hy (heq ▸ hx)
    simp [hy, hyx]

/-- Allocating an entry and setting its count leaves the queues alone. -/
theorem KernelOk.allocate {n : Int} (h : KernelOk o s) (k sem : Int)
    (hn : -0x80000000 ≤ n ∧ n < 0x80000000) :
    KernelOk o ({ s with nextsem := k }.setSem sem fun e => { e with sstate := .sUsed }) ∧
      KernelOk o (({ s with nextsem := k }.setSem sem fun e => { e with sstate := .sUsed }).setCount
        sem n) := by
  have hsq : ∀ y, ({ s with nextsem := k }.setSem sem
      fun e => { e with sstate := .sUsed }).squeue y = s.squeue y := by
    intro y
    unfold Kernel.squeue Kernel.setSem
    by_cases hy : y = sem <;> simp [hy]
  have hcount : ∀ y, ({ s with nextsem := k }.setSem sem
      fun e => { e with sstate := .sUsed }).count y = s.count y := by
    intro y
    unfold Kernel.count Kernel.setSem
    by_cases hy : y = sem <;> simp [hy]
  have hagree : Agrees o s ({ s with nextsem := k }.setSem sem
      fun e => { e with sstate := .sUsed }) :=
    ⟨rfl, rfl, rfl, rfl, rfl, rfl, hsq, fun _ => rfl, fun _ => rfl, fun _ _ _ => rfl,
      fun _ => ⟨rfl, rfl⟩⟩
  have hok : KernelOk o ({ s with nextsem := k }.setSem sem
      fun e => { e with sstate := .sUsed }) :=
    ⟨h.consistent.congr hagree, fun y => by rw [hcount]; exact h.counts y, h.ndefers, h.running,
      h.top⟩
  exact ⟨hok, hok.setCount hn⟩

theorem semcreate_run {n : Int} (h : KernelOk o s) (hn : n < 0x80000000) :
    ∃ v s₁, semcreate n s = .done v s₁ ∧ KernelOk o s₁ ∧ Frame (semcreateEvents v n) [] s s₁ ∧
      s₁.defer.ndefers = s.defer.ndefers ∧
        (¬ isbadsem v → (s.semtab v).sstate = .sFree ∧ 0 ≤ n) := by
  have hbad : isbadsem syserr := by decide
  have hnone : semcreateEvents syserr n = [] := if_pos hbad
  by_cases hneg : n < 0
  · have hrun : semcreate n s = .done syserr s := by simp [semcreate, hneg]
    exact ⟨syserr, s, hrun, h, hnone ▸ .refl s, rfl, fun hv => (hv hbad).elim⟩
  rcases newsemLoop_run nsem.toNat s with ⟨k, hloop⟩ | ⟨k, sem, hloop, hfree⟩
  · have hrun : semcreate n s = .done syserr { s with nextsem := k } := by
      simp [semcreate, newsem, hneg, hloop]
    refine ⟨syserr, _, hrun, ⟨h.consistent.congr ?_, h.counts, h.ndefers, h.running, h.top⟩, ?_,
      rfl, fun hv => (hv hbad).elim⟩
    · exact ⟨rfl, rfl, rfl, rfl, rfl, rfl, fun _ => rfl, fun _ => rfl, fun _ => rfl,
        fun _ _ _ => rfl, fun _ => ⟨rfl, rfl⟩⟩
    · rw [hnone]
      exact ⟨semView_congr rfl fun _ _ => rfl, .of_eq rfl rfl rfl rfl rfl rfl rfl fun _ h => h⟩
  · obtain ⟨hok₁, hok₂⟩ := h.allocate k sem ⟨by omega, hn⟩
    have hnext : Tame [] s { s with nextsem := k } := .of_eq rfl rfl rfl rfl rfl rfl rfl fun _ h => h
    have hset : Tame [] s ({ s with nextsem := k }.setSem sem fun e => { e with sstate := .sUsed }) :=
      hnext.trans (.setSem _ sem fun _ => rfl)
    by_cases hsem : sem = syserr
    · subst sem
      have hrun : semcreate n s = .done syserr
          ({ s with nextsem := k }.setSem syserr fun e => { e with sstate := .sUsed }) := by
        simp [semcreate, newsem, hneg, hloop]
      refine ⟨syserr, _, hrun, hok₁, ?_, rfl, fun hv => (hv hbad).elim⟩
      rw [hnone]
      exact ⟨(semView_setSem_bad hbad).trans (semView_congr rfl fun _ _ => rfl),
        hset⟩
    · have hrun : semcreate n s = .done sem (({ s with nextsem := k }.setSem sem
          fun e => { e with sstate := .sUsed }).setCount sem n) := by
        simp [semcreate, newsem, hneg, hloop, hsem]
      refine ⟨sem, _, hrun, hok₂,
        ⟨?_, hset.trans (.setCount _ sem n)⟩, rfl, fun _ => ⟨hfree, by omega⟩⟩
      by_cases hx : isbadsem sem
      · have hev : semcreateEvents sem n = [] := if_pos hx
        rw [hev]
        exact (semView_setSem_bad hx).trans ((semView_setSem_bad hx).trans
          (semView_congr rfl fun _ _ => rfl))
      · have hev : semcreateEvents sem n = [.create sem n] := if_neg hx
        rw [hev]
        refine (semView_update (s := s) _ (e := ⟨.sUsed, n, s.squeue sem⟩) hx ?_ rfl ?_).trans ?_
        · funext y
          unfold Kernel.setCount Kernel.setSem Kernel.squeue
          by_cases hy : y = sem <;> simp [hy]
        · exact fun _ _ _ => rfl
        · simp only [SemEvent.applyAll, SemEvent.apply, SemEvent.sem, SemEvent.effect,
            List.foldl_cons, List.foldl_nil]
          congr 1
          rw [queue_semView hx]
          rfl

/-! ## semdelete and semreset -/

theorem drop_succ_toNat {l : List Int} {c : Int} (hc : c < 0) :
    l.drop (-c).toNat = l.tail.drop (-(c + 1)).toNat := by
  obtain ⟨k, hk⟩ : ∃ k, (-(c + 1)).toNat = k := ⟨_, rfl⟩
  have hk' : (-c).toNat = k + 1 := by omega
  rw [hk, hk']
  cases l <;> simp

/-- The loop of `semdelete` releases as many waiters as the count tells. -/
theorem semdeleteLoop_run (fuel : Nat) (h : KernelOk o s) (hx : ¬ isbadsem x)
    (hfree : (s.semtab x).sstate = .sFree) (hn : 0 < s.defer.ndefers)
    (hfuel : (-s.count x).toNat < fuel) :
    ∃ s₁, semdeleteLoop x fuel s = .done () s₁ ∧ KernelOk o s₁ ∧ Tame [] s s₁ ∧
      s₁.defer.ndefers = s.defer.ndefers ∧
      semView s₁ = update (semView s) x
        ⟨false, 0, (semView s x).queue.drop (-s.count x).toNat⟩ := by
  induction fuel generalizing s with
  | zero => simp at hfuel
  | succ fuel ih =>
      have hview : ∀ c, semView (s.setCount x c) = semView s := by
        intro c
        refine (semView_update (s := s) _ (e := { s.semtab x with scount := c }) hx ?_ rfl
          ?_).trans ?_
        · rfl
        · exact fun _ _ _ => rfl
        · funext y
          by_cases hy : y = x
          · subst y
            rw [update_self]
            simp [viewEntry, semView, hx, hfree]
          · rw [update_of_ne hy]
      have hviewx : semView s x = ⟨false, 0, (semView s x).queue⟩ := by
        unfold semView
        rw [if_neg hx, if_neg (by rw [hfree]; decide)]
      have hset := h.setCount (x := x) (i32_range (s.count x + 1))
      by_cases hneg : s.count x < 0
      · have hc : i32 (s.count x + 1) = s.count x + 1 :=
          i32_eq (by have := (h.counts x).1; omega) (by omega)
        obtain ⟨v, s₂, hrun, hok₂, htame₂, hnd₂, htab, hview₂⟩ :=
          release_run_deferred hset hx (hset.getfirst_takesFirst hx) hn
        have hbody : semdeleteLoop x (fuel + 1) s =
            ((getfirst ((s.setCount x (i32 (s.count x + 1))).squeue x) >>= ready)
              (s.setCount x (i32 (s.count x + 1)))).bind fun _ => semdeleteLoop x fuel := by
          simp [semdeleteLoop, hneg, Flow.bind_assoc]
          rfl
        have hcount : s₂.count x = s.count x + 1 := by
          unfold Kernel.count at hc ⊢
          rw [htab]
          exact (count_setCount s x (i32 (s.count x + 1))).trans hc
        obtain ⟨s₁, hloop, hok, htame₁, hnd, hview₁⟩ := ih hok₂
          (by rw [htab, sstate_setCount]; exact hfree) (by rw [hnd₂]; exact hn)
          (by rw [hcount]; omega)
        refine ⟨s₁, ?_, hok, ((Tame.setCount s x _).trans htame₂).trans htame₁, hnd.trans hnd₂, ?_⟩
        · rw [hbody, hrun, Flow.bind_done]
          exact hloop
        · rw [hview₁, hview₂, hview, hcount, drop_succ_toNat hneg]
          simp
      · refine ⟨_, ?_, hset, .setCount s x _, rfl, ?_⟩
        · simp [semdeleteLoop, hneg]
        · have hzero : (-s.count x).toNat = 0 := by omega
          rw [hview, hzero, List.drop_zero, ← hviewx, update_eq_self]

/-- The event that `semdelete(x)` stands for. -/
def semdeleteEvents (s : Kernel) (x : Int) : List (SemEvent Int) :=
  if Usable s x then [.delete x] else []

/-- Marking an entry free leaves its count and its queue alone. -/
theorem KernelOk.release (h : KernelOk o s) (hx : ¬ isbadsem x) :
    KernelOk o (s.setSem x fun e => { e with sstate := .sFree }) ∧
      (s.setSem x fun e => { e with sstate := .sFree }).count x = s.count x ∧
        semView (s.setSem x fun e => { e with sstate := .sFree }) =
          update (semView s) x ⟨false, 0, (semView s x).queue⟩ := by
  have hsq : ∀ y, (s.setSem x fun e => { e with sstate := .sFree }).squeue y = s.squeue y := by
    intro y
    unfold Kernel.squeue Kernel.setSem
    by_cases hy : y = x <;> simp [hy]
  have hcount : ∀ y, (s.setSem x fun e => { e with sstate := .sFree }).count y = s.count y := by
    intro y
    unfold Kernel.count Kernel.setSem
    by_cases hy : y = x <;> simp [hy]
  refine ⟨⟨h.consistent.congr ?_, ?_, h.ndefers, h.running, h.top⟩, hcount x, ?_⟩
  · exact ⟨rfl, rfl, rfl, rfl, rfl, rfl, hsq, fun _ => rfl, fun _ => rfl, fun _ _ _ => rfl,
      fun _ => ⟨rfl, rfl⟩⟩
  · intro y
    rw [hcount]
    exact h.counts y
  · refine (semView_update (s.setSem x fun e => { e with sstate := .sFree })
      (e := { s.semtab x with sstate := .sFree }) hx rfl rfl fun _ _ _ => rfl).trans ?_
    rw [queue_semView hx]
    rfl

theorem semdelete_run (h : KernelOk o s) (hmax : s.defer.ndefers + 1 < 0x80000000) :
    ∃ v s₁, Flow.Lands (semdelete x s) v s₁ ∧ KernelOk o s₁ ∧
      Frame (semdeleteEvents s x) [] s s₁ ∧ s₁.defer.ndefers = s.defer.ndefers := by
  by_cases hx : Usable s x
  · have hev : semdeleteEvents s x = [.delete x] := if_pos hx
    obtain ⟨hok₀, hcount₀, hview₀⟩ := h.release hx.1
    obtain ⟨s₀, hs₀⟩ : ∃ s₀, (s.setSem x fun e => { e with sstate := .sFree }) = s₀ := ⟨_, rfl⟩
    have hfree₀ : (s₀.semtab x).sstate = .sFree := by
      rw [← hs₀]
      simp [Kernel.setSem]
    have hnd₀ : s₀.defer = s.defer := by rw [← hs₀]; rfl
    have hkeep₀ : Tame [] s s₀ := by
      rw [← hs₀]
      exact .setSem s x fun _ => rfl
    rw [hs₀] at hok₀ hcount₀ hview₀
    have hloop : ∀ s₁, KernelOk o s₁ → 0 < s₁.defer.ndefers → semView s₁ = semView s₀ →
        s₁.semtab = s₀.semtab →
        ∃ s₂, semdeleteLoop x countFuel s₁ = .done () s₂ ∧ KernelOk o s₂ ∧
          semView s₂ = SemEvent.applyAll i32 (semView s) [.delete x] ∧
            Tame [] s₁ s₂ ∧ s₂.defer.ndefers = s₁.defer.ndefers := by
      intro s₁ hok hpos hview htab
      have hcount : s₁.count x = s.count x := by
        rw [← hcount₀]
        unfold Kernel.count
        rw [htab]
      have hrange := h.counts x
      obtain ⟨s₂, hrun, hok₂, htame₂, hnd₂, hview₂⟩ := semdeleteLoop_run countFuel hok hx.1
        (by rw [htab]; exact hfree₀) hpos (by rw [hcount]; unfold countFuel; omega)
      refine ⟨s₂, hrun, hok₂, ?_, htame₂, hnd₂⟩
      rw [hview₂, hview, hview₀, hcount, update_idem, update_self]
      have husable := semView_usable hx
      simp [SemEvent.applyAll, SemEvent.apply, SemEvent.sem, SemEvent.effect, Sem.delete, husable]
    obtain ⟨s₁, hlands, hok₁, hview, hfree, hnd⟩ := deferred_run (semdeleteLoop x countFuel) ok
      hok₀ (by rw [hnd₀]; exact hmax) hloop
    refine ⟨ok, s₁, ?_, hok₁, ⟨?_, hkeep₀.trans hfree⟩, by rw [hnd, hnd₀]⟩
    · have hrun : semdelete x s = (do
          let _ ← reschedCntl deferStart
          semdeleteLoop x countFuel
          let _ ← reschedCntl deferStop
          return ok : KernelM Int) s₀ := by
        simp [semdelete, hx.1, hx.2, hs₀]
      rw [hrun]
      exact hlands
    · rw [hev]
      exact hview
  · have hev : semdeleteEvents s x = [] := if_neg hx
    have hrun : semdelete x s = .done syserr s := by
      unfold Usable at hx
      by_cases hbad : isbadsem x
      · simp [semdelete, hbad]
      · have hfree : (s.semtab x).sstate = .sFree := by
          by_contra hne
          exact hx ⟨hbad, hne⟩
        simp [semdelete, hbad, hfree]
    rw [hev]
    exact ⟨syserr, s, .done hrun, h, .refl s, rfl⟩

/-- The event that `semreset(x, n)` stands for. -/
def semresetEvents (s : Kernel) (x n : Int) : List (SemEvent Int) :=
  if Usable s x ∧ 0 ≤ n then [.reset x n] else []

/-- The loop of `semreset` empties the queue. -/
theorem semresetLoop_run (fuel : Nat) (h : KernelOk o s) (hx : ¬ isbadsem x)
    (hn : 0 < s.defer.ndefers) (hfuel : (members s.queuetab (s.squeue x)).length < fuel) :
    ∃ s₁, semresetLoop (s.squeue x) fuel s = .done () s₁ ∧ KernelOk o s₁ ∧ Tame [] s s₁ ∧
      s₁.defer.ndefers = s.defer.ndefers ∧ s₁.semtab = s.semtab ∧
      semView s₁ = update (semView s) x { semView s x with queue := [] } := by
  induction fuel generalizing s with
  | zero => simp at hfuel
  | succ fuel ih =>
      have htake := h.getfirst_takesFirst hx
      cases hm : members s.queuetab (s.squeue x) with
      | nil =>
          refine ⟨s, ?_, h, .refl s, rfl, rfl, ?_⟩
          · simp [semresetLoop, htake.nil hm]
          · have hnil := semView_tail_nil hx hm
            rw [queue_semView hx, hm, List.tail_nil] at hnil
            exact hnil
      | cons p m =>
          obtain ⟨t', hget, -⟩ := htake.cons p m hm
          obtain ⟨v, s₂, hrun, hok₂, htame₂, hnd₂, htab, hview₂⟩ :=
            release_run_deferred h hx htake hn
          have hp : p ≠ empty := by
            have hpid : IsPid p := isPid_of_mem_members (t := s.queuetab) (q := s.squeue x)
              (by rw [hm]; simp)
            unfold IsPid at hpid
            unfold empty
            omega
          have hbody : semresetLoop (s.squeue x) (fuel + 1) s =
              ((getfirst (s.squeue x) >>= ready) s).bind fun _ =>
                semresetLoop (s.squeue x) fuel := by
            simp [semresetLoop, hget, hp]
          have hsq : s₂.squeue x = s.squeue x := by
            unfold Kernel.squeue
            rw [htab]
          have hlen : (members s₂.queuetab (s₂.squeue x)).length < fuel := by
            rw [← queue_semView hx, hview₂, update_self, queue_semView hx, hm]
            rw [hm] at hfuel
            simpa using hfuel
          obtain ⟨s₁, hloop, hok, htame₁, hnd, htab₁, hview₁⟩ := ih hok₂ (by omega) hlen
          rw [hsq] at hloop
          refine ⟨s₁, ?_, hok, htame₂.trans htame₁, hnd.trans hnd₂, htab₁.trans htab, ?_⟩
          · rw [hbody, hrun, Flow.bind_done]
            exact hloop
          · rw [hview₁, hview₂, update_idem, update_self]

theorem semreset_run {n : Int} (h : KernelOk o s) (hn : n < 0x80000000)
    (hmax : s.defer.ndefers + 1 < 0x80000000) :
    ∃ v s₁, Flow.Lands (semreset x n s) v s₁ ∧ KernelOk o s₁ ∧
      Frame (semresetEvents s x n) [] s s₁ ∧ s₁.defer.ndefers = s.defer.ndefers := by
  by_cases hx : Usable s x ∧ 0 ≤ n
  · have hev : semresetEvents s x n = [.reset x n] := if_pos hx
    obtain ⟨hx, hpos⟩ := hx
    have hbody : ∀ s₁, KernelOk o s₁ → 0 < s₁.defer.ndefers → semView s₁ = semView s →
        s₁.semtab = s.semtab →
        ∃ s₂, (do
            semresetLoop (s.squeue x) queueFuel
            modify (·.setCount x n) : KernelM Unit) s₁ = .done () s₂ ∧ KernelOk o s₂ ∧
          semView s₂ = SemEvent.applyAll i32 (semView s) [.reset x n] ∧
            Tame [] s₁ s₂ ∧ s₂.defer.ndefers = s₁.defer.ndefers := by
      intro s₁ hok hdefer hview htab
      have hsq : s₁.squeue x = s.squeue x := by
        unfold Kernel.squeue
        rw [htab]
      obtain ⟨s₂, hloop, hok₂, htame₂, hnd₂, htab₂, hview₂⟩ := semresetLoop_run queueFuel hok hx.1
        hdefer (length_members_lt_queueFuel hok.consistent.queues (hok.consistent.ids.sem x hx.1))
      rw [hsq] at hloop
      have hx₂ : Usable s₂ x := by
        unfold Usable
        rw [htab₂, htab]
        exact hx
      refine ⟨s₂.setCount x n, ?_, hok₂.setCount ⟨by omega, hn⟩, ?_,
        htame₂.trans (.setCount _ _ _), hnd₂⟩
      · simp [hloop]
      · rw [semView_setCount hx₂, hview₂, update_idem, update_self, hview]
        rfl
    obtain ⟨s₁, hlands, hok₁, hview, hfree, hnd⟩ := deferred_run _ ok h hmax hbody
    refine ⟨ok, s₁, ?_, hok₁, ⟨by rw [hev]; exact hview, hfree⟩, hnd⟩
    have hneg : ¬ (n < 0 ∨ isbadsem x ∨ (s.semtab x).sstate = .sFree) := by
      rintro (hlt | hbad | hfree')
      · omega
      · exact hx.1 hbad
      · exact hx.2 hfree'
    have hrun : semreset x n s = (do
        let _ ← reschedCntl deferStart
        (do
          semresetLoop (s.squeue x) queueFuel
          modify (·.setCount x n) : KernelM Unit)
        let _ ← reschedCntl deferStop
        return ok : KernelM Int) s := by
      simp only [semreset, Coop.run_bind, Coop.run_get, Flow.bind_done, Coop.run_ite, hneg, if_false]
      congr 1
      funext _ s'
      exact (Flow.bind_assoc _ _ _).symm
    rw [hrun]
    exact hlands
  · have hev : semresetEvents s x n = [] := if_neg hx
    have hbad : n < 0 ∨ isbadsem x ∨ (s.semtab x).sstate = .sFree := by
      by_contra hnot
      refine hx ⟨⟨fun hb => hnot (Or.inr (Or.inl hb)), fun hf => hnot (Or.inr (Or.inr hf))⟩, ?_⟩
      by_contra hlt
      exact hnot (Or.inl (by omega))
    have hrun : semreset x n s = .done syserr s := by simp [semreset, hbad]
    rw [hev]
    exact ⟨syserr, s, .done hrun, h, .refl s, rfl⟩

end Runs

end Xinu
