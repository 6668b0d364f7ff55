import Xinu.Kernel.QueueInvariant

/-!
# Counts and queues of semaphores

The count of a semaphore and its queue are changed by different statements of
the semaphore calls and of `kill`.  A negative count nevertheless tells how many
processes wait.

Main results:

- Theorem `SegOk.agrees`: one segment keeps all counts in agreement with their queues.
- Theorem `semaphores_agree`: so they agree in every state that ordinary calls
  reach, as long as no signal makes a count overflow.
-/

namespace Xinu

open Foundations Function

/-- The call makes no count exceed the largest 32-bit integer. -/
def NoOverflow (s : Kernel) : KCall → Prop
  | .signal sem => Usable s sem.toInt → s.count sem.toInt + 1 < 0x80000000
  | .signaln sem count => Usable s sem.toInt → s.count sem.toInt + count.toInt < 0x80000000
  | _ => True

instance (s : Kernel) (c : KCall) : Decidable (NoOverflow s c) :=
  match c with
  | .signal _ => inferInstanceAs (Decidable (_ → _))
  | .signaln _ _ => inferInstanceAs (Decidable (_ → _))
  | .create _ _ | .resume _ | .suspend _ | .kill _ | .wait _ | .semcreate _ | .semdelete _
  | .semreset _ _ | .sleepms _ | .recvtime _ | .receive | .send _ _ | .recvclr | .yield
  | .chprio _ _ | .tick | .ready _ | .reschedCntl _ => instDecidableTrue

/-- Ordinary calls that make no count overflow. -/
def CountedRuns (s : Kernel) (resumed : Bool) (c : KCall) : Prop :=
  NullRuns s resumed c ∧ (resumed = false → NoOverflow s c)

instance (s : Kernel) (resumed : Bool) (c : KCall) : Decidable (CountedRuns s resumed c) :=
  inferInstanceAs (Decidable (_ ∧ (_ → _)))

theorem countedRuns_admits : Admits ordinary CountedRuns :=
  nullRuns_admits.mono fun _ _ _ h => h.1

section Agreement

variable {o : Assumed} {s : Kernel} {x p : Int} {seg : Segment Kernel KCall}

/-- All counts agree with their queues. -/
def CountsAgree (s : Kernel) : Prop :=
  ∀ x, (semView s x).Agrees

theorem CountsAgree.length (h : CountsAgree s) (hx : Usable s x) :
    (members s.queuetab (s.squeue x)).length = (-s.count x).toNat := by
  have hagrees := h x
  rw [semView_usable hx] at hagrees
  exact hagrees

/-- Nobody waits for a semaphore that is not in use. -/
theorem CountsAgree.usable_of_mem (h : CountsAgree s) (hx : ¬ isbadsem x)
    (hp : p ∈ members s.queuetab (s.squeue x)) : Usable s x := by
  refine ⟨hx, fun hfree => ?_⟩
  have hagrees := h x
  unfold semView Sem.Agrees at hagrees
  rw [if_neg hx, if_neg (by rw [hfree]; decide)] at hagrees
  have hpos := List.length_pos_of_mem hp
  simp only at hagrees
  omega

/-- The number of waiters bounds the count from below. -/
theorem CountsAgree.count_ge (h : CountsAgree s) (hok : KernelOk o s) (hx : Usable s x) :
    -nproc ≤ s.count x := by
  have hlen := h.length hx
  have hq := hok.consistent.ids.sem x hx.1
  have hle := length_le_nproc (fun p hp => isPid_of_mem_members hp)
    (hok.consistent.queues.nodup _ hq)
  unfold nproc at *
  omega

/-- The events leave all counts in agreement with their queues. -/
def KeepAgreement (s : Kernel) (evs : List (SemEvent Int)) : Prop :=
  ∀ x, (SemEvent.applyAll i32 (semView s) evs x).Agrees

theorem CountsAgree.nil (h : CountsAgree s) : KeepAgreement s [] :=
  h

theorem CountsAgree.event {ev : SemEvent Int} (h : CountsAgree s)
    (hfits : ev.Fits i32 (semView s ev.sem)) : KeepAgreement s [ev] :=
  SemEvent.agrees_apply h hfits

theorem CountsAgree.wait (h : CountsAgree s) (hok : KernelOk o s) (x : Int) :
    KeepAgreement s (waitEvents s x) := by
  unfold waitEvents
  by_cases hx : Usable s x
  swap
  · rw [if_neg hx]
    exact h.nil
  rw [if_pos hx]
  apply h.event
  show i32 ((semView s x).count - 1) = (semView s x).count - 1
  have hge := h.count_ge hok hx
  have hlt := (hok.counts x).2
  unfold nproc at hge
  rw [semView_usable hx]
  apply i32_eq
  · show -0x80000000 ≤ s.count x - 1
    omega
  · show s.count x - 1 < 0x80000000
    omega

theorem CountsAgree.signals {n : Nat} (h : CountsAgree s) (hok : KernelOk o s) (hx : Usable s x)
    (hmax : s.count x + n < 0x80000000) : KeepAgreement s (List.replicate n (.signal x)) := by
  apply SemEvent.agrees_signals h
  intro k hk
  have hge := (hok.counts x).1
  rw [semView_usable hx]
  apply i32_eq
  · show -0x80000000 ≤ s.count x + k + 1
    omega
  · show s.count x + k + 1 < 0x80000000
    omega

theorem CountsAgree.signal (h : CountsAgree s) (hok : KernelOk o s) {x : Int}
    (hmax : Usable s x → s.count x + 1 < 0x80000000) : KeepAgreement s (signalEvents s x) := by
  unfold signalEvents
  by_cases hx : Usable s x
  · rw [if_pos hx]
    exact h.signals hok hx (n := 1) (hmax hx)
  · rw [if_neg hx]
    exact h.nil

theorem CountsAgree.signaln (h : CountsAgree s) (hok : KernelOk o s) {x n : Int}
    (hmax : Usable s x → s.count x + n < 0x80000000) : KeepAgreement s (signalnEvents s x n) := by
  unfold signalnEvents
  by_cases hx : Usable s x
  · rw [if_pos hx]
    have hlt := hmax hx
    have hcount := (hok.counts x).2
    apply h.signals hok hx
    omega
  · rw [if_neg hx]
    exact h.nil

/-- A waiting process that is removed was one of the waiters its semaphore counts. -/
theorem CountsAgree.kill (h : CountsAgree s) (hok : KernelOk o s) (hp : WaitsForSem s p) :
    KeepAgreement s (killEvents s p) := by
  unfold killEvents
  by_cases hwait : IsPid p ∧ s.state p = .prWait
  swap
  · rw [if_neg hwait]
    exact h.nil
  obtain ⟨x, hbad, hmem⟩ := hp hwait.1 hwait.2
  obtain rfl := hok.consistent.prsem x p hbad hmem
  have hx := h.usable_of_mem hbad hmem
  have hlen := h.length hx
  have hpos := List.length_pos_of_mem hmem
  have hge := h.count_ge hok hx
  unfold nproc at hge
  rw [if_pos hwait]
  apply h.event
  show (semView s (s.proctab p).prsem).used = true ∧ p ∈ (semView s (s.proctab p).prsem).queue ∧
    i32 ((semView s (s.proctab p).prsem).count + 1) = (semView s (s.proctab p).prsem).count + 1
  rw [semView_usable hx]
  refine ⟨rfl, hmem, ?_⟩
  apply i32_eq
  · show -0x80000000 ≤ s.count (s.proctab p).prsem + 1
    omega
  · show s.count (s.proctab p).prsem + 1 < 0x80000000
    omega

theorem CountsAgree.semcreate {n : Int} (h : CountsAgree s)
    (hfree : ¬ isbadsem x → (s.semtab x).sstate = .sFree ∧ 0 ≤ n) :
    KeepAgreement s (semcreateEvents x n) := by
  unfold semcreateEvents
  by_cases hbad : isbadsem x
  · rw [if_pos hbad]
    exact h.nil
  rw [if_neg hbad]
  apply h.event
  obtain ⟨hst, hn⟩ := hfree hbad
  have hview : semView s x = ⟨false, 0, members s.queuetab (s.squeue x)⟩ := by
    unfold semView
    rw [if_neg hbad, if_neg]
    rw [hst]
    decide
  show (semView s x).used = false ∧ (semView s x).count = 0 ∧ 0 ≤ n
  rw [hview]
  exact ⟨rfl, rfl, hn⟩

theorem CountsAgree.semdelete (h : CountsAgree s) (x : Int) :
    KeepAgreement s (semdeleteEvents s x) := by
  unfold semdeleteEvents
  by_cases hx : Usable s x
  · rw [if_pos hx]
    exact h.event trivial
  · rw [if_neg hx]
    exact h.nil

theorem CountsAgree.semreset (h : CountsAgree s) (x n : Int) :
    KeepAgreement s (semresetEvents s x n) := by
  unfold semresetEvents
  by_cases hx : Usable s x ∧ 0 ≤ n
  · rw [if_pos hx]
    exact h.event hx.2
  · rw [if_neg hx]
    exact h.nil

/-- One segment keeps all counts in agreement with their queues. -/
theorem SegOk.agrees (hseg : SegOk seg) (hok : KernelOk o seg.before)
    (hperm : Permitted o seg.before seg.call)
    (hcount : seg.resumed = false → NoOverflow seg.before seg.call)
    (h : CountsAgree seg.before) : CountsAgree seg.after := by
  have hsems := hseg.sems
  have hcreates := hseg.creates
  suffices hkeep : KeepAgreement seg.before
      (seg.call.events seg.resumed seg.before seg.outcome) by
    intro x
    rw [hsems]
    exact hkeep x
  -- all calls but `kill` have their events in the first segment
  have hfirst : ∀ evs, (seg.resumed = false → KeepAgreement seg.before evs) →
      KeepAgreement seg.before (if seg.resumed then [] else evs) := by
    intro evs hevs
    cases hres : seg.resumed with
    | true => exact h.nil
    | false => exact hevs hres
  unfold CreatesFree at hcreates
  unfold KCall.events
  cases hcall : seg.call with
  | kill pid =>
      cases seg.outcome with
      | returned v =>
          rw [hcall] at hperm
          exact h.kill hok (hperm.waitsForSem hok.consistent)
      | switched => exact h.nil
      | halted => exact h.nil
  | wait sem => exact hfirst _ fun _ => h.wait hok sem.toInt
  | signal sem =>
      apply hfirst
      intro hres
      have hmax := hcount hres
      rw [hcall] at hmax
      exact h.signal hok hmax
  | signaln sem count =>
      apply hfirst
      intro hres
      have hmax := hcount hres
      rw [hcall] at hmax
      exact h.signaln hok hmax
  | semcreate count =>
      cases hout : seg.outcome with
      | returned v =>
          apply hfirst
          intro _
          exact h.semcreate (hcreates count v hcall hout)
      | switched => exact h.nil
      | halted => exact h.nil
  | semdelete sem => exact hfirst _ fun _ => h.semdelete sem.toInt
  | semreset sem count => exact hfirst _ fun _ => h.semreset sem.toInt count.toInt
  | _ => exact h.nil

end Agreement

/-! ## Every run -/

/-- The counts tell who waits. -/
structure SemaphoresAgree (s : Kernel) : Prop where
  idle : ∀ x, Usable s x → 0 ≤ s.count x → members s.queuetab (s.squeue x) = []
  waiting : ∀ x, Usable s x → ∀ k : Nat, 0 < k → s.count x = -k →
    (members s.queuetab (s.squeue x)).Nodup ∧ (members s.queuetab (s.squeue x)).length = k ∧
      ∀ p, p ∈ members s.queuetab (s.squeue x) ↔
        IsPid p ∧ s.state p = .prWait ∧ (s.proctab p).prsem = x
  free : ∀ x, ¬ isbadsem x → (s.semtab x).sstate = .sFree →
    members s.queuetab (s.squeue x) = []

section Runs

variable {o : Assumed} {s : Kernel}

theorem Booted.countsAgree (h : Booted s) : CountsAgree s := by
  intro x
  rw [h.semView]
  rfl

theorem CountsAgree.semaphoresAgree (h : CountsAgree s) (hok : KernelOk o s) (hw : o.waits) :
    SemaphoresAgree s := by
  constructor
  · intro x hx hpos
    have hlen := h.length hx
    apply List.eq_nil_of_length_eq_zero
    omega
  · intro x hx k hk hcount
    have hlen := h.length hx
    refine ⟨hok.consistent.queues.nodup _ (hok.consistent.ids.sem x hx.1), ?_, ?_⟩
    · omega
    · exact fun p => hok.consistent.wait_iff hw hx.1
  · intro x hx hfree
    by_contra hne
    obtain ⟨p, hp⟩ := List.exists_mem_of_ne_nil _ hne
    exact (h.usable_of_mem hx hp).2 hfree

/--
Whatever ordinary calls the processes make, and however they interleave, a
negative count tells how many processes wait for its semaphore, and these are the
members of its queue; nobody waits for any other semaphore.
-/
theorem semaphores_agree {b : Board} {tr : List (Segment Kernel KCall)} {C : Config Kernel KCall}
    (hrun : kernelMachine.Run CountedRuns (Machine.initial (boot b)) tr C) :
    SemaphoresAgree C.state := by
  have hbooted := (boot_eq b).2
  have hI := hbooted.inv ordinary
  have hagree : CountsAgree C.state := by
    apply kernel_observe (P := fun _ s => CountsAgree s) countedRuns_admits hI
      hbooted.countsAgree ?_ hrun
    intro tr seg h hbefore _ hseg _ hok
    have hperm := countedRuns_admits.permitted _ _ _ hbefore hok
    exact hseg.agrees hbefore.kernelOk hperm hok.2 h
  exact hagree.semaphoresAgree (kernel_run countedRuns_admits hI hrun).1.kernelOk trivial

end Runs

theorem semaphores_agree_after_wait :
    ∃ tr C, kernelMachine.Run CountedRuns (Machine.initial (boot smallBoard)) tr C ∧
      C.state.count 0 = -1 ∧ SemaphoresAgree C.state := by
  have hreplay : (kernelMachine.replay CountedRuns waitScript []
      (Machine.initial (boot smallBoard))).map (fun r => r.2.state.count 0) = some (-1) := by
    decide +kernel
  obtain ⟨⟨tr, C⟩, hr, hcount⟩ := Option.map_eq_some_iff.mp hreplay
  have hrun := kernelMachine.replay_run .start hr
  exact ⟨tr, C, hrun, hcount, semaphores_agree hrun⟩

end Xinu
