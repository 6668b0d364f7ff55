import Xinu.Kernel.Interleaving

/-!
# The queues of the kernel in every run

Main result:

- Theorem `queueInvariant_of_run`: in every state that ordinary calls reach,
  in any interleaving, each process is linked where its state says and nowhere
  else, and `resched` has always found a process to run.
-/

namespace Xinu

open Foundations Function

/-- Every process is linked where its state says, exactly once, and nowhere else. -/
structure QueueInvariant (s : Kernel) : Prop where
  ready : ∀ p, IsPid p →
    (members s.queuetab s.readylist).count p = if s.state p = .prReady then 1 else 0
  sleep : ∀ p, IsPid p → (members s.queuetab s.sleepq).count p =
    if s.state p = .prSleep ∨ s.state p = .prRectim then 1 else 0
  wait : ∀ x, ¬ isbadsem x → ∀ p, IsPid p → (members s.queuetab (s.squeue x)).count p =
    if s.state p = .prWait ∧ (s.proctab p).prsem = x then 1 else 0
  one_queue : ∀ q q' p, SystemQueue s q → SystemQueue s q' → p ∈ members s.queuetab q →
    p ∈ members s.queuetab q' → q = q'
  /-- From its head, a queue leads through its members to its tail. -/
  linked : ∀ q, SystemQueue s q → Linked s.queuetab q (members s.queuetab q)
  prev_next : ∀ q, SystemQueue s q → ∀ i ∈ queuehead q :: members s.queuetab q,
    s.queuetab.qprev (s.queuetab.qnext i) = i
  next_prev : ∀ q, SystemQueue s q → ∀ i ∈ members s.queuetab q ++ [queuetail q],
    s.queuetab.qnext (s.queuetab.qprev i) = i
  sorted : (members s.queuetab s.readylist).Pairwise
    fun a b => s.queuetab.qkey b ≤ s.queuetab.qkey a
  current : IsPid s.currpid ∧ ∀ p, IsPid p → (s.state p = .prCurr ↔ p = s.currpid)

section Invariant

variable {s : Kernel}

theorem QueueIds.isQid (h : QueueIds s) {q : Int} (hq : SystemQueue s q) : IsQid s.nextqid q := by
  rcases hq with rfl | rfl | ⟨x, hx, rfl⟩
  · exact h.ready
  · exact h.sleep
  · exact h.sem x hx

/-- A process is on a list of distinct processes once or not at all. -/
theorem count_eq_ite {p : Int} {l : List Int} {c : Prop} [Decidable c] (hnd : l.Nodup)
    (hmem : p ∈ l ↔ c) : l.count p = if c then 1 else 0 := by
  by_cases hc : c
  · rw [if_pos hc]
    exact List.count_eq_one_of_mem hnd (hmem.mpr hc)
  · rw [if_neg hc]
    exact List.count_eq_zero.mpr fun hin => hc (hmem.mp hin)

/-- The kernel invariant says where each process is linked. -/
theorem Inv.queueInvariant (h : Inv ordinary s) : QueueInvariant s := by
  have hcons := h.kernelOk.consistent
  have hids := hcons.ids
  have hnodup : ∀ q, SystemQueue s q → (members s.queuetab q).Nodup := fun q hq =>
    hcons.queues.nodup q (hids.isQid hq)
  constructor
  · intro p hp
    refine count_eq_ite (hnodup _ (Or.inl rfl)) (hcons.ready_iff.trans ?_)
    exact and_iff_right hp
  · intro p hp
    refine count_eq_ite (hnodup _ (Or.inr (Or.inl rfl))) (hcons.sleep_iff.trans ?_)
    exact and_iff_right hp
  · intro x hx p hp
    refine count_eq_ite (hnodup _ (Or.inr (Or.inr ⟨x, hx, rfl⟩)))
      ((hcons.wait_iff trivial hx).trans ?_)
    exact and_iff_right hp
  · intro q q' p hq hq' hp hp'
    exact hcons.queues.disjoint q q' p (hids.isQid hq) (hids.isQid hq') hp hp'
  · exact fun q hq => hcons.queues.linked q (hids.isQid hq)
  · exact fun q hq => (hcons.queues.linked q (hids.isQid hq)).prev_next
  · exact fun q hq => (hcons.queues.linked q (hids.isQid hq)).next_prev
  · exact hcons.sorted
  · refine ⟨hcons.pid, fun p hp => ⟨hcons.curr p (by simp) hp, ?_⟩⟩
    rintro rfl
    exact h.running

end Invariant

/--
Whatever ordinary calls the processes make, and however they interleave, the
queues agree with the process states between any two context switches.  The
`dequeue` of `resched`, whose result becomes the current process, has never
returned `EMPTY`.
-/
theorem queueInvariant_of_run {b : Board} {tr : List (Segment Kernel KCall)}
    {C : Config Kernel KCall}
    (hrun : kernelMachine.Run NullRuns (Machine.initial (boot b)) tr C) :
    QueueInvariant C.state ∧ ∀ seg ∈ tr, seg.after.currpid ≠ empty := by
  have hI := (boot_eq b).2.inv ordinary
  have hcurr : ∀ seg ∈ tr, seg.after.currpid ≠ empty := by
    refine kernel_observe (P := fun tr _ => ∀ seg ∈ tr, seg.after.currpid ≠ empty)
      nullRuns_admits hI (by simp) ?_ hrun
    intro tr seg hP _ hafter _ _ _ seg' hmem
    rcases List.mem_append.mp hmem with hmem | hmem
    · exact hP seg' hmem
    · rw [List.mem_singleton.mp hmem]
      have hpid := hafter.kernelOk.consistent.pid
      unfold IsPid at hpid
      unfold empty
      omega
  exact ⟨(kernel_run nullRuns_admits hI hrun).1.queueInvariant, hcurr⟩

/-- A board with 60 kilobytes of heap. -/
def smallBoard : Board where
  platform := .armQemu
  minheap := 4096
  maxheap := 65536
  memlistAddr := 8
  contents := fun _ => ⟨0, 0⟩
  minheap_aligned := by decide
  maxheap_aligned := by decide
  minheap_pos := by decide
  minheap_lt := by decide
  maxheap_lt := by decide

/-- The null process creates a process, resumes it, and is scheduled again when
that process waits. -/
def waitScript : List (Option KCall) :=
  [some (.create 1024 20), some (.resume 1), some (.semcreate 0), some (.wait 0), none]

theorem queueInvariant_after_wait :
    ∃ tr C, kernelMachine.Run NullRuns (Machine.initial (boot smallBoard)) tr C ∧
      C.state.state 1 = .prWait ∧ QueueInvariant C.state := by
  have hreplay : (kernelMachine.replay NullRuns waitScript []
      (Machine.initial (boot smallBoard))).map (fun r => r.2.state.state 1) = some .prWait := by
    decide +kernel
  obtain ⟨⟨tr, C⟩, hr, hst⟩ := Option.map_eq_some_iff.mp hreplay
  have hrun := kernelMachine.replay_run .start hr
  exact ⟨tr, C, hrun, hst, (queueInvariant_of_run hrun).1⟩

end Xinu
