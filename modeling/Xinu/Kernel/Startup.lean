import Xinu.Kernel.SchedulerSpec
import Xinu.Memory.Partition

/-!
# Startup

Embedding of `sysinit` of `system/initialize.c` up to the initialization of the
devices, with `system/meminit.c` and the part of `clkinit` that concerns the
kernel's tables.  The devices only make calls of the kernel, such as
`semcreate`, so what they do belongs to the run that follows.

Main result:

- Theorems `boot_eq` and `Booted.kernelOk`: `sysinit` returns in a state that
  satisfies the kernel invariant.
- Theorem `Booted.semView`: no semaphore is in use then.
-/

namespace Xinu

open Foundations Function

/-- What the linker and the board fix: the bounds of the heap. -/
structure Board where
  platform : Platform
  minheap : Nat
  maxheap : Nat
  /-- The address of the list head, and what the memory contains. -/
  memlistAddr : Nat
  contents : Memory.Blk → Memory.Memblk
  minheap_aligned : 8 ∣ minheap
  maxheap_aligned : 8 ∣ maxheap
  minheap_pos : Memory.null < minheap
  minheap_lt : minheap < maxheap
  maxheap_lt : maxheap < 0x100000000

/-- The kernel's variables when its code starts: those without an initializer are zero. -/
def loaded (b : Board) : Kernel where
  platform := b.platform
  proctab := fun _ => ⟨.prFree, 0, .saved, 0, 0, 0, 0, 0, false, fun _ => 0⟩
  queuetab := fun _ => ⟨0, 0, 0⟩
  semtab := fun _ => ⟨.sFree, 0, 0⟩
  heap := ⟨b.contents, 0, 0, b.memlistAddr⟩
  readylist := 0
  sleepq := 0
  prcount := 0
  currpid := 0
  defer := ⟨0, false⟩
  preempt := 0
  clktime := 0
  clkticks := match b.platform with
    | .armQemu => 0
    | .armBbb => 1000
  nextqid := nproc
  nextpid := 1
  nextsem := 0

/-- Initialize process table entries free, from entry `i` on. -/
def initProcs : Nat → Int → KernelM Unit
  | 0, _ => return
  | n + 1, i => do
      modify (·.setProc i fun e => { e with prstate := .prFree, prstkbase := 0, prprio := 0 })
      initProcs n (i + 1)

/-- Initialize semaphores, from entry `i` on. -/
def initSems : Nat → Int → KernelM Unit
  | 0, _ => return
  | n + 1, i => do
      let q ← newqueue
      modify (·.setSem i fun _ => ⟨.sFree, 0, q⟩)
      initSems n (i + 1)

/-- The part of `clkinit` that concerns the kernel's tables. -/
def clkinit : KernelM Unit := do
  let q ← newqueue
  modify fun s => { s with sleepq := q, preempt := quantum, clktime := 0 }

/-- Initialize all Xinu data structures. -/
def sysinit (b : Board) : KernelM Unit := do
  modify fun s =>
    { s with heap := Memory.meminit b.minheap b.maxheap b.memlistAddr b.contents }
  modify fun s => { s with prcount := 1 }
  modify fun s => { s with defer := { s.defer with ndefers := 0 } }
  initProcs nproc.toNat 0
  -- initialize the null process entry
  modify (·.setProc nullproc fun e => { e with prstate := .prCurr, prprio := 0 })
  let base ← onHeap (Memory.getstk nullstk)
  modify (·.setProc nullproc fun e =>
    { e with prstkbase := base.getD 0xFFFFFFFF, prstklen := nullstk, prstkptr := .saved })
  modify fun s => { s with currpid := nullproc }
  initSems nsem.toNat 0
  -- create a ready list for processes
  let q ← newqueue
  modify fun s => { s with readylist := q }
  clkinit

/-- The state in which the null process starts to run. -/
def boot (b : Board) : Kernel :=
  match sysinit b (loaded b) with
  | .done _ s => s
  | _ => loaded b

section Runs

variable {s : Kernel}

/-- The null process runs, and there is no other. -/
structure Alone (s : Kernel) : Prop where
  current : s.currpid = nullproc
  running : s.state nullproc = .prCurr
  free : ∀ p, p ≠ nullproc → s.state p = .prFree ∧ (s.proctab p).prstklen = 0
  heap : ∃ l, Memory.FreeList s.heap l
  ndefers : s.defer.ndefers = 0

theorem initProcs_run (n : Nat) (i : Int) (s : Kernel)
    (hfree : ∀ p, s.state p = .prFree ∧ (s.proctab p).prstklen = 0) :
    ∃ proctab, initProcs n i s = .done () { s with proctab := proctab } ∧
      ∀ p, (proctab p).prstate = .prFree ∧ (proctab p).prstklen = 0 := by
  induction n generalizing i s with
  | zero => exact ⟨s.proctab, rfl, hfree⟩
  | succ n ih =>
      have hstep : ∀ p, (s.setProc i fun e =>
          { e with prstate := .prFree, prstkbase := 0, prprio := 0 }).state p = .prFree ∧
          ((s.setProc i fun e =>
            { e with prstate := .prFree, prstkbase := 0, prprio := 0 }).proctab p).prstklen = 0 := by
        intro p
        unfold Kernel.state
        rw [proctab_setProc]
        split
        · exact ⟨rfl, (hfree i).2⟩
        · exact hfree p
      obtain ⟨proctab, hrun, hall⟩ := ih (i + 1) _ hstep
      exact ⟨proctab, hrun, hall⟩

/-- All queues allocated so far are empty, the next one is in the table. -/
structure Allocating (s : Kernel) (k : Int) : Prop where
  next : s.nextqid = nproc + 2 * k
  queues : QueuesOk s.queuetab s.nextqid
  empty : ∀ q, IsQid s.nextqid q → members s.queuetab q = []

/-- One more queue, while there is room. -/
theorem Allocating.newqueue {k : Int} (h : Allocating s k) (hk : 0 ≤ k)
    (hmax : nproc + 2 * k + 1 < nqent) :
    ∃ t', newqueue s = .done (nproc + 2 * k) { s with queuetab := t', nextqid := nproc + 2 * (k + 1) } ∧
      Allocating { s with queuetab := t', nextqid := nproc + 2 * (k + 1) } (k + 1) := by
  have hnext : nproc + 2 * (k + 1) = s.nextqid + 2 := by
    rw [h.next]
    omega
  have hn : IsQid (s.nextqid + 2) s.nextqid := by
    rw [h.next]
    unfold IsQid
    omega
  obtain ⟨hok, hnew, hold⟩ := h.queues.emptyQueue hn
  refine ⟨emptyQueue s.queuetab s.nextqid, ?_, rfl, ?_, ?_⟩
  · rw [newqueue_run (by rw [h.next]; omega), hnext, h.next]
  · show QueuesOk (emptyQueue s.queuetab s.nextqid) (nproc + 2 * (k + 1))
    rw [hnext]
    exact hok
  · intro q hq
    change IsQid (nproc + 2 * (k + 1)) q at hq
    rw [hnext] at hq
    by_cases hqn : q = s.nextqid
    · rw [hqn]
      exact hnew
    · have hq' : IsQid s.nextqid q := by
        have hpar := h.next
        unfold IsQid at hq ⊢
        omega
      exact (hold q hq').trans (h.empty q hq')

/-- No semaphore has a count, and the first `k` are free, each with a queue of its own. -/
structure SemsFree (s : Kernel) (k : Int) : Prop where
  count : ∀ x, s.count x = 0
  entry : ∀ x, 0 ≤ x → x < k → s.semtab x = ⟨.sFree, 0, nproc + 2 * x⟩

theorem initSems_run (n : Nat) (i : Int) (s : Kernel) (hi : 0 ≤ i) (hmax : i + n ≤ nsem)
    (h : Allocating s i) (hfree : SemsFree s i) :
    ∃ t tab, initSems n i s = .done ()
        { s with queuetab := t, nextqid := nproc + 2 * (i + n), semtab := tab } ∧
      Allocating { s with queuetab := t, nextqid := nproc + 2 * (i + n), semtab := tab } (i + n) ∧
        SemsFree { s with queuetab := t, nextqid := nproc + 2 * (i + n), semtab := tab } (i + n) := by
  induction n generalizing i s with
  | zero =>
      have hzero : i + (0 : Nat) = i := by omega
      have hnext : nproc + 2 * (i + (0 : Nat)) = s.nextqid := by rw [hzero, h.next]
      refine ⟨s.queuetab, s.semtab, ?_⟩
      rw [hnext, hzero]
      exact ⟨rfl, h, hfree⟩
  | succ n ih =>
      have hroom : nproc + 2 * i + 1 < nqent := by
        unfold nsem at hmax
        unfold nproc nqent nproc nsem nfut
        omega
      obtain ⟨t₁, hnew, halloc⟩ := h.newqueue hi hroom
      have hfree₁ : SemsFree (Kernel.setSem { s with queuetab := t₁, nextqid := nproc + 2 * (i + 1) } i
          fun _ => ⟨.sFree, 0, nproc + 2 * i⟩) (i + 1) := by
        constructor
        · intro x
          unfold Kernel.count Kernel.setSem
          by_cases hxi : x = i
          · simp [hxi]
          · simp only [ne_eq, hxi, not_false_eq_true, update_of_ne]
            exact hfree.count x
        · intro x hx hlt
          unfold Kernel.setSem
          by_cases hxi : x = i
          · simp [hxi]
          · simp only [ne_eq, hxi, not_false_eq_true, update_of_ne]
            exact hfree.entry x hx (by omega)
      have halloc₁ : Allocating (Kernel.setSem { s with queuetab := t₁, nextqid := nproc + 2 * (i + 1) }
          i fun _ => ⟨.sFree, 0, nproc + 2 * i⟩) (i + 1) := ⟨rfl, halloc.queues, halloc.empty⟩
      have hsum : i + 1 + (n : Int) = i + (n + 1 : Nat) := by push_cast; omega
      obtain ⟨t, tab, hrun, hrest⟩ := ih (i + 1) _ (by omega) (by omega) halloc₁ hfree₁
      rw [hsum] at hrun hrest
      refine ⟨t, tab, ?_, hrest⟩
      simp only [initSems, Coop.run_bind, hnew, Flow.bind_done, Coop.run_modify]
      exact hrun

/-- All semaphores are free and all queues empty. -/
structure Booted (s : Kernel) : Prop where
  alone : Alone s
  queues : QueuesOk s.queuetab s.nextqid
  empty : ∀ q, IsQid s.nextqid q → members s.queuetab q = []
  sems : SemsFree s nsem
  next : s.nextqid = nproc + 2 * (nsem + 2)
  readylist : s.readylist = nproc + 2 * nsem
  sleepq : s.sleepq = nproc + 2 * (nsem + 1)

/-- The part of `sysinit` that comes before the queues. -/
def initTables (b : Board) : KernelM Unit := do
  modify fun s =>
    { s with heap := Memory.meminit b.minheap b.maxheap b.memlistAddr b.contents }
  modify fun s => { s with prcount := 1 }
  modify fun s => { s with defer := { s.defer with ndefers := 0 } }
  initProcs nproc.toNat 0
  modify (·.setProc nullproc fun e => { e with prstate := .prCurr, prprio := 0 })
  let base ← onHeap (Memory.getstk nullstk)
  modify (·.setProc nullproc fun e =>
    { e with prstkbase := base.getD 0xFFFFFFFF, prstklen := nullstk, prstkptr := .saved })
  modify fun s => { s with currpid := nullproc }

/-- The part that allocates the queues. -/
def initQueues : KernelM Unit := do
  initSems nsem.toNat 0
  let q ← newqueue
  modify fun s => { s with readylist := q }
  clkinit

theorem sysinit_eq (b : Board) (s : Kernel) :
    sysinit b s = (initTables b s).bind fun _ => initQueues := by
  simp only [sysinit, initTables, initQueues, Coop.run_bind, Flow.bind_assoc]
  rfl

theorem initTables_run (b : Board) :
    ∃ s, initTables b (loaded b) = .done () s ∧ Alone s ∧ s.queuetab = (loaded b).queuetab ∧
      s.semtab = (loaded b).semtab ∧ s.nextqid = nproc := by
  obtain ⟨m, hm⟩ : ∃ m, Memory.meminit b.minheap b.maxheap b.memlistAddr b.contents = m := ⟨_, rfl⟩
  have hpart := Memory.partition_meminit b.minheap_aligned b.maxheap_aligned b.minheap_pos
    b.minheap_lt b.maxheap_lt b.memlistAddr b.contents
  rw [hm] at hpart
  obtain ⟨proctab, hprocs, hfree⟩ := initProcs_run nproc.toNat 0
    { loaded b with heap := m, prcount := 1, defer := ⟨0, false⟩ } fun p => ⟨rfl, rfl⟩
  obtain ⟨base, m', hstk, l, hl⟩ : ∃ base m', Memory.getstk nullstk m = .done base m' ∧
      ∃ l, Memory.FreeList m' l := by
    rcases Memory.getstk_run (n := nullstk) hpart.free with ⟨-, hrun⟩ | ⟨-, a, m', l', hrun, hgrant⟩
    · exact ⟨none, m, hrun, _, hpart.free⟩
    · exact ⟨_, m', hrun, l', hgrant.free⟩
  obtain ⟨s₀, hs₀⟩ : ∃ s₀ : Kernel, { loaded b with
      heap := m', prcount := 1, defer := ⟨0, false⟩, proctab := proctab } = s₀ := ⟨_, rfl⟩
  obtain ⟨s₁, hs₁⟩ : ∃ s₁ : Kernel, { (s₀.setProc nullproc fun e =>
      { e with prstate := .prCurr, prprio := 0 }).setProc nullproc fun e =>
        { e with prstkbase := base.getD 0xFFFFFFFF, prstklen := nullstk, prstkptr := .saved } with
      currpid := nullproc } = s₁ := ⟨_, rfl⟩
  have hproc : ∀ p, p ≠ nullproc → s₁.proctab p = proctab p := by
    intro p hp
    rw [← hs₁, ← hs₀]
    simp [hp]
  have hnull : s₁.state nullproc = .prCurr := by
    rw [← hs₁]
    unfold Kernel.state
    simp
  refine ⟨s₁, ?_, ⟨?_, hnull, ?_, ?_, ?_⟩, ?_, ?_, ?_⟩
  · have hheap : onHeap (Memory.getstk nullstk) ({ loaded b with
        heap := m, prcount := 1, defer := ⟨0, false⟩, proctab := proctab }.setProc nullproc
          fun e => { e with prstate := .prCurr, prprio := 0 }) =
        .done base (s₀.setProc nullproc fun e => { e with prstate := .prCurr, prprio := 0 }) := by
      simp [onHeap, hstk, ← hs₀, Kernel.setProc]
    have hprocs' : initProcs nproc.toNat 0 { loaded b with
        heap := m, prcount := 1, defer := { (loaded b).defer with ndefers := 0 } } =
        .done () { loaded b with
          heap := m, prcount := 1, defer := ⟨0, false⟩, proctab := proctab } := hprocs
    simp only [initTables, Coop.run_bind, Coop.run_modify, Flow.bind_done, hm, hprocs', hheap]
    rw [← hs₁]
  · rw [← hs₁]
  · intro p hp
    unfold Kernel.state
    rw [hproc p hp]
    exact hfree p
  · rw [← hs₁, ← hs₀]
    exact ⟨l, hl⟩
  · rw [← hs₁, ← hs₀]
    rfl
  · rw [← hs₁, ← hs₀]
    rfl
  · rw [← hs₁, ← hs₀]
    rfl
  · rw [← hs₁, ← hs₀]
    rfl

theorem sysinit_run (b : Board) : ∃ s, sysinit b (loaded b) = .done () s ∧ Booted s := by
  obtain ⟨s₁, hrun₁, halone, hqueues, hsems, hnext⟩ := initTables_run b
  -- no queue identifier is in use yet
  have hnone : ∀ q, ¬ IsQid nproc q := by
    intro q hq
    unfold IsQid at hq
    omega
  have halloc₁ : Allocating s₁ 0 := by
    refine ⟨hnext, ?_, ?_⟩
    · rw [hnext]
      exact ⟨fun q hq => (hnone q hq).elim, fun q hq => (hnone q hq).elim,
        fun q _ _ hq => (hnone q hq).elim, fun q hq => (hnone q hq).elim,
        fun q hq => (hnone q hq).elim⟩
    · rw [hnext]
      exact fun q hq => (hnone q hq).elim
  have hfree₁ : SemsFree s₁ 0 := by
    refine ⟨?_, fun x hx hlt => by omega⟩
    intro x
    unfold Kernel.count
    rw [hsems]
    rfl
  obtain ⟨t₂, tab, hrun₂, halloc₂, hfree₂⟩ :=
    initSems_run nsem.toNat 0 s₁ (by decide) (by decide) halloc₁ hfree₁
  have hcount : (0 : Int) + nsem.toNat = nsem := by decide
  rw [hcount] at hrun₂ halloc₂ hfree₂
  obtain ⟨t₃, hrun₃, halloc₃⟩ := halloc₂.newqueue (by decide) (by decide)
  have halloc₃' : Allocating { s₁ with
      queuetab := t₃, nextqid := nproc + 2 * (nsem + 1), semtab := tab,
      readylist := nproc + 2 * nsem } (nsem + 1) := ⟨rfl, halloc₃.queues, halloc₃.empty⟩
  obtain ⟨t₄, hrun₄, halloc₄⟩ := halloc₃'.newqueue (by decide) (by decide)
  have hsum : nsem + 1 + 1 = nsem + 2 := by decide
  rw [hsum] at hrun₄ halloc₄
  refine ⟨{ s₁ with
    queuetab := t₄, nextqid := nproc + 2 * (nsem + 2), semtab := tab,
    readylist := nproc + 2 * nsem, sleepq := nproc + 2 * (nsem + 1), preempt := quantum,
    clktime := 0 }, ?_, ?_⟩
  · rw [sysinit_eq, hrun₁]
    simp only [Flow.bind_done, initQueues, Coop.run_bind, hrun₂, hrun₃, clkinit, Coop.run_modify,
      hrun₄]
  · constructor
    · exact ⟨halone.current, halone.running, halone.free, halone.heap, halone.ndefers⟩
    · exact halloc₄.queues
    · exact halloc₄.empty
    · exact ⟨hfree₂.count, hfree₂.entry⟩
    · rfl
    · rfl
    · rfl

/-- The queues of the system have been allocated one after the other. -/
theorem Booted.ids (h : Booted s) : QueueIds s := by
  have hsq : ∀ x, ¬ isbadsem x → s.squeue x = nproc + 2 * x ∧ 0 ≤ x ∧ x < nsem := by
    intro x hx
    unfold isbadsem at hx
    unfold Kernel.squeue
    rw [h.sems.entry x (by omega) (by omega)]
    exact ⟨rfl, by omega, by omega⟩
  constructor
  · rw [h.readylist, h.next]
    unfold IsQid
    decide
  · rw [h.sleepq, h.next]
    unfold IsQid
    decide
  · intro x hx
    obtain ⟨heq, hlo, hhi⟩ := hsq x hx
    rw [heq, h.next]
    unfold IsQid nqent nproc nfut nsem at *
    omega
  · rw [h.readylist, h.sleepq]
    decide
  · intro x hx
    obtain ⟨heq, hlo, hhi⟩ := hsq x hx
    rw [heq, h.readylist, h.sleepq]
    omega
  · intro x y hx hy hxy
    rw [(hsq x hx).1, (hsq y hy).1] at hxy
    omega

theorem Booted.semView (h : Booted s) : semView s = fun _ => ⟨false, 0, []⟩ := by
  funext x
  unfold Xinu.semView
  by_cases hx : isbadsem x
  · rw [if_pos hx]
  · have hx' := hx
    unfold isbadsem at hx'
    rw [if_neg hx, h.empty _ (h.ids.sem x hx), h.sems.entry x (by omega) (by omega)]
    rfl

theorem Booted.kernelOk (h : Booted s) (o : Assumed) : KernelOk o s := by
  have hone : ∀ p, s.state p = .prCurr ∨ s.state p = .prFree := by
    intro p
    by_cases hp : p = nullproc
    · rw [hp]
      exact Or.inl h.alone.running
    · exact Or.inr (h.alone.free p hp).1
  have hnot : ∀ p, ¬ Queued (s.state p) := by
    intro p
    rcases hone p with hst | hst <;> rw [hst] <;> decide
  have hids := h.ids
  refine ⟨⟨h.queues, hids, by simp, ?_, ?_, ?_, ?_, ?_, ?_, ?_, ?_, ?_, ?_, h.alone.heap, ?_⟩, ?_,
    ?_, ?_, ?_⟩
  · intro q p hq hp
    rw [h.empty q hq] at hp
    simp at hp
  · exact fun p _ _ hst => (hnot p (Or.inl hst)).elim
  · intro p _ _ hst
    refine (hnot p ?_).elim
    rcases hst with hst | hst
    · exact Or.inr (Or.inl hst)
    · exact Or.inr (Or.inr (Or.inl hst))
  · exact fun _ p _ _ hst => (hnot p (Or.inr (Or.inr (Or.inr hst)))).elim
  · intro x p hx hp
    rw [h.empty _ (hids.sem x hx)] at hp
    simp at hp
  · rw [h.empty _ hids.ready]
    exact List.Pairwise.nil
  · intro _ p hp
    rw [h.empty _ hids.ready] at hp
    simp at hp
  · intro p _ _ hst
    by_contra hne
    have hp : p ≠ nullproc := fun heq => hne (heq.trans h.alone.current.symm)
    rw [(h.alone.free p hp).1] at hst
    contradiction
  · rw [h.alone.current]
    decide
  · exact fun _ => Or.inl h.alone.running
  · intro p hp
    left
    rw [(h.alone.free p hp).2]
    decide
  · intro x
    rw [h.sems.count x]
    decide
  · rw [h.alone.ndefers]
  · intro _
    rw [h.alone.current]
    exact h.alone.running
  · exact fun _ _ p _ hst => (hnot p (Or.inl hst)).elim

/-- `sysinit` returns, with the null process running and nothing else. -/
theorem boot_eq (b : Board) : sysinit b (loaded b) = .done () (boot b) ∧ Booted (boot b) := by
  obtain ⟨s, hrun, hs⟩ := sysinit_run b
  have hboot : boot b = s := by
    unfold boot
    rw [hrun]
  rw [hboot]
  exact ⟨hrun, hs⟩

end Runs

end Xinu
