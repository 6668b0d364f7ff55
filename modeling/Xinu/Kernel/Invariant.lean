import Xinu.Kernel.QueueSpec
import Xinu.Memory.FreeList

/-!
# The kernel invariant

Every process is linked on the queue its state asks for and on no other one.
While a procedure moves a process between queues this fails for that process
alone, so the invariant has a hole: `Consistent o (some p) s` says that `p` is
linked nowhere and that all other processes are where they belong.

Main results:

- Theorems `Consistent.openLoose` and `Consistent.unlink`: a process leaves its place.
- Theorems `Consistent.close`, `Consistent.link` and `Consistent.run`: it gets a new one.
- Theorem `Consistent.congr`: the invariant reads only part of the state.
-/

namespace Xinu

open Foundations Function

/-- What a run is assumed to do, beyond the kernel's own rules. -/
structure Assumed where
  /-- No priority is changed while its process is on the ready list. -/
  keys : Prop
  /-- Only the semaphore calls make a process wait. -/
  waits : Prop
  /-- No call leaves rescheduling deferred. -/
  atomic : Prop

/-- The identifiers of the system's queues are allocated and distinct. -/
structure QueueIds (s : Kernel) : Prop where
  ready : IsQid s.nextqid s.readylist
  sleep : IsQid s.nextqid s.sleepq
  sem : ∀ x, ¬ isbadsem x → IsQid s.nextqid (s.squeue x)
  ready_ne_sleep : s.readylist ≠ s.sleepq
  sem_ne : ∀ x, ¬ isbadsem x → s.squeue x ≠ s.readylist ∧ s.squeue x ≠ s.sleepq
  sem_inj : ∀ x y, ¬ isbadsem x → ¬ isbadsem y → s.squeue x = s.squeue y → x = y

/-- A process in state `st` may be linked on queue `q`. -/
def Home (s : Kernel) (q : Int) (st : PrState) : Prop :=
  (st = .prReady ∧ q = s.readylist) ∨
    ((st = .prSleep ∨ st = .prRectim) ∧ q = s.sleepq) ∨
      (st = .prWait ∧ q ≠ s.readylist ∧ q ≠ s.sleepq)

/-- The states of processes that are linked on a queue. -/
def Queued (st : PrState) : Prop :=
  st = .prReady ∨ st = .prSleep ∨ st = .prRectim ∨ st = .prWait

instance (st : PrState) : Decidable (Queued st) :=
  inferInstanceAs (Decidable (_ ∨ _))

/-- The stack of a process is what `getstk` returned, if it is not empty. -/
def StackOk (m : Memory.Heap) (base len : Nat) : Prop :=
  Memory.roundmb len = 0 ∨
    ∃ a, base = a + Memory.roundmb len - 4 ∧ 8 ∣ a ∧ m.minheap ≤ a ∧
      a + Memory.roundmb len ≤ m.maxheap

/-- Every process except the one in the hole is where its state says. -/
structure Consistent (o : Assumed) (hole : Option Int) (s : Kernel) : Prop where
  queues : QueuesOk s.queuetab s.nextqid
  ids : QueueIds s
  loose : ∀ p, hole = some p → IsPid p ∧ Unlinked s.queuetab s.nextqid p
  home : ∀ q p, IsQid s.nextqid q → p ∈ members s.queuetab q → Home s q (s.state p)
  ready_mem : ∀ p, hole ≠ some p → IsPid p → s.state p = .prReady →
    p ∈ members s.queuetab s.readylist
  sleep_mem : ∀ p, hole ≠ some p → IsPid p → s.state p = .prSleep ∨ s.state p = .prRectim →
    p ∈ members s.queuetab s.sleepq
  wait_mem : o.waits → ∀ p, hole ≠ some p → IsPid p → s.state p = .prWait →
    ¬ isbadsem (s.proctab p).prsem ∧ p ∈ members s.queuetab (s.squeue (s.proctab p).prsem)
  prsem : ∀ x p, ¬ isbadsem x → p ∈ members s.queuetab (s.squeue x) → (s.proctab p).prsem = x
  sorted : (members s.queuetab s.readylist).Pairwise
    fun a b => s.queuetab.qkey b ≤ s.queuetab.qkey a
  keys : o.keys → ∀ p ∈ members s.queuetab s.readylist, s.queuetab.qkey p = s.prio p
  curr : ∀ p, hole ≠ some p → IsPid p → s.state p = .prCurr → p = s.currpid
  pid : IsPid s.currpid
  null : hole ≠ some nullproc → s.state nullproc = .prCurr ∨ s.state nullproc = .prReady
  heap : ∃ l, Memory.FreeList s.heap l
  stack : ∀ p, p ≠ nullproc → StackOk s.heap (s.proctab p).prstkbase (s.proctab p).prstklen

section Fields

variable (s : Kernel) (p r x c : Int) (f : Procent → Procent) (st : PrState)

@[simp]
theorem proctab_setProc :
    (s.setProc p f).proctab r = if r = p then f (s.proctab p) else s.proctab r := by
  unfold Kernel.setProc
  by_cases h : r = p <;> simp [h]

@[simp]
theorem queuetab_setProc : (s.setProc p f).queuetab = s.queuetab := rfl

@[simp]
theorem currpid_setProc : (s.setProc p f).currpid = s.currpid := rfl

@[simp]
theorem readylist_setProc : (s.setProc p f).readylist = s.readylist := rfl

@[simp]
theorem sleepq_setProc : (s.setProc p f).sleepq = s.sleepq := rfl

@[simp]
theorem defer_setProc : (s.setProc p f).defer = s.defer := rfl

@[simp]
theorem heap_setProc : (s.setProc p f).heap = s.heap := rfl

@[simp]
theorem squeue_setProc : (s.setProc p f).squeue x = s.squeue x := rfl

@[simp]
theorem count_setProc : (s.setProc p f).count x = s.count x := rfl

@[simp]
theorem state_setState : (s.setState p st).state r = if r = p then st else s.state r := by
  unfold Kernel.setState Kernel.state
  by_cases h : r = p <;> simp [h]

@[simp]
theorem prio_setState : (s.setState p st).prio r = s.prio r := by
  unfold Kernel.setState Kernel.prio
  by_cases h : r = p <;> simp [h]

@[simp]
theorem queuetab_setState : (s.setState p st).queuetab = s.queuetab := rfl

@[simp]
theorem currpid_setState : (s.setState p st).currpid = s.currpid := rfl

@[simp]
theorem readylist_setState : (s.setState p st).readylist = s.readylist := rfl

@[simp]
theorem sleepq_setState : (s.setState p st).sleepq = s.sleepq := rfl

@[simp]
theorem defer_setState : (s.setState p st).defer = s.defer := rfl

@[simp]
theorem queuetab_setCount : (s.setCount x c).queuetab = s.queuetab := rfl

@[simp]
theorem proctab_setCount : (s.setCount x c).proctab = s.proctab := rfl

@[simp]
theorem state_setCount : (s.setCount x c).state r = s.state r := rfl

@[simp]
theorem currpid_setCount : (s.setCount x c).currpid = s.currpid := rfl

@[simp]
theorem defer_setCount : (s.setCount x c).defer = s.defer := rfl

@[simp]
theorem count_setCount : (s.setCount x c).count x = c := by
  simp [Kernel.count, Kernel.setCount, Kernel.setSem]

@[simp]
theorem squeue_setCount : (s.setCount x c).squeue r = s.squeue r := by
  unfold Kernel.squeue Kernel.setCount Kernel.setSem
  by_cases h : r = x <;> simp [h]

@[simp]
theorem sstate_setCount : ((s.setCount x c).semtab r).sstate = (s.semtab r).sstate := by
  unfold Kernel.setCount Kernel.setSem
  by_cases h : r = x <;> simp [h]

end Fields

/-! ## What the invariant reads -/

/-- The two states agree on everything the invariant reads. -/
structure Agrees (o : Assumed) (s s' : Kernel) : Prop where
  queuetab : s'.queuetab = s.queuetab
  nextqid : s'.nextqid = s.nextqid
  readylist : s'.readylist = s.readylist
  sleepq : s'.sleepq = s.sleepq
  currpid : s'.currpid = s.currpid
  heap : s'.heap = s.heap
  squeue : ∀ x, s'.squeue x = s.squeue x
  state : ∀ p, s'.state p = s.state p
  prsem : ∀ p, (s'.proctab p).prsem = (s.proctab p).prsem
  prio : o.keys → ∀ p ∈ members s.queuetab s.readylist, s'.prio p = s.prio p
  stack : ∀ p, (s'.proctab p).prstkbase = (s.proctab p).prstkbase ∧
    (s'.proctab p).prstklen = (s.proctab p).prstklen

section Invariant

variable {o : Assumed} {hole : Option Int} {s s' : Kernel} {p q r : Int} {t' : QueueTab}
variable {l : List Int}

theorem QueueIds.congr (h : QueueIds s) (hn : s'.nextqid = s.nextqid)
    (hr : s'.readylist = s.readylist) (hs : s'.sleepq = s.sleepq) (hsq : s'.squeue = s.squeue) :
    QueueIds s' := by
  constructor
  · rw [hn, hr]; exact h.ready
  · rw [hn, hs]; exact h.sleep
  · rw [hn, hsq]; exact h.sem
  · rw [hr, hs]; exact h.ready_ne_sleep
  · rw [hr, hs, hsq]; exact h.sem_ne
  · rw [hsq]; exact h.sem_inj

/-- The invariant carries over to a state that agrees on what it reads. -/
theorem Consistent.congr (h : Consistent o hole s) (ha : Agrees o s s') :
    Consistent o hole s' := by
  have hst : s'.state = s.state := funext ha.state
  have hsq : s'.squeue = s.squeue := funext ha.squeue
  have hhome : Home s' = Home s := by
    unfold Home
    rw [ha.readylist, ha.sleepq]
  constructor
  · rw [ha.queuetab, ha.nextqid]; exact h.queues
  · exact h.ids.congr ha.nextqid ha.readylist ha.sleepq hsq
  · rw [ha.queuetab, ha.nextqid]; exact h.loose
  · rw [ha.queuetab, ha.nextqid, hst, hhome]; exact h.home
  · rw [ha.queuetab, ha.readylist, hst]; exact h.ready_mem
  · rw [ha.queuetab, ha.sleepq, hst]; exact h.sleep_mem
  · intro hw p hp hpid hwait
    rw [ha.queuetab, hsq, ha.prsem p]
    exact h.wait_mem hw p hp hpid (by rw [← hst]; exact hwait)
  · intro x p hx hp
    rw [ha.queuetab, hsq] at hp
    rw [ha.prsem p]
    exact h.prsem x p hx hp
  · rw [ha.queuetab, ha.readylist]; exact h.sorted
  · intro hk p hp
    rw [ha.queuetab, ha.readylist] at hp
    rw [ha.queuetab, ha.prio hk p hp]
    exact h.keys hk p hp
  · rw [hst, ha.currpid]; exact h.curr
  · rw [ha.currpid]; exact h.pid
  · rw [hst]; exact h.null
  · rw [ha.heap]; exact h.heap
  · intro p hp
    rw [ha.heap, (ha.stack p).1, (ha.stack p).2]
    exact h.stack p hp

/-- A change of a table entry that leaves alone what the invariant reads. -/
structure Benign (f : Procent → Procent) : Prop where
  prstate : ∀ e, (f e).prstate = e.prstate
  prprio : ∀ e, (f e).prprio = e.prprio
  prsem : ∀ e, (f e).prsem = e.prsem
  stack : ∀ e, (f e).prstkbase = e.prstkbase ∧ (f e).prstklen = e.prstklen

theorem Benign.state {f : Procent → Procent} (hf : Benign f) (s : Kernel) (p r : Int) :
    (s.setProc p f).state r = s.state r := by
  unfold Kernel.state
  rw [proctab_setProc]
  split
  · next h => rw [h]; exact hf.prstate _
  · rfl

theorem Benign.prio {f : Procent → Procent} (hf : Benign f) (s : Kernel) (p r : Int) :
    (s.setProc p f).prio r = s.prio r := by
  unfold Kernel.prio
  rw [proctab_setProc]
  split
  · next h => rw [h, hf.prprio]
  · rfl

theorem Benign.agrees {f : Procent → Procent} (hf : Benign f) (s : Kernel) (p : Int) :
    Agrees o s (s.setProc p f) := by
  refine ⟨rfl, rfl, rfl, rfl, rfl, rfl, fun _ => rfl, hf.state s p, ?_,
    fun _ r _ => hf.prio s p r, ?_⟩
  · intro r
    rw [proctab_setProc]
    split
    · next h => rw [h]; exact hf.prsem _
    · rfl
  · intro r
    rw [proctab_setProc]
    split
    · next h => rw [h]; exact hf.stack _
    · exact ⟨rfl, rfl⟩

/-! ## Reading the invariant -/

theorem Consistent.isPid (_h : Consistent o hole s) (hp : p ∈ members s.queuetab q) : IsPid p :=
  isPid_of_mem_members hp

/-- The ready list holds the ready processes. -/
theorem Consistent.ready_iff (h : Consistent o none s) :
    p ∈ members s.queuetab s.readylist ↔ IsPid p ∧ s.state p = .prReady := by
  constructor
  · intro hp
    refine ⟨h.isPid hp, ?_⟩
    rcases h.home _ p h.ids.ready hp with hst | hst | hst
    · exact hst.1
    · exact (h.ids.ready_ne_sleep hst.2).elim
    · exact (hst.2.1 rfl).elim
  · rintro ⟨hpid, hst⟩
    exact h.ready_mem p (by simp) hpid hst

/-- The sleep queue holds the sleeping processes. -/
theorem Consistent.sleep_iff (h : Consistent o none s) :
    p ∈ members s.queuetab s.sleepq ↔
      IsPid p ∧ (s.state p = .prSleep ∨ s.state p = .prRectim) := by
  constructor
  · intro hp
    refine ⟨h.isPid hp, ?_⟩
    rcases h.home _ p h.ids.sleep hp with hst | hst | hst
    · exact (h.ids.ready_ne_sleep hst.2.symm).elim
    · exact hst.1
    · exact (hst.2.2 rfl).elim
  · rintro ⟨hpid, hst⟩
    exact h.sleep_mem p (by simp) hpid hst

/-- The queue of a semaphore holds waiting processes. -/
theorem Consistent.wait_of_mem {x : Int} (h : Consistent o hole s) (hx : ¬ isbadsem x)
    (hp : p ∈ members s.queuetab (s.squeue x)) : s.state p = .prWait := by
  rcases h.home _ p (h.ids.sem x hx) hp with hst | hst | hst
  · exact ((h.ids.sem_ne x hx).1 hst.2).elim
  · exact ((h.ids.sem_ne x hx).2 hst.2).elim
  · exact hst.1

/-- The queue of a semaphore holds the processes that wait for it. -/
theorem Consistent.wait_iff {x : Int} (h : Consistent o none s) (hw : o.waits)
    (hx : ¬ isbadsem x) :
    p ∈ members s.queuetab (s.squeue x) ↔
      IsPid p ∧ s.state p = .prWait ∧ (s.proctab p).prsem = x := by
  constructor
  · intro hp
    have hwait := h.wait_of_mem hx hp
    obtain ⟨hsem, hmem⟩ := h.wait_mem hw p (by simp) (h.isPid hp) hwait
    refine ⟨h.isPid hp, hwait, ?_⟩
    exact h.ids.sem_inj _ _ hsem hx
      (h.queues.disjoint _ _ p (h.ids.sem _ hsem) (h.ids.sem x hx) hmem hp)
  · rintro ⟨hpid, hwait, rfl⟩
    exact (h.wait_mem hw p (by simp) hpid hwait).2

/-- A process that no queue is the home of is linked nowhere. -/
theorem Consistent.unlinked (h : Consistent o hole s) (hst : ¬ Queued (s.state p)) :
    Unlinked s.queuetab s.nextqid p := by
  intro q hq hp
  refine hst ?_
  unfold Queued
  rcases h.home q p hq hp with hst | hst | hst
  · exact Or.inl hst.1
  · rcases hst.1 with hst | hst
    · exact Or.inr (Or.inl hst)
    · exact Or.inr (Or.inr (Or.inl hst))
  · exact Or.inr (Or.inr (Or.inr hst.1))

/-! ## Leaving a place -/

/-- A process that is linked nowhere can be moved. -/
theorem Consistent.openLoose (h : Consistent o none s) (hp : IsPid p)
    (hun : Unlinked s.queuetab s.nextqid p) : Consistent o (some p) s := by
  constructor
  · exact h.queues
  · exact h.ids
  · intro r hr
    rw [← Option.some.inj hr]
    exact ⟨hp, hun⟩
  · exact h.home
  · exact fun r _ => h.ready_mem r (by simp)
  · exact fun r _ => h.sleep_mem r (by simp)
  · exact fun hw r _ => h.wait_mem hw r (by simp)
  · exact h.prsem
  · exact h.sorted
  · exact h.keys
  · exact fun r _ => h.curr r (by simp)
  · exact h.pid
  · exact fun _ => h.null (by simp)
  · exact h.heap
  · exact h.stack

/-- A process that is taken from its queue can be moved. -/
theorem Consistent.unlink (h : Consistent o none s)
    (hp : p ∈ members s.queuetab q)
    (hupd : QueueUpdate s.queuetab t' s.nextqid q ((members s.queuetab q).erase p))
    (hun : Unlinked t' s.nextqid p)
    (hkey : ∀ i ∈ members s.queuetab s.readylist, t'.qkey i = s.queuetab.qkey i) :
    Consistent o (some p) { s with queuetab := t' } := by
  -- the lists are those of before, without the process
  have hsub : ∀ q', IsQid s.nextqid q' → (members t' q').Sublist (members s.queuetab q') := by
    intro q' hq'
    by_cases hne : q' = q
    · subst q'; rw [hupd.self]; exact List.erase_sublist
    · rw [hupd.other q' hq' hne]
  have hmem : ∀ q', IsQid s.nextqid q' → ∀ r, some p ≠ some r →
      r ∈ members s.queuetab q' → r ∈ members t' q' := by
    intro q' hq' r hr hmem
    by_cases hne : q' = q
    · subst q'
      rw [hupd.self]
      exact (List.mem_erase_of_ne fun heq => hr (by rw [heq])).mpr hmem
    · rw [hupd.other q' hq' hne]; exact hmem
  have hready := hsub _ h.ids.ready
  constructor
  · exact hupd.ok
  · exact h.ids.congr rfl rfl rfl rfl
  · intro r hr
    rw [← Option.some.inj hr]
    exact ⟨h.isPid hp, hun⟩
  · exact fun q' r hq' hr => h.home q' r hq' ((hsub q' hq').mem hr)
  · exact fun r hr hpid hst => hmem _ h.ids.ready r hr (h.ready_mem r (by simp) hpid hst)
  · exact fun r hr hpid hst => hmem _ h.ids.sleep r hr (h.sleep_mem r (by simp) hpid hst)
  · intro hw r hr hpid hst
    obtain ⟨hsem, hin⟩ := h.wait_mem hw r (by simp) hpid hst
    exact ⟨hsem, hmem _ (h.ids.sem _ hsem) r hr hin⟩
  · exact fun x r hx hr => h.prsem x r hx ((hsub _ (h.ids.sem x hx)).mem hr)
  · refine (h.sorted.sublist hready).imp_of_mem ?_
    intro a b ha hb hab
    rw [hkey a (hready.mem ha), hkey b (hready.mem hb)]
    exact hab
  · intro hk r hr
    refine (hkey r (hready.mem hr)).trans (h.keys hk r (hready.mem hr))
  · exact fun r _ => h.curr r (by simp)
  · exact h.pid
  · exact fun _ => h.null (by simp)
  · exact h.heap
  · exact h.stack

/-- The entry of the moving process may change. -/
theorem Consistent.setProc {f : Procent → Procent} (h : Consistent o (some p) s)
    (hstk : p ≠ nullproc → StackOk s.heap (f (s.proctab p)).prstkbase (f (s.proctab p)).prstklen) :
    Consistent o (some p) (s.setProc p f) := by
  have hun := (h.loose p rfl).2
  have hne : ∀ r, some p ≠ some r → (s.setProc p f).proctab r = s.proctab r := by
    intro r hr
    have hrp : r ≠ p := fun heq => hr (by rw [heq])
    simp [hrp]
  have hstate : ∀ r, some p ≠ some r → (s.setProc p f).state r = s.state r := fun r hr => by
    unfold Kernel.state; rw [hne r hr]
  have hmem : ∀ q r, IsQid s.nextqid q → r ∈ members s.queuetab q → some p ≠ some r := by
    intro q r hq hr heq
    rw [← Option.some.inj heq] at hr
    exact hun q hq hr
  constructor
  · exact h.queues
  · exact h.ids.congr rfl rfl rfl rfl
  · exact h.loose
  · intro q r hq hr
    rw [hstate r (hmem q r hq hr)]
    exact h.home q r hq hr
  · intro r hr hpid hst
    rw [hstate r hr] at hst
    exact h.ready_mem r hr hpid hst
  · intro r hr hpid hst
    rw [hstate r hr] at hst
    exact h.sleep_mem r hr hpid hst
  · intro hw r hr hpid hst
    rw [hstate r hr] at hst
    rw [hne r hr]
    exact h.wait_mem hw r hr hpid hst
  · intro x r hx hr
    rw [hne r (hmem _ r (h.ids.sem x hx) hr)]
    exact h.prsem x r hx hr
  · exact h.sorted
  · intro hk r hr
    unfold Kernel.prio
    rw [hne r (hmem _ r h.ids.ready hr)]
    exact h.keys hk r hr
  · intro r hr hpid hst
    rw [hstate r hr] at hst
    exact h.curr r hr hpid hst
  · exact h.pid
  · intro hnull
    rw [hstate nullproc hnull]
    exact h.null hnull
  · exact h.heap
  · intro r hr
    by_cases hrp : r = p
    · subst r
      rw [proctab_setProc, if_pos rfl]
      exact hstk hr
    · rw [hne r fun heq => hrp (Option.some.inj heq).symm]
      exact h.stack r hr

theorem Consistent.setState {st : PrState} (h : Consistent o (some p) s) :
    Consistent o (some p) (s.setState p st) :=
  h.setProc fun hp => h.stack p hp

/-! ## Getting a place -/

/-- A process that no queue is the home of needs no link. -/
theorem Consistent.close (h : Consistent o (some p) s)
    (hst : ¬ Queued (s.state p) ∨ (¬ o.waits ∧ s.state p = .prWait))
    (hcurr : s.state p = .prCurr → p = s.currpid)
    (hnull : p = nullproc → s.state p = .prCurr) : Consistent o none s := by
  have hother : ∀ r, r ≠ p → some p ≠ some r := fun r hr heq => hr (Option.some.inj heq).symm
  unfold Queued at hst
  constructor
  · exact h.queues
  · exact h.ids
  · simp
  · exact h.home
  · intro r _ hpid hready
    by_cases hr : r = p
    · subst r; simp [hready] at hst
    · exact h.ready_mem r (hother r hr) hpid hready
  · intro r _ hpid hsleep
    by_cases hr : r = p
    · subst r
      rcases hsleep with hsleep | hsleep <;> simp [hsleep] at hst
    · exact h.sleep_mem r (hother r hr) hpid hsleep
  · intro hw r _ hpid hwait
    by_cases hr : r = p
    · subst r; simp [hwait, hw] at hst
    · exact h.wait_mem hw r (hother r hr) hpid hwait
  · exact h.prsem
  · exact h.sorted
  · exact h.keys
  · intro r _ hpid hst'
    by_cases hr : r = p
    · subst r; exact hcurr hst'
    · exact h.curr r (hother r hr) hpid hst'
  · exact h.pid
  · intro _
    by_cases hp : p = nullproc
    · rw [← hp]; exact Or.inl (hnull hp)
    · exact h.null fun heq => hp (Option.some.inj heq)
  · exact h.heap
  · exact h.stack

/-- The moving process becomes the current one. -/
theorem Consistent.run (h : Consistent o (some p) s)
    (hidle : s.state s.currpid = .prCurr → s.currpid = p) :
    Consistent o none ({ s with currpid := p }.setState p .prCurr) := by
  have hother : ∀ r, r ≠ p → some p ≠ some r := fun r hr heq => hr (Option.some.inj heq).symm
  have hopen : Consistent o (some p) (s.setState p .prCurr) := h.setState
  have hstate : ∀ r, ({ s with currpid := p }.setState p .prCurr).state r =
      if r = p then .prCurr else s.state r := fun r => state_setState _ _ _ _
  have hmoved : Consistent o (some p) ({ s with currpid := p }.setState p .prCurr) := by
    constructor
    · exact hopen.queues
    · exact hopen.ids.congr rfl rfl rfl rfl
    · exact hopen.loose
    · exact hopen.home
    · exact hopen.ready_mem
    · exact hopen.sleep_mem
    · exact hopen.wait_mem
    · exact hopen.prsem
    · exact hopen.sorted
    · exact hopen.keys
    · intro r hr hpid hst
      have hrp : r ≠ p := fun heq => hr (by rw [heq])
      rw [hstate r, if_neg hrp] at hst
      have hcur := h.curr r hr hpid hst
      exact hcur.trans (hidle (hcur ▸ hst))
    · exact (h.loose p rfl).1
    · exact hopen.null
    · exact hopen.heap
    · exact hopen.stack
  have hcurr : ({ s with currpid := p }.setState p .prCurr).state p = .prCurr := by
    rw [hstate p, if_pos rfl]
  refine hmoved.close (Or.inl ?_) (fun _ => rfl) fun _ => hcurr
  rw [hcurr]
  decide

/-- The moving process is linked on the queue that its new state asks for. -/
theorem Consistent.link {e : Procent} (h : Consistent o (some p) s)
    (hupd : QueueUpdate s.queuetab t' s.nextqid q l)
    (hl : ∀ x, x ∈ l ↔ x = p ∨ x ∈ members s.queuetab q)
    (hhome : Home s q e.prstate)
    (hwait : o.waits → e.prstate = .prWait → ¬ isbadsem e.prsem ∧ q = s.squeue e.prsem)
    (hsem : ∀ x, ¬ isbadsem x → q = s.squeue x → e.prsem = x)
    (hstk : e.prstkbase = (s.proctab p).prstkbase ∧ e.prstklen = (s.proctab p).prstklen)
    (hnull : p = nullproc → e.prstate = .prReady)
    (hsorted : (members t' s.readylist).Pairwise fun a b => t'.qkey b ≤ t'.qkey a)
    (hkeys : o.keys → ∀ x ∈ members t' s.readylist, t'.qkey x =
      if x = p then e.prprio.toInt else s.prio x) :
    Consistent o none { s with queuetab := t', proctab := update s.proctab p e } := by
  obtain ⟨hpid, hun⟩ := h.loose p rfl
  have hother : ∀ r, r ≠ p → some p ≠ some r := fun r hr heq => hr (Option.some.inj heq).symm
  have hmem : ∀ q', IsQid s.nextqid q' → ∀ r, r ≠ p →
      (r ∈ members t' q' ↔ r ∈ members s.queuetab q') := by
    intro q' hq' r hr
    by_cases hne : q' = q
    · subst q'
      rw [hupd.self, hl]
      simp [hr]
    · rw [hupd.other q' hq' hne]
  have hself : p ∈ members t' q := by
    rw [hupd.self, hl]
    exact Or.inl rfl
  have hnot : ∀ q', IsQid s.nextqid q' → q' ≠ q → p ∉ members t' q' := by
    intro q' hq' hne
    rw [hupd.other q' hq' hne]
    exact hun q' hq'
  have hproc : ∀ r, r ≠ p → update s.proctab p e r = s.proctab r := fun r hr =>
    update_of_ne hr _ _
  have hstate : ∀ r, r ≠ p → (update s.proctab p e r).prstate = s.state r := fun r hr => by
    rw [hproc r hr]; rfl
  constructor
  · exact hupd.ok
  · exact h.ids.congr rfl rfl rfl rfl
  · simp
  · intro q' r hq' hr
    by_cases hrp : r = p
    · subst r
      have hqq : q' = q := by
        by_contra hne
        exact hnot q' hq' hne hr
      subst q'
      unfold Kernel.state
      simp only [update_self]
      exact hhome
    · unfold Kernel.state
      simp only [hproc r hrp]
      exact h.home q' r hq' ((hmem q' hq' r hrp).mp hr)
  · intro r _ hrpid hst
    by_cases hrp : r = p
    · subst r
      unfold Kernel.state at hst
      simp only [update_self] at hst
      have hqr : q = s.readylist := by
        unfold Home at hhome
        simpa [hst] using hhome
      exact hqr ▸ hself
    · unfold Kernel.state at hst
      simp only [hproc r hrp] at hst
      exact (hmem _ h.ids.ready r hrp).mpr (h.ready_mem r (hother r hrp) hrpid hst)
  · intro r _ hrpid hst
    by_cases hrp : r = p
    · subst r
      unfold Kernel.state at hst
      simp only [update_self] at hst
      have hqs : q = s.sleepq := by
        unfold Home at hhome
        rcases hst with hst | hst <;> simpa [hst] using hhome
      exact hqs ▸ hself
    · unfold Kernel.state at hst
      simp only [hproc r hrp] at hst
      exact (hmem _ h.ids.sleep r hrp).mpr (h.sleep_mem r (hother r hrp) hrpid hst)
  · intro hw r _ hrpid hst
    by_cases hrp : r = p
    · subst r
      unfold Kernel.state at hst
      simp only [update_self] at hst ⊢
      obtain ⟨hsem, hqx⟩ := hwait hw hst
      exact ⟨hsem, hqx ▸ hself⟩
    · unfold Kernel.state at hst
      simp only [hproc r hrp] at hst ⊢
      obtain ⟨hsem, hin⟩ := h.wait_mem hw r (hother r hrp) hrpid hst
      exact ⟨hsem, (hmem _ (h.ids.sem _ hsem) r hrp).mpr hin⟩
  · intro x r hx hr
    have hqx := h.ids.sem x hx
    by_cases hrp : r = p
    · subst r
      simp only [update_self]
      apply hsem x hx
      by_contra hne
      exact hnot _ hqx (Ne.symm hne) hr
    · simp only [hproc r hrp]
      exact h.prsem x r hx ((hmem _ hqx r hrp).mp hr)
  · exact hsorted
  · intro hk r hr
    rw [hkeys hk r hr]
    unfold Kernel.prio
    by_cases hrp : r = p
    · subst r; simp
    · simp [hrp]
  · intro r _ hrpid hst
    by_cases hrp : r = p
    · subst r
      unfold Kernel.state at hst
      simp only [update_self] at hst
      unfold Home at hhome
      simp [hst] at hhome
    · unfold Kernel.state at hst
      simp only [hproc r hrp] at hst
      exact h.curr r (hother r hrp) hrpid hst
  · exact h.pid
  · intro _
    by_cases hp : nullproc = p
    · right
      unfold Kernel.state
      simp only [← hp, update_self]
      exact hnull hp.symm
    · have hnull' := h.null (hother _ hp)
      unfold Kernel.state at hnull' ⊢
      simp only [hproc _ hp]
      exact hnull'
  · exact h.heap
  · intro r hr
    by_cases hrp : r = p
    · subst r
      simp only [update_self]
      rw [hstk.1, hstk.2]
      exact h.stack p hr
    · simp only [hproc r hrp]
      exact h.stack r hr

end Invariant

end Xinu
