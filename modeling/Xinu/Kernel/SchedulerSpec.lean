import Xinu.Kernel.Invariant
import Xinu.Kernel.Scheduler
import Xinu.Foundations.CountingSemaphore
import Xinu.Foundations.DeltaQueue

/-!
# What rescheduling does

`KernelOk o s` is the invariant between the segments of a run: every process
has its place, and unless rescheduling is deferred the current process is
running and no ready process has a higher priority.  `Frame` says what a
procedure does to the semaphores and to the sleeping processes, and that it
revives no dead process and wakes no receiver without a message.

Main results:

- Theorem `resched_run`: `resched` restores the invariant, by keeping the
  current process or by switching to the first one of the ready list, which is
  never empty then.
- Theorem `ready_run`: `ready` of a process that is linked nowhere.
-/

namespace Xinu

open Foundations Function

/-! ## Executions that end after at most one switch -/

/-- The execution `x` returns `a` in state `s`, or is switched out in state `s`
and returns `a` as soon as it is resumed. -/
inductive Flow.Lands {σ α : Type} (x : Flow σ α) (a : α) (s : σ) : Prop
  | done (h : x = .done a s)
  | switched (h : x = .suspended s fun s' => .done a s')

theorem Flow.Lands.bind_pure {σ α β : Type} {x : Flow σ α} {a : α} {s : σ} {f : α → Coop σ β}
    {b : β} (h : Flow.Lands x a s) (hf : ∀ s', f a s' = .done b s') :
    Flow.Lands (x.bind f) b s := by
  cases h with
  | done h => exact .done (by rw [h, Flow.bind_done, hf])
  | switched h => exact .switched (by rw [h, Flow.bind_suspended]; simp [hf])

/-! ## The semaphores and the dead -/

/-- The semaphore table as the counting semaphores it implements. -/
def semView (s : Kernel) : Int → Sem Int :=
  fun x =>
    if isbadsem x then ⟨false, 0, []⟩
    else if (s.semtab x).sstate = .sUsed then
      ⟨true, s.count x, members s.queuetab (s.squeue x)⟩
    else ⟨false, 0, members s.queuetab (s.squeue x)⟩

/-- The queue belongs to a semaphore, or to the scheduler. -/
def SystemQueue (s : Kernel) (q : Int) : Prop :=
  q = s.readylist ∨ q = s.sleepq ∨ ∃ x, ¬ isbadsem x ∧ q = s.squeue x

/-- The sleeping processes, each with its delay after the one before. -/
def alarmList (s : Kernel) : Alarms Int :=
  (members s.queuetab s.sleepq).map fun p => (p, s.queuetab.qkey p)

/-- A message waits for the process. -/
def HasMessage (s : Kernel) (p : Int) : Prop :=
  (s.proctab p).prhasmsg = true

instance (s : Kernel) (p : Int) : Decidable (HasMessage s p) :=
  inferInstanceAs (Decidable (_ = _))

/-- The process waits for a message. -/
def Receiving (s : Kernel) (p : Int) : Prop :=
  s.state p = .prRecv ∧ s.currpid ≠ p

/-- The process waits, but for no semaphore. -/
def Held (s : Kernel) (p : Int) : Prop :=
  s.state p = .prWait ∧ ∀ x, ¬ isbadsem x → p ∉ members s.queuetab (s.squeue x)

/-- What every procedure of the scheduler, the semaphores and the clock does: it
allocates no queue and leaves alone those that are not its own, it acts on the
sleep queue as the events `zs`, it takes or runs no free slot but that of the
running process, it wakes a receiver only when it has a message, and it wakes no
process that waits for something else than a semaphore. -/
structure Tame (zs : List (AlarmEvent Int)) (s s' : Kernel) : Prop where
  nextqid : s'.nextqid = s.nextqid
  readylist : s'.readylist = s.readylist
  sleepq : s'.sleepq = s.sleepq
  squeue : s'.squeue = s.squeue
  others : ∀ q, IsQid s.nextqid q → ¬ SystemQueue s q →
    members s'.queuetab q = members s.queuetab q
  alarms : alarmList s' = AlarmEvent.applyAll i32 (alarmList s) zs
  free : ∀ p, s.state p = .prFree → s.currpid ≠ p → s'.state p = .prFree ∧ s'.currpid ≠ p
  receiving : ∀ p, Receiving s p → HasMessage s' p ∨ Receiving s' p
  message : ∀ p, HasMessage s p → HasMessage s' p
  held : ∀ p, Held s p → Held s' p

/-- What a procedure that raises the semaphore events `evs` and the alarm events
`zs` does to the state. -/
structure Frame (evs : List (SemEvent Int)) (zs : List (AlarmEvent Int)) (s s' : Kernel) : Prop where
  sems : semView s' = SemEvent.applyAll i32 (semView s) evs
  tame : Tame zs s s'

section Frames

variable {s s' s'' : Kernel} {evs evs' : List (SemEvent Int)} {zs zs' : List (AlarmEvent Int)}

theorem Tame.trans (h : Tame zs s s') (h' : Tame zs' s' s'') : Tame (zs ++ zs') s s'' := by
  constructor
  · rw [h'.nextqid, h.nextqid]
  · rw [h'.readylist, h.readylist]
  · rw [h'.sleepq, h.sleepq]
  · rw [h'.squeue, h.squeue]
  · intro q hq hsys
    have hsys' : ¬ SystemQueue s' q := by
      unfold SystemQueue at hsys ⊢
      rw [h.readylist, h.sleepq, h.squeue]
      exact hsys
    exact (h'.others q (h.nextqid ▸ hq) hsys').trans (h.others q hq hsys)
  · rw [h'.alarms, h.alarms, AlarmEvent.applyAll_append]
  · intro p hp hcur
    obtain ⟨hp', hcur'⟩ := h.free p hp hcur
    exact h'.free p hp' hcur'
  · intro p hp
    rcases h.receiving p hp with hmsg | hrecv
    · exact Or.inl (h'.message p hmsg)
    · exact h'.receiving p hrecv
  · exact fun p hp => h'.message p (h.message p hp)
  · exact fun p hp => h'.held p (h.held p hp)

/-- The sleepers are those of before if their queue and their delays are. -/
theorem alarmList_congr (hs : s'.sleepq = s.sleepq)
    (hmem : members s'.queuetab s.sleepq = members s.queuetab s.sleepq)
    (hkey : ∀ i ∈ members s.queuetab s.sleepq, s'.queuetab.qkey i = s.queuetab.qkey i) :
    alarmList s' = alarmList s := by
  unfold alarmList
  rw [hs, hmem]
  apply List.map_congr_left
  intro i hi
  rw [hkey i hi]

/-- A procedure that leaves the queues and the states alone. -/
theorem Tame.of_eq (hq : s'.queuetab = s.queuetab) (hn : s'.nextqid = s.nextqid)
    (hr : s'.readylist = s.readylist) (hs : s'.sleepq = s.sleepq) (hsq : s'.squeue = s.squeue)
    (hst : s'.state = s.state) (hcur : s'.currpid = s.currpid)
    (hmsg : ∀ p, HasMessage s p → HasMessage s' p) : Tame [] s s' := by
  refine ⟨hn, hr, hs, hsq, ?_, ?_, ?_, ?_, hmsg, ?_⟩
  · intro q _ _
    rw [hq]
  · refine alarmList_congr hs ?_ ?_
    · rw [hq]
    · intro i _
      rw [hq]
  · intro p hp hne
    rw [hst, hcur]
    exact ⟨hp, hne⟩
  · intro p hp
    right
    unfold Receiving
    rw [hst, hcur]
    exact hp
  · intro p hp
    unfold Held
    rw [hst, hq, hsq]
    exact hp

theorem Tame.refl (s : Kernel) : Tame [] s s :=
  .of_eq rfl rfl rfl rfl rfl rfl rfl fun _ h => h

/-- A change of a table entry that leaves the message alone. -/
theorem hasMessage_setProc {f : Procent → Procent} (hf : ∀ e, (f e).prhasmsg = e.prhasmsg)
    (s : Kernel) (p r : Int) : HasMessage (s.setProc p f) r ↔ HasMessage s r := by
  unfold HasMessage
  rw [proctab_setProc]
  split
  · next h => rw [h, hf]
  · rfl

theorem hasMessage_setState (s : Kernel) (p r : Int) (st : PrState) :
    HasMessage (s.setState p st) r ↔ HasMessage s r :=
  hasMessage_setProc (f := fun e => { e with prstate := st }) (fun _ => rfl) s p r

/-- The states in which a process is linked nowhere until another one acts on it. -/
def Idle (st : PrState) : Prop :=
  st = .prFree ∨ st = .prRecv

/-- A process that waits for something else stays so if it is not put on the queue
that changes. -/
theorem Held.of_update {t' : QueueTab} {q p : Int} {l : List Int} (h : Held s p)
    (hids : QueueIds s) (hupd : QueueUpdate s.queuetab t' s.nextqid q l) (hqs : s'.queuetab = t')
    (hsq : s'.squeue = s.squeue) (hst : s'.state p = .prWait)
    (hnot : ∀ x, ¬ isbadsem x → q = s.squeue x → p ∉ l) : Held s' p := by
  refine ⟨hst, ?_⟩
  intro x hx
  rw [hqs, hsq]
  by_cases hqx : s.squeue x = q
  · rw [hqx, hupd.self]
    exact hnot x hx hqx.symm
  · rw [hupd.other _ (hids.sem x hx) hqx]
    exact h.2 x hx

/-- A procedure that changes one queue of the system. -/
theorem Tame.of_update {t' : QueueTab} {q : Int} {l : List Int} (hids : QueueIds s)
    (hupd : QueueUpdate s.queuetab t' s.nextqid q l) (hq : SystemQueue s q)
    (hqs : s'.queuetab = t') (hn : s'.nextqid = s.nextqid) (hr : s'.readylist = s.readylist)
    (hs : s'.sleepq = s.sleepq) (hsq : s'.squeue = s.squeue)
    (hz : alarmList s' = AlarmEvent.applyAll i32 (alarmList s) zs)
    (hidle : ∀ p, Idle (s.state p) → s.currpid ≠ p →
      s'.state p = s.state p ∧ s'.currpid ≠ p)
    (hmsg : ∀ p, HasMessage s p → HasMessage s' p)
    (hheld : ∀ p, Held s p → s'.state p = .prWait ∧
      ∀ x, ¬ isbadsem x → q = s.squeue x → p ∉ l) : Tame zs s s' := by
  refine ⟨hn, hr, hs, hsq, ?_, hz, ?_, ?_, hmsg, fun p hp =>
    hp.of_update hids hupd hqs hsq (hheld p hp).1 (hheld p hp).2⟩
  · intro q' hq' hsys
    rw [hqs]
    refine hupd.other q' hq' ?_
    rintro rfl
    exact hsys hq
  · intro p hp hne
    have hstay := hidle p (Or.inl hp) hne
    rwa [hp] at hstay
  · intro p hp
    have hstay := hidle p (Or.inr hp.1) hp.2
    rw [hp.1] at hstay
    exact Or.inr hstay

theorem Frame.trans (h : Frame evs zs s s') (h' : Frame evs' zs' s' s'') :
    Frame (evs ++ evs') (zs ++ zs') s s'' := by
  refine ⟨?_, h.tame.trans h'.tame⟩
  rw [SemEvent.applyAll_append, ← h.sems, h'.sems]

theorem Frame.refl (s : Kernel) : Frame [] [] s s :=
  ⟨rfl, .refl s⟩

/-- The semaphores of two states with the same table whose queues hold the same. -/
theorem semView_congr (htab : s'.semtab = s.semtab)
    (hmem : ∀ x, ¬ isbadsem x →
      members s'.queuetab (s.squeue x) = members s.queuetab (s.squeue x)) :
    semView s' = semView s := by
  funext x
  unfold semView Kernel.count Kernel.squeue at *
  rw [htab]
  by_cases hx : isbadsem x
  · simp [hx]
  · simp [hx, hmem x hx]

/-- An update of a queue that belongs to no semaphore. -/
theorem semView_of_update {t' : QueueTab} {q : Int} {l : List Int} (hids : QueueIds s)
    (htab : s'.semtab = s.semtab) (hqs : s'.queuetab = t')
    (hupd : QueueUpdate s.queuetab t' s.nextqid q l) (hq : q = s.readylist ∨ q = s.sleepq) :
    semView s' = semView s := by
  refine semView_congr htab ?_
  intro x hx
  have hne := hids.sem_ne x hx
  rw [hqs]
  refine hupd.other _ (hids.sem x hx) ?_
  rcases hq with rfl | rfl
  · exact hne.1
  · exact hne.2

/-- An update of another queue that keeps the delays of the sleepers. -/
theorem alarmList_of_update {t' : QueueTab} {q : Int} {l : List Int} (hids : QueueIds s)
    (hqs : s'.queuetab = t') (hs : s'.sleepq = s.sleepq)
    (hupd : QueueUpdate s.queuetab t' s.nextqid q l) (hq : s.sleepq ≠ q)
    (hkey : ∀ i ∈ members s.queuetab s.sleepq, t'.qkey i = s.queuetab.qkey i) :
    alarmList s' = alarmList s := by
  refine alarmList_congr hs ?_ ?_
  · rw [hqs]
    exact hupd.other _ hids.sleep hq
  · rw [hqs]
    exact hkey

end Frames

/-! ## The invariant between segments -/

/-- Counts are 32-bit integers. -/
def CountsOk (s : Kernel) : Prop :=
  ∀ x, -0x80000000 ≤ s.count x ∧ s.count x < 0x80000000

/-- The running process, where rescheduling is not owed. -/
def Settled (s : Kernel) : Prop :=
  s.defer.ndefers = 0 ∨ s.defer.attempt = false

structure KernelOk (o : Assumed) (s : Kernel) : Prop where
  consistent : Consistent o none s
  counts : CountsOk s
  ndefers : 0 ≤ s.defer.ndefers
  running : Settled s → s.state s.currpid = .prCurr
  top : o.keys → Settled s → ∀ p, IsPid p → s.state p = .prReady → s.prio p ≤ s.prio s.currpid

section Counts

theorem i32_range (x : Int) : -0x80000000 ≤ i32 x ∧ i32 x < 0x80000000 := by
  have hle := Int.le_bmod (x := x) (m := 0x100000000) (by decide)
  have hlt := Int.bmod_lt (x := x) (m := 0x100000000) (by decide)
  unfold i32
  omega

theorem i32_eq {x : Int} (hle : -0x80000000 ≤ x) (hlt : x < 0x80000000) : i32 x = x := by
  unfold i32
  rw [Int.bmod_eq_of_le (by omega) (by omega)]

end Counts

/-! ## Insertion keeps the ready list sorted -/

theorem mem_insertByKey {t : QueueTab} {key p x : Int} {l : List Int} :
    x ∈ insertByKey t key p l ↔ x = p ∨ x ∈ l := by
  have hsplit := List.takeWhile_append_dropWhile (p := fun x => decide (key ≤ t.qkey x)) (l := l)
  constructor
  · intro hx
    rw [← hsplit]
    simp only [insertByKey, List.mem_append, List.mem_cons] at hx ⊢
    rcases hx with hx | hx | hx
    · exact Or.inr (Or.inl hx)
    · exact Or.inl hx
    · exact Or.inr (Or.inr hx)
  · intro hx
    rw [← hsplit] at hx
    simp only [insertByKey, List.mem_append, List.mem_cons] at hx ⊢
    rcases hx with hx | hx | hx
    · exact Or.inr (Or.inl hx)
    · exact Or.inl hx
    · exact Or.inr (Or.inr hx)

/-- Insertion behind the keys that are at least the new one keeps the order. -/
theorem pairwise_insertByKey {t t' : QueueTab} {key p : Int} {l : List Int}
    (hl : l.Pairwise fun a b => t.qkey b ≤ t.qkey a) (hp : p ∉ l)
    (hkey : ∀ i, t'.qkey i = if i = p then key else t.qkey i) :
    (insertByKey t key p l).Pairwise fun a b => t'.qkey b ≤ t'.qkey a := by
  have hself : t'.qkey p = key := by rw [hkey p, if_pos rfl]
  have hold : ∀ i ∈ l, t'.qkey i = t.qkey i := by
    intro i hi
    rw [hkey i, if_neg]
    rintro rfl
    exact hp hi
  induction l with
  | nil => simp [insertByKey]
  | cons a l ih =>
      obtain ⟨ha, hl'⟩ := List.pairwise_cons.mp hl
      have hp' : p ∉ l := fun h => hp (List.mem_cons_of_mem a h)
      have hold' : ∀ i ∈ l, t'.qkey i = t.qkey i := fun i hi =>
        hold i (List.mem_cons_of_mem a hi)
      have hkeya : t'.qkey a = t.qkey a := hold a (by simp)
      by_cases hle : key ≤ t.qkey a
      · have hcons : insertByKey t key p (a :: l) = a :: insertByKey t key p l := by
          simp [insertByKey, hle]
        rw [hcons]
        refine List.pairwise_cons.mpr ⟨?_, ih hl' hp' hold'⟩
        intro b hb
        rcases mem_insertByKey.mp hb with rfl | hb
        · rw [hself, hkeya]; exact hle
        · rw [hold' b hb, hkeya]; exact ha b hb
      · have hcons : insertByKey t key p (a :: l) = p :: a :: l := by
          simp [insertByKey, hle]
        rw [hcons]
        refine List.pairwise_cons.mpr ⟨?_, ?_⟩
        · intro b hb
          rw [hself, hold b hb]
          rcases List.mem_cons.mp hb with rfl | hb
          · omega
          · have hba := ha b hb
            omega
        · refine hl.imp_of_mem ?_
          intro b c hb hc hbc
          rw [hold b hb, hold c hc]
          exact hbc

/-! ## resched -/

section Runs

variable {o : Assumed} {s : Kernel} {p : Int}

theorem prio_gt_minkey (s : Kernel) (p : Int) : minkey < s.prio p := by
  have hle := Int16.le_toInt (s.proctab p).prprio
  unfold Kernel.prio minkey
  omega

theorem not_isbadpid (hp : IsPid p) (hst : s.state p ≠ .prFree) : ¬ isbadpid s p := by
  unfold isbadpid
  unfold IsPid at hp
  rintro (h | h | h)
  · omega
  · omega
  · exact hst h

/-- A moving process that is ready is inserted in the ready list. -/
theorem Consistent.insertReady (h : Consistent o (some p) s) (hst : s.state p = .prReady) :
    ∃ t', insert p s.readylist (s.prio p) s = .done ok { s with queuetab := t' } ∧
      Consistent o none { s with queuetab := t' } ∧
      QueueUpdate s.queuetab t' s.nextqid s.readylist
        (insertByKey s.queuetab (s.prio p) p (members s.queuetab s.readylist)) ∧
      ∀ i ∈ members s.queuetab s.sleepq, t'.qkey i = s.queuetab.qkey i := by
  obtain ⟨hpid, hun⟩ := h.loose p rfl
  have hbad : ¬ isbadpid s p := not_isbadpid hpid (by rw [hst]; decide)
  obtain ⟨t', hrun, hupd, hkey⟩ :=
    insert_run h.queues h.ids.ready hbad hun (prio_gt_minkey s p)
  refine ⟨t', hrun, ?_, hupd, ?_⟩
  rotate_left
  · intro i hi
    rw [hkey i, if_neg]
    rintro rfl
    exact hun _ h.ids.sleep hi
  have hlink := h.link (e := s.proctab p) hupd (fun x => mem_insertByKey) (Or.inl ⟨hst, rfl⟩)
    (fun _ hwait => by
      have heq : s.state p = .prWait := hwait
      rw [hst] at heq
      contradiction) (fun x hx heq => ((h.ids.sem_ne x hx).1 heq.symm).elim) ⟨rfl, rfl⟩
    (fun _ => hst) ?_ ?_
  · rwa [update_eq_self] at hlink
  · rw [hupd.self]
    exact pairwise_insertByKey h.sorted (hun _ h.ids.ready) hkey
  · intro hk x hx
    rw [hkey x]
    split
    · rfl
    · next hxp =>
        rw [hupd.self, mem_insertByKey] at hx
        exact h.keys hk x (hx.resolve_left hxp)

/-- The second half of `resched`: take the first ready process. -/
def dispatch (readylist ptold : Int) : KernelM Unit := do
  let ptnew ← dequeue readylist
  modify fun s => { s with currpid := ptnew }
  modify (·.setState ptnew .prCurr)
  modify fun s => { s with preempt := quantum }
  ctxsw ptold

/-- How the state `s₁` in which the processor is given away differs from `s`. -/
structure Dispatched (s s₁ : Kernel) : Prop where
  current : IsPid s₁.currpid ∧ s.state s₁.currpid = .prReady
  state : ∀ r, s₁.state r = if r = s₁.currpid then .prCurr else s.state r
  prio : ∀ r, s₁.prio r = s.prio r
  defer : s₁.defer = s.defer
  semtab : s₁.semtab = s.semtab
  frame : Frame [] [] s s₁

/-- If the current process is not running, the ready list is not empty. -/
theorem Consistent.ready_ne_nil (h : Consistent o none s) (hidle : s.state s.currpid ≠ .prCurr) :
    members s.queuetab s.readylist ≠ [] := by
  have hmem : nullproc ∈ members s.queuetab s.readylist := by
    refine h.ready_iff.mpr ⟨by decide, ?_⟩
    rcases h.null (by simp) with hnull | hnull
    · have hcur := h.curr nullproc (by simp) (by decide) hnull
      rw [hcur] at hnull
      exact (hidle hnull).elim
    · exact hnull
  exact List.ne_nil_of_mem hmem

/-- `dequeue` finds a process, the processor is given to it, and no ready
process has a higher priority. -/
theorem dispatch_run (h : Consistent o none s) (hidle : s.state s.currpid ≠ .prCurr)
    (ptold : Int) :
    ∃ s₁, dispatch s.readylist ptold s = .suspended s₁ (fun s' => .done () s') ∧
      Consistent o none s₁ ∧ Dispatched s s₁ ∧
        (o.keys → ∀ r, IsPid r → s₁.state r = .prReady → s₁.prio r ≤ s₁.prio s₁.currpid) ∧
          (s₁.proctab ptold).prstkptr = .saved := by
  obtain ⟨p, m, hm⟩ : ∃ p m, members s.queuetab s.readylist = p :: m :=
    List.exists_cons_of_ne_nil (h.ready_ne_nil hidle)
  have hp : p ∈ members s.queuetab s.readylist := by rw [hm]; simp
  obtain ⟨hpid, hready⟩ := h.ready_iff.mp hp
  obtain ⟨t', hrun, hupd, hun, hkey⟩ := dequeue_run_cons h.queues h.ids.ready hm
  have herase : (members s.queuetab s.readylist).erase p = m := by
    rw [hm, List.erase_cons_head]
  have hopen : Consistent o (some p) { s with queuetab := t' } :=
    h.unlink hp (herase.symm ▸ hupd) hun fun i _ => hkey i
  have hmoved := hopen.run fun hcur => (hidle hcur).elim
  -- saving the context and resetting the time slice touch nothing else
  obtain ⟨s₁, hs₁⟩ : ∃ s₁, { s with queuetab := t', currpid := p }.setState p .prCurr = s₁ :=
    ⟨_, rfl⟩
  have hstate : ∀ r, s₁.state r = if r = p then .prCurr else s.state r := fun r => by
    rw [← hs₁]; exact state_setState _ _ _ _
  have hprio : ∀ r, s₁.prio r = s.prio r := fun r => by
    rw [← hs₁]; exact prio_setState _ _ _ _
  have hcur : s₁.currpid = p := by rw [← hs₁]; rfl
  have hsaved : Benign fun e => { e with prstkptr := .saved } :=
    ⟨fun _ => rfl, fun _ => rfl, fun _ => rfl, fun _ => ⟨rfl, rfl⟩⟩
  have hagree : Agrees o s₁ ({ s₁ with preempt := quantum }.setProc ptold
      fun e => { e with prstkptr := .saved }) := by
    refine ⟨rfl, rfl, rfl, rfl, rfl, rfl, fun _ => rfl, hsaved.state _ ptold,
      fun r => (hsaved.agrees _ ptold (o := o)).prsem r, fun _ r _ => hsaved.prio _ ptold r,
      fun r => (hsaved.agrees _ ptold (o := o)).stack r⟩
  have hsems : semView s₁ = semView s :=
    semView_of_update h.ids (by rw [← hs₁]; rfl) (by rw [← hs₁]; rfl) hupd (Or.inl rfl)
  refine ⟨_, ?_, (hs₁ ▸ hmoved).congr hagree, ⟨?_, ?_, ?_, ?_, ?_, ?_⟩, ?_, ?_⟩
  · simp [dispatch, hrun, ctxsw, hs₁]
  · rw [hagree.currpid, hcur]
    exact ⟨hpid, hready⟩
  · intro r
    rw [hagree.state, hagree.currpid, hcur]
    exact hstate r
  · intro r
    exact (hsaved.prio _ ptold r).trans (hprio r)
  · show s₁.defer = s.defer
    rw [← hs₁]; rfl
  · show s₁.semtab = s.semtab
    rw [← hs₁]; rfl
  · have hsame : semView ({ s₁ with preempt := quantum }.setProc ptold
        fun e => { e with prstkptr := .saved }) = semView s₁ := semView_congr rfl fun _ _ => rfl
    have hold : Tame [] s s₁ := by
      refine .of_update h.ids hupd (Or.inl rfl) ?_ ?_ ?_ ?_ ?_ ?_ ?_ ?_ ?_
      · rw [← hs₁]; rfl
      · rw [← hs₁]; rfl
      · rw [← hs₁]; rfl
      · rw [← hs₁]; rfl
      · rw [← hs₁]; rfl
      · rw [← hs₁]
        exact alarmList_of_update h.ids rfl rfl hupd (Ne.symm h.ids.ready_ne_sleep)
          fun i _ => hkey i
      · intro r hr _
        have hrp : r ≠ p := by
          rintro rfl
          rw [hready] at hr
          rcases hr with hr | hr <;> contradiction
        rw [hstate, if_neg hrp, hcur]
        exact ⟨rfl, Ne.symm hrp⟩
      · intro r hr
        rw [← hs₁]
        exact (hasMessage_setState _ p r .prCurr).mpr hr
      · intro r hr
        have hrp : r ≠ p := by
          rintro rfl
          rw [hr.1] at hready
          contradiction
        rw [hstate, if_neg hrp]
        exact ⟨hr.1, fun x hx heq => ((h.ids.sem_ne x hx).1 heq.symm).elim⟩
    refine ⟨hsame.trans hsems, hold.trans (.of_eq rfl rfl rfl rfl rfl ?_ rfl ?_)⟩
    · exact funext hagree.state
    · intro r hr
      exact (hasMessage_setProc (f := fun e => { e with prstkptr := .saved }) (fun _ => rfl)
        { s₁ with preempt := quantum } ptold r).mpr hr
  · intro hk r hr hst
    have hst' : s.state r = .prReady := by
      rw [hagree.state, hstate] at hst
      by_cases hrp : r = p
      · simp [hrp] at hst
      · rwa [if_neg hrp] at hst
    have hrm : r ∈ members s.queuetab s.readylist := h.ready_iff.mpr ⟨hr, hst'⟩
    have hle : s.queuetab.qkey r ≤ s.queuetab.qkey p := by
      have hsorted := h.sorted
      rw [hm] at hrm hsorted
      rcases List.mem_cons.mp hrm with rfl | hrm
      · exact Int.le_refl _
      · exact (List.pairwise_cons.mp hsorted).1 r hrm
    rw [h.keys hk r hrm, h.keys hk p hp] at hle
    rw [hagree.currpid, hcur, hsaved.prio, hsaved.prio]
    exact (hprio r).trans_le (hle.trans_eq (hprio p).symm)
  · rw [proctab_setProc, if_pos rfl]

/-- The process is running or ready to run. -/
def Active (st : PrState) : Prop :=
  st = .prCurr ∨ st = .prReady

/-- Process `r` keeps its state, unless it takes its turn with others. -/
def Turn (s s' : Kernel) (r : Int) : Prop :=
  s'.state r = s.state r ∨ Active (s.state r) ∧ Active (s'.state r)

theorem Turn.prWait_iff {s s' : Kernel} {r : Int} (h : Turn s s' r) :
    s'.state r = .prWait ↔ s.state r = .prWait := by
  unfold Turn Active at h
  rcases h with h | ⟨h | h, h' | h'⟩
  · rw [h]
  all_goals simp [h, h']

/-- The ways in which `resched` can go. -/
inductive Rescheduled (o : Assumed) (s : Kernel) : Flow Kernel Unit → Kernel → Prop
  /-- Rescheduling is deferred; the attempt is recorded. -/
  | deferred (hdefer : 0 < s.defer.ndefers) :
      Rescheduled o s (.done () { s with defer := { s.defer with attempt := true } })
        { s with defer := { s.defer with attempt := true } }
  /-- The current process keeps the processor. -/
  | kept (hdefer : s.defer.ndefers = 0) (hrun : s.state s.currpid = .prCurr) :
      Rescheduled o s (.done () s) s
  /-- The processor is given away. -/
  | switched {s₁ : Kernel} (hdefer : s.defer.ndefers = 0)
      (hstate : ∀ r, s₁.state r = if r = s₁.currpid then .prCurr
        else if r = s.currpid ∧ s.state r = .prCurr then .prReady else s.state r)
      (hactive : Active (s.state s₁.currpid)) (hprio : ∀ r, s₁.prio r = s.prio r)
      (hsemtab : s₁.semtab = s.semtab) (hsaved : (s₁.proctab s.currpid).prstkptr = .saved) :
      Rescheduled o s (.suspended s₁ fun s' => .done () s') s₁

theorem Rescheduled.lands {x : Flow Kernel Unit} {s₁ : Kernel} (h : Rescheduled o s x s₁) :
    Flow.Lands x () s₁ := by
  cases h with
  | deferred => exact .done rfl
  | kept => exact .done rfl
  | switched => exact .switched rfl

/-- `resched` only hands the processor on. -/
theorem Rescheduled.turn {x : Flow Kernel Unit} {s₁ : Kernel} (h : Rescheduled o s x s₁) (r : Int) :
    Turn s s₁ r := by
  cases h with
  | deferred => exact Or.inl rfl
  | kept => exact Or.inl rfl
  | switched hdefer hstate hactive hprio hsemtab hsaved =>
      unfold Turn
      rw [hstate r]
      by_cases hr : r = s₁.currpid
      · right
        rw [if_pos hr, hr]
        exact ⟨hactive, Or.inl rfl⟩
      · rw [if_neg hr]
        by_cases hcur : r = s.currpid ∧ s.state r = .prCurr
        · right
          rw [if_pos hcur]
          exact ⟨Or.inl hcur.2, Or.inr rfl⟩
        · left
          rw [if_neg hcur]

/-- The first stretch of the execution ends with process `me` still in possession of
the processor, or with its context saved. -/
def Hands {α : Type} (me : Int) : Flow Kernel α → Prop
  | .done _ s => s.currpid = me
  | .suspended s _ => (s.proctab me).prstkptr = .saved
  | _ => True

theorem Hands.bind_pure {α β : Type} {me : Int} {x : Flow Kernel α} (h : Hands me x) (b : β) :
    Hands me (x.bind fun _ => (pure b : KernelM β)) := by
  cases x with
  | done a s => exact h
  | suspended s k => exact h
  | halted s => trivial
  | stuck => trivial

theorem Rescheduled.hands {x : Flow Kernel Unit} {s₁ : Kernel} (h : Rescheduled o s x s₁) :
    Hands s.currpid x := by
  cases h with
  | deferred => exact rfl
  | kept => exact rfl
  | switched hdefer hstate hactive hprio hsemtab hsaved => exact hsaved

theorem KernelOk.deferred (h : Consistent o none s) (hc : CountsOk s)
    (hdefer : 0 < s.defer.ndefers) :
    KernelOk o { s with defer := { s.defer with attempt := true } } := by
  have hnot : ¬ Settled { s with defer := { s.defer with attempt := true } } := by
    unfold Settled
    simp only [Bool.true_eq_false, or_false]
    omega
  refine ⟨h.congr ?_, hc, ?_, fun hs => (hnot hs).elim, fun _ hs => (hnot hs).elim⟩
  · exact ⟨rfl, rfl, rfl, rfl, rfl, rfl, fun _ => rfl, fun _ => rfl, fun _ => rfl,
      fun _ _ _ => rfl, fun _ => ⟨rfl, rfl⟩⟩
  · exact Int.le_of_lt hdefer

/-- `resched` restores the invariant; the `dequeue` it performs finds a process. -/
theorem resched_run (h : Consistent o none s) (hc : CountsOk s) (hn : 0 ≤ s.defer.ndefers) :
    ∃ s₁, Rescheduled o s (resched s) s₁ ∧ KernelOk o s₁ ∧ Frame [] [] s s₁ ∧
      s₁.defer.ndefers = s.defer.ndefers := by
  by_cases hdefer : s.defer.ndefers > 0
  · have hrun : resched s = .done () { s with defer := { s.defer with attempt := true } } := by
      simp [resched, hdefer]
    rw [hrun]
    exact ⟨_, .deferred hdefer, .deferred h hc hdefer, ⟨semView_congr rfl fun _ _ => rfl,
      .of_eq rfl rfl rfl rfl rfl rfl rfl fun _ h => h⟩, rfl⟩
  have hzero : s.defer.ndefers = 0 := by omega
  by_cases hcur : s.state s.currpid = .prCurr
  · by_cases hprio : s.prio s.currpid > firstkey s.queuetab s.readylist
    · have hrun : resched s = .done () s := by simp [resched, hdefer, hcur, hprio]
      rw [hrun]
      refine ⟨s, .kept hzero hcur, ⟨h, hc, hn, fun _ => hcur, ?_⟩, .refl s, rfl⟩
      intro hk _ r hr hst
      have hrm : r ∈ members s.queuetab s.readylist := h.ready_iff.mpr ⟨hr, hst⟩
      obtain ⟨p, m, hm⟩ : ∃ p m, members s.queuetab s.readylist = p :: m :=
        List.exists_cons_of_ne_nil (List.ne_nil_of_mem hrm)
      have hfirst : firstkey s.queuetab s.readylist = s.queuetab.qkey p := by
        unfold firstkey
        rw [firstid_eq h.queues h.ids.ready, hm, List.headD_cons]
      have hle : s.queuetab.qkey r ≤ s.queuetab.qkey p := by
        have hsorted := h.sorted
        rw [hm] at hrm hsorted
        rcases List.mem_cons.mp hrm with rfl | hrm
        · exact Int.le_refl _
        · exact (List.pairwise_cons.mp hsorted).1 r hrm
      rw [h.keys hk r hrm] at hle
      omega
    · -- the old process goes to the ready list before the first one is taken
      have hun := h.unlinked (p := s.currpid) (by rw [hcur]; decide)
      have hopen : Consistent o (some s.currpid) (s.setState s.currpid .prReady) :=
        (h.openLoose h.pid hun).setState
      have hready : (s.setState s.currpid .prReady).state s.currpid = .prReady := by
        rw [state_setState, if_pos rfl]
      obtain ⟨t', hins, hcons, hupd, hkeys⟩ := hopen.insertReady hready
      rw [prio_setState] at hins
      change insert s.currpid s.readylist (s.prio s.currpid) (s.setState s.currpid .prReady) = _
        at hins
      obtain ⟨s₁, hdisp, hok, hd, htop, hsaved⟩ := dispatch_run hcons
        (by show (s.setState s.currpid .prReady).state s.currpid ≠ .prCurr
            rw [hready]; decide) s.currpid
      have hrun : resched s = .suspended s₁ fun s' => .done () s' := by
        rw [← hdisp]
        simp [resched, hdefer, hcur, hprio, hins, dispatch]
      have hstate₂ : ∀ r, ({ s.setState s.currpid .prReady with queuetab := t' } : Kernel).state r =
          if r = s.currpid then .prReady else s.state r := fun r => state_setState _ _ _ _
      have hframe : Frame [] [] s { s.setState s.currpid .prReady with queuetab := t' } := by
        refine ⟨semView_of_update h.ids rfl rfl hupd (Or.inl rfl),
          .of_update h.ids hupd (Or.inl rfl) rfl rfl rfl rfl rfl ?_ ?_ ?_ ?_⟩
        · exact alarmList_of_update h.ids rfl rfl hupd (Ne.symm h.ids.ready_ne_sleep) hkeys
        · intro r _ hne
          rw [hstate₂, if_neg (Ne.symm hne)]
          exact ⟨rfl, hne⟩
        · exact fun r hr => (hasMessage_setState s _ r .prReady).mpr hr
        · intro r hr
          have hrc : r ≠ s.currpid := by
            rintro rfl
            rw [hr.1] at hcur
            contradiction
          rw [hstate₂, if_neg hrc]
          exact ⟨hr.1, fun x hx heq => ((h.ids.sem_ne x hx).1 heq.symm).elim⟩
      have hactive : Active (s.state s₁.currpid) := by
        have hfirst := hd.current.2
        rw [hstate₂] at hfirst
        by_cases heq : s₁.currpid = s.currpid
        · rw [heq]
          exact Or.inl hcur
        · rw [if_neg heq] at hfirst
          exact Or.inr hfirst
      have hstate : ∀ r, s₁.state r = if r = s₁.currpid then .prCurr
          else if r = s.currpid ∧ s.state r = .prCurr then .prReady else s.state r := by
        intro r
        rw [hd.state r]
        by_cases hr : r = s₁.currpid
        · simp [hr]
        · rw [if_neg hr, if_neg hr, hstate₂]
          by_cases hrc : r = s.currpid
          · simp [hrc, hcur]
          · simp [hrc]
      have hprio' : ∀ r, s₁.prio r = s.prio r := fun r =>
        (hd.prio r).trans (prio_setState _ _ _ _)
      have hdef : s₁.defer = s.defer := hd.defer
      rw [hrun]
      refine ⟨s₁, .switched hzero hstate hactive hprio' hd.semtab hsaved, ⟨hok, ?_, ?_, ?_, ?_⟩,
        hframe.trans hd.frame, by rw [hdef]⟩
      · intro x
        unfold Kernel.count
        rw [hd.semtab]
        exact hc x
      · rw [hdef]; exact hn
      · intro _
        rw [hstate, if_pos rfl]
      · exact fun hk _ => htop hk
  · obtain ⟨s₁, hdisp, hok, hd, htop, hsaved⟩ := dispatch_run h hcur s.currpid
    have hrun : resched s = .suspended s₁ fun s' => .done () s' := by
      rw [← hdisp]
      simp [resched, hdefer, hcur, dispatch]
    have hstate : ∀ r, s₁.state r = if r = s₁.currpid then .prCurr
        else if r = s.currpid ∧ s.state r = .prCurr then .prReady else s.state r := by
      intro r
      rw [hd.state r]
      have hnot : ¬ (r = s.currpid ∧ s.state r = .prCurr) := by
        rintro ⟨rfl, hst⟩
        exact hcur hst
      rw [if_neg hnot]
    rw [hrun]
    refine ⟨s₁, .switched hzero hstate (Or.inr hd.current.2) hd.prio hd.semtab hsaved,
      ⟨hok, ?_, ?_, ?_, ?_⟩, hd.frame, by rw [hd.defer]⟩
    · intro x
      unfold Kernel.count
      rw [hd.semtab]
      exact hc x
    · rw [hd.defer]; exact hn
    · intro _
      rw [hstate, if_pos rfl]
    · exact fun hk _ => htop hk

/-! ## ready -/

/-- Before it reschedules, `ready` links the process in the ready list. -/
theorem ready_eq (h : Consistent o (some p) s) (hst : s.state p ≠ .prFree)
    (hwait : s.state p ≠ .prWait) (hmsg : s.state p = .prRecv → HasMessage s p) :
    ∃ s₂, ready p s = (resched s₂).bind (fun _ => pure ok) ∧ Consistent o none s₂ ∧
      Frame [] [] s s₂ ∧ (∀ r, s₂.state r = if r = p then .prReady else s.state r) ∧
        s₂.currpid = s.currpid ∧ s₂.defer = s.defer ∧ s₂.semtab = s.semtab := by
  obtain ⟨hpid, hun⟩ := h.loose p rfl
  have hbad : ¬ isbadpid s p := not_isbadpid hpid hst
  have hstate : ∀ r, (s.setState p .prReady).state r = if r = p then .prReady else s.state r :=
    fun r => state_setState _ _ _ _
  have hopen : Consistent o (some p) (s.setState p .prReady) := h.setState
  obtain ⟨t', hins, hcons, hupd, hkeys⟩ := hopen.insertReady (by rw [hstate, if_pos rfl])
  rw [prio_setState] at hins
  change insert p s.readylist (s.prio p) (s.setState p .prReady) = _ at hins
  have hkeep : ∀ r, HasMessage s r →
      HasMessage { s.setState p .prReady with queuetab := t' } r :=
    fun r hr => (hasMessage_setState s p r .prReady).mpr hr
  refine ⟨{ s.setState p .prReady with queuetab := t' }, ?_, hcons, ⟨?_, ?_⟩, hstate, rfl, rfl, rfl⟩
  · simp [ready, hbad, hins]
  · exact semView_of_update h.ids rfl rfl hupd (Or.inl rfl)
  · refine ⟨rfl, rfl, rfl, rfl, ?_, ?_, ?_, ?_, hkeep, ?_⟩
    · intro q hq hsys
      refine hupd.other q hq ?_
      rintro rfl
      exact hsys (Or.inl rfl)
    · exact alarmList_of_update h.ids rfl rfl hupd (Ne.symm h.ids.ready_ne_sleep) hkeys
    · intro r hr hcur
      refine ⟨?_, hcur⟩
      have hne : r ≠ p := fun heq => hst (heq ▸ hr)
      exact (hstate r).trans (by rw [if_neg hne]; exact hr)
    · intro r hr
      by_cases hrp : r = p
      · left
        rw [hrp]
        exact hkeep p (hmsg (hrp ▸ hr.1))
      · right
        refine ⟨?_, hr.2⟩
        exact (hstate r).trans (by rw [if_neg hrp]; exact hr.1)
    · intro r hr
      refine hr.of_update h.ids hupd rfl rfl ?_ ?_
      · have hrp : r ≠ p := fun heq => hwait (heq ▸ hr.1)
        exact (hstate r).trans (by rw [if_neg hrp]; exact hr.1)
      · exact fun x hx heq => ((h.ids.sem_ne x hx).1 heq.symm).elim

/-- The state that a live process had before does not matter to `ready`. -/
theorem ready_setState {st : PrState} (hpid : IsPid p) (hst : s.state p ≠ .prFree)
    (hnew : st ≠ .prFree) : ready p (s.setState p st) = ready p s := by
  have hlive : ¬ isbadpid s p := not_isbadpid hpid hst
  have hlive' : ¬ isbadpid (s.setState p st) p := by
    apply not_isbadpid hpid
    rw [state_setState, if_pos rfl]
    exact hnew
  have hprio : (s.setState p st).prio p = s.prio p := prio_setState s p p st
  have hset : (s.setState p st).setState p .prReady = s.setState p .prReady := by
    simp [Kernel.setState, Kernel.setProc]
  simp [ready, hlive, hlive', hprio, hset]

/-- `ready` of a process that is linked nowhere. -/
theorem ready_run (h : Consistent o (some p) s) (hst : s.state p ≠ .prFree)
    (hwait : s.state p ≠ .prWait) (hmsg : s.state p = .prRecv → HasMessage s p) (hc : CountsOk s) (hn : 0 ≤ s.defer.ndefers) :
    ∃ s₁, Flow.Lands (ready p s) ok s₁ ∧ KernelOk o s₁ ∧ Frame [] [] s s₁ ∧
      s₁.defer.ndefers = s.defer.ndefers ∧ Active (s₁.state p) ∧
        (∀ r, r ≠ p → Turn s s₁ r) ∧ Hands s.currpid (ready p s) := by
  obtain ⟨s₂, heq, hcons, hframe, hstate, hcur, hdefer, htab⟩ := ready_eq h hst hwait hmsg
  have hc₂ : CountsOk s₂ := fun x => by
    unfold Kernel.count
    rw [htab]
    exact hc x
  obtain ⟨s₁, hres, hok, hframe', hnd⟩ := resched_run hcons hc₂ (by rw [hdefer]; exact hn)
  refine ⟨s₁, ?_, hok, hframe.trans hframe', by rw [hnd, hdefer], ?_, ?_, ?_⟩
  · rw [heq]
    exact hres.lands.bind_pure fun _ => rfl
  · have hp : s₂.state p = .prReady := by rw [hstate, if_pos rfl]
    rcases hres.turn p with hturn | hturn
    · rw [hturn, hp]
      exact Or.inr rfl
    · exact hturn.2
  · intro r hr
    have hr₂ : s₂.state r = s.state r := by rw [hstate, if_neg hr]
    have hturn := hres.turn r
    unfold Turn at hturn ⊢
    rwa [hr₂] at hturn
  · rw [heq, ← hcur]
    exact hres.hands.bind_pure ok

/-- While rescheduling is deferred, `ready` returns at once. -/
theorem ready_run_deferred (h : Consistent o (some p) s) (hst : s.state p ≠ .prFree)
    (hwait : s.state p ≠ .prWait) (hmsg : s.state p = .prRecv → HasMessage s p) (hc : CountsOk s) (hn : 0 < s.defer.ndefers) :
    ∃ s₁, ready p s = .done ok s₁ ∧ KernelOk o s₁ ∧ Frame [] [] s s₁ ∧
      s₁.defer.ndefers = s.defer.ndefers ∧ s₁.semtab = s.semtab ∧ s₁.currpid = s.currpid ∧
        ∀ r, s₁.state r = if r = p then .prReady else s.state r := by
  obtain ⟨s₂, heq, hcons, hframe, hstate, hcur, hdefer, htab⟩ := ready_eq h hst hwait hmsg
  have hc₂ : CountsOk s₂ := fun x => by
    unfold Kernel.count
    rw [htab]
    exact hc x
  have hn₂ : 0 < s₂.defer.ndefers := by rw [hdefer]; exact hn
  obtain ⟨s₁, hres, hok, hframe', hnd⟩ := resched_run hcons hc₂ (Int.le_of_lt hn₂)
  rw [heq]
  generalize resched s₂ = x at hres
  cases hres with
  | deferred => exact ⟨_, rfl, hok, hframe.trans hframe', by rw [hnd, hdefer], htab, hcur, hstate⟩
  | kept hzero => omega
  | switched hzero => omega

/-! ## resched_cntl -/

/-- Deferral begins; nothing is owed yet. -/
theorem reschedCntl_start_run (h : KernelOk o s) (hmax : s.defer.ndefers + 1 < 0x80000000) :
    ∃ s₁, reschedCntl deferStart s = .done ok s₁ ∧ KernelOk o s₁ ∧ Frame [] [] s s₁ ∧
      s₁.defer.ndefers = s.defer.ndefers + 1 ∧ s₁.semtab = s.semtab ∧ s₁.currpid = s.currpid := by
  have hn := h.ndefers
  have hi : i32 (s.defer.ndefers + 1) = s.defer.ndefers + 1 := i32_eq (by omega) hmax
  obtain ⟨b, hb⟩ : ∃ b, (if s.defer.ndefers = 0 then false else s.defer.attempt) = b := ⟨_, rfl⟩
  have hrun : reschedCntl deferStart s =
      .done ok { s with defer := ⟨s.defer.ndefers + 1, b⟩ } := by
    by_cases hzero : s.defer.ndefers = 0
    · simp [hzero] at hb
      simp [reschedCntl, hzero, ← hb]
      rfl
    · simp [hzero] at hb
      simp [reschedCntl, hzero, hi, ← hb]
  have hsettled : Settled { s with defer := ⟨s.defer.ndefers + 1, b⟩ } → Settled s := by
    unfold Settled
    simp only
    rintro (h | h)
    · omega
    · by_cases hzero : s.defer.ndefers = 0
      · exact Or.inl hzero
      · rw [if_neg hzero] at hb
        exact Or.inr (hb.trans h)
  refine ⟨_, hrun, ⟨h.consistent.congr ?_, h.counts, ?_, ?_, ?_⟩, ⟨?_, ?_⟩, rfl, rfl, rfl⟩
  · exact ⟨rfl, rfl, rfl, rfl, rfl, rfl, fun _ => rfl, fun _ => rfl, fun _ => rfl,
      fun _ _ _ => rfl, fun _ => ⟨rfl, rfl⟩⟩
  · show 0 ≤ s.defer.ndefers + 1
    omega
  · exact fun hs => h.running (hsettled hs)
  · exact fun hk hs => h.top hk (hsettled hs)
  · exact semView_congr rfl fun _ _ => rfl
  · exact .of_eq rfl rfl rfl rfl rfl rfl rfl fun _ h => h

/-- Beginning a deferral changes no state. -/
theorem reschedCntl_start_state {v : Int} {s₁ : Kernel}
    (h : reschedCntl deferStart s = .done v s₁) (r : Int) : s₁.state r = s.state r := by
  have hrun : ∃ d, reschedCntl deferStart s = .done ok { s with defer := d } := by
    by_cases hzero : s.defer.ndefers = 0
    · exact ⟨_, by simp [reschedCntl, hzero]; rfl⟩
    · exact ⟨_, by simp [reschedCntl, hzero]; rfl⟩
  obtain ⟨d, hd⟩ := hrun
  rw [hd] at h
  obtain ⟨-, rfl⟩ : ok = v ∧ _ = s₁ := by simpa using h
  rfl

/-- When deferral ends, a rescheduling that was attempted is made up for. -/
theorem reschedCntl_stop_run (h : KernelOk o s) (hpos : 0 < s.defer.ndefers) :
    ∃ s₁, Flow.Lands (reschedCntl deferStop s) ok s₁ ∧ KernelOk o s₁ ∧ Frame [] [] s s₁ ∧
      s₁.defer.ndefers = s.defer.ndefers - 1 ∧ ∀ r, Turn s s₁ r := by
  obtain ⟨s₂, hs₂⟩ : ∃ s₂, { s with defer := { s.defer with ndefers := s.defer.ndefers - 1 } } = s₂ :=
    ⟨_, rfl⟩
  have hcons : Consistent o none s₂ := by
    rw [← hs₂]
    refine h.consistent.congr ?_
    exact ⟨rfl, rfl, rfl, rfl, rfl, rfl, fun _ => rfl, fun _ => rfl, fun _ => rfl,
      fun _ _ _ => rfl, fun _ => ⟨rfl, rfl⟩⟩
  have hc : CountsOk s₂ := by rw [← hs₂]; exact h.counts
  have hframe : Frame [] [] s s₂ := by
    rw [← hs₂]
    exact ⟨semView_congr rfl fun _ _ => rfl, .of_eq rfl rfl rfl rfl rfl rfl rfl fun _ h => h⟩
  have hn : s₂.defer.ndefers = s.defer.ndefers - 1 := by rw [← hs₂]
  have hnot : ¬ s.defer.ndefers ≤ 0 := by omega
  have hstop : deferStop ≠ deferStart := by decide
  by_cases howed : s.defer.ndefers - 1 = 0 ∧ s.defer.attempt = true
  · have hrun : reschedCntl deferStop s = (resched s₂).bind fun _ => pure ok := by
      simp [reschedCntl, hstop, hnot, howed.1, howed.2, ← hs₂]
    obtain ⟨s₁, hres, hok, hframe', hnd⟩ := resched_run hcons hc (by omega)
    refine ⟨s₁, ?_, hok, hframe.trans hframe', by omega, ?_⟩
    · rw [hrun]
      exact hres.lands.bind_pure fun _ => rfl
    · intro r
      have hturn := hres.turn r
      rw [← hs₂] at hturn
      exact hturn
  · have hrun : reschedCntl deferStop s = .done ok s₂ := by
      simp [reschedCntl, hstop, hnot, howed, ← hs₂]
    have hsettled : Settled s₂ → Settled s := by
      unfold Settled
      rw [← hs₂]
      simp only
      intro hs
      right
      rcases hs with hzero | hs
      · simpa [hzero] using howed
      · exact hs
    refine ⟨s₂, .done hrun, ⟨hcons, hc, by omega, ?_, ?_⟩, hframe, hn, fun r => Or.inl ?_⟩
    · intro hs
      have hr := h.running (hsettled hs)
      rw [← hs₂]
      exact hr
    · intro hk hs
      have ht := h.top hk (hsettled hs)
      rw [← hs₂]
      exact ht
    · rw [← hs₂]
      rfl

/-- A procedure that runs while rescheduling is deferred acts as a whole. -/
theorem deferred_run {α : Type} {T : Int → Sem Int} {zs : List (AlarmEvent Int)}
    (body : KernelM Unit) (v : α)
    (h : KernelOk o s) (hmax : s.defer.ndefers + 1 < 0x80000000)
    (hbody : ∀ s₁, KernelOk o s₁ → 0 < s₁.defer.ndefers → semView s₁ = semView s →
      s₁.semtab = s.semtab →
      ∃ s₂, body s₁ = .done () s₂ ∧ KernelOk o s₂ ∧ semView s₂ = T ∧ Tame zs s₁ s₂ ∧
        s₂.defer.ndefers = s₁.defer.ndefers) :
    ∃ s₃, Flow.Lands ((do
        let _ ← reschedCntl deferStart
        body
        let _ ← reschedCntl deferStop
        return v : KernelM α) s) v s₃ ∧
      KernelOk o s₃ ∧ semView s₃ = T ∧ Tame zs s s₃ ∧ s₃.defer.ndefers = s.defer.ndefers := by
  have hn := h.ndefers
  obtain ⟨s₁, hstart, hok₁, hframe₁, hnd₁, htab₁, -⟩ := reschedCntl_start_run h hmax
  obtain ⟨s₂, hrun, hok₂, hview₂, htame₂, hnd₂⟩ := hbody s₁ hok₁ (by omega) hframe₁.sems htab₁
  obtain ⟨s₃, hstop, hok₃, hframe₃, hnd₃, -⟩ := reschedCntl_stop_run hok₂ (by omega)
  refine ⟨s₃, ?_, hok₃, hframe₃.sems.trans hview₂, ?_, by omega⟩
  · simp only [Coop.run_bind, hstart, Flow.bind_done, hrun]
    exact hstop.bind_pure fun _ => rfl
  · have hall := (hframe₁.tame.trans htame₂).trans hframe₃.tame
    rwa [List.nil_append, List.append_nil] at hall

end Runs

end Xinu
