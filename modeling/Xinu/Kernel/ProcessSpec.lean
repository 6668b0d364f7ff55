import Xinu.Foundations.RotatingSearch
import Xinu.Kernel.ClockSpec
import Xinu.Kernel.SemaphoreSpec
import Xinu.Kernel.Process

/-!
# What the process calls do

Creation takes a free slot, killing gives one back, and the calls in between
move a process from one place to another.

Main results:

- Theorems `send_run`, `resume_run`, `suspend_eq` and `chprio_run`.
- Theorem `create_run`: the new process gets a slot that was free.
- Theorem `killTail_run`: whatever the state of the process that is killed, its
  slot is free afterwards and no queue holds it.
-/

namespace Xinu

open Foundations Function

/-! ## Stacks -/

section Stacks

variable {m : Memory.Heap} {l : List Span} {n base : Nat}

theorem StackOk.same {m' : Memory.Heap} (h : StackOk m base n) (hsame : Memory.SameBounds m m') :
    StackOk m' base n := by
  unfold StackOk at h ⊢
  rw [hsame.1, hsame.2.1]
  exact h

/-- A request for a stack keeps the free list well formed. -/
theorem getstk_keeps (h : Memory.FreeList m l) (n : Nat) :
    Memory.getstk n m = .done none m ∨
      ∃ a m' l', Memory.getstk n m = .done (some a) m' ∧ Memory.FreeList m' l' ∧
        Memory.SameBounds m m' ∧ StackOk m' a n := by
  rcases Memory.getstk_run (n := n) h with ⟨-, hrun⟩ | ⟨-, a, m', l', hrun, hgrant⟩
  · exact Or.inl hrun
  · right
    refine ⟨_, m', l', hrun, hgrant.free, hgrant.same, Or.inr ⟨a, rfl, hgrant.aligned, ?_, ?_⟩⟩
    · rw [hgrant.same.1]
      exact hgrant.bounds.1
    · rw [hgrant.same.2.1]
      exact hgrant.bounds.2

/-- Giving a stack back keeps the free list well formed, also when the stack was
given back before. -/
theorem freestk_keeps (h : Memory.FreeList m l) (hstk : StackOk m base n) :
    ∃ b m' l', Memory.freestk base n m = .done b m' ∧ Memory.FreeList m' l' ∧
      Memory.SameBounds m m' := by
  rcases hstk with hzero | ⟨a, rfl, ha, hlo, hhi⟩
  · refine ⟨false, m, l, ?_, h, rfl, rfl, rfl⟩
    simp [Memory.freestk, hzero, Memory.freemem]
  · by_cases hzero : Memory.roundmb n = 0
    · refine ⟨false, m, l, ?_, h, rfl, rfl, rfl⟩
      simp [Memory.freestk, hzero, Memory.freemem]
    · have hmin := h.minheap_pos
      have hmax := h.maxheap_lt
      have hpos : 0 < a := by
        unfold Memory.null at hmin
        omega
      have ha4 : 4 ≤ a := by omega
      have hround : Memory.roundmb (Memory.roundmb n) = Memory.roundmb n :=
        Memory.roundmb_eq (Memory.dvd_roundmb n) (Memory.roundmb_lt n)
      rw [Memory.freestk_eq ha4 (by omega)]
      have hb : m.minheap ≤ a ∧ a + Memory.roundmb (Memory.roundmb n) ≤ m.maxheap := by
        rw [hround]
        exact ⟨hlo, hhi⟩
      by_cases hnew : ∀ x, Span.Contains ⟨a, Memory.roundmb (Memory.roundmb n)⟩ x →
          ¬ Covers l x
      · obtain ⟨m', l', hrun, hrel⟩ := Memory.freemem_run h (by omega) (by omega) ha hb hnew
        exact ⟨true, m', l', hrun, hrel.free, hrel.same⟩
      · push Not at hnew
        obtain ⟨x, hx, hold⟩ := hnew
        exact ⟨false, m, l, Memory.freemem_run_overlap h hb hx hold, h, rfl, rfl, rfl⟩

theorem onHeap_done {α : Type} {x : Memory.HeapM α} {s : Kernel} {a : α} {m : Memory.Heap}
    (h : x s.heap = .done a m) : onHeap x s = .done a { s with heap := m } := by
  simp [onHeap, h]

end Stacks

section Runs

variable {o : Assumed} {hole : Option Int} {s s' : Kernel} {p pid : Int}

/-- Any well-formed heap with the same bounds will do. -/
theorem Consistent.setHeap {m : Memory.Heap} {l : List Span} (h : Consistent o hole s)
    (hfree : Memory.FreeList m l) (hsame : Memory.SameBounds s.heap m) :
    Consistent o hole { s with heap := m } := by
  constructor
  · exact h.queues
  · exact h.ids.congr rfl rfl rfl rfl
  · exact h.loose
  · exact h.home
  · exact h.ready_mem
  · exact h.sleep_mem
  · exact h.wait_mem
  · exact h.prsem
  · exact h.sorted
  · exact h.keys
  · exact h.curr
  · exact h.pid
  · exact h.null
  · exact ⟨l, hfree⟩
  · exact fun r hr => (h.stack r hr).same hsame

theorem KernelOk.setHeap {m : Memory.Heap} {l : List Span} (h : KernelOk o s)
    (hfree : Memory.FreeList m l) (hsame : Memory.SameBounds s.heap m) :
    KernelOk o { s with heap := m } :=
  ⟨h.consistent.setHeap hfree hsame, h.counts, h.ndefers, h.running, h.top⟩

theorem Frame.setHeap (s : Kernel) (m : Memory.Heap) : Frame [] [] s { s with heap := m } :=
  ⟨semView_congr rfl fun _ _ => rfl, .of_eq rfl rfl rfl rfl rfl rfl rfl fun _ h => h⟩

/-- Changes of a table entry that the invariant does not read. -/
theorem KernelOk.benign {f : Procent → Procent} (h : KernelOk o s) (hf : Benign f) (p : Int) :
    KernelOk o (s.setProc p f) := by
  refine ⟨h.consistent.congr (hf.agrees s p), h.counts, h.ndefers, ?_, ?_⟩
  · intro hs
    rw [hf.state]
    exact h.running hs
  · intro hk hs r hr hst
    rw [hf.state] at hst
    rw [hf.prio, hf.prio]
    exact h.top hk hs r hr hst

/-- What a call that may free the slot of another process, or take a message,
does to the rest. -/
structure Kills (evs : List (SemEvent Int)) (zs : List (AlarmEvent Int))
    (s s' : Kernel) : Prop where
  nextqid : s'.nextqid = s.nextqid
  readylist : s'.readylist = s.readylist
  sleepq : s'.sleepq = s.sleepq
  squeue : s'.squeue = s.squeue
  sems : semView s' = SemEvent.applyAll i32 (semView s) evs
  others : ∀ q, IsQid s.nextqid q → ¬ SystemQueue s q →
    members s'.queuetab q = members s.queuetab q
  alarms : alarmList s' = AlarmEvent.applyAll i32 (alarmList s) zs
  free : ∀ p, s.state p = .prFree → s.currpid ≠ p → s'.state p = .prFree ∧ s'.currpid ≠ p
  receiving : ∀ p, Receiving s p → HasMessage s' p ∨ Receiving s' p ∨ s'.state p = .prFree
  held : ∀ p, Held s p → Held s' p

section Kills

variable {evs evs' : List (SemEvent Int)} {zs zs' : List (AlarmEvent Int)}

theorem Frame.kills (h : Frame evs zs s s') : Kills evs zs s s' :=
  ⟨h.tame.nextqid, h.tame.readylist, h.tame.sleepq, h.tame.squeue, h.sems, h.tame.others,
    h.tame.alarms, h.tame.free, fun p hp => (h.tame.receiving p hp).imp id Or.inl, h.tame.held⟩

/-- A procedure followed by one that leaves the messages of the receivers alone. -/
theorem Frame.trans_kills {s'' : Kernel} (h : Frame evs zs s s') (h' : Kills evs' zs' s' s'')
    (hmsg : ∀ p, Receiving s p → HasMessage s' p → HasMessage s'' p) :
    Kills (evs ++ evs') (zs ++ zs') s s'' := by
  constructor
  · rw [h'.nextqid, h.tame.nextqid]
  · rw [h'.readylist, h.tame.readylist]
  · rw [h'.sleepq, h.tame.sleepq]
  · rw [h'.squeue, h.tame.squeue]
  · rw [h'.sems, h.sems, SemEvent.applyAll_append]
  · intro q hq hsys
    have hsys' : ¬ SystemQueue s' q := by
      unfold SystemQueue at hsys ⊢
      rw [h.tame.readylist, h.tame.sleepq, h.tame.squeue]
      exact hsys
    exact (h'.others q (h.tame.nextqid ▸ hq) hsys').trans (h.tame.others q hq hsys)
  · rw [h'.alarms, h.tame.alarms, AlarmEvent.applyAll_append]
  · intro p hp hne
    obtain ⟨hp', hne'⟩ := h.tame.free p hp hne
    exact h'.free p hp' hne'
  · intro p hp
    rcases h.tame.receiving p hp with hmail | hrecv
    · exact Or.inl (hmsg p hp hmail)
    · exact h'.receiving p hrecv
  · exact fun p hp => h'.held p (h.tame.held p hp)

end Kills

/-- A process that does not run is given a state in which it is linked nowhere. -/
theorem KernelOk.bury {st : PrState} (h : KernelOk o s) (hopen : Consistent o (some p) s')
    (hp : p ≠ nullproc) (hst : s.state p ≠ .prCurr) (hnew : ¬ Queued st ∧ st ≠ .prCurr)
    (hstate : s'.state = s.state) (hprio : s'.prio = s.prio) (hcur : s'.currpid = s.currpid)
    (hdefer : s'.defer = s.defer) (hcounts : CountsOk s') : KernelOk o (s'.setState p st) := by
  have hst' : ∀ r, (s'.setState p st).state r = if r = p then st else s.state r := by
    intro r
    rw [state_setState, hstate]
  have hset : Consistent o (some p) (s'.setState p st) := hopen.setState
  have hrun : Settled s → s.currpid ≠ p := by
    rintro hs rfl
    exact hst (h.running hs)
  have hsettled : Settled (s'.setState p st) → Settled s := by
    intro hs
    unfold Settled at hs ⊢
    rw [defer_setState, hdefer] at hs
    exact hs
  refine ⟨hset.close (Or.inl ?_) ?_ (fun heq => (hp heq).elim), hcounts, ?_, ?_, ?_⟩
  · rw [hst', if_pos rfl]
    exact hnew.1
  · rw [hst', if_pos rfl]
    exact fun heq => (hnew.2 heq).elim
  · rw [defer_setState, hdefer]
    exact h.ndefers
  · intro hs
    have hne := hrun (hsettled hs)
    rw [currpid_setState, hcur, hst', if_neg hne]
    exact h.running (hsettled hs)
  · intro hk hs r hr hready
    rw [hst'] at hready
    have hrp : r ≠ p := by
      rintro rfl
      rw [if_pos rfl] at hready
      exact hnew.1 (Or.inl hready)
    rw [if_neg hrp] at hready
    rw [prio_setState, prio_setState, currpid_setState, hcur, hprio]
    exact h.top hk (hsettled hs) r hr hready

/-! ## send and the receiving calls -/

theorem benign_message (f : Procent → Procent)
    (hf : ∀ e, ∃ m b, f e = { e with prmsg := m, prhasmsg := b }) : Benign f := by
  constructor
  · intro e
    obtain ⟨m, b, he⟩ := hf e
    rw [he]
  · intro e
    obtain ⟨m, b, he⟩ := hf e
    rw [he]
  · intro e
    obtain ⟨m, b, he⟩ := hf e
    rw [he]
  · intro e
    obtain ⟨m, b, he⟩ := hf e
    rw [he]
    exact ⟨rfl, rfl⟩

/-- A waiting process stays so, and no other one becomes waiting. -/
def SameWaits (s s' : Kernel) : Prop :=
  ∀ r, s'.state r = .prWait ↔ s.state r = .prWait

/-- The alarm events of `send`. -/
def sendAlarms (s : Kernel) (pid : Int) : List (AlarmEvent Int) :=
  if IsPid pid ∧ s.state pid = .prRectim ∧ ¬ HasMessage s pid then [.cancel pid] else []

/-- A message that nobody takes changes no alarm. -/
theorem sendAlarms_of_ne (hst : s.state pid ≠ .prRectim) : sendAlarms s pid = [] :=
  if_neg fun hand => hst hand.2.1

/-- `send` wakes at most the process it sends to. -/
theorem send_run (h : KernelOk o s) (pid msg : Int) :
    ∃ v s₁, Flow.Lands (send pid msg s) v s₁ ∧ KernelOk o s₁ ∧ Frame [] (sendAlarms s pid) s s₁ ∧
      s₁.defer.ndefers = s.defer.ndefers ∧ SameWaits s s₁ ∧ Hands s.currpid (send pid msg s) := by
  by_cases hbad : isbadpid s pid
  · have hrun : send pid msg s = .done syserr s := by simp [send, hbad]
    have hnone : sendAlarms s pid = [] := by
      refine if_neg ?_
      rintro ⟨hpid, hst, -⟩
      exact not_isbadpid hpid (by rw [hst]; decide) hbad
    rw [hnone]
    refine ⟨syserr, s, .done hrun, h, .refl s, rfl, fun _ => Iff.rfl, ?_⟩
    rw [hrun]
    exact rfl
  by_cases hfull : (s.proctab pid).prhasmsg = true
  · have hrun : send pid msg s = .done syserr s := by simp [send, hbad, hfull]
    have hnone : sendAlarms s pid = [] := if_neg fun hand => hand.2.2 hfull
    rw [hnone]
    refine ⟨syserr, s, .done hrun, h, .refl s, rfl, fun _ => Iff.rfl, ?_⟩
    rw [hrun]
    exact rfl
  have hf : Benign fun e => { e with prmsg := msg, prhasmsg := true } :=
    benign_message _ fun _ => ⟨_, _, rfl⟩
  have hok := h.benign hf pid
  obtain ⟨s₂, hs₂⟩ : ∃ s₂, (s.setProc pid fun e => { e with prmsg := msg, prhasmsg := true }) = s₂ :=
    ⟨_, rfl⟩
  have hmail : HasMessage s₂ pid := by
    unfold HasMessage
    rw [← hs₂, proctab_setProc, if_pos rfl]
  have hstate : ∀ r, s₂.state r = s.state r := fun r => hs₂ ▸ hf.state s pid r
  have hcur : s₂.currpid = s.currpid := by rw [← hs₂]; rfl
  have hdefer : s₂.defer = s.defer := by rw [← hs₂]; rfl
  have hframe : Frame [] [] s s₂ := by
    have hkeep : ∀ r, HasMessage s r → HasMessage s₂ r := by
      intro r hr
      by_cases hrp : r = pid
      · rw [hrp]
        exact hmail
      · unfold HasMessage at hr ⊢
        rw [← hs₂, proctab_setProc, if_neg hrp]
        exact hr
    subst hs₂
    exact ⟨semView_congr rfl fun _ _ => rfl, .of_eq rfl rfl rfl rfl rfl (funext hstate) rfl hkeep⟩
  rw [hs₂] at hok
  have hpid : IsPid pid := isPid_of_not_isbadpid hbad
  -- what remains once the recipient is linked nowhere
  have hwake : ∀ s₃, Consistent o (some pid) s₃ → Frame [] (sendAlarms s pid) s₂ s₃ →
      s₃.state = s₂.state → s₃.currpid = s₂.currpid → s₃.defer = s₂.defer → CountsOk s₃ → s.state pid ≠ .prFree →
      s.state pid ≠ .prWait →
      send pid msg s = (ready pid s₃).bind (fun _ => pure ok) →
      ∃ v s₁, Flow.Lands (send pid msg s) v s₁ ∧ KernelOk o s₁ ∧
        Frame [] (sendAlarms s pid) s s₁ ∧
        s₁.defer.ndefers = s.defer.ndefers ∧ SameWaits s s₁ ∧ Hands s.currpid (send pid msg s) := by
    intro s₃ hopen hframe₃ hstate₃ hcur₃ hdefer₃ hcounts₃ hlive hnowait hrun
    have hst₃ : ∀ r, s₃.state r = s.state r := fun r => by rw [hstate₃, hstate]
    have hpos₃ : 0 ≤ s₃.defer.ndefers := by
      rw [hdefer₃, hdefer]
      exact h.ndefers
    obtain ⟨s₁, hlands, hok₁, hframe₁, hnd, hactive, hturn, hhands⟩ :=
      ready_run hopen (by rw [hst₃]; exact hlive) (by rw [hst₃]; exact hnowait)
        (fun _ => hframe₃.tame.message pid hmail) hcounts₃ hpos₃
    have hall := (hframe.trans hframe₃).trans hframe₁
    rw [List.nil_append, List.nil_append, List.append_nil] at hall
    refine ⟨ok, s₁, ?_, hok₁, hall, ?_, ?_, ?_⟩
    · rw [hrun]
      exact hlands.bind_pure fun _ => rfl
    · rw [hnd, hdefer₃, hdefer]
    · intro r
      by_cases hr : r = pid
      · rw [hr]
        constructor
        · intro hwait
          rw [hwait] at hactive
          rcases hactive with hactive | hactive <;> contradiction
        · exact fun hwait => (hnowait hwait).elim
      · rw [(hturn r hr).prWait_iff, hst₃]
    · rw [hcur₃, hcur] at hhands
      rw [hrun]
      exact hhands.bind_pure ok
  by_cases hrecv : s.state pid = .prRecv
  · have hun := hok.consistent.unlinked (p := pid) (by rw [hstate, hrecv]; decide)
    have hnone : sendAlarms s pid = [] := sendAlarms_of_ne (by rw [hrecv]; decide)
    refine hwake s₂ (hok.consistent.openLoose hpid hun) (hnone ▸ .refl s₂) rfl rfl rfl hok.counts
      (by rw [hrecv]; decide) (by rw [hrecv]; decide) ?_
    simp [send, hbad, hfull, hrecv, hs₂]
  by_cases hrectim : s.state pid = .prRectim
  · obtain ⟨t', huns, hopen, hframe'⟩ :=
      unsleep_run hok.consistent hpid (Or.inr (by rw [hstate, hrectim]))
    have hevents : sendAlarms s pid = [.cancel pid] := if_pos ⟨hpid, hrectim, hfull⟩
    refine hwake _ hopen (hevents ▸ hframe') rfl rfl rfl hok.counts (by rw [hrectim]; decide)
      (by rw [hrectim]; decide) ?_
    simp [send, hbad, hfull, hrectim, hs₂, huns]
  · have hrun : send pid msg s = .done ok s₂ := by
      simp [send, hbad, hfull, hrecv, hrectim, hs₂]
    refine ⟨ok, s₂, .done hrun, hok, sendAlarms_of_ne hrectim ▸ hframe, by rw [hdefer], ?_, ?_⟩
    · intro r
      rw [hstate]
    · rw [hrun]
      exact hcur

/-- The running process loses the processor in a state in which it is linked nowhere. -/
theorem block_run (st : PrState) (h : KernelOk o s) (hcur : s.state s.currpid = .prCurr)
    (hnull : s.currpid ≠ nullproc) (hst : ¬ Queued st ∧ st ≠ .prCurr) :
    ∃ s₁, Rescheduled o (s.setState s.currpid st) (resched (s.setState s.currpid st)) s₁ ∧
      KernelOk o s₁ ∧ Frame [] [] s s₁ ∧ s₁.defer.ndefers = s.defer.ndefers := by
  have hstate : ∀ r, (s.setState s.currpid st).state r =
      if r = s.currpid then st else s.state r := fun r => state_setState _ _ _ _
  have hun := h.consistent.unlinked (p := s.currpid) (by rw [hcur]; decide)
  have hopen : Consistent o (some s.currpid) (s.setState s.currpid st) :=
    (h.consistent.openLoose h.consistent.pid hun).setState
  have hcons : Consistent o none (s.setState s.currpid st) := by
    refine hopen.close (Or.inl ?_) (fun _ => rfl) fun heq => (hnull heq).elim
    rw [hstate, if_pos rfl]
    exact hst.1
  have hother : ∀ r, s.currpid ≠ r → (s.setState s.currpid st).state r = s.state r := by
    intro r hne
    rw [hstate, if_neg (Ne.symm hne)]
  have hframe : Frame [] [] s (s.setState s.currpid st) := by
    refine ⟨semView_congr rfl fun _ _ => rfl, rfl, rfl, rfl, rfl, fun _ _ _ => rfl, rfl, ?_, ?_, ?_,
      ?_⟩
    · exact fun r hr hne => ⟨(hother r hne).trans hr, hne⟩
    · exact fun r hr => Or.inr ⟨(hother r hr.2).trans hr.1, hr.2⟩
    · exact fun r hr => (hasMessage_setState s _ r st).mpr hr
    · intro r hr
      have hne : s.currpid ≠ r := by
        rintro rfl
        rw [hr.1] at hcur
        contradiction
      exact ⟨(hother r hne).trans hr.1, hr.2⟩
  obtain ⟨s₁, hres, hok, hframe', hnd⟩ := resched_run hcons h.counts h.ndefers
  exact ⟨s₁, hres, hok, hframe.trans hframe', hnd⟩

/-- What `receive` does when the message is there. -/
def receiveTail (me : Int) : KernelM Int := do
  let msg := ((← get).proctab me).prmsg
  modify (·.setProc me fun e => { e with prhasmsg := false })
  return msg

/-- The messages of all processes but one are left alone. -/
def KeepsMail (me : Int) (s s' : Kernel) : Prop :=
  ∀ r, r ≠ me → HasMessage s r → HasMessage s' r

/-- A process takes its message. -/
theorem KernelOk.takeMessage (h : KernelOk o s) (me : Int) :
    KernelOk o (s.setProc me fun e => { e with prhasmsg := false }) ∧
      Kills [] [] s (s.setProc me fun e => { e with prhasmsg := false }) ∧
        KeepsMail me s (s.setProc me fun e => { e with prhasmsg := false }) := by
  have hf : Benign fun e => { e with prhasmsg := false } :=
    benign_message _ fun _ => ⟨_, _, rfl⟩
  refine ⟨h.benign hf me, ?_, ?_⟩
  · refine ⟨rfl, rfl, rfl, rfl, semView_congr rfl fun _ _ => rfl, fun _ _ _ => rfl, rfl, ?_, ?_, ?_⟩
    · exact fun r hr hne => ⟨(hf.state s me r).trans hr, hne⟩
    · exact fun r hr => Or.inr (Or.inl ⟨(hf.state s me r).trans hr.1, hr.2⟩)
    · exact fun r hr => ⟨(hf.state s me r).trans hr.1, hr.2⟩
  · intro r hr hmail
    unfold HasMessage at hmail ⊢
    rw [proctab_setProc, if_neg hr]
    exact hmail

theorem receiveTail_run (h : KernelOk o s) (me : Int) :
    ∃ v s₁, receiveTail me s = .done v s₁ ∧ KernelOk o s₁ ∧ Kills [] [] s s₁ ∧
      KeepsMail me s s₁ ∧ s₁.defer.ndefers = s.defer.ndefers := by
  obtain ⟨hok, hk, hmail⟩ := h.takeMessage me
  exact ⟨_, _, rfl, hok, hk, hmail, rfl⟩

theorem receive_eq (s : Kernel) :
    receive s = if (s.proctab s.currpid).prhasmsg = false then
      (resched (s.setState s.currpid .prRecv)).bind fun _ => receiveTail s.currpid
      else receiveTail s.currpid s := by
  by_cases hmsg : (s.proctab s.currpid).prhasmsg = false
  · simp [receive, receiveTail, hmsg]
  · simp [receive, receiveTail, hmsg]

/-- What `recvtime` does once it runs again. -/
def recvtimeTail (me : Int) : KernelM Int := do
  let s ← get
  if (s.proctab me).prhasmsg = true then
    modify (·.setProc me fun e => { e with prhasmsg := false })
    return (s.proctab me).prmsg
  else
    return timeout

theorem recvtimeTail_run (h : KernelOk o s) (me : Int) :
    ∃ v s₁, recvtimeTail me s = .done v s₁ ∧ KernelOk o s₁ ∧ Kills [] [] s s₁ ∧
      KeepsMail me s s₁ ∧ s₁.defer.ndefers = s.defer.ndefers := by
  by_cases hmsg : (s.proctab me).prhasmsg = true
  · obtain ⟨hok, hk, hmail⟩ := h.takeMessage me
    refine ⟨(s.proctab me).prmsg, _, ?_, hok, hk, hmail, rfl⟩
    simp [recvtimeTail, hmsg]
  · refine ⟨timeout, s, ?_, h, (Frame.refl s).kills, fun _ _ hmail => hmail, rfl⟩
    simp [recvtimeTail, hmsg]

/-- The alarm events of `recvtime`. -/
def recvtimeAlarms (s : Kernel) (maxwait : Int) : List (AlarmEvent Int) :=
  if 0 ≤ maxwait ∧ ¬ HasMessage s s.currpid then [.set s.currpid maxwait] else []

/-- `recvtime` puts its caller to sleep before it looks for a message. -/
theorem recvtime_block (h : KernelOk o s) {maxwait : Int} (hpos : 0 ≤ maxwait)
    (hmsg : (s.proctab s.currpid).prhasmsg = false) (hcur : s.state s.currpid = .prCurr)
    (hnull : s.currpid ≠ nullproc) :
    ∃ s₂, recvtime maxwait s = (resched s₂).bind (fun _ => recvtimeTail s.currpid) ∧
      ∃ s₁, Flow.Lands (resched s₂) () s₁ ∧ KernelOk o s₁ ∧
        Frame [] [.set s.currpid maxwait] s s₁ ∧ s₁.defer.ndefers = s.defer.ndefers := by
  obtain ⟨t', hins, hcons, hframe⟩ := insertSleep h.consistent hcur hnull (Or.inr rfl) maxwait
  obtain ⟨s₁, hlands, hok, hframe₁, hnd, -⟩ := reschedAfter h hcons rfl rfl hframe
  refine ⟨_, ?_, s₁, hlands, hok, hframe₁, hnd⟩
  have hneg : ¬ maxwait < 0 := by omega
  have hne : ok ≠ syserr := by decide
  simp [recvtime, recvtimeTail, hneg, hmsg, hins, hne]

theorem recvtime_pass {maxwait : Int} (hpos : 0 ≤ maxwait)
    (hmsg : (s.proctab s.currpid).prhasmsg = true) :
    recvtime maxwait s = recvtimeTail s.currpid s := by
  have hneg : ¬ maxwait < 0 := by omega
  simp [recvtime, recvtimeTail, hneg, hmsg]

theorem recvclr_run (h : KernelOk o s) :
    ∃ v s₁, recvclr s = .done v s₁ ∧ KernelOk o s₁ ∧ Kills [] [] s s₁ ∧
      s₁.defer.ndefers = s.defer.ndefers := by
  by_cases hmsg : (s.proctab s.currpid).prhasmsg = true
  · obtain ⟨hok, hk, -⟩ := h.takeMessage s.currpid
    refine ⟨(s.proctab s.currpid).prmsg, _, ?_, hok, hk, rfl⟩
    simp [recvclr, hmsg]
  · refine ⟨ok, s, ?_, h, (Frame.refl s).kills, rfl⟩
    simp [recvclr, hmsg]

/-! ## resume, suspend and chprio -/

theorem resume_run (h : KernelOk o s) (pid : Int) :
    ∃ v s₁, Flow.Lands (resume pid s) v s₁ ∧ KernelOk o s₁ ∧ Frame [] [] s s₁ ∧
      s₁.defer.ndefers = s.defer.ndefers := by
  by_cases hbad : isbadpid s pid
  · exact ⟨syserr, s, .done (by simp [resume, hbad]), h, .refl s, rfl⟩
  by_cases hsusp : s.state pid = .prSusp
  · have hun := h.consistent.unlinked (p := pid) (by rw [hsusp]; decide)
    have hopen := h.consistent.openLoose (isPid_of_not_isbadpid hbad) hun
    obtain ⟨s₁, hlands, hok, hframe, hnd, -⟩ :=
      ready_run hopen (by rw [hsusp]; decide) (by rw [hsusp]; decide)
        (fun hrecv => by rw [hsusp] at hrecv; contradiction) h.counts h.ndefers
    refine ⟨s.prio pid, s₁, ?_, hok, hframe, hnd⟩
    have hrun : resume pid s = (ready pid s).bind fun _ => pure (s.prio pid) := by
      simp [resume, hbad, hsusp]
    rw [hrun]
    exact hlands.bind_pure fun _ => rfl
  · exact ⟨syserr, s, .done (by simp [resume, hbad, hsusp]), h, .refl s, rfl⟩

/-- `suspend` of a process that does not run. -/
theorem suspend_run (h : KernelOk o s) (hst : s.state pid ≠ .prCurr) :
    ∃ v s₁, suspend pid s = .done v s₁ ∧ KernelOk o s₁ ∧ Frame [] [] s s₁ ∧
      s₁.defer.ndefers = s.defer.ndefers := by
  by_cases hbad : isbadpid s pid ∨ pid = nullproc
  · exact ⟨syserr, s, by simp [suspend, hbad], h, .refl s, rfl⟩
  by_cases hready : s.state pid = .prReady
  · have hnull : pid ≠ nullproc := fun heq => hbad (Or.inr heq)
    have hpid : IsPid pid := isPid_of_not_isbadpid fun hb => hbad (Or.inl hb)
    have hcons := h.consistent
    have hmem := hcons.ready_iff.mpr ⟨hpid, hready⟩
    obtain ⟨t', hget, hupd, hun, hkey⟩ := getitem_run hcons.queues hcons.ids.ready hmem
    have hopen : Consistent o (some pid) { s with queuetab := t' } :=
      hcons.unlink hmem hupd hun fun i _ => hkey i
    have hok : KernelOk o ({ s with queuetab := t' }.setState pid .prSusp) :=
      h.bury hopen hnull hst (by decide) rfl rfl rfl rfl h.counts
    refine ⟨s.prio pid, _, ?_, hok, ⟨?_, ?_⟩, rfl⟩
    · simp [suspend, hbad, hready, hget]
      rfl
    · exact semView_of_update hcons.ids rfl rfl hupd (Or.inl rfl)
    · refine .of_update hcons.ids hupd (Or.inl rfl) rfl rfl rfl rfl rfl ?_ ?_ ?_ ?_
      · exact alarmList_of_update hcons.ids rfl rfl hupd (Ne.symm hcons.ids.ready_ne_sleep)
          fun i _ => hkey i
      · intro r hr hne
        refine ⟨(state_setState _ _ _ _).trans ?_, hne⟩
        have hrp : r ≠ pid := by
          rintro rfl
          rw [hready] at hr
          rcases hr with hr | hr <;> contradiction
        rw [if_neg hrp]
        rfl
      · exact fun r hr => (hasMessage_setState _ pid r .prSusp).mpr hr
      · intro r hr
        have hrp : r ≠ pid := by
          rintro rfl
          rw [hr.1] at hready
          contradiction
        refine ⟨(state_setState _ _ _ _).trans (by rw [if_neg hrp]; exact hr.1), ?_⟩
        exact fun x hx heq => ((hcons.ids.sem_ne x hx).1 heq.symm).elim
  · exact ⟨syserr, s, by simp [suspend, hbad, hst, hready], h, .refl s, rfl⟩

/-- The value that `suspend` returns is read when its caller runs again. -/
def suspendTail (pid : Int) : KernelM Int := do
  return (← get).prio pid

/-- `suspend` of the running process. -/
theorem suspend_eq (hst : s.state pid = .prCurr) (hbad : ¬ (isbadpid s pid ∨ pid = nullproc)) :
    suspend pid s = (resched (s.setState pid .prSusp)).bind fun _ => suspendTail pid := by
  simp [suspend, suspendTail, hbad, hst]

/-- `chprio` keeps the invariant if the ready list keeps its order and the
running process its rank. -/
theorem chprio_run (h : KernelOk o s) (newprio : Int16)
    (hready : o.keys → s.state pid = .prReady → newprio.toInt = s.prio pid)
    (htop : o.keys → Settled s → pid = s.currpid →
      ∀ r, IsPid r → s.state r = .prReady → s.prio r ≤ newprio.toInt) :
    ∃ v s₁, chprio pid newprio s = .done v s₁ ∧ KernelOk o s₁ ∧ Frame [] [] s s₁ ∧
      s₁.defer.ndefers = s.defer.ndefers := by
  by_cases hbad : isbadpid s pid
  · exact ⟨syserr, s, by simp [chprio, hbad], h, .refl s, rfl⟩
  obtain ⟨s₁, hs₁⟩ : ∃ s₁, (s.setProc pid fun e => { e with prprio := newprio }) = s₁ := ⟨_, rfl⟩
  have hrun : chprio pid newprio s = .done (s.prio pid) s₁ := by
    simp [chprio, hbad, ← hs₁]
  have hproc : ∀ r, s₁.proctab r =
      if r = pid then { s.proctab pid with prprio := newprio } else s.proctab r := by
    intro r
    rw [← hs₁]
    exact proctab_setProc s pid r _
  have hstate : ∀ r, s₁.state r = s.state r := by
    intro r
    unfold Kernel.state
    rw [hproc]
    split
    · next heq => rw [heq]
    · rfl
  have hprio : ∀ r, s₁.prio r = if r = pid then newprio.toInt else s.prio r := by
    intro r
    unfold Kernel.prio
    rw [hproc]
    split <;> rfl
  have hagree : Agrees o s s₁ := by
    refine ⟨?_, ?_, ?_, ?_, ?_, ?_, ?_, hstate, ?_, ?_, ?_⟩
    · rw [← hs₁]; rfl
    · rw [← hs₁]; rfl
    · rw [← hs₁]; rfl
    · rw [← hs₁]; rfl
    · rw [← hs₁]; rfl
    · rw [← hs₁]; rfl
    · intro x; rw [← hs₁]; rfl
    · intro r
      rw [hproc]
      split
      · next heq => rw [heq]
      · rfl
    · intro hk r hr
      rw [hprio]
      split
      · next heq => rw [heq, hready hk (heq ▸ (h.consistent.ready_iff.mp hr).2)]
      · rfl
    · intro r
      rw [hproc]
      split
      · next heq => rw [heq]; exact ⟨rfl, rfl⟩
      · exact ⟨rfl, rfl⟩
  have hdefer : s₁.defer = s.defer := by rw [← hs₁]; rfl
  have hsettled : Settled s₁ → Settled s := by
    unfold Settled
    rw [hdefer]
    exact id
  refine ⟨_, s₁, hrun, ⟨h.consistent.congr hagree, ?_, ?_, ?_, ?_⟩, ⟨?_, ?_⟩, by rw [hdefer]⟩
  · rw [← hs₁]
    exact h.counts
  · rw [hdefer]
    exact h.ndefers
  · intro hs
    rw [hagree.currpid, hstate]
    exact h.running (hsettled hs)
  · intro hk hs r hr hst
    rw [hstate] at hst
    have hold := h.top hk (hsettled hs) r hr hst
    have hrank : s₁.prio r = s.prio r := by
      rw [hprio]
      split
      · next heq => rw [heq, hready hk (heq ▸ hst)]
      · rfl
    rw [hrank, hagree.currpid, hprio]
    split
    · next heq => exact htop hk (hsettled hs) heq.symm r hr hst
    · exact hold
  · rw [← hs₁]
    exact semView_congr rfl fun _ _ => rfl
  · refine .of_eq hagree.queuetab hagree.nextqid hagree.readylist hagree.sleepq ?_
      (funext hstate) hagree.currpid ?_
    · exact funext hagree.squeue
    · intro r hr
      rw [← hs₁]
      exact (hasMessage_setProc (f := fun e => { e with prprio := newprio }) (fun _ => rfl) s pid
        r).mpr hr

/-! ## create -/

/-- The search of `newpid` goes through the table from its cursor on. -/
theorem newpidLoop_rotate (i : Nat) (s : Kernel) :
    ∃ k, newpidLoop i s = .done
      ((rotate (fun p => decide (s.state p = .prFree)) nproc i s.nextpid).getD syserr)
        { s with nextpid := k } := by
  induction i generalizing s with
  | zero => exact ⟨s.nextpid, rfl⟩
  | succ i ih =>
      rw [rotate]
      by_cases hfree : s.state (s.nextpid % nproc) = .prFree
      · refine ⟨s.nextpid % nproc + 1, ?_⟩
        have hfree' : ({ s with nextpid := s.nextpid % nproc } : Kernel).state
            (s.nextpid % nproc) = .prFree := hfree
        simp [newpidLoop, hfree', hfree]
      · have hfree' : ¬ ({ s with nextpid := s.nextpid % nproc } : Kernel).state
            (s.nextpid % nproc) = .prFree := hfree
        have hstep : newpidLoop (i + 1) s =
            newpidLoop i { s with nextpid := s.nextpid % nproc + 1 } := by
          simp [newpidLoop, hfree']
        rw [hstep, if_neg (by simpa using hfree)]
        exact ih { s with nextpid := s.nextpid % nproc + 1 }

/-- The search of `newpid` finds a free slot or fails. -/
theorem newpidLoop_run (i : Nat) (s : Kernel) :
    (∃ k, newpidLoop i s = .done syserr { s with nextpid := k }) ∨
      ∃ k pid, newpidLoop i s = .done pid { s with nextpid := k } ∧ IsPid pid ∧
        s.state pid = .prFree := by
  obtain ⟨k, hrun⟩ := newpidLoop_rotate i s
  cases hr : rotate (fun p => decide (s.state p = .prFree)) nproc i s.nextpid with
  | none =>
      rw [hr] at hrun
      exact Or.inl ⟨k, hrun⟩
  | some pid =>
      obtain ⟨hlow, hhigh, hfree⟩ := rotate_some (by decide) hr
      rw [hr] at hrun
      exact Or.inr ⟨k, pid, hrun, ⟨hlow, hhigh⟩, of_decide_eq_true hfree⟩

/-- The slot holds a process that has not run yet. -/
def Fresh (s : Kernel) (p : Int) : Prop :=
  (s.proctab p).prstkptr = .initial

instance (s : Kernel) (p : Int) : Decidable (Fresh s p) :=
  inferInstanceAs (Decidable (_ = _))

/-- `Tame`, but a free slot may be given to a fresh process. -/
structure Creates (s s' : Kernel) : Prop where
  nextqid : s'.nextqid = s.nextqid
  readylist : s'.readylist = s.readylist
  sleepq : s'.sleepq = s.sleepq
  squeue : s'.squeue = s.squeue
  queuetab : s'.queuetab = s.queuetab
  sems : semView s' = semView s
  free : ∀ p, s.state p = .prFree → s.currpid ≠ p →
    Fresh s' p ∨ s'.state p = .prFree ∧ s'.currpid ≠ p
  receiving : ∀ p, Receiving s p → Receiving s' p
  waiting : ∀ p, s.state p = .prWait → s'.state p = .prWait

/-- A new process fills a free slot. -/
theorem KernelOk.newProc (h : KernelOk o s) (saddr ssize : Nat) (priority : Int16)
    (hpid : IsPid pid) (hfree : s.state pid = .prFree) (hstk : StackOk s.heap saddr ssize) :
    KernelOk o (s.setProc pid fun e => newProcent s e saddr ssize priority) := by
  have hnull : pid ≠ nullproc := by
    rintro rfl
    rcases h.consistent.null (by simp) with hst | hst
    · rw [hst] at hfree
      contradiction
    · rw [hst] at hfree
      contradiction
  have hun := h.consistent.unlinked (p := pid) (by rw [hfree]; decide)
  have hopen : Consistent o (some pid)
      (s.setProc pid fun e => newProcent s e saddr ssize priority) :=
    (h.consistent.openLoose hpid hun).setProc fun _ => hstk
  have hproc : ∀ r, r ≠ pid →
      (s.setProc pid fun e => newProcent s e saddr ssize priority).proctab r = s.proctab r := by
    intro r hr
    rw [proctab_setProc, if_neg hr]
  have hst : (s.setProc pid fun e => newProcent s e saddr ssize priority).state pid = .prSusp := by
    unfold Kernel.state
    rw [proctab_setProc, if_pos rfl]
    rfl
  have hne : Settled s → s.currpid ≠ pid := by
    rintro hs rfl
    rw [h.running hs] at hfree
    contradiction
  refine ⟨hopen.close (Or.inl ?_) ?_ fun heq => (hnull heq).elim, h.counts, h.ndefers, ?_, ?_⟩
  · rw [hst]
    decide
  · rw [hst]
    exact fun heq => by contradiction
  · intro hs
    unfold Kernel.state
    rw [currpid_setProc, hproc _ (hne hs)]
    exact h.running hs
  · intro hk hs r hr hready
    have hrp : r ≠ pid := by
      rintro rfl
      rw [hst] at hready
      contradiction
    unfold Kernel.state at hready
    rw [hproc r hrp] at hready
    unfold Kernel.prio
    rw [currpid_setProc, hproc r hrp, hproc _ (hne hs)]
    exact h.top hk hs r hr hready

/-- The invariant does not read the number of processes. -/
theorem KernelOk.setGlobals (h : KernelOk o s) (k c : Int) :
    KernelOk o { s with nextpid := k, prcount := c } := by
  refine ⟨h.consistent.congr ?_, h.counts, h.ndefers, h.running, h.top⟩
  exact ⟨rfl, rfl, rfl, rfl, rfl, rfl, fun _ => rfl, fun _ => rfl, fun _ => rfl, fun _ _ _ => rfl,
    fun _ => ⟨rfl, rfl⟩⟩

/-- The size of the stack that `create` asks for. -/
def stackSize (ssize : Nat) : Nat :=
  roundew (if ssize < minstk then minstk else ssize)

theorem create_none {m : Memory.Heap} {ssize : Nat} (priority : Int16)
    (hstk : Memory.getstk (stackSize ssize) s.heap = .done none m) :
    create ssize priority s = .done syserr { s with heap := m } := by
  have hstk' : Memory.getstk (roundew (if ssize < minstk then minstk else ssize)) s.heap =
      .done none m := hstk
  simp [create, onHeap_done hstk']

/-- Once it has a stack, `create` looks for a slot. -/
theorem create_some {m : Memory.Heap} {ssize a : Nat} (priority : Int16) {s₂ : Kernel}
    (hstk : Memory.getstk (stackSize ssize) s.heap = .done (some a) m)
    (hnew : newpid { s with heap := m } = .done pid s₂) :
    create ssize priority s =
      if pid = syserr ∨ priority.toInt < 1 then .done syserr s₂
      else .done pid (Kernel.setProc { s₂ with prcount := i32 (s₂.prcount + 1) } pid fun e =>
        newProcent { s₂ with prcount := i32 (s₂.prcount + 1) } e a (stackSize ssize) priority) := by
  obtain ⟨size, hsize⟩ : ∃ size, stackSize ssize = size := ⟨_, rfl⟩
  have hsize' : roundew (if ssize < minstk then minstk else ssize) = size := hsize
  rw [hsize] at hstk ⊢
  by_cases hbad : pid = syserr ∨ priority.toInt < 1
  · simp [create, hsize', onHeap_done hstk, hnew, hbad]
  · simp [create, hsize', onHeap_done hstk, hnew, hbad]

/-- `create` gets a stack, and then a slot if there is one. -/
theorem create_cases (h : KernelOk o s) (ssize : Nat) (priority : Int16) :
    ∃ r m, Memory.getstk (stackSize ssize) s.heap = .done r m ∧ KernelOk o { s with heap := m } ∧
      ∃ k, create ssize priority s = .done syserr { s with heap := m, nextpid := k } ∨
        ∃ pid a, r = some a ∧ IsPid pid ∧ s.state pid = .prFree ∧ StackOk m a (stackSize ssize) ∧
          create ssize priority s = .done pid
            (Kernel.setProc { s with heap := m, nextpid := k, prcount := i32 (s.prcount + 1) } pid
              fun e => newProcent
                { s with heap := m, nextpid := k, prcount := i32 (s.prcount + 1) } e a
                  (stackSize ssize) priority) := by
  obtain ⟨l, hl⟩ := h.consistent.heap
  rcases getstk_keeps hl (stackSize ssize) with hstk | ⟨a, m, l', hstk, hl', hsame, hok⟩
  · exact ⟨none, s.heap, hstk, h, s.nextpid, Or.inl (create_none priority hstk)⟩
  · refine ⟨some a, m, hstk, h.setHeap hl' hsame, ?_⟩
    rcases newpidLoop_run nproc.toNat { s with heap := m } with
      ⟨k, hpid⟩ | ⟨k, pid, hpid, hispid, hfree⟩
    · refine ⟨k, Or.inl ?_⟩
      rw [create_some priority hstk hpid, if_pos (Or.inl rfl)]
    · by_cases hbad : pid = syserr ∨ priority.toInt < 1
      · refine ⟨k, Or.inl ?_⟩
        rw [create_some priority hstk hpid, if_pos hbad]
      · refine ⟨k, Or.inr ⟨pid, a, rfl, hispid, hfree, hok, ?_⟩⟩
        rw [create_some priority hstk hpid, if_neg hbad]

theorem create_run (h : KernelOk o s) (ssize : Nat) (priority : Int16) :
    ∃ v s₁, create ssize priority s = .done v s₁ ∧ KernelOk o s₁ ∧ Creates s s₁ ∧
      s₁.defer.ndefers = s.defer.ndefers := by
  obtain ⟨r, m, -, hheap, k, hrun | ⟨pid, a, -, hispid, hfree, hok, hrun⟩⟩ :=
    create_cases h ssize priority
  · refine ⟨syserr, _, hrun, hheap.setGlobals k s.prcount, ?_, rfl⟩
    exact ⟨rfl, rfl, rfl, rfl, rfl, semView_congr rfl fun _ _ => rfl,
      fun p hp hne => Or.inr ⟨hp, hne⟩, fun _ hp => hp, fun _ hp => hp⟩
  · obtain ⟨s₀, hs₀⟩ : ∃ s₀ : Kernel,
        { s with heap := m, nextpid := k, prcount := i32 (s.prcount + 1) } = s₀ := ⟨_, rfl⟩
    have hok₀ : KernelOk o s₀ := hs₀ ▸ hheap.setGlobals k (i32 (s.prcount + 1))
    have hproc₀ : s₀.proctab = s.proctab := by rw [← hs₀]
    have hcreated := hok₀.newProc a (stackSize ssize) priority hispid
      (by unfold Kernel.state; rw [hproc₀]; exact hfree) (by rw [← hs₀]; exact hok)
    rw [hs₀] at hrun
    refine ⟨pid, _, hrun, hcreated, ⟨?_, ?_, ?_, ?_, ?_, ?_, ?_, ?_, ?_⟩, ?_⟩
    · rw [← hs₀]; rfl
    · rw [← hs₀]; rfl
    · rw [← hs₀]; rfl
    · rw [← hs₀]; rfl
    · rw [← hs₀]; rfl
    · rw [← hs₀]
      exact semView_congr rfl fun _ _ => rfl
    · intro p hp hne
      by_cases hpp : p = pid
      · left
        unfold Fresh
        rw [proctab_setProc, if_pos hpp]
        rfl
      · right
        unfold Kernel.state at hp ⊢
        rw [proctab_setProc, if_neg hpp, hproc₀]
        refine ⟨hp, ?_⟩
        rw [← hs₀]
        exact hne
    · intro p hp
      have hpp : p ≠ pid := by
        rintro rfl
        rw [hp.1] at hfree
        contradiction
      unfold Receiving Kernel.state at hp ⊢
      rw [proctab_setProc, if_neg hpp, hproc₀, ← hs₀]
      exact hp
    · intro p hp
      have hpp : p ≠ pid := by
        rintro rfl
        rw [hp] at hfree
        contradiction
      unfold Kernel.state at hp ⊢
      rw [proctab_setProc, if_neg hpp, hproc₀]
      exact hp
    · rw [← hs₀]; rfl

/-! ## kill -/

/-- The event that killing `pid` stands for, unless it switches. -/
def killEvents (s : Kernel) (pid : Int) : List (SemEvent Int) :=
  if IsPid pid ∧ s.state pid = .prWait then [.withdraw (s.proctab pid).prsem pid] else []

theorem close_run (d : Int) (s : Kernel) : ∃ v, close d s = .done v s := by
  by_cases hbad : isbaddev d
  · exact ⟨syserr, by simp [close, hbad]⟩
  · exact ⟨ok, by simp [close, hbad]⟩

/-- What is left of `killTail` when the stack is given back. -/
def killState (pid : Int) : KernelM Int := do
  let s ← get
  match s.state pid with
  | .prCurr =>
      modify (·.setState pid .prFree)
      resched
      let _ ← unsleep pid
      modify (·.setState pid .prFree)
  | .prSleep | .prRectim =>
      let _ ← unsleep pid
      modify (·.setState pid .prFree)
  | .prWait =>
      modify fun s => s.setSem (s.proctab pid).prsem fun e => { e with scount := i32 (e.scount + 1) }
      let _ ← getitem pid
      modify (·.setState pid .prFree)
  | .prReady =>
      let _ ← getitem pid
      modify (·.setState pid .prFree)
  | _ =>
      modify (·.setState pid .prFree)
  return ok

/-- Closing the descriptors and giving the stack back changes the heap only. -/
theorem killTail_eq (h : KernelOk o s) (hp : pid ≠ nullproc) :
    ∃ b m, Memory.freestk (s.proctab pid).prstkbase (s.proctab pid).prstklen s.heap = .done b m ∧
      killTail pid s = killState pid { s with heap := m } ∧ KernelOk o { s with heap := m } := by
  obtain ⟨v₀, hv₀⟩ := close_run ((s.proctab pid).prdesc 0) s
  obtain ⟨v₁, hv₁⟩ := close_run ((s.proctab pid).prdesc 1) s
  obtain ⟨v₂, hv₂⟩ := close_run ((s.proctab pid).prdesc 2) s
  obtain ⟨l, hl⟩ := h.consistent.heap
  obtain ⟨b, m, l', hrun, hl', hsame⟩ := freestk_keeps hl (h.consistent.stack pid hp)
  refine ⟨b, m, hrun, ?_, h.setHeap hl' hsame⟩
  simp only [killTail, Coop.run_bind, Coop.run_get, Flow.bind_done, hv₀, hv₁, hv₂,
    onHeap_done hrun]
  rfl

theorem setState_self (s : Kernel) (p : Int) : s.setState p (s.state p) = s := by
  have hproc : update s.proctab p { s.proctab p with prstate := s.state p } = s.proctab :=
    update_eq_self p s.proctab
  show { s with proctab := update s.proctab p { s.proctab p with prstate := s.state p } } = s
  rw [hproc]

/-- The messages are left alone. -/
def SameMail (s s' : Kernel) : Prop :=
  ∀ r, HasMessage s r → HasMessage s' r

/-- Freeing the slot of a process that is linked nowhere. -/
theorem Kills.setFree {p : Int} (hst : s.state p ≠ .prWait) :
    Kills [] [] s (s.setState p .prFree) ∧ SameMail s (s.setState p .prFree) := by
  refine ⟨⟨rfl, rfl, rfl, rfl, semView_congr rfl fun _ _ => rfl, fun _ _ _ => rfl, rfl, ?_, ?_, ?_⟩,
    ?_⟩
  · intro r hr hne
    refine ⟨?_, hne⟩
    rw [state_setState]
    split
    · rfl
    · exact hr
  · intro r hr
    by_cases hrp : r = p
    · exact Or.inr (Or.inr (by rw [state_setState, if_pos hrp]))
    · refine Or.inr (Or.inl ⟨?_, hr.2⟩)
      rw [state_setState, if_neg hrp]
      exact hr.1
  · intro r hr
    have hrp : r ≠ p := fun heq => hst (heq ▸ hr.1)
    exact ⟨(state_setState _ _ _ _).trans (by rw [if_neg hrp]; exact hr.1), hr.2⟩
  · exact fun r hr => (hasMessage_setState s p r .prFree).mpr hr

/-- Freeing the slot at the end of a procedure. -/
theorem Frame.trans_setFree {evs : List (SemEvent Int)} {zs : List (AlarmEvent Int)}
    (h : Frame evs zs s s') {p : Int} (hst : s'.state p ≠ .prWait) :
    Kills evs zs s (s'.setState p .prFree) ∧ SameMail s (s'.setState p .prFree) := by
  obtain ⟨hk, hmail⟩ := Kills.setFree hst
  have hall := h.trans_kills hk fun r _ hr => hmail r hr
  rw [List.append_nil, List.append_nil] at hall
  exact ⟨hall, fun r hr => hmail r (h.tame.message r hr)⟩

/-- A waiter is withdrawn from its semaphore. -/
theorem semView_withdraw {x : Int} {t' : QueueTab} (h : Consistent o none s) (hbad : ¬ isbadsem x)
    (hupd : QueueUpdate s.queuetab t' s.nextqid (s.squeue x)
      ((members s.queuetab (s.squeue x)).erase pid)) :
    semView { s.setCount x (i32 (s.count x + 1)) with queuetab := t' } =
      SemEvent.applyAll i32 (semView s) [.withdraw x pid] := by
  refine (semView_update { s.setCount x (i32 (s.count x + 1)) with queuetab := t' }
    (e := { s.semtab x with scount := i32 (s.count x + 1) }) hbad rfl rfl
    (h.ids.sem_other hbad hupd)).trans ?_
  simp only [SemEvent.applyAll, SemEvent.apply, SemEvent.sem, SemEvent.effect, List.foldl_cons,
    List.foldl_nil]
  congr 1
  unfold Sem.withdraw semView viewEntry Kernel.count
  rw [if_neg hbad, hupd.self]
  by_cases hused : (s.semtab x).sstate = .sUsed
  · simp [hused]
  · simp [hused]

/-- The end of `kill` for a process whose slot is already free. -/
theorem killSelf_run (hfree : s.state pid = .prFree) :
    (do
      let _ ← unsleep pid
      modify (·.setState pid .prFree)
      return ok : KernelM Int) s = .done ok s := by
  have huns := unsleep_bad (s := s) (p := pid) (by rw [hfree]; decide)
  have hself : s.setState pid .prFree = s := by
    rw [← hfree]
    exact setState_self s pid
  simp [huns, hself]

/-- The alarm event of the end of `kill`. -/
def killAlarms (s : Kernel) (pid : Int) : List (AlarmEvent Int) :=
  if s.state pid = .prSleep ∨ s.state pid = .prRectim then [.cancel pid] else []

/-- Whatever its state, the process is linked nowhere afterwards and its slot is free. -/
theorem killState_run (h : KernelOk o s) (hpid : IsPid pid) (hp : pid ≠ nullproc)
    (hlinked : s.state pid = .prWait →
      ∃ x, ¬ isbadsem x ∧ pid ∈ members s.queuetab (s.squeue x)) :
    (∃ s₁, killState pid s = .done ok s₁ ∧ KernelOk o s₁ ∧
        (Kills (killEvents s pid) (killAlarms s pid) s s₁ ∧ SameMail s s₁) ∧
        s₁.defer.ndefers = s.defer.ndefers ∧ s₁.state pid = .prFree) ∨
      ∃ s₁ k, killState pid s = .suspended s₁ k ∧ KernelOk o s₁ ∧
        (Kills [] [] s s₁ ∧ SameMail s s₁) ∧
        s₁.defer.ndefers = s.defer.ndefers ∧ pid = s.currpid ∧ s₁.state pid = .prFree ∧
          s₁.currpid ≠ pid := by
  have hcons := h.consistent
  have hnone : s.state pid ≠ .prWait → killEvents s pid = [] := fun hne =>
    if_neg fun hw => hne hw.2
  have hawake : s.state pid ≠ .prSleep ∧ s.state pid ≠ .prRectim → killAlarms s pid = [] :=
    fun hne => if_neg fun hor => hor.elim hne.1 hne.2
  have hasleep : s.state pid = .prSleep ∨ s.state pid = .prRectim →
      killAlarms s pid = [.cancel pid] := fun hor => if_pos hor
  have hdead : ∀ s : Kernel, (s.setState pid .prFree).state pid = .prFree := fun s => by
    rw [state_setState, if_pos rfl]
  cases hst : s.state pid with
  | prCurr =>
      have hcur : pid = s.currpid := hcons.curr pid (by simp) hpid hst
      subst hcur
      obtain ⟨s₁, hres, hok, hframe, hnd⟩ := block_run .prFree h hst hp (by decide)
      have hrun : killState s.currpid s =
          (resched (s.setState s.currpid .prFree)).bind fun _ => (do
            let _ ← unsleep s.currpid
            modify (·.setState s.currpid .prFree)
            return ok : KernelM Int) := by
        simp [killState, hst]
      have hfree : (s.setState s.currpid .prFree).state s.currpid = .prFree := by
        rw [state_setState, if_pos rfl]
      rw [hrun]
      generalize hx : resched (s.setState s.currpid .prFree) = x at hres
      cases hres with
      | deferred hdefer =>
          -- the process goes on; `unsleep` rejects the slot that is already free
          have hfree' : ∀ b, ({ s.setState s.currpid .prFree with
              defer := { s.defer with attempt := b } } : Kernel).state s.currpid = .prFree :=
            fun _ => hfree
          left
          refine ⟨_, ?_, hok, ?_, hnd, hfree' true⟩
          · exact killSelf_run (hfree' true)
          · rw [hnone (by rw [hst]; decide), hawake (by rw [hst]; decide)]
            exact ⟨hframe.kills, hframe.tame.message⟩
      | kept hzero hrunning =>
          have hfalse : (s.setState s.currpid .prFree).state s.currpid = .prCurr := hrunning
          rw [hfree] at hfalse
          contradiction
      | switched hzero hstate hactive hprio hsemtab hsaved =>
          right
          have hne : s₁.currpid ≠ s.currpid := by
            intro heq
            rw [heq, hfree] at hactive
            rcases hactive with hactive | hactive <;> contradiction
          refine ⟨s₁, _, rfl, hok, ⟨hframe.kills, hframe.tame.message⟩, hnd, rfl, ?_, hne⟩
          rw [hstate, if_neg (Ne.symm hne), if_neg]
          · exact hfree
          · rintro ⟨-, hcurr⟩
            rw [hfree] at hcurr
            contradiction
  | prSleep =>
      left
      obtain ⟨t', huns, hopen, hframe⟩ := unsleep_run hcons hpid (Or.inl hst)
      refine ⟨{ s with queuetab := t' }.setState pid .prFree, ?_, ?_, ?_, rfl, hdead _⟩
      · simp [killState, hst, huns]
      · exact h.bury hopen hp (by rw [hst]; decide) (by decide) rfl rfl rfl rfl h.counts
      · rw [hnone (by rw [hst]; decide), hasleep (Or.inl hst)]
        exact hframe.trans_setFree (by show s.state pid ≠ .prWait; rw [hst]; decide)
  | prRectim =>
      left
      obtain ⟨t', huns, hopen, hframe⟩ := unsleep_run hcons hpid (Or.inr hst)
      refine ⟨{ s with queuetab := t' }.setState pid .prFree, ?_, ?_, ?_, rfl, hdead _⟩
      · simp [killState, hst, huns]
      · exact h.bury hopen hp (by rw [hst]; decide) (by decide) rfl rfl rfl rfl h.counts
      · rw [hnone (by rw [hst]; decide), hasleep (Or.inr hst)]
        exact hframe.trans_setFree (by show s.state pid ≠ .prWait; rw [hst]; decide)
  | prWait =>
      left
      obtain ⟨x, hbad, hmem⟩ := hlinked hst
      have hx := hcons.prsem x pid hbad hmem
      have hset := h.setCount (x := x) (i32_range (s.count x + 1))
      obtain ⟨t', hget, hupd, hun, hkey⟩ := getitem_run (s := s.setCount x (i32 (s.count x + 1)))
        hset.consistent.queues (hcons.ids.sem x hbad) hmem
      have hopen : Consistent o (some pid) { s.setCount x (i32 (s.count x + 1)) with queuetab := t' } :=
        hset.consistent.unlink hmem hupd hun fun i _ => hkey i
      have hevents : killEvents s pid = [.withdraw x pid] := by
        unfold killEvents
        rw [if_pos ⟨hpid, hst⟩, hx]
      refine ⟨{ s.setCount x (i32 (s.count x + 1)) with queuetab := t' }.setState pid .prFree,
        ?_, ?_, ?_, rfl, hdead _⟩
      · have hcount : s.setSem x (fun e => { e with scount := i32 (e.scount + 1) }) =
            s.setCount x (i32 (s.count x + 1)) := rfl
        simp [killState, hst, hx, hcount, hget]
      · exact h.bury hopen hp (by rw [hst]; decide) (by decide) rfl rfl rfl rfl hset.counts
      · -- the process is taken for suspended until its slot is freed
        have hframe : Frame [.withdraw x pid] []
            s ({ s.setCount x (i32 (s.count x + 1)) with queuetab := t' }.setState pid .prSusp) := by
          refine ⟨semView_withdraw hcons hbad hupd, ?_⟩
          refine .of_update hcons.ids hupd (Or.inr (Or.inr ⟨x, hbad, rfl⟩)) rfl rfl rfl rfl
            (Tame.setCount s x _).squeue ?_ ?_ ?_ ?_
          · exact alarmList_of_update hcons.ids rfl rfl hupd (hcons.ids.sem_ne x hbad).2.symm
              fun i _ => hkey i
          · intro r hr hcur
            refine ⟨(state_setState _ _ _ _).trans (if_neg ?_), hcur⟩
            rintro rfl
            rw [hst] at hr
            rcases hr with hr | hr <;> contradiction
          · exact fun r hr => (hasMessage_setState _ pid r .prSusp).mpr hr
          · intro r hr
            have hrp : r ≠ pid := by
              rintro rfl
              exact hr.2 x hbad hmem
            refine ⟨(state_setState _ _ _ _).trans (by rw [if_neg hrp]; exact hr.1), ?_⟩
            intro y hy heq hin
            exact hr.2 x hbad (List.mem_of_mem_erase hin)
        have hset' : ({ s.setCount x (i32 (s.count x + 1)) with queuetab := t' }.setState pid
            .prSusp).setState pid .prFree =
            { s.setCount x (i32 (s.count x + 1)) with queuetab := t' }.setState pid .prFree := by
          simp [Kernel.setState, Kernel.setProc]
        rw [hevents, hawake (by rw [hst]; decide), ← hset']
        apply hframe.trans_setFree
        rw [state_setState, if_pos rfl]
        decide
  | prReady =>
      left
      have hmem := hcons.ready_iff.mpr ⟨hpid, hst⟩
      obtain ⟨t', hget, hupd, hun, hkey⟩ := getitem_run hcons.queues hcons.ids.ready hmem
      have hopen : Consistent o (some pid) { s with queuetab := t' } :=
        hcons.unlink hmem hupd hun fun i _ => hkey i
      have halarms : alarmList { s with queuetab := t' } = alarmList s :=
        alarmList_of_update hcons.ids rfl rfl hupd (Ne.symm hcons.ids.ready_ne_sleep)
          fun i _ => hkey i
      have hframe : Frame [] [] s { s with queuetab := t' } :=
        ⟨semView_of_update hcons.ids rfl rfl hupd (Or.inl rfl),
          .of_update hcons.ids hupd (Or.inl rfl) rfl rfl rfl rfl rfl halarms
            (fun _ _ hne => ⟨rfl, hne⟩) (fun _ hr => hr) fun r hr =>
              ⟨hr.1, fun x hx heq => ((hcons.ids.sem_ne x hx).1 heq.symm).elim⟩⟩
      refine ⟨{ s with queuetab := t' }.setState pid .prFree, ?_, ?_, ?_, rfl, hdead _⟩
      · simp [killState, hst, hget]
      · exact h.bury hopen hp (by rw [hst]; decide) (by decide) rfl rfl rfl rfl h.counts
      · rw [hnone (by rw [hst]; decide), hawake (by rw [hst]; decide)]
        exact hframe.trans_setFree (by show s.state pid ≠ .prWait; rw [hst]; decide)
  | prFree | prRecv | prSusp =>
      left
      have hun := hcons.unlinked (p := pid) (by rw [hst]; decide)
      refine ⟨s.setState pid .prFree, ?_, ?_, ?_, rfl, hdead _⟩
      · simp [killState, hst]
      · exact h.bury (hcons.openLoose hpid hun) hp (by rw [hst]; decide) (by decide) rfl rfl rfl rfl
          h.counts
      · rw [hnone (by rw [hst]; decide), hawake (by rw [hst]; decide)]
        exact Kills.setFree (by rw [hst]; decide)

/-- Sending a message first does not change what the kill stands for. -/
theorem killEvents_eq (h : Consistent o none s) (h' : Consistent o none s')
    (hlinked : s.state pid = .prWait → ∃ x, ¬ isbadsem x ∧ pid ∈ members s.queuetab (s.squeue x))
    (hsems : semView s' = semView s) (hsame : SameWaits s s') :
    killEvents s' pid = killEvents s pid := by
  unfold killEvents
  by_cases hwait : IsPid pid ∧ s.state pid = .prWait
  · have hwait' : IsPid pid ∧ s'.state pid = .prWait := ⟨hwait.1, (hsame pid).mpr hwait.2⟩
    rw [if_pos hwait, if_pos hwait']
    obtain ⟨x, hbad, hmem⟩ := hlinked hwait.2
    have hmem' : pid ∈ members s'.queuetab (s'.squeue x) := by
      rw [← queue_semView hbad, hsems, queue_semView hbad]
      exact hmem
    rw [h.prsem x pid hbad hmem, h'.prsem x pid hbad hmem']
  · have hwait' : ¬ (IsPid pid ∧ s'.state pid = .prWait) := by
      rintro ⟨hpid, hst⟩
      exact hwait ⟨hpid, (hsame pid).mp hst⟩
    rw [if_neg hwait, if_neg hwait']

/-- The target of a kill that goes on. -/
def Killable (s : Kernel) (pid : Int) : Prop :=
  ¬ (isbadpid s pid ∨ pid = nullproc ∨ s.state pid = .prFree)

instance (s : Kernel) (pid : Int) : Decidable (Killable s pid) :=
  inferInstanceAs (Decidable (¬ _))

theorem kill_bad (hbad : ¬ Killable s pid) : kill pid s = .done syserr s := by
  unfold Killable at hbad
  rw [not_not] at hbad
  simp [kill, hbad]

/-- The last process halts the machine. -/
theorem kill_last (hkill : Killable s pid) (hlast : i32 (s.prcount - 1) ≤ 1) :
    kill pid s = .halted { s with prcount := i32 (s.prcount - 1) } := by
  unfold Killable at hkill
  simp [kill, hkill, hlast, xdone]

theorem kill_eq (hkill : Killable s pid) (hlast : ¬ i32 (s.prcount - 1) ≤ 1) :
    kill pid s = (send (s.proctab pid).prparent pid { s with prcount := i32 (s.prcount - 1) }).bind
      fun _ => killTail pid := by
  unfold Killable at hkill
  simp [kill, hkill, hlast]

end Runs

end Xinu
