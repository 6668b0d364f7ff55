import Xinu.Foundations.CooperativeMachine
import Xinu.Kernel.ProcessSpec
import Xinu.Kernel.Startup

/-!
# Interleavings of kernel calls

The calls of the kernel, executed by the processes of one machine in any
interleaving.  Every segment of a run keeps the kernel invariant, acts on the
semaphores and on the sleep queue as the events of its call, revives no dead
process, and wakes no receiver without a message.

Main results:

- Theorem `exec_keeps`: a call that starts in a state that permits it keeps the
  invariant at every point where the processor changes hands.
- Theorem `kernel_observe`: induction over the segments of a run.
-/

namespace Xinu

open Foundations Function

/-- The calls, with the arguments that their callers choose. -/
inductive KCall where
  | create (ssize : UInt32) (priority : Int16)
  | resume (pid : Int32)
  | suspend (pid : Int32)
  | kill (pid : Int32)
  | wait (sem : Int32)
  | signal (sem : Int32)
  | signaln (sem count : Int32)
  | semcreate (count : Int32)
  | semdelete (sem : Int32)
  | semreset (sem count : Int32)
  | sleepms (delay : UInt32)
  | recvtime (maxwait : Int32)
  | receive
  | send (pid : Int32) (msg : UInt32)
  | recvclr
  | yield
  | chprio (pid : Int32) (newprio : Int16)
  /-- An interrupt of the clock. -/
  | tick
  | ready (pid : Int32)
  | reschedCntl (defer : Int32)
deriving DecidableEq

namespace KCall

def exec : KCall → KernelM Int
  | create ssize priority => Xinu.create ssize.toNat priority
  | resume pid => Xinu.resume pid.toInt
  | suspend pid => Xinu.suspend pid.toInt
  | kill pid => Xinu.kill pid.toInt
  | wait sem => Xinu.wait sem.toInt
  | signal sem => Xinu.signal sem.toInt
  | signaln sem count => Xinu.signaln sem.toInt count.toInt
  | semcreate count => Xinu.semcreate count.toInt
  | semdelete sem => Xinu.semdelete sem.toInt
  | semreset sem count => Xinu.semreset sem.toInt count.toInt
  | sleepms delay => Xinu.sleepms delay.toNat
  | recvtime maxwait => Xinu.recvtime maxwait.toInt
  | receive => Xinu.receive
  | send pid msg => Xinu.send pid.toInt msg.toNat
  | recvclr => Xinu.recvclr
  | yield => Xinu.yield
  | chprio pid newprio => Xinu.chprio pid.toInt newprio
  | tick => clkhandler
  | ready pid => Xinu.ready pid.toInt
  | reschedCntl defer => Xinu.reschedCntl defer.toInt

/-- The semaphore events of a segment of the call that starts in state `s`.  All
but a kill act in their first segment. -/
def events (resumed : Bool) (s : Kernel) (out : Outcome) : KCall → List (SemEvent Int)
  | kill pid =>
      match out with
      | .returned _ => killEvents s pid.toInt
      | _ => []
  | wait sem => if resumed then [] else waitEvents s sem.toInt
  | signal sem => if resumed then [] else signalEvents s sem.toInt
  | signaln sem count => if resumed then [] else signalnEvents s sem.toInt count.toInt
  | semcreate count =>
      match out with
      | .returned v => if resumed then [] else semcreateEvents v count.toInt
      | _ => []
  | semdelete sem => if resumed then [] else semdeleteEvents s sem.toInt
  | semreset sem count => if resumed then [] else semresetEvents s sem.toInt count.toInt
  | _ => []

/-- The alarm events that a segment of the call may raise if it starts in state `s`. -/
def Alarms (resumed : Bool) (s : Kernel) (zs : List (AlarmEvent Int)) : KCall → Prop
  | sleepms delay => zs = if resumed then [] else sleepAlarms s delay.toNat
  | recvtime maxwait => zs = if resumed then [] else recvtimeAlarms s maxwait.toInt
  | tick => zs = if resumed then [] else tickAlarms s
  | send pid _ => zs = if resumed then [] else sendAlarms s pid.toInt
  | kill pid => ∀ z ∈ zs, z = .cancel pid.toInt ∨
      resumed = false ∧ z ∈ sendAlarms s (s.proctab pid.toInt).prparent
  | _ => zs = []

end KCall

/-- The processor, as the kernel shares it. -/
def kernelMachine : Machine Kernel KCall where
  current := Kernel.currpid
  fresh := fun s p => decide (Fresh s p)
  exec := KCall.exec

/-- The running process may be made to wait. -/
def MayBlock (s : Kernel) : Prop :=
  s.state s.currpid = .prCurr ∧ s.currpid ≠ nullproc

/-- One more deferral can be counted. -/
def DeferRoom (s : Kernel) : Prop :=
  s.defer.ndefers + 1 < 0x80000000

/-- The process waits for nothing else than a semaphore. -/
def WaitsForSem (s : Kernel) (pid : Int) : Prop :=
  IsPid pid → s.state pid = .prWait → ∃ x, ¬ isbadsem x ∧ pid ∈ members s.queuetab (s.squeue x)

/-- The call blocks its caller. -/
def Blocks (s : Kernel) : KCall → Prop
  | .wait sem => WaitBlocks s sem.toInt
  | .sleepms delay => delay.toNat ≠ 0
  | .receive => (s.proctab s.currpid).prhasmsg = false
  | .recvtime maxwait => 0 ≤ maxwait.toInt ∧ (s.proctab s.currpid).prhasmsg = false
  | _ => False

instance (s : Kernel) (c : KCall) : Decidable (Blocks s c) := by
  cases c <;> unfold Blocks <;> infer_instance

/-- What a call needs, its blocking apart, to keep the invariant. -/
def Permitted (o : Assumed) (s : Kernel) : KCall → Prop
  | .kill pid => o.waits ∨ WaitsForSem s pid.toInt
  | .chprio pid newprio =>
      o.keys → (s.state pid.toInt = .prReady → newprio.toInt = s.prio pid.toInt) ∧
        (Settled s → pid.toInt = s.currpid →
          ∀ r, IsPid r → s.state r = .prReady → s.prio r ≤ newprio.toInt)
  | .ready pid => ¬ o.atomic ∧ (isbadpid s pid.toInt ∨ ¬ Queued (s.state pid.toInt) ∧
      (s.state pid.toInt = .prRecv → HasMessage s pid.toInt))
  | .reschedCntl defer => ¬ o.atomic ∧ (defer.toInt = deferStart → DeferRoom s)
  | .signaln _ _ | .semdelete _ | .semreset _ _ | .tick => DeferRoom s
  | _ => True

/-- The invariant between the segments of a run. -/
structure Inv (o : Assumed) (s : Kernel) : Prop where
  kernelOk : KernelOk o s
  undeferred : o.atomic → s.defer.ndefers = 0

/-- The entry that a segment of `semcreate` allocates was free. -/
def CreatesFree (seg : Segment Kernel KCall) : Prop :=
  ∀ count v, seg.call = .semcreate count → seg.outcome = .returned v → ¬ isbadsem v →
    (seg.before.semtab v).sstate = .sFree ∧ 0 ≤ count.toInt

/-- What every segment does. -/
structure SegOk (seg : Segment Kernel KCall) : Prop where
  nextqid : seg.after.nextqid = seg.before.nextqid
  readylist : seg.after.readylist = seg.before.readylist
  sleepq : seg.after.sleepq = seg.before.sleepq
  squeue : seg.after.squeue = seg.before.squeue
  sems : semView seg.after = SemEvent.applyAll i32 (semView seg.before)
    (seg.call.events seg.resumed seg.before seg.outcome)
  others : ∀ q, IsQid seg.before.nextqid q → ¬ SystemQueue seg.before q →
    members seg.after.queuetab q = members seg.before.queuetab q
  alarms : ∃ zs, seg.call.Alarms seg.resumed seg.before zs ∧
    alarmList seg.after = AlarmEvent.applyAll i32 (alarmList seg.before) zs
  receiving : ∀ p, Receiving seg.before p →
    HasMessage seg.after p ∨ Receiving seg.after p ∨ seg.after.state p = .prFree
  ticked : seg.call = .tick → Woken seg.before seg.after
  creates : CreatesFree seg
  free : ∀ p, seg.before.state p = .prFree → seg.before.currpid ≠ p →
    (Fresh seg.after p ∧ ∃ n prio, seg.call = .create n prio) ∨
      seg.after.state p = .prFree ∧ seg.after.currpid ≠ p
  held : ∀ p, Held seg.before p → Held seg.after p

/-- The process is dead, and it is not the one that still runs. -/
def Doomed (s : Kernel) (p : Int) : Prop :=
  s.state p = .prFree ∧ s.currpid ≠ p

theorem doomed_stays (o : Assumed) : kernelMachine.Dooms (Inv o) Doomed (SegOk) := by
  constructor
  · exact fun s _ hd => hd.2 rfl
  · intro seg p _ hseg hd
    refine (hseg.free p hd.1 hd.2).imp ?_ id
    intro hfresh
    exact decide_eq_true hfresh.1

section Keeps

variable {o : Assumed} {ok' : Kernel → Bool → KCall → Prop} {s s₁ : Kernel} {c : KCall}
variable {b : Bool} {evs : List (SemEvent Int)} {zs : List (AlarmEvent Int)}

theorem Inv.of_ndefers (h : Inv o s) (hok : KernelOk o s₁)
    (hnd : s₁.defer.ndefers = s.defer.ndefers) : Inv o s₁ :=
  ⟨hok, fun ha => hnd.trans (h.undeferred ha)⟩

/-- The calls of which nothing more is asked than what their events say. -/
def Plain : KCall → Prop
  | .semcreate _ | .tick => False
  | _ => True

/-- Only `semcreate` allocates a semaphore. -/
theorem createsFree_of_ne {who : Int} {out : Outcome} (hc : ∀ n, c ≠ .semcreate n) :
    CreatesFree ⟨who, c, b, s, out, s₁⟩ :=
  fun n _ hcall => (hc n hcall).elim

theorem Kills.segOk {who : Int} {out : Outcome} (h : Kills evs zs s s₁)
    (hc : ∀ n, c ≠ .semcreate n) (hwoken : c = .tick → Woken s s₁)
    (hev : c.events b s out = evs) (hz : c.Alarms b s zs) :
    SegOk ⟨who, c, b, s, out, s₁⟩ :=
  ⟨h.nextqid, h.readylist, h.sleepq, h.squeue, by rw [h.sems, ← hev], h.others,
    ⟨zs, hz, h.alarms⟩, h.receiving, hwoken, createsFree_of_ne hc,
    fun p hp hne => Or.inr (h.free p hp hne), h.held⟩

/-- A call that returns at once. -/
theorem keeps_done {v : Int} (hI : Inv o s) (hc : ∀ n, c ≠ .semcreate n)
    (hwoken : c = .tick → Woken s s₁) (hok : KernelOk o s₁) (hk : Kills evs zs s s₁)
    (hnd : s₁.defer.ndefers = s.defer.ndefers) (hev : c.events b s (.returned v) = evs)
    (hz : c.Alarms b s zs) :
    kernelMachine.Keeps ok' (Inv o) Doomed (SegOk) c (.done v s₁) b s :=
  ⟨hI.of_ndefers hok hnd, hk.segOk hc hwoken hev hz⟩

/-- The execution `y`, begun in state `s`, ends a call of process `me`. -/
def Ends (o : Assumed) (c : KCall) (me : Int) (y : Flow Kernel Int) (s : Kernel) : Prop :=
  ∃ v s₁, Flow.Lands y v s₁ ∧ KernelOk o s₁ ∧ s₁.defer.ndefers = s.defer.ndefers ∧
    Kills [] [] s s₁ ∧ KeepsMail me s s₁ ∧ (c = .tick → Woken s s₁)

/-- Nothing is left to do but to return. -/
theorem ends_pure (me v : Int) (h : KernelOk o s) : Ends o c me (.done v s) s :=
  ⟨v, s, .done rfl, h, rfl, (Frame.refl s).kills, fun _ _ hr => hr, fun _ => .refl s⟩

/-- A call that goes on with `f` after it may have lost the processor once. -/
theorem keeps_bind {α : Type} {x : Flow Kernel α} {a : α} {f : α → KernelM Int} (hI : Inv o s)
    (hc : ∀ n, c ≠ .semcreate n) (hwoken : c = .tick → Woken s s₁) (hx : Flow.Lands x a s₁)
    (hok : KernelOk o s₁) (hframe : Frame evs zs s s₁) (hnd : s₁.defer.ndefers = s.defer.ndefers)
    (hev : ∀ out, c.events b s out = evs) (hev' : ∀ s' out, c.events true s' out = [])
    (hz : c.Alarms b s zs) (hz' : ∀ s', c.Alarms true s' [])
    (hf : ∀ s', KernelOk o s' → Ends o c s.currpid (f a s') s') :
    kernelMachine.Keeps ok' (Inv o) Doomed (SegOk) c (x.bind f) b s := by
  -- the second part, as a segment of its own and as the end of the first one
  have hlast : ∀ s' v, Inv o s' → kernelMachine.Keeps ok' (Inv o) Doomed (SegOk) c
      (.done v s') true s' := fun s' v hI' =>
    keeps_done hI' hc (fun _ => .refl s') hI'.kernelOk (Frame.refl s').kills rfl (hev' _ _) (hz' s')
  have hrest : ∀ s', Inv o s' →
      kernelMachine.Keeps ok' (Inv o) Doomed (SegOk) c (f a s') true s' := by
    intro s' hI'
    obtain ⟨v, s₂, hlands, hok₂, hnd₂, hk₂, -, hwoken₂⟩ := hf s' hI'.kernelOk
    cases hlands with
    | done h =>
        rw [h]
        exact keeps_done hI' hc hwoken₂ hok₂ hk₂ hnd₂ (hev' _ _) (hz' s')
    | switched h =>
        rw [h]
        refine ⟨hI'.of_ndefers hok₂ hnd₂, hk₂.segOk hc hwoken₂ (hev' _ _) (hz' s'), Or.inr ?_⟩
        exact fun s'' hI'' _ _ => hlast s'' v hI''
  cases hx with
  | done h =>
      obtain ⟨v, s₂, hlands, hok₂, hnd₂, hk₂, hmail, hwoken₂⟩ := hf s₁ hok
      have hall := hframe.trans_kills hk₂ fun p hp hr => hmail p (Ne.symm hp.2) hr
      have hwokens : c = .tick → Woken s s₂ := fun htick =>
        (hwoken htick).trans (hwoken₂ htick)
      rw [List.append_nil, List.append_nil] at hall
      rw [h, Flow.bind_done]
      cases hlands with
      | done h =>
          rw [h]
          exact keeps_done hI hc hwokens hok₂ hall (hnd₂.trans hnd) (hev _) hz
      | switched h =>
          rw [h]
          refine ⟨hI.of_ndefers hok₂ (hnd₂.trans hnd), hall.segOk hc hwokens (hev _) hz, Or.inr ?_⟩
          exact fun s' hI' _ _ => hlast s' v hI'
  | switched h =>
      rw [h, Flow.bind_suspended]
      refine ⟨hI.of_ndefers hok hnd, hframe.kills.segOk hc hwoken (hev _) hz, Or.inr ?_⟩
      exact fun s' hI' _ _ => hrest s' hI'

/-- A call that returns as soon as it runs again. -/
theorem keeps_lands {x : Flow Kernel Int} {v : Int} (hI : Inv o s)
    (hc : Plain c) (hx : Flow.Lands x v s₁)
    (hok : KernelOk o s₁) (hframe : Frame evs zs s s₁) (hnd : s₁.defer.ndefers = s.defer.ndefers)
    (hev : ∀ out, c.events b s out = evs) (hev' : ∀ s' out, c.events true s' out = [])
    (hz : c.Alarms b s zs) (hz' : ∀ s', c.Alarms true s' []) :
    kernelMachine.Keeps ok' (Inv o) Doomed (SegOk) c x b s := by
  have hkeeps : kernelMachine.Keeps ok' (Inv o) Doomed (SegOk) c
      (x.bind fun a s' => .done a s') b s := by
    refine keeps_bind hI ?_ ?_ hx hok hframe hnd hev hev' hz hz' ?_
    · rintro n rfl
      exact hc
    · rintro rfl
      exact hc.elim
    · exact fun s' hok' => ends_pure _ v hok'
  rwa [Flow.bind_pure] at hkeeps

/-! ## The calls with two parts -/

theorem receive_keeps (hI : Inv o s) (hblock : Blocks s .receive → MayBlock s) :
    kernelMachine.Keeps ok' (Inv o) Doomed (SegOk) .receive (Xinu.receive s) false s := by
  rw [receive_eq]
  by_cases hmsg : (s.proctab s.currpid).prhasmsg = false
  · obtain ⟨hcur, hnull⟩ := hblock hmsg
    obtain ⟨s₁, hres, hok, hframe, hnd⟩ := block_run .prRecv hI.kernelOk hcur hnull (by decide)
    rw [if_pos hmsg]
    refine keeps_bind hI nofun nofun hres.lands hok hframe hnd (fun _ => rfl) (fun _ _ => rfl) rfl
      (fun _ => rfl) ?_
    intro s' hok'
    obtain ⟨v, s₂, hrun, hok₂, hk, hmail, hnd₂⟩ := receiveTail_run hok' s.currpid
    exact ⟨v, s₂, .done hrun, hok₂, hnd₂, hk, hmail, nofun⟩
  · obtain ⟨v, s₁, hrun, hok, hk, -, hnd⟩ := receiveTail_run hI.kernelOk s.currpid
    rw [if_neg hmsg, hrun]
    exact keeps_done hI nofun nofun hok hk hnd rfl rfl

theorem recvtime_keeps {maxwait : Int32} (hI : Inv o s)
    (hblock : Blocks s (.recvtime maxwait) → MayBlock s) :
    kernelMachine.Keeps ok' (Inv o) Doomed (SegOk) (.recvtime maxwait)
      (Xinu.recvtime maxwait.toInt s) false s := by
  have hpass : ∀ hnone : recvtimeAlarms s maxwait.toInt = [],
      KCall.Alarms false s [] (.recvtime maxwait) := fun hnone => hnone.symm
  have hcreate : ∀ n, KCall.recvtime maxwait ≠ .semcreate n := by
    intro n h
    cases h
  have htick : ∀ s₁ s₂, KCall.recvtime maxwait = .tick → Woken s₁ s₂ := by
    intro s₁ s₂ h
    cases h
  by_cases hneg : maxwait.toInt < 0
  · have hrun : Xinu.recvtime maxwait.toInt s = .done syserr s := by simp [Xinu.recvtime, hneg]
    rw [hrun]
    refine keeps_done hI hcreate (htick _ _) hI.kernelOk (Frame.refl s).kills rfl rfl (hpass (if_neg ?_))
    exact fun hand => by omega
  have hpos : 0 ≤ maxwait.toInt := by omega
  by_cases hmsg : (s.proctab s.currpid).prhasmsg = false
  · obtain ⟨hcur, hnull⟩ := hblock ⟨hpos, hmsg⟩
    obtain ⟨s₂, hrun, s₁, hlands, hok, hframe, hnd⟩ :=
      recvtime_block hI.kernelOk hpos hmsg hcur hnull
    have hz : recvtimeAlarms s maxwait.toInt = [.set s.currpid maxwait.toInt] :=
      if_pos ⟨hpos, fun hmail => by unfold HasMessage at hmail; rw [hmsg] at hmail; contradiction⟩
    rw [hrun]
    refine keeps_bind hI hcreate (htick _ _) hlands hok hframe hnd (fun _ => rfl) (fun _ _ => rfl) hz.symm
      (fun _ => rfl) ?_
    intro s' hok'
    obtain ⟨v, s₂, hrun, hok₂, hk, hmail, hnd₂⟩ := recvtimeTail_run hok' s.currpid
    exact ⟨v, s₂, .done hrun, hok₂, hnd₂, hk, hmail, htick _ _⟩
  · have hmail : HasMessage s s.currpid := by
      unfold HasMessage
      simpa using hmsg
    rw [recvtime_pass hpos hmail]
    obtain ⟨v, s₁, hrun, hok, hk, -, hnd⟩ := recvtimeTail_run hI.kernelOk s.currpid
    rw [hrun]
    exact keeps_done hI hcreate (htick _ _) hok hk hnd rfl (hpass (if_neg fun hand => hand.2 hmail))

theorem suspend_keeps {pid : Int32} (hI : Inv o s) :
    kernelMachine.Keeps ok' (Inv o) Doomed (SegOk) (.suspend pid)
      (Xinu.suspend pid.toInt s) false s := by
  by_cases hself : s.state pid.toInt = .prCurr ∧
      ¬ (isbadpid s pid.toInt ∨ pid.toInt = nullproc)
  · obtain ⟨hcur, hbad⟩ := hself
    have hpid : IsPid pid.toInt := isPid_of_not_isbadpid fun hb => hbad (Or.inl hb)
    have heq := hI.kernelOk.consistent.curr _ (by simp) hpid hcur
    rw [suspend_eq hcur hbad]
    rw [heq] at hcur hbad ⊢
    obtain ⟨s₁, hres, hok, hframe, hnd⟩ := block_run .prSusp hI.kernelOk hcur
      (fun hnull => hbad (Or.inr hnull)) (by decide)
    refine keeps_bind hI nofun nofun hres.lands hok hframe hnd (fun _ => rfl) (fun _ _ => rfl) rfl
      (fun _ => rfl) ?_
    exact fun s' hok' => ends_pure _ _ hok'
  · have hother : ∃ v s₁, Xinu.suspend pid.toInt s = .done v s₁ ∧ KernelOk o s₁ ∧
        Frame [] [] s s₁ ∧ s₁.defer.ndefers = s.defer.ndefers := by
      by_cases hcur : s.state pid.toInt = .prCurr
      · have hbad : isbadpid s pid.toInt ∨ pid.toInt = nullproc := by
          by_contra hnot
          exact hself ⟨hcur, hnot⟩
        exact ⟨syserr, s, by simp [Xinu.suspend, hbad], hI.kernelOk, .refl s, rfl⟩
      · exact suspend_run hI.kernelOk hcur
    obtain ⟨v, s₁, hrun, hok, hframe, hnd⟩ := hother
    rw [hrun]
    exact keeps_done hI nofun nofun hok hframe.kills hnd rfl rfl

theorem tick_keeps (hI : Inv o s) (hroom : DeferRoom s) :
    kernelMachine.Keeps ok' (Inv o) Doomed (SegOk) .tick (clkhandler s) false s := by
  cases hboard : s.platform with
  | armQemu =>
      obtain ⟨s₁, hlands, hok, hframe, hnd, hwoken⟩ := clkhandlerQemu_run hI.kernelOk hroom
      have hrun : clkhandler s = (clkhandlerQemu s).bind fun _ => pure ok := by
        simp [clkhandler, hboard]
      have hz : [.tick, .expire] = tickAlarms s := by
        unfold tickAlarms
        rw [hboard]
      rw [hrun]
      refine keeps_bind hI nofun (fun _ => hwoken) hlands hok hframe hnd (fun _ => rfl)
        (fun _ _ => rfl) hz (fun _ => rfl) ?_
      exact fun s' hok' => ends_pure _ _ hok'
  | armBbb =>
      obtain ⟨ticks, time, heq⟩ := clkhandlerBbb_eq s
      obtain ⟨s₁, hlands, hok, hframe, hnd, hwoken⟩ :=
        bbbTick_run (hI.kernelOk.setClock ticks time s.preempt) hroom hboard
      have hrun : clkhandler s = (bbbTick { s with clkticks := ticks, clktime := time }).bind
          fun _ => (bbbSlice >>= fun _ => pure ok) := by
        simp only [clkhandler, Coop.run_bind, Coop.run_get, Flow.bind_done, hboard, heq,
          Flow.bind_assoc]
        rfl
      have hwoken' : Woken s s₁ := hwoken
      rw [hrun]
      refine keeps_bind hI nofun (fun _ => hwoken') hlands hok
        ((Frame.setClock s ticks time s.preempt).trans hframe) hnd (fun _ => rfl) (fun _ _ => rfl)
        rfl (fun _ => rfl) ?_
      intro s' hok'
      obtain ⟨s₂, hlands₂, hok₂, hframe₂, hnd₂, hturn⟩ := bbbSlice_run hok'
      exact ⟨ok, s₂, hlands₂.bind_pure fun _ => rfl, hok₂, hnd₂, hframe₂.kills,
        fun r _ hr => hframe₂.tame.message r hr, fun _ => Turn.woken hturn⟩

/-! ## kill -/

/-- A process that waits on a queue stays there when others take their turn. -/
theorem WaitsForSem.frame {pid : Int} (h : WaitsForSem s pid) (hframe : Frame [] zs s s₁)
    (hsame : SameWaits s s₁) : WaitsForSem s₁ pid := by
  intro hpid hwait
  obtain ⟨x, hx, hmem⟩ := h hpid ((hsame pid).mp hwait)
  have hview : (semView s₁ x).queue = (semView s x).queue := by
    rw [hframe.sems]
    rfl
  rw [queue_semView hx, queue_semView hx] at hview
  refine ⟨x, hx, ?_⟩
  rw [hview]
  exact hmem

/-- The end of a kill, in a segment that began in state `s` and has come to `s₁`. -/
theorem killTail_keeps {pid : Int32} (hI : Inv o s) (hok : KernelOk o s₁)
    (hframe : Frame [] zs s s₁) (hnd : s₁.defer.ndefers = s.defer.ndefers)
    (hcur : s₁.currpid = s.currpid) (hsame : SameWaits s s₁)
    (hz : ∀ z ∈ zs, b = false ∧ z ∈ sendAlarms s (s.proctab pid.toInt).prparent)
    (hkill : IsPid pid.toInt ∧ pid.toInt ≠ nullproc) (hlinked₀ : WaitsForSem s pid.toInt)
    (hlinked : WaitsForSem s₁ pid.toInt) :
    kernelMachine.Keeps ok' (Inv o) Doomed (SegOk) (.kill pid) (killTail pid.toInt s₁) b s := by
  obtain ⟨-, m, -, hrun, hok'⟩ := killTail_eq hok hkill.2
  have hall : Frame [] zs s { s₁ with heap := m } := by
    have hheap := hframe.trans (.setHeap s₁ m)
    rwa [List.append_nil, List.append_nil] at hheap
  have hsend : KCall.Alarms b s zs (.kill pid) := fun z hmem => Or.inr (hz z hmem)
  rw [hrun]
  rcases killState_run hok' hkill.1 hkill.2 (hlinked hkill.1) with
    ⟨s₂, hdone, hok₂, ⟨hk, hmail⟩, hnd₂, -⟩ |
    ⟨s₂, k, hsusp, hok₂, ⟨hk, hmail⟩, hnd₂, hself, hfree, hne⟩
  · have hkills := hall.trans_kills hk fun p _ hr => hmail p hr
    have halarms : KCall.Alarms b s (zs ++ killAlarms { s₁ with heap := m } pid.toInt)
        (.kill pid) := by
      intro z hmem
      rcases List.mem_append.mp hmem with hmem | hmem
      · exact hsend z hmem
      · left
        unfold killAlarms at hmem
        split at hmem
        · exact List.mem_singleton.mp hmem
        · simp at hmem
    have hevents : Kills (killEvents s pid.toInt)
        (zs ++ killAlarms { s₁ with heap := m } pid.toInt) s s₂ := by
      refine { hkills with sems := ?_ }
      rw [hk.sems, hall.sems, killEvents_eq hI.kernelOk.consistent hok'.consistent
        (hlinked₀ hkill.1) hall.sems hsame]
      rfl
    rw [hdone]
    exact keeps_done hI nofun nofun hok₂ hevents (hnd₂.trans hnd) rfl halarms
  · have hkills := hall.trans_kills hk fun p _ hr => hmail p hr
    have hwho : s.currpid = pid.toInt := hcur.symm.trans hself.symm
    rw [List.append_nil, List.append_nil] at hkills
    rw [hsusp]
    refine ⟨hI.of_ndefers hok₂ (hnd₂.trans hnd), hkills.segOk nofun nofun rfl hsend, Or.inl ?_⟩
    show s₂.state s.currpid = .prFree ∧ s₂.currpid ≠ s.currpid
    rw [hwho]
    exact ⟨hfree, hne⟩

theorem Permitted.waitsForSem {pid : Int32} (h : Permitted o s (.kill pid))
    (hcons : Consistent o none s) : WaitsForSem s pid.toInt := by
  intro hpid hwait
  rcases h with hw | hlinked
  · obtain ⟨hbad, hmem⟩ := hcons.wait_mem hw _ (by simp) hpid hwait
    exact ⟨_, hbad, hmem⟩
  · exact hlinked hpid hwait

theorem kill_keeps {pid : Int32} (hI : Inv o s) (hperm : Permitted o s (.kill pid))
    (hres : ∀ s' p, Inv o s' → ok' s' true (.kill p) → Permitted o s' (.kill p)) :
    kernelMachine.Keeps ok' (Inv o) Doomed (SegOk) (.kill pid) (Xinu.kill pid.toInt s) false s := by
  by_cases hkill : Killable s pid.toInt
  · have hok₁ : KernelOk o { s with prcount := i32 (s.prcount - 1) } :=
      hI.kernelOk.setGlobals s.nextpid _
    have hframe₁ : Frame [] [] s { s with prcount := i32 (s.prcount - 1) } :=
      ⟨semView_congr rfl fun _ _ => rfl, .of_eq rfl rfl rfl rfl rfl rfl rfl fun _ hr => hr⟩
    have hnull : pid.toInt ≠ nullproc := fun heq => hkill (Or.inr (Or.inl heq))
    have hpid : IsPid pid.toInt := isPid_of_not_isbadpid fun hb => hkill (Or.inl hb)
    by_cases hlast : i32 (s.prcount - 1) ≤ 1
    · rw [kill_last hkill hlast]
      exact ⟨hI.of_ndefers hok₁ rfl, hframe₁.kills.segOk nofun nofun rfl (fun _ hz => (List.not_mem_nil hz).elim)⟩
    · rw [kill_eq hkill hlast]
      obtain ⟨v, s₁, hlands, hok, hframe, hnd, hsame, hhands⟩ :=
        send_run hok₁ (s.proctab pid.toInt).prparent pid.toInt
      have hall := hframe₁.trans hframe
      have hsame' : SameWaits s s₁ := hsame
      have hz : ∀ z ∈ sendAlarms s (s.proctab pid.toInt).prparent,
          false = false ∧ z ∈ sendAlarms s (s.proctab pid.toInt).prparent :=
        fun z hmem => ⟨rfl, hmem⟩
      have hall' : Frame [] (sendAlarms s (s.proctab pid.toInt).prparent) s s₁ := hall
      cases hlands with
      | done h =>
          rw [h] at hhands
          rw [h, Flow.bind_done]
          have hlinked := hperm.waitsForSem hI.kernelOk.consistent
          exact killTail_keeps hI hok hall' hnd hhands hsame' hz ⟨hpid, hnull⟩ hlinked
            (hlinked.frame hall' hsame')
      | switched h =>
          rw [h, Flow.bind_suspended]
          refine ⟨hI.of_ndefers hok hnd, hall'.kills.segOk nofun nofun rfl ?_, Or.inr ?_⟩
          · exact fun z hmem => Or.inr (hz z hmem)
          intro s' hI' _ hok'
          have hlinked := (hres s' _ hI' hok').waitsForSem hI'.kernelOk.consistent
          exact killTail_keeps hI' hI'.kernelOk (.refl s') rfl rfl (fun _ => Iff.rfl) (by simp)
            ⟨hpid, hnull⟩ hlinked hlinked
  · rw [kill_bad hkill]
    have hnone : killEvents s pid.toInt = [] := by
      refine if_neg ?_
      rintro ⟨hpid, hwait⟩
      refine hkill ?_
      rintro (hbad | hnull | hfree)
      · exact not_isbadpid hpid (by rw [hwait]; decide) hbad
      · rw [hnull] at hwait
        rcases hI.kernelOk.consistent.null (by simp) with hst | hst
        · rw [hst] at hwait
          contradiction
        · rw [hst] at hwait
          contradiction
      · rw [hfree] at hwait
        contradiction
    exact keeps_done hI nofun nofun hI.kernelOk (Frame.refl s).kills rfl hnone
      (fun _ hz => (List.not_mem_nil hz).elim)

/-! ## All calls -/

theorem int32_range (x : Int32) : x.toInt < 0x80000000 := by
  have := Int32.toInt_lt x
  omega

theorem reschedCntl_keeps {defer : Int32} (hI : Inv o s) (hperm : Permitted o s (.reschedCntl defer)) :
    kernelMachine.Keeps ok' (Inv o) Doomed (SegOk) (.reschedCntl defer)
      (Xinu.reschedCntl defer.toInt s) false s := by
  obtain ⟨hatomic, hroom⟩ := hperm
  -- the deferral count changes, so the invariant holds for lack of the assumption
  have hinv : ∀ s', KernelOk o s' → Inv o s' := fun s' hok' => ⟨hok', fun ha => (hatomic ha).elim⟩
  by_cases hstart : defer.toInt = deferStart
  · obtain ⟨s₁, hrun, hok, hframe, -⟩ := reschedCntl_start_run hI.kernelOk (hroom hstart)
    rw [hstart, hrun]
    exact ⟨hinv s₁ hok, hframe.kills.segOk nofun nofun rfl rfl⟩
  by_cases hstop : defer.toInt = deferStop ∧ 0 < s.defer.ndefers
  · obtain ⟨s₁, hlands, hok, hframe, -⟩ := reschedCntl_stop_run hI.kernelOk hstop.2
    rw [hstop.1]
    cases hlands with
    | done h =>
        rw [h]
        exact ⟨hinv s₁ hok, hframe.kills.segOk nofun nofun rfl rfl⟩
    | switched h =>
        rw [h]
        refine ⟨hinv s₁ hok, hframe.kills.segOk nofun nofun rfl rfl, Or.inr ?_⟩
        exact fun s' hI' _ _ => keeps_done hI' nofun nofun hI'.kernelOk (Frame.refl s').kills rfl
          rfl rfl
  · have hrun : Xinu.reschedCntl defer.toInt s = .done syserr s := by
      by_cases heq : defer.toInt = deferStop
      · have hle : s.defer.ndefers ≤ 0 := by
          by_contra hpos
          exact hstop ⟨heq, by omega⟩
        have hne : deferStop ≠ deferStart := by decide
        simp [Xinu.reschedCntl, heq, hne, hle]
      · simp [Xinu.reschedCntl, hstart, heq]
    rw [hrun]
    exact keeps_done hI nofun nofun hI.kernelOk (Frame.refl s).kills rfl rfl rfl

theorem create_keeps {ssize : UInt32} {priority : Int16} (hI : Inv o s) :
    kernelMachine.Keeps ok' (Inv o) Doomed (SegOk) (.create ssize priority)
      (Xinu.create ssize.toNat priority s) false s := by
  obtain ⟨v, s₁, hrun, hok, hcreates, hnd⟩ := create_run hI.kernelOk ssize.toNat priority
  rw [hrun]
  refine ⟨hI.of_ndefers hok hnd, hcreates.nextqid, hcreates.readylist, hcreates.sleepq,
    hcreates.squeue, hcreates.sems, fun q _ _ => by rw [hcreates.queuetab], ⟨[], rfl, ?_⟩, ?_, nofun,
    createsFree_of_ne nofun,
    fun p hp hne => (hcreates.free p hp hne).imp (fun hfresh => ⟨hfresh, _, _, rfl⟩) id, ?_⟩
  · exact alarmList_congr hcreates.sleepq (by rw [hcreates.queuetab]) fun i _ => by
      rw [hcreates.queuetab]
  · exact fun p hp => Or.inr (Or.inl (hcreates.receiving p hp))
  · intro p hp
    unfold Held
    rw [hcreates.queuetab, hcreates.squeue]
    exact ⟨hcreates.waiting p hp.1, hp.2⟩

theorem semcreate_keeps {count : Int32} (hI : Inv o s) :
    kernelMachine.Keeps ok' (Inv o) Doomed (SegOk) (.semcreate count)
      (Xinu.semcreate count.toInt s) false s := by
  obtain ⟨v, s₁, hrun, hok, hframe, hnd, hfree⟩ := semcreate_run hI.kernelOk (int32_range count)
  rw [hrun]
  obtain ⟨hq, hr, hs, hsq, hsems, hothers, halarms, hdead, hrecv, hheld⟩ := hframe.kills
  refine ⟨hI.of_ndefers hok hnd, hq, hr, hs, hsq, hsems, hothers, ⟨[], rfl, halarms⟩, hrecv, nofun,
    ?_, ?_, hheld⟩
  · intro n w hcall hout hw
    obtain rfl : count = n := by simpa using hcall
    obtain rfl : v = w := by simpa using hout
    exact hfree hw
  · exact fun p hp hne => Or.inr (hdead p hp hne)

/-- Every call keeps the invariant at every point where the processor changes
hands, if it starts in a state that permits it. -/
theorem exec_keeps (hI : Inv o s) (hperm : Permitted o s c) (hblock : Blocks s c → MayBlock s)
    (hres : ∀ s' p, Inv o s' → ok' s' true (.kill p) → Permitted o s' (.kill p)) :
    kernelMachine.Keeps ok' (Inv o) Doomed (SegOk) c (c.exec s) false s := by
  have h := hI.kernelOk
  cases c with
  | create ssize priority => exact create_keeps hI
  | resume pid =>
      obtain ⟨v, s₁, hlands, hok, hframe, hnd⟩ := resume_run h pid.toInt
      exact keeps_lands hI trivial hlands hok hframe hnd (fun _ => rfl) (fun _ _ => rfl)
        rfl fun _ => rfl
  | suspend pid => exact suspend_keeps hI
  | kill pid => exact kill_keeps hI hperm hres
  | wait sem =>
      obtain ⟨v, s₁, hlands, hok, hframe, hnd⟩ := wait_run h hblock
      exact keeps_lands hI trivial hlands hok hframe hnd (fun _ => rfl) (fun _ _ => rfl)
        rfl fun _ => rfl
  | signal sem =>
      obtain ⟨v, s₁, hlands, hok, hframe, hnd⟩ := signal_run (x := sem.toInt) h
      exact keeps_lands hI trivial hlands hok hframe hnd (fun _ => rfl) (fun _ _ => rfl)
        rfl fun _ => rfl
  | signaln sem count =>
      obtain ⟨v, s₁, hlands, hok, hframe, hnd⟩ :=
        signaln_run (x := sem.toInt) (n := count.toInt) h hperm
      exact keeps_lands hI trivial hlands hok hframe hnd (fun _ => rfl) (fun _ _ => rfl)
        rfl fun _ => rfl
  | semcreate count =>
      exact semcreate_keeps hI
  | semdelete sem =>
      obtain ⟨v, s₁, hlands, hok, hframe, hnd⟩ := semdelete_run (x := sem.toInt) h hperm
      exact keeps_lands hI trivial hlands hok hframe hnd (fun _ => rfl) (fun _ _ => rfl)
        rfl fun _ => rfl
  | semreset sem count =>
      obtain ⟨v, s₁, hlands, hok, hframe, hnd⟩ :=
        semreset_run (x := sem.toInt) h (int32_range count) hperm
      exact keeps_lands hI trivial hlands hok hframe hnd (fun _ => rfl) (fun _ _ => rfl)
        rfl fun _ => rfl
  | sleepms delay =>
      obtain ⟨s₁, hlands, hok, hframe, hnd⟩ := sleepms_run h hblock
      exact keeps_lands hI trivial hlands hok hframe hnd (fun _ => rfl) (fun _ _ => rfl)
        rfl fun _ => rfl
  | recvtime maxwait => exact recvtime_keeps hI hblock
  | receive => exact receive_keeps hI hblock
  | send pid msg =>
      obtain ⟨v, s₁, hlands, hok, hframe, hnd, -⟩ := send_run h pid.toInt msg.toNat
      exact keeps_lands hI trivial hlands hok hframe hnd (fun _ => rfl) (fun _ _ => rfl)
        rfl fun _ => rfl
  | recvclr =>
      obtain ⟨v, s₁, hrun, hok, hk, hnd⟩ := recvclr_run h
      have hexec : KCall.recvclr.exec s = .done v s₁ := hrun
      rw [hexec]
      exact keeps_done hI nofun nofun hok hk hnd rfl rfl
  | yield =>
      obtain ⟨s₁, hlands, hok, hframe, hnd⟩ := yield_run h
      exact keeps_lands hI trivial hlands hok hframe hnd (fun _ => rfl) (fun _ _ => rfl)
        rfl fun _ => rfl
  | chprio pid newprio =>
      obtain ⟨v, s₁, hrun, hok, hframe, hnd⟩ := chprio_run h newprio
        (fun hk => (hperm hk).1) fun hk => (hperm hk).2
      exact keeps_lands hI trivial (.done hrun) hok hframe hnd (fun _ => rfl) (fun _ _ => rfl)
        rfl fun _ => rfl
  | tick => exact tick_keeps hI hperm
  | ready pid =>
      by_cases hbad : isbadpid s pid.toInt
      · have hrun : Xinu.ready pid.toInt s = .done syserr s := by simp [Xinu.ready, hbad]
        exact keeps_lands hI trivial (.done hrun) h (.refl s) rfl (fun _ => rfl) (fun _ _ => rfl)
          rfl fun _ => rfl
      · have hpid := isPid_of_not_isbadpid hbad
        have hst : s.state pid.toInt ≠ .prFree := fun heq => hbad (Or.inr (Or.inr heq))
        obtain ⟨hidle, hmsg⟩ := hperm.2.resolve_left hbad
        have hun := h.consistent.unlinked hidle
        have hwait : s.state pid.toInt ≠ .prWait := by
          intro heq
          rw [heq] at hidle
          exact hidle (by decide)
        obtain ⟨s₁, hlands, hok, hframe, hnd, -⟩ :=
          ready_run (h.consistent.openLoose hpid hun) hst hwait hmsg h.counts h.ndefers
        exact keeps_lands hI trivial hlands hok hframe hnd (fun _ => rfl) (fun _ _ => rfl)
          rfl fun _ => rfl
  | reschedCntl defer => exact reschedCntl_keeps hI hperm

/-- What may be assumed of a run whose segments all start as `ok'` allows. -/
structure Admits (o : Assumed) (ok' : Kernel → Bool → KCall → Prop) : Prop where
  permitted : ∀ s b c, Inv o s → ok' s b c → Permitted o s c
  blocks : ∀ s c, Inv o s → ok' s false c → Blocks s c → MayBlock s

section Runs

variable {tr : List (Segment Kernel KCall)} {C : Config Kernel KCall}

theorem Admits.keeps (h : Admits o ok') (hI : Inv o s) (hok : ok' s false c) :
    kernelMachine.Keeps ok' (Inv o) Doomed (SegOk) c (kernelMachine.exec c s) false s :=
  exec_keeps hI (h.permitted s false c hI hok) (h.blocks s c hI hok)
    fun s' p hI' hok' => h.permitted s' true (.kill p) hI' hok'

/-- Every run keeps the invariant. -/
theorem kernel_run (h : Admits o ok') (hI : Inv o s)
    (hrun : kernelMachine.Run ok' (Machine.initial s) tr C) :
    Inv o C.state ∧ ∀ seg ∈ tr, SegOk seg :=
  Machine.run_keeps hI (doomed_stays o) (fun _ _ hI hok => h.keeps hI hok) hrun

/-- Induction over the segments of a run. -/
theorem kernel_observe {P : List (Segment Kernel KCall) → Kernel → Prop} (h : Admits o ok')
    (hI : Inv o s) (hP : P [] s)
    (hstep : ∀ tr seg, P tr seg.before → Inv o seg.before → Inv o seg.after → SegOk seg →
      seg.who = seg.before.currpid → ok' seg.before seg.resumed seg.call →
      P (tr ++ [seg]) seg.after)
    (hrun : kernelMachine.Run ok' (Machine.initial s) tr C) : P tr C.state :=
  Machine.run_observe hI (doomed_stays o) (fun _ _ hI hok => h.keeps hI hok) hP hstep hrun

end Runs

end Keeps

/-! ## Runs of ordinary calls -/

/-- What user processes and the clock call; `ready` and `resched_cntl` are
called by the kernel itself. -/
def Ordinary : KCall → Prop
  | .ready _ | .reschedCntl _ => False
  | _ => True

instance (c : KCall) : Decidable (Ordinary c) := by
  unfold Ordinary
  split <;> infer_instance

/-- Ordinary calls, none of which blocks the null process. -/
def NullRuns (s : Kernel) (resumed : Bool) (c : KCall) : Prop :=
  Ordinary c ∧ (resumed = false → Blocks s c → s.currpid ≠ nullproc)

instance (s : Kernel) (resumed : Bool) (c : KCall) : Decidable (NullRuns s resumed c) :=
  inferInstanceAs (Decidable (_ ∧ (_ → _ → _)))

/-- The assumptions of a run of ordinary calls. -/
def ordinary : Assumed :=
  ⟨False, True, True⟩

theorem Booted.inv {s : Kernel} (h : Booted s) (o : Assumed) : Inv o s :=
  ⟨h.kernelOk o, fun _ => h.alone.ndefers⟩

/-- Between ordinary calls the current process runs. -/
theorem Inv.running {s : Kernel} (h : Inv ordinary s) : s.state s.currpid = .prCurr :=
  h.kernelOk.running (Or.inl (h.undeferred trivial))

/-- Stricter rules admit fewer runs. -/
theorem Admits.mono {o : Assumed} {ok₁ ok₂ : Kernel → Bool → KCall → Prop} (h : Admits o ok₁)
    (hle : ∀ s b c, ok₂ s b c → ok₁ s b c) : Admits o ok₂ :=
  ⟨fun s b c hI hok => h.permitted s b c hI (hle s b c hok),
    fun s c hI hok => h.blocks s c hI (hle s false c hok)⟩

theorem nullRuns_admits : Admits ordinary NullRuns := by
  constructor
  · intro s b c hI hok
    have hroom : DeferRoom s := by
      have hzero := hI.undeferred trivial
      unfold DeferRoom
      omega
    cases c with
    | kill pid => exact Or.inl trivial
    | chprio pid newprio => exact fun hk => hk.elim
    | ready pid => exact hok.1.elim
    | reschedCntl defer => exact hok.1.elim
    | signaln sem count => exact hroom
    | semdelete sem => exact hroom
    | semreset sem count => exact hroom
    | tick => exact hroom
    | _ => trivial
  · exact fun s c hI hok hblock => ⟨hI.running, hok.2 rfl hblock⟩

end Xinu
