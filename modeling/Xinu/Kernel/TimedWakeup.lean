import Xinu.Kernel.QueueInvariant

/-!
# Timed wake-ups

A process that sleeps, or that waits for a message with a time limit, is an alarm
on the sleep queue.  As long as only positive delays that fit a signed key are
asked for, every alarm goes off at its tick.

Main results:

- Theorem `segment_due`: one segment moves an alarm by the tick it may be.
- Theorem `woken_on_tick`: an alarm of `d` ticks goes off at the `d`-th tick of a run.
- Theorem `zero_delay_overtakes`: a `recvtime(0)` of another process spoils this.
-/

namespace Xinu

open Foundations Function

/-- The delay after which a call that starts in state `s` asks to be woken. -/
def delayOf (s : Kernel) : KCall → Option Int
  | .sleepms delay => if delay.toNat = 0 then none else some delay.toNat
  | .recvtime maxwait =>
      if 0 ≤ maxwait.toInt ∧ ¬ HasMessage s s.currpid then some maxwait.toInt else none
  | _ => none

/-- The delays for which the handlers of both boards work. -/
def delayMax : Int := 0x80000000

/-- The call asks for a positive delay that fits a signed key, if it asks for one. -/
def DelayOk (s : Kernel) (c : KCall) : Prop :=
  ∀ d ∈ delayOf s c, 0 < d ∧ d < delayMax

instance (s : Kernel) (c : KCall) : Decidable (DelayOk s c) :=
  inferInstanceAs (Decidable (∀ d ∈ delayOf s c, _))

/-- Ordinary calls with delays in range. -/
def TimedRuns (s : Kernel) (resumed : Bool) (c : KCall) : Prop :=
  NullRuns s resumed c ∧ (resumed = false → DelayOk s c)

instance (s : Kernel) (resumed : Bool) (c : KCall) : Decidable (TimedRuns s resumed c) :=
  inferInstanceAs (Decidable (_ ∧ (_ → _)))

theorem timedRuns_admits : Admits ordinary TimedRuns :=
  nullRuns_admits.mono fun _ _ _ hok => hok.1

/-- An interrupt of the clock begins with the segment. -/
def IsTick (seg : Segment Kernel KCall) : Prop :=
  seg.call = .tick ∧ seg.resumed = false

instance (seg : Segment Kernel KCall) : Decidable (IsTick seg) :=
  inferInstanceAs (Decidable (_ ∧ _))

/-- The number of clock ticks in a history. -/
def ticks (tr : List (Segment Kernel KCall)) : Int :=
  tr.countP fun seg => decide (IsTick seg)

/-- The segment kills process `p`, or passes a message to it while it waits for
one with a time limit; a kill passes a message to the parent. -/
def Disturbs (p : Int) (seg : Segment Kernel KCall) : Prop :=
  match seg.call with
  | .kill pid => pid.toInt = p ∨ seg.resumed = false ∧
      (seg.before.proctab pid.toInt).prparent = p ∧ seg.before.state p = .prRectim
  | .send pid _ => seg.resumed = false ∧ pid.toInt = p ∧ seg.before.state p = .prRectim
  | _ => False

/-- The process is on the sleep queue. -/
def Asleep (s : Kernel) (p : Int) : Prop :=
  s.state p = .prSleep ∨ s.state p = .prRectim

instance (s : Kernel) (p : Int) : Decidable (Asleep s p) :=
  inferInstanceAs (Decidable (_ ∨ _))

section Alarms

variable {s : Kernel} {p : Int} {seg : Segment Kernel KCall}

theorem wraps_i32 : Wraps i32 delayMax := by
  intro x hpos hlt
  unfold delayMax at hlt
  exact i32_eq (by omega) hlt

theorem map_fst_alarmList (s : Kernel) :
    (alarmList s).map Prod.fst = members s.queuetab s.sleepq := by
  unfold alarmList
  rw [List.map_map]
  exact List.map_id _

theorem Inv.nodup_alarms {o : Assumed} (h : Inv o s) : ((alarmList s).map Prod.fst).Nodup := by
  have hcons := h.kernelOk.consistent
  rw [map_fst_alarmList]
  exact hcons.queues.nodup _ hcons.ids.sleep

/-- A process with an alarm sleeps. -/
theorem Inv.asleep_iff {o : Assumed} (h : Inv o s) (hp : IsPid p) :
    p ∈ (alarmList s).map Prod.fst ↔ Asleep s p := by
  rw [map_fst_alarmList]
  exact h.kernelOk.consistent.sleep_iff.trans (and_iff_right hp)

theorem Inv.isPid_of_due {o : Assumed} {r : Int} (h : Inv o s) (hr : (p, r) ∈ due 0 (alarmList s)) :
    IsPid p := by
  have hmem := fst_mem_of_mem_due hr
  rw [map_fst_alarmList] at hmem
  exact h.kernelOk.consistent.isPid hmem

/-- While all alarms are timely, the two handlers agree. -/
theorem applyAll_tickAlarms (h : Inv ordinary s) (ht : Timely delayMax 0 (alarmList s)) :
    AlarmEvent.applyAll i32 (alarmList s) (tickAlarms s) =
      ((alarmList s).tick i32).expire := by
  have hcons := h.kernelOk.consistent
  unfold tickAlarms
  cases s.platform with
  | armQemu => rfl
  | armBbb =>
      by_cases hzero : firstkey (ticked s).queuetab s.sleepq = 0
      · simp only [hzero, if_true]
        rfl
      simp only [hzero, if_false]
      show (alarmList s).tick i32 = ((alarmList s).tick i32).expire
      by_cases hne : nonempty s.queuetab s.sleepq
      · obtain ⟨-, hframe⟩ := h.kernelOk.ticked hne
        have htick : alarmList (ticked s) = (alarmList s).tick i32 := hframe.tame.alarms
        rw [← htick]
        refine (expire_ticked h.kernelOk hne ?_).symm
        -- the first delay was positive, so it is not negative now
        obtain ⟨q, m, hm⟩ : ∃ q m, members s.queuetab s.sleepq = q :: m :=
          List.exists_cons_of_ne_nil ((nonempty_iff hcons.queues hcons.ids.sleep).mp hne)
        have hfirst : firstid s.queuetab s.sleepq = q := by
          rw [firstid_eq hcons.queues hcons.ids.sleep, hm]
          rfl
        have hlist : alarmList s = (q, s.queuetab.qkey q) ::
            m.map fun i => (i, s.queuetab.qkey i) := by
          unfold alarmList
          rw [hm, List.map_cons]
        have hdue := ht.2 (q, 0 + s.queuetab.qkey q) (by rw [hlist]; simp [due])
        have hkey : firstkey (ticked s).queuetab s.sleepq = s.queuetab.qkey q - 1 := by
          have hwrap : i32 (s.queuetab.qkey q - 1) = s.queuetab.qkey q - 1 :=
            wraps_i32 _ (by omega) (by omega)
          unfold firstkey ticked firstkey
          rw [firstid_setQkey, hfirst, qkey_setQkey, if_pos rfl, hwrap]
        omega
      · have hnil : alarmList s = [] := by
          have hmem : members s.queuetab s.sleepq = [] := by
            by_contra hcons'
            exact hne ((nonempty_iff hcons.queues hcons.ids.sleep).mpr hcons')
          unfold alarmList
          rw [hmem]
          rfl
        rw [hnil]
        rfl

end Alarms

section Segments

variable {s : Kernel} {p r : Int} {seg : Segment Kernel KCall}

/-- The alarms that one segment leaves. -/
structure Moves (p : Int) (seg : Segment Kernel KCall) : Prop where
  timely : Timely delayMax 0 (alarmList seg.after)
  /-- An alarm that nothing disturbs comes closer by the tick that the segment may be. -/
  due : ∀ r, ¬ Disturbs p seg → (p, r) ∈ due 0 (alarmList seg.before) →
    if IsTick seg then ((p, r - 1) ∈ due 0 (alarmList seg.after) ↔ 1 < r) ∧
      (r = 1 → p ∉ (alarmList seg.after).map Prod.fst)
    else (p, r) ∈ due 0 (alarmList seg.after)

/-- A segment that sets no alarm and is no tick. -/
theorem moves_of_cancels {zs : List (AlarmEvent Int)} (hI : Inv ordinary seg.before)
    (ht : Timely delayMax 0 (alarmList seg.before)) (hnot : ¬ IsTick seg)
    (hz : ∀ z ∈ zs, ∃ q, z = .cancel q) (hp : .cancel p ∈ zs → Disturbs p seg)
    (heq : alarmList seg.after = AlarmEvent.applyAll i32 (alarmList seg.before) zs) :
    Moves p seg := by
  obtain ⟨htimely, hkeep⟩ := ht.cancels wraps_i32 hz hI.nodup_alarms
  constructor
  · rw [heq]
    exact htimely
  · intro r hquiet hr
    rw [if_neg hnot, heq]
    exact hkeep p r (fun hmem => hquiet (hp hmem)) hr

/-- A segment that sets the alarm of the running process. -/
theorem moves_of_set {d : Int} (ht : Timely delayMax 0 (alarmList seg.before)) (hnot : ¬ IsTick seg)
    (hd : 0 < d ∧ d < delayMax)
    (heq : alarmList seg.after =
      AlarmEvent.applyAll i32 (alarmList seg.before) [.set seg.before.currpid d]) :
    Moves p seg ∧ (seg.before.currpid, d) ∈ Foundations.due 0 (alarmList seg.after) := by
  have hset : alarmList seg.after = (alarmList seg.before).set i32 seg.before.currpid d := heq
  have hmem := fun x => mem_due_set (x := x) (p := seg.before.currpid) (t := 0) wraps_i32
    ht.lt_bound (Int.le_of_lt hd.1) hd.2
  rw [hset]
  refine ⟨⟨?_, ?_⟩, ?_⟩
  · rw [hset]
    exact ht.set wraps_i32 hd.1 hd.2
  · intro r _ hr
    rw [if_neg hnot, hset, hmem]
    exact Or.inr hr
  · rw [hmem]
    left
    rw [Int.zero_add]

/-- A tick brings every alarm closer. -/
theorem moves_of_tick (hI : Inv ordinary seg.before)
    (ht : Timely delayMax 0 (alarmList seg.before)) (htick : IsTick seg)
    (heq : alarmList seg.after =
      AlarmEvent.applyAll i32 (alarmList seg.before) (tickAlarms seg.before)) : Moves p seg := by
  rw [applyAll_tickAlarms hI ht] at heq
  constructor
  · rw [heq]
    exact ht.tick_expire wraps_i32
  · intro r _ hr
    have hiff := fun x => mem_due_tick_expire (x := x) wraps_i32 ht
    rw [if_pos htick, heq]
    constructor
    · rw [hiff]
      constructor
      · intro h
        have hpos : 0 < r - 1 := h.2
        omega
      · intro hlt
        refine ⟨?_, ?_⟩
        · show (p, r - 1 + 1) ∈ _
          rw [Int.sub_add_cancel]
          exact hr
        · show 0 < r - 1
          omega
    · rintro rfl hmem
      obtain ⟨r', hr'⟩ := exists_mem_due (t := 0) hmem
      obtain ⟨hold, hpos⟩ := (hiff _).mp hr'
      have huniq := due_unique hI.nodup_alarms hr hold
      have hpos' : 0 < r' := hpos
      have hsum : (1 : Int) = r' + 1 := huniq
      omega

/-- What a message to a process does to the alarms. -/
theorem mem_sendAlarms {z : AlarmEvent Int} {q : Int} (hz : z ∈ sendAlarms s q) :
    z = .cancel q ∧ s.state q = .prRectim := by
  unfold sendAlarms at hz
  split at hz
  · next hand => exact ⟨List.mem_singleton.mp hz, hand.2.1⟩
  · simp at hz

/-- One segment moves an alarm by the tick it may be. -/
theorem segment_due (hI : Inv ordinary seg.before) (hseg : SegOk seg)
    (hok : TimedRuns seg.before seg.resumed seg.call)
    (ht : Timely delayMax 0 (alarmList seg.before)) (p : Int) : Moves p seg := by
  obtain ⟨zs, hz, heq⟩ := hseg.alarms
  have hdelay := hok.2
  have hnotick : seg.call ≠ .tick → ¬ IsTick seg := fun hne htick => hne htick.1
  have hnone : ∀ {zs : List (AlarmEvent Int)}, seg.call ≠ .tick → zs = [] →
      alarmList seg.after = AlarmEvent.applyAll i32 (alarmList seg.before) zs → Moves p seg := by
    rintro zs hne rfl heq
    exact moves_of_cancels hI ht (hnotick hne) (by simp) (by simp) heq
  cases hc : seg.call with
  | sleepms delay =>
      have hne : seg.call ≠ .tick := by rw [hc]; exact nofun
      rw [hc] at hz hdelay
      cases hres : seg.resumed with
      | true =>
          rw [hres] at hz
          exact hnone hne hz heq
      | false =>
          have hd := hdelay hres
          rw [hres] at hz
          have hz' : zs = sleepAlarms seg.before delay.toNat := hz
          unfold sleepAlarms at hz'
          by_cases hzero : delay.toNat = 0
          · exact hnone hne (hz'.trans (if_pos hzero)) heq
          · rw [if_neg hzero] at hz'
            have hrange : 0 < (delay.toNat : Int) ∧ (delay.toNat : Int) < delayMax :=
              hd delay.toNat (by simp [delayOf, hzero])
            rw [wraps_i32 _ (Int.le_of_lt hrange.1) hrange.2] at hz'
            rw [hz'] at heq
            exact (moves_of_set ht (hnotick hne) hrange heq).1
  | recvtime maxwait =>
      have hne : seg.call ≠ .tick := by rw [hc]; exact nofun
      rw [hc] at hz hdelay
      cases hres : seg.resumed with
      | true =>
          rw [hres] at hz
          exact hnone hne hz heq
      | false =>
          have hd := hdelay hres
          rw [hres] at hz
          have hz' : zs = recvtimeAlarms seg.before maxwait.toInt := hz
          unfold recvtimeAlarms at hz'
          by_cases hwait : 0 ≤ maxwait.toInt ∧ ¬ HasMessage seg.before seg.before.currpid
          · rw [if_pos hwait] at hz'
            have hrange : 0 < maxwait.toInt ∧ maxwait.toInt < delayMax :=
              hd maxwait.toInt (by simp [delayOf, hwait])
            rw [hz'] at heq
            exact (moves_of_set ht (hnotick hne) hrange heq).1
          · exact hnone hne (hz'.trans (if_neg hwait)) heq
  | tick =>
      rw [hc] at hz
      cases hres : seg.resumed with
      | true =>
          rw [hres] at hz
          have hnot : ¬ IsTick seg := fun htick => by
            have hfalse := htick.2
            rw [hres] at hfalse
            contradiction
          have hz' : zs = [] := hz
          rw [hz'] at heq
          exact moves_of_cancels hI ht hnot (by simp) (by simp) heq
      | false =>
          rw [hres] at hz
          have hz' : zs = tickAlarms seg.before := hz
          rw [hz'] at heq
          exact moves_of_tick hI ht ⟨hc, hres⟩ heq
  | send pid msg =>
      have hne : seg.call ≠ .tick := by rw [hc]; exact nofun
      rw [hc] at hz
      cases hres : seg.resumed with
      | true =>
          rw [hres] at hz
          exact hnone hne hz heq
      | false =>
          rw [hres] at hz
          have hz' : zs = sendAlarms seg.before pid.toInt := hz
          refine moves_of_cancels hI ht (hnotick hne) ?_ ?_ heq
          · intro z hmem
            rw [hz'] at hmem
            exact ⟨_, (mem_sendAlarms hmem).1⟩
          · intro hmem
            rw [hz'] at hmem
            obtain ⟨heq', hst⟩ := mem_sendAlarms hmem
            obtain rfl : p = pid.toInt := by simpa using heq'
            unfold Disturbs
            rw [hc]
            exact ⟨hres, rfl, hst⟩
  | kill pid =>
      have hne : seg.call ≠ .tick := by rw [hc]; exact nofun
      rw [hc] at hz
      refine moves_of_cancels hI ht (hnotick hne) ?_ ?_ heq
      · intro z hmem
        rcases hz z hmem with hz | ⟨-, hz⟩
        · exact ⟨_, hz⟩
        · exact ⟨_, (mem_sendAlarms hz).1⟩
      · intro hmem
        unfold Disturbs
        rw [hc]
        rcases hz _ hmem with hz | ⟨hres, hz⟩
        · left
          obtain rfl : p = pid.toInt := by simpa using hz
          rfl
        · right
          obtain ⟨heq', hst⟩ := mem_sendAlarms hz
          obtain rfl : p = (seg.before.proctab pid.toInt).prparent := by simpa using heq'
          exact ⟨hres, rfl, hst⟩
  | _ =>
      rw [hc] at hz
      exact hnone (by rw [hc]; exact nofun) hz heq

/-- A call that asks for a delay sets an alarm. -/
theorem due_of_delayOf {d : Int} (hseg : SegOk seg)
    (hok : TimedRuns seg.before seg.resumed seg.call)
    (ht : Timely delayMax 0 (alarmList seg.before)) (hres : seg.resumed = false)
    (hd : delayOf seg.before seg.call = some d) :
    (seg.before.currpid, d) ∈ due 0 (alarmList seg.after) := by
  have hrange : 0 < d ∧ d < delayMax := hok.2 hres d hd
  obtain ⟨zs, hz, heq⟩ := hseg.alarms
  suffices hset : zs = [.set seg.before.currpid d] by
    rw [hset] at heq
    have hnot : ¬ IsTick seg := by
      rintro ⟨htick, -⟩
      rw [htick] at hd
      simp [delayOf] at hd
    exact (moves_of_set (p := nullproc) ht hnot hrange heq).2
  rw [hres] at hz
  cases hc : seg.call with
  | sleepms delay =>
      rw [hc] at hz hd
      have hz' : zs = sleepAlarms seg.before delay.toNat := hz
      unfold sleepAlarms at hz'
      by_cases hzero : delay.toNat = 0
      · simp [delayOf, hzero] at hd
      · obtain rfl : (delay.toNat : Int) = d := by simpa [delayOf, hzero] using hd
        rw [if_neg hzero, wraps_i32 _ (Int.le_of_lt hrange.1) hrange.2] at hz'
        exact hz'
  | recvtime maxwait =>
      rw [hc] at hz hd
      have hz' : zs = recvtimeAlarms seg.before maxwait.toInt := hz
      unfold recvtimeAlarms at hz'
      by_cases hwait : 0 ≤ maxwait.toInt ∧ ¬ HasMessage seg.before seg.before.currpid
      · obtain rfl : maxwait.toInt = d := by simpa [delayOf, hwait] using hd
        rw [if_pos hwait] at hz'
        exact hz'
      · simp [delayOf, hwait] at hd
  | _ =>
      rw [hc] at hd
      simp [delayOf] at hd

end Segments

/-! ## Runs -/

section Runs

variable {p d : Int} {tr pre post : List (Segment Kernel KCall)} {seg : Segment Kernel KCall}

/-- The alarm of `d` ticks that process `p` set with `seg` is where it should be
after the history `post` in which nothing disturbed `p`. -/
def OnTime (p d : Int) (post : List (Segment Kernel KCall)) (s : Kernel) : Prop :=
  (ticks post < d → (p, d - ticks post) ∈ due 0 (alarmList s)) ∧
    ∀ mid t, post = mid ++ [t] → IsTick t → ticks post = d → Active (s.state p)

theorem ticks_snoc (post : List (Segment Kernel KCall)) (seg : Segment Kernel KCall) :
    ticks (post ++ [seg]) = ticks post + if IsTick seg then 1 else 0 := by
  unfold ticks
  rw [List.countP_append, List.countP_singleton]
  by_cases htick : IsTick seg <;> simp [htick]

/-- An alarm that is on time stays so. -/
theorem OnTime.snoc (hI : Inv ordinary seg.before) (hI' : Inv ordinary seg.after)
    (hseg : SegOk seg) (hmoves : Moves p seg) (hquiet : ¬ Disturbs p seg) (hpid : IsPid p)
    (h : OnTime p d post seg.before) : OnTime p d (post ++ [seg]) seg.after := by
  rw [OnTime, ticks_snoc]
  by_cases htick : IsTick seg
  · rw [if_pos htick]
    have hdue := fun hlt => hmoves.due (d - ticks post) hquiet (h.1 hlt)
    simp only [if_pos htick] at hdue
    constructor
    · intro hlt
      have hmem := (hdue (by omega)).1.mpr (by omega)
      rwa [Int.sub_sub] at hmem
    · intro mid t _ _ hd
      have hgone := (hdue (by omega)).2 (by omega)
      have hold := (hI.asleep_iff hpid).mp (fst_mem_of_mem_due (h.1 (by omega)))
      have hnew : ¬ Asleep seg.after p := fun hsleep => hgone ((hI'.asleep_iff hpid).mpr hsleep)
      rcases hseg.ticked htick.1 p with hst | hactive
      · unfold Asleep at hold hnew
        rw [hst] at hnew
        exact (hnew hold).elim
      · exact hactive
  · rw [if_neg htick, Int.add_zero]
    constructor
    · intro hlt
      have hmem := hmoves.due _ hquiet (h.1 hlt)
      rwa [if_neg htick] at hmem
    · intro mid t heq ht _
      obtain ⟨-, hlast⟩ := List.append_inj' heq rfl
      obtain rfl : seg = t := by simpa using hlast
      exact (htick ht).elim

/-- What holds of the alarms after a history. -/
def AlarmsOk (tr : List (Segment Kernel KCall)) (s : Kernel) : Prop :=
  Timely delayMax 0 (alarmList s) ∧
    ∀ pre seg post d, tr = pre ++ seg :: post → seg.resumed = false →
      delayOf seg.before seg.call = some d → (∀ seg' ∈ post, ¬ Disturbs seg.who seg') →
        OnTime seg.who d post s ∧ IsPid seg.who

theorem alarmsOk_of_run {s₀ : Kernel} {C : Config Kernel KCall} (hI : Inv ordinary s₀)
    (hnil : alarmList s₀ = []) (hrun : kernelMachine.Run TimedRuns (Machine.initial s₀) tr C) :
    AlarmsOk tr C.state := by
  refine kernel_observe (P := AlarmsOk) timedRuns_admits hI ?_ ?_ hrun
  · refine ⟨?_, ?_⟩
    · rw [hnil]
      exact ⟨by simp, by simp [due]⟩
    · intro pre seg post d heq
      simp at heq
  · intro tr seg hP hbefore hafter hseg hwho hok
    have hmoves := fun p => segment_due hbefore hseg hok hP.1 p
    refine ⟨(hmoves nullproc).timely, ?_⟩
    intro pre seg' post d heq hres hd hquiet
    rcases List.eq_nil_or_concat post with rfl | ⟨post', last, rfl⟩
    · -- the segment has just set the alarm
      obtain ⟨-, hlast⟩ := List.append_inj' heq rfl
      obtain rfl : seg = seg' := by simpa using hlast
      have hdue := due_of_delayOf hseg hok hP.1 hres hd
      have hrange : 0 < d ∧ d < delayMax := hok.2 hres d hd
      rw [hwho]
      refine ⟨⟨?_, ?_⟩, hafter.isPid_of_due hdue⟩
      · intro _
        show (_, d - 0) ∈ _
        rw [Int.sub_zero]
        exact hdue
      · intro mid t hnone
        simp at hnone
    · rw [List.concat_eq_append] at heq hquiet ⊢
      have hsplit : tr ++ [seg] = (pre ++ seg' :: post') ++ [last] := by simpa using heq
      obtain ⟨hinit, hlast⟩ := List.append_inj' hsplit rfl
      obtain rfl : seg = last := by simpa using hlast
      obtain ⟨hon, hpid⟩ := hP.2 pre seg' post' d hinit hres hd fun x hx => hquiet x (by simp [hx])
      exact ⟨hon.snoc hbefore hafter hseg (hmoves _) (hquiet seg (by simp)) hpid, hpid⟩

/-- No process sleeps when the system starts. -/
theorem Booted.alarmList_nil {s : Kernel} (h : Booted s) : alarmList s = [] := by
  unfold alarmList
  rw [h.empty _ h.ids.sleep]
  rfl

/--
Where all delays are positive and fit a signed key, a process that asks for a
delay of `d` ticks, and that nothing disturbs, sleeps until the `d`-th tick and
is ready after it, on both boards.
-/
theorem woken_on_tick {b : Board} {C : Config Kernel KCall}
    (hrun : kernelMachine.Run TimedRuns (Machine.initial (boot b)) (pre ++ seg :: post) C)
    (hfirst : seg.resumed = false) (hd : delayOf seg.before seg.call = some d)
    (hquiet : ∀ seg' ∈ post, ¬ Disturbs seg.who seg') :
    (ticks post < d → Asleep C.state seg.who) ∧
      ∀ mid t, post = mid ++ [t] → IsTick t → ticks post = d →
        Active (C.state.state seg.who) := by
  have hbooted := (boot_eq b).2
  have hI := hbooted.inv ordinary
  have hall := alarmsOk_of_run hI hbooted.alarmList_nil hrun
  obtain ⟨hon, hpid⟩ := hall.2 pre seg post d rfl hfirst hd hquiet
  refine ⟨?_, hon.2⟩
  intro hlt
  have hend := (kernel_run timedRuns_admits hI hrun).1
  exact (hend.asleep_iff hpid).mp (fst_mem_of_mem_due (hon.1 hlt))

end Runs

instance (p : Int) (seg : Segment Kernel KCall) : Decidable (Disturbs p seg) :=
  match seg with
  | ⟨_, .kill _, _, _, _, _⟩ => inferInstanceAs (Decidable (_ ∨ _ ∧ _ ∧ _))
  | ⟨_, .send _ _, _, _, _, _⟩ => inferInstanceAs (Decidable (_ ∧ _ ∧ _))
  | ⟨_, .create _ _, _, _, _, _⟩ | ⟨_, .resume _, _, _, _, _⟩ | ⟨_, .suspend _, _, _, _, _⟩
  | ⟨_, .wait _, _, _, _, _⟩ | ⟨_, .signal _, _, _, _, _⟩ | ⟨_, .signaln _ _, _, _, _, _⟩
  | ⟨_, .semcreate _, _, _, _, _⟩ | ⟨_, .semdelete _, _, _, _, _⟩
  | ⟨_, .semreset _ _, _, _, _, _⟩ | ⟨_, .sleepms _, _, _, _, _⟩ | ⟨_, .recvtime _, _, _, _, _⟩
  | ⟨_, .receive, _, _, _, _⟩ | ⟨_, .recvclr, _, _, _, _⟩ | ⟨_, .yield, _, _, _, _⟩
  | ⟨_, .chprio _ _, _, _, _, _⟩ | ⟨_, .tick, _, _, _, _⟩ | ⟨_, .ready _, _, _, _, _⟩
  | ⟨_, .reschedCntl _, _, _, _, _⟩ => instDecidableFalse

/-- The delay that the first segment asked for is over with the last one, and
nothing disturbed the process in between. -/
def Elapsed : List (Segment Kernel KCall) → Prop
  | [] => False
  | seg :: post => seg.resumed = false ∧ delayOf seg.before seg.call = some (ticks post) ∧
      (∀ seg' ∈ post, ¬ Disturbs seg.who seg') ∧ ∃ t ∈ post.getLast?, IsTick t

instance (tr : List (Segment Kernel KCall)) : Decidable (Elapsed tr) := by
  unfold Elapsed
  split <;> infer_instance

/-- A process sleeps for two ticks. -/
def sleepScript : List (Option KCall) :=
  [some (.create 1024 20), some (.resume 1), some (.sleepms 2), none, some .tick, some .tick]

theorem woken_on_second_tick :
    ∃ pre seg post C, kernelMachine.Run TimedRuns (Machine.initial (boot smallBoard))
        (pre ++ seg :: post) C ∧
      seg.call = .sleepms 2 ∧ ticks post = 2 ∧ Active (C.state.state seg.who) := by
  have hreplay : (kernelMachine.replay TimedRuns sleepScript []
      (Machine.initial (boot smallBoard))).map
        (fun r => decide (Elapsed (r.1.drop 2) ∧
          ∃ seg ∈ (r.1.drop 2).head?, seg.call = .sleepms 2)) = some true := by
    decide +kernel
  obtain ⟨⟨tr, C⟩, hr, hst⟩ := Option.map_eq_some_iff.mp hreplay
  have hrun := kernelMachine.replay_run .start hr
  obtain ⟨helapsed, seg, hseg, hcall⟩ := of_decide_eq_true hst
  obtain ⟨post, hpost⟩ := List.head?_eq_some_iff.mp hseg
  dsimp only at hpost helapsed
  rw [← List.take_append_drop 2 tr, hpost] at hrun
  rw [hpost] at helapsed
  obtain ⟨hres, hd, hquiet, t, hlast, htick⟩ := helapsed
  obtain ⟨mid, hmid⟩ := List.getLast?_eq_some_iff.mp hlast
  have hticks : ticks post = 2 := by
    rw [hcall] at hd
    have htwo : (2 : Int) = ticks post := by simpa [delayOf] using hd
    exact htwo.symm
  exact ⟨_, seg, post, C, hrun, hcall, hticks,
    (woken_on_tick hrun hres hd hquiet).2 mid t hmid htick rfl⟩

/-! ## Delays out of range -/

/-- On this board, a process can sleep though its delay is over. -/
def Oversleeps (platform : Platform) : Prop :=
  ∃ pre seg post C, kernelMachine.Run NullRuns
      (Machine.initial (boot { smallBoard with platform := platform })) (pre ++ seg :: post) C ∧
    seg.call = .sleepms 1 ∧ Elapsed (seg :: post) ∧ Asleep C.state seg.who

/-- The second process sleeps for one tick; then the first one asks for a message
with a time limit of zero, and the clock ticks. -/
def zeroScript : List (Option KCall) :=
  [some (.create 1024 20), some (.resume 1), some (.create 1024 20), some (.resume 2),
    some (.sleepms 1), none, some (.recvtime 0), none, some .tick]

/-- On neither board does the tick wake the second process. -/
theorem zero_delay_overtakes : Oversleeps .armQemu ∧ Oversleeps .armBbb := by
  have hall : ∀ platform, Oversleeps platform := by
    intro platform
    have hreplay : (kernelMachine.replay NullRuns zeroScript []
        (Machine.initial (boot { smallBoard with platform := platform }))).map
          (fun r => decide (Elapsed (r.1.drop 4) ∧ ∃ seg ∈ (r.1.drop 4).head?,
            seg.call = .sleepms 1 ∧ Asleep r.2.state seg.who)) = some true := by
      cases platform <;> decide +kernel
    obtain ⟨⟨tr, C⟩, hr, hst⟩ := Option.map_eq_some_iff.mp hreplay
    have hrun := kernelMachine.replay_run .start hr
    obtain ⟨helapsed, seg, hseg, hcall, hsleep⟩ := of_decide_eq_true hst
    obtain ⟨post, hpost⟩ := List.head?_eq_some_iff.mp hseg
    dsimp only at hpost helapsed
    rw [← List.take_append_drop 4 tr, hpost] at hrun
    rw [hpost] at helapsed
    exact ⟨_, seg, post, C, hrun, hcall, helapsed, hsleep⟩
  exact ⟨hall _, hall _⟩

end Xinu
