import Xinu.Kernel.TimedWakeup

/-!
# The sleep queue as a delta list

Each key of the sleep queue is relative to the one before.  The time at which a process is
to wake up is the sum of the keys up to its own.

Main results:

- Theorem `delta_list`: an insertion and a removal move no other process.
- Theorem `long_sleep`: for which delays a sleeper gets the key that was asked for, and is
  not woken before its delay is over.
- Theorem `woken_by_first_tick`: a longer delay ends at once.
-/

namespace Xinu

open Foundations Function

/-- The processes of a queue with the times at which they are to wake up. -/
def wakeTimes (t : QueueTab) (q : Int) : List (Int × Int) :=
  due 0 ((members t q).map fun i => (i, t.qkey i))

/-- The queue `q` is a delta list of sleeping processes, and its sums fit a key. -/
structure SleepQueue (s : Kernel) (n q : Int) : Prop where
  queues : QueuesOk s.queuetab n
  isQid : IsQid n q
  asleep : ∀ p ∈ members s.queuetab q, Asleep s p
  nonneg : ∀ p ∈ members s.queuetab q, 0 ≤ s.queuetab.qkey p
  in_range : ∀ x ∈ wakeTimes s.queuetab q, x.2 < delayMax

/-- What an insertion of `p` with the delay `key` does to the queue. -/
structure Delayed (t t' : QueueTab) (n q p key : Int) : Prop where
  queues : QueuesOk t' n
  others : ∀ q', IsQid n q' → q' ≠ q → members t' q' = members t q'
  nonneg : ∀ i ∈ members t' q, 0 ≤ t'.qkey i
  /-- The process comes after those that wake up no later, and nobody else moves. -/
  times : ∃ early late, wakeTimes t q = early ++ late ∧
    wakeTimes t' q = early ++ (p, key) :: late ∧
      (∀ x ∈ early, x.2 ≤ key) ∧ ∀ x ∈ late, key < x.2

section Delta

variable {s : Kernel} {n q p key : Int}

/-- The delays of the queue are in range. -/
theorem SleepQueue.delays (h : SleepQueue s n q) :
    ∀ x ∈ (members s.queuetab q).map fun i => (i, s.queuetab.qkey i), 0 ≤ x.2 := by
  intro x hx
  obtain ⟨i, hi, rfl⟩ := List.mem_map.mp hx
  exact h.nonneg i hi

theorem SleepQueue.nodup (h : SleepQueue s n q) :
    (((members s.queuetab q).map fun i => (i, s.queuetab.qkey i)).map Prod.fst).Nodup := by
  rw [List.map_map]
  have hid : (Prod.fst ∘ fun i => (i, s.queuetab.qkey i)) = id := rfl
  rw [hid, List.map_id]
  exact h.queues.nodup q h.isQid

theorem SleepQueue.lt_delayMax (h : SleepQueue s n q) :
    ∀ x ∈ (members s.queuetab q).map fun i => (i, s.queuetab.qkey i),
      0 ≤ x.2 ∧ x.2 < delayMax :=
  lt_bound_of_due (Int.le_refl 0) h.delays h.in_range

/-- What `insertd` does to a delta list. -/
theorem SleepQueue.insertd (h : SleepQueue s n q) (hp : ¬ isbadpid s p)
    (hun : Unlinked s.queuetab n p) (hkey : 0 ≤ key) (hlt : key < delayMax) :
    ∃ t', Xinu.insertd p q key s = .done ok { s with queuetab := t' } ∧
      Delayed s.queuetab t' n q p key := by
  obtain ⟨t', hrun, hupd, hkeys⟩ := @insertd_run _ _ _ _ key h.queues h.isQid hp hun
  have htail : queuetail q ∉ members s.queuetab q := fun hmem =>
    h.isQid.tail_not_isPid (isPid_of_mem_members hmem)
  have hmap : (members t' q).map (fun i => (i, t'.qkey i)) =
      Alarms.set i32 p key ((members s.queuetab q).map fun i => (i, s.queuetab.qkey i)) := by
    rw [hupd.self]
    exact map_insertdList (h.queues.nodup q h.isQid) (hun q h.isQid) htail hkeys
  refine ⟨t', hrun, hupd.ok, hupd.other, ?_, ?_⟩
  · intro i hi
    have hmem : (i, t'.qkey i) ∈ (members t' q).map fun i => (i, t'.qkey i) :=
      List.mem_map.mpr ⟨i, hi, rfl⟩
    rw [hmap] at hmem
    exact nonneg_set wraps_i32 h.lt_delayMax hkey hlt _ hmem
  · obtain ⟨early, late, hold, hnew, hearly, hlate⟩ :=
      due_set (p := p) (t := 0) wraps_i32 h.lt_delayMax hkey hlt
    rw [Int.zero_add] at hnew hearly hlate
    refine ⟨early, late, hold, ?_, hearly, hlate⟩
    unfold wakeTimes
    rw [hmap]
    exact hnew

/-- What `unsleep` does to a delta list. -/
theorem SleepQueue.unsleep (h : SleepQueue s n q) (hp : p ∈ members s.queuetab q) :
    ∃ t', Xinu.unsleep p s = .done ok { s with queuetab := t' } ∧
      SleepQueue { s with queuetab := t' } n q ∧ Unlinked t' n p ∧
      wakeTimes t' q = (wakeTimes s.queuetab q).filter fun x => decide (x.1 ≠ p) := by
  obtain ⟨t', hrun, hupd, hun, hmap, -⟩ := h.queues.unsleep_run h.isQid hp (h.asleep p hp)
  have htimes : wakeTimes t' q = (wakeTimes s.queuetab q).filter fun x => decide (x.1 ≠ p) := by
    unfold wakeTimes
    rw [hmap]
    exact due_cancel wraps_i32 (Int.le_refl 0) h.delays h.in_range h.nodup
  refine ⟨t', hrun, ⟨hupd.ok, h.isQid, ?_, ?_, ?_⟩, hun, htimes⟩
  · intro i hi
    have hi' : i ∈ members t' q := hi
    rw [hupd.self] at hi'
    exact h.asleep i (List.mem_of_mem_erase hi')
  · intro i hi
    have hmem : (i, t'.qkey i) ∈ (members t' q).map fun i => (i, t'.qkey i) :=
      List.mem_map.mpr ⟨i, hi, rfl⟩
    rw [hmap] at hmem
    exact nonneg_cancel wraps_i32 (Int.le_refl 0) h.delays h.in_range _ hmem
  · intro x hx
    have hx' : x ∈ wakeTimes t' q := hx
    rw [htimes] at hx'
    exact h.in_range x (List.mem_filter.mp hx').1

/-- The operations on the delta list `q` do not move the other processes. -/
structure KeepsTimes (s : Kernel) (n q : Int) : Prop where
  insertd : ∀ p key, ¬ isbadpid s p → Unlinked s.queuetab n p → 0 ≤ key → key < delayMax →
    ∃ t', Xinu.insertd p q key s = .done ok { s with queuetab := t' } ∧
      Delayed s.queuetab t' n q p key
  unsleep : ∀ p ∈ members s.queuetab q,
    ∃ t', Xinu.unsleep p s = .done ok { s with queuetab := t' } ∧
      SleepQueue { s with queuetab := t' } n q ∧ Unlinked t' n p ∧
      wakeTimes t' q = (wakeTimes s.queuetab q).filter fun x => decide (x.1 ≠ p)

/--
`insertd` gives a process the time that was asked for, behind those that wake up no later,
and `unsleep` takes a process away; neither moves another process.
-/
theorem delta_list (h : SleepQueue s n q) : KeepsTimes s n q := by
  constructor
  · exact fun p key hp hun hkey hlt => h.insertd hp hun hkey hlt
  · exact fun p hp => h.unsleep hp

/-- With timely alarms, the sleep queue of the system is a delta list. -/
theorem Inv.sleepQueue {o : Assumed} (h : Inv o s) (ht : Timely delayMax 0 (alarmList s)) :
    SleepQueue s s.nextqid s.sleepq := by
  have hcons := h.kernelOk.consistent
  refine ⟨hcons.queues, hcons.ids.sleep, fun p hp => (hcons.sleep_iff.mp hp).2, ?_, ?_⟩
  · exact fun p hp => ht.1 _ (List.mem_map.mpr ⟨p, hp, rfl⟩)
  · exact fun x hx => (ht.2 x hx).2

end Delta

/-- One process sleeps for two ticks when another operation comes. -/
theorem delta_list_asleep : ∃ s, KeepsTimes s s.nextqid s.sleepq ∧
    wakeTimes s.queuetab s.sleepq = [(1, 2)] := by
  have hreplay : (kernelMachine.replay TimedRuns (sleepScript.take 4) []
      (Machine.initial (boot smallBoard))).map
        (fun r => decide (wakeTimes r.2.state.queuetab r.2.state.sleepq = [(1, 2)])) =
          some true := by
    decide +kernel
  obtain ⟨⟨tr, C⟩, hr, hst⟩ := Option.map_eq_some_iff.mp hreplay
  have hrun := kernelMachine.replay_run .start hr
  have hbooted := (boot_eq smallBoard).2
  have hI := (kernel_run timedRuns_admits (hbooted.inv ordinary) hrun).1
  have ht := (alarmsOk_of_run (hbooted.inv ordinary) hbooted.alarmList_nil hrun).1
  exact ⟨C.state, delta_list (hI.sleepQueue ht), of_decide_eq_true hst⟩

/-! ## Long delays -/

/-- The key that `sleep` makes of a number of seconds. -/
def sleepKey (delay : Nat) : Int :=
  i32 (Memory.u32 (1000 * delay))

/-- What `sleepms` does with the key for `insertd`. -/
def sleepFor (key : Int) : KernelM Int := do
  let s ← get
  if (← insertd s.currpid s.sleepq key) = syserr then
    return syserr
  modify (·.setState s.currpid .prSleep)
  resched
  return ok

theorem sleep_eq {delay : Nat} (hpos : 0 < delay) (hmax : delay ≤ maxseconds) (s : Kernel) :
    sleep delay s = (sleepFor (sleepKey delay) s).bind fun _ => pure ok := by
  have hms : Memory.u32 (1000 * delay) ≠ 0 := by
    unfold maxseconds at hmax
    unfold Memory.u32
    omega
  have hle : ¬ delay > maxseconds := by omega
  simp [sleep, sleepms, sleepFor, sleepKey, hms, hle]

/-- The key for `insertd` is the delay in milliseconds, and no key of the queue becomes
negative. -/
structure SleepsFor (s : Kernel) (delay : Nat) : Prop where
  key : sleep delay s = (sleepFor (1000 * delay) s).bind fun _ => pure ok
  in_ms : sleepKey delay = 1000 * delay
  nonneg : ∃ t', insertd s.currpid s.sleepq (sleepKey delay) s = .done ok { s with queuetab := t' } ∧
    ∀ i ∈ members t' s.sleepq, 0 ≤ t'.qkey i

theorem sleepKey_eq_iff {delay : Nat} (hmax : delay ≤ maxseconds) :
    sleepKey delay = 1000 * delay ↔ 1000 * delay < 0x80000000 := by
  have hu : Memory.u32 (1000 * delay) = 1000 * delay := by
    unfold maxseconds at hmax
    exact Memory.u32_eq (by omega)
  unfold sleepKey
  rw [hu]
  constructor
  · intro heq
    have hrange := i32_range (1000 * delay : Nat)
    omega
  · intro hlt
    have heq : i32 ((1000 * delay : Nat) : Int) = (1000 * delay : Nat) := i32_eq (by omega) (by omega)
    rw [heq]
    omega

theorem sleepsFor_iff {s : Kernel} {n : Int} {delay : Nat} (h : SleepQueue s n s.sleepq)
    (hp : ¬ isbadpid s s.currpid) (hun : Unlinked s.queuetab n s.currpid) (hpos : 0 < delay)
    (hmax : delay ≤ maxseconds) : SleepsFor s delay ↔ 1000 * delay < 0x80000000 := by
  constructor
  · exact fun hsleeps => (sleepKey_eq_iff hmax).mp hsleeps.in_ms
  · intro hlt
    have hkey := (sleepKey_eq_iff hmax).mpr hlt
    have hrun := sleep_eq hpos hmax s
    obtain ⟨t', hins, hdelayed⟩ := @SleepQueue.insertd _ _ _ _ (sleepKey delay) h hp hun (by omega)
      (by unfold delayMax; omega)
    rw [hkey] at hrun
    exact ⟨hrun, hkey, t', hins, hdelayed.nonneg⟩

/-- Along a run, the caller of `sleep` sleeps until its delay is over. -/
def SleepsOut (b : Board) : Prop :=
  ∀ (pre post : List (Segment Kernel KCall)) (seg : Segment Kernel KCall)
    (C : Config Kernel KCall) (ms : UInt32) (delay : Nat),
    kernelMachine.Run TimedRuns (Machine.initial (boot b)) (pre ++ seg :: post) C →
    seg.call = .sleepms ms → seg.resumed = false → ms.toNat = 1000 * delay →
    (∀ seg' ∈ post, ¬ Disturbs seg.who seg') →
      SleepQueue C.state C.state.nextqid C.state.sleepq ∧
        (ticks post < 1000 * delay → Asleep C.state seg.who)

theorem sleeps_out (b : Board) : SleepsOut b := by
  intro pre post seg C ms delay hrun hcall hfirst hms hquiet
  have hbooted := (boot_eq b).2
  have hI := (kernel_run timedRuns_admits (hbooted.inv ordinary) hrun).1
  have hall := alarmsOk_of_run (hbooted.inv ordinary) hbooted.alarmList_nil hrun
  refine ⟨hI.sleepQueue hall.1, ?_⟩
  intro hlt
  by_cases hzero : ms.toNat = 0
  · have hnonneg : 0 ≤ ticks post := by
      unfold ticks
      omega
    omega
  · have hd : delayOf seg.before seg.call = some ((1000 * delay : Nat) : Int) := by
      rw [hcall, delayOf, if_neg hzero, hms]
    obtain ⟨hon, hpid⟩ := hall.2 pre seg post _ rfl hfirst hd hquiet
    exact (hI.asleep_iff hpid).mp (fst_mem_of_mem_due (hon.1 (by omega)))

/--
The key of a sleeper is its delay in milliseconds if and only if that fits a signed key.  In
runs where all delays do, no sleeper wakes up before its delay is over.
-/
theorem long_sleep (b : Board) :
    (∀ (s : Kernel) (n : Int) (delay : Nat), SleepQueue s n s.sleepq → ¬ isbadpid s s.currpid →
      Unlinked s.queuetab n s.currpid → 0 < delay → delay ≤ maxseconds →
        (SleepsFor s delay ↔ 1000 * delay < 0x80000000)) ∧ SleepsOut b := by
  constructor
  · exact fun s n delay h hp hun hpos hmax => sleepsFor_iff h hp hun hpos hmax
  · exact sleeps_out b

instance (st : PrState) : Decidable (Active st) :=
  inferInstanceAs (Decidable (_ ∨ _))

/-- The process sleeps for 2147484 seconds, and the clock ticks once. -/
def longScript : List (Option KCall) :=
  [some (.create 1024 20), some (.resume 1), some (.sleepms 2147484000), none, some .tick]

/-- The key is negative, and the first tick wakes the process. -/
theorem woken_by_first_tick : sleepKey 2147484 < 0 ∧
    ∃ pre seg post C, kernelMachine.Run NullRuns (Machine.initial (boot smallBoard))
        (pre ++ seg :: post) C ∧
      seg.call = .sleepms 2147484000 ∧ ticks post = 1 ∧ (∀ seg' ∈ post, ¬ Disturbs seg.who seg') ∧
      Active (C.state.state seg.who) := by
  refine ⟨by decide, ?_⟩
  have hreplay : (kernelMachine.replay NullRuns longScript []
      (Machine.initial (boot smallBoard))).map
        (fun r => decide (∃ seg ∈ (r.1.drop 2).head?, seg.call = .sleepms 2147484000 ∧
          ticks (r.1.drop 3) = 1 ∧ (∀ seg' ∈ r.1.drop 3, ¬ Disturbs seg.who seg') ∧
          Active (r.2.state.state seg.who))) = some true := by
    decide +kernel
  obtain ⟨⟨tr, C⟩, hr, hst⟩ := Option.map_eq_some_iff.mp hreplay
  have hrun := kernelMachine.replay_run .start hr
  obtain ⟨seg, hseg, hcall, hticks, hquiet, hactive⟩ := of_decide_eq_true hst
  obtain ⟨post, hpost⟩ := List.head?_eq_some_iff.mp hseg
  dsimp only at hpost hticks hquiet hactive
  have hdrop : tr.drop 3 = post := by
    have htail : tr.drop 3 = (tr.drop 2).drop 1 := by rw [List.drop_drop]
    rw [htail, hpost]
    rfl
  rw [hdrop] at hticks hquiet
  rw [← List.take_append_drop 2 tr, hpost] at hrun
  exact ⟨_, seg, post, C, hrun, hcall, hticks, hquiet, hactive⟩

end Xinu
