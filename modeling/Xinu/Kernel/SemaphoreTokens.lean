import Xinu.Foundations.TokenLedger
import Xinu.Kernel.SemaphoreCounts

/-!
# The tokens of a semaphore

Of the calls of `wait` for a semaphore, as many have been allowed to complete as
tokens were there, and in the order of the calls, whatever signals and kills came
between.

Main results:

- Theorem `balanced_record`: one segment keeps the ledger of a semaphore balanced.
- Theorem `tokens_of_run`: the law, in every run in which no signal makes a count
  overflow.
- Theorem `overflow_loses_tokens`: a run in which one does.
-/

namespace Xinu

open Foundations Function

/-- The tokens that a call adds to semaphore `x`. -/
def tokens (x : Int) : KCall → Nat
  | .signal sem => if sem.toInt = x then 1 else 0
  | .signaln sem count => if sem.toInt = x then count.toInt.toNat else 0
  | _ => 0

/-- The process that a segment kills. -/
def killedBy (seg : Segment Kernel KCall) : Option Int :=
  match seg.call, seg.outcome with
  | .kill pid, .returned _ => some pid.toInt
  | _, _ => none

/-- Process `who` begins a call. -/
def enter (x who : Int) : KCall → TokenLedger Int → TokenLedger Int
  | .wait sem, l => if sem.toInt = x then l.issue who else l
  | c, l => l.supply (tokens x c)

/-- The ledger of semaphore `x` after a segment: a call that begins is entered, and then
the queue tells who waits. -/
def record (x : Int) (seg : Segment Kernel KCall) (l : TokenLedger Int) : TokenLedger Int :=
  (if seg.resumed then l else enter x seg.who seg.call l).settle
    (members seg.after.queuetab (seg.after.squeue x)) (killedBy seg)

/-- The segment creates semaphore `x`, if it is one of `semcreate`. -/
def Allocates (x : Int) (seg : Segment Kernel KCall) : Prop :=
  seg.resumed = false ∧ seg.outcome = .returned x ∧ ¬ isbadsem x

instance (x : Int) (seg : Segment Kernel KCall) : Decidable (Allocates x seg) :=
  inferInstanceAs (Decidable (_ ∧ _ ∧ _))

/-- The ledger of semaphore `x` after one more segment: it is opened when the semaphore
is created, and closed when it is deleted or reset. -/
def nextLedger (x : Int) (l : Option (TokenLedger Int)) (seg : Segment Kernel KCall) :
    Option (TokenLedger Int) :=
  match seg.call with
  | .semcreate count =>
      if Allocates x seg then some (.opened count.toInt) else l.map (record x seg)
  | .semdelete sem => if sem.toInt = x then none else l.map (record x seg)
  | .semreset sem count =>
      if sem.toInt = x ∧ 0 ≤ count.toInt then none else l.map (record x seg)
  | _ => l.map (record x seg)

/-- The ledger of a semaphore that is neither deleted nor reset since it was created. -/
def ledger (x : Int) (tr : List (Segment Kernel KCall)) : Option (TokenLedger Int) :=
  tr.foldl (nextLedger x) none

theorem ledger_snoc (x : Int) (tr : List (Segment Kernel KCall)) (seg : Segment Kernel KCall) :
    ledger x (tr ++ [seg]) = nextLedger x (ledger x tr) seg := by
  simp [ledger]

/-- The ledger of semaphore `x` is kept, and tells who is on its queue. -/
structure TokensKept (x : Int) (l : TokenLedger Int) (s : Kernel) : Prop where
  conserved : l.Conserved
  queue : members s.queuetab (s.squeue x) = l.waiting.map Prod.snd

section Step

variable {s : Kernel} {seg : Segment Kernel KCall} {x : Int} {l l' : TokenLedger Int}

theorem usable_of_balanced (h : l.Balanced (semView s x)) : Usable s x := by
  have hused := h.used
  unfold semView at hused
  by_cases hbad : isbadsem x
  · rw [if_pos hbad] at hused
    contradiction
  · refine ⟨hbad, fun hfree => ?_⟩
    have hnot : ¬ (s.semtab x).sstate = .sUsed := by
      rw [hfree]
      decide
    rw [if_neg hbad, if_neg hnot] at hused
    contradiction

/-- The running process is on no queue. -/
theorem running_not_mem (h : Inv ordinary s) (hx : ¬ isbadsem x) :
    s.currpid ∉ (semView s x).queue := by
  intro hmem
  rw [queue_semView hx, h.kernelOk.consistent.wait_iff trivial hx] at hmem
  have hstate := hmem.2.1
  rw [h.running] at hstate
  contradiction

/-- A segment in which nothing happens to the semaphore. -/
theorem record_quiet (h : l.Balanced (semView seg.before x))
    (hview : semView seg.after x = semView seg.before x)
    (henter : enter x seg.who seg.call l = l ∨ seg.resumed = true) :
    (record x seg l).Balanced (semView seg.after x) := by
  have hentered : (if seg.resumed then l else enter x seg.who seg.call l) = l := by
    rcases henter with henter | hresumed
    · rw [henter, ite_self]
    · rw [if_pos hresumed]
  rw [← hview] at h
  unfold record
  rw [hentered, ← queue_semView (usable_of_balanced h).1, h.idle]
  exact h

theorem record_wait (hI : Inv ordinary seg.before) (hagree : CountsAgree seg.before)
    (hwho : seg.who = seg.before.currpid) (h : l.Balanced (semView seg.before x)) {sem : Int32}
    (hcall : seg.call = .wait sem) (hx : sem.toInt = x) (hfirst : seg.resumed = false)
    (hview : semView seg.after x = (semView seg.before x).wait i32 seg.before.currpid) :
    (record x seg l).Balanced (semView seg.after x) := by
  have husable := usable_of_balanced h
  have hge := hagree.count_ge hI.kernelOk husable
  have hlt := (hI.kernelOk.counts x).2
  unfold nproc at hge
  have hwrap : i32 ((semView seg.before x).count - 1) = (semView seg.before x).count - 1 := by
    rw [semView_usable husable]
    apply i32_eq
    · show -0x80000000 ≤ seg.before.count x - 1
      omega
    · show seg.before.count x - 1 < 0x80000000
      omega
  have hbalanced := h.wait (running_not_mem hI husable.1) hwrap
  rw [← hview] at hbalanced
  have hquiet : killedBy seg = none := by
    unfold killedBy
    rw [hcall]
  unfold record
  rw [hfirst, if_neg Bool.false_ne_true, hcall, enter, if_pos hx, hwho, hquiet,
    ← queue_semView (usable_of_balanced hbalanced).1]
  exact hbalanced

theorem record_signals (hI : Inv ordinary seg.before) (h : l.Balanced (semView seg.before x))
    {n : Nat} (henter : enter x seg.who seg.call l = l.supply n) (hkilled : killedBy seg = none)
    (hfirst : seg.resumed = false) (hmax : seg.before.count x + n < 0x80000000)
    (hview : semView seg.after x = (Sem.signal i32)^[n] (semView seg.before x)) :
    (record x seg l).Balanced (semView seg.after x) := by
  have husable := usable_of_balanced h
  have hge := (hI.kernelOk.counts x).1
  have hwrap : ∀ k : Nat, k < n → i32 ((semView seg.before x).count + k + 1) =
      (semView seg.before x).count + k + 1 := by
    intro k hk
    rw [semView_usable husable]
    apply i32_eq
    · show -0x80000000 ≤ seg.before.count x + k + 1
      omega
    · show seg.before.count x + k + 1 < 0x80000000
      omega
  have hbalanced := h.signals hwrap
  rw [← hview] at hbalanced
  unfold record
  rw [hfirst, if_neg Bool.false_ne_true, henter, hkilled,
    ← queue_semView (usable_of_balanced hbalanced).1]
  exact hbalanced

theorem record_kill (hI : Inv ordinary seg.before) (hagree : CountsAgree seg.before)
    (h : l.Balanced (semView seg.before x)) {pid : Int32} {v : Int}
    (hcall : seg.call = .kill pid) (hout : seg.outcome = .returned v)
    (hview : semView seg.after x =
      SemEvent.applyAll i32 (semView seg.before) (killEvents seg.before pid.toInt) x) :
    (record x seg l).Balanced (semView seg.after x) := by
  have husable := usable_of_balanced h
  by_cases hwaits : (IsPid pid.toInt ∧ seg.before.state pid.toInt = .prWait) ∧
      (seg.before.proctab pid.toInt).prsem = x
  · obtain ⟨hwaits, hsem⟩ := hwaits
    have hmem : pid.toInt ∈ (semView seg.before x).queue := by
      rw [queue_semView husable.1, hI.kernelOk.consistent.wait_iff trivial husable.1]
      exact ⟨hwaits.1, hwaits.2, hsem⟩
    have hpos := List.length_pos_of_mem hmem
    have hagrees : (semView seg.before x).queue.length = (-(semView seg.before x).count).toNat :=
      h.agrees
    have hge := hagree.count_ge hI.kernelOk husable
    unfold nproc at hge
    have hcount : (semView seg.before x).count = seg.before.count x := by
      rw [semView_usable husable]
    have hwrap : i32 ((semView seg.before x).count + 1) = (semView seg.before x).count + 1 :=
      i32_eq (by omega) (by omega)
    have hevent : semView seg.after x = (semView seg.before x).withdraw i32 pid.toInt := by
      rw [hview]
      unfold killEvents
      rw [if_pos hwaits, hsem]
      exact update_self _ _ _
    have hbalanced := h.withdraw hmem hwrap
    rw [← hevent] at hbalanced
    have hkilled : killedBy seg = some pid.toInt := by
      unfold killedBy
      rw [hcall, hout]
    have hentered : (if seg.resumed then l else enter x seg.who seg.call l) = l := by
      rw [hcall]
      exact ite_self l
    unfold record
    rw [hentered, hkilled, ← queue_semView (usable_of_balanced hbalanced).1]
    exact hbalanced
  · refine record_quiet h ?_ (Or.inl ?_)
    · rw [hview]
      apply SemEvent.applyAll_other
      intro ev hev
      unfold killEvents at hev
      split at hev
      · next hboth =>
          rw [List.mem_singleton.mp hev]
          exact fun heq => hwaits ⟨hboth, heq⟩
      · exact absurd hev List.not_mem_nil
    · rw [hcall]
      rfl

/-- The segment neither creates nor deletes nor resets semaphore `x`. -/
structure Uses (x : Int) (seg : Segment Kernel KCall) : Prop where
  create : ∀ count, seg.call = .semcreate count → ¬ Allocates x seg
  delete : ∀ sem, seg.call = .semdelete sem → sem.toInt ≠ x
  reset : ∀ sem count, seg.call = .semreset sem count → ¬ (sem.toInt = x ∧ 0 ≤ count.toInt)

/-- An open ledger is new, or was open before. -/
theorem next_eq {o : Option (TokenLedger Int)} (hnext : nextLedger x o seg = some l') :
    (∃ count, seg.call = .semcreate count ∧ Allocates x seg ∧ l' = .opened count.toInt) ∨
      ∃ l, o = some l ∧ l' = record x seg l ∧ Uses x seg := by
  have hold : ∀ huses : Uses x seg, o.map (record x seg) = some l' →
      ∃ l, o = some l ∧ l' = record x seg l ∧ Uses x seg := by
    intro huses hmap
    obtain ⟨l, hl, hrecord⟩ := Option.map_eq_some_iff.mp hmap
    exact ⟨l, hl, hrecord.symm, huses⟩
  unfold nextLedger at hnext
  cases hcall : seg.call with
  | semcreate count =>
      simp only [hcall] at hnext
      split at hnext
      · next hnew => exact Or.inl ⟨count, rfl, hnew, (Option.some.inj hnext).symm⟩
      · next hnot =>
          refine Or.inr (hold ⟨fun _ _ => hnot, ?_, ?_⟩ hnext)
          · simp [hcall]
          · simp [hcall]
  | semdelete sem =>
      simp only [hcall] at hnext
      split at hnext
      · contradiction
      · next hne =>
          refine Or.inr (hold ⟨?_, ?_, ?_⟩ hnext)
          · simp [hcall]
          · simpa [hcall] using hne
          · simp [hcall]
  | semreset sem count =>
      simp only [hcall] at hnext
      split at hnext
      · contradiction
      · next hne =>
          refine Or.inr (hold ⟨?_, ?_, ?_⟩ hnext)
          · simp [hcall]
          · simp [hcall]
          · simpa [hcall] using hne
  | _ =>
      simp only [hcall] at hnext
      refine Or.inr (hold ⟨?_, ?_, ?_⟩ hnext)
      · simp [hcall]
      · simp [hcall]
      · simp [hcall]

/-- The ledger of a semaphore that was just created. -/
theorem balanced_created (hseg : SegOk seg) (hagree : CountsAgree seg.before) {count : Int32}
    (hcall : seg.call = .semcreate count) (hnew : Allocates x seg) :
    (TokenLedger.opened count.toInt).Balanced (semView seg.after x) := by
  obtain ⟨hfirst, hout, hbad⟩ := hnew
  obtain ⟨hfree, hcount⟩ := hseg.creates count x hcall hout hbad
  have hnone : members seg.before.queuetab (seg.before.squeue x) = [] := by
    by_contra hne
    obtain ⟨p, hp⟩ := List.exists_mem_of_ne_nil _ hne
    exact (hagree.usable_of_mem hbad hp).2 hfree
  have hview : semView seg.after x = ⟨true, count.toInt, []⟩ := by
    rw [hseg.sems, hcall, hfirst, hout]
    simp only [KCall.events, semcreateEvents, if_neg hbad, Bool.false_eq_true, if_false]
    refine (update_self _ _ _).trans ?_
    show (⟨true, count.toInt, (semView seg.before x).queue⟩ : Sem Int) = _
    rw [queue_semView hbad, hnone]
  rw [hview]
  exact TokenLedger.balanced_opened hcount

/-- The semaphore that a call is about. -/
def semaphoreOf (out : Outcome) : KCall → Option Int
  | .wait sem | .signal sem | .signaln sem _ | .semdelete sem | .semreset sem _ => some sem.toInt
  | .semcreate _ =>
      match out with
      | .returned v => some v
      | _ => none
  | _ => none

/-- All calls but `kill` act on the semaphore they are about. -/
theorem sem_of_mem_events {c : KCall} {b : Bool} {out : Outcome} {ev : SemEvent Int}
    (hkill : ∀ pid, c ≠ .kill pid) (hev : ev ∈ c.events b s out) :
    semaphoreOf out c = some ev.sem := by
  cases c with
  | kill pid => exact (hkill pid rfl).elim
  | wait sem =>
      simp only [KCall.events, waitEvents] at hev
      split_ifs at hev with _ hx <;> simp_all [semaphoreOf, SemEvent.sem]
  | signal sem =>
      simp only [KCall.events, signalEvents] at hev
      split_ifs at hev with _ hx <;> simp_all [semaphoreOf, SemEvent.sem]
  | signaln sem count =>
      simp only [KCall.events, signalnEvents] at hev
      split_ifs at hev with _ hx <;> simp_all [semaphoreOf, SemEvent.sem]
  | semcreate count =>
      cases out with
      | returned v =>
          simp only [KCall.events, semcreateEvents] at hev
          split_ifs at hev with _ hx <;> simp_all [semaphoreOf, SemEvent.sem]
      | switched => exact absurd hev List.not_mem_nil
      | halted => exact absurd hev List.not_mem_nil
  | semdelete sem =>
      simp only [KCall.events, semdeleteEvents] at hev
      split_ifs at hev with _ hx <;> simp_all [semaphoreOf, SemEvent.sem]
  | semreset sem count =>
      simp only [KCall.events, semresetEvents] at hev
      split_ifs at hev with _ hx <;> simp_all [semaphoreOf, SemEvent.sem]
  | _ => exact absurd hev List.not_mem_nil

/-- All calls but `kill` act in their first segment. -/
theorem events_resumed {c : KCall} {out : Outcome} (hkill : ∀ pid, c ≠ .kill pid) :
    c.events true s out = [] := by
  cases c with
  | kill pid => exact (hkill pid rfl).elim
  | semcreate count => cases out <;> rfl
  | _ => rfl

theorem enter_other {c : KCall} {out : Outcome} (h : semaphoreOf out c ≠ some x) (who : Int) :
    enter x who c l = l := by
  cases c with
  | wait sem => exact if_neg fun heq => h (congrArg some heq)
  | signal sem =>
      have hne : sem.toInt ≠ x := fun heq => h (congrArg some heq)
      simp [enter, tokens, hne, TokenLedger.supply]
  | signaln sem count =>
      have hne : sem.toInt ≠ x := fun heq => h (congrArg some heq)
      simp [enter, tokens, hne, TokenLedger.supply]
  | _ => rfl

/-- One segment keeps the ledger of a semaphore balanced that it neither creates nor
deletes nor resets. -/
theorem balanced_record (hI : Inv ordinary seg.before) (hseg : SegOk seg)
    (hagree : CountsAgree seg.before) (hwho : seg.who = seg.before.currpid)
    (hcount : seg.resumed = false → NoOverflow seg.before seg.call)
    (huses : Uses x seg) (h : l.Balanced (semView seg.before x)) :
    (record x seg l).Balanced (semView seg.after x) := by
  have husable := usable_of_balanced h
  by_cases hkill : ∃ pid, seg.call = .kill pid
  · obtain ⟨pid, hcall⟩ := hkill
    have hsems := congrFun hseg.sems x
    rw [hcall] at hsems
    cases hout : seg.outcome with
    | returned v =>
        rw [hout] at hsems
        exact record_kill hI hagree h hcall hout hsems
    | switched =>
        rw [hout] at hsems
        exact record_quiet h hsems (Or.inl (hcall ▸ rfl))
    | halted =>
        rw [hout] at hsems
        exact record_quiet h hsems (Or.inl (hcall ▸ rfl))
  replace hkill : ∀ pid, seg.call ≠ .kill pid := fun pid heq => hkill ⟨pid, heq⟩
  have hnot : killedBy seg = none := by
    unfold killedBy
    split
    · next pid _ hcall _ => exact (hkill pid hcall).elim
    · rfl
  cases hresumed : seg.resumed with
  | true =>
      refine record_quiet h ?_ (Or.inr hresumed)
      rw [hseg.sems, hresumed, events_resumed hkill]
      rfl
  | false =>
      by_cases hsem : semaphoreOf seg.outcome seg.call = some x
      swap
      · refine record_quiet h ?_ (Or.inl (enter_other hsem _))
        rw [hseg.sems]
        refine SemEvent.applyAll_other i32 fun ev hev heq => hsem ?_
        rw [sem_of_mem_events hkill hev, heq]
      have hsems := congrFun hseg.sems x
      rw [hresumed] at hsems
      have hmax := hcount hresumed
      cases hcall : seg.call with
      | wait sem =>
          rw [hcall] at hsem hsems
          obtain rfl : sem.toInt = x := Option.some.inj hsem
          refine record_wait hI hagree hwho h hcall rfl hresumed (hsems.trans ?_)
          simp only [KCall.events, waitEvents, Bool.false_eq_true, if_false, if_pos husable]
          exact update_self _ _ _
      | signal sem =>
          rw [hcall] at hsem hsems hmax
          obtain rfl : sem.toInt = x := Option.some.inj hsem
          refine record_signals (n := 1) hI h ?_ hnot hresumed (hmax husable) (hsems.trans ?_)
          · rw [hcall]
            simp [enter, tokens]
          · simp only [KCall.events, signalEvents, Bool.false_eq_true, if_false, if_pos husable]
            exact update_self _ _ _
      | signaln sem count =>
          rw [hcall] at hsem hsems hmax
          obtain rfl : sem.toInt = x := Option.some.inj hsem
          have hlt := hmax husable
          have hrange := (hI.kernelOk.counts sem.toInt).2
          refine record_signals (n := count.toInt.toNat) hI h ?_ hnot hresumed (by omega)
            (hsems.trans ?_)
          · rw [hcall]
            simp [enter, tokens]
          · simp only [KCall.events, signalnEvents, Bool.false_eq_true, if_false, if_pos husable]
            exact SemEvent.applyAll_signals i32 _ _ _
      | semcreate count =>
          have hout : seg.outcome = .returned x := by
            rw [hcall] at hsem
            simp only [semaphoreOf] at hsem
            split at hsem
            · next v hv => rw [hv, Option.some.inj hsem]
            · contradiction
          exact (huses.create count hcall ⟨hresumed, hout, husable.1⟩).elim
      | semdelete sem =>
          rw [hcall] at hsem
          exact (huses.delete sem hcall (Option.some.inj hsem)).elim
      | semreset sem count =>
          rw [hcall] at hsem
          have hnone : ¬ (Usable seg.before sem.toInt ∧ 0 ≤ count.toInt) := fun hok =>
            huses.reset sem count hcall ⟨Option.some.inj hsem, hok.2⟩
          refine record_quiet h ?_ (Or.inl (hcall ▸ rfl))
          rw [hsems, hcall]
          simp only [KCall.events, semresetEvents, Bool.false_eq_true, if_false, if_neg hnone]
          rfl
      | _ =>
          rw [hcall] at hsem
          contradiction

end Step

/-! ## Every run -/

/--
In every run of ordinary calls in which no signal makes a count overflow, as many calls of
`wait` for a semaphore have been allowed to complete as there were tokens, or all that were
not withdrawn by a kill; they were allowed to in the order in which they were made; and
those that wait are on the queue, in that order.
-/
theorem tokens_of_run {b : Board} {tr : List (Segment Kernel KCall)} {C : Config Kernel KCall}
    {x : Int} {l : TokenLedger Int}
    (hrun : kernelMachine.Run CountedRuns (Machine.initial (boot b)) tr C)
    (hledger : ledger x tr = some l) : TokensKept x l C.state := by
  have hbooted := (boot_eq b).2
  have hI := hbooted.inv ordinary
  have hbalanced : CountsAgree C.state ∧
      ∀ l, ledger x tr = some l → l.Balanced (semView C.state x) := by
    refine kernel_observe
      (P := fun tr s => CountsAgree s ∧ ∀ l, ledger x tr = some l → l.Balanced (semView s x))
      countedRuns_admits hI ⟨hbooted.countsAgree, fun l hl => by contradiction⟩ ?_ hrun
    rintro tr seg ⟨hagree, hbal⟩ hbefore _ hseg hwho hok
    have hperm := countedRuns_admits.permitted _ _ _ hbefore hok
    refine ⟨hseg.agrees hbefore.kernelOk hperm hok.2 hagree, fun l' hl' => ?_⟩
    rw [ledger_snoc] at hl'
    obtain ⟨count, hcall, hnew, rfl⟩ | ⟨l, hl, rfl, huses⟩ := next_eq hl'
    · exact balanced_created hseg hagree hcall hnew
    · exact balanced_record hbefore hseg hagree hwho hok.2 huses (hbal l hl)
  obtain ⟨hagree, hbal⟩ := hbalanced
  have h := hbal l hledger
  refine ⟨h.conserved, ?_⟩
  rw [← queue_semView (usable_of_balanced h).1]
  exact h.queue

/-- A history and the configuration it leads to. -/
abbrev Replayed := List (Segment Kernel KCall) × Config Kernel KCall

/-- Process 1 takes the only token and waits for another, process 2 waits, process 1 is
killed, and a signal lets process 2 go on. -/
def tokenScript : List (Option KCall) :=
  [some (.create 400 20), some (.resume 1), some (.semcreate 1), some (.wait 0), some (.wait 0),
    none, some (.create 400 15), some (.resume 2), some (.wait 0), none, some (.kill 1),
    some (.signal 0), none]

theorem tokens_after_kill :
    ∃ tr C l, kernelMachine.Run CountedRuns (Machine.initial (boot smallBoard)) tr C ∧
      ledger 0 tr = some l ∧ l.issued = 3 ∧ l.withdrawn = 1 ∧ l.allowed = [0, 2] ∧
      TokensKept 0 l C.state := by
  have hreplay : (kernelMachine.replay CountedRuns tokenScript []
      (Machine.initial (boot smallBoard))).map (fun r : Replayed => decide (∃ l ∈ ledger 0 r.1,
        l.issued = 3 ∧ l.withdrawn = 1 ∧ l.allowed = [0, 2])) = some true := by
    decide +kernel
  obtain ⟨⟨tr, C⟩, hr, hl⟩ := Option.map_eq_some_iff.mp hreplay
  obtain ⟨l, hledger, hissued, hwithdrawn, hallowed⟩ := of_decide_eq_true hl
  have hrun := kernelMachine.replay_run .start hr
  exact ⟨tr, C, l, hrun, hledger, hissued, hwithdrawn, hallowed, tokens_of_run hrun hledger⟩

/-- A semaphore is created with the largest count and signaled twice; then process 1 waits. -/
def overflowScript : List (Option KCall) :=
  [some (.create 400 20), some (.resume 1), some (.semcreate 0x7fffffff), some (.signal 0),
    some (.signal 0), some (.wait 0)]

/-- With more than two billion tokens, the first call of `wait` blocks. -/
theorem overflow_loses_tokens :
    ∃ tr C l, kernelMachine.Run NullRuns (Machine.initial (boot smallBoard)) tr C ∧
      ledger 0 tr = some l ∧ l.initial + l.signaled = 0x80000001 ∧ l.issued = 1 ∧
      l.withdrawn = 0 ∧ l.allowed = [] ∧ C.state.state 1 = .prWait ∧ ¬ l.Conserved := by
  have hreplay : (kernelMachine.replay NullRuns overflowScript []
      (Machine.initial (boot smallBoard))).map (fun r : Replayed => decide (∃ l ∈ ledger 0 r.1,
        l.initial + l.signaled = 0x80000001 ∧ l.issued = 1 ∧ l.withdrawn = 0 ∧ l.allowed = [] ∧
        r.2.state.state 1 = .prWait)) = some true := by
    decide +kernel
  obtain ⟨⟨tr, C⟩, hr, hl⟩ := Option.map_eq_some_iff.mp hreplay
  obtain ⟨l, hledger, hbound, hissued, hwithdrawn, hallowed, hwaits⟩ := of_decide_eq_true hl
  have hrun := kernelMachine.replay_run .start hr
  refine ⟨tr, C, l, hrun, hledger, hbound, hissued, hwithdrawn, hallowed, hwaits, fun h => ?_⟩
  have hexact := h.exact
  rw [hbound, hissued, hwithdrawn, hallowed] at hexact
  simp at hexact

end Xinu
