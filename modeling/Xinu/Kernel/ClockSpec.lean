import Xinu.Kernel.SchedulerSpec
import Xinu.Kernel.Clock

/-!
# What sleeping and the clock do

The sleep queue is a delta list: the procedures here change keys of sleeping
processes as well as links, and the ready list is not affected by either.

Main results:

- Theorems `unsleep_run` and `sleepms_run`: leaving and joining the sleep queue.
- Theorem `wakeup_run`: the processes whose delay is over become ready.
- Theorems `clkhandlerQemu_run` and `tickBbb_run`: the clock interrupts.
-/

namespace Xinu

open Foundations Function

section Keys

variable {o : Assumed} {hole : Option Int} {s : Kernel} {i v : Int}

/-- The key of a process that is not on the ready list may change. -/
theorem Consistent.rekey (h : Consistent o hole s) (hi : IsPid i)
    (hne : i ∉ members s.queuetab s.readylist) :
    Consistent o hole { s with queuetab := s.queuetab.setQkey i v } := by
  have hkey : ∀ p ∈ members s.queuetab s.readylist,
      (s.queuetab.setQkey i v).qkey p = s.queuetab.qkey p := by
    intro p hp
    have hpi : p ≠ i := fun heq => hne (heq ▸ hp)
    rw [qkey_setQkey, if_neg hpi]
  constructor
  · exact h.queues.setQkey hi
  · exact h.ids.congr rfl rfl rfl rfl
  · intro p hp
    refine ⟨(h.loose p hp).1, ?_⟩
    intro q hq hmem
    rw [members_setQkey] at hmem
    exact (h.loose p hp).2 q hq hmem
  · intro q p hq hp
    rw [members_setQkey] at hp
    exact h.home q p hq hp
  · intro p hp hpid hst
    rw [members_setQkey]
    exact h.ready_mem p hp hpid hst
  · intro p hp hpid hst
    rw [members_setQkey]
    exact h.sleep_mem p hp hpid hst
  · intro hw p hp hpid hst
    obtain ⟨hsem, hmem⟩ := h.wait_mem hw p hp hpid hst
    refine ⟨hsem, ?_⟩
    rw [members_setQkey]
    exact hmem
  · intro x p hx hp
    rw [members_setQkey] at hp
    exact h.prsem x p hx hp
  · rw [members_setQkey]
    refine h.sorted.imp_of_mem ?_
    intro a b ha hb hab
    rw [hkey a ha, hkey b hb]
    exact hab
  · intro hk p hp
    rw [members_setQkey] at hp
    exact (hkey p hp).trans (h.keys hk p hp)
  · exact h.curr
  · exact h.pid
  · exact h.null
  · exact h.heap
  · exact h.stack

theorem semView_rekey : semView { s with queuetab := s.queuetab.setQkey i v } = semView s :=
  semView_congr rfl fun _ _ => members_setQkey _ _ _ _

/-- The key of a sleeping process may change. -/
theorem KernelOk.rekeySleep (h : KernelOk o s) (hi : i ∈ members s.queuetab s.sleepq) :
    KernelOk o { s with queuetab := s.queuetab.setQkey i v } := by
  have hready : i ∉ members s.queuetab s.readylist := fun hmem =>
    h.consistent.ids.ready_ne_sleep
      (h.consistent.queues.disjoint _ _ i h.consistent.ids.ready h.consistent.ids.sleep hmem hi)
  exact ⟨h.consistent.rekey (h.consistent.isPid hi) hready, h.counts, h.ndefers, h.running, h.top⟩

/-- Changing one key acts on the alarms and on nothing else. -/
theorem Frame.rekey {zs : List (AlarmEvent Int)}
    (hz : alarmList { s with queuetab := s.queuetab.setQkey i v } =
      AlarmEvent.applyAll i32 (alarmList s) zs) :
    Frame [] zs s { s with queuetab := s.queuetab.setQkey i v } := by
  refine ⟨semView_rekey, rfl, rfl, rfl, rfl, ?_, hz, fun _ hp hcur => ⟨hp, hcur⟩,
    fun _ hp => Or.inr hp, fun _ hp => hp, ?_⟩
  · exact fun q _ _ => members_setQkey _ _ _ q
  · intro p hp
    refine ⟨hp.1, fun x hx => ?_⟩
    show p ∉ members (s.queuetab.setQkey i v) (s.squeue x)
    rw [members_setQkey]
    exact hp.2 x hx

end Keys

section Runs

variable {o : Assumed} {s : Kernel} {p : Int}

/-! ## Leaving the sleep queue -/

/-- The node after a process of a queue is a process of the same queue or its tail. -/
theorem QueuesOk.qnext_mem {t : QueueTab} {n q : Int} (h : QueuesOk t n) (hq : IsQid n q)
    (hp : p ∈ members t q) : t.qnext p ∈ members t q ∨ t.qnext p = queuetail q := by
  obtain ⟨l, m, hsplit⟩ := List.append_of_mem hp
  have hpath := h.linked q hq
  unfold Linked at hpath
  rw [hsplit] at hpath
  have hnext := (path_append.mp hpath).2.next_eq
  rw [hnext, hsplit]
  cases m with
  | nil => exact Or.inr rfl
  | cons x m => simp

/-- `unsleep` of a process that does not sleep. -/
theorem unsleep_bad (hst : s.state p ≠ .prSleep ∧ s.state p ≠ .prRectim) :
    unsleep p s = .done syserr s := by
  by_cases hbad : isbadpid s p
  · simp [unsleep, hbad]
  · simp [unsleep, hbad, hst.1, hst.2]

/-- The alarms after a process was taken from the sleep queue. -/
theorem map_erase_eq_cancel {t t' : QueueTab} {l : List Int} (hnd : l.Nodup) (hp : p ∈ l)
    (hkey : ∀ i ∈ l, t'.qkey i = t.qkey i ∨ i = t.qnext p)
    (hnext : ∀ a x b, l = a ++ p :: x :: b →
      t.qnext p = x ∧ t'.qkey x = i32 (t.qkey x + t.qkey p))
    (hlast : ∀ a, l = a ++ [p] → t.qnext p ∉ l) :
    (l.erase p).map (fun i => (i, t'.qkey i)) =
      Alarms.cancel i32 p (l.map fun i => (i, t.qkey i)) := by
  obtain ⟨a, b, rfl⟩ := List.append_of_mem hp
  obtain ⟨hpab, hab⟩ := List.nodup_cons.mp (List.nodup_middle.mp hnd)
  have hpa : p ∉ a := fun hmem => hpab (List.mem_append_left b hmem)
  have hmap : p ∉ (a.map fun i => (i, t.qkey i)).map Prod.fst := by
    rw [List.map_map]
    simpa using hpa
  rw [List.erase_append_right _ hpa, List.erase_cons_head, List.map_append, List.map_append,
    List.map_cons, cancel_append hmap]
  have hsame : ∀ i ∈ a ++ p :: b, i ≠ t.qnext p → t'.qkey i = t.qkey i := fun i hi hne =>
    (hkey i hi).resolve_right hne
  cases b with
  | nil =>
      have hout := hlast a rfl
      congr 1
      apply List.map_congr_left
      intro i hi
      rw [hsame i (by simp [hi])]
      rintro rfl
      exact hout (by simp [hi])
  | cons x b =>
      obtain ⟨hx, hxkey⟩ := hnext a x b rfl
      obtain ⟨-, hxb, hdis⟩ := List.nodup_append.mp hab
      have hxb' := (List.nodup_cons.mp hxb).1
      congr 1
      · apply List.map_congr_left
        intro i hi
        rw [hsame i (by simp [hi])]
        rw [hx]
        exact hdis i hi x (by simp)
      · rw [List.map_cons, List.map_cons, Alarms.postpone, hxkey]
        congr 1
        apply List.map_congr_left
        intro i hi
        rw [hsame i (by simp [hi])]
        rintro rfl
        exact hxb' (hx ▸ hi)

/-- `unsleep` takes a process from its queue and passes its delay to the next one. -/
theorem QueuesOk.unsleep_run {n q : Int} (h : QueuesOk s.queuetab n) (hq : IsQid n q)
    (hp : p ∈ members s.queuetab q) (hst : s.state p = .prSleep ∨ s.state p = .prRectim) :
    ∃ t', unsleep p s = .done ok { s with queuetab := t' } ∧
      QueueUpdate s.queuetab t' n q ((members s.queuetab q).erase p) ∧ Unlinked t' n p ∧
      (members t' q).map (fun i => (i, t'.qkey i)) =
        Alarms.cancel i32 p ((members s.queuetab q).map fun i => (i, s.queuetab.qkey i)) ∧
      ∀ i, i ∉ members s.queuetab q → t'.qkey i = s.queuetab.qkey i := by
  have hpid : IsPid p := isPid_of_mem_members hp
  have hbad : ¬ isbadpid s p :=
    not_isbadpid hpid (by rcases hst with hst | hst <;> rw [hst] <;> decide)
  have hasleep : ¬ (s.state p ≠ .prSleep ∧ s.state p ≠ .prRectim) := by
    rintro ⟨h₁, h₂⟩
    exact hst.elim h₁ h₂
  have hnextmem : s.queuetab.qnext p < nproc → s.queuetab.qnext p ∈ members s.queuetab q := by
    intro hnext
    apply (h.qnext_mem hq hp).resolve_right
    intro heq
    rw [heq] at hnext
    have hge := hq.1
    unfold queuetail at hnext
    omega
  -- the table after the delay of the next process is adjusted
  obtain ⟨t₁, ht₁⟩ : ∃ t₁, (if s.queuetab.qnext p < nproc then
      s.queuetab.setQkey (s.queuetab.qnext p)
        (i32 (s.queuetab.qkey (s.queuetab.qnext p) + s.queuetab.qkey p))
      else s.queuetab) = t₁ := ⟨_, rfl⟩
  have hrekeyed : QueuesOk t₁ n ∧ (∀ q', members t₁ q' = members s.queuetab q') ∧
      ∀ i, i ∉ members s.queuetab q → t₁.qkey i = s.queuetab.qkey i := by
    by_cases hnext : s.queuetab.qnext p < nproc
    · rw [if_pos hnext] at ht₁
      rw [← ht₁]
      refine ⟨h.setQkey (isPid_of_mem_members (hnextmem hnext)), fun q' => members_setQkey _ _ _ q', ?_⟩
      intro i hi
      rw [qkey_setQkey, if_neg]
      rintro rfl
      exact hi (hnextmem hnext)
    · rw [if_neg hnext] at ht₁
      rw [← ht₁]
      exact ⟨h, fun _ => rfl, fun _ _ => rfl⟩
  obtain ⟨hok, hmems, hout⟩ := hrekeyed
  have hp₁ : p ∈ members t₁ q := by
    rw [hmems]
    exact hp
  obtain ⟨t', hget, hupd, hun, hkey⟩ := getitem_run (s := { s with queuetab := t₁ }) hok hq hp₁
  have hself : members t' q = (members s.queuetab q).erase p := by
    rw [hupd.self]
    show (members t₁ q).erase p = _
    rw [hmems]
  have hupd' : QueueUpdate s.queuetab t' n q ((members s.queuetab q).erase p) :=
    ⟨hupd.ok, hself, fun q' hq' hne => (hupd.other q' hq' hne).trans (hmems q')⟩
  refine ⟨t', ?_, hupd', hun, ?_, ?_⟩
  · by_cases hnext : s.queuetab.qnext p < nproc
    · rw [if_pos hnext] at ht₁
      simp [unsleep, hbad, hasleep, hnext, ht₁, hget]
    · rw [if_neg hnext] at ht₁
      subst ht₁
      simp [unsleep, hbad, hasleep, hnext, hget]
  · rw [hself]
    have hpath := h.linked _ hq
    unfold Linked at hpath
    have hkey' : ∀ i, t'.qkey i = t₁.qkey i := hkey
    apply map_erase_eq_cancel (h.nodup _ hq) hp
    · intro i _
      rw [hkey', ← ht₁]
      split
      · rw [qkey_setQkey]
        split
        · next heq => exact Or.inr heq
        · exact Or.inl rfl
      · exact Or.inl rfl
    · intro a x b heq
      rw [heq] at hpath
      have hnext : s.queuetab.qnext p = x := (path_append.mp hpath).2.next_eq
      have hx : x ∈ members s.queuetab q := by rw [heq]; simp
      have hlt : s.queuetab.qnext p < nproc := by
        rw [hnext]
        exact (isPid_of_mem_members hx).2
      refine ⟨hnext, ?_⟩
      rw [hkey', ← ht₁, if_pos hlt, hnext, qkey_setQkey, if_pos rfl]
    · intro a heq hin
      have hpath' := hpath
      rw [heq] at hpath'
      have hnext : s.queuetab.qnext p = queuetail q := (path_append.mp hpath').2.next_eq
      rw [hnext] at hin
      exact hq.tail_not_isPid (isPid_of_mem_members hin)
  · exact fun i hi => (hkey i).trans (hout i hi)

/-- `unsleep` takes a sleeping process from the sleep queue. -/
theorem unsleep_run (h : Consistent o none s) (hp : IsPid p)
    (hst : s.state p = .prSleep ∨ s.state p = .prRectim) :
    ∃ t', unsleep p s = .done ok { s with queuetab := t' } ∧
      Consistent o (some p) { s with queuetab := t' } ∧
      Frame [] [.cancel p] s { s with queuetab := t' } := by
  have hmem : p ∈ members s.queuetab s.sleepq := h.sleep_iff.mpr ⟨hp, hst⟩
  obtain ⟨t', hrun, hupd, hun, halarms, hkey⟩ := h.queues.unsleep_run h.ids.sleep hmem hst
  refine ⟨t', hrun, ?_, semView_of_update h.ids rfl rfl hupd (Or.inr rfl), ?_⟩
  · apply h.unlink hmem hupd hun
    intro i hi
    apply hkey
    exact fun hin => h.ids.ready_ne_sleep (h.queues.disjoint _ _ _ h.ids.ready h.ids.sleep hi hin)
  · refine ⟨rfl, rfl, rfl, rfl, ?_, halarms, fun _ hp hcur => ⟨hp, hcur⟩, fun _ hp => Or.inr hp,
      fun _ hp => hp, ?_⟩
    · intro q hq hsys
      apply hupd.other q hq
      rintro rfl
      exact hsys (Or.inr (Or.inl rfl))
    · intro r hr
      refine ⟨hr.1, fun x hx => ?_⟩
      show r ∉ members t' (s.squeue x)
      rw [hupd.other _ (h.ids.sem x hx) (h.ids.sem_ne x hx).2]
      exact hr.2 x hx

/-! ## Joining the sleep queue -/

/-- An insertion by delay changes keys of its own queue only. -/
theorem insertdKey_of_not_mem {t : QueueTab} {q key i : Int} (hip : i ≠ p)
    (hi : i ∉ members t q) : insertdKey t q key p i = t.qkey i := by
  unfold insertdKey
  simp only
  rw [if_neg hip, if_neg]
  rintro ⟨heq, hne⟩
  refine hi ?_
  have hsplit := deltaSplit_append t key (members t q)
  cases hm : (deltaSplit t key (members t q)).2.2 with
  | nil => exact (hne hm).elim
  | cons x m =>
      rw [hm] at heq hsplit
      rw [← hsplit, heq]
      simp

theorem mem_insertdList {t : QueueTab} {q key r : Int} :
    r ∈ insertdList t q key p ↔ r = p ∨ r ∈ members t q := by
  have hmem : r ∈ members t q ↔ r ∈ (deltaSplit t key (members t q)).2.1 ∨
      r ∈ (deltaSplit t key (members t q)).2.2 := by
    rw [← List.mem_append, deltaSplit_append]
  unfold insertdList
  simp only [List.mem_append, List.mem_cons]
  rw [hmem]
  exact or_left_comm

/-- The alarms after an insertion, from the scan of `insertd`. -/
theorem set_eq_deltaSplit (t : QueueTab) (key p : Int) (l : List Int) :
    Alarms.set i32 p key (l.map fun i => (i, t.qkey i)) =
      (deltaSplit t key l).2.1.map (fun i => (i, t.qkey i)) ++ (p, (deltaSplit t key l).1) ::
        match (deltaSplit t key l).2.2 with
        | [] => []
        | x :: m => (x, i32 (t.qkey x - (deltaSplit t key l).1)) :: m.map fun i => (i, t.qkey i) := by
  induction l generalizing key with
  | nil => rfl
  | cons x l ih =>
      by_cases hle : t.qkey x ≤ key
      · simp only [List.map_cons, Alarms.set, if_pos hle, deltaSplit, ih]
        rfl
      · simp [Alarms.set, hle, deltaSplit]

/-- The alarms after `insertd`. -/
theorem map_insertdList {t t' : QueueTab} {q key : Int} (hnd : (members t q).Nodup)
    (hp : p ∉ members t q) (htail : queuetail q ∉ members t q)
    (hkey : ∀ i, t'.qkey i = insertdKey t q key p i) :
    (insertdList t q key p).map (fun i => (i, t'.qkey i)) =
      Alarms.set i32 p key ((members t q).map fun i => (i, t.qkey i)) := by
  have hsplit := deltaSplit_append t key (members t q)
  rw [set_eq_deltaSplit]
  unfold insertdList
  unfold insertdKey at hkey
  obtain ⟨left, a, b, hr⟩ : ∃ left a b, deltaSplit t key (members t q) = (left, a, b) :=
    ⟨_, _, _, rfl⟩
  simp only [hr] at hsplit hkey ⊢
  rw [← hsplit] at hnd hp htail
  have hpa : ∀ i ∈ a ++ b, i ≠ p := fun i hi heq => hp (heq ▸ hi)
  obtain ⟨-, hb, hdis⟩ := List.nodup_append.mp hnd
  have hpkey : t'.qkey p = left := by rw [hkey, if_pos rfl]
  rw [List.map_append, List.map_cons, hpkey]
  cases b with
  | nil =>
      congr 1
      apply List.map_congr_left
      intro i hi
      rw [hkey, if_neg (hpa i (by simp [hi])), if_neg (by simp)]
  | cons x m =>
      have hxm := (List.nodup_cons.mp hb).1
      have hxkey : t'.qkey x = i32 (t.qkey x - left) := by
        rw [hkey, if_neg (hpa x (by simp)), if_pos (by simp)]
      have hother : ∀ i ∈ a ++ x :: m, i ≠ x → t'.qkey i = t.qkey i := by
        intro i hi hne
        rw [hkey, if_neg (hpa i hi), if_neg]
        exact fun hand => hne hand.1
      congr 1
      · apply List.map_congr_left
        intro i hi
        rw [hother i (by simp [hi]) (hdis i hi x (by simp))]
      · rw [List.map_cons, hxkey]
        congr 2
        apply List.map_congr_left
        intro i hi
        rw [hother i (by simp [hi])]
        rintro rfl
        exact hxm hi

/-- The running process goes to sleep. -/
theorem insertSleep (h : Consistent o none s) (hcur : s.state s.currpid = .prCurr)
    (hnull : s.currpid ≠ nullproc) {st : PrState} (hst : st = .prSleep ∨ st = .prRectim)
    (key : Int) :
    ∃ t', insertd s.currpid s.sleepq key s = .done ok { s with queuetab := t' } ∧
      Consistent o none ({ s with queuetab := t' }.setState s.currpid st) ∧
        Frame [] [.set s.currpid key] s ({ s with queuetab := t' }.setState s.currpid st) := by
  have hq := h.ids.sleep
  have hun := h.unlinked (p := s.currpid) (by rw [hcur]; decide)
  have hbad : ¬ isbadpid s s.currpid := not_isbadpid h.pid (by rw [hcur]; decide)
  obtain ⟨t', hrun, hupd, hkey⟩ :
      ∃ t', insertd s.currpid s.sleepq key s = .done ok { s with queuetab := t' } ∧ _ :=
    insertd_run h.queues hq hbad hun
  have hready : members t' s.readylist = members s.queuetab s.readylist :=
    hupd.other _ h.ids.ready h.ids.ready_ne_sleep
  have hsame : ∀ r ∈ members s.queuetab s.readylist,
      r ≠ s.currpid ∧ t'.qkey r = s.queuetab.qkey r := by
    intro r hr
    have hrp : r ≠ s.currpid := fun heq => hun _ h.ids.ready (heq ▸ hr)
    have hrs : r ∉ members s.queuetab s.sleepq := fun hin =>
      h.ids.ready_ne_sleep (h.queues.disjoint _ _ r h.ids.ready hq hr hin)
    exact ⟨hrp, (hkey r).trans (insertdKey_of_not_mem hrp hrs)⟩
  refine ⟨t', hrun, ?_, ?_, ?_⟩
  · refine (h.openLoose h.pid hun).link (e := { s.proctab s.currpid with prstate := st }) hupd
      (fun r => mem_insertdList)
      (Or.inr (Or.inl ⟨hst, rfl⟩)) ?_ (fun x hx heq => ((h.ids.sem_ne x hx).2 heq.symm).elim)
      ⟨rfl, rfl⟩ (fun heq => (hnull heq).elim) ?_ ?_
    · intro _ hwait
      have hwait' : st = .prWait := hwait
      rcases hst with hst | hst <;> rw [hst] at hwait' <;> contradiction
    · rw [hready]
      refine h.sorted.imp_of_mem ?_
      intro a b ha hb hab
      rw [(hsame a ha).2, (hsame b hb).2]
      exact hab
    · intro hk r hr
      rw [hready] at hr
      rw [(hsame r hr).2, if_neg (hsame r hr).1]
      exact h.keys hk r hr
  · exact semView_of_update h.ids rfl rfl hupd (Or.inr rfl)
  · refine .of_update h.ids hupd (Or.inr (Or.inl rfl)) rfl rfl rfl rfl rfl ?_ ?_ ?_ ?_
    · show (members t' s.sleepq).map (fun i => (i, t'.qkey i)) = _
      rw [hupd.self]
      refine map_insertdList (h.queues.nodup _ hq) (hun _ hq) ?_ hkey
      exact fun hmem => hq.tail_not_isPid (h.isPid hmem)
    · intro r _ hne
      refine ⟨(state_setState _ _ _ _).trans ?_, hne⟩
      rw [if_neg (Ne.symm hne)]
      rfl
    · exact fun r hr => (hasMessage_setState _ _ r st).mpr hr
    · intro r hr
      have hrc : r ≠ s.currpid := by
        rintro rfl
        rw [hr.1] at hcur
        contradiction
      refine ⟨(state_setState _ _ _ _).trans (by rw [if_neg hrc]; exact hr.1), ?_⟩
      exact fun x hx heq => ((h.ids.sem_ne x hx).2 heq.symm).elim

/-- `resched`, called where the queues are as they should be. -/
theorem reschedAfter {s' : Kernel} {evs : List (SemEvent Int)} {zs : List (AlarmEvent Int)}
    (h : KernelOk o s) (hcons : Consistent o none s') (htab : s'.semtab = s.semtab)
    (hdefer : s'.defer = s.defer) (hframe : Frame evs zs s s') :
    ∃ s₁, Flow.Lands (resched s') () s₁ ∧ KernelOk o s₁ ∧ Frame evs zs s s₁ ∧
      s₁.defer.ndefers = s.defer.ndefers ∧ ∀ r, Turn s' s₁ r := by
  have hc : CountsOk s' := fun x => by
    unfold Kernel.count
    rw [htab]
    exact h.counts x
  obtain ⟨s₁, hres, hok, hframe', hnd⟩ := resched_run hcons hc (by rw [hdefer]; exact h.ndefers)
  have hall := hframe.trans hframe'
  rw [List.append_nil, List.append_nil] at hall
  exact ⟨s₁, hres.lands, hok, hall, by rw [hnd, hdefer], hres.turn⟩

theorem yield_run (h : KernelOk o s) :
    ∃ s₁, Flow.Lands (yield s) ok s₁ ∧ KernelOk o s₁ ∧ Frame [] [] s s₁ ∧
      s₁.defer.ndefers = s.defer.ndefers := by
  obtain ⟨s₁, hlands, hok, hframe, hnd, -⟩ := reschedAfter h h.consistent rfl rfl (.refl s)
  exact ⟨s₁, hlands.bind_pure fun _ => rfl, hok, hframe, hnd⟩

/-- The alarm events of `sleepms`. -/
def sleepAlarms (s : Kernel) (delay : Nat) : List (AlarmEvent Int) :=
  if delay = 0 then [] else [.set s.currpid (i32 delay)]

/-- `sleepms` keeps the invariant, if a caller that it blocks may be blocked. -/
theorem sleepms_run {delay : Nat} (h : KernelOk o s)
    (hblock : delay ≠ 0 → s.state s.currpid = .prCurr ∧ s.currpid ≠ nullproc) :
    ∃ s₁, Flow.Lands (sleepms delay s) ok s₁ ∧ KernelOk o s₁ ∧
      Frame [] (sleepAlarms s delay) s s₁ ∧ s₁.defer.ndefers = s.defer.ndefers := by
  unfold sleepAlarms
  by_cases hzero : delay = 0
  · have hrun : sleepms delay s = (yield s).bind fun _ => pure ok := by simp [sleepms, hzero]
    obtain ⟨s₁, hlands, hrest⟩ := yield_run h
    rw [hrun, if_pos hzero]
    exact ⟨s₁, hlands.bind_pure fun _ => rfl, hrest⟩
  · obtain ⟨hcur, hnull⟩ := hblock hzero
    obtain ⟨t', hins, hcons, hframe⟩ :=
      insertSleep h.consistent hcur hnull (Or.inl rfl) (i32 delay)
    obtain ⟨s₁, hlands, hok, hframe₁, hnd, -⟩ := reschedAfter h hcons rfl rfl hframe
    rw [if_neg hzero]
    refine ⟨s₁, ?_, hok, hframe₁, hnd⟩
    have hrun : sleepms delay s =
        (resched ({ s with queuetab := t' }.setState s.currpid .prSleep)).bind
          fun _ => pure ok := by
      have hne : ok ≠ syserr := by decide
      simp [sleepms, hzero, hins, hne]
    rw [hrun]
    exact hlands.bind_pure fun _ => rfl

/-! ## Waking up -/

/-- Processes may have been woken; no state changed otherwise. -/
def Woken (s s' : Kernel) : Prop :=
  ∀ r, s'.state r = s.state r ∨ Active (s'.state r)

theorem Woken.trans {s' s'' : Kernel} (h : Woken s s') (h' : Woken s' s'') : Woken s s'' := by
  intro r
  rcases h' r with heq | hactive
  · rw [heq]
    exact h r
  · exact Or.inr hactive

theorem Woken.refl (s : Kernel) : Woken s s :=
  fun _ => Or.inl rfl

theorem Turn.woken {s' : Kernel} (h : ∀ r, Turn s s' r) : Woken s s' :=
  fun r => (h r).imp id fun hactive => hactive.2

/-- The loop of `wakeup`, while rescheduling is deferred. -/
theorem wakeupLoop_run (fuel : Nat) (h : KernelOk o s) (hn : 0 < s.defer.ndefers)
    (hfuel : (members s.queuetab s.sleepq).length < fuel) :
    ∃ s₁, wakeupLoop fuel s = .done () s₁ ∧ KernelOk o s₁ ∧ Frame [] [.expire] s s₁ ∧
      s₁.defer.ndefers = s.defer.ndefers ∧ Woken s s₁ := by
  induction fuel generalizing s with
  | zero => simp at hfuel
  | succ fuel ih =>
      have hcons := h.consistent
      have hfirst := firstid_eq hcons.queues hcons.ids.sleep
      by_cases hdue : nonempty s.queuetab s.sleepq ∧ firstkey s.queuetab s.sleepq ≤ 0
      · obtain ⟨p, m, hm⟩ : ∃ p m, members s.queuetab s.sleepq = p :: m :=
          List.exists_cons_of_ne_nil ((nonempty_iff hcons.queues hcons.ids.sleep).mp hdue.1)
        have hp : p ∈ members s.queuetab s.sleepq := by rw [hm]; simp
        have herase : (members s.queuetab s.sleepq).erase p = m := by
          rw [hm, List.erase_cons_head]
        obtain ⟨t', hdeq, hupd, hun, hkey⟩ := dequeue_run_cons hcons.queues hcons.ids.sleep hm
        have hopen : Consistent o (some p) { s with queuetab := t' } :=
          hcons.unlink hp (herase.symm ▸ hupd) hun fun i _ => hkey i
        have hasleep : s.state p = .prSleep ∨ s.state p = .prRectim := (hcons.sleep_iff.mp hp).2
        have hlive : s.state p ≠ .prFree ∧ s.state p ≠ .prWait ∧ s.state p ≠ .prRecv := by
          rcases hasleep with hst | hst <;> rw [hst] <;> decide
        obtain ⟨s₂, hready, hok₂, hframe₂, hnd₂, -, -, hstate₂⟩ :=
          ready_run_deferred hopen hlive.1 hlive.2.1 (fun hst => (hlive.2.2 hst).elim) h.counts hn
        -- the first alarm is due and goes off
        have halarms : alarmList { s with queuetab := t' } = m.map fun i => (i, s.queuetab.qkey i) := by
          unfold alarmList
          rw [hupd.self]
          apply List.map_congr_left
          intro i _
          rw [hkey]
        have hkeyp : s.queuetab.qkey p ≤ 0 := by
          have hle := hdue.2
          unfold firstkey at hle
          rwa [hfirst, hm] at hle
        have hexpire : (alarmList s).expire = (alarmList { s with queuetab := t' }).expire := by
          rw [halarms]
          unfold alarmList
          rw [hm, List.map_cons, expire_cons_due hkeyp]
        have halarms₂ := hframe₂.tame.alarms
        rw [AlarmEvent.applyAll_nil] at halarms₂
        have hlen : (members s₂.queuetab s₂.sleepq).length < fuel := by
          have hmap : (alarmList s₂).length = m.length := by
            rw [halarms₂, halarms, List.length_map]
          unfold alarmList at hmap
          rw [List.length_map] at hmap
          rw [hm] at hfuel
          rw [hmap]
          simpa using hfuel
        obtain ⟨s₁, hrun, hok, hframe, hnd, hwoken⟩ := ih hok₂ (by rw [hnd₂]; exact hn) hlen
        have hwoken₂ : Woken s s₂ := by
          intro r
          rw [hstate₂]
          by_cases hr : r = p
          · rw [if_pos hr]
            exact Or.inr (Or.inr rfl)
          · rw [if_neg hr]
            exact Or.inl rfl
        have htame₁ : Tame [.expire] s₂ s₁ := hframe.tame
        have hrest : Frame [] [] { s with queuetab := t' } s₂ := hframe₂
        refine ⟨s₁, ?_, hok, ⟨?_, ?_⟩, hnd.trans hnd₂, hwoken₂.trans hwoken⟩
        · simp [wakeupLoop, hdue, hdeq, hready, hrun]
        · refine hframe.sems.trans (hframe₂.sems.trans ?_)
          exact semView_of_update hcons.ids rfl rfl hupd (Or.inr rfl)
        · have hpart := hrest.tame.trans htame₁
          refine ⟨hpart.nextqid, hpart.readylist, hpart.sleepq, hpart.squeue, ?_, ?_, hpart.free,
            hpart.receiving, hpart.message, ?_⟩
          rotate_right
          · intro r hr
            apply hpart.held r
            refine hr.of_update hcons.ids hupd rfl rfl hr.1 ?_
            exact fun x hx heq => ((hcons.ids.sem_ne x hx).2 heq.symm).elim
          · intro q hq hsys
            refine (hpart.others q hq hsys).trans (hupd.other q hq ?_)
            rintro rfl
            exact hsys (Or.inr (Or.inl rfl))
          · rw [hpart.alarms]
            exact hexpire.symm
      · refine ⟨s, by simp [wakeupLoop, hdue], h, ⟨rfl, ?_⟩, rfl, .refl s⟩
        refine ⟨rfl, rfl, rfl, rfl, fun _ _ _ => rfl, ?_, fun _ hp hne => ⟨hp, hne⟩,
          fun _ hp => Or.inr hp, fun _ hp => hp, fun _ hp => hp⟩
        -- no alarm is due
        show alarmList s = (alarmList s).expire
        unfold alarmList
        cases hm : members s.queuetab s.sleepq with
        | nil => rfl
        | cons p m =>
            have hne : nonempty s.queuetab s.sleepq := by
              rw [nonempty_iff hcons.queues hcons.ids.sleep, hm]
              simp
            have hkeyp : ¬ s.queuetab.qkey p ≤ 0 := by
              intro hle
              refine hdue ⟨hne, ?_⟩
              unfold firstkey
              rw [hfirst, hm]
              exact hle
            rw [List.map_cons, expire_eq_self hkeyp]

/-- `wakeup` makes the processes ready whose delay is over. -/
theorem wakeup_run (h : KernelOk o s) (hmax : s.defer.ndefers + 1 < 0x80000000) :
    ∃ s₁, Flow.Lands (wakeup s) () s₁ ∧ KernelOk o s₁ ∧ Frame [] [.expire] s s₁ ∧
      s₁.defer.ndefers = s.defer.ndefers ∧ Woken s s₁ := by
  have hn := h.ndefers
  obtain ⟨s₁, hstart, hok₁, hframe₁, hnd₁, -, -⟩ := reschedCntl_start_run h hmax
  obtain ⟨s₂, hrun, hok₂, hframe₂, hnd₂, hwoken₂⟩ := wakeupLoop_run queueFuel hok₁ (by omega)
    (length_members_lt_queueFuel hok₁.consistent.queues hok₁.consistent.ids.sleep)
  obtain ⟨s₃, hstop, hok₃, hframe₃, hnd₃, hturn⟩ := reschedCntl_stop_run hok₂ (by omega)
  have hstate₁ := reschedCntl_start_state hstart
  refine ⟨s₃, ?_, hok₃, (hframe₁.trans hframe₂).trans hframe₃, by omega, ?_⟩
  · unfold wakeup
    simp only [Coop.run_bind, hstart, Flow.bind_done, hrun]
    exact hstop.bind_pure fun _ => rfl
  · have hwoken₁ : Woken s s₁ := fun r => Or.inl (hstate₁ r)
    exact (hwoken₁.trans hwoken₂).trans (Turn.woken hturn)

/-! ## The clock -/

/-- The invariant does not read the clock. -/
theorem KernelOk.setClock (h : KernelOk o s) (ticks time slice : Nat) :
    KernelOk o { s with clkticks := ticks, clktime := time, preempt := slice } := by
  refine ⟨h.consistent.congr ?_, h.counts, h.ndefers, h.running, h.top⟩
  exact ⟨rfl, rfl, rfl, rfl, rfl, rfl, fun _ => rfl, fun _ => rfl, fun _ => rfl, fun _ _ _ => rfl,
    fun _ => ⟨rfl, rfl⟩⟩

theorem Frame.setClock (s : Kernel) (ticks time slice : Nat) :
    Frame [] [] s { s with clkticks := ticks, clktime := time, preempt := slice } :=
  ⟨semView_congr rfl fun _ _ => rfl, .of_eq rfl rfl rfl rfl rfl rfl rfl fun _ h => h⟩

/-- The state in which the first delay is one less. -/
def ticked (s : Kernel) : Kernel :=
  { s with
    queuetab := s.queuetab.setQkey (firstid s.queuetab s.sleepq)
      (i32 (firstkey s.queuetab s.sleepq - 1)) }

theorem KernelOk.ticked (h : KernelOk o s) (hne : nonempty s.queuetab s.sleepq) :
    KernelOk o (ticked s) ∧ Frame [] [.tick] s (ticked s) := by
  have hcons := h.consistent
  have hfirst := firstid_eq hcons.queues hcons.ids.sleep
  obtain ⟨p, m, hm⟩ : ∃ p m, members s.queuetab s.sleepq = p :: m :=
    List.exists_cons_of_ne_nil ((nonempty_iff hcons.queues hcons.ids.sleep).mp hne)
  have hid : firstid s.queuetab s.sleepq = p := by
    rw [hfirst, hm]
    rfl
  have hmem : firstid s.queuetab s.sleepq ∈ members s.queuetab s.sleepq := by
    rw [hid, hm]
    simp
  refine ⟨h.rekeySleep hmem, .rekey ?_⟩
  have hnd := hcons.queues.nodup _ hcons.ids.sleep
  rw [hm] at hnd
  have hpm := (List.nodup_cons.mp hnd).1
  show (members (s.queuetab.setQkey _ _) s.sleepq).map _ = Alarms.tick i32 (alarmList s)
  unfold alarmList firstkey
  rw [members_setQkey, hid, hm, List.map_cons, List.map_cons, Alarms.tick]
  congr 1
  · simp
  · apply List.map_congr_left
    intro i hi
    have hip : i ≠ p := fun heq => hpm (heq ▸ hi)
    simp [hip]

/-- With no sleeper, a tick changes no alarm. -/
theorem Frame.quietTick {s' : Kernel} (h : Consistent o none s)
    (hne : ¬ nonempty s.queuetab s.sleepq) (hframe : Frame [] [] s s') :
    Frame [] [.tick, .expire] s s' := by
  refine ⟨hframe.sems, { hframe.tame with alarms := ?_ }⟩
  have hnil : members s.queuetab s.sleepq = [] := by
    by_contra hcons
    exact hne ((nonempty_iff h.queues h.ids.sleep).mpr hcons)
  rw [hframe.tame.alarms]
  unfold alarmList
  rw [hnil]
  rfl

/-- If the first delay is not over, no alarm goes off. -/
theorem expire_ticked (h : KernelOk o s) (hne : nonempty s.queuetab s.sleepq)
    (hlate : ¬ firstkey (ticked s).queuetab s.sleepq ≤ 0) :
    (alarmList (ticked s)).expire = alarmList (ticked s) := by
  have hcons := (h.ticked hne).1.consistent
  have hfirst : firstid (ticked s).queuetab s.sleepq =
      (members (ticked s).queuetab s.sleepq).headD (queuetail s.sleepq) :=
    firstid_eq hcons.queues hcons.ids.sleep
  show Alarms.expire ((members (ticked s).queuetab s.sleepq).map _) =
    (members (ticked s).queuetab s.sleepq).map _
  cases hm : members (ticked s).queuetab s.sleepq with
  | nil => rfl
  | cons p m =>
      unfold firstkey at hlate
      rw [hfirst, hm] at hlate
      rw [List.map_cons]
      exact expire_eq_self hlate

/-- Waking up, after the first delay was counted down. -/
theorem ticked_wakeup_run (h : KernelOk o s) (hne : nonempty s.queuetab s.sleepq)
    (hmax : s.defer.ndefers + 1 < 0x80000000) :
    ∃ s₁, Flow.Lands (wakeup (ticked s)) () s₁ ∧ KernelOk o s₁ ∧ Frame [] [.tick, .expire] s s₁ ∧
      s₁.defer.ndefers = s.defer.ndefers ∧ Woken s s₁ := by
  obtain ⟨hok, hframe⟩ := h.ticked hne
  obtain ⟨s₁, hlands, hok₁, hframe₁, hnd, hwoken⟩ := wakeup_run hok hmax
  exact ⟨s₁, hlands, hok₁, hframe.trans hframe₁, hnd, hwoken⟩

theorem tickFirst_eq (s : Kernel) : tickFirst s s = .done ⟨⟩ (ticked s) :=
  rfl

/-- What the handler of `arm-qemu` does once the time is counted. -/
def qemuTick : KernelM Unit := do
  let s ← get
  if nonempty s.queuetab s.sleepq then
    tickFirst s
    if firstkey (← get).queuetab s.sleepq ≤ 0 then
      wakeup
    else
      resched
  else
    resched

theorem clkhandlerQemu_eq (s : Kernel) :
    ∃ ticks time, clkhandlerQemu s = qemuTick { s with clkticks := ticks, clktime := time } := by
  by_cases hsec : s.clkticks + 1 = clkticksPerSec
  · refine ⟨0, Memory.u32 (s.clktime + 1), ?_⟩
    simp [clkhandlerQemu, qemuTick, hsec]
  · refine ⟨s.clkticks + 1, s.clktime, ?_⟩
    simp [clkhandlerQemu, qemuTick, hsec]

theorem qemuTick_run (h : KernelOk o s) (hmax : s.defer.ndefers + 1 < 0x80000000) :
    ∃ s₁, Flow.Lands (qemuTick s) () s₁ ∧ KernelOk o s₁ ∧ Frame [] [.tick, .expire] s s₁ ∧
      s₁.defer.ndefers = s.defer.ndefers ∧ Woken s s₁ := by
  by_cases hne : nonempty s.queuetab s.sleepq
  · obtain ⟨hok, hframe⟩ := h.ticked hne
    by_cases hdue : firstkey (ticked s).queuetab s.sleepq ≤ 0
    · have hrun : qemuTick s = wakeup (ticked s) := by simp [qemuTick, hne, tickFirst_eq, hdue]
      rw [hrun]
      exact ticked_wakeup_run h hne hmax
    · have hrun : qemuTick s = resched (ticked s) := by simp [qemuTick, hne, tickFirst_eq, hdue]
      have hearly : Frame [] [.tick, .expire] s (ticked s) := by
        refine ⟨hframe.sems, { hframe.tame with alarms := ?_ }⟩
        exact (expire_ticked h hne hdue).symm.trans (congrArg _ hframe.tame.alarms)
      obtain ⟨s₁, hlands, hok₁, hframe₁, hnd, hturn⟩ := reschedAfter h hok.consistent rfl rfl hearly
      rw [hrun]
      exact ⟨s₁, hlands, hok₁, hframe₁, hnd, Turn.woken hturn⟩
  · have hrun : qemuTick s = resched s := by simp [qemuTick, hne]
    obtain ⟨s₁, hlands, hok₁, hframe₁, hnd, hturn⟩ := reschedAfter h h.consistent rfl rfl (.refl s)
    rw [hrun]
    exact ⟨s₁, hlands, hok₁, .quietTick h.consistent hne hframe₁, hnd, Turn.woken hturn⟩

/-- The clock interrupt of `arm-qemu`. -/
theorem clkhandlerQemu_run (h : KernelOk o s) (hmax : s.defer.ndefers + 1 < 0x80000000) :
    ∃ s₁, Flow.Lands (clkhandlerQemu s) () s₁ ∧ KernelOk o s₁ ∧ Frame [] [.tick, .expire] s s₁ ∧
      s₁.defer.ndefers = s.defer.ndefers ∧ Woken s s₁ := by
  obtain ⟨ticks, time, hrun⟩ := clkhandlerQemu_eq s
  obtain ⟨s₁, hlands, hok, hframe, hnd, hwoken⟩ :=
    qemuTick_run (h.setClock ticks time s.preempt) hmax
  rw [hrun]
  exact ⟨s₁, hlands, hok, (Frame.setClock s ticks time s.preempt).trans hframe, hnd, hwoken⟩

/-- What the handler of `arm-bbb` does about sleepers once the time is counted. -/
def bbbTick : KernelM Unit := do
  let s ← get
  if ¬ isempty s.queuetab s.sleepq then
    tickFirst s
    if firstkey (← get).queuetab s.sleepq = 0 then
      wakeup

/-- What it does about the time slice after that. -/
def bbbSlice : KernelM Unit := do
  modify fun s => { s with preempt := decr s.preempt }
  if (← get).preempt = 0 then
    modify fun s => { s with preempt := quantum }
    resched

/-- The handler of `arm-bbb` may give the processor away twice. -/
theorem clkhandlerBbb_eq (s : Kernel) :
    ∃ ticks time, clkhandlerBbb s =
      (bbbTick { s with clkticks := ticks, clktime := time }).bind fun _ => bbbSlice := by
  have hrest : ∀ ticks time, ∀ s₀ : Kernel,
      s₀ = { s with clkticks := ticks, clktime := time } →
      (if isempty s₀.queuetab s₀.sleepq then bbbSlice s₀
        else if firstkey (ticked s₀).queuetab s₀.sleepq = 0 then
          (wakeup (ticked s₀)).bind fun _ => bbbSlice
        else bbbSlice (ticked s₀)) = (bbbTick s₀).bind fun _ => bbbSlice := by
    intro ticks time s₀ _
    by_cases hempty : isempty s₀.queuetab s₀.sleepq
    · simp [bbbTick, hempty]
    · by_cases hdue : firstkey (ticked s₀).queuetab s₀.sleepq = 0
      · simp [bbbTick, hempty, tickFirst_eq, hdue]
      · simp [bbbTick, hempty, tickFirst_eq, hdue]
  by_cases hsec : decr s.clkticks = 0
  · refine ⟨1000, Memory.u32 (s.clktime + 1), ?_⟩
    rw [← hrest _ _ _ rfl]
    simp [clkhandlerBbb, hsec, tickFirst_eq, bbbSlice]
  · refine ⟨decr s.clkticks, s.clktime, ?_⟩
    rw [← hrest _ _ _ rfl]
    simp [clkhandlerBbb, hsec, tickFirst_eq, bbbSlice]

/-- The alarm events of a clock interrupt; the handler of `arm-bbb` overlooks a
delay that became negative. -/
def tickAlarms (s : Kernel) : List (AlarmEvent Int) :=
  match s.platform with
  | .armQemu => [.tick, .expire]
  | .armBbb =>
      if firstkey (ticked s).queuetab s.sleepq = 0 then [.tick, .expire] else [.tick]

/-- With no sleeper, the events of the clock change nothing. -/
theorem tickAlarms_nil (s : Kernel) : AlarmEvent.applyAll i32 [] (tickAlarms s) = [] := by
  unfold tickAlarms
  cases s.platform with
  | armQemu => rfl
  | armBbb => dsimp only; split <;> rfl

/-- The clock interrupt of `arm-bbb`, before the time slice is counted. -/
theorem bbbTick_run (h : KernelOk o s) (hmax : s.defer.ndefers + 1 < 0x80000000)
    (hbbb : s.platform = .armBbb) :
    ∃ s₁, Flow.Lands (bbbTick s) () s₁ ∧ KernelOk o s₁ ∧ Frame [] (tickAlarms s) s s₁ ∧
      s₁.defer.ndefers = s.defer.ndefers ∧ Woken s s₁ := by
  by_cases hempty : isempty s.queuetab s.sleepq
  · have hrun : bbbTick s = .done () s := by simp [bbbTick, hempty]
    have hnil : alarmList s = [] := by
      unfold alarmList
      rw [(isempty_iff h.consistent.queues h.consistent.ids.sleep).mp hempty]
      rfl
    refine ⟨s, .done hrun, h, ⟨rfl, { Tame.refl s with alarms := ?_ }⟩, rfl, .refl s⟩
    rw [hnil, tickAlarms_nil]
  · have hne : nonempty s.queuetab s.sleepq := by
      unfold isempty at hempty
      unfold nonempty
      omega
    unfold tickAlarms
    rw [hbbb]
    by_cases hdue : firstkey (ticked s).queuetab s.sleepq = 0
    · have hrun : bbbTick s = wakeup (ticked s) := by
        simp [bbbTick, hempty, tickFirst_eq, hdue]
      dsimp only
      rw [hrun, if_pos hdue]
      exact ticked_wakeup_run h hne hmax
    · have hrun : bbbTick s = .done () (ticked s) := by
        simp [bbbTick, hempty, tickFirst_eq, hdue]
      obtain ⟨hok, hframe⟩ := h.ticked hne
      dsimp only
      rw [if_neg hdue]
      exact ⟨ticked s, .done hrun, hok, hframe, rfl, fun _ => Or.inl rfl⟩

theorem bbbSlice_run (h : KernelOk o s) :
    ∃ s₁, Flow.Lands (bbbSlice s) () s₁ ∧ KernelOk o s₁ ∧ Frame [] [] s s₁ ∧
      s₁.defer.ndefers = s.defer.ndefers ∧ ∀ r, Turn s s₁ r := by
  by_cases hover : decr s.preempt = 0
  · have hrun : bbbSlice s = resched { s with preempt := quantum } := by simp [bbbSlice, hover]
    rw [hrun]
    exact reschedAfter h (h.setClock s.clkticks s.clktime quantum).consistent rfl rfl
      (Frame.setClock s s.clkticks s.clktime quantum)
  · have hrun : bbbSlice s =
        .done () { s with preempt := decr s.preempt } := by
      simp [bbbSlice, hover]
    exact ⟨_, .done hrun, h.setClock s.clkticks s.clktime _, Frame.setClock s s.clkticks s.clktime _,
      rfl, fun _ => Or.inl rfl⟩

end Runs

end Xinu
