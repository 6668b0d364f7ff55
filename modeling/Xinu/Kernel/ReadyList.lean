import Xinu.Foundations.StablePriority
import Xinu.Kernel.QueueInvariant

/-!
# The ready list as a stable priority queue

A queue that `newqueue` created is used through `insert`, `dequeue`, `getfirst`, `getlast`
and `getitem`.  What the calls return is told from the order in which the processes came.

Main results:

- Theorem `QueueLists.step`: one call.
- Theorem `stable_queue`: any sequence of calls.
-/

namespace Xinu

open Foundations Function

/-! ## Calls -/

/-- The calls on one queue. -/
inductive QueueCall where
  | insert (pid key : Int)
  | dequeue
  | getfirst
  | getlast
  | getitem (pid : Int)
deriving DecidableEq, Repr

namespace QueueCall

/-- The call on queue `q`. -/
def run (q : Int) : QueueCall → KernelM Int
  | insert pid key => Xinu.insert pid q key
  | dequeue => Xinu.dequeue q
  | getfirst => Xinu.getfirst q
  | getlast => Xinu.getlast q
  | getitem pid => Xinu.getitem pid

/-- A process that is inserted is on no list, and its key is between the two of the
sentinels; a process that is taken by its number is on the queue. -/
def Legal (s : Kernel) (q : Int) : QueueCall → Prop
  | insert pid key => ¬ isbadpid s pid ∧ Unlinked s.queuetab s.nextqid pid ∧ minkey < key ∧
      key < maxkey
  | getitem pid => pid ∈ members s.queuetab q
  | _ => True

end QueueCall

/-- Legal calls on queue `q`, with their results. -/
inductive QueueRun (q : Int) : Kernel → List (QueueCall × Int) → Kernel → Prop where
  | start (s : Kernel) : QueueRun q s [] s
  | call {s₀ s s' : Kernel} {tr : List (QueueCall × Int)} {c : QueueCall} {r : Int}
      (hrun : QueueRun q s₀ tr s) (hlegal : c.Legal s q) (hdone : c.run q s = .done r s') :
      QueueRun q s₀ (tr ++ [(c, r)]) s'

/-! ## Arrivals -/

/-- The processes on the queue with their keys, in the order of their arrival. -/
abbrev Arrivals := List (Int × Int)

def Arrivals.without (l : Arrivals) (pid : Int) : Arrivals :=
  l.filter fun x => decide (x.1 ≠ pid)

/-- What a call returns, and who is on the queue after it. -/
inductive QueueServes (q : Int) : Arrivals → QueueCall → Int → Arrivals → Prop where
  | insert (l : Arrivals) (pid key : Int) (hq : ¬ isbadqid q) :
      QueueServes q l (.insert pid key) ok (l ++ [(pid, key)])
  /-- The queue is not in the table. -/
  | refused (l : Arrivals) (pid key : Int) (hq : isbadqid q) :
      QueueServes q l (.insert pid key) syserr l
  | drained (c : QueueCall) (hc : c = .dequeue ∨ c = .getfirst ∨ c = .getlast) :
      QueueServes q [] c empty []
  | first (l : Arrivals) (c : QueueCall) (x : Int × Int) (hc : c = .dequeue ∨ c = .getfirst)
      (hx : Earliest Prod.snd l x) : QueueServes q l c x.1 (l.without x.1)
  | last (l : Arrivals) (x : Int × Int) (hx : Latest Prod.snd l x) :
      QueueServes q l .getlast x.1 (l.without x.1)
  | item (l : Arrivals) (x : Int × Int) (hx : x ∈ l) :
      QueueServes q l (.getitem x.1) x.1 (l.without x.1)

/-- The results of a sequence of calls on an empty queue. -/
inductive Explains (q : Int) : List (QueueCall × Int) → Arrivals → Prop where
  | start : Explains q [] []
  | call {tr : List (QueueCall × Int)} {l l' : Arrivals} {c : QueueCall} {r : Int}
      (h : Explains q tr l) (hstep : QueueServes q l c r l') : Explains q (tr ++ [(c, r)]) l'

/-! ## One call -/

/-- The processes of queue `q` with their keys. -/
def keyed (t : QueueTab) (q : Int) : List (Int × Int) :=
  (members t q).map fun i => (i, t.qkey i)

/-- The queue has the arrivals `l` by descending key.  A queue outside of the table, which
`newqueue` allocates when the table has just become full, stays empty. -/
structure QueueLists (s : Kernel) (q : Int) (l : Arrivals) : Prop where
  ranked : Ranked Prod.snd l (keyed s.queuetab q)
  table : QueuesOk s.queuetab s.nextqid ∧ IsQid s.nextqid q ∨
    isbadqid q ∧ isempty s.queuetab q

section Step

variable {s s' : Kernel} {q p : Int} {l : Arrivals} {c : QueueCall}

theorem map_fst_keyed (t : QueueTab) (q : Int) : (keyed t q).map Prod.fst = members t q := by
  unfold keyed
  rw [List.map_map]
  exact List.map_id _

/-- Outside of the table there is no process. -/
theorem members_of_isempty {t : QueueTab} (h : isempty t q) : members t q = [] := by
  have hnot : decide (IsPid (firstid t q)) = false := by
    apply decide_eq_false
    unfold isempty at h
    unfold IsPid
    omega
  have hfuel : nproc.toNat = 99 + 1 := rfl
  unfold members
  rw [hfuel, follow, hnot]
  rfl

/-- The queue after a process has left it. -/
theorem QueueLists.leave {t' : QueueTab} {x : Int × Int} (h : QueueLists s q l)
    (hok : QueuesOk s.queuetab s.nextqid) (hq : IsQid s.nextqid q)
    (hupd : QueueUpdate s.queuetab t' s.nextqid q ((members s.queuetab q).erase x.1))
    (hkey : ∀ i, t'.qkey i = s.queuetab.qkey i) :
    QueueLists { s with queuetab := t' } q (l.without x.1) := by
  refine ⟨?_, Or.inl ⟨hupd.ok, hq⟩⟩
  have hkeyed : keyed t' q = (keyed s.queuetab q).filter fun y => decide (y.1 ≠ x.1) := by
    unfold keyed
    rw [hupd.self, (hok.nodup q hq).erase_eq_filter, List.filter_map]
    have hcomp : ((fun y : Int × Int => decide (y.1 ≠ x.1)) ∘ fun i => (i, s.queuetab.qkey i)) =
        fun i => i != x.1 := by
      funext i
      by_cases hi : i = x.1
      · simp [hi]
      · simp [hi]
    rw [hcomp]
    apply List.map_congr_left
    intro i _
    rw [hkey]
  show Ranked Prod.snd _ (keyed t' q)
  rw [hkeyed]
  exact h.ranked.filter _

/-- The queue after a process has come. -/
theorem QueueLists.enter {t' : QueueTab} {key : Int} (h : QueueLists s q l)
    (hq : IsQid s.nextqid q) (hp : p ∉ members s.queuetab q)
    (hupd : QueueUpdate s.queuetab t' s.nextqid q
      (insertByKey s.queuetab key p (members s.queuetab q)))
    (hkey : ∀ i, t'.qkey i = if i = p then key else s.queuetab.qkey i) :
    QueueLists { s with queuetab := t' } q (l ++ [(p, key)]) := by
  refine ⟨?_, Or.inl ⟨hupd.ok, hq⟩⟩
  have hself : t'.qkey p = key := by rw [hkey, if_pos rfl]
  have hsame : ∀ m : List Int, (∀ i ∈ m, i ∈ members s.queuetab q) →
      m.map (fun i => (i, t'.qkey i)) = m.map fun i => (i, s.queuetab.qkey i) := by
    intro m hm
    apply List.map_congr_left
    intro i hi
    rw [hkey, if_neg]
    rintro rfl
    exact hp (hm i hi)
  have hkeyed : keyed t' q = (keyed s.queuetab q).takeWhile (fun y => decide (key ≤ y.2)) ++
      (p, key) :: (keyed s.queuetab q).dropWhile fun y => decide (key ≤ y.2) := by
    unfold keyed
    rw [hupd.self, List.takeWhile_map, List.dropWhile_map]
    unfold insertByKey
    rw [List.map_append, List.map_cons, hself, hsame _ fun i hi => (List.takeWhile_sublist _).mem hi,
      hsame _ fun i hi => (List.dropWhile_sublist _).mem hi]
    rfl
  show Ranked Prod.snd _ (keyed t' q)
  rw [hkeyed]
  exact h.ranked.insert (p, key)

/-- A call on a queue in the table. -/
theorem QueueLists.step_table (h : QueueLists s q l) (hok : QueuesOk s.queuetab s.nextqid)
    (hq : IsQid s.nextqid q) (hlegal : c.Legal s q) :
    ∃ r s' l', c.run q s = .done r s' ∧ QueueServes q l c r l' ∧ s'.nextqid = s.nextqid ∧
      QueueLists s' q l' := by
  have hnil : members s.queuetab q = [] → l = [] := by
    intro hm
    have hranked := h.ranked
    unfold keyed at hranked
    rw [hm] at hranked
    exact hranked.eq_nil
  have hfirst : ∀ p m, members s.queuetab q = p :: m →
      Earliest Prod.snd l (p, s.queuetab.qkey p) := by
    intro p m hm
    have hranked := h.ranked
    unfold keyed at hranked
    rw [hm] at hranked
    exact hranked.earliest
  have hhead : ∀ p m, members s.queuetab q = p :: m → (members s.queuetab q).erase p = m := by
    intro p m hm
    rw [hm, List.erase_cons_head]
  cases c with
  | insert pid key =>
      obtain ⟨hbad, hun, hmin, -⟩ := hlegal
      obtain ⟨t', hrun, hupd, hkey⟩ := insert_run hok hq hbad hun hmin
      exact ⟨ok, _, _, hrun, .insert l pid key hq.not_isbadqid, rfl,
        h.enter hq (hun q hq) hupd hkey⟩
  | dequeue =>
      cases hm : members s.queuetab q with
      | nil =>
          rw [hnil hm] at h ⊢
          exact ⟨empty, s, [], dequeue_run_nil hok hq hm, .drained _ (Or.inl rfl), rfl, h⟩
      | cons p m =>
          obtain ⟨t', hrun, hupd, -, hkey⟩ := dequeue_run_cons hok hq hm
          rw [← hhead p m hm] at hupd
          exact ⟨p, _, _, hrun, .first l _ _ (Or.inl rfl) (hfirst p m hm), rfl,
            h.leave (x := (p, s.queuetab.qkey p)) hok hq hupd hkey⟩
  | getfirst =>
      cases hm : members s.queuetab q with
      | nil =>
          rw [hnil hm] at h ⊢
          exact ⟨empty, s, [], getfirst_run_nil hok hq hm, .drained _ (Or.inr (Or.inl rfl)), rfl, h⟩
      | cons p m =>
          obtain ⟨t', hrun, hupd, -, hkey⟩ := getfirst_run_cons hok hq hm
          rw [← hhead p m hm] at hupd
          exact ⟨p, _, _, hrun, .first l _ _ (Or.inr rfl) (hfirst p m hm), rfl,
            h.leave (x := (p, s.queuetab.qkey p)) hok hq hupd hkey⟩
  | getlast =>
      rcases List.eq_nil_or_concat (members s.queuetab q) with hm | ⟨m, p, hm⟩
      · rw [hnil hm] at h ⊢
        exact ⟨empty, s, [], getlast_run_nil hok hq hm, .drained _ (Or.inr (Or.inr rfl)), rfl, h⟩
      · rw [List.concat_eq_append] at hm
        obtain ⟨t', hrun, hupd, -, hkey⟩ := getlast_run_snoc hok hq hm
        have hlast : Latest Prod.snd l (p, s.queuetab.qkey p) := by
          have hranked := h.ranked
          unfold keyed at hranked
          rw [hm, List.map_append] at hranked
          exact hranked.latest
        exact ⟨p, _, _, hrun, .last l _ hlast, rfl,
          h.leave (x := (p, s.queuetab.qkey p)) hok hq hupd hkey⟩
  | getitem pid =>
      obtain ⟨t', hrun, hupd, -, hkey⟩ := getitem_run hok hq hlegal
      have hmem : (pid, s.queuetab.qkey pid) ∈ l :=
        h.ranked.mem_iff.mp (List.mem_map.mpr ⟨pid, hlegal, rfl⟩)
      exact ⟨pid, _, _, hrun, .item l _ hmem, rfl,
        h.leave (x := (pid, s.queuetab.qkey pid)) hok hq hupd hkey⟩

/-- A call on a queue outside of the table does nothing. -/
theorem QueueLists.step_outside (h : QueueLists s q l) (hbad : isbadqid q)
    (hempty : isempty s.queuetab q) (hlegal : c.Legal s q) :
    ∃ r, c.run q s = .done r s ∧ QueueServes q l c r l := by
  have hl : l = [] := by
    have hranked := h.ranked
    unfold keyed at hranked
    rw [members_of_isempty hempty] at hranked
    exact hranked.eq_nil
  subst hl
  cases c with
  | insert pid key =>
      refine ⟨syserr, ?_, .refused [] pid key hbad⟩
      simp [QueueCall.run, Xinu.insert, hbad]
  | dequeue =>
      refine ⟨empty, ?_, .drained _ (Or.inl rfl)⟩
      simp [QueueCall.run, Xinu.dequeue, hbad]
      rfl
  | getfirst =>
      refine ⟨empty, ?_, .drained _ (Or.inr (Or.inl rfl))⟩
      simp [QueueCall.run, Xinu.getfirst, hempty]
  | getlast =>
      refine ⟨empty, ?_, .drained _ (Or.inr (Or.inr rfl))⟩
      simp [QueueCall.run, Xinu.getlast, hempty]
  | getitem pid =>
      have hmem : pid ∈ members s.queuetab q := hlegal
      rw [members_of_isempty hempty] at hmem
      simp at hmem

/-- Every call returns, and returns what the order of arrival says. -/
theorem QueueLists.step (h : QueueLists s q l) (hlegal : c.Legal s q) :
    ∃ r s' l', c.run q s = .done r s' ∧ QueueServes q l c r l' ∧ QueueLists s' q l' := by
  rcases h.table with ⟨hok, hq⟩ | ⟨hbad, hempty⟩
  · obtain ⟨r, s', l', hrun, hserves, -, hlists⟩ := h.step_table hok hq hlegal
    exact ⟨r, s', l', hrun, hserves, hlists⟩
  · obtain ⟨r, hrun, hserves⟩ := h.step_outside hbad hempty hlegal
    exact ⟨r, s, l, hrun, hserves, h⟩

end Step

/-! ## Sequences of calls -/

section Runs

variable {s₀ s s' : Kernel} {q : Int} {tr : List (QueueCall × Int)}

/-- The queue that `newqueue` creates is empty. -/
theorem queueLists_newqueue (h : QueuesOk s₀.queuetab s₀.nextqid) (hlow : nproc ≤ s₀.nextqid)
    (heven : (s₀.nextqid - nproc) % 2 = 0) (hnew : newqueue s₀ = .done q s) (hq : q ≠ syserr) :
    QueueLists s q [] := by
  by_cases hmax : s₀.nextqid > nqent
  · have hfail : newqueue s₀ = .done syserr s₀ := by simp [newqueue, hmax]
    rw [hfail] at hnew
    cases hnew
    exact (hq rfl).elim
  · rw [newqueue_run hmax] at hnew
    cases hnew
    by_cases hroom : s₀.nextqid + 1 < nqent
    · have hqid : IsQid (s₀.nextqid + 2) s₀.nextqid := ⟨hlow, by omega, hroom, heven⟩
      obtain ⟨hok, hnil, -⟩ := h.emptyQueue hqid
      refine ⟨?_, Or.inl ⟨hok, hqid⟩⟩
      unfold keyed
      rw [hnil]
      exact Ranked.nil
    · have hne : s₀.nextqid ≠ s₀.nextqid + 1 := by omega
      have hempty : isempty (emptyQueue s₀.queuetab s₀.nextqid) s₀.nextqid := by
        have hfirst : firstid (emptyQueue s₀.queuetab s₀.nextqid) s₀.nextqid =
            s₀.nextqid + 1 := by
          unfold firstid emptyQueue queuehead queuetail
          simp [hne]
        unfold isempty
        rw [hfirst]
        omega
      refine ⟨?_, Or.inr ⟨Or.inr (by omega), hempty⟩⟩
      unfold keyed
      rw [members_of_isempty hempty]
      exact Ranked.nil

theorem queueLists_of_run (h : QueueLists s q []) (hrun : QueueRun q s tr s') :
    ∃ l, Explains q tr l ∧ QueueLists s' q l := by
  induction hrun with
  | start => exact ⟨[], .start, h⟩
  | call hrun hlegal hdone ih =>
      obtain ⟨l, hexplains, hlists⟩ := ih
      obtain ⟨r, s₁, l', hstep, hserves, hlists'⟩ := hlists.step hlegal
      rw [hdone] at hstep
      cases hstep
      exact ⟨l', .call hexplains hserves, hlists'⟩

/--
On a queue that `newqueue` created, every legal call returns, and the results of any
sequence of calls are those of the order of arrival: `dequeue` and `getfirst` return the
process that came first among those with the largest key, `getlast` the one that came last
among those with the smallest key, and `getitem` the process that it was given.
-/
theorem stable_queue (h : QueuesOk s₀.queuetab s₀.nextqid) (hlow : nproc ≤ s₀.nextqid)
    (heven : (s₀.nextqid - nproc) % 2 = 0) (hnew : newqueue s₀ = .done q s) (hq : q ≠ syserr)
    (hrun : QueueRun q s tr s') :
    ∃ l, Explains q tr l ∧ (∀ x, x ∈ l ↔ x ∈ keyed s'.queuetab q) ∧ (∀ x ∈ l, IsPid x.1) ∧
      ∀ c : QueueCall, c.Legal s' q →
        ∃ r s'' l', c.run q s' = .done r s'' ∧ QueueServes q l c r l' := by
  have hstart := queueLists_newqueue h hlow heven hnew hq
  obtain ⟨l, hexplains, hlists⟩ := queueLists_of_run hstart hrun
  refine ⟨l, hexplains, fun x => hlists.ranked.mem_iff.symm, ?_, ?_⟩
  · intro x hx
    have hmem := List.mem_map_of_mem (f := Prod.fst) (hlists.ranked.mem_iff.mpr hx)
    rw [map_fst_keyed] at hmem
    exact isPid_of_mem_members hmem
  · intro c hlegal
    obtain ⟨r, s'', l', hdone, hserves, -⟩ := hlists.step hlegal
    exact ⟨r, s'', l', hdone, hserves⟩

end Runs

/-- A system without queues. -/
def bareBoard : Kernel :=
  { boot smallBoard with nextqid := nproc }

theorem nextqid_bareBoard : bareBoard.nextqid = nproc :=
  rfl

/-- A table without queues is well formed. -/
theorem queuesOk_start (t : QueueTab) : QueuesOk t nproc := by
  have hnone : ∀ q, ¬ IsQid nproc q := by
    intro q hq
    unfold IsQid at hq
    omega
  exact ⟨fun q hq => (hnone q hq).elim, fun q hq => (hnone q hq).elim,
    fun q _ _ hq => (hnone q hq).elim, fun q hq => (hnone q hq).elim,
    fun q hq => (hnone q hq).elim⟩

/-- The null process goes to the first queue and is taken from it. -/
theorem stable_queue_once : ∃ s s', newqueue bareBoard = .done nproc s ∧
    QueueRun nproc s [(.insert 0 20, ok), (.dequeue, 0)] s' ∧
    ∃ l, Explains nproc [(.insert 0 20, ok), (.dequeue, 0)] l ∧
      (∀ x, x ∈ l ↔ x ∈ keyed s'.queuetab nproc) ∧ (∀ x ∈ l, IsPid x.1) ∧
      ∀ c : QueueCall, c.Legal s' nproc →
        ∃ r s'' l', c.run nproc s' = .done r s'' ∧ QueueServes nproc l c r l' := by
  have hok : QueuesOk bareBoard.queuetab bareBoard.nextqid := by
    rw [nextqid_bareBoard]
    exact queuesOk_start bareBoard.queuetab
  have hnew : newqueue bareBoard = .done nproc { bareBoard with
      queuetab := emptyQueue bareBoard.queuetab nproc, nextqid := nproc + 2 } :=
    newqueue_run (by decide)
  have hlists := queueLists_newqueue hok (by decide) (by decide) hnew (by decide)
  have hun : Unlinked (emptyQueue bareBoard.queuetab nproc) (nproc + 2) 0 := by
    intro q hq
    have heq : q = nproc := by
      unfold IsQid at hq
      omega
    rw [heq]
    decide
  have hlegal : (QueueCall.insert 0 20).Legal { bareBoard with
      queuetab := emptyQueue bareBoard.queuetab nproc, nextqid := nproc + 2 } nproc :=
    ⟨by decide +kernel, hun, by decide, by decide⟩
  obtain ⟨r, s₁, l₁, hinsert, hserves, hlists₁⟩ := hlists.step hlegal
  obtain ⟨rfl, rfl⟩ : r = ok ∧ l₁ = [(0, 20)] := by
    cases hserves with
    | insert => exact ⟨rfl, rfl⟩
    | refused _ _ _ hbad => exact absurd hbad (by decide)
    | drained _ hc => simp at hc
    | first _ _ _ hc => simp at hc
  obtain ⟨r, s', l₂, hdequeue, hserves₂, -⟩ := hlists₁.step (c := .dequeue) trivial
  obtain rfl : r = 0 := by
    cases hserves₂ with
    | first _ _ x _ hx =>
        obtain ⟨before, after, hl, -⟩ := hx
        have hmem : x ∈ [((0 : Int), (20 : Int))] := by rw [hl]; simp
        rw [List.mem_singleton.mp hmem]
  have hdequeue' : (QueueCall.dequeue).Legal s₁ nproc := trivial
  have hrun := QueueRun.call (.call (.start _) hlegal hinsert) hdequeue' hdequeue
  exact ⟨_, s', hnew, hrun, stable_queue hok (by decide) (by decide) hnew (by decide) hrun⟩

end Xinu
