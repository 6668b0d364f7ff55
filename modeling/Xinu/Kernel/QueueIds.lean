import Xinu.Kernel.QueueInvariant
import Xinu.Kernel.Future

/-!
# Queue identifiers

`newqueue` gives out the entries of the queue table two by two and never takes them back,
while futures are allocated and freed.  The embedding of `system/future_free.c` is here.

Main results:

- Theorem `newqueue_ids`: while there is room, the identifiers are consecutive ones of the
  table.
- Theorem `newqueue_beyond`: the one that the test at the table's end lets pass.
-/

namespace Xinu

open Foundations Function

/-! ## Calls -/

/-- Free a future. -/
def futureFree (f : Nat) : FutureM Int := do
  if ← onKernel (onHeap (Memory.freemem f sizeofFuture)) then
    modify fun t => { t with future := update t.future f none }
    return ok
  else
    return syserr

/-- The calls that allocate queues, and the one that frees a future. -/
inductive IdCall where
  | newqueue
  | futureAlloc (mode : FutureMode)
  | futureFree (f : Nat)
deriving DecidableEq

def IdCall.exec : IdCall → FutureM Int
  | newqueue => onKernel Xinu.newqueue
  | futureAlloc mode => Xinu.futureAlloc mode
  | futureFree f => Xinu.futureFree f

/-- The queues of a future of each mode. -/
def Future.queues (e : Future) : List Int :=
  match e.mode with
  | .futureExclusive => []
  | .futureShared => [e.getQueue]
  | .futureQueue => [e.getQueue, e.setQueue]

/-- The queue identifiers that a call has handed out, with its result and the state that it
leaves. -/
def IdCall.ids (c : IdCall) (r : Int) (t : Futures) : List Int :=
  match c with
  | newqueue => [r]
  | futureAlloc _ => ((t.future r.toNat).map Future.queues).getD []
  | futureFree _ => []

/-- Sequences of calls that satisfy the rule, with what each has handed out. -/
inductive IdRun (rule : Futures → IdCall → Prop) (t₀ : Futures) :
    List (IdCall × List Int) → Futures → Prop
  | start : IdRun rule t₀ [] t₀
  | call {tr : List (IdCall × List Int)} {t t' : Futures} {c : IdCall} {r : Int}
      (h : IdRun rule t₀ tr t) (hrule : rule t c) (hexec : c.exec t = .done r t') :
      IdRun rule t₀ (tr ++ [(c, c.ids r t')]) t'

/-! ## Identifiers -/

/-- The identifiers that the calls have handed out. -/
def handedOut (tr : List (IdCall × List Int)) : List Int :=
  tr.flatMap Prod.snd

/-- An identifier of two entries of the queue table. -/
def InTable (q : Int) : Prop :=
  0 ≤ q ∧ q + 1 < nqent

instance (q : Int) : Decidable (InTable q) :=
  inferInstanceAs (Decidable (_ ∧ _))

/-- What is claimed of the calls that led from `t₀` to `t`. -/
structure IdsOk (t₀ : Futures) (tr : List (IdCall × List Int)) (t : Futures) : Prop where
  /-- Each identifier is in the table, … -/
  inside : ∀ q ∈ handedOut tr, q ≠ syserr → InTable q
  /-- … and different from all earlier ones. -/
  distinct : ((handedOut tr).filter (· ≠ syserr)).Nodup
  /-- No future has a queue that is missing. -/
  futures : ∀ mode qs, (IdCall.futureAlloc mode, qs) ∈ tr → ∀ q ∈ qs, InTable q
  /-- Nothing outside of the table is written. -/
  frame : ∀ i, i < 0 ∨ nqent ≤ i →
    (kernelOf t).queuetab i = (kernelOf t₀).queuetab i

/-- The number of queues of a future. -/
def FutureMode.queues : FutureMode → Nat
  | futureExclusive => 0
  | futureShared => 1
  | futureQueue => 2

/-- `newqueue` is not called when the table has just become full, and a future is allocated
only if its queues are in the table. -/
def HasRoom (t : Futures) : IdCall → Prop
  | .newqueue => (kernelOf t).nextqid ≠ nqent
  | .futureAlloc mode =>
      mode = .futureExclusive ∨ (kernelOf t).nextqid + 2 * (mode.queues : Int) ≤ nqent
  | .futureFree _ => True

/-- `k` identifiers from `n` on. -/
def consecutive (n : Int) (k : Nat) : List Int :=
  (List.range k).map fun i : Nat => n + 2 * (i : Int)

section Consecutive

variable {n q : Int} {k : Nat}

theorem mem_consecutive : q ∈ consecutive n k ↔ ∃ i < k, q = n + 2 * (i : Int) := by
  simp [consecutive, eq_comm]

theorem nodup_consecutive (n : Int) (k : Nat) : (consecutive n k).Nodup := by
  unfold consecutive
  apply List.nodup_range.map
  intro i j hij
  dsimp only at hij
  omega

theorem consecutive_add (n : Int) (k m : Nat) :
    consecutive n (k + m) = consecutive n k ++ consecutive (n + 2 * (k : Int)) m := by
  unfold consecutive
  rw [List.range_add, List.map_append, List.map_map]
  congr 1
  apply List.map_congr_left
  intro i _
  simp only [Function.comp_apply, Nat.cast_add]
  omega

end Consecutive

/-! ## One call -/

section Step

variable {t t' : Futures} {mode : FutureMode} {f : Nat} {r : Int}

/-- The state in which one more queue has been allocated. -/
def withQueue (t : Futures) : Futures :=
  { t with cpu := { t.cpu with kernel := { t.cpu.kernel with
      queuetab := emptyQueue t.cpu.kernel.queuetab t.cpu.kernel.nextqid
      nextqid := t.cpu.kernel.nextqid + 2 } } }

theorem onKernel_newqueue (h : ¬ (kernelOf t).nextqid > nqent) :
    onKernel newqueue t = .done (kernelOf t).nextqid (withQueue t) := by
  have hrun : newqueue t.cpu.kernel = _ := newqueue_run h
  unfold onKernel onCpu
  rw [Coop.run_zoom, Coop.run_zoom, show (HasCpu.cpu t).kernel = t.cpu.kernel from rfl, hrun]
  rfl

theorem emptyQueue_outside {q i : Int} (tab : QueueTab) (h : i < q ∨ q + 2 ≤ i) :
    emptyQueue tab q i = tab i := by
  have hhead : i ≠ queuehead q := by
    unfold queuehead
    omega
  have htail : i ≠ queuetail q := by
    unfold queuetail
    omega
  simp [emptyQueue, QueueTab.setQnext, QueueTab.setQprev, QueueTab.setQkey, hhead, htail]

/-- What a call has made of the table: `k` queues more. -/
structure Allots (t t' : Futures) (k : Nat) : Prop where
  next : (kernelOf t').nextqid = (kernelOf t).nextqid + 2 * (k : Int)
  frame : ∀ i, i < (kernelOf t).nextqid ∨ (kernelOf t).nextqid + 2 * (k : Int) ≤ i →
    (kernelOf t').queuetab i = (kernelOf t).queuetab i

/-- The calls of the heap leave the table alone. -/
theorem allots_zero (hnext : (kernelOf t').nextqid = (kernelOf t).nextqid)
    (htab : (kernelOf t').queuetab = (kernelOf t).queuetab) : Allots t t' 0 :=
  ⟨by rw [hnext]; simp, fun i _ => by rw [htab]⟩

theorem allots_withQueue (t : Futures) : Allots t (withQueue t) 1 :=
  ⟨rfl, fun _ hi => emptyQueue_outside _ hi⟩

theorem Allots.trans {t'' : Futures} {k m : Nat} (h : Allots t t' k) (h' : Allots t' t'' m) :
    Allots t t'' (k + m) := by
  have hnext := h.next
  constructor
  · rw [h'.next, hnext]
    push_cast
    omega
  · intro i hi
    rw [h'.frame i (by push_cast at hi; omega), h.frame i (by push_cast at hi; omega)]

/-- The state in which the heap is another one. -/
def withHeap (t : Futures) (m : Memory.Heap) : Futures :=
  { t with cpu := { t.cpu with kernel := { t.cpu.kernel with heap := m } } }

/-- A call of the heap that returns. -/
theorem onHeap_cases {α : Type} {x : Memory.HeapM α} {g : α → FutureM Int}
    (h : (onKernel (onHeap x) >>= g) t = .done r t') :
    (∃ a m, x (kernelOf t).heap = .done a m ∧ g a (withHeap t m) = .done r t') := by
  rw [Coop.run_bind] at h
  unfold onKernel onCpu onHeap at h
  rw [Coop.run_zoom, Coop.run_zoom, Coop.run_zoom] at h
  cases hx : x (HasCpu.cpu t).kernel.heap with
  | done a m =>
      rw [hx] at h
      exact ⟨a, m, hx, h⟩
  | suspended m k =>
      rw [hx] at h
      cases h
  | halted m =>
      rw [hx] at h
      cases h
  | stuck =>
      rw [hx] at h
      cases h

/-- `*f` is another one. -/
def withFuture (t : Futures) (f : Nat) (e : Future) : Futures :=
  { t with future := update t.future f (some e) }

theorem run_setFuture {e : Future} {g : Future → Future} (he : t.future f = some e) :
    setFuture f g t = .done ⟨⟩ (withFuture t f (g e)) := by
  simp [setFuture, withFuture, he]

/-- The state in which a future has got its memory, and nothing else. -/
def withAlloc (t : Futures) (m : Memory.Heap) (f : Nat) (mode : FutureMode) : Futures :=
  withFuture (withHeap t m) f ⟨0, .futureEmpty, mode, -1, -1, -1⟩

theorem Allots.withFuture {k : Nat} {e : Future} (h : Allots t t' k) :
    Allots t (withFuture t' f e) k :=
  ⟨h.next, h.frame⟩

/-- What `futureAlloc` does once it has got the memory. -/
theorem futureAlloc_some {m : Memory.Heap} (hroom : HasRoom t (.futureAlloc mode))
    (hmem : Memory.getmem sizeofFuture (kernelOf t).heap = .done (some f) m) :
    ∃ t', futureAlloc mode t = .done (f : Int) t' ∧ Allots t t' mode.queues ∧
      (IdCall.futureAlloc mode).ids f t' = consecutive (kernelOf t).nextqid mode.queues := by
  have hget : onKernel (onHeap (Memory.getmem sizeofFuture)) t = .done (some f) (withHeap t m) := by
    unfold onKernel onCpu
    rw [Coop.run_zoom, Coop.run_zoom]
    rw [show onHeap (Memory.getmem sizeofFuture) (HasCpu.cpu t).kernel = _ from onHeap_done hmem]
    rfl
  have hmodify : (modify (fun t => { t with
      future := update t.future f (some ⟨0, .futureEmpty, mode, -1, -1, -1⟩) }) : FutureM PUnit)
        (withHeap t m) = .done ⟨⟩ (withAlloc t m f mode) := rfl
  have hbegin : (withAlloc t m f mode).future f = some ⟨0, .futureEmpty, mode, -1, -1, -1⟩ :=
    update_self _ _ _
  have hheap : Allots t (withAlloc t m f mode) 0 := allots_zero rfl rfl
  have hnext : (kernelOf (withAlloc t m f mode)).nextqid = (kernelOf t).nextqid := rfl
  unfold futureAlloc
  rw [Coop.run_bind, hget, Flow.bind_done]
  dsimp only
  rw [Coop.run_bind, hmodify, Flow.bind_done]
  obtain ⟨t₁, ht₁⟩ : ∃ t₁, withAlloc t m f mode = t₁ := ⟨_, rfl⟩
  rw [ht₁] at hbegin hheap hnext ⊢
  cases mode with
  | futureExclusive =>
      refine ⟨t₁, rfl, hheap, ?_⟩
      simp [IdCall.ids, hbegin, Future.queues, consecutive, FutureMode.queues]
  | futureShared =>
      have hle := hroom.resolve_left (by simp)
      simp only [FutureMode.queues] at hle
      have hone := onKernel_newqueue (t := t₁) (by omega)
      have hset := fun g => run_setFuture (t := withQueue t₁) (g := g) hbegin
      rw [if_pos (Or.inl rfl), Coop.run_bind, hone, Flow.bind_done, Coop.run_bind, hset,
        Flow.bind_done, if_neg (by simp), hnext]
      refine ⟨_, rfl, (hheap.trans (allots_withQueue t₁)).withFuture, ?_⟩
      simp [IdCall.ids, withFuture, Future.queues, consecutive, FutureMode.queues]
  | futureQueue =>
      have hle := hroom.resolve_left (by simp)
      simp only [FutureMode.queues] at hle
      have hone := onKernel_newqueue (t := t₁) (by omega)
      have hset := fun g => run_setFuture (t := withQueue t₁) (g := g) hbegin
      rw [if_pos (Or.inr rfl), Coop.run_bind, hone, Flow.bind_done, Coop.run_bind, hset,
        Flow.bind_done, if_pos rfl, hnext]
      have hfirst := (hheap.trans (allots_withQueue t₁)).withFuture (f := f)
        (e := ⟨0, .futureEmpty, .futureQueue, -1, -1, (kernelOf t).nextqid⟩)
      obtain ⟨t₂, ht₂⟩ : ∃ t₂, withFuture (withQueue t₁) f
        ⟨0, .futureEmpty, .futureQueue, -1, -1, (kernelOf t).nextqid⟩ = t₂ := ⟨_, rfl⟩
      have hfuture : t₂.future f =
          some ⟨0, .futureEmpty, .futureQueue, -1, -1, (kernelOf t).nextqid⟩ := by
        rw [← ht₂]
        exact update_self _ _ _
      have hnext₂ : (kernelOf t₂).nextqid = (kernelOf t).nextqid + 2 := by
        rw [← ht₂, ← hnext]
        rfl
      have htwo := onKernel_newqueue (t := t₂) (by omega)
      have hset₂ := fun g => run_setFuture (t := withQueue t₂) (g := g) hfuture
      rw [ht₂] at hfirst ⊢
      rw [Coop.run_bind, htwo, Flow.bind_done, Coop.run_bind, hset₂, Flow.bind_done, hnext₂]
      refine ⟨_, rfl, (hfirst.trans (allots_withQueue t₂)).withFuture, ?_⟩
      simp [IdCall.ids, withFuture, Future.queues, consecutive, FutureMode.queues, List.range_succ]

/-- What each call that satisfies the rule hands out. -/
theorem allots_of_exec {c : IdCall} {k : Nat} (hnext : (kernelOf t).nextqid = nproc + 2 * (k : Int))
    (hle : (kernelOf t).nextqid ≤ nqent) (hroom : HasRoom t c) (hexec : c.exec t = .done r t') :
    ∃ m, c.ids r t' = consecutive (kernelOf t).nextqid m ∧ Allots t t' m ∧
      (kernelOf t).nextqid + 2 * (m : Int) ≤ nqent := by
  cases c with
  | newqueue =>
      have hne : (kernelOf t).nextqid ≠ nqent := hroom
      have hrun : IdCall.newqueue.exec t = _ := onKernel_newqueue (by omega)
      rw [hrun] at hexec
      cases hexec
      refine ⟨1, by simp [IdCall.ids, consecutive], allots_withQueue t, ?_⟩
      have hnproc : nproc = 100 := rfl
      have hnqent : nqent = 344 := rfl
      omega
  | futureAlloc mode =>
      obtain ⟨f, m, hmem, hrest⟩ := onHeap_cases hexec
      cases f with
      | none => cases hrest
      | some f =>
          obtain ⟨t'', hrun, hallots, hids⟩ := futureAlloc_some hroom hmem
          have hsame : IdCall.exec (.futureAlloc mode) t = .done (f : Int) t'' := hrun
          rw [hsame] at hexec
          cases hexec
          refine ⟨mode.queues, hids, hallots, ?_⟩
          rcases hroom with rfl | hroom
          · simpa [FutureMode.queues] using hle
          · exact hroom
  | futureFree f =>
      obtain ⟨freed, m, -, hrest⟩ := onHeap_cases hexec
      refine ⟨0, rfl, ?_, by simpa using hle⟩
      cases freed with
      | true =>
          cases hrest
          exact allots_zero rfl rfl
      | false =>
          cases hrest
          exact allots_zero rfl rfl

end Step

/-! ## All calls -/

section Run

variable {t₀ t : Futures} {tr : List (IdCall × List Int)}

/-- While there is room, the identifiers are consecutive, and the table ends behind them. -/
theorem consecutive_of_run (hstart : (kernelOf t₀).nextqid = nproc)
    (hrun : IdRun HasRoom t₀ tr t) :
    ∃ k, handedOut tr = consecutive nproc k ∧ (kernelOf t).nextqid = nproc + 2 * (k : Int) ∧
      nproc + 2 * (k : Int) ≤ nqent ∧
        ∀ i, i < 0 ∨ nqent ≤ i → (kernelOf t).queuetab i = (kernelOf t₀).queuetab i := by
  induction hrun with
  | start => exact ⟨0, rfl, by simp [hstart], by decide, fun _ _ => rfl⟩
  | @call tr t t' c r _ hroom hexec ih =>
      obtain ⟨k, hids, hnext, hle, hframe⟩ := ih
      obtain ⟨m, hnew, hallots, hroom'⟩ := allots_of_exec hnext (by rwa [hnext]) hroom hexec
      have hnproc : nproc = 100 := rfl
      refine ⟨k + m, ?_, ?_, ?_, ?_⟩
      · rw [handedOut, List.flatMap_append, List.flatMap_singleton, hnew, consecutive_add, ← hids,
          hnext]
        rfl
      · rw [hallots.next, hnext]
        push_cast
        omega
      · push_cast
        omega
      · intro i hi
        rw [hallots.frame i (by omega), hframe i hi]

/-- While there is room, the identifiers are different ones of the table, and so are the queues
of the futures. -/
theorem newqueue_ids (hstart : (kernelOf t₀).nextqid = nproc) (hrun : IdRun HasRoom t₀ tr t) :
    IdsOk t₀ tr t := by
  obtain ⟨k, hids, -, hle, hframe⟩ := consecutive_of_run hstart hrun
  have hinside : ∀ q ∈ handedOut tr, InTable q := by
    intro q hq
    rw [hids] at hq
    obtain ⟨i, hi, rfl⟩ := mem_consecutive.mp hq
    have hnproc : nproc = 100 := rfl
    constructor
    · omega
    · omega
  constructor
  · exact fun q hq _ => hinside q hq
  · rw [hids]
    exact (nodup_consecutive nproc k).filter _
  · intro mode qs hmem q hq
    exact hinside q (List.mem_flatMap.mpr ⟨_, hmem, hq⟩)
  · exact hframe

/-- The identifier that the test at the table's end lets pass. -/
theorem newqueue_beyond (hstart : (kernelOf t₀).nextqid = nproc) :
    ∃ tr t, IdRun (fun _ _ => True) t₀ tr t ∧ nqent ∈ handedOut tr := by
  have hruns : ∀ k : Nat, k ≤ 123 → ∃ tr t, IdRun (fun _ _ => True) t₀ tr t ∧
      (kernelOf t).nextqid = nproc + 2 * (k : Int) ∧
        (0 < k → nproc + 2 * (k : Int) - 2 ∈ handedOut tr) := by
    intro k
    induction k with
    | zero => exact fun _ => ⟨[], t₀, .start, by simp [hstart], fun h => absurd h (by decide)⟩
    | succ k ih =>
        intro hk
        obtain ⟨tr, t, hrun, hnext, -⟩ := ih (by omega)
        have hnproc : nproc = 100 := rfl
        have hnqent : nqent = 344 := rfl
        have hexec : IdCall.newqueue.exec t = _ := onKernel_newqueue (by omega)
        refine ⟨_, _, .call hrun trivial hexec, ?_, fun _ => ?_⟩
        · change (kernelOf t).nextqid + 2 = _
          push_cast
          omega
        · rw [handedOut, List.flatMap_append, List.flatMap_singleton]
          apply List.mem_append_right
          rw [IdCall.ids, hnext]
          push_cast
          simp
          omega
  obtain ⟨tr, t, hrun, -, hmem⟩ := hruns 123 (by decide)
  exact ⟨tr, t, hrun, hmem (by decide)⟩

end Run

/-- A board with its memory and without queues. -/
def noQueues : Futures :=
  { bootFutures smallBoard with
    cpu := ⟨{ boot smallBoard with
      nextqid := nproc, heap := Memory.meminit 4096 65536 8 fun _ => ⟨0, 0⟩ }, fun _ => true⟩ }

theorem ids_ok_future : ∃ tr t, IdsOk noQueues tr t ∧ handedOut tr = [100, 102, 104] := by
  have hmem : ∃ m, Memory.getmem sizeofFuture (kernelOf (withQueue noQueues)).heap =
      .done (some 4096) m := ⟨_, rfl⟩
  obtain ⟨m, hmem⟩ := hmem
  have hfirst : IdCall.newqueue.exec noQueues = .done nproc (withQueue noQueues) :=
    onKernel_newqueue (by decide)
  have hroom : HasRoom (withQueue noQueues) (.futureAlloc .futureQueue) := Or.inr (by decide)
  obtain ⟨t, hsecond, -, hids⟩ := futureAlloc_some hroom hmem
  have hempty : HasRoom noQueues .newqueue := by
    change nproc ≠ nqent
    decide
  have hrun := IdRun.call (.call .start hempty hfirst) hroom hsecond
  refine ⟨_, t, newqueue_ids rfl hrun, ?_⟩
  rw [hids]
  rfl

/-- The call that fills the table is followed by one that writes behind it. -/
theorem ids_leave_table : ¬ ∀ (t₀ : Futures) (tr : List (IdCall × List Int)) (t : Futures),
    (kernelOf t₀).nextqid = nproc → IdRun (fun _ _ => True) t₀ tr t → IdsOk t₀ tr t := by
  intro h
  obtain ⟨tr, t, hrun, hmem⟩ := newqueue_beyond (show (kernelOf noQueues).nextqid = nproc from rfl)
  exact absurd ((h noQueues tr t rfl hrun).inside nqent hmem (by decide)) (by decide)

end Xinu
