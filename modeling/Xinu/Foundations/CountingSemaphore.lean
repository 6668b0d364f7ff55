import Mathlib.Logic.Function.Iterate
import Mathlib.Data.List.Basic

/-!
# Counting semaphores

A counting semaphore has a count and a queue of waiters.  The operations here
say what each event does to one semaphore of a table; the arithmetic on counts
goes through a function `wrap`, the identity as long as no count overflows.

Main results:

- Theorem `Sem.Agrees.event`: a negative count is the number of waiters, after
  every event that fits its semaphore.
-/

namespace Xinu
namespace Foundations

open Function

/-- A counting semaphore; a semaphore that is not in use has count zero. -/
structure Sem (ι : Type) where
  used : Bool
  count : Int
  queue : List ι
deriving DecidableEq, Repr

/-- What can happen to the semaphores of a table. -/
inductive SemEvent (ι : Type) where
  | wait (x : Int) (p : ι)
  | signal (x : Int)
  /-- The waiter `p` is removed from the queue before it is released. -/
  | withdraw (x : Int) (p : ι)
  | create (x n : Int)
  | delete (x : Int)
  | reset (x n : Int)
deriving DecidableEq, Repr

namespace Sem

variable {ι : Type} [DecidableEq ι] (wrap : Int → Int)

/-- Take one unit, or join the queue. -/
def wait (p : ι) (v : Sem ι) : Sem ι :=
  { v with
    count := wrap (v.count - 1)
    queue := if wrap (v.count - 1) < 0 then v.queue ++ [p] else v.queue }

/-- Add one unit, or release the first waiter. -/
def signal (v : Sem ι) : Sem ι :=
  { v with
    count := wrap (v.count + 1)
    queue := if v.count < 0 then v.queue.tail else v.queue }

/-- Remove a waiter. -/
def withdraw (p : ι) (v : Sem ι) : Sem ι :=
  { v with
    count := if v.used then wrap (v.count + 1) else v.count
    queue := v.queue.erase p }

/-- Release as many waiters as the count tells. -/
def delete (v : Sem ι) : Sem ι :=
  ⟨false, 0, v.queue.drop (-v.count).toNat⟩

end Sem

namespace SemEvent

variable {ι : Type} [DecidableEq ι] (wrap : Int → Int)

/-- The semaphore an event is about. -/
def sem : SemEvent ι → Int
  | wait x _ | signal x | withdraw x _ | create x _ | delete x | reset x _ => x

/-- The effect of an event on its semaphore. -/
def effect : SemEvent ι → Sem ι → Sem ι
  | wait _ p, v => v.wait wrap p
  | signal _, v => v.signal wrap
  | withdraw _ p, v => v.withdraw wrap p
  | create _ n, v => { v with used := true, count := n }
  | delete _, v => v.delete
  | reset _ n, v => { v with count := n, queue := [] }

/-- The effect of an event on the table. -/
def apply (T : Int → Sem ι) (ev : SemEvent ι) : Int → Sem ι :=
  update T ev.sem (ev.effect wrap (T ev.sem))

/-- The effect of several events, in order. -/
def applyAll (T : Int → Sem ι) (evs : List (SemEvent ι)) : Int → Sem ι :=
  evs.foldl (apply wrap) T

@[simp]
theorem applyAll_nil (T : Int → Sem ι) : applyAll wrap T [] = T :=
  rfl

theorem applyAll_cons (T : Int → Sem ι) (ev : SemEvent ι) (evs : List (SemEvent ι)) :
    applyAll wrap T (ev :: evs) = applyAll wrap (apply wrap T ev) evs :=
  rfl

/-- A semaphore that no event is about. -/
theorem applyAll_other {T : Int → Sem ι} {evs : List (SemEvent ι)} {x : Int}
    (h : ∀ ev ∈ evs, ev.sem ≠ x) : applyAll wrap T evs x = T x := by
  induction evs generalizing T with
  | nil => rfl
  | cons ev evs ih =>
      rw [applyAll_cons, ih fun e he => h e (List.mem_cons_of_mem ev he)]
      exact update_of_ne (h ev List.mem_cons_self).symm _ _

theorem applyAll_signals (T : Int → Sem ι) (x : Int) (n : Nat) :
    applyAll wrap T (List.replicate n (.signal x)) x = (Sem.signal wrap)^[n] (T x) := by
  induction n generalizing T with
  | zero => rfl
  | succ n ih =>
      rw [List.replicate_succ, applyAll_cons, ih, Function.iterate_succ_apply]
      exact congrArg _ (update_self _ _ _)

theorem applyAll_append (T : Int → Sem ι) (evs evs' : List (SemEvent ι)) :
    applyAll wrap T (evs ++ evs') = applyAll wrap (applyAll wrap T evs) evs' :=
  List.foldl_append

end SemEvent

/-! ## Counts and waiters -/

/-- A negative count is the number of waiters; otherwise nobody waits. -/
def Sem.Agrees {ι : Type} (v : Sem ι) : Prop :=
  v.queue.length = (-v.count).toNat

/-- The event fits the semaphore it is about, and its count does not overflow. -/
def SemEvent.Fits {ι : Type} (wrap : Int → Int) (v : Sem ι) : SemEvent ι → Prop
  | wait _ _ => wrap (v.count - 1) = v.count - 1
  | signal _ => wrap (v.count + 1) = v.count + 1
  | withdraw _ p => v.used = true ∧ p ∈ v.queue ∧ wrap (v.count + 1) = v.count + 1
  | create _ n => v.used = false ∧ v.count = 0 ∧ 0 ≤ n
  | delete _ => True
  | reset _ n => 0 ≤ n

section Agrees

variable {ι : Type} {wrap : Int → Int} {v : Sem ι} {p : ι}

theorem Sem.Agrees.wait (h : v.Agrees) (hwrap : wrap (v.count - 1) = v.count - 1) :
    (v.wait wrap p).Agrees := by
  unfold Sem.Agrees at *
  unfold Sem.wait
  rw [hwrap]
  by_cases hneg : v.count - 1 < 0
  · rw [if_pos hneg, List.length_append, List.length_singleton]
    simp only
    omega
  · rw [if_neg hneg]
    simp only
    omega

theorem Sem.Agrees.signal (h : v.Agrees) (hwrap : wrap (v.count + 1) = v.count + 1) :
    (v.signal wrap).Agrees := by
  unfold Sem.Agrees at *
  unfold Sem.signal
  rw [hwrap]
  by_cases hneg : v.count < 0
  · rw [if_pos hneg, List.length_tail]
    simp only
    omega
  · rw [if_neg hneg]
    simp only
    omega

/-- So many signals in a row, as long as the count does not overflow. -/
theorem Sem.Agrees.signals_eq {n : Nat} (h : v.Agrees)
    (hwrap : ∀ k : Nat, k < n → wrap (v.count + k + 1) = v.count + k + 1) :
    (Sem.signal wrap)^[n] v = { v with count := v.count + n, queue := v.queue.drop n } := by
  have hlen : v.queue.length = (-v.count).toNat := h
  induction n with
  | zero => simp
  | succ n ih =>
      have hfirst := ih fun k hk => hwrap k (Nat.lt_succ_of_lt hk)
      rw [Function.iterate_succ_apply', hfirst]
      unfold Sem.signal
      dsimp only
      rw [hwrap n (Nat.lt_succ_self n)]
      have hcount : v.count + n + 1 = v.count + ((n + 1 : Nat) : Int) := by
        push_cast
        rw [Int.add_assoc]
      rw [hcount]
      by_cases hneg : v.count + n < 0
      · rw [if_pos hneg, List.tail_drop]
      · rw [if_neg hneg, List.drop_eq_nil_of_le (by omega), List.drop_eq_nil_of_le (by omega)]

theorem Sem.Agrees.delete (h : v.Agrees) : v.delete.Agrees := by
  unfold Sem.Agrees at *
  unfold Sem.delete
  rw [List.length_drop]
  simp only
  omega

variable [DecidableEq ι]

theorem Sem.Agrees.withdraw (h : v.Agrees) (hused : v.used = true) (hp : p ∈ v.queue)
    (hwrap : wrap (v.count + 1) = v.count + 1) : (v.withdraw wrap p).Agrees := by
  have hpos : 0 < v.queue.length := List.length_pos_of_mem hp
  unfold Sem.Agrees at *
  unfold Sem.withdraw
  rw [if_pos hused, hwrap, List.length_erase_of_mem hp]
  simp only
  omega

/-- Every event that fits keeps the agreement. -/
theorem Sem.Agrees.event {ev : SemEvent ι} (h : v.Agrees) (hfits : ev.Fits wrap v) :
    (ev.effect wrap v).Agrees := by
  cases ev with
  | wait x p => exact h.wait hfits
  | signal x => exact h.signal hfits
  | withdraw x p =>
      obtain ⟨hused, hp, hwrap⟩ := hfits
      exact h.withdraw hused hp hwrap
  | create x n =>
      obtain ⟨-, hzero, hn⟩ := hfits
      have hempty : v.queue.length = (-v.count).toNat := h
      show v.queue.length = (-n).toNat
      omega
  | delete x => exact h.delete
  | reset x n =>
      have hn : 0 ≤ n := hfits
      show ([] : List ι).length = (-n).toNat
      rw [List.length_nil]
      omega

/-- All counts of the table agree with their queues after an event that fits. -/
theorem SemEvent.agrees_apply {T : Int → Sem ι} {ev : SemEvent ι} (h : ∀ x, (T x).Agrees)
    (hfits : ev.Fits wrap (T ev.sem)) (x : Int) : (ev.apply wrap T x).Agrees := by
  unfold SemEvent.apply
  by_cases hx : x = ev.sem
  · rw [hx, update_self]
    exact (h _).event hfits
  · rw [update_of_ne hx]
    exact h x

/-- Several signals in a row, as long as the count does not overflow. -/
theorem SemEvent.agrees_signals {T : Int → Sem ι} {x : Int} {n : Nat} (h : ∀ y, (T y).Agrees)
    (hwrap : ∀ k : Nat, k < n → wrap ((T x).count + k + 1) = (T x).count + k + 1) (y : Int) :
    (SemEvent.applyAll wrap T (List.replicate n (.signal x)) y).Agrees := by
  induction n generalizing T with
  | zero => exact h y
  | succ n ih =>
      rw [List.replicate_succ, SemEvent.applyAll_cons]
      have hfits : (SemEvent.signal x : SemEvent ι).Fits wrap (T x) := by
        show wrap ((T x).count + 1) = (T x).count + 1
        have hfirst := hwrap 0 (by omega)
        simpa using hfirst
      have hcount : (SemEvent.apply wrap T (.signal x) x).count = (T x).count + 1 := by
        unfold SemEvent.apply
        rw [SemEvent.sem, update_self]
        exact hfits
      apply ih (SemEvent.agrees_apply h hfits)
      intro k hk
      have hnext := hwrap (k + 1) (by omega)
      rw [hcount]
      rw [show (T x).count + ((k + 1 : Nat) : Int) + 1 = (T x).count + 1 + k + 1 by omega] at hnext
      exact hnext

end Agrees

end Foundations
end Xinu
