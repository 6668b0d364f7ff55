import Mathlib.Logic.Function.Basic
import Mathlib.Data.List.Basic
import Mathlib.Data.List.Forall2
import Mathlib.Tactic.Ring

/-!
# Ring buffers

A ring buffer keeps a queue in an array of `n` cells.  The index of the first item,
the index behind the last one and their number say which cells are in use; the indices
go back to zero at the end of the array.

Main results:

- Theorems `Ring.window_push` and `Ring.window_pop`: the items of a ring buffer are
  those of a queue.
- Theorems `Ring.Fits.push`, `Ring.Fits.pop` and `Ring.Fits.shrink`: the indices and the
  number of items agree.
- Theorems `Ledger.push`, `Ledger.take` and `Ledger.deliver`: what was delivered of a
  queue are the items in order of arrival, each once.
-/

namespace Xinu
namespace Foundations
namespace Ring

open Function

variable {α : Type} {n head tail count i : Int} {cell : Int → α}

/-- The index after `i`. -/
def next (n i : Int) : Int :=
  if i + 1 ≥ n then 0 else i + 1

/-- The items in `k` cells from the index `head` on. -/
def window (n : Int) (cell : Int → α) : Int → Nat → List α
  | _, 0 => []
  | head, k + 1 => cell head :: window n cell (next n head) k

/-- The indices and the number of items agree. -/
structure Fits (n head tail count : Int) : Prop where
  head_nonneg : 0 ≤ head
  head_lt : head < n
  count_nonneg : 0 ≤ count
  count_le : count ≤ n
  tail_eq : tail = (head + count) % n

theorem next_eq (h₀ : 0 ≤ i) (h : i < n) : next n i = (i + 1) % n := by
  unfold next
  split
  · next hge =>
      obtain rfl : n = i + 1 := by omega
      simp
  · exact (Int.emod_eq_of_lt (by omega) (by omega)).symm

theorem next_nonneg (h₀ : 0 ≤ i) : 0 ≤ next n i := by
  unfold next
  split <;> omega

theorem next_lt (h₀ : 0 ≤ i) (h : i < n) : next n i < n := by
  unfold next
  split <;> omega

/-- Going on from the next index. -/
theorem next_add (h₀ : 0 ≤ i) (h : i < n) (k : Int) : (next n i + k) % n = (i + (k + 1)) % n := by
  rw [next_eq h₀ h, Int.emod_add_emod]
  congr 1
  ring

@[simp]
theorem length_window (cell : Int → α) (head : Int) (k : Nat) :
    (window n cell head k).length = k := by
  induction k generalizing head with
  | zero => rfl
  | succ k ih => simp [window, ih]

/-- The items in the buffer do not depend on the cells outside it. -/
theorem window_congr {cell' : Int → α} {k : Nat} (h₀ : 0 ≤ head) (h : head < n)
    (heq : ∀ j : Nat, j < k → cell' ((head + j) % n) = cell ((head + j) % n)) :
    window n cell' head k = window n cell head k := by
  induction k generalizing head with
  | zero => rfl
  | succ k ih =>
      have hfirst := heq 0 (by omega)
      rw [Nat.cast_zero, Int.add_zero, Int.emod_eq_of_lt h₀ h] at hfirst
      have hrest : window n cell' (next n head) k = window n cell (next n head) k := by
        apply ih (next_nonneg h₀) (next_lt h₀ h)
        intro j hj
        rw [next_add h₀ h]
        exact heq (j + 1) (by omega)
      rw [window, window, hfirst, hrest]

/-- The items in one cell more. -/
theorem window_snoc (cell : Int → α) (h₀ : 0 ≤ head) (h : head < n) (k : Nat) :
    window n cell head (k + 1) = window n cell head k ++ [cell ((head + k) % n)] := by
  induction k generalizing head with
  | zero =>
      rw [Nat.cast_zero, Int.add_zero, Int.emod_eq_of_lt h₀ h]
      rfl
  | succ k ih =>
      rw [window, ih (next_nonneg h₀) (next_lt h₀ h), next_add h₀ h, window, List.cons_append]
      rfl

/-- The items in the first cells, and those in the cells behind them. -/
theorem window_add (cell : Int → α) (head : Int) (k m : Nat) :
    window n cell head (k + m) =
      window n cell head k ++ window n cell ((next n)^[k] head) m := by
  induction k generalizing head with
  | zero =>
      rw [Nat.zero_add]
      rfl
  | succ k ih =>
      rw [Nat.succ_add, window, ih, window, Function.iterate_succ_apply, List.cons_append]

/-- The items in the first cells. -/
theorem window_eq_take (cell : Int → α) (head : Int) {k m : Nat} (hle : k ≤ m) :
    window n cell head k = (window n cell head m).take k := by
  obtain ⟨j, rfl⟩ := Nat.exists_eq_add_of_le hle
  have hlen := length_window (n := n) cell head k
  rw [window_add, List.take_left' hlen]

/-- Two of the first `n` cells of the buffer are different. -/
theorem index_ne {j k : Int} (hj : 0 ≤ j) (hjk : j < k) (hk : k < n) :
    (head + j) % n ≠ (head + k) % n := by
  intro heq
  have hdvd : n ∣ head + k - (head + j) :=
    Int.dvd_of_emod_eq_zero (Int.emod_eq_emod_iff_emod_sub_eq_zero.mp heq.symm)
  have hle := Int.le_of_dvd (by omega) hdvd
  omega

/-- Put an item behind the last one. -/
theorem window_push (h : Fits n head tail count) (hroom : count < n) (a : α) :
    window n (update cell tail a) head (count + 1).toNat =
      window n cell head count.toNat ++ [a] := by
  have hcast : ((count.toNat : Nat) : Int) = count := Int.toNat_of_nonneg h.count_nonneg
  have hsucc : (count + 1).toNat = count.toNat + 1 := Int.toNat_add h.count_nonneg (by decide)
  have hsame : window n (update cell tail a) head count.toNat =
      window n cell head count.toNat := by
    apply window_congr h.head_nonneg h.head_lt
    intro j hj
    apply update_of_ne
    rw [h.tail_eq]
    exact index_ne (by omega) (by omega) hroom
  rw [hsucc, window_snoc _ h.head_nonneg h.head_lt, hsame, hcast, ← h.tail_eq, update_self]

/-- Remove the first item. -/
theorem window_pop (hpos : 0 < count) :
    window n cell head count.toNat =
      cell head :: window n cell (next n head) (count - 1).toNat := by
  have hsucc : count.toNat = (count - 1).toNat + 1 := by omega
  rw [hsucc]
  rfl

theorem Fits.tail_nonneg (h : Fits n head tail count) : 0 ≤ tail := by
  have := h.head_nonneg
  have := h.head_lt
  rw [h.tail_eq]
  exact Int.emod_nonneg _ (by omega)

theorem Fits.tail_lt (h : Fits n head tail count) : tail < n := by
  have := h.head_nonneg
  have := h.head_lt
  rw [h.tail_eq]
  exact Int.emod_lt_of_pos _ (by omega)

theorem Fits.push (h : Fits n head tail count) (hroom : count < n) :
    Fits n head (next n tail) (count + 1) := by
  have := h.count_nonneg
  refine ⟨h.head_nonneg, h.head_lt, by omega, by omega, ?_⟩
  rw [next_eq h.tail_nonneg h.tail_lt, h.tail_eq, Int.emod_add_emod]
  congr 1
  ring

theorem Fits.pop (h : Fits n head tail count) (hpos : 0 < count) :
    Fits n (next n head) tail (count - 1) := by
  have := h.count_le
  refine ⟨next_nonneg h.head_nonneg, next_lt h.head_nonneg h.head_lt, by omega, by omega, ?_⟩
  rw [next_add h.head_nonneg h.head_lt, h.tail_eq]
  congr 1
  ring

/-- The last items are removed. -/
theorem Fits.shrink {c tail' : Int} (h : Fits n head tail count) (hc : 0 ≤ c) (hle : c ≤ count)
    (h₀ : 0 ≤ tail') (hlt : tail' < n) (hmod : tail' % n = (tail - c) % n) :
    Fits n head tail' (count - c) := by
  have := h.count_le
  refine ⟨h.head_nonneg, h.head_lt, by omega, by omega, ?_⟩
  calc tail' = tail' % n := (Int.emod_eq_of_lt h₀ hlt).symm
    _ = ((head + count) % n - c) % n := by rw [hmod, ← h.tail_eq]
    _ = (head + (count - c)) % n := by
      rw [Int.emod_sub_emod]
      congr 1
      ring

end Ring

/-! ## The ledger of a queue -/

variable {α β : Type} {R : β → α → Prop} {arrived queue : List α} {delivered held : List β}

/-- Every item that has arrived is in the queue, or was taken from it; each delivery, and
then what is held, comes from one taken item, in order of arrival. -/
def Ledger (R : β → α → Prop) (arrived : List α) (delivered held : List β) (queue : List α) :
    Prop :=
  ∃ taken, arrived = taken ++ queue ∧ List.Forall₂ R (delivered ++ held) taken

namespace Ledger

theorem empty (R : β → α → Prop) : Ledger R [] [] [] [] :=
  ⟨[], rfl, List.Forall₂.nil⟩

/-- An item arrives. -/
theorem push (h : Ledger R arrived delivered held queue) (a : α) :
    Ledger R (arrived ++ [a]) delivered held (queue ++ [a]) := by
  obtain ⟨taken, harrived, htaken⟩ := h
  exact ⟨taken, by rw [harrived, List.append_assoc], htaken⟩

/-- The first item is taken. -/
theorem take {a : α} {b : β} (h : Ledger R arrived delivered [] (a :: queue)) (hb : R b a) :
    Ledger R arrived delivered [b] queue := by
  obtain ⟨taken, harrived, htaken⟩ := h
  rw [List.append_nil] at htaken
  refine ⟨taken ++ [a], ?_, List.rel_append htaken (.cons hb .nil)⟩
  rw [harrived, List.append_assoc]
  rfl

/-- What is held is delivered. -/
theorem deliver (h : Ledger R arrived delivered held queue) :
    Ledger R arrived (delivered ++ held) [] queue := by
  obtain ⟨taken, harrived, htaken⟩ := h
  exact ⟨taken, harrived, by rwa [List.append_nil]⟩

/-- What is held comes from an item. -/
theorem held_of_mem {b : β} (h : Ledger R arrived delivered held queue) (hb : b ∈ held) :
    ∃ a, R b a := by
  obtain ⟨taken, -, htaken⟩ := h
  have hmem : b ∈ delivered ++ held := List.mem_append_right delivered hb
  generalize delivered ++ held = bs at htaken hmem
  induction htaken with
  | nil => cases hmem
  | @cons b' a' bs as hR _ ih =>
      rcases List.mem_cons.mp hmem with rfl | hmem
      · exact ⟨a', hR⟩
      · exact ih hmem

/-- The deliveries come from the first items that have arrived. -/
theorem delivered_prefix (h : Ledger R arrived delivered held queue) :
    ∃ taken rest, arrived = taken ++ rest ∧ List.Forall₂ R delivered taken := by
  obtain ⟨taken, harrived, htaken⟩ := h
  refine ⟨taken.take delivered.length, taken.drop delivered.length ++ queue, ?_, ?_⟩
  · rw [← List.append_assoc, List.take_append_drop, harrived]
  · have hfirst := List.forall₂_take delivered.length htaken
    rwa [List.take_left] at hfirst

end Ledger

end Foundations
end Xinu
