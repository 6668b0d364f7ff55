import Mathlib.Data.Int.ConditionallyCompleteOrder
import Mathlib.Data.List.Nodup
import Mathlib.Order.ConditionallyCompleteLattice.Indexed
import Mathlib.Order.Interval.Set.Basic

/-!
# Singly linked lists

A function `next` leads from node to node, and the node `null` is none: it ends the list.

Main results:

- Theorem `lists_interval`: a list of neighbouring numbers.
- Theorem `Lists.null_iff`: the list of no nodes is the one that begins with `null`.
-/

namespace Xinu
namespace Foundations

section Chained

variable {ι : Type} {next : ι → ι} {null a : ι} {l : List ι} {s : Set ι}

/-- The list that begins at `a` has the nodes of `l`, in this order. -/
def Chained (next : ι → ι) (null : ι) : ι → List ι → Prop
  | a, [] => a = null
  | a, x :: l => a = x ∧ x ≠ null ∧ Chained next null (next x) l

theorem chained_cons {x : ι} : Chained next null a (x :: l) ↔
    a = x ∧ x ≠ null ∧ Chained next null (next x) l :=
  Iff.rfl

/-- The list that begins at `a` has each member of `s` once, and nothing else. -/
def Lists (next : ι → ι) (null a : ι) (s : Set ι) : Prop :=
  ∃ l : List ι, Chained next null a l ∧ l.Nodup ∧ ∀ x, x ∈ l ↔ x ∈ s

theorem lists_null : Lists next null null ∅ := by
  refine ⟨[], rfl, List.nodup_nil, ?_⟩
  intro x
  simp

/-- A new node in front of a list. -/
theorem Lists.cons (h : Lists next null (next a) s) (hnull : a ≠ null) (hnew : a ∉ s) :
    Lists next null a (insert a s) := by
  obtain ⟨l, hl, hnd, hs⟩ := h
  refine ⟨a :: l, ⟨rfl, hnull, hl⟩, ?_, ?_⟩
  · rw [List.nodup_cons, hs]
    exact ⟨hnew, hnd⟩
  · intro x
    rw [List.mem_cons, Set.mem_insert_iff, hs]

/-- Only the links of the nodes matter. -/
theorem Chained.congr {next' : ι → ι} (h : Chained next null a l)
    (hsame : ∀ x ∈ l, next' x = next x) : Chained next' null a l := by
  induction l generalizing a with
  | nil => exact h
  | cons x l ih =>
      refine ⟨h.1, h.2.1, ?_⟩
      rw [hsame x List.mem_cons_self]
      exact ih h.2.2 fun y hy => hsame y (List.mem_cons_of_mem x hy)

theorem Lists.congr {next' : ι → ι} (h : Lists next null a s)
    (hsame : ∀ x ∈ s, next' x = next x) : Lists next' null a s := by
  obtain ⟨l, hl, hnd, hs⟩ := h
  exact ⟨l, hl.congr fun x hx => hsame x ((hs x).mp hx), hnd, hs⟩

/-- A list begins with its first node, or with `null`. -/
theorem Chained.head_eq (h : Chained next null a l) : a = l.headD null := by
  cases l with
  | nil => exact h
  | cons x l => exact h.1

/-- A list that is linked to another one at its end. -/
theorem Chained.append_left {m : List ι} (h : Chained next null a m) (hnull : null ∉ l)
    (hnext : ∀ x b, l[x]? = some b → next b = l[x + 1]?.getD a) :
    Chained next null (l[0]?.getD a) (l ++ m) := by
  induction l with
  | nil => exact h
  | cons y l ih =>
      rw [List.mem_cons, not_or] at hnull
      refine ⟨rfl, Ne.symm hnull.1, ?_⟩
      rw [hnext 0 y rfl]
      exact ih hnull.2 fun x b hb => hnext (x + 1) b hb

/-- An empty list begins with `null`. -/
theorem Lists.null_iff : Lists next null a ∅ ↔ a = null := by
  constructor
  · rintro ⟨l, hl, -, hs⟩
    cases l with
    | nil => exact hl
    | cons x l => exact absurd ((hs x).mp List.mem_cons_self) (Set.notMem_empty x)
  · intro h
    rw [h]
    exact lists_null

end Chained

/-- The numbers from `lo` up to `lo + n`, each linked to the one behind it. -/
theorem lists_interval {next : Int → Int} {null lo : Int} {n : Nat} (hn : 0 < n)
    (hnull : null < lo) (hlink : ∀ j : Nat, j + 1 < n → next (lo + j) = lo + j + 1)
    (hlast : next (lo + n - 1) = null) :
    Lists next null lo (Set.Ico lo (lo + n)) := by
  induction n generalizing lo with
  | zero => exact absurd hn (Nat.lt_irrefl 0)
  | succ n ih =>
      have hinterval : Set.Ico lo (lo + (n + 1 : Nat)) = insert lo (Set.Ico (lo + 1) (lo + 1 + n)) := by
        ext x
        rw [Set.mem_insert_iff, Set.mem_Ico, Set.mem_Ico]
        omega
      have hnew : lo ∉ Set.Ico (lo + 1) (lo + 1 + n) := by
        rw [Set.mem_Ico]
        omega
      rw [hinterval]
      apply Lists.cons _ (by omega) hnew
      cases n with
      | zero =>
          have hend : lo + (0 + 1 : Nat) - 1 = lo := by omega
          have hempty : Set.Ico (lo + 1) (lo + 1 + (0 : Nat)) = ∅ := by
            ext x
            rw [Set.mem_Ico]
            simp only [Set.mem_empty_iff_false, iff_false]
            omega
          rw [hend] at hlast
          rw [hlast, hempty]
          exact lists_null
      | succ n =>
          have hfirst := hlink 0 (by omega)
          rw [Int.natCast_zero, Int.add_zero] at hfirst
          rw [hfirst]
          apply ih (Nat.succ_pos n) (by omega)
          · intro j hj
            have hnext := hlink (j + 1) (by omega)
            have hplace : lo + (j + 1 : Nat) = lo + 1 + j := by omega
            rwa [hplace] at hnext
          · have hplace : lo + 1 + (n + 1 : Nat) - 1 = lo + (n + 1 + 1 : Nat) - 1 := by omega
            rwa [hplace]

end Foundations
end Xinu
