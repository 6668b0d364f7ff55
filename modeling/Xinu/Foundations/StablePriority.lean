import Mathlib.Data.List.TakeWhile
import Mathlib.Order.Lattice

/-!
# Stable priority lists

The elements of a list in the order of their arrival are kept in a second list by
descending key, those with the same key in the order of their arrival.

Main results:

- Theorems `Ranked.insert` and `Ranked.filter`: arrivals and removals.
- Theorems `Ranked.earliest` and `Ranked.latest`: the elements at the two ends.
-/

namespace Xinu
namespace Foundations

variable {α κ : Type} [LinearOrder κ]

/-- Of the elements with the largest key, `x` arrived first. -/
def Earliest (key : α → κ) (l : List α) (x : α) : Prop :=
  ∃ before after, l = before ++ x :: after ∧ (∀ y ∈ before, key y < key x) ∧
    ∀ y ∈ after, key y ≤ key x

/-- Of the elements with the smallest key, `x` arrived last. -/
def Latest (key : α → κ) (l : List α) (x : α) : Prop :=
  ∃ before after, l = before ++ x :: after ∧ (∀ y ∈ before, key x ≤ key y) ∧
    ∀ y ∈ after, key x < key y

/-- The list `q` has the elements of `l` by descending key, and those with the same key in
the order of `l`. -/
structure Ranked (key : α → κ) (l q : List α) : Prop where
  sorted : q.Pairwise fun x y => key y ≤ key x
  stable : ∀ k, q.filter (fun x => decide (key x = k)) = l.filter fun x => decide (key x = k)

namespace Ranked

variable {key : α → κ} {l q : List α} {x : α}

theorem nil : Ranked key [] [] :=
  ⟨List.Pairwise.nil, fun _ => rfl⟩

theorem mem_iff (h : Ranked key l q) : x ∈ q ↔ x ∈ l := by
  have hmem : ∀ m : List α, x ∈ m.filter (fun y => decide (key y = key x)) ↔ x ∈ m := by
    intro m
    rw [List.mem_filter]
    simp
  rw [← hmem q, h.stable, hmem l]

theorem eq_nil (h : Ranked key l []) : l = [] := by
  cases l with
  | nil => rfl
  | cons y l =>
      have hy : y ∈ ([] : List α) := h.mem_iff.mpr (by simp)
      simp at hy

/-! ## Arrivals and removals -/

/-- Behind the elements with at least the key of `x`, all keys are smaller. -/
theorem lt_of_mem_dropWhile (h : q.Pairwise fun x y => key y ≤ key x) :
    ∀ y ∈ q.dropWhile (fun y => decide (key x ≤ key y)), key y < key x := by
  induction q with
  | nil => simp
  | cons z q ih =>
      obtain ⟨hz, hq⟩ := List.pairwise_cons.mp h
      by_cases hle : key x ≤ key z
      · rw [List.dropWhile_cons_of_pos (by simpa using hle)]
        exact ih hq
      · rw [List.dropWhile_cons_of_neg (by simpa using hle)]
        have hlt : key z < key x := not_le.mp hle
        intro y hy
        rcases List.mem_cons.mp hy with rfl | hy
        · exact hlt
        · exact lt_of_le_of_lt (hz y hy) hlt

/-- The new element goes behind those with at least its key. -/
theorem insert (h : Ranked key l q) (x : α) :
    Ranked key (l ++ [x]) (q.takeWhile (fun y => decide (key x ≤ key y)) ++
      x :: q.dropWhile fun y => decide (key x ≤ key y)) := by
  have hsplit := List.takeWhile_append_dropWhile (p := fun y => decide (key x ≤ key y)) (l := q)
  have hlow := lt_of_mem_dropWhile (x := x) h.sorted
  have hhigh : ∀ y ∈ q.takeWhile (fun y => decide (key x ≤ key y)), key x ≤ key y :=
    fun y hy => of_decide_eq_true (List.mem_takeWhile_imp (p := fun y => decide (key x ≤ key y)) hy)
  generalize q.takeWhile (fun y => decide (key x ≤ key y)) = a at hsplit hhigh ⊢
  generalize q.dropWhile (fun y => decide (key x ≤ key y)) = b at hsplit hlow ⊢
  have hsorted := h.sorted
  rw [← hsplit] at hsorted
  obtain ⟨ha, hb, hab⟩ := List.pairwise_append.mp hsorted
  constructor
  · refine List.pairwise_append.mpr ⟨ha, List.pairwise_cons.mpr ⟨fun y hy => (hlow y hy).le, hb⟩, ?_⟩
    intro y hy z hz
    rcases List.mem_cons.mp hz with rfl | hz
    · exact hhigh y hy
    · exact hab y hy z hz
  · intro k
    have hold := h.stable k
    rw [← hsplit, List.filter_append] at hold
    rw [List.filter_append, List.filter_append, ← hold]
    by_cases hk : key x = k
    · have hnone : b.filter (fun y => decide (key y = k)) = [] := by
        rw [List.filter_eq_nil_iff]
        intro y hy heq
        have hlt := hlow y hy
        rw [of_decide_eq_true heq, ← hk] at hlt
        exact lt_irrefl _ hlt
      rw [List.filter_cons_of_pos (by simpa using hk), hnone, List.append_nil,
        List.filter_cons_of_pos (by simpa using hk), List.filter_nil]
    · rw [List.filter_cons_of_neg (by simpa using hk), List.filter_cons_of_neg (by simpa using hk),
        List.filter_nil, List.append_nil]

/-- Removals leave the others in their order. -/
theorem filter (h : Ranked key l q) (p : α → Bool) : Ranked key (l.filter p) (q.filter p) := by
  constructor
  · exact h.sorted.filter p
  · intro k
    rw [List.filter_filter, List.filter_filter]
    have hswap : ∀ m : List α, m.filter (fun x => decide (key x = k) && p x) =
        (m.filter fun x => decide (key x = k)).filter p := by
      intro m
      rw [List.filter_filter]
      congr 1
      funext x
      exact Bool.and_comm _ _
    rw [hswap q, hswap l, h.stable]

/-! ## The two ends -/

theorem earliest (h : Ranked key l (x :: q)) : Earliest key l x := by
  have hfirst := h.stable (key x)
  rw [List.filter_cons_of_pos (by simp)] at hfirst
  obtain ⟨before, after, hl, hbefore, -, -⟩ := List.filter_eq_cons_iff.mp hfirst.symm
  have hle : ∀ y ∈ l, key y ≤ key x := by
    intro y hy
    rcases List.mem_cons.mp (h.mem_iff.mpr hy) with rfl | hy
    · exact le_refl _
    · exact (List.pairwise_cons.mp h.sorted).1 y hy
  refine ⟨before, after, hl, ?_, ?_⟩
  · intro y hy
    have hne : key y ≠ key x := by simpa using hbefore y hy
    exact lt_of_le_of_ne (hle y (by rw [hl]; simp [hy])) hne
  · intro y hy
    exact hle y (by rw [hl]; simp [hy])

theorem latest (h : Ranked key l (q ++ [x])) : Latest key l x := by
  have hlast := h.stable (key x)
  rw [List.filter_append, List.filter_cons_of_pos (by simp), List.filter_nil] at hlast
  obtain ⟨before, rest, hl, -, hrest⟩ := List.filter_eq_append_iff.mp hlast.symm
  obtain ⟨mid, after, hrest', -, -, hafter⟩ := List.filter_eq_cons_iff.mp hrest
  have hge : ∀ y ∈ l, key x ≤ key y := by
    intro y hy
    rcases List.mem_append.mp (h.mem_iff.mpr hy) with hy | hy
    · exact (List.pairwise_append.mp h.sorted).2.2 y hy x (by simp)
    · rw [List.mem_singleton.mp hy]
  refine ⟨before ++ mid, after, ?_, ?_, ?_⟩
  · rw [hl, hrest', List.append_assoc]
  · intro y hy
    apply hge
    rw [hl, hrest', ← List.append_assoc]
    exact List.mem_append_left _ hy
  · intro y hy
    have hne : key y ≠ key x := by
      have hnone := List.filter_eq_nil_iff.mp hafter y hy
      simpa using hnone
    exact lt_of_le_of_ne (hge y (by rw [hl, hrest']; simp [hy])) (Ne.symm hne)

end Ranked

end Foundations
end Xinu
