import Mathlib.Data.Int.Order.Basic
import Mathlib.Data.List.Nodup
import Mathlib.Tactic.Ring

/-!
# Searching a table from a cursor

A table of `n` slots is searched for a free one.  The search starts where the last one
ended, and goes on with the first slot after the last.

Main results:

- Theorem `rotate_some`: what is found was free.
- Theorem `rotate_eq_none_iff`: nothing is found if and only if no slot is free.
- Theorem `sweep_whole`: where a loop stops that keeps its cursor.
- Theorems `looked_nodup` and `count_looked`: a search looks at no slot twice, and one that
  fails looks at every slot once.
-/

namespace Xinu
namespace Foundations

/-- The first free slot from the cursor `c` on, with so many slots left to try. -/
def rotate (free : Int → Bool) (n : Int) : Nat → Int → Option Int
  | 0, _ => none
  | i + 1, c => if free (c % n) then some (c % n) else rotate free n i (c % n + 1)

section

variable {free : Int → Bool} {n c x : Int} {i : Nat}

/-- The cursor counts modulo the size of the table. -/
theorem rotate_emod : rotate free n i (c % n) = rotate free n i c := by
  cases i with
  | zero => rfl
  | succ i => rw [rotate, rotate, Int.emod_emod_of_dvd c (dvd_refl n)]

theorem rotate_some (hn : 0 < n) (h : rotate free n i c = some x) :
    0 ≤ x ∧ x < n ∧ free x = true := by
  induction i generalizing c with
  | zero => simp [rotate] at h
  | succ i ih =>
      rw [rotate] at h
      split at h
      · next hfree =>
          cases h
          exact ⟨Int.emod_nonneg c (by omega), Int.emod_lt_of_pos c hn, hfree⟩
      · exact ih h

/-- A search that fails has seen the slots from the cursor on. -/
theorem rotate_none (h : rotate free n i c = none) :
    ∀ j : Nat, j < i → free ((c + j) % n) = false := by
  induction i generalizing c with
  | zero =>
      intro j hj
      omega
  | succ i ih =>
      rw [rotate] at h
      split at h
      · cases h
      · next hfree =>
          intro j hj
          cases j with
          | zero =>
              rw [Nat.cast_zero, Int.add_zero]
              exact Bool.eq_false_iff.mpr hfree
          | succ j =>
              have hrest := ih h j (by omega)
              have hsum : c % n + 1 + (j : Int) = c % n + ((j + 1 : Nat) : Int) := by
                rw [Nat.cast_succ]
                ring
              rw [hsum, Int.emod_add_emod] at hrest
              exact hrest

/-- The whole table is searched. -/
theorem rotate_eq_none_iff (hn : 0 < n) :
    rotate free n n.toNat c = none ↔ ∀ x, 0 ≤ x → x < n → free x = false := by
  constructor
  · intro h x hlow hhigh
    have hseen := rotate_none h ((x - c) % n).toNat (by
      have hlt := Int.emod_lt_of_pos (x - c) hn
      have hnonneg := Int.emod_nonneg (x - c) (by omega : n ≠ 0)
      omega)
    rw [Int.toNat_of_nonneg (Int.emod_nonneg (x - c) (by omega)), Int.add_emod_emod] at hseen
    have hsum : c + (x - c) = x := by ring
    rw [hsum, Int.emod_eq_of_lt hlow hhigh] at hseen
    exact hseen
  · intro h
    cases hr : rotate free n n.toNat c with
    | none => rfl
    | some x =>
        obtain ⟨hlow, hhigh, hfree⟩ := rotate_some hn hr
        rw [h x hlow hhigh] at hfree
        contradiction

/-- A cursor that returns to zero at the end of the table. -/
theorem rotate_wrap (hlow : 0 ≤ c) (hhigh : c < n) :
    rotate free n (i + 1) c = if free c then some c
      else rotate free n i (if c + 1 ≥ n then 0 else c + 1) := by
  rw [rotate, Int.emod_eq_of_lt hlow hhigh]
  by_cases hwrap : c + 1 ≥ n
  · have heq : c + 1 = n := by omega
    have hzero : rotate free n i (c + 1) = rotate free n i 0 := by
      rw [← rotate_emod, heq, Int.emod_self]
    rw [if_pos hwrap, hzero]
  · rw [if_neg hwrap]

/-! ## A loop that leaves its cursor -/

/-- The cursor of a loop that stops at a free slot. -/
def sweep (free : Int → Bool) (n : Int) : Nat → Int → Int
  | 0, c => c
  | i + 1, c => if free c then c else sweep free n i (if c + 1 ≥ n then 0 else c + 1)

theorem wrap_range (hlow : 0 ≤ c) (hhigh : c < n) :
    0 ≤ (if c + 1 ≥ n then 0 else c + 1) ∧ (if c + 1 ≥ n then 0 else c + 1) < n := by
  split
  · exact ⟨Int.le_refl 0, by omega⟩
  · exact ⟨by omega, by omega⟩

variable (free) in
theorem sweep_range (hlow : 0 ≤ c) (hhigh : c < n) :
    0 ≤ sweep free n i c ∧ sweep free n i c < n := by
  induction i generalizing c with
  | zero => exact ⟨hlow, hhigh⟩
  | succ i ih =>
      rw [sweep]
      split
      · exact ⟨hlow, hhigh⟩
      · exact ih (wrap_range hlow hhigh).1 (wrap_range hlow hhigh).2

/-- The cursor stops where the search finds a slot. -/
theorem sweep_of_some (hlow : 0 ≤ c) (hhigh : c < n) (h : rotate free n i c = some x) :
    sweep free n i c = x := by
  induction i generalizing c with
  | zero => cases h
  | succ i ih =>
      rw [rotate_wrap hlow hhigh] at h
      rw [sweep]
      split
      · next hfree =>
          rw [if_pos hfree] at h
          exact Option.some.inj h
      · next hfree =>
          rw [if_neg hfree] at h
          exact ih (wrap_range hlow hhigh).1 (wrap_range hlow hhigh).2 h

/-- Otherwise it moves on by one slot for each that it tries. -/
theorem sweep_of_none (hlow : 0 ≤ c) (hhigh : c < n) (h : rotate free n i c = none) :
    sweep free n i c = (c + i) % n := by
  induction i generalizing c with
  | zero =>
      rw [Nat.cast_zero, Int.add_zero, Int.emod_eq_of_lt hlow hhigh]
      rfl
  | succ i ih =>
      rw [rotate_wrap hlow hhigh] at h
      rw [sweep]
      split
      · next hfree =>
          rw [if_pos hfree] at h
          contradiction
      · next hfree =>
          rw [if_neg hfree] at h
          rw [ih (wrap_range hlow hhigh).1 (wrap_range hlow hhigh).2 h]
          split
          · have hend : c + 1 = n := by omega
            have hsum : c + ((i + 1 : Nat) : Int) = i + n := by
              rw [Nat.cast_succ]
              omega
            rw [hsum, Int.zero_add, Int.add_emod_right]
          · congr 1
            rw [Nat.cast_succ]
            ring

variable (free) in
/-- A search of the whole table stops at a free slot, or where it began. -/
theorem sweep_whole (hlow : 0 ≤ c) (hhigh : c < n) :
    free (sweep free n n.toNat c) = true ∨
      sweep free n n.toNat c = c ∧ ∀ x, 0 ≤ x → x < n → free x = false := by
  cases hr : rotate free n n.toNat c with
  | some x =>
      left
      rw [sweep_of_some hlow hhigh hr]
      exact (rotate_some (by omega) hr).2.2
  | none =>
      right
      refine ⟨?_, (rotate_eq_none_iff (by omega)).mp hr⟩
      rw [sweep_of_none hlow hhigh hr, Int.toNat_of_nonneg (by omega), Int.add_emod_right,
        Int.emod_eq_of_lt hlow hhigh]

/-! ## What a search looks at -/

/-- So many slots from the cursor on. -/
def tour (n : Int) (i : Nat) (c : Int) : List Int :=
  (List.range i).map fun (j : Nat) => (c + j) % n

/-- The slots that the search looks at, in order. -/
def looked (free : Int → Bool) (n : Int) : Nat → Int → List Int
  | 0, _ => []
  | i + 1, c => c % n :: if free (c % n) then [] else looked free n i (c % n + 1)

theorem tour_succ : tour n (i + 1) c = c % n :: tour n i (c % n + 1) := by
  unfold tour
  rw [List.range_succ_eq_map, List.map_cons, List.map_map, Nat.cast_zero, Int.add_zero]
  congr 1
  apply List.map_congr_left
  intro j _
  have hsum : c % n + 1 + (j : Int) = c % n + ((j + 1 : Nat) : Int) := by
    rw [Nat.cast_succ]
    ring
  rw [hsum, Int.emod_add_emod]
  rfl

/-- The table is not gone around more than once. -/
theorem tour_nodup (hi : (i : Int) ≤ n) : (tour n i c).Nodup := by
  apply List.Nodup.map_on _ List.nodup_range
  intro j hj k hk heq
  rw [List.mem_range] at hj hk
  have hdvd : n ∣ (j : Int) - k := by
    have hdvd := Int.dvd_of_emod_eq_zero (Int.emod_eq_emod_iff_emod_sub_eq_zero.mp heq)
    have hdiff : c + (j : Int) - (c + k) = j - k := by ring
    rwa [hdiff] at hdvd
  have hzero := Int.eq_zero_of_abs_lt_dvd hdvd (by rw [abs_lt]; omega)
  omega

theorem mem_tour_whole (hn : 0 < n) : x ∈ tour n n.toNat c ↔ 0 ≤ x ∧ x < n := by
  unfold tour
  rw [List.mem_map]
  constructor
  · rintro ⟨j, -, rfl⟩
    exact ⟨Int.emod_nonneg _ (by omega), Int.emod_lt_of_pos _ hn⟩
  · rintro ⟨hlow, hhigh⟩
    have hnonneg := Int.emod_nonneg (x - c) (by omega : n ≠ 0)
    have hlt := Int.emod_lt_of_pos (x - c) hn
    refine ⟨((x - c) % n).toNat, List.mem_range.mpr (by omega), ?_⟩
    have hsum : c + (x - c) = x := by ring
    rw [Int.toNat_of_nonneg hnonneg, Int.add_emod_emod, hsum, Int.emod_eq_of_lt hlow hhigh]

variable (free) in
/-- The search looks at the slots in their order, as far as it goes. -/
theorem looked_initial : looked free n i c <+: tour n i c := by
  induction i generalizing c with
  | zero => exact List.nil_prefix
  | succ i ih =>
      rw [looked, tour_succ, List.prefix_cons_inj]
      split
      · exact List.nil_prefix
      · exact ih

theorem looked_of_none (h : rotate free n i c = none) : looked free n i c = tour n i c := by
  induction i generalizing c with
  | zero => rfl
  | succ i ih =>
      rw [rotate] at h
      rw [looked, tour_succ]
      split at h
      · cases h
      · next hfree => rw [if_neg hfree, ih h]

variable (free c) in
/-- No slot is looked at twice. -/
theorem looked_nodup (hi : (i : Int) ≤ n) : (looked free n i c).Nodup :=
  (tour_nodup hi).sublist (looked_initial free).sublist

theorem looked_range (hn : 0 < n) (hx : x ∈ looked free n n.toNat c) : 0 ≤ x ∧ x < n :=
  (mem_tour_whole hn).mp ((looked_initial free).mem hx)

/-- A search that fails has looked at every slot once. -/
theorem count_looked (h : rotate free n n.toNat c = none) (hlow : 0 ≤ x) (hhigh : x < n) :
    (looked free n n.toNat c).count x = 1 := by
  rw [looked_of_none h]
  have hn : 0 < n := by omega
  exact List.count_eq_one_of_mem (tour_nodup (by omega)) ((mem_tour_whole hn).mpr ⟨hlow, hhigh⟩)

/-- A search by a cursor that returns to zero at the end of the table. -/
theorem looked_wrap (hlow : 0 ≤ c) (hhigh : c < n) :
    looked free n (i + 1) c = c :: if free c then []
      else looked free n i (if c + 1 ≥ n then 0 else c + 1) := by
  rw [looked, Int.emod_eq_of_lt hlow hhigh]
  by_cases hwrap : c + 1 ≥ n
  · have heq : c + 1 = n := by omega
    have hzero : looked free n i (c + 1) = looked free n i 0 := by
      cases i with
      | zero => rfl
      | succ i => rw [looked, looked, heq, Int.emod_self, Int.zero_emod]
    rw [if_pos hwrap, hzero]
  · rw [if_neg hwrap]

end

end Foundations
end Xinu
