import Mathlib.Order.Basic

/-!
# Counted loops

`forRange lo hi body s` is the loop `for (i = lo; i < hi; i++)` on a state that the body
changes.

Main results:

- Theorem `forRange_inv`: an invariant that each turn carries from `i` to `i + 1` holds
  when the loop has ended.
- Theorem `forRange_at`: what a loop has done to the part of the state that only one of
  its turns changes.
-/

namespace Xinu
namespace Foundations

variable {σ β : Type}

/-- The turns `i`, `i + 1`, …, of which there are `n`. -/
def turns (body : Nat → σ → σ) : Nat → Nat → σ → σ
  | 0, _, s => s
  | n + 1, i, s => turns body n (i + 1) (body i s)

/-- The loop whose counter runs from `lo` up to `hi`, which it does not take. -/
def forRange (lo hi : Nat) (body : Nat → σ → σ) (s : σ) : σ :=
  turns body (hi - lo) lo s

theorem turns_inv {I : Nat → σ → Prop} {body : Nat → σ → σ} {n i : Nat} {s : σ} (h : I i s)
    (hbody : ∀ k s, i ≤ k → k < i + n → I k s → I (k + 1) (body k s)) :
    I (i + n) (turns body n i s) := by
  induction n generalizing i s with
  | zero => exact h
  | succ n ih =>
      have hnext : I (i + 1) (body i s) := hbody i s (Nat.le_refl i) (by omega) h
      have hrest := ih hnext fun k s hlo hhi => hbody k s (by omega) (by omega)
      rwa [Nat.add_right_comm] at hrest

/-- An invariant that may mention the counter. -/
theorem forRange_inv {I : Nat → σ → Prop} {lo hi : Nat} {body : Nat → σ → σ} {s : σ}
    (hle : lo ≤ hi) (h : I lo s)
    (hbody : ∀ k s, lo ≤ k → k < hi → I k s → I (k + 1) (body k s)) :
    I hi (forRange lo hi body s) := by
  have hend : lo + (hi - lo) = hi := Nat.add_sub_cancel' hle
  have hall := turns_inv (n := hi - lo) h fun k s hlo hhi => hbody k s hlo (by omega)
  rwa [hend] at hall

/-- A loop with an empty range. -/
theorem forRange_none {lo hi : Nat} (h : hi ≤ lo) (body : Nat → σ → σ) (s : σ) :
    forRange lo hi body s = s := by
  unfold forRange
  rw [Nat.sub_eq_zero_of_le h]
  rfl

/-- A part of the state that no turn changes. -/
theorem forRange_same (look : σ → β) {lo hi : Nat} {body : Nat → σ → σ}
    (hbody : ∀ k s, lo ≤ k → k < hi → look (body k s) = look s) (s : σ) :
    look (forRange lo hi body s) = look s := by
  rcases Nat.le_total lo hi with hle | hle
  · apply forRange_inv (I := fun _ t => look t = look s) hle rfl
    intro k t hlo hhi ih
    exact (hbody k t hlo hhi).trans ih
  · rw [forRange_none hle]

/-- A part of the state that the turn `x` sets to `b`, and no other turn changes. -/
theorem forRange_at (look : σ → β) {lo hi x : Nat} {body : Nat → σ → σ} {b : β}
    (hlo : lo ≤ x) (hhi : x < hi) (hx : ∀ s, look (body x s) = b)
    (hother : ∀ k s, k ≠ x → look (body k s) = look s) (s : σ) :
    look (forRange lo hi body s) = b := by
  have hinv : x < hi → look (forRange lo hi body s) = b := by
    apply forRange_inv (I := fun i t => x < i → look t = b) (by omega)
    · intro h
      omega
    · intro k t _ _ ih hk
      by_cases hkx : k = x
      · rw [hkx]
        exact hx t
      · rw [hother k t hkx]
        exact ih (by omega)
  exact hinv hhi

end Foundations
end Xinu
