import Mathlib.Data.List.Basic

/-!
# Sequences of calls

A component without concurrency is used by one call after another.  A call has a result and
leaves another state.

Main results:

- Theorem `Calls.invariant`: what each call keeps holds after every sequence of calls.
- Theorem `runCalls_calls`: a list of calls that is executed is a sequence of calls.
- Theorem `results_eq_iff`: two components give the same results as long as each call is one
  on which they agree.
-/

namespace Xinu
namespace Foundations

variable {σ κ ρ : Type}

/-- The sequences of calls that satisfy the rule, with their results, and the states to which
they lead. -/
inductive Calls (exec : κ → σ → ρ × σ) (rule : σ → κ → Prop) (s₀ : σ) :
    List (κ × ρ) → σ → Prop
  | start : Calls exec rule s₀ [] s₀
  | call {tr : List (κ × ρ)} {s : σ} {c : κ} (h : Calls exec rule s₀ tr s) (hrule : rule s c) :
      Calls exec rule s₀ (tr ++ [(c, (exec c s).1)]) (exec c s).2

section Calls

variable {exec : κ → σ → ρ × σ} {rule rule' : σ → κ → Prop} {s₀ s : σ} {tr : List (κ × ρ)}

/-- What holds at the start and is kept by each call. -/
theorem Calls.invariant {P : List (κ × ρ) → σ → Prop} (hstart : P [] s₀)
    (hcall : ∀ tr s c, P tr s → rule s c → P (tr ++ [(c, (exec c s).1)]) (exec c s).2)
    (h : Calls exec rule s₀ tr s) : P tr s := by
  induction h with
  | start => exact hstart
  | call _ hrule ih => exact hcall _ _ _ ih hrule

theorem Calls.mono (hrule : ∀ s c, rule s c → rule' s c) (h : Calls exec rule s₀ tr s) :
    Calls exec rule' s₀ tr s := by
  induction h with
  | start => exact .start
  | call _ hr ih => exact .call ih (hrule _ _ hr)

/-- Execute the calls as long as they satisfy the rule. -/
def runCalls (exec : κ → σ → ρ × σ) (rule : σ → κ → Prop) [∀ s c, Decidable (rule s c)] :
    List κ → List (κ × ρ) → σ → Option (List (κ × ρ) × σ)
  | [], tr, s => some (tr, s)
  | c :: cs, tr, s =>
      if rule s c then
        runCalls exec rule cs (tr ++ [(c, (exec c s).1)]) (exec c s).2
      else
        none

theorem runCalls_calls [∀ s c, Decidable (rule s c)] {cs : List κ} {tr' : List (κ × ρ)} {s' : σ}
    (h : Calls exec rule s₀ tr s) (hrun : runCalls exec rule cs tr s = some (tr', s')) :
    Calls exec rule s₀ tr' s' := by
  induction cs generalizing tr s with
  | nil =>
      cases hrun
      exact h
  | cons c cs ih =>
      rw [runCalls] at hrun
      split at hrun
      · next hr => exact ih (.call h hr) hrun
      · contradiction

end Calls

/-! ## Two components -/

/-- The results of a list of calls. -/
def results (exec : κ → σ → ρ × σ) : List κ → σ → List ρ
  | [], _ => []
  | c :: cs, s => (exec c s).1 :: results exec cs (exec c s).2

/-- Each of the calls satisfies `p` in the state in which it is made. -/
def Along (exec : κ → σ → ρ × σ) (p : σ → κ → Prop) : List κ → σ → Prop
  | [], _ => True
  | c :: cs, s => p s c ∧ Along exec p cs (exec c s).2

instance Along.decidable (exec : κ → σ → ρ × σ) (p : σ → κ → Prop)
    [∀ s c, Decidable (p s c)] : ∀ cs s, Decidable (Along exec p cs s)
  | [], _ => instDecidableTrue
  | c :: cs, s =>
      have := Along.decidable exec p cs (exec c s).2
      inferInstanceAs (Decidable (_ ∧ _))

section Results

variable {τ : Type} {exec : κ → σ → ρ × σ} {exec' : κ → τ → ρ × τ}

/-- Both components execute each call; the result is the one of the first. -/
def both (exec : κ → σ → ρ × σ) (exec' : κ → τ → ρ × τ) (c : κ) (x : σ × τ) : ρ × (σ × τ) :=
  ((exec c x.1).1, (exec c x.1).2, (exec' c x.2).2)

/--
States that are related stay related by the calls that are good, on which the two components
agree; on the others they do not agree.  Then the results of a list of calls are the same if
and only if all of its calls are good.
-/
theorem results_eq_iff {R : σ → τ → Prop} {dom : σ × τ → κ → Prop} {good : τ → κ → Prop}
    (hgood : ∀ s t c, R s t → dom (s, t) c → good t c →
      (exec c s).1 = (exec' c t).1 ∧ R (exec c s).2 (exec' c t).2)
    (hbad : ∀ s t c, R s t → dom (s, t) c → ¬ good t c → (exec c s).1 ≠ (exec' c t).1)
    {cs : List κ} {s : σ} {t : τ} (hR : R s t)
    (hdom : Along (both exec exec') dom cs (s, t)) :
    results exec cs s = results exec' cs t ↔ Along exec' good cs t := by
  induction cs generalizing s t with
  | nil => exact iff_of_true rfl trivial
  | cons c cs ih =>
      obtain ⟨hc, hcs⟩ := hdom
      unfold results Along
      rw [List.cons_eq_cons]
      by_cases hg : good t c
      · obtain ⟨hres, hR'⟩ := hgood s t c hR hc hg
        rw [ih hR' hcs]
        exact and_congr_left fun _ => iff_of_true hres hg
      · have hne := hbad s t c hR hc hg
        exact iff_of_false (fun h => hne h.1) fun h => hg h.1

end Results

end Foundations
end Xinu
