import Xinu.Foundations.CooperativeFlow

/-!
# Return paths

What holds on every path on which a procedure returns to its caller.  Where it gives
the processor away, any state may follow in which the processor comes back; a relation
`g` says which these are.

Main results:

- Theorem `Flow.returns_bind`: the paths of a sequence are those of its parts.
- Theorem `Flow.Finishes.never_returns`: an execution that can be made to finish badly
  is not right on every path, unless it has no path at all.
- Theorem `Flow.atOnce_bind`: a sequence does not give the processor away if none of its
  parts does.
-/

namespace Xinu
namespace Foundations

variable {σ τ α β : Type}

/-- Every path on which the execution returns ends in a result and a state that satisfy
`post`. -/
def Flow.Returns (g : σ → σ → Prop) (post : α → σ → Prop) : Flow σ α → Prop
  | .done a s => post a s
  | .suspended s k => ∀ s', g s s' → (k s').Returns g post
  | .halted _ => True
  | .stuck => True

section Returns

variable {g : σ → σ → Prop} {post post' : α → σ → Prop} {x : Flow σ α} {f : α → Coop σ β}

theorem Flow.Returns.mono (hx : x.Returns g post) (h : ∀ a s, post a s → post' a s) :
    x.Returns g post' := by
  induction x with
  | done a s => exact h a s hx
  | suspended s k ih => exact fun s' hs' => ih s' (hx s' hs')
  | halted s => trivial
  | stuck => trivial

theorem Flow.Returns.and (hx : x.Returns g post) (hx' : x.Returns g post') :
    x.Returns g fun a s => post a s ∧ post' a s := by
  induction x with
  | done a s => exact ⟨hx, hx'⟩
  | suspended s k ih => exact fun s' hs' => ih s' (hx s' hs') (hx' s' hs')
  | halted s => trivial
  | stuck => trivial

/-- The execution has a path on which it returns `a` in state `t`. -/
def Flow.Reaches (g : σ → σ → Prop) (a : α) (t : σ) : Flow σ α → Prop
  | .done b s => b = a ∧ s = t
  | .suspended s k => ∃ s', g s s' ∧ (k s').Reaches g a t
  | .halted _ => False
  | .stuck => False

/-- What holds on every path holds on one. -/
theorem Flow.Returns.reaches {a : α} {t : σ} (hx : x.Returns g post) (h : x.Reaches g a t) :
    post a t := by
  induction x with
  | done b s =>
      rcases h with ⟨rfl, rfl⟩
      exact hx
  | suspended s k ih =>
      rcases h with ⟨s', hs', hrest⟩
      exact ih s' (hx s' hs') hrest
  | halted s => exact h.elim
  | stuck => exact h.elim

/-- Run an execution with the changes that are made while the processor is given away,
one for each time. -/
def Flow.feed : List (σ → σ) → Flow σ α → Option (α × σ)
  | _, .done a s => some (a, s)
  | move :: moves, .suspended s k => (k (move s)).feed moves
  | _, _ => none

/-- What is computed so is on a path. -/
theorem Flow.reaches_of_feed {moves : List (σ → σ)} {x : Flow σ α} {a : α} {t : σ}
    (hg : ∀ move ∈ moves, ∀ s, g s (move s)) (h : x.feed moves = some (a, t)) :
    x.Reaches g a t := by
  induction moves generalizing x with
  | nil =>
      cases x with
      | done b s =>
          cases h
          exact ⟨rfl, rfl⟩
      | suspended s k => contradiction
      | halted s => contradiction
      | stuck => contradiction
  | cons move moves ih =>
      cases x with
      | done b s =>
          cases h
          exact ⟨rfl, rfl⟩
      | suspended s k =>
          have hrest := ih (fun m hm => hg m (List.mem_cons_of_mem move hm)) h
          exact ⟨move s, hg move (by simp) s, hrest⟩
      | halted s => contradiction
      | stuck => contradiction

theorem Flow.returns_bind {post : β → σ → Prop} :
    (x.bind f).Returns g post ↔ x.Returns g fun a s => (f a s).Returns g post := by
  induction x with
  | done a s => exact Iff.rfl
  | suspended s k ih =>
      constructor
      · exact fun h s' hs' => (ih s').mp (h s' hs')
      · exact fun h s' hs' => (ih s').mpr (h s' hs')
  | halted s => exact Iff.rfl
  | stuck => exact Iff.rfl

end Returns

/-! ## Finishing at once -/

/-- The execution does not stop the machine.  It returns as `post` says, or does not
return at all; but where it gives the processor away and is `back`, it then returns
without giving the processor away again, as `post'` says. -/
def Flow.Finishes (back : σ → σ → Prop) (post post' : α → σ → Prop) : Flow σ α → Prop
  | .done a s => post a s
  | .suspended s k => ∀ s', back s s' → ∃ a t, k s' = .done a t ∧ post' a t
  | .halted _ => False
  | .stuck => True

section Finishes

variable {g back : σ → σ → Prop} {post post' : α → σ → Prop} {x : Flow σ α} {f : α → Coop σ β}

theorem Flow.Finishes.mono {q q' : α → σ → Prop} (hx : x.Finishes back post post')
    (h : ∀ a s, post a s → q a s) (h' : ∀ a s, post' a s → q' a s) : x.Finishes back q q' := by
  cases x with
  | done a s => exact h a s hx
  | suspended s k =>
      intro s' hs'
      rcases hx s' hs' with ⟨a, t, hrun, hpost⟩
      exact ⟨a, t, hrun, h' a t hpost⟩
  | halted s => exact hx.elim
  | stuck => trivial

theorem Flow.Finishes.bind {q q' : β → σ → Prop} (hx : x.Finishes back post post')
    (hf : ∀ a s, post a s → (f a s).Finishes back q q')
    (hf' : ∀ a s, post' a s → ∃ b t, f a s = .done b t ∧ q' b t) :
    (x.bind f).Finishes back q q' := by
  cases x with
  | done a s => exact hf a s hx
  | suspended s k =>
      intro s' hs'
      rcases hx s' hs' with ⟨a, t, hrun, hpost⟩
      rcases hf' a t hpost with ⟨b, u, hrun', hq⟩
      refine ⟨b, u, ?_, hq⟩
      show (k s').bind f = _
      rw [hrun, Flow.bind_done, hrun']
  | halted s => exact hx.elim
  | stuck => trivial

/-- An execution that can be made to finish with `post` false is not right on every path,
unless it has none. -/
theorem Flow.Finishes.never_returns {good : α → σ → Prop} (hx : x.Finishes back post post')
    (hback : ∀ s, ∃ s', back s s') (hg : ∀ s s', back s s' → g s s')
    (hpost : ∀ a s, post a s → ¬ good a s) (hpost' : ∀ a s, post' a s → ¬ good a s)
    (hgood : x.Returns g good) : x.Returns g fun _ _ => False := by
  cases x with
  | done a s => exact hpost a s hx hgood
  | suspended s k =>
      rcases hback s with ⟨s', hs'⟩
      rcases hx s' hs' with ⟨a, t, hrun, hend⟩
      have hgood := hgood s' (hg s s' hs')
      rw [hrun] at hgood
      exact (hpost' a t hend hgood).elim
  | halted s => exact hx.elim
  | stuck => trivial

/-- An execution of a component, seen in the whole state. -/
theorem Flow.Finishes.zoom {look : τ → σ} {put : τ → σ → τ} {back' : τ → τ → Prop} {u : τ}
    (hx : x.Finishes back post post') (hback : ∀ s u', back' (put u s) u' → back s (look u')) :
    (x.zoom look put u).Finishes back' (fun a u' => ∃ s, u' = put u s ∧ post a s)
      fun a u' => ∃ s u₁ s₁, back' (put u s) u₁ ∧ u' = put u₁ s₁ ∧ post' a s₁ := by
  cases x with
  | done a s => exact ⟨s, rfl, hx⟩
  | suspended s k =>
      intro u₁ hu₁
      rcases hx (look u₁) (hback s u₁ hu₁) with ⟨a, s₁, hrun, hpost⟩
      refine ⟨a, put u₁ s₁, ?_, s, u₁, s₁, hu₁, rfl, hpost⟩
      show (k (look u₁)).zoom look put u₁ = _
      rw [hrun, Flow.zoom_done]
  | halted s => exact hx.elim
  | stuck => trivial

end Finishes

/-! ## Not giving the processor away -/

/-- The execution does not give the processor away; if it returns, then as `post` says. -/
def Flow.AtOnce (post : α → σ → Prop) : Flow σ α → Prop
  | .done a s => post a s
  | .suspended _ _ => False
  | .halted _ => True
  | .stuck => True

section AtOnce

variable {post post' : α → σ → Prop} {x : Flow σ α} {f : α → Coop σ β}

theorem Flow.AtOnce.mono (hx : x.AtOnce post) (h : ∀ a s, post a s → post' a s) :
    x.AtOnce post' := by
  cases x with
  | done a s => exact h a s hx
  | suspended s k => exact hx
  | halted s => trivial
  | stuck => trivial

theorem Flow.atOnce_bind {post : β → σ → Prop} :
    (x.bind f).AtOnce post ↔ x.AtOnce fun a s => (f a s).AtOnce post := by
  cases x with
  | done a s => exact Iff.rfl
  | suspended s k => exact Iff.rfl
  | halted s => exact Iff.rfl
  | stuck => exact Iff.rfl

theorem Flow.atOnce_zoom {look : τ → σ} {put : τ → σ → τ} {u : τ} {post : α → τ → Prop} :
    (x.zoom look put u).AtOnce post ↔ x.AtOnce fun a s => post a (put u s) := by
  cases x with
  | done a s => exact Iff.rfl
  | suspended s k => exact Iff.rfl
  | halted s => exact Iff.rfl
  | stuck => exact Iff.rfl

end AtOnce

end Foundations
end Xinu
