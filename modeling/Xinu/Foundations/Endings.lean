import Mathlib.Logic.Basic

/-!
# Procedures that may stop the system

A procedure returns, or it stops the system with a message.  A loop that is still running
after as many turns as it was given has done neither.

Main results:

- Theorem `Ending.Meets.bind`: what procedures that follow each other do.
- Theorem `Ending.Matches.bind`: procedures that end alike, step by step.
- Theorem `whileDo_meets`: an invariant and a measure of a loop.
- Theorem `runAll_matches`: two systems that agree on each call agree on all of them.
-/

namespace Xinu
namespace Foundations

variable {α β γ δ σ : Type}

/-- How a procedure ends. -/
inductive Ending (α : Type)
  | returns (a : α)
  | panics (message : String)
  | unended
deriving DecidableEq, Repr

namespace Ending

def bind : Ending α → (α → Ending β) → Ending β
  | returns a, f => f a
  | panics message, _ => panics message
  | unended, _ => unended

instance : Monad Ending where
  pure := returns
  bind := bind

@[simp]
theorem pure_eq (a : α) : (pure a : Ending α) = returns a :=
  rfl

@[simp]
theorem returns_bind (a : α) (f : α → Ending β) : returns a >>= f = f a :=
  rfl

@[simp]
theorem panics_bind (message : String) (f : α → Ending β) :
    panics message >>= f = panics message :=
  rfl

/-- The procedure ends, as `P` says of what it returns and `Q` of its message. -/
inductive Meets (P : α → Prop) (Q : String → Prop) : Ending α → Prop
  | returns {a : α} (h : P a) : Meets P Q (returns a)
  | panics {message : String} (h : Q message) : Meets P Q (panics message)

/-- Both procedures end in the same way. -/
inductive Matches (R : α → β → Prop) : Ending α → Ending β → Prop
  | returns {a : α} {b : β} (h : R a b) : Matches R (returns a) (returns b)
  | panics (message : String) : Matches R (panics message) (panics message)

section Meets

variable {P P' : α → Prop} {P₂ : β → Prop} {Q Q' : String → Prop} {x : Ending α}
  {f : α → Ending β}

theorem Meets.bind (h : x.Meets P Q) (hf : ∀ a, P a → (f a).Meets P₂ Q) :
    (x >>= f).Meets P₂ Q := by
  cases h with
  | returns h => exact hf _ h
  | panics h => exact .panics h

theorem Meets.mono (h : x.Meets P Q) (hP : ∀ a, P a → P' a) (hQ : ∀ m, Q m → Q' m) :
    x.Meets P' Q' := by
  cases h with
  | returns h => exact .returns (hP _ h)
  | panics h => exact .panics (hQ _ h)

/-- A procedure that goes on as another one ends. -/
theorem Meets.bind_matches {R : β → γ → Prop} {y : Ending γ} (h : x.Meets P Q)
    (hf : ∀ a, P a → (f a).Matches R y) (hQ : ∀ m, Q m → y = .panics m) :
    (x >>= f).Matches R y := by
  cases h with
  | returns h => exact hf _ h
  | panics h =>
      rw [hQ _ h]
      exact .panics _

end Meets

section Matches

variable {R : α → β → Prop} {S : γ → δ → Prop} {x : Ending α} {y : Ending β}
  {f : α → Ending γ} {g : β → Ending δ}

theorem Matches.returns_eq {b : β} (h : x.Matches R (.returns b)) :
    ∃ a, x = .returns a ∧ R a b := by
  cases h with
  | returns h => exact ⟨_, rfl, h⟩

theorem Matches.bind (h : x.Matches R y) (hf : ∀ a b, R a b → (f a).Matches S (g b)) :
    (x >>= f).Matches S (y >>= g) := by
  cases h with
  | returns h => exact hf _ _ h
  | panics message => exact .panics message

theorem Matches.mono {R' : α → β → Prop} (h : x.Matches R y) (hR : ∀ a b, R a b → R' a b) :
    x.Matches R' y := by
  cases h with
  | returns h => exact .returns (hR _ _ h)
  | panics message => exact .panics message

/-- What both procedures return looks the same. -/
theorem Matches.map_eq {f : α → γ} {g : β → γ} (h : x.Matches R y)
    (hR : ∀ a b, R a b → f a = g b) : f <$> x = g <$> y := by
  cases h with
  | returns h => exact congrArg Ending.returns (hR _ _ h)
  | panics message => rfl

theorem Matches.meets {P : β → Prop} {Q : String → Prop} (h : x.Matches R y) (hy : y.Meets P Q) :
    x.Meets (fun a => ∃ b, R a b ∧ P b) Q := by
  cases h with
  | returns h =>
      cases hy with
      | returns hP => exact .returns ⟨_, h, hP⟩
  | panics message =>
      cases hy with
      | panics hQ => exact .panics hQ

end Matches
end Ending

/-! ## Loops -/

/-- `while (cond) body`, for fewer than `n` turns. -/
def whileDo (cond : σ → Bool) (body : σ → Ending σ) : Nat → σ → Ending σ
  | 0, _ => .unended
  | n + 1, s => if cond s then body s >>= whileDo cond body n else .returns s

/-- A loop that keeps an invariant and lowers a measure. -/
theorem whileDo_meets {cond : σ → Bool} {body : σ → Ending σ} {I : σ → Prop} {Q : String → Prop}
    (measure : σ → Nat)
    (hbody : ∀ s, I s → cond s = true → (body s).Meets (fun t => I t ∧ measure t < measure s) Q)
    {n : Nat} {s : σ} (h : I s) (hn : measure s < n) :
    (whileDo cond body n s).Meets (fun t => I t ∧ cond t = false) Q := by
  induction n generalizing s with
  | zero => exact absurd hn (Nat.not_lt_zero _)
  | succ n ih =>
      unfold whileDo
      by_cases hcond : cond s = true
      · rw [if_pos hcond]
        apply (hbody s h hcond).bind
        rintro t ⟨ht, hless⟩
        exact ih ht (by omega)
      · rw [if_neg hcond]
        exact .returns ⟨h, Bool.eq_false_iff.mpr hcond⟩

/-! ## Calls one after another -/

/-- Execute the calls, and collect what they return. -/
def runAll {κ ρ : Type} (exec : κ → σ → Ending (ρ × σ)) : List κ → σ → Ending (List ρ × σ)
  | [], s => .returns ([], s)
  | c :: cs, s =>
      exec c s >>= fun r => runAll exec cs r.2 >>= fun rs => .returns (r.1 :: rs.1, rs.2)

theorem runAll_cons {κ ρ : Type} (exec : κ → σ → Ending (ρ × σ)) (c : κ) (cs : List κ) (s : σ) :
    runAll exec (c :: cs) s = exec c s >>= fun r => runAll exec cs r.2 >>= fun rs =>
      .returns (r.1 :: rs.1, rs.2) :=
  rfl

/-- The first call returns. -/
theorem runAll_returns {κ ρ : Type} {exec : κ → σ → Ending (ρ × σ)} {c : κ} {x : ρ} {s t : σ}
    (h : exec c s = .returns (x, t)) (cs : List κ) : runAll exec (c :: cs) s =
      runAll exec cs t >>= fun rs => .returns (x :: rs.1, rs.2) := by
  rw [runAll_cons, h]
  rfl

/-- Calls of which each one ends. -/
theorem runAll_meets {κ ρ : Type} {exec : κ → σ → Ending (ρ × σ)} {Q : String → Prop}
    (hexec : ∀ c s, (exec c s).Meets (fun _ => True) Q) (cs : List κ) (s : σ) :
    (runAll exec cs s).Meets (fun _ => True) Q := by
  induction cs generalizing s with
  | nil => exact .returns trivial
  | cons c cs ih =>
      apply (hexec c s).bind
      intro r _
      exact (ih r.2).bind fun _ _ => .returns trivial

/-- Two systems that agree on each call agree on all of them. -/
theorem runAll_matches {κ ρ τ : Type} {exec : κ → σ → Ending (ρ × σ)}
    {exec' : κ → τ → Ending (ρ × τ)} {R : σ → τ → Prop}
    (hexec : ∀ c s t, R s t → (exec c s).Matches (fun r r' => r.1 = r'.1 ∧ R r.2 r'.2) (exec' c t))
    (cs : List κ) {s : σ} {t : τ} (h : R s t) :
    (runAll exec cs s).Matches (fun r r' => r.1 = r'.1 ∧ R r.2 r'.2) (runAll exec' cs t) := by
  induction cs generalizing s t with
  | nil => exact .returns ⟨rfl, h⟩
  | cons c cs ih =>
      apply (hexec c s t h).bind
      rintro r r' ⟨hr, hrel⟩
      apply (ih hrel).bind
      rintro rs rs' ⟨hrs, hrel'⟩
      refine .returns ⟨?_, hrel'⟩
      rw [hr, hrs]

end Foundations
end Xinu
