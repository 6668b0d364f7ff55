import Mathlib.Logic.Function.Basic
import Mathlib.Order.Defs.Unbundled

/-!
# Cooperative flows

A procedure that runs with interrupts disabled is a sequence of state changes
that is interrupted only where it gives the processor away itself.  A `Flow` is
one such execution: it ends, or it is suspended in some state together with the
rest of the procedure, or the machine stops, or a loop of it never returns.

Main results:

- Theorem `Flow.bind_assoc` and the `Coop.run_*` equations: the symbolic
  execution rules of the procedures.
- Theorems `Flow.zoom_done` and `Flow.zoom_suspended`: a procedure on a
  component of the state runs unchanged inside the whole state.
- Theorem `Coop.Within.bind` and the other rules for `Coop.Within`: what the
  parts of a procedure may change, the procedure may change.
-/

namespace Xinu
namespace Foundations

variable {σ τ α β γ : Type}

/-- One execution of a procedure over the states `σ`, with result in `α`. -/
inductive Flow (σ α : Type) where
  /-- The procedure returned `a` to its caller in state `s`. -/
  | done (a : α) (s : σ)
  /-- The processor was given away in state `s`; `k` is what remains to be run. -/
  | suspended (s : σ) (k : σ → Flow σ α)
  /-- The procedure stopped the machine in state `s`. -/
  | halted (s : σ)
  /-- A loop of the procedure does not end. -/
  | stuck

/-- A cooperative procedure: it maps the state it starts in to its execution. -/
def Coop (σ α : Type) : Type :=
  σ → Flow σ α

/-- Run a procedure on the result and the final state of an execution. -/
def Flow.bind : Flow σ α → (α → Coop σ β) → Flow σ β
  | .done a s, f => f a s
  | .suspended s k, f => .suspended s fun s' => (k s').bind f
  | .halted s, _ => .halted s
  | .stuck, _ => .stuck

instance : Monad (Coop σ) where
  pure a := fun s => .done a s
  bind x f := fun s => (x s).bind f

instance : MonadStateOf σ (Coop σ) where
  get := fun s => .done s s
  set s := fun _ => .done ⟨⟩ s
  modifyGet f := fun s => .done (f s).1 (f s).2

/-- The procedure that gives the processor away and returns when it is back. -/
def Coop.giveAway : Coop σ Unit :=
  fun s => .suspended s fun s' => .done () s'

/-- The procedure that stops the machine. -/
def Coop.halt : Coop σ α :=
  fun s => .halted s

/-- The procedure that never returns. -/
def Coop.diverge : Coop σ α :=
  fun _ => .stuck

/-! ## Symbolic execution -/

@[simp]
theorem Flow.bind_done (a : α) (s : σ) (f : α → Coop σ β) :
    (Flow.done a s).bind f = f a s :=
  rfl

@[simp]
theorem Flow.bind_suspended (s : σ) (k : σ → Flow σ α) (f : α → Coop σ β) :
    (Flow.suspended s k).bind f = .suspended s fun s' => (k s').bind f :=
  rfl

@[simp]
theorem Flow.bind_halted (s : σ) (f : α → Coop σ β) :
    (Flow.halted s).bind f = .halted s :=
  rfl

@[simp]
theorem Flow.bind_stuck (f : α → Coop σ β) :
    (Flow.stuck : Flow σ α).bind f = .stuck :=
  rfl

/-- Executions compose associatively. -/
theorem Flow.bind_assoc (x : Flow σ α) (f : α → Coop σ β) (g : β → Coop σ γ) :
    (x.bind f).bind g = x.bind fun a s => (f a s).bind g := by
  induction x with
  | done a s => rfl
  | suspended s k ih =>
      simp only [bind_suspended]
      exact congrArg _ (funext ih)
  | halted s => rfl
  | stuck => rfl

/-- Returning the result of an execution changes nothing. -/
theorem Flow.bind_pure (x : Flow σ α) : (x.bind fun a s => .done a s) = x := by
  induction x with
  | done a s => rfl
  | suspended s k ih => exact congrArg _ (funext ih)
  | halted s => rfl
  | stuck => rfl

@[simp]
theorem Coop.run_pure (a : α) (s : σ) : (pure a : Coop σ α) s = .done a s :=
  rfl

@[simp]
theorem Coop.run_bind (x : Coop σ α) (f : α → Coop σ β) (s : σ) :
    (x >>= f) s = (x s).bind f :=
  rfl

@[simp]
theorem Coop.run_get (s : σ) : (get : Coop σ σ) s = .done s s :=
  rfl

@[simp]
theorem Coop.run_set (s t : σ) : (set t : Coop σ PUnit) s = .done ⟨⟩ t :=
  rfl

@[simp]
theorem Coop.run_modify (f : σ → σ) (s : σ) :
    (modify f : Coop σ PUnit) s = .done ⟨⟩ (f s) :=
  rfl

@[simp]
theorem Coop.run_halt (s : σ) : (Coop.halt : Coop σ α) s = .halted s :=
  rfl

@[simp]
theorem Coop.run_diverge (s : σ) : (Coop.diverge : Coop σ α) s = .stuck :=
  rfl

@[simp]
theorem Coop.run_giveAway (s : σ) :
    (Coop.giveAway : Coop σ Unit) s = .suspended s fun s' => .done () s' :=
  rfl

@[simp]
theorem Coop.run_ite (c : Prop) [Decidable c] (x y : Coop σ α) (s : σ) :
    (if c then x else y) s = if c then x s else y s := by
  split <;> rfl

/-! ## Procedures on a component of the state -/

/-- The execution `x` of a component, seen in the whole state `t`: `view` reads
the component and `put` writes it back. -/
def Flow.zoom (view : τ → σ) (put : τ → σ → τ) : τ → Flow σ α → Flow τ α
  | t, .done a s => .done a (put t s)
  | t, .suspended s k =>
      .suspended (put t s) fun t' => (k (view t')).zoom view put t'
  | t, .halted s => .halted (put t s)
  | _, .stuck => .stuck

/-- Run a procedure of a component inside the whole state. -/
def Coop.zoom (view : τ → σ) (put : τ → σ → τ) (x : Coop σ α) : Coop τ α :=
  fun t => (x (view t)).zoom view put t

@[simp]
theorem Coop.run_zoom (view : τ → σ) (put : τ → σ → τ) (x : Coop σ α) (t : τ) :
    Coop.zoom view put x t = (x (view t)).zoom view put t :=
  rfl

@[simp]
theorem Flow.zoom_done (view : τ → σ) (put : τ → σ → τ) (t : τ) (a : α) (s : σ) :
    (Flow.done a s).zoom view put t = .done a (put t s) :=
  rfl

@[simp]
theorem Flow.zoom_suspended (view : τ → σ) (put : τ → σ → τ) (t : τ) (s : σ)
    (k : σ → Flow σ α) :
    (Flow.suspended s k).zoom view put t =
      .suspended (put t s) fun t' => (k (view t')).zoom view put t' :=
  rfl

@[simp]
theorem Flow.zoom_halted (view : τ → σ) (put : τ → σ → τ) (t : τ) (s : σ) :
    (Flow.halted s : Flow σ α).zoom view put t = .halted (put t s) :=
  rfl

@[simp]
theorem Flow.zoom_stuck (view : τ → σ) (put : τ → σ → τ) (t : τ) :
    (Flow.stuck : Flow σ α).zoom view put t = .stuck :=
  rfl

/-- A component of a component. -/
theorem Flow.zoom_zoom {υ : Type} (view : τ → σ) (put : τ → σ → τ) (view' : υ → τ)
    (put' : υ → τ → υ) (x : Flow σ α) (u : υ) :
    (x.zoom view put (view' u)).zoom view' put' u =
      x.zoom (fun u => view (view' u)) (fun u s => put' u (put (view' u) s)) u := by
  induction x generalizing u with
  | done a s => rfl
  | suspended s k ih => exact congrArg _ (funext fun u' => ih _ u')
  | halted s => rfl
  | stuck => rfl

/-! ## What a procedure may change -/

section Within

variable {r : σ → σ → Prop} {x : Coop σ α} {f : α → Coop σ β}

/-- Every stretch of the execution between two points where it gives the processor
away leads to a state related by `r` to the one it began in; the first stretch
began in `s₀`. -/
def Flow.Within (r : σ → σ → Prop) : σ → Flow σ α → Prop
  | s₀, .done _ s => r s₀ s
  | s₀, .suspended s k => r s₀ s ∧ ∀ s', (k s').Within r s'
  | s₀, .halted s => r s₀ s
  | _, .stuck => True

/-- Every stretch of the procedure changes the state as `r` allows. -/
def Coop.Within (r : σ → σ → Prop) (x : Coop σ α) : Prop :=
  ∀ s, (x s).Within r s

/-- The two states look the same to an observer who sees `view`. -/
def SameView {ρ : Type} (view : σ → ρ) (s s' : σ) : Prop :=
  view s' = view s

instance {ρ : Type} (view : σ → ρ) : IsPreorder σ (SameView view) where
  refl _ := rfl
  trans _ _ _ h h' := Eq.trans h' h

/-- The state may have changed before the execution begins. -/
theorem Flow.Within.after [IsTrans σ r] {s₀ s : σ} {x : Flow σ α} (hx : x.Within r s)
    (h : r s₀ s) : x.Within r s₀ := by
  cases x with
  | done a s' => exact trans_of r h hx
  | suspended s' k => exact ⟨trans_of r h hx.1, hx.2⟩
  | halted s' => exact trans_of r h hx
  | stuck => trivial

/-- A weaker relation allows more. -/
theorem Flow.Within.mono {r' : σ → σ → Prop} (h : ∀ s s', r s s' → r' s s') {s₀ : σ}
    {x : Flow σ α} (hx : x.Within r s₀) : x.Within r' s₀ := by
  induction x generalizing s₀ with
  | done a s => exact h s₀ s hx
  | suspended s k ih => exact ⟨h s₀ s hx.1, fun s' => ih s' (hx.2 s')⟩
  | halted s => exact h s₀ s hx
  | stuck => trivial

theorem Flow.Within.bind [IsTrans σ r] {s₀ : σ} {x : Flow σ α} (hx : x.Within r s₀)
    (hf : ∀ a, (f a).Within r) : (x.bind f).Within r s₀ := by
  induction x generalizing s₀ with
  | done a s => exact (hf a s).after hx
  | suspended s k ih => exact ⟨hx.1, fun s' => ih s' (hx.2 s')⟩
  | halted s => exact hx
  | stuck => trivial

/-- Whatever the execution changes. -/
theorem Flow.Within.trivial (s₀ : σ) (x : Flow σ α) : x.Within (fun _ _ => True) s₀ := by
  induction x generalizing s₀ with
  | done a s => exact True.intro
  | suspended s k ih => exact ⟨True.intro, fun s' => ih s' s'⟩
  | halted s => exact True.intro
  | stuck => exact True.intro

theorem Coop.Within.pure [Std.Refl r] (a : α) : (Pure.pure a : Coop σ α).Within r :=
  refl_of r

theorem Coop.Within.get [Std.Refl r] : (MonadState.get : Coop σ σ).Within r :=
  refl_of r

theorem Coop.Within.modify {g : σ → σ} (hg : ∀ s, r s (g s)) :
    (modify g : Coop σ PUnit).Within r :=
  hg

theorem Coop.Within.bind [IsTrans σ r] (hx : x.Within r) (hf : ∀ a, (f a).Within r) :
    (x >>= f).Within r :=
  fun s => (hx s).bind hf

/-- A procedure that reads the state first. -/
theorem Coop.Within.read {f : σ → Coop σ β} (hf : ∀ a, (f a).Within r) :
    (MonadState.get >>= f).Within r :=
  fun s => hf s s

theorem Coop.Within.ite {c : Prop} [Decidable c] {y : Coop σ α} (hx : x.Within r)
    (hy : y.Within r) : (if c then x else y).Within r := by
  split
  · exact hx
  · exact hy

/-- A step that is taken under a condition, before the rest. -/
theorem Coop.Within.when [IsTrans σ r] {c : Prop} [Decidable c] {x : Coop σ PUnit}
    {f : PUnit → Coop σ β} (hx : x.Within r) (hf : ∀ a, (f a).Within r) :
    (if c then x >>= f else f ⟨⟩).Within r :=
  .ite (hx.bind hf) (hf ⟨⟩)

theorem Coop.Within.giveAway [Std.Refl r] : (Coop.giveAway : Coop σ Unit).Within r :=
  fun s => ⟨refl_of r s, refl_of r⟩

theorem Coop.Within.diverge : (Coop.diverge : Coop σ α).Within r :=
  fun _ => trivial

/-- A procedure on a component, any change of which is allowed. -/
theorem Coop.Within.zoom {look : σ → τ} {put : σ → τ → σ} (hput : ∀ s t, r s (put s t))
    (x : Coop τ α) : (Coop.zoom look put x).Within r := by
  have hall : ∀ s (x : Flow τ α), (x.zoom look put s).Within r s := by
    intro s x
    induction x generalizing s with
    | done a t => exact hput s t
    | suspended t k ih => exact ⟨hput s t, fun s' => ih (look s') s'⟩
    | halted t => exact hput s t
    | stuck => trivial
  exact fun s => hall s (x (look s))

/-- An execution on a component of the state `s`; its first stretch began where the
component was `t₀` and the whole state was `s₀`. -/
theorem Flow.Within.inside {r' : τ → τ → Prop} {look : σ → τ} {put : σ → τ → σ} {s₀ s : σ}
    {t₀ : τ} {x : Flow τ α} (hx : x.Within r' t₀) (hfirst : ∀ t, r' t₀ t → r s₀ (put s t))
    (hput : ∀ s t, r' (look s) t → r s (put s t)) : (x.zoom look put s).Within r s₀ := by
  induction x generalizing s s₀ t₀ with
  | done a t => exact hfirst t hx
  | suspended t k ih => exact ⟨hfirst t hx.1, fun s' => ih (look s') (hx.2 (look s')) (hput s')⟩
  | halted t => exact hfirst t hx
  | stuck => trivial

/-- A procedure on a component that changes it as `r'` allows. -/
theorem Coop.Within.inside {r' : τ → τ → Prop} {look : σ → τ} {put : σ → τ → σ} {x : Coop τ α}
    (hput : ∀ s t, r' (look s) t → r s (put s t)) (hx : x.Within r') :
    (Coop.zoom look put x).Within r :=
  fun s => (hx (look s)).inside (hput s) hput

end Within

end Foundations
end Xinu
