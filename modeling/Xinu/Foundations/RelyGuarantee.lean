import Xinu.Foundations.CooperativeMachine

/-!
# Rely and guarantee

A procedure that gives the processor away relies on what the others leave behind,
and guarantees something of the stretch that it has just finished.  The guarantee
relates the state in which a stretch ends to the one in which it began.

Main results:

- Theorem `Flow.Stretches.bind`: procedures compose when their stretches do.
- Theorem `Flow.Stretches.within`: what a procedure may change is guaranteed of each
  of its stretches.
- Theorem `Flow.Stretches.zoom`: a procedure of a component guarantees the same inside
  the whole state, of which it changes nothing else.
- Theorem `Flow.Yields.bind`: what a procedure returns, whatever the others do.
- Theorem `Flow.Collects.bind`: what a procedure itself adds to a record.
- Theorem `Coop.Relies.bind`: what the parts of a procedure may change, while others keep a
  condition, the procedure may change.
- Theorem `Machine.Traced.of_stretches`: the segments of a call are the stretches of
  its procedure.
-/

namespace Xinu
namespace Foundations

open Function

variable {σ τ α β κ Γ : Type}

/-- The execution does not stop the machine.  A stretch that began in `s₀` ends in a
state related to it by `q` where the processor is given away, and by `post` where the
procedure returns; each further stretch begins in a state that satisfies `g`. -/
def Flow.Stretches (g : σ → Prop) (q : σ → σ → Prop) (post : α → σ → σ → Prop) :
    σ → Flow σ α → Prop
  | s₀, .done a s => post a s₀ s
  | s₀, .suspended s k => q s₀ s ∧ ∀ s', g s' → (k s').Stretches g q post s'
  | _, .halted _ => False
  | _, .stuck => True

namespace Flow.Stretches

variable {g : σ → Prop} {q q' r : σ → σ → Prop} {post : α → σ → σ → Prop}
variable {post' : β → σ → σ → Prop} {s₀ t : σ} {x : Flow σ α} {f : α → Coop σ β}

/-- What is guaranteed may be weakened, also by a change of the state before the
first stretch. -/
theorem mono {post' : α → σ → σ → Prop} (hx : x.Stretches g q post t)
    (hq : ∀ s, q t s → q' s₀ s) (hpost : ∀ a s, post a t s → post' a s₀ s)
    (hq' : ∀ s₁ s, g s₁ → q s₁ s → q' s₁ s)
    (hpost' : ∀ a s₁ s, g s₁ → post a s₁ s → post' a s₁ s) : x.Stretches g q' post' s₀ := by
  induction x generalizing t s₀ with
  | done a s => exact hpost a s hx
  | suspended s k ih =>
      refine ⟨hq s hx.1, ?_⟩
      intro s' hs'
      apply ih s' (hx.2 s' hs')
      · exact fun s => hq' s' s hs'
      · exact fun a s => hpost' a s' s hs'
  | halted s => exact hx
  | stuck => trivial

/-- A part of the procedure whose own first stretch begins in state `t`, and the rest. -/
theorem bind (hx : x.Stretches g q post t) (hq : ∀ s, q t s → q' s₀ s)
    (hf : ∀ a s, post a t s → (f a s).Stretches g q' post' s₀)
    (hq' : ∀ s₁ s, g s₁ → q s₁ s → q' s₁ s)
    (hf' : ∀ a s₁ s, g s₁ → post a s₁ s → (f a s).Stretches g q' post' s₁) :
    (x.bind f).Stretches g q' post' s₀ := by
  induction x generalizing t s₀ with
  | done a s => exact hf a s hx
  | suspended s k ih =>
      refine ⟨hq s hx.1, ?_⟩
      intro s' hs'
      apply ih s' (hx.2 s' hs')
      · exact fun s => hq' s' s hs'
      · exact fun a s => hf' a s' s hs'
  | halted s => exact hx
  | stuck => trivial

/-- A part of the procedure that is followed by one of which the same is guaranteed. -/
theorem seq {post' : β → σ → σ → Prop} (hx : x.Stretches g q post t)
    (hf : ∀ a s₁ s, post a s₁ s → (f a s).Stretches g q post' s₁) :
    (x.bind f).Stretches g q post' t := by
  apply hx.bind
  · exact fun s hs => hs
  · exact fun a s hs => hf a t s hs
  · exact fun s₁ s _ hs => hs
  · exact fun a s₁ s _ hs => hf a s₁ s hs

/-- What the procedure may change is guaranteed of each of its stretches. -/
theorem within (hx : x.Stretches g q post t) (hr : x.Within r t) :
    x.Stretches g (fun s s' => q s s' ∧ r s s') (fun a s s' => post a s s' ∧ r s s') t := by
  induction x generalizing t with
  | done a s => exact ⟨hx, hr⟩
  | suspended s k ih => exact ⟨⟨hx.1, hr.1⟩, fun s' hs' => ih s' (hx.2 s' hs') (hr.2 s')⟩
  | halted s => exact hx
  | stuck => trivial

/-- A procedure on a component of the state, of which the rest stays the same. -/
theorem zoom {look : τ → σ} {put : τ → σ → τ} {u : τ} (hlook : ∀ t s, look (put t s) = s)
    (hx : x.Stretches g q post (look u)) :
    (x.zoom look put u).Stretches (fun t => g (look t))
      (fun t t' => q (look t) (look t') ∧ t' = put t (look t'))
      (fun a t t' => post a (look t) (look t') ∧ t' = put t (look t')) u := by
  induction x generalizing u with
  | done a s =>
      simp only [Flow.zoom_done, Stretches, hlook]
      exact ⟨hx, trivial⟩
  | suspended s k ih =>
      simp only [Flow.zoom_suspended, Stretches, hlook]
      exact ⟨⟨hx.1, trivial⟩, fun t' ht' => ih (look t') (hx.2 (look t') ht')⟩
  | halted s => exact hx
  | stuck => trivial

end Flow.Stretches

/-! ## What a procedure may change while others behave -/

/-- Every stretch of the execution leads to a state related by `r` to the one it began in,
as long as the states in which it goes on satisfy `g`. -/
def Flow.Relies (g : σ → Prop) (r : σ → σ → Prop) : σ → Flow σ α → Prop
  | s₀, .done _ s => r s₀ s
  | s₀, .suspended s k => r s₀ s ∧ ∀ s', g s' → (k s').Relies g r s'
  | s₀, .halted s => r s₀ s
  | _, .stuck => True

/-- Every stretch of the procedure that begins where `g` holds changes the state as `r`
allows. -/
def Coop.Relies (g : σ → Prop) (r : σ → σ → Prop) (x : Coop σ α) : Prop :=
  ∀ s, g s → (x s).Relies g r s

section Relies

variable {g : σ → Prop} {r : σ → σ → Prop} {s₀ s : σ} {y : Flow σ α} {x : Coop σ α}
variable {f : α → Coop σ β}

/-- Nothing needs to be relied on. -/
theorem Flow.Within.relies (hy : y.Within r s₀) : y.Relies g r s₀ := by
  induction y generalizing s₀ with
  | done a s => exact hy
  | suspended s k ih => exact ⟨hy.1, fun s' _ => ih s' (hy.2 s')⟩
  | halted s => exact hy
  | stuck => trivial

theorem Flow.Relies.after [IsTrans σ r] (hy : y.Relies g r s) (h : r s₀ s) :
    y.Relies g r s₀ := by
  cases y with
  | done a s' => exact trans_of r h hy
  | suspended s' k => exact ⟨trans_of r h hy.1, hy.2⟩
  | halted s' => exact trans_of r h hy
  | stuck => trivial

/-- The rest may rely on what the first part keeps. -/
theorem Flow.Relies.bind [IsTrans σ r] (hg : ∀ s s', g s → r s s' → g s')
    (hy : y.Relies g r s₀) (hs₀ : g s₀) (hf : ∀ a, (f a).Relies g r) :
    (y.bind f).Relies g r s₀ := by
  induction y generalizing s₀ with
  | done a s => exact (hf a s (hg s₀ s hs₀ hy)).after hy
  | suspended s k ih => exact ⟨hy.1, fun s' hs' => ih s' (hy.2 s' hs') hs'⟩
  | halted s => exact hy
  | stuck => trivial

theorem Coop.Relies.bind [IsTrans σ r] (hg : ∀ s s', g s → r s s' → g s')
    (hx : x.Relies g r) (hf : ∀ a, (f a).Relies g r) : (x >>= f).Relies g r :=
  fun s hs => (hx s hs).bind hg hs hf

theorem Coop.Relies.pure [Std.Refl r] (a : α) : (Pure.pure a : Coop σ α).Relies g r :=
  fun s _ => refl_of r s

theorem Coop.Relies.modify {h : σ → σ} (hh : ∀ s, g s → r s (h s)) :
    (modify h : Coop σ PUnit).Relies g r :=
  hh

theorem Coop.Relies.giveAway [Std.Refl r] : (Coop.giveAway : Coop σ Unit).Relies g r :=
  fun s _ => ⟨refl_of r s, fun s' _ => refl_of r s'⟩

/-- The procedure reads a state that satisfies `g`. -/
theorem Coop.Relies.read {f : σ → Coop σ β} (hf : ∀ s, g s → (f s).Relies g r) :
    (get >>= f).Relies g r :=
  fun s hs => hf s hs s hs

theorem Coop.Relies.ite {c : Prop} [Decidable c] {z : Coop σ α} (hx : x.Relies g r)
    (hz : z.Relies g r) : (if c then x else z).Relies g r := by
  split
  · exact hx
  · exact hz

end Relies

/-! ## What a procedure returns -/

/-- In whatever states the execution goes on, it returns as `Q` says, if it returns. -/
def Flow.Yields (Q : α → σ → Prop) : Flow σ α → Prop
  | .done a s => Q a s
  | .suspended _ k => ∀ s, (k s).Yields Q
  | .halted _ => True
  | .stuck => True

section Yields

variable {P Q : α → σ → Prop} {x : Flow σ α}

theorem Flow.Yields.bind {Q : β → σ → Prop} {f : α → Coop σ β} (hx : x.Yields P)
    (hf : ∀ a s, P a s → (f a s).Yields Q) : (x.bind f).Yields Q := by
  induction x with
  | done a s => exact hf a s hx
  | suspended s k ih => exact fun s' => ih s' (hx s')
  | halted s => trivial
  | stuck => trivial

theorem Flow.Yields.mono (hx : x.Yields P) (h : ∀ a s, P a s → Q a s) : x.Yields Q := by
  induction x with
  | done a s => exact h a s hx
  | suspended s k ih => exact fun s' => ih s' (hx s')
  | halted s => trivial
  | stuck => trivial

/-- Nothing is said of what the execution returns. -/
theorem Flow.Yields.of_true (x : Flow σ α) : x.Yields fun _ _ => True := by
  induction x with
  | done a s => trivial
  | suspended s k ih => exact ih
  | halted s => trivial
  | stuck => trivial

/-- Both parts of a procedure that returns without a wait do so. -/
theorem Flow.of_bind_done {f : α → Coop σ β} {b : β} {t : σ} (h : x.bind f = .done b t) :
    ∃ a s, x = .done a s ∧ f a s = .done b t := by
  cases x with
  | done a s => exact ⟨a, s, rfl, h⟩
  | suspended s k => cases h
  | halted s => cases h
  | stuck => cases h

/-- The result of an execution without a wait. -/
def Flow.result? : Flow σ α → Option α
  | .done a _ => some a
  | _ => none

theorem Flow.Yields.of_result {a : α} (hx : x.Yields Q) (h : x.result? = some a) :
    ∃ s, x = .done a s ∧ Q a s := by
  cases x with
  | done b s =>
      have hab : b = a := Option.some_inj.mp h
      rw [hab] at hx ⊢
      exact ⟨s, rfl, hx⟩
  | suspended s k => cases h
  | halted s => cases h
  | stuck => cases h

end Yields

/-! ## What a procedure adds to a record -/

variable {ε : Type}

/-- The stretches of the execution only add to the record that `view` reads, and when it
returns, `P` holds of all that they have added, `old` before the present stretch; each
further stretch begins in a state that satisfies `g`. -/
def Flow.Collects (g : σ → Prop) (view : σ → List ε) (P : α → σ → List ε → Prop) :
    List ε → σ → Flow σ α → Prop
  | old, s₀, .done a s => ∃ new, view s = view s₀ ++ new ∧ P a s (old ++ new)
  | old, s₀, .suspended s k => ∃ new, view s = view s₀ ++ new ∧
      ∀ s', g s' → (k s').Collects g view P (old ++ new) s'
  | _, _, .halted _ => True
  | _, _, .stuck => True

section Collects

variable {g : σ → Prop} {view : σ → List ε} {P Q : α → σ → List ε → Prop} {old new : List ε}
variable {s₀ s : σ} {x : Flow σ α}

/-- The state may have changed before the execution begins. -/
theorem Flow.Collects.after (hx : x.Collects g view P (old ++ new) s)
    (h : view s = view s₀ ++ new) : x.Collects g view P old s₀ := by
  cases x with
  | done a t =>
      obtain ⟨more, hview, hP⟩ := hx
      refine ⟨new ++ more, ?_, ?_⟩
      · rw [hview, h, List.append_assoc]
      · rwa [← List.append_assoc]
  | suspended t k =>
      obtain ⟨more, hview, hk⟩ := hx
      refine ⟨new ++ more, ?_, ?_⟩
      · rw [hview, h, List.append_assoc]
      · rwa [← List.append_assoc]
  | halted t => trivial
  | stuck => trivial

theorem Flow.Collects.bind {Q : β → σ → List ε → Prop} {f : α → Coop σ β}
    (hx : x.Collects g view P old s₀)
    (hf : ∀ a s l, P a s l → (f a s).Collects g view Q l s) :
    (x.bind f).Collects g view Q old s₀ := by
  induction x generalizing old s₀ with
  | done a s =>
      obtain ⟨new, hview, hP⟩ := hx
      exact (hf a s _ hP).after hview
  | suspended s k ih =>
      obtain ⟨new, hview, hk⟩ := hx
      exact ⟨new, hview, fun s' hs' => ih s' (hk s' hs')⟩
  | halted s => trivial
  | stuck => trivial

theorem Flow.Collects.mono (hx : x.Collects g view P old s₀)
    (h : ∀ a s l, P a s l → Q a s l) : x.Collects g view Q old s₀ := by
  induction x generalizing old s₀ with
  | done a s =>
      obtain ⟨new, hview, hP⟩ := hx
      exact ⟨new, hview, h a s _ hP⟩
  | suspended s k ih =>
      obtain ⟨new, hview, hk⟩ := hx
      exact ⟨new, hview, fun s' hs' => ih s' (hk s' hs')⟩
  | halted s => trivial
  | stuck => trivial

/-- An execution that adds nothing, and keeps the condition. -/
theorem Flow.Collects.of_within {r : σ → σ → Prop} (hx : x.Within r s₀) (hs₀ : g s₀)
    (hg : ∀ s s', g s → r s s' → g s') (hview : ∀ s s', r s s' → view s' = view s) :
    x.Collects g view (fun _ s l => g s ∧ l = old) old s₀ := by
  have hnone : ∀ s s', r s s' → view s' = view s ++ [] := by
    intro s s' h
    rw [List.append_nil]
    exact hview s s' h
  induction x generalizing s₀ with
  | done a s => exact ⟨[], hnone s₀ s hx, hg s₀ s hs₀ hx, List.append_nil old⟩
  | suspended s k ih =>
      refine ⟨[], hnone s₀ s hx.1, fun s' hs' => ?_⟩
      rw [List.append_nil]
      exact ih s' (hx.2 s') hs'
  | halted s => trivial
  | stuck => trivial

end Collects

/-! ## Segments of a machine -/

namespace Machine

variable {M : Machine σ κ} {R : Option Γ → Segment σ κ → Option Γ → Prop}

/-- The segments of the first part of a call are the stretches of its procedure, and the
rest is traced; `t` is where the first stretch that is looked at begins. -/
theorem Traced.after_stretches {q : σ → σ → Prop} {post : α → σ → σ → Prop} {c : κ}
    {x : Flow σ α} {f : α → Coop σ Int} {b : Bool} {s₀ t : σ} {l : Option Γ} (γ : Γ) (me : Int)
    (hx : x.Stretches (fun s => M.current s = me) q post t) (hcur : M.current s₀ = me)
    (hsusp : ∀ s, q t s → R l ⟨me, c, b, s₀, .switched, s⟩ (some γ))
    (hf : ∀ a s, post a t s → M.Traced R c (f a s) l b s₀)
    (hsusp' : ∀ s₁ s, M.current s₁ = me → q s₁ s →
      R (some γ) ⟨me, c, true, s₁, .switched, s⟩ (some γ))
    (hf' : ∀ a s₁ s, M.current s₁ = me → post a s₁ s →
      M.Traced R c (f a s) (some γ) true s₁) : M.Traced R c (x.bind f) l b s₀ := by
  induction x generalizing t b s₀ l with
  | done a s => exact hf a s hx
  | suspended s k ih =>
      have h := hsusp s hx.1
      rw [← hcur] at h
      refine ⟨γ, h, ?_⟩
      intro s₁ hcur₁
      rw [hcur] at hcur₁
      apply ih s₁ (hx.2 s₁ hcur₁) hcur₁
      · exact fun s => hsusp' s₁ s hcur₁
      · exact fun a s => hf' a s₁ s hcur₁
  | halted s => exact hx.elim
  | stuck => trivial

/-- The segments of a call are the stretches of its procedure. -/
theorem Traced.of_stretches {q : σ → σ → Prop} {post : Int → σ → σ → Prop} {c : κ}
    {x : Flow σ Int} {b : Bool} {s₀ t : σ} {l : Option Γ} (γ : Γ) (me : Int)
    (hx : x.Stretches (fun s => M.current s = me) q post t) (hcur : M.current s₀ = me)
    (hsusp : ∀ s, q t s → R l ⟨me, c, b, s₀, .switched, s⟩ (some γ))
    (hret : ∀ v s, post v t s → R l ⟨me, c, b, s₀, .returned v, s⟩ none)
    (hsusp' : ∀ s₁ s, M.current s₁ = me → q s₁ s →
      R (some γ) ⟨me, c, true, s₁, .switched, s⟩ (some γ))
    (hret' : ∀ v s₁ s, M.current s₁ = me → post v s₁ s →
      R (some γ) ⟨me, c, true, s₁, .returned v, s⟩ none) : M.Traced R c x l b s₀ := by
  rw [← Flow.bind_pure x]
  apply Traced.after_stretches γ me hx hcur hsusp
  · intro v s h
    have hR := hret v s h
    rw [← hcur] at hR
    exact hR
  · exact hsusp'
  · intro v s₁ s hcur₁ h
    have hR := hret' v s₁ s hcur₁ h
    rw [← hcur₁] at hR
    exact hR

/-- A call whose segments satisfy a relation, and that has the label `γ` while it is
suspended. -/
theorem Traced.of_obeys {Q : Segment σ κ → Prop} {c : κ} {x : Flow σ Int} {b : Bool} {s₀ : σ}
    {l : Option Γ} (γ : Γ) (hx : M.Obeys Q c x b s₀)
    (hR : ∀ l seg l', seg.call = c → Q seg → (l' = none ∨ l' = some γ) → R l seg l') :
    M.Traced R c x l b s₀ := by
  induction x generalizing b s₀ l with
  | done v s => exact hR _ _ _ rfl hx (Or.inl rfl)
  | suspended s k ih =>
      refine ⟨γ, hR _ _ _ rfl hx.1 (Or.inr rfl), ?_⟩
      exact fun s' hcur => ih s' (hx.2 s' hcur)
  | halted s => exact hR _ _ _ rfl hx (Or.inl rfl)
  | stuck => trivial

/-- A family of relations that all hold of every segment. -/
theorem Obeys.forall {ι : Type} {Q : ι → Segment σ κ → Prop} {c : κ} {x : Flow σ Int} {b : Bool}
    {s₀ : σ} (hx : ∀ i, M.Obeys (Q i) c x b s₀) : M.Obeys (fun seg => ∀ i, Q i seg) c x b s₀ := by
  induction x generalizing b s₀ with
  | done v s => exact hx
  | suspended s k ih =>
      refine ⟨fun i => (hx i).1, ?_⟩
      exact fun s' hcur => ih s' fun i => (hx i).2 s' hcur
  | halted s => exact hx
  | stuck => trivial

theorem Obeys.and {Q Q' : Segment σ κ → Prop} {c : κ} {x : Flow σ Int} {b : Bool} {s₀ : σ}
    (hx : M.Obeys Q c x b s₀) (hx' : M.Obeys Q' c x b s₀) :
    M.Obeys (fun seg => Q seg ∧ Q' seg) c x b s₀ := by
  induction x generalizing b s₀ with
  | done v s => exact ⟨hx, hx'⟩
  | suspended s k ih =>
      refine ⟨⟨hx.1, hx'.1⟩, ?_⟩
      exact fun s' hcur => ih s' (hx.2 s' hcur) (hx'.2 s' hcur)
  | halted s => exact ⟨hx, hx'⟩
  | stuck => trivial

/-- The segments of a call of a machine on a component, seen in the whole state. -/
theorem Obeys.zoom {ν : Type} {N : Machine τ ν} {Q : Segment σ κ → Prop}
    {Q' : Segment τ ν → Prop} {look : τ → σ} {put : τ → σ → τ} {embed : κ → ν} {c : κ}
    {x : Flow σ Int} {b : Bool} {t : τ} (hin : Inside M N look put)
    (hQ : ∀ b t s o, Q ⟨M.current (look t), c, b, look t, o, s⟩ →
      Q' ⟨N.current t, embed c, b, t, o, put t s⟩)
    (hx : M.Obeys Q c x b (look t)) : N.Obeys Q' (embed c) (x.zoom look put t) b t := by
  induction x generalizing b t with
  | done v s => exact hQ b t s _ hx
  | suspended s k ih =>
      refine ⟨hQ b t s _ hx.1, ?_⟩
      intro t' hcur
      rw [hin.current, hin.current] at hcur
      exact ih (look t') (hx.2 (look t') hcur)
  | halted s => exact hQ b t s _ hx
  | stuck => trivial

end Machine

end Foundations
end Xinu
