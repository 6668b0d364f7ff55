import Xinu.Foundations.CooperativeMachine

/-!
# Processes under any scheduler

Many processes make calls, and nothing is known of the order in which they run but
that a process that waits does not.  Each process on its own is a machine; a run of
the crew is a run in which the machines take turns.

Main results:

- Theorem `Crew.step_iff`: what one segment does, from the execution of its call.
- Theorem `Crew.run_holds`: an invariant that may mention a label for each suspended
  call holds after every run, if each call keeps it.
- Theorem `Crew.run_obeys`: a relation that holds of every segment of every call, whatever
  happens between them.
- Theorem `Crew.replay_run`: a script that is executed is a run.
-/

namespace Xinu
namespace Foundations

open Function

variable {σ κ α β Γ : Type}

/-- Processes that make the calls `κ`: what a call of process `p` does, and when the
process may run. -/
structure Crew (σ κ : Type) where
  exec : Int → κ → Coop σ Int
  ready : σ → Int → Prop

namespace Crew

variable (M : Crew σ κ)

/-- The machine of process `p` alone. -/
def solo (p : Int) : Machine σ κ where
  current := fun _ => p
  fresh := fun _ _ => false
  exec := M.exec p

/-- The runs in which every segment satisfies the rule. -/
inductive Run (rule : Config σ κ → Segment σ κ → Prop) (C₀ : Config σ κ) :
    List (Segment σ κ) → Config σ κ → Prop
  | start : Run rule C₀ [] C₀
  | step {tr : List (Segment σ κ)} {C C' : Config σ κ} {seg : Segment σ κ} {p : Int}
      (hrun : Run rule C₀ tr C) (hready : M.ready C.state p) (hstep : (M.solo p).Step C seg C')
      (hrule : rule C seg) : Run rule C₀ (tr ++ [seg]) C'

/-- Process `p` executes `x` as a part of the call `c`: the segment and the configuration
that it leaves. -/
def Leads (C : Config σ κ) (p : Int) (c : κ) (b : Bool) (seg : Segment σ κ) (C' : Config σ κ) :
    Flow σ Int → Prop
  | .done v s =>
      seg = ⟨p, c, b, C.state, .returned v, s⟩ ∧ C' = ⟨s, true, update C.pending p none⟩
  | .suspended s k =>
      seg = ⟨p, c, b, C.state, .switched, s⟩ ∧ C' = ⟨s, true, update C.pending p (some (c, k))⟩
  | .halted s =>
      seg = ⟨p, c, b, C.state, .halted, s⟩ ∧ C' = ⟨s, false, update C.pending p none⟩
  | .stuck => False

section Steps

variable {M} {C C₀ C' : Config σ κ} {seg : Segment σ κ} {p : Int} {tr : List (Segment σ κ)}
variable {rule : Config σ κ → Segment σ κ → Prop}

theorem keep_solo (s : σ) (f : Int → Option β) : (M.solo p).keep s f = f := by
  funext q
  unfold Machine.keep solo
  simp

theorem leads_iff {c : κ} {b : Bool} {x : Flow σ Int} :
    Leads C p c b seg C' x ↔ ∃ o, (M.solo p).settle C c x = some (o, C') ∧
      seg = ⟨p, c, b, C.state, o, C'.state⟩ := by
  have hcur : (M.solo p).current C.state = p := rfl
  cases x with
  | done v s =>
      simp only [Leads, Machine.settle, keep_solo, hcur, Option.some.injEq, Prod.mk.injEq]
      constructor
      · rintro ⟨rfl, rfl⟩
        exact ⟨_, ⟨rfl, rfl⟩, rfl⟩
      · rintro ⟨o, ⟨rfl, rfl⟩, rfl⟩
        exact ⟨rfl, rfl⟩
  | suspended s k =>
      simp only [Leads, Machine.settle, keep_solo, hcur, Option.some.injEq, Prod.mk.injEq]
      constructor
      · rintro ⟨rfl, rfl⟩
        exact ⟨_, ⟨rfl, rfl⟩, rfl⟩
      · rintro ⟨o, ⟨rfl, rfl⟩, rfl⟩
        exact ⟨rfl, rfl⟩
  | halted s =>
      simp only [Leads, Machine.settle, keep_solo, hcur, Option.some.injEq, Prod.mk.injEq]
      constructor
      · rintro ⟨rfl, rfl⟩
        exact ⟨_, ⟨rfl, rfl⟩, rfl⟩
      · rintro ⟨o, ⟨rfl, rfl⟩, rfl⟩
        exact ⟨rfl, rfl⟩
  | stuck => simp [Leads, Machine.settle]

/-- A segment starts a call or goes on with a suspended one. -/
theorem step_iff : (M.solo p).Step C seg C' ↔ C.running = true ∧
    ((∃ c, C.pending p = none ∧ Leads C p c false seg C' (M.exec p c C.state)) ∨
      ∃ c k, C.pending p = some (c, k) ∧ Leads C p c true seg C' (k C.state)) := by
  constructor
  · intro h
    cases h with
    | call hrun hidle hflow =>
        exact ⟨hrun, Or.inl ⟨_, hidle, leads_iff.mpr ⟨_, hflow, rfl⟩⟩⟩
    | resume hrun hbusy hflow =>
        exact ⟨hrun, Or.inr ⟨_, _, hbusy, leads_iff.mpr ⟨_, hflow, rfl⟩⟩⟩
  · rintro ⟨hrun, ⟨c, hidle, hleads⟩ | ⟨c, k, hbusy, hleads⟩⟩
    · obtain ⟨o, hflow, rfl⟩ := (leads_iff (M := M)).mp hleads
      exact .call hrun hidle hflow
    · obtain ⟨o, hflow, rfl⟩ := (leads_iff (M := M)).mp hleads
      exact .resume hrun hbusy hflow

theorem Run.mono {rule' : Config σ κ → Segment σ κ → Prop}
    (hrule : ∀ C seg, rule C seg → rule' C seg) (hrun : M.Run rule C₀ tr C) :
    M.Run rule' C₀ tr C := by
  induction hrun with
  | start => exact .start
  | step _ hready hstep hseg ih => exact .step ih hready hstep (hrule _ _ hseg)

/-- A process makes a call that ends in the same segment. -/
theorem Run.call {c : κ} {v : Int} {s : σ} (hrun : M.Run rule C₀ tr C) (hgo : C.running = true)
    (hready : M.ready C.state p) (hidle : C.pending p = none)
    (hexec : M.exec p c C.state = .done v s) (hrule : ∀ seg, rule C seg) :
    ∃ tr', M.Run rule C₀ tr' ⟨s, true, update C.pending p none⟩ := by
  have hleads : Leads C p c false ⟨p, c, false, C.state, .returned v, s⟩
      ⟨s, true, update C.pending p none⟩ (M.exec p c C.state) := by
    rw [hexec]
    exact ⟨rfl, rfl⟩
  exact ⟨_, .step hrun hready (step_iff.mpr ⟨hgo, Or.inl ⟨c, hidle, hleads⟩⟩) (hrule _)⟩

/-- A process makes a call that is suspended. -/
theorem Run.suspend {c : κ} {s : σ} {k : σ → Flow σ Int} (hrun : M.Run rule C₀ tr C)
    (hgo : C.running = true) (hready : M.ready C.state p) (hidle : C.pending p = none)
    (hexec : M.exec p c C.state = .suspended s k) (hrule : ∀ seg, rule C seg) :
    ∃ tr', M.Run rule C₀ tr' ⟨s, true, update C.pending p (some (c, k))⟩ := by
  have hleads : Leads C p c false ⟨p, c, false, C.state, .switched, s⟩
      ⟨s, true, update C.pending p (some (c, k))⟩ (M.exec p c C.state) := by
    rw [hexec]
    exact ⟨rfl, rfl⟩
  exact ⟨_, .step hrun hready (step_iff.mpr ⟨hgo, Or.inl ⟨c, hidle, hleads⟩⟩) (hrule _)⟩

/-- A process goes on, and its call ends. -/
theorem Run.finish {c : κ} {v : Int} {s : σ} {k : σ → Flow σ Int} (hrun : M.Run rule C₀ tr C)
    (hgo : C.running = true) (hready : M.ready C.state p) (hbusy : C.pending p = some (c, k))
    (hk : k C.state = .done v s) (hrule : ∀ seg, rule C seg) :
    ∃ tr', M.Run rule C₀ tr' ⟨s, true, update C.pending p none⟩ := by
  have hleads : Leads C p c true ⟨p, c, true, C.state, .returned v, s⟩
      ⟨s, true, update C.pending p none⟩ (k C.state) := by
    rw [hk]
    exact ⟨rfl, rfl⟩
  exact ⟨_, .step hrun hready (step_iff.mpr ⟨hgo, Or.inr ⟨c, k, hbusy, hleads⟩⟩) (hrule _)⟩

end Steps

/-! ## Labelled invariants -/

/--
The execution keeps the invariant `I` of the state and the labels of the suspended
calls.  Process `p` chooses its label when it is suspended, and finds it unchanged when
it goes on.  Only stops in states that satisfy `G` count, and `Q` holds at the end.
-/
def Holds (I : σ → (Int → Option Γ) → Prop) (G : σ → Prop) (p : Int)
    (Q : α → σ → (Int → Option Γ) → Prop) : Flow σ α → (Int → Option Γ) → Prop
  | .done a s, L => Q a s L
  | .suspended s k, L => G s → ∃ γ, I s (update L p (some γ)) ∧
      ∀ s' L', I s' L' → L' p = some γ → M.ready s' p → Holds I G p Q (k s') L'
  | .halted s, L => G s → I s (update L p none)
  | .stuck, _ => True

/-- The end of a call. -/
def Ends (I : σ → (Int → Option Γ) → Prop) (G : σ → Prop) (p : Int) (_ : α) (s : σ)
    (L : Int → Option Γ) : Prop :=
  G s → I s (update L p none)

section Labels

variable {M} {I : σ → (Int → Option Γ) → Prop} {G : σ → Prop} {p : Int} {C C' : Config σ κ}
variable {Q : α → σ → (Int → Option Γ) → Prop} {L : Int → Option Γ}

/-- A part of the execution, and the rest. -/
theorem Holds.bind {R : β → σ → (Int → Option Γ) → Prop} {x : Flow σ α} {f : α → Coop σ β}
    (hx : M.Holds I G p Q x L) (hf : ∀ a s L, Q a s L → M.Holds I G p R (f a s) L) :
    M.Holds I G p R (x.bind f) L := by
  induction x generalizing L with
  | done a s => exact hf a s L hx
  | suspended s k ih =>
      intro hs
      obtain ⟨γ, hI, hrest⟩ := hx hs
      exact ⟨γ, hI, fun s' L' hI' hL' hready => ih s' (hrest s' L' hI' hL' hready)⟩
  | halted s => exact hx
  | stuck => trivial

/-- An execution that stops first where `G` does not hold. -/
theorem Holds.of_within {r : σ → σ → Prop} {s₀ : σ} {x : Flow σ α} (hx : x.Within r s₀)
    (hbad : ∀ s, r s₀ s → ¬ G s) : M.Holds I G p (fun a s L => G s → Q a s L) x L := by
  cases x with
  | done a s => exact fun hG => (hbad s hx hG).elim
  | suspended s k => exact fun hG => (hbad s hx.1 hG).elim
  | halted s => exact fun hG => (hbad s hx hG).elim
  | stuck => trivial

theorem Holds.mono {R : α → σ → (Int → Option Γ) → Prop} {x : Flow σ α}
    (hx : M.Holds I G p Q x L) (h : ∀ a s L, Q a s L → R a s L) : M.Holds I G p R x L := by
  induction x generalizing L with
  | done a s => exact h a s L hx
  | suspended s k ih =>
      intro hs
      obtain ⟨γ, hI, hrest⟩ := hx hs
      exact ⟨γ, hI, fun s' L' hI' hL' hready => ih s' (hrest s' L' hI' hL' hready)⟩
  | halted s => exact hx
  | stuck => trivial

/-- What is known of a suspended call with label `γ`. -/
def GoesOn (M : Crew σ κ) (I : σ → (Int → Option Γ) → Prop) (G : σ → Prop) (p : Int) (γ : Γ)
    (k : σ → Flow σ Int) : Prop :=
  ∀ s L, I s L → L p = some γ → M.ready s p → M.Holds I G p (Ends I G p) (k s) L

/-- The labels and the suspended calls of a configuration correspond. -/
def Labelled (M : Crew σ κ) (I : σ → (Int → Option Γ) → Prop) (G : σ → Prop) (C : Config σ κ)
    (L : Int → Option Γ) : Prop :=
  ∀ p, (C.pending p = none ∧ L p = none) ∨
    ∃ c k γ, C.pending p = some (c, k) ∧ L p = some γ ∧ M.GoesOn I G p γ k

theorem Labelled.update_none (h : M.Labelled I G C L) (s : σ) (b : Bool) (p : Int) :
    M.Labelled I G ⟨s, b, update C.pending p none⟩ (update L p none) := by
  intro q
  by_cases hq : q = p
  · subst hq
    left
    simp
  · simpa [hq] using h q

theorem Labelled.update_some (h : M.Labelled I G C L) (s : σ) (b : Bool) {c : κ}
    {k : σ → Flow σ Int} {γ : Γ} (hk : M.GoesOn I G p γ k) :
    M.Labelled I G ⟨s, b, update C.pending p (some (c, k))⟩ (update L p (some γ)) := by
  intro q
  by_cases hq : q = p
  · subst hq
    right
    exact ⟨c, k, γ, by simp, by simp, hk⟩
  · simpa [hq] using h q

theorem Labelled.leads {c : κ} {b : Bool} {seg : Segment σ κ} {x : Flow σ Int}
    (h : M.Labelled I G C L) (hx : M.Holds I G p (Ends I G p) x L)
    (hleads : Leads C p c b seg C' x) (hG : G seg.after) :
    ∃ L', I C'.state L' ∧ M.Labelled I G C' L' := by
  cases x with
  | done v s =>
      obtain ⟨rfl, rfl⟩ := hleads
      exact ⟨_, hx hG, h.update_none s true p⟩
  | suspended s k =>
      obtain ⟨rfl, rfl⟩ := hleads
      obtain ⟨γ, hI, hrest⟩ := hx hG
      exact ⟨_, hI, h.update_some s true hrest⟩
  | halted s =>
      obtain ⟨rfl, rfl⟩ := hleads
      exact ⟨_, hx hG, h.update_none s false p⟩
  | stuck => exact hleads.elim

/-- Every run keeps an invariant that each call keeps, as long as all its segments end
in states that satisfy `G`. -/
theorem run_holds {s₀ : σ} {tr : List (Segment σ κ)} (hinit : I s₀ fun _ => none)
    (hcall : ∀ p c s L, I s L → M.ready s p → L p = none →
      M.Holds I G p (Ends I G p) (M.exec p c s) L)
    (hrun : M.Run (fun _ seg => G seg.after) (Machine.initial s₀) tr C) :
    ∃ L, I C.state L ∧ M.Labelled I G C L := by
  induction hrun with
  | start => exact ⟨_, hinit, fun p => Or.inl ⟨rfl, rfl⟩⟩
  | @step tr C C' seg p _ hready hstep hG ih =>
      obtain ⟨L, hI, hL⟩ := ih
      obtain ⟨-, ⟨c, hidle, hleads⟩ | ⟨c, k, hbusy, hleads⟩⟩ := step_iff.mp hstep
      · rcases hL p with ⟨-, hnone⟩ | ⟨_, _, _, hsome, -⟩
        · exact hL.leads (hcall p c C.state L hI hready hnone) hleads hG
        · rw [hidle] at hsome
          contradiction
      · rcases hL p with ⟨hnone, -⟩ | ⟨c', k', γ, hsome, hγ, hk⟩
        · rw [hbusy] at hnone
          contradiction
        · rw [hbusy, Option.some.injEq, Prod.mk.injEq] at hsome
          obtain ⟨rfl, rfl⟩ := hsome
          exact hL.leads (hk C.state L hI hγ hready) hleads hG

end Labels

/-! ## Relations that every segment satisfies -/

section Obeys

variable {M} {R : Segment σ κ → Prop} {rule : Config σ κ → Segment σ κ → Prop}

/-- In every run, every segment satisfies a relation that all calls obey. -/
theorem run_obeys {s₀ : σ} {tr : List (Segment σ κ)} {C : Config σ κ}
    (hcall : ∀ p s c, (M.solo p).Obeys R c (M.exec p c s) false s)
    (hrun : M.Run rule (Machine.initial s₀) tr C) : ∀ seg ∈ tr, R seg := by
  have hboth : (∀ seg ∈ tr, R seg) ∧ ∀ p c k, C.pending p = some (c, k) → ∀ s,
      (M.solo p).Obeys R c (k s) true s := by
    induction hrun with
    | start => exact ⟨by simp, fun p c k hp => by simp [Machine.initial] at hp⟩
    | @step tr C C' seg p _ _ hstep _ ih =>
        have hleads : ∀ {c : κ} {b : Bool} {x : Flow σ Int}, Leads C p c b seg C' x →
            (M.solo p).Obeys R c x b C.state → R seg ∧ ∀ q c k, C'.pending q = some (c, k) →
              ∀ s, (M.solo q).Obeys R c (k s) true s := by
          intro c b x hx hobeys
          have hother : ∀ (l : Option (κ × (σ → Flow σ Int))),
              (∀ c k, l = some (c, k) → ∀ s, (M.solo p).Obeys R c (k s) true s) →
                ∀ q c k, update C.pending p l q = some (c, k) →
                  ∀ s, (M.solo q).Obeys R c (k s) true s := by
            intro l hl q c k hq
            by_cases hqp : q = p
            · rw [hqp, update_self] at hq
              rw [hqp]
              exact hl c k hq
            · rw [update_of_ne hqp] at hq
              exact ih.2 q c k hq
          have hnone : ∀ (c : κ) (k : σ → Flow σ Int), none = some (c, k) →
              ∀ s, (M.solo p).Obeys R c (k s) true s :=
            fun c k hck => absurd hck.symm (Option.some_ne_none _)
          cases x with
          | done v s =>
              obtain ⟨rfl, rfl⟩ := hx
              exact ⟨hobeys, hother none hnone⟩
          | suspended s k =>
              obtain ⟨rfl, rfl⟩ := hx
              refine ⟨hobeys.1, hother (some (c, k)) ?_⟩
              intro c' k' hck s
              obtain ⟨rfl, rfl⟩ : c = c' ∧ k = k' := by simpa using hck
              exact hobeys.2 s rfl
          | halted s =>
              obtain ⟨rfl, rfl⟩ := hx
              exact ⟨hobeys, hother none hnone⟩
          | stuck => exact hx.elim
        have hseg : R seg ∧ ∀ q c k, C'.pending q = some (c, k) →
            ∀ s, (M.solo q).Obeys R c (k s) true s := by
          obtain ⟨-, ⟨c, -, hx⟩ | ⟨c, k, hbusy, hx⟩⟩ := step_iff.mp hstep
          · exact hleads hx (hcall p C.state c)
          · exact hleads hx (ih.2 p c k hbusy C.state)
        refine ⟨?_, hseg.2⟩
        intro seg' hmem
        rcases List.mem_append.mp hmem with hmem | hmem
        · exact ih.1 seg' hmem
        · rw [List.mem_singleton.mp hmem]
          exact hseg.1
  exact hboth.1

end Obeys

/-! ## Replaying a script -/

/-- Run a script whose lines name a process and the call that it starts; the process
goes on with its suspended call where the script says `none`.  `force` evaluates a
configuration before it is passed on. -/
def replay (rule : Config σ κ → Segment σ κ → Prop) [∀ C seg, Decidable (rule C seg)]
    [∀ s p, Decidable (M.ready s p)]
    (force : ∀ β : Type, Config σ κ → (Config σ κ → β) → β) :
    List (Int × Option κ) → List (Segment σ κ) → Config σ κ →
      Option (List (Segment σ κ) × Config σ κ)
  | [], tr, C => some (tr, C)
  | (p, x) :: script, tr, C =>
      match (M.solo p).advance C x with
      | some (seg, C') =>
          if M.ready C.state p ∧ rule C seg then
            force _ C' fun C' => replay rule force script (tr ++ [seg]) C'
          else none
      | none => none

theorem replay_run {rule : Config σ κ → Segment σ κ → Prop} [∀ C seg, Decidable (rule C seg)]
    [∀ s p, Decidable (M.ready s p)] {force : ∀ β : Type, Config σ κ → (Config σ κ → β) → β}
    (hforce : ∀ β C f, force β C f = f C) {script : List (Int × Option κ)}
    {tr tr' : List (Segment σ κ)} {C₀ C C' : Config σ κ} (hrun : M.Run rule C₀ tr C)
    (h : M.replay rule force script tr C = some (tr', C')) : M.Run rule C₀ tr' C' := by
  induction script generalizing tr C with
  | nil =>
      obtain ⟨rfl, rfl⟩ : tr = tr' ∧ C = C' := by simpa [replay] using h
      exact hrun
  | cons line script ih =>
      obtain ⟨p, x⟩ := line
      simp only [replay, hforce] at h
      split at h
      · next seg C₁ hadv =>
          split at h
          · next hrule =>
              exact ih (.step hrun hrule.1 ((M.solo p).advance_step hadv) hrule.2) h
          · contradiction
      · contradiction

end Crew

end Foundations
end Xinu
