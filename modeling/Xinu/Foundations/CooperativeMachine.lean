import Xinu.Foundations.CooperativeFlow
import Mathlib.Data.List.Basic
import Mathlib.Data.List.Induction

/-!
# Machines that interleave cooperative procedures

One processor serves many processes.  The process that holds it issues calls;
a call runs until it returns or gives the processor away, and in the second
case its rest is kept until the process holds the processor again.  A run is
recorded as the list of its segments, the stretches between two such points.

Main results:

- Theorem `Machine.run_good`: an invariant that may mention the whole history
  and a label for each suspended call holds after every run.
- Theorem `Machine.run_keeps`: the special case of an invariant of the state
  and a relation that every segment satisfies.
- Theorem `Machine.run_observe`: induction over the segments of a run.
- Theorem `Machine.run_obeys`: a relation that holds of every segment of every
  call, whatever happens between them.
- Theorem `Machine.run_traced`: a property of the history, the configuration and
  the labels that suspended calls choose.
- Theorem `Machine.replay_run`: a script that is executed is a run.
-/

namespace Xinu
namespace Foundations

open Function

variable {σ κ Γ : Type}

/-- How a segment of a run ends. -/
inductive Outcome where
  | returned (v : Int)
  | switched
  | halted
deriving DecidableEq, Repr

/-- One uninterrupted stretch of a run. -/
structure Segment (σ κ : Type) where
  /-- The process that runs. -/
  who : Int
  /-- The call it executes. -/
  call : κ
  /-- Whether the segment continues a call that had been suspended. -/
  resumed : Bool
  before : σ
  outcome : Outcome
  after : σ

/-- The machine's state between two segments. -/
structure Config (σ κ : Type) where
  state : σ
  running : Bool
  /-- The suspended call of each process, with what remains of it. -/
  pending : Int → Option (κ × (σ → Flow σ Int))

/-- A processor: who holds it, whose saved context is that of a process that
has not run yet, and what each call does. -/
structure Machine (σ κ : Type) where
  current : σ → Int
  fresh : σ → Int → Bool
  exec : κ → Coop σ Int

namespace Machine

variable (M : Machine σ κ)

/-- Forget what is recorded about the slots that hold a fresh process. -/
def keep {β : Type} (s : σ) (f : Int → Option β) : Int → Option β :=
  fun p => if M.fresh s p then none else f p

/-- The configuration in which the execution of `c` leaves the machine. -/
def settle (C : Config σ κ) (c : κ) : Flow σ Int → Option (Outcome × Config σ κ)
  | .done v s =>
      some (.returned v, ⟨s, true, M.keep s (update C.pending (M.current C.state) none)⟩)
  | .suspended s k =>
      some (.switched, ⟨s, true, M.keep s (update C.pending (M.current C.state) (some (c, k)))⟩)
  | .halted s =>
      some (.halted, ⟨s, false, M.keep s (update C.pending (M.current C.state) none)⟩)
  | .stuck => none

/-- One segment: the current process starts a call or continues its suspended one. -/
inductive Step (C : Config σ κ) : Segment σ κ → Config σ κ → Prop
  | call {c : κ} {o : Outcome} {C' : Config σ κ} (hrun : C.running = true)
      (hidle : C.pending (M.current C.state) = none)
      (hflow : M.settle C c (M.exec c C.state) = some (o, C')) :
      Step C ⟨M.current C.state, c, false, C.state, o, C'.state⟩ C'
  | resume {c : κ} {k : σ → Flow σ Int} {o : Outcome} {C' : Config σ κ}
      (hrun : C.running = true) (hbusy : C.pending (M.current C.state) = some (c, k))
      (hflow : M.settle C c (k C.state) = some (o, C')) :
      Step C ⟨M.current C.state, c, true, C.state, o, C'.state⟩ C'

/-- The runs from `C₀` in which every segment starts as `ok` allows. -/
inductive Run (ok : σ → Bool → κ → Prop) (C₀ : Config σ κ) :
    List (Segment σ κ) → Config σ κ → Prop
  | start : Run ok C₀ [] C₀
  | step {tr : List (Segment σ κ)} {C C' : Config σ κ} {seg : Segment σ κ}
      (hrun : Run ok C₀ tr C) (hstep : M.Step C seg C')
      (hok : ok seg.before seg.resumed seg.call) : Run ok C₀ (tr ++ [seg]) C'

/-- The runs in which every segment satisfies a rule that may also look at the
suspended calls. -/
inductive RunWhen (rule : Config σ κ → Segment σ κ → Prop) (C₀ : Config σ κ) :
    List (Segment σ κ) → Config σ κ → Prop
  | start : RunWhen rule C₀ [] C₀
  | step {tr : List (Segment σ κ)} {C C' : Config σ κ} {seg : Segment σ κ}
      (hrun : RunWhen rule C₀ tr C) (hstep : M.Step C seg C') (hrule : rule C seg) :
      RunWhen rule C₀ (tr ++ [seg]) C'

theorem RunWhen.run {M : Machine σ κ} {rule : Config σ κ → Segment σ κ → Prop}
    {ok : σ → Bool → κ → Prop} {C₀ C : Config σ κ} {tr : List (Segment σ κ)}
    (hrule : ∀ C seg, rule C seg → ok seg.before seg.resumed seg.call)
    (h : M.RunWhen rule C₀ tr C) : M.Run ok C₀ tr C := by
  induction h with
  | start => exact .start
  | step hrun hstep hseg ih => exact .step ih hstep (hrule _ _ hseg)

/-- The configuration in which no call is suspended. -/
def initial (s : σ) : Config σ κ :=
  ⟨s, true, fun _ => none⟩

/-! ## Replaying a script -/

/-- The segment that the current process runs next: it starts the call `c` if the
script says `some c`, and continues its suspended call if it says `none`. -/
def advance (C : Config σ κ) : Option κ → Option (Segment σ κ × Config σ κ)
  | some c =>
      match C.running, C.pending (M.current C.state) with
      | true, none =>
          (M.settle C c (M.exec c C.state)).map fun r =>
            (⟨M.current C.state, c, false, C.state, r.1, r.2.state⟩, r.2)
      | _, _ => none
  | none =>
      match C.running, C.pending (M.current C.state) with
      | true, some (c, k) =>
          (M.settle C c (k C.state)).map fun r =>
            (⟨M.current C.state, c, true, C.state, r.1, r.2.state⟩, r.2)
      | _, _ => none

/-- What a script computes is a step of the machine. -/
theorem advance_step {C C' : Config σ κ} {x : Option κ} {seg : Segment σ κ}
    (h : M.advance C x = some (seg, C')) : M.Step C seg C' := by
  cases x with
  | some c =>
      simp only [advance] at h
      split at h
      · next hrun hidle =>
          obtain ⟨r, hflow, hr⟩ := Option.map_eq_some_iff.mp h
          obtain ⟨rfl, rfl⟩ : _ ∧ _ := by simpa using hr
          exact .call hrun hidle hflow
      · contradiction
  | none =>
      simp only [advance] at h
      split at h
      · next c k hrun hbusy =>
          obtain ⟨r, hflow, hr⟩ := Option.map_eq_some_iff.mp h
          obtain ⟨rfl, rfl⟩ : _ ∧ _ := by simpa using hr
          exact .resume hrun hbusy hflow
      · contradiction

/-- Run a script whose segments all start as `ok` allows, after the history `tr`. -/
def replay (ok : σ → Bool → κ → Prop) [∀ s b c, Decidable (ok s b c)] :
    List (Option κ) → List (Segment σ κ) → Config σ κ →
      Option (List (Segment σ κ) × Config σ κ)
  | [], tr, C => some (tr, C)
  | x :: script, tr, C =>
      match M.advance C x with
      | some (seg, C') =>
          if ok seg.before seg.resumed seg.call then replay ok script (tr ++ [seg]) C' else none
      | none => none

/-- What a script computes is a run of the machine. -/
theorem replay_run {ok : σ → Bool → κ → Prop} [∀ s b c, Decidable (ok s b c)]
    {script : List (Option κ)} {tr tr' : List (Segment σ κ)} {C₀ C C' : Config σ κ}
    (hrun : M.Run ok C₀ tr C) (h : M.replay ok script tr C = some (tr', C')) :
    M.Run ok C₀ tr' C' := by
  induction script generalizing tr C with
  | nil =>
      obtain ⟨rfl, rfl⟩ : tr = tr' ∧ C = C' := by simpa [replay] using h
      exact hrun
  | cons x script ih =>
      simp only [replay] at h
      split at h
      · next seg C₁ hadv =>
          split at h
          · next hok => exact ih (.step hrun (M.advance_step hadv) hok) h
          · contradiction
      · contradiction

/-- Run a script whose segments all satisfy the rule, after the history `tr`.
`force` evaluates a configuration before it is passed on. -/
def replayWhen (rule : Config σ κ → Segment σ κ → Prop) [∀ C seg, Decidable (rule C seg)]
    (force : ∀ β : Type, Config σ κ → (Config σ κ → β) → β) :
    List (Option κ) → List (Segment σ κ) → Config σ κ →
      Option (List (Segment σ κ) × Config σ κ)
  | [], tr, C => some (tr, C)
  | x :: script, tr, C =>
      match M.advance C x with
      | some (seg, C') =>
          if rule C seg then
            force _ C' fun C' => replayWhen rule force script (tr ++ [seg]) C'
          else none
      | none => none

theorem replayWhen_run {rule : Config σ κ → Segment σ κ → Prop}
    [∀ C seg, Decidable (rule C seg)] {force : ∀ β : Type, Config σ κ → (Config σ κ → β) → β}
    (hforce : ∀ β C f, force β C f = f C) {script : List (Option κ)}
    {tr tr' : List (Segment σ κ)} {C₀ C C' : Config σ κ} (hrun : M.RunWhen rule C₀ tr C)
    (h : M.replayWhen rule force script tr C = some (tr', C')) : M.RunWhen rule C₀ tr' C' := by
  induction script generalizing tr C with
  | nil =>
      obtain ⟨rfl, rfl⟩ : tr = tr' ∧ C = C' := by simpa [replayWhen] using h
      exact hrun
  | cons x script ih =>
      simp only [replayWhen, hforce] at h
      split at h
      · next seg C₁ hadv =>
          split at h
          · next hrule => exact ih (.step hrun (M.advance_step hadv) hrule) h
          · contradiction
      · contradiction

/-! ## Labelled invariants -/

/--
The execution of call `c` keeps the invariant `Inv` of the history, the state
and the labels of the suspended calls.  A call chooses its label when it gives
the processor away and finds it unchanged when it is resumed.
-/
def Good (ok : σ → Bool → κ → Prop)
    (Inv : List (Segment σ κ) → σ → (Int → Option Γ) → Prop) (c : κ) :
    Flow σ Int → Bool → List (Segment σ κ) → σ → (Int → Option Γ) → Prop
  | .done v s, b, tr, s₀, lbl =>
      Inv (tr ++ [⟨M.current s₀, c, b, s₀, .returned v, s⟩]) s
        (M.keep s (update lbl (M.current s₀) none))
  | .suspended s k, b, tr, s₀, lbl =>
      ∃ γ, Inv (tr ++ [⟨M.current s₀, c, b, s₀, .switched, s⟩]) s
          (M.keep s (update lbl (M.current s₀) (some γ))) ∧
        ∀ tr' s' lbl', Inv tr' s' lbl' → M.current s' = M.current s₀ →
          lbl' (M.current s₀) = some γ → ok s' true c →
          Good ok Inv c (k s') true tr' s' lbl'
  | .halted s, b, tr, s₀, lbl =>
      Inv (tr ++ [⟨M.current s₀, c, b, s₀, .halted, s⟩]) s
        (M.keep s (update lbl (M.current s₀) none))
  | .stuck, _, _, _, _ => False

/-- What is known of a suspended call with label `γ`: resuming it is good. -/
def GoodRest (ok : σ → Bool → κ → Prop)
    (Inv : List (Segment σ κ) → σ → (Int → Option Γ) → Prop) (p : Int) (γ : Γ)
    (c : κ) (k : σ → Flow σ Int) : Prop :=
  ∀ tr s lbl, Inv tr s lbl → M.current s = p → lbl p = some γ → ok s true c →
    M.Good ok Inv c (k s) true tr s lbl

/-- The labels and the suspended calls of a configuration correspond. -/
def Labelled (ok : σ → Bool → κ → Prop)
    (Inv : List (Segment σ κ) → σ → (Int → Option Γ) → Prop) (C : Config σ κ)
    (lbl : Int → Option Γ) : Prop :=
  ∀ p, (C.pending p = none ∧ lbl p = none) ∨
    ∃ c k γ, C.pending p = some (c, k) ∧ lbl p = some γ ∧ M.GoodRest ok Inv p γ c k

section Labelled

variable {M} {ok : σ → Bool → κ → Prop}
variable {Inv : List (Segment σ κ) → σ → (Int → Option Γ) → Prop}

theorem Labelled.keep_none {C : Config σ κ} {lbl : Int → Option Γ}
    (h : M.Labelled ok Inv C lbl) (s : σ) (b : Bool) (p : Int) :
    M.Labelled ok Inv ⟨s, b, M.keep s (update C.pending p none)⟩
      (M.keep s (update lbl p none)) := by
  intro q
  by_cases hfresh : M.fresh s q
  · left; simp [keep, hfresh]
  · by_cases hq : q = p
    · subst q; left; simp [keep]
    · simpa [keep, hfresh, hq] using h q

theorem Labelled.keep_some {C : Config σ κ} {lbl : Int → Option Γ}
    (h : M.Labelled ok Inv C lbl) (s : σ) (b : Bool) {p : Int} {c : κ}
    {k : σ → Flow σ Int} {γ : Γ} (hrest : M.GoodRest ok Inv p γ c k) :
    M.Labelled ok Inv ⟨s, b, M.keep s (update C.pending p (some (c, k)))⟩
      (M.keep s (update lbl p (some γ))) := by
  intro q
  by_cases hfresh : M.fresh s q
  · left; simp [keep, hfresh]
  · by_cases hq : q = p
    · subst q; right; exact ⟨c, k, γ, by simp [keep, hfresh], by simp [keep, hfresh], hrest⟩
    · simpa [keep, hfresh, hq] using h q

/-- A good execution leads to a configuration that satisfies the invariant. -/
theorem Labelled.settle {C C' : Config σ κ} {lbl : Int → Option Γ} {c : κ} {b : Bool}
    {tr : List (Segment σ κ)} {o : Outcome} {x : Flow σ Int}
    (h : M.Labelled ok Inv C lbl) (hgood : M.Good ok Inv c x b tr C.state lbl)
    (hflow : M.settle C c x = some (o, C')) :
    ∃ lbl', Inv (tr ++ [⟨M.current C.state, c, b, C.state, o, C'.state⟩]) C'.state lbl' ∧
      M.Labelled ok Inv C' lbl' := by
  cases x with
  | done v s =>
      simp only [Machine.settle, Option.some.injEq, Prod.mk.injEq] at hflow
      obtain ⟨rfl, rfl⟩ := hflow
      exact ⟨_, hgood, h.keep_none s true _⟩
  | suspended s k =>
      simp only [Machine.settle, Option.some.injEq, Prod.mk.injEq] at hflow
      obtain ⟨rfl, rfl⟩ := hflow
      obtain ⟨γ, hInv, hrest⟩ := hgood
      exact ⟨_, hInv, h.keep_some s true hrest⟩
  | halted s =>
      simp only [Machine.settle, Option.some.injEq, Prod.mk.injEq] at hflow
      obtain ⟨rfl, rfl⟩ := hflow
      exact ⟨_, hgood, h.keep_none s false _⟩
  | stuck => exact hgood.elim

/-- Every run keeps a labelled invariant that each call keeps. -/
theorem run_good {s₀ : σ} {tr : List (Segment σ κ)} {C : Config σ κ}
    (hinit : Inv [] s₀ fun _ => none)
    (hcall : ∀ tr s lbl c, Inv tr s lbl → lbl (M.current s) = none → ok s false c →
      M.Good ok Inv c (M.exec c s) false tr s lbl)
    (hrun : M.Run ok (initial s₀) tr C) :
    ∃ lbl, Inv tr C.state lbl ∧ M.Labelled ok Inv C lbl := by
  induction hrun with
  | start => exact ⟨_, hinit, fun p => Or.inl ⟨rfl, rfl⟩⟩
  | @step tr C C' seg hrun hstep hok ih =>
      obtain ⟨lbl, hInv, hlbl⟩ := ih
      cases hstep with
      | call hrunning hidle hflow =>
          have hnone : lbl (M.current C.state) = none := by
            rcases hlbl (M.current C.state) with ⟨-, h⟩ | ⟨c, k, γ, h, -⟩
            · exact h
            · rw [hidle] at h; contradiction
          exact hlbl.settle (hcall _ _ _ _ hInv hnone hok) hflow
      | resume hrunning hbusy hflow =>
          rcases hlbl (M.current C.state) with ⟨h, -⟩ | ⟨c, k, γ, h, hγ, hrest⟩
          · rw [hbusy] at h; contradiction
          · rw [hbusy] at h
            obtain ⟨rfl, rfl⟩ : _ ∧ _ := by simpa using h
            exact hlbl.settle (hrest _ _ _ hInv rfl hγ hok) hflow

end Labelled

/-! ## Invariants of the state -/

/--
The execution of call `c` keeps the invariant `I` of the state at every point
where the processor can be lost, and each of its segments satisfies `R`.  A
process for which `D` holds when it loses the processor never runs again, so
nothing is asked of the rest of its call.
-/
def Keeps (ok : σ → Bool → κ → Prop) (I : σ → Prop) (D : σ → Int → Prop)
    (R : Segment σ κ → Prop) (c : κ) : Flow σ Int → Bool → σ → Prop
  | .done v s, b, s₀ => I s ∧ R ⟨M.current s₀, c, b, s₀, .returned v, s⟩
  | .suspended s k, b, s₀ =>
      I s ∧ R ⟨M.current s₀, c, b, s₀, .switched, s⟩ ∧
        (D s (M.current s₀) ∨
          ∀ s', I s' → M.current s' = M.current s₀ → ok s' true c →
            Keeps ok I D R c (k s') true s')
  | .halted s, b, s₀ => I s ∧ R ⟨M.current s₀, c, b, s₀, .halted, s⟩
  | .stuck, _, _ => False

/-- The invariant of `Keeps`, in the form of a labelled one: the label tells
whether the process is one that never runs again. -/
def Recorded (I : σ → Prop) (D : σ → Int → Prop) (R : Segment σ κ → Prop)
    (tr : List (Segment σ κ)) (s : σ) (lbl : Int → Option Bool) : Prop :=
  I s ∧ (∀ seg ∈ tr, R seg) ∧ ∀ p, lbl p = some true → D s p

/-- The processes for which `D` holds stay so while others run, until their
slot is given to a fresh process; the process that runs is not one of them. -/
structure Dooms (I : σ → Prop) (D : σ → Int → Prop) (R : Segment σ κ → Prop) : Prop where
  current : ∀ s, I s → ¬ D s (M.current s)
  stays : ∀ seg p, I seg.before → R seg → D seg.before p →
    M.fresh seg.after p = true ∨ D seg.after p

section Keeps

variable {M} {ok : σ → Bool → κ → Prop} {I : σ → Prop} {D : σ → Int → Prop}
variable {R : Segment σ κ → Prop}

/-- One segment extends the record. -/
theorem Recorded.snoc {tr : List (Segment σ κ)} {lbl : Int → Option Bool}
    {seg : Segment σ κ} {l : Option Bool} (h : Recorded I D R tr seg.before lbl)
    (hD : M.Dooms I D R) (hI : I seg.after) (hR : R seg)
    (hl : l = some true → D seg.after seg.who) :
    Recorded I D R (tr ++ [seg]) seg.after (M.keep seg.after (update lbl seg.who l)) := by
  refine ⟨hI, ?_, ?_⟩
  · intro seg' hmem
    rcases List.mem_append.mp hmem with hmem | hmem
    · exact h.2.1 seg' hmem
    · rw [List.mem_singleton.mp hmem]; exact hR
  · intro p hp
    unfold keep at hp
    by_cases hfresh : M.fresh seg.after p = true
    · simp [hfresh] at hp
    · rw [if_neg hfresh] at hp
      by_cases hwho : p = seg.who
      · subst p
        rw [update_self] at hp
        exact hl hp
      · rw [update_of_ne hwho] at hp
        exact (hD.stays seg p h.1 hR (h.2.2 p hp)).resolve_left hfresh

/-- Keeping an invariant of the state is a special case of a labelled one. -/
theorem Keeps.good {c : κ} {x : Flow σ Int} {b : Bool} {tr : List (Segment σ κ)}
    {s₀ : σ} {lbl : Int → Option Bool} (hD : M.Dooms I D R)
    (h : M.Keeps ok I D R c x b s₀) (hrec : Recorded I D R tr s₀ lbl) :
    M.Good ok (Recorded I D R) c x b tr s₀ lbl := by
  induction x generalizing b tr s₀ lbl with
  | done v s => exact hrec.snoc hD h.1 h.2 (by simp)
  | suspended s k ih =>
      obtain ⟨hI, hR, hdoomed | hk⟩ := h
      · refine ⟨true, hrec.snoc hD hI hR fun _ => hdoomed, ?_⟩
        intro tr' s' lbl' hrec' hcur hlbl _
        have hD' : D s' (M.current s') := hcur ▸ hrec'.2.2 _ hlbl
        exact (hD.current s' hrec'.1 hD').elim
      · refine ⟨false, hrec.snoc hD hI hR (by simp), ?_⟩
        intro tr' s' lbl' hrec' hcur _ hok
        exact ih s' (hk s' hrec'.1 hcur hok) hrec'
  | halted s => exact hrec.snoc hD h.1 h.2 (by simp)
  | stuck => exact h

/-- Every run keeps an invariant of the state that each call keeps, and all its
segments satisfy the relation that the segments of each call satisfy. -/
theorem run_keeps {s₀ : σ} {tr : List (Segment σ κ)} {C : Config σ κ} (hinit : I s₀)
    (hD : M.Dooms I D R)
    (hcall : ∀ s c, I s → ok s false c → M.Keeps ok I D R c (M.exec c s) false s)
    (hrun : M.Run ok (initial s₀) tr C) :
    I C.state ∧ ∀ seg ∈ tr, R seg := by
  have hstart : Recorded I D R [] s₀ fun _ => none := ⟨hinit, by simp, by simp⟩
  have hgood : ∀ tr s lbl c, Recorded I D R tr s lbl → lbl (M.current s) = none →
      ok s false c → M.Good ok (Recorded I D R) c (M.exec c s) false tr s lbl :=
    fun tr s lbl c hrec _ hok => (hcall s c hrec.1 hok).good hD hrec
  obtain ⟨lbl, hrec, -⟩ := run_good hstart hgood hrun
  exact ⟨hrec.1, hrec.2.1⟩

/-! ## A machine inside another one -/

section Zoom

variable {τ ν : Type} {N : Machine τ ν} {ok' : τ → Bool → ν → Prop} {J : τ → Prop}
variable {D' : τ → Int → Prop} {Q : Segment τ ν → Prop} {look : τ → σ} {put : τ → σ → τ}
variable {embed : κ → ν}

/-- The machine `M` works on a component of the state of the machine `N`. -/
structure Inside (M : Machine σ κ) (N : Machine τ ν) (look : τ → σ) (put : τ → σ → τ) : Prop where
  current : ∀ t, N.current t = M.current (look t)
  look_put : ∀ t s, look (put t s) = s

/-- A call that keeps an invariant of the component keeps one of the whole state that
each of its segments keeps. -/
theorem Keeps.zoom {c : κ} {x : Flow σ Int} {b : Bool} {t : τ} (hin : Inside M N look put)
    (hlook : ∀ t, J t → I (look t))
    (hok : ∀ t, J t → ok' t true (embed c) → ok (look t) true c)
    (hput : ∀ t s b o, J t → I s → R ⟨M.current (look t), c, b, look t, o, s⟩ →
      J (put t s) ∧ Q ⟨N.current t, embed c, b, t, o, put t s⟩)
    (hD : ∀ t s p, D s p → D' (put t s) p) (hJ : J t)
    (h : M.Keeps ok I D R c x b (look t)) :
    N.Keeps ok' J D' Q (embed c) (x.zoom look put t) b t := by
  induction x generalizing b t with
  | done v s => exact hput t s b _ hJ h.1 h.2
  | suspended s k ih =>
      obtain ⟨hI, hR, hrest⟩ := h
      obtain ⟨hJ', hQ⟩ := hput t s b _ hJ hI hR
      refine ⟨hJ', hQ, ?_⟩
      rcases hrest with hdoomed | hrest
      · left
        rw [hin.current]
        exact hD t s _ hdoomed
      · right
        intro t' hJt' hcur hok'
        rw [hin.current, hin.current] at hcur
        exact ih (look t') hJt' (hrest (look t') (hlook t' hJt') hcur (hok t' hJt' hok'))
  | halted s => exact hput t s b _ hJ h.1 h.2
  | stuck => exact h

end Zoom

/-- What a step records about its segment. -/
theorem Step.segment {C C' : Config σ κ} {seg : Segment σ κ} (h : M.Step C seg C') :
    seg.before = C.state ∧ seg.after = C'.state ∧ seg.who = M.current C.state := by
  cases h with
  | call => exact ⟨rfl, rfl, rfl⟩
  | resume => exact ⟨rfl, rfl, rfl⟩

/-- A property of the history and the configuration that every step extends
holds after every run. -/
theorem run_observe_config {P : List (Segment σ κ) → Config σ κ → Prop} {s₀ : σ}
    {tr : List (Segment σ κ)} {C : Config σ κ} (hinit : I s₀) (hD : M.Dooms I D R)
    (hcall : ∀ s c, I s → ok s false c → M.Keeps ok I D R c (M.exec c s) false s)
    (hP : P [] (initial s₀))
    (hstep : ∀ tr C seg C', P tr C → M.Step C seg C' → I C.state → I C'.state → R seg →
      ok seg.before seg.resumed seg.call → P (tr ++ [seg]) C')
    (hrun : M.Run ok (initial s₀) tr C) : P tr C := by
  induction hrun with
  | start => exact hP
  | @step tr C C' seg hrun hstep' hok ih =>
      have hI := (run_keeps hinit hD hcall hrun).1
      have hI' := run_keeps hinit hD hcall (.step hrun hstep' hok)
      exact hstep tr C seg C' ih hstep' hI hI'.1 (hI'.2 seg (by simp)) hok

/-- A property of the history and the state that every segment extends holds
after every run. -/
theorem run_observe {P : List (Segment σ κ) → σ → Prop} {s₀ : σ}
    {tr : List (Segment σ κ)} {C : Config σ κ} (hinit : I s₀) (hD : M.Dooms I D R)
    (hcall : ∀ s c, I s → ok s false c → M.Keeps ok I D R c (M.exec c s) false s)
    (hP : P [] s₀)
    (hstep : ∀ tr seg, P tr seg.before → I seg.before → I seg.after → R seg →
      seg.who = M.current seg.before → ok seg.before seg.resumed seg.call →
      P (tr ++ [seg]) seg.after)
    (hrun : M.Run ok (initial s₀) tr C) : P tr C.state := by
  refine run_observe_config (P := fun tr C => P tr C.state) hinit hD hcall hP ?_ hrun
  intro tr C seg C' ih hstep' hI hI' hR hok
  obtain ⟨hbefore, hafter, hwho⟩ := hstep'.segment
  rw [← hafter]
  exact hstep tr seg (hbefore ▸ ih) (hbefore ▸ hI) (hafter ▸ hI') hR (hbefore ▸ hwho) hok

end Keeps

/-! ## Runs in pieces -/

section Pieces

variable {M} {ok : σ → Bool → κ → Prop} {C₀ C₁ C₂ : Config σ κ}
variable {tr tr' : List (Segment σ κ)}

theorem Run.append (h : M.Run ok C₀ tr C₁) (h' : M.Run ok C₁ tr' C₂) :
    M.Run ok C₀ (tr ++ tr') C₂ := by
  induction h' with
  | start => rwa [List.append_nil]
  | step hrun hstep hok ih =>
      rw [← List.append_assoc]
      exact .step ih hstep hok

/-- A run can be cut after any of its segments. -/
theorem Run.split (h : M.Run ok C₀ (tr ++ tr') C₂) :
    ∃ C₁, M.Run ok C₀ tr C₁ ∧ M.Run ok C₁ tr' C₂ := by
  induction tr' using List.reverseRecOn generalizing C₂ with
  | nil => exact ⟨C₂, by rwa [List.append_nil] at h, .start⟩
  | append_singleton tr' seg ih =>
      rw [← List.append_assoc] at h
      generalize hl : tr ++ tr' ++ [seg] = l at h
      cases h with
      | start => simp at hl
      | @step tr₁ C C' seg₁ hrun hstep hok =>
          obtain ⟨rfl, hlast⟩ := List.append_inj' hl rfl
          obtain rfl : seg = seg₁ := by simpa using hlast
          obtain ⟨C₁, hrun₁, hrun₂⟩ := ih hrun
          exact ⟨C₁, hrun₁, .step hrun₂ hstep hok⟩

/-- A run of one segment is a step. -/
theorem Run.single {seg : Segment σ κ} (h : M.Run ok C₀ [seg] C₂) :
    M.Step C₀ seg C₂ ∧ ok seg.before seg.resumed seg.call := by
  generalize hl : [seg] = l at h
  cases h with
  | start => simp at hl
  | @step tr₁ C C' seg₁ hrun hstep hok =>
      obtain ⟨rfl, hlast⟩ : tr₁ = [] ∧ seg₁ = seg := by
        have hlen := congrArg List.length hl
        obtain rfl : tr₁ = [] := List.eq_nil_of_length_eq_zero (by simpa using hlen.symm)
        exact ⟨rfl, by simpa using hl.symm⟩
      subst hlast
      generalize hnil : ([] : List (Segment σ κ)) = l at hrun
      cases hrun with
      | start => exact ⟨hstep, hok⟩
      | step => simp at hnil

/-- The first segment of a run. -/
theorem Run.uncons {seg : Segment σ κ} (h : M.Run ok C₀ (seg :: tr) C₂) :
    ∃ C₁, M.Step C₀ seg C₁ ∧ ok seg.before seg.resumed seg.call ∧ M.Run ok C₁ tr C₂ := by
  rw [← List.singleton_append] at h
  obtain ⟨C₁, hrun₁, hrun₂⟩ := h.split
  exact ⟨C₁, hrun₁.single.1, hrun₁.single.2, hrun₂⟩

/-- What is suspended after a step. -/
theorem Step.pending {C C' : Config σ κ} {seg : Segment σ κ} {p : Int} {c : κ}
    {k : σ → Flow σ Int} (h : M.Step C seg C') (hp : C'.pending p = some (c, k)) :
    M.fresh seg.after p = false ∧
      (p = seg.who ∧ seg.outcome = .switched ∧ c = seg.call ∨
        p ≠ seg.who ∧ C.pending p = some (c, k)) := by
  have hsettle : ∀ {c' : κ} {x : Flow σ Int} {o : Outcome} {b : Bool},
      M.settle C c' x = some (o, C') → M.fresh C'.state p = false ∧
        (p = M.current C.state ∧ o = .switched ∧ c = c' ∨
          p ≠ M.current C.state ∧ C.pending p = some (c, k)) := by
    intro c' x o b hflow
    have hkeep : ∀ (s : σ) (l : Option (κ × (σ → Flow σ Int))),
        M.keep s (update C.pending (M.current C.state) l) p = some (c, k) →
          M.fresh s p = false ∧ (p = M.current C.state ∧ l = some (c, k) ∨
            p ≠ M.current C.state ∧ C.pending p = some (c, k)) := by
      intro s l hl
      unfold keep at hl
      by_cases hfresh : M.fresh s p = true
      · simp [hfresh] at hl
      · rw [if_neg hfresh] at hl
        refine ⟨by simpa using hfresh, ?_⟩
        by_cases hcur : p = M.current C.state
        · subst hcur
          rw [update_self] at hl
          exact Or.inl ⟨rfl, hl⟩
        · rw [update_of_ne hcur] at hl
          exact Or.inr ⟨hcur, hl⟩
    cases x with
    | done v s =>
        simp only [Machine.settle, Option.some.injEq, Prod.mk.injEq] at hflow
        obtain ⟨rfl, rfl⟩ := hflow
        obtain ⟨hfresh, ⟨-, hnone⟩ | hother⟩ := hkeep s none hp
        · contradiction
        · exact ⟨hfresh, Or.inr hother⟩
    | suspended s k' =>
        simp only [Machine.settle, Option.some.injEq, Prod.mk.injEq] at hflow
        obtain ⟨rfl, rfl⟩ := hflow
        obtain ⟨hfresh, ⟨hcur, hsome⟩ | hother⟩ := hkeep s (some (c', k')) hp
        · rw [Option.some.injEq, Prod.mk.injEq] at hsome
          exact ⟨hfresh, Or.inl ⟨hcur, rfl, hsome.1.symm⟩⟩
        · exact ⟨hfresh, Or.inr hother⟩
    | halted s =>
        simp only [Machine.settle, Option.some.injEq, Prod.mk.injEq] at hflow
        obtain ⟨rfl, rfl⟩ := hflow
        obtain ⟨hfresh, ⟨-, hnone⟩ | hother⟩ := hkeep s none hp
        · contradiction
        · exact ⟨hfresh, Or.inr hother⟩
    | stuck => contradiction
  cases h with
  | call hrun hidle hflow => exact hsettle (b := false) hflow
  | resume hrun hbusy hflow => exact hsettle (b := true) hflow

/-- A process whose call is suspended has run before. -/
theorem RunWhen.pending_who {rule : Config σ κ → Segment σ κ → Prop} {s₀ : σ} {C : Config σ κ}
    {p : Int} (hrun : M.RunWhen rule (initial s₀) tr C) (hp : C.pending p ≠ none) :
    ∃ seg ∈ tr, seg.who = p := by
  induction hrun with
  | start => exact (hp rfl).elim
  | @step tr C C' seg hrun hstep hrule ih =>
      obtain ⟨⟨c, k⟩, hck⟩ := Option.ne_none_iff_exists'.mp hp
      obtain ⟨-, ⟨hwho, -⟩ | ⟨-, hold⟩⟩ := hstep.pending hck
      · exact ⟨seg, by simp, hwho.symm⟩
      · obtain ⟨seg', hmem, hwho⟩ := ih (by rw [hold]; nofun)
        exact ⟨seg', List.mem_append_left _ hmem, hwho⟩

/-- A suspended call of another process stays suspended. -/
theorem Step.keeps_pending {C C' : Config σ κ} {seg : Segment σ κ} {p : Int} (h : M.Step C seg C')
    (hp : p ≠ seg.who) (hfresh : M.fresh seg.after p = false) : C'.pending p = C.pending p := by
  have hsettle : ∀ {c : κ} {x : Flow σ Int} {o : Outcome}, p ≠ M.current C.state →
      M.fresh C'.state p = false → M.settle C c x = some (o, C') →
        C'.pending p = C.pending p := by
    intro c x o hne hfalse hflow
    have hkeep : ∀ (s : σ) (l : Option (κ × (σ → Flow σ Int))), M.fresh s p = false →
        M.keep s (update C.pending (M.current C.state) l) p = C.pending p := by
      intro s l hs
      unfold keep
      rw [if_neg (by rw [hs]; exact Bool.false_ne_true), update_of_ne hne]
    cases x with
    | done v s =>
        simp only [Machine.settle, Option.some.injEq, Prod.mk.injEq] at hflow
        obtain ⟨-, rfl⟩ := hflow
        exact hkeep s _ hfalse
    | suspended s k =>
        simp only [Machine.settle, Option.some.injEq, Prod.mk.injEq] at hflow
        obtain ⟨-, rfl⟩ := hflow
        exact hkeep s _ hfalse
    | halted s =>
        simp only [Machine.settle, Option.some.injEq, Prod.mk.injEq] at hflow
        obtain ⟨-, rfl⟩ := hflow
        exact hkeep s _ hfalse
    | stuck => contradiction
  cases h with
  | call hrun hidle hflow => exact hsettle hp hfresh hflow
  | resume hrun hbusy hflow => exact hsettle hp hfresh hflow

/-- A call that was suspended is kept for the process that made it. -/
theorem Step.suspends {C C' : Config σ κ} {seg : Segment σ κ} (h : M.Step C seg C')
    (hout : seg.outcome = .switched) (hfresh : M.fresh seg.after seg.who = false) :
    ∃ k, C'.pending seg.who = some (seg.call, k) := by
  have hsettle : ∀ {c : κ} {x : Flow σ Int} {o : Outcome}, o = .switched →
      M.fresh C'.state (M.current C.state) = false → M.settle C c x = some (o, C') →
        ∃ k, C'.pending (M.current C.state) = some (c, k) := by
    intro c x o ho hfalse hflow
    cases x with
    | done v s =>
        simp only [Machine.settle, Option.some.injEq, Prod.mk.injEq] at hflow
        obtain ⟨rfl, -⟩ := hflow
        contradiction
    | suspended s k =>
        simp only [Machine.settle, Option.some.injEq, Prod.mk.injEq] at hflow
        obtain ⟨-, rfl⟩ := hflow
        refine ⟨k, ?_⟩
        have hnot : ¬ M.fresh s (M.current C.state) = true := by
          rw [hfalse]
          exact Bool.false_ne_true
        show M.keep s _ (M.current C.state) = _
        unfold keep
        rw [if_neg hnot, update_self]
    | halted s =>
        simp only [Machine.settle, Option.some.injEq, Prod.mk.injEq] at hflow
        obtain ⟨rfl, -⟩ := hflow
        contradiction
    | stuck => contradiction
  cases h with
  | call hrun hidle hflow => exact hsettle hout hfresh hflow
  | resume hrun hbusy hflow => exact hsettle hout hfresh hflow

/-- A segment that starts a call is run by a process that had none suspended. -/
theorem Step.started {C C' : Config σ κ} {seg : Segment σ κ} (h : M.Step C seg C')
    (hres : seg.resumed = false) : C.pending seg.who = none := by
  cases h with
  | call hrun hidle hflow => exact hidle
  | resume => contradiction

theorem Step.running {C C' : Config σ κ} {seg : Segment σ κ} (h : M.Step C seg C') :
    C.running = true := by
  cases h with
  | call hrun => exact hrun
  | resume hrun => exact hrun

/-- Only a segment that stops the machine stops it. -/
theorem Step.running_after {C C' : Config σ κ} {seg : Segment σ κ} (h : M.Step C seg C')
    (hout : seg.outcome ≠ .halted) : C'.running = true := by
  have hsettle : ∀ {c : κ} {x : Flow σ Int} {o : Outcome}, o ≠ .halted →
      M.settle C c x = some (o, C') → C'.running = true := by
    intro c x o ho hflow
    cases x with
    | done v s =>
        simp only [Machine.settle, Option.some.injEq, Prod.mk.injEq] at hflow
        obtain ⟨-, rfl⟩ := hflow
        rfl
    | suspended s k =>
        simp only [Machine.settle, Option.some.injEq, Prod.mk.injEq] at hflow
        obtain ⟨-, rfl⟩ := hflow
        rfl
    | halted s =>
        simp only [Machine.settle, Option.some.injEq, Prod.mk.injEq] at hflow
        exact (ho hflow.1.symm).elim
    | stuck => contradiction
  cases h with
  | call hrun hidle hflow => exact hsettle hout hflow
  | resume hrun hbusy hflow => exact hsettle hout hflow

/-- A machine that runs on has not been stopped. -/
theorem Step.not_halted {C C' : Config σ κ} {seg : Segment σ κ} (h : M.Step C seg C')
    (hrun : C'.running = true) : seg.outcome ≠ .halted := by
  have hsettle : ∀ {c : κ} {x : Flow σ Int} {o : Outcome},
      M.settle C c x = some (o, C') → o ≠ .halted := by
    intro c x o hflow
    cases x with
    | done v s =>
        simp only [Machine.settle, Option.some.injEq, Prod.mk.injEq] at hflow
        rw [← hflow.1]
        nofun
    | suspended s k =>
        simp only [Machine.settle, Option.some.injEq, Prod.mk.injEq] at hflow
        rw [← hflow.1]
        nofun
    | halted s =>
        simp only [Machine.settle, Option.some.injEq, Prod.mk.injEq] at hflow
        rw [← hflow.2] at hrun
        contradiction
    | stuck => contradiction
  cases h with
  | call hrun hidle hflow => exact hsettle hflow
  | resume hrun hbusy hflow => exact hsettle hflow

/-- A resumed segment continues the call that was suspended. -/
theorem Step.resumed {C C' : Config σ κ} {seg : Segment σ κ} (h : M.Step C seg C')
    (hres : seg.resumed = true) : ∃ k, C.pending seg.who = some (seg.call, k) := by
  cases h with
  | call => contradiction
  | resume hrun hbusy hflow => exact ⟨_, hbusy⟩

end Pieces

/-! ## Relations that every segment satisfies -/

/-- Every segment of the call satisfies `R`, whatever state it is resumed in. -/
def Obeys (R : Segment σ κ → Prop) (c : κ) : Flow σ Int → Bool → σ → Prop
  | .done v s, b, s₀ => R ⟨M.current s₀, c, b, s₀, .returned v, s⟩
  | .suspended s k, b, s₀ =>
      R ⟨M.current s₀, c, b, s₀, .switched, s⟩ ∧
        ∀ s', M.current s' = M.current s₀ → Obeys R c (k s') true s'
  | .halted s, b, s₀ => R ⟨M.current s₀, c, b, s₀, .halted, s⟩
  | .stuck, _, _ => True

section Obeys

variable {M} {R : Segment σ κ → Prop} {ok : σ → Bool → κ → Prop}

/-- The suspended calls go on to satisfy the relation. -/
def Obedient (M : Machine σ κ) (R : Segment σ κ → Prop) (C : Config σ κ) : Prop :=
  ∀ p c k, C.pending p = some (c, k) → ∀ s, M.current s = p → M.Obeys R c (k s) true s

theorem Obeys.settle {C C' : Config σ κ} {c : κ} {b : Bool} {x : Flow σ Int} {o : Outcome}
    (h : M.Obeys R c x b C.state) (hC : M.Obedient R C) (hflow : M.settle C c x = some (o, C')) :
    R ⟨M.current C.state, c, b, C.state, o, C'.state⟩ ∧ M.Obedient R C' := by
  have hkeep : ∀ (s : σ) (run : Bool) (l : Option (κ × (σ → Flow σ Int))),
      (∀ c k, l = some (c, k) → ∀ s, M.current s = M.current C.state →
        M.Obeys R c (k s) true s) →
      M.Obedient R ⟨s, run, M.keep s (update C.pending (M.current C.state) l)⟩ := by
    intro s run l hl p c' k hp s' hcur
    have hp' : M.keep s (update C.pending (M.current C.state) l) p = some (c', k) := hp
    unfold keep at hp'
    split at hp'
    · contradiction
    · by_cases hpc : p = M.current C.state
      · subst hpc
        rw [update_self] at hp'
        exact hl c' k hp' s' hcur
      · rw [update_of_ne hpc] at hp'
        exact hC p c' k hp' s' hcur
  cases x with
  | done v s =>
      simp only [Machine.settle, Option.some.injEq, Prod.mk.injEq] at hflow
      obtain ⟨rfl, rfl⟩ := hflow
      exact ⟨h, hkeep s true none nofun⟩
  | suspended s k =>
      simp only [Machine.settle, Option.some.injEq, Prod.mk.injEq] at hflow
      obtain ⟨rfl, rfl⟩ := hflow
      refine ⟨h.1, hkeep s true (some (c, k)) ?_⟩
      rintro c' k' hck s' hcur
      obtain ⟨rfl, rfl⟩ : c = c' ∧ k = k' := by simpa using hck
      exact h.2 s' hcur
  | halted s =>
      simp only [Machine.settle, Option.some.injEq, Prod.mk.injEq] at hflow
      obtain ⟨rfl, rfl⟩ := hflow
      exact ⟨h, hkeep s false none nofun⟩
  | stuck => contradiction

/-- In every run, every segment satisfies a relation that all calls obey. -/
theorem run_obeys {s₀ : σ} {tr : List (Segment σ κ)} {C : Config σ κ}
    (hcall : ∀ s c, M.Obeys R c (M.exec c s) false s) (hrun : M.Run ok (initial s₀) tr C) :
    (∀ seg ∈ tr, R seg) ∧ M.Obedient R C := by
  induction hrun with
  | start => exact ⟨by simp, fun p c k hp => by simp [initial] at hp⟩
  | @step tr C C' seg hrun hstep hok ih =>
      have hseg : R seg ∧ M.Obedient R C' := by
        cases hstep with
        | call hrunning hidle hflow => exact (hcall _ _).settle ih.2 hflow
        | resume hrunning hbusy hflow => exact (ih.2 _ _ _ hbusy _ rfl).settle ih.2 hflow
      refine ⟨?_, hseg.2⟩
      intro seg' hmem
      rcases List.mem_append.mp hmem with hmem | hmem
      · exact ih.1 seg' hmem
      · rw [List.mem_singleton.mp hmem]
        exact hseg.1

/-- The rest of a call after a part of it that changes the state as `r` allows; `t` is
the state in which that part begins. -/
theorem obeys_bind {α : Type} {r : σ → σ → Prop} {t : σ} {c : κ} {x : Flow σ α}
    {f : α → Coop σ Int} {b : Bool} {s₀ : σ} (hx : x.Within r t)
    (hlost : ∀ s o, r t s → (∀ w, o ≠ .returned w) → R ⟨M.current s₀, c, b, s₀, o, s⟩)
    (hf : ∀ a s, r t s → M.Obeys R c (f a s) b s₀)
    (hlost' : ∀ s₁ s o, M.current s₁ = M.current s₀ → r s₁ s → (∀ w, o ≠ .returned w) →
      R ⟨M.current s₁, c, true, s₁, o, s⟩)
    (hf' : ∀ a s₁ s, M.current s₁ = M.current s₀ → r s₁ s → M.Obeys R c (f a s) true s₁) :
    M.Obeys R c (x.bind f) b s₀ := by
  induction x generalizing t b s₀ with
  | done a s => exact hf a s hx
  | suspended s k ih =>
      refine ⟨hlost s _ hx.1 nofun, ?_⟩
      intro s₁ hcur
      refine ih s₁ (hx.2 s₁) ?_ ?_ ?_ ?_
      · exact fun s o hr hout => hlost' s₁ s o hcur hr hout
      · exact fun a s hr => hf' a s₁ s hcur hr
      · exact fun s₂ s o hcur₂ hr hout => hlost' s₂ s o (hcur₂.trans hcur) hr hout
      · exact fun a s₂ s hcur₂ hr => hf' a s₂ s (hcur₂.trans hcur) hr
  | halted s => exact hlost s _ hx nofun
  | stuck => trivial

/-- A call that changes the state as `r` allows to its end. -/
theorem obeys_within {r : σ → σ → Prop} {t : σ} {c : κ} {x : Flow σ Int} {b : Bool} {s₀ : σ}
    (hx : x.Within r t) (hR : ∀ s o, r t s → R ⟨M.current s₀, c, b, s₀, o, s⟩)
    (hR' : ∀ s₁ s o, r s₁ s → R ⟨M.current s₁, c, true, s₁, o, s⟩) :
    M.Obeys R c x b s₀ := by
  have hall : M.Obeys R c (x.bind fun a s => .done a s) b s₀ := by
    refine obeys_bind hx ?_ ?_ ?_ ?_
    · exact fun s o hr _ => hR s o hr
    · exact fun a s hr => hR s _ hr
    · exact fun s₁ s o _ hr _ => hR' s₁ s o hr
    · exact fun a s₁ s _ hr => hR' s₁ s _ hr
  rwa [Flow.bind_pure] at hall

/-- A relation that holds of all segments of the call. -/
theorem obeys_all {c : κ} (h : ∀ seg : Segment σ κ, seg.call = c → R seg) (x : Flow σ Int)
    (b : Bool) (s₀ : σ) : M.Obeys R c x b s₀ := by
  induction x generalizing b s₀ with
  | done v s => exact h _ rfl
  | suspended s k ih => exact ⟨h _ rfl, fun s' _ => ih s' true s'⟩
  | halted s => exact h _ rfl
  | stuck => trivial

end Obeys

/-! ## Calls that are traced by labels -/

/-- Every segment of the call satisfies `R`, whatever state it is resumed in.  `R`
also relates the label that the suspended call had before the segment and the one
that it chooses when it is suspended again. -/
def Traced (R : Option Γ → Segment σ κ → Option Γ → Prop) (c : κ) :
    Flow σ Int → Option Γ → Bool → σ → Prop
  | .done v s, l, b, s₀ => R l ⟨M.current s₀, c, b, s₀, .returned v, s⟩ none
  | .suspended s k, l, b, s₀ =>
      ∃ γ, R l ⟨M.current s₀, c, b, s₀, .switched, s⟩ (some γ) ∧
        ∀ s', M.current s' = M.current s₀ → Traced R c (k s') (some γ) true s'
  | .halted s, l, b, s₀ => R l ⟨M.current s₀, c, b, s₀, .halted, s⟩ none
  | .stuck, _, _, _ => True

section Traced

variable {M} {R : Option Γ → Segment σ κ → Option Γ → Prop}
variable {rule : Config σ κ → Segment σ κ → Prop}

/-- The suspended calls have labels, and go on as these say. -/
def TracedBy (M : Machine σ κ) (R : Option Γ → Segment σ κ → Option Γ → Prop)
    (C : Config σ κ) (lbl : Int → Option Γ) : Prop :=
  ∀ p, (C.pending p = none ∧ lbl p = none) ∨
    ∃ c k γ, C.pending p = some (c, k) ∧ lbl p = some γ ∧
      ∀ s, M.current s = p → M.Traced R c (k s) (some γ) true s

theorem TracedBy.keep {C : Config σ κ} {lbl : Int → Option Γ} {p : Int}
    {r : Option (κ × (σ → Flow σ Int))} {l : Option Γ} (h : M.TracedBy R C lbl) (s : σ) (b : Bool)
    (hr : (r = none ∧ l = none) ∨ ∃ c k γ, r = some (c, k) ∧ l = some γ ∧
      ∀ s, M.current s = p → M.Traced R c (k s) (some γ) true s) :
    M.TracedBy R ⟨s, b, M.keep s (update C.pending p r)⟩ (M.keep s (update lbl p l)) := by
  intro q
  unfold Machine.keep
  by_cases hfresh : M.fresh s q = true
  · left
    simp [hfresh]
  · by_cases hq : q = p
    · subst hq
      simpa [hfresh] using hr
    · simpa [hfresh, hq] using h q

/-- A traced execution leads to a configuration that is traced again. -/
theorem Traced.settle {C C' : Config σ κ} {lbl : Int → Option Γ} {c : κ} {b : Bool} {o : Outcome}
    {x : Flow σ Int} (h : M.Traced R c x (lbl (M.current C.state)) b C.state)
    (hC : M.TracedBy R C lbl) (hflow : M.settle C c x = some (o, C')) :
    ∃ l, R (lbl (M.current C.state)) ⟨M.current C.state, c, b, C.state, o, C'.state⟩ l ∧
      M.TracedBy R C' (M.keep C'.state (update lbl (M.current C.state) l)) := by
  cases x with
  | done v s =>
      simp only [Machine.settle, Option.some.injEq, Prod.mk.injEq] at hflow
      obtain ⟨rfl, rfl⟩ := hflow
      exact ⟨none, h, hC.keep s true (Or.inl ⟨rfl, rfl⟩)⟩
  | suspended s k =>
      simp only [Machine.settle, Option.some.injEq, Prod.mk.injEq] at hflow
      obtain ⟨rfl, rfl⟩ := hflow
      obtain ⟨γ, hR, hrest⟩ := h
      exact ⟨some γ, hR, hC.keep s true (Or.inr ⟨c, k, γ, rfl, rfl, hrest⟩)⟩
  | halted s =>
      simp only [Machine.settle, Option.some.injEq, Prod.mk.injEq] at hflow
      obtain ⟨rfl, rfl⟩ := hflow
      exact ⟨none, h, hC.keep s false (Or.inl ⟨rfl, rfl⟩)⟩
  | stuck => contradiction

/-- A property of the history, the configuration and the labels that every traced
segment extends holds after every run. -/
theorem run_traced {P : List (Segment σ κ) → Config σ κ → (Int → Option Γ) → Prop} {s₀ : σ}
    {tr : List (Segment σ κ)} {C : Config σ κ}
    (hcall : ∀ s c, M.Traced R c (M.exec c s) none false s)
    (hP : P [] (initial s₀) fun _ => none)
    (hstep : ∀ tr C lbl seg C' l, P tr C lbl → M.TracedBy R C lbl → M.Step C seg C' →
      rule C seg → R (lbl seg.who) seg l →
        P (tr ++ [seg]) C' (M.keep seg.after (update lbl seg.who l)))
    (hrun : M.RunWhen rule (initial s₀) tr C) : ∃ lbl, P tr C lbl ∧ M.TracedBy R C lbl := by
  induction hrun with
  | start => exact ⟨_, hP, fun p => Or.inl ⟨rfl, rfl⟩⟩
  | @step tr C C' seg hrun hstep' hrule ih =>
      obtain ⟨lbl, hPC, hC⟩ := ih
      have hseg : ∃ l, R (lbl seg.who) seg l ∧
          M.TracedBy R C' (M.keep seg.after (update lbl seg.who l)) := by
        cases hstep' with
        | call hrunning hidle hflow =>
            have hnone : lbl (M.current C.state) = none := by
              rcases hC (M.current C.state) with ⟨-, hl⟩ | ⟨c, k, γ, hp, -⟩
              · exact hl
              · rw [hidle] at hp
                contradiction
            have htraced := hcall C.state
            exact Traced.settle (hnone ▸ htraced _) hC hflow
        | resume hrunning hbusy hflow =>
            rcases hC (M.current C.state) with ⟨hp, -⟩ | ⟨c, k, γ, hp, hl, hrest⟩
            · rw [hbusy] at hp
              contradiction
            · rw [hbusy, Option.some.injEq, Prod.mk.injEq] at hp
              obtain ⟨rfl, rfl⟩ := hp
              exact Traced.settle (hl ▸ hrest C.state rfl) hC hflow
      obtain ⟨l, hR, hC'⟩ := hseg
      exact ⟨_, hstep tr C lbl seg C' l hPC hC hstep' hrule hR, hC'⟩

/-- The rest of a call that changes the state as `r` allows, and has the label `γ` where
it is suspended; `t` is where the first stretch that is looked at begins. -/
theorem Traced.of_within {r : σ → σ → Prop} {t : σ} {c : κ} {x : Flow σ Int} {b : Bool} {s₀ : σ}
    {l : Option Γ} (γ : Γ) (hx : x.Within r t)
    (hfirst : ∀ s o l', r t s → (l' = none ∨ l' = some γ) →
      R l ⟨M.current s₀, c, b, s₀, o, s⟩ l')
    (hlater : ∀ s₁ s o l', r s₁ s → (l' = none ∨ l' = some γ) →
      R (some γ) ⟨M.current s₁, c, true, s₁, o, s⟩ l') : M.Traced R c x l b s₀ := by
  induction x generalizing t b s₀ l with
  | done v s => exact hfirst s _ none hx (Or.inl rfl)
  | suspended s k ih =>
      refine ⟨γ, hfirst s _ (some γ) hx.1 (Or.inr rfl), ?_⟩
      intro s₁ _
      exact ih s₁ (hx.2 s₁) fun s o l' => hlater s₁ s o l'
  | halted s => exact hfirst s _ none hx (Or.inl rfl)
  | stuck => trivial

end Traced

end Machine

end Foundations
end Xinu
