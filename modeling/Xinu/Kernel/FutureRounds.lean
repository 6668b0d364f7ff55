import Xinu.Kernel.FutureSpec

/-!
# Rounds of an exclusive future

An exclusive future notes the process that waits for it in its field `pid`, and
`future_set` makes the process ready that is noted there.  `future_wait` writes the
field only while it is -1 and nothing resets it, so it keeps naming the process that
waited first.

Main results:

- Theorem `pid_firstWaiter`: in every run the future remembers its first waiter.
- Theorem `set_wakes_getter`: `future_set` makes ready the process that is blocked, and
  no other, if that is the first waiter.
- Theorem `second_round`: it is not so in the second round.
-/

namespace Xinu

open Foundations Function

/-! ## What future_set is for -/

/-- Process `p` is blocked in a `future_get` of the future at `f`. -/
def BlockedGetter (f : Nat) (C : Config Futures FCall) (p : Int) : Prop :=
  match C.pending p with
  | some (.futureGet g _, _) => g = f ∧ (kernelOf C.state).state p = .prWait
  | _ => False

/-- Make a process ready, if there is one. -/
def wakeGetter : Option Int → FutureM Int
  | none => return syserr
  | some p => onKernel (ready p)

/-- Drop the value of an exclusive future if there is one, give it the value otherwise,
and make ready the process `who`, as far as there is one.  The mask is left as the code
leaves it. -/
def setAndWake (f : Nat) (value : Int) (who : Option Int) : FutureM Int := do
  let mask ← disable
  let e ← theFuture f
  if e.state = .futureReady then
    setFuture f fun e => { e with state := .futureEmpty }
    let _ ← wakeGetter who
    restore mask
    return ok
  else
    setFuture f fun e => { e with value := value }
    setFuture f fun e => { e with state := .futureReady }
    let _ ← wakeGetter who
    restore false
    return ok

/-- A `future_set` makes ready exactly the process that is blocked, or none if none is. -/
def WakesGetter (f : Nat) (value : Int32) (C : Config Futures FCall) : Prop :=
  ∃ who : Option Int, (∀ p, BlockedGetter f C p ↔ who = some p) ∧
    FCall.exec (.futureSet f value) C.state = setAndWake f value.toInt who C.state

/-! ## The first waiter -/

/-- The segment begins a `future_get` that finds the future empty.  -1 is no process. -/
def StartsWaiting (f : Nat) (seg : Segment Futures FCall) : Prop :=
  match seg.call with
  | .futureGet g _ => g = f ∧ seg.resumed = false ∧ seg.who ≠ -1 ∧
      (seg.before.future f).map Future.state = some .futureEmpty
  | _ => False

instance (f : Nat) (seg : Segment Futures FCall) : Decidable (StartsWaiting f seg) := by
  unfold StartsWaiting
  split <;> infer_instance

/-- The process that was the first to wait for the future. -/
def firstWaiter (f : Nat) (tr : List (Segment Futures FCall)) : Option Int :=
  (tr.find? (StartsWaiting f ·)).map Segment.who

/-- The future at `f` is an exclusive one, and the memory at `f` is handed out once. -/
def OneFuture (f : Nat) (seg : Segment Futures FCall) : Prop :=
  match seg.call with
  | .futureAlloc mode => seg.outcome = .returned f →
      mode = .futureExclusive ∧ seg.before.future f = none
  | _ => True

instance (f : Nat) (seg : Segment Futures FCall) : Decidable (OneFuture f seg) := by
  unfold OneFuture
  split <;> infer_instance

/-- While a value is pending nobody is blocked; otherwise the process that is blocked is
the first waiter, or nobody is blocked and the first waiter, if there was one, is gone. -/
def InFirstRound (f : Nat) (tr : List (Segment Futures FCall)) (C : Config Futures FCall) : Prop :=
  if (C.state.future f).map Future.state = some .futureReady then ∀ p, ¬ BlockedGetter f C p
  else ∃ who, (∀ p, BlockedGetter f C p ↔ who = some p) ∧
    (who = firstWaiter f tr ∨
      who = none ∧ ∀ p, firstWaiter f tr = some p → isbadpid (kernelOf C.state) p)

/-! ## What the calls do to the future -/

section Runs

variable {f : Nat} {t : Futures} {e : Future}

theorem firstWaiter_concat (f : Nat) (tr : List (Segment Futures FCall))
    (seg : Segment Futures FCall) : firstWaiter f (tr ++ [seg]) =
      (firstWaiter f tr).or (if StartsWaiting f seg then some seg.who else none) := by
  unfold firstWaiter
  rw [List.find?_append]
  cases tr.find? (StartsWaiting f ·) with
  | some seg' => rfl
  | none => by_cases hseg : StartsWaiting f seg <;> simp [hseg]

theorem wakeGetter_within {r : Futures → Futures → Prop} (h : OfFutures r) (who : Option Int) :
    (wakeGetter who).Within r := by
  have := h.toIsPreorder
  cases who with
  | none => exact .pure _
  | some p => exact onKernel_within h _

/-- In exclusive mode `future_set` wakes the process that the future names. -/
theorem futureSet_exclusive (he : t.future f = some e) (hmode : e.mode = .futureExclusive)
    (value : Int) : futureSet f value t =
      setAndWake f value (if e.state = .futureReady then none else some e.pid) t := by
  have hlook : theFuture f (withMask t false) = .done e (withMask t false) :=
    run_theFuture he
  unfold futureSet setAndWake
  simp only [Coop.run_bind, run_disable, Flow.bind_done, hlook]
  by_cases hready : e.state = .futureReady
  · simp only [hready, hmode, reduceCtorEq, or_self, ↓reduceIte]
    rfl
  · have hwaits : e.state = .futureWaiting ∨ e.state = .futureEmpty := by
      cases hstate : e.state with
      | futureEmpty => exact Or.inr rfl
      | futureWaiting => exact Or.inl rfl
      | futureReady => exact (hready hstate).elim
    simp only [if_pos hwaits, if_neg hready, hmode, Coop.run_bind]
    rw [run_setFuture (t := withMask t false) he, Flow.bind_done, Flow.bind_done]
    generalize hs : withFuture (withMask t false) f { e with value := value } = s
    have hvalue : s.future f = some { e with value := value } := by
      rw [← hs]
      exact update_self _ _ _
    rw [Coop.run_bind, Coop.run_bind, run_setFuture hvalue, Flow.bind_done, Flow.bind_done]
    generalize hs' : withFuture s f { e with value := value, state := .futureReady } = s'
    have hstored : s'.future f = some { e with value := value, state := .futureReady } := by
      rw [← hs']
      exact update_self _ _ _
    have hmask : maskOf s' (kernelOf s').currpid = false := by
      rw [← hs', ← hs]
      exact update_self _ _ _
    rw [Coop.run_bind, futureSignal_exclusive hstored hmode rfl, withMask_self hmask, hmask]
    rw [Coop.run_bind, Flow.bind_assoc]
    rfl

/-! ## Runs -/

/-- The future, if there is one, is exclusive. -/
def Exclusive (f : Nat) (t : Futures) : Prop :=
  ∀ x, namesOf f t = some x → x.1 = .futureExclusive

/-- The segment allocates the future. -/
def Allocated (f : Nat) (seg : Segment Futures FCall) : Prop :=
  match seg.call with
  | .futureAlloc _ => seg.outcome = .returned f
  | _ => False

instance (f : Nat) (seg : Segment Futures FCall) : Decidable (Allocated f seg) := by
  unfold Allocated
  split <;> infer_instance

/-- The future names nobody when it is allocated, and then the first process that begins
to wait. -/
def Names (f : Nat) (seg : Segment Futures FCall) : Prop :=
  namesOf f seg.after =
    if Allocated f seg then some (.futureExclusive, -1)
    else if StartsWaiting f seg ∧ namesOf f seg.before = some (.futureExclusive, -1) then
      some (.futureExclusive, seg.who)
    else namesOf f seg.before

/-- What each segment does to an exclusive future.  A call that began on a future of
another mode has the label `false`. -/
def NamesIf (f : Nat) (l : Option Bool) (seg : Segment Futures FCall) (l' : Option Bool) : Prop :=
  l ≠ some false → Exclusive f seg.before → OneFuture f seg →
    l' ≠ some false ∧ (seg.outcome ≠ .halted → Names f seg)

/-- Only a segment that begins a call begins to wait. -/
theorem not_startsWaiting {seg : Segment Futures FCall} (hres : seg.resumed = true) :
    ¬ StartsWaiting f seg := by
  unfold StartsWaiting
  rw [hres]
  split
  · rintro ⟨-, hfalse, -⟩
    contradiction
  · exact id

/-- A call that does not allocate and leaves the future, as it is at the start `t'` of its
first stretch, alone. -/
theorem traced_of_within {c : FCall} {x : Flow Futures Int} {t' : Futures}
    (hx : x.Within (SameView (namesOf f)) t') (halloc : ∀ mode, c ≠ .futureAlloc mode)
    (hfirst : ∀ o s, Exclusive f t → namesOf f s = namesOf f t' →
      Names f ⟨futureMachine.current t, c, false, t, o, s⟩) :
    futureMachine.Traced (NamesIf f) c x none false t := by
  refine Machine.Traced.of_within true hx ?_ ?_
  · intro s o l' hsame hl' _ hexcl _
    exact ⟨by rcases hl' with rfl | rfl <;> nofun, fun _ => hfirst o s hexcl hsame⟩
  · intro s₁ s o l' hsame hl' _ _ _
    refine ⟨by rcases hl' with rfl | rfl <;> nofun, fun _ => ?_⟩
    have hnot : ¬ Allocated f ⟨futureMachine.current s₁, c, true, s₁, o, s⟩ := by
      unfold Allocated
      split
      · next mode hcall => exact (halloc mode hcall).elim
      · exact id
    unfold Names
    rw [if_neg hnot, if_neg fun h => not_startsWaiting rfl h.1]
    exact hsame

/-- A call that neither allocates nor begins to wait. -/
theorem traced_aside {c : FCall} {x : Flow Futures Int} (hx : x.Within (SameView (namesOf f)) t)
    (halloc : ∀ mode, c ≠ .futureAlloc mode)
    (hstart : ∀ o s, ¬ StartsWaiting f ⟨futureMachine.current t, c, false, t, o, s⟩) :
    futureMachine.Traced (NamesIf f) c x none false t := by
  refine traced_of_within hx halloc fun o s _ hsame => ?_
  have hnot : ¬ Allocated f ⟨futureMachine.current t, c, false, t, o, s⟩ := by
    unfold Allocated
    split
    · next mode hcall => exact (halloc mode hcall).elim
    · exact id
  unfold Names
  rw [if_neg hnot, if_neg fun h => hstart o s h.1]
  exact hsame

/-- A call that begins while the future is of another mode. -/
theorem traced_not_exclusive {c : FCall} (x : Flow Futures Int) (h : ¬ Exclusive f t) :
    futureMachine.Traced (NamesIf f) c x none false t := by
  refine Machine.Traced.of_within false (Flow.Within.trivial t x) ?_ ?_
  · exact fun _ _ _ _ _ _ hexcl => (h hexcl).elim
  · exact fun _ _ _ _ _ _ hl => (hl rfl).elim

theorem setAndWake_within (f : Nat) (value : Int) (who : Option Int) :
    (setAndWake f value who).Within (SameView (namesOf f)) := by
  have h := ofFutures_namesOf f
  have hwake : ∀ mask, (do
      let _ ← wakeGetter who
      restore mask
      return ok : FutureM Int).Within (SameView (namesOf f)) :=
    fun mask => .bind (wakeGetter_within h who) fun _ => .bind (onCpu_within h _) fun _ => .pure _
  refine .bind (onCpu_within h _) fun mask => .bind (theFuture_within h f) fun e => .ite ?_ ?_
  · exact .bind (namesOf_setFuture _ fun _ => ⟨rfl, rfl⟩) fun _ => hwake mask
  · refine .bind (namesOf_setFuture _ fun _ => ⟨rfl, rfl⟩) fun _ => ?_
    exact .bind (namesOf_setFuture _ fun _ => ⟨rfl, rfl⟩) fun _ => hwake false

theorem not_exclusive (he : t.future f = some e) (hmode : e.mode ≠ .futureExclusive) :
    ¬ Exclusive f t := by
  intro h
  have hnamed : namesOf f t = some e.names := by
    unfold namesOf
    rw [he]
    rfl
  exact hmode (h _ hnamed)

theorem traced_halted {c : FCall} (t' : Futures) :
    futureMachine.Traced (NamesIf f) c (.halted t') none false t :=
  fun _ _ _ => ⟨nofun, fun h => (h rfl).elim⟩

theorem futureSet_traced (f g : Nat) (value : Int32) (t : Futures) :
    futureMachine.Traced (NamesIf f) (.futureSet g value) (futureSet g value.toInt t) none false
      t := by
  have halloc : ∀ mode, FCall.futureSet g value ≠ .futureAlloc mode := nofun
  have hstart : ∀ o s, ¬ StartsWaiting f
      ⟨futureMachine.current t, .futureSet g value, false, t, o, s⟩ := fun _ _ h => h
  by_cases hgf : g = f
  · subst hgf
    cases he : t.future g with
    | none =>
        have hrun : futureSet g value.toInt t = .halted (withMask t false) := halts_of_none he
        rw [hrun]
        exact traced_halted _
    | some e =>
        by_cases hmode : e.mode = .futureExclusive
        · rw [futureSet_exclusive he hmode]
          exact traced_aside (setAndWake_within g _ _ t) halloc hstart
        · exact traced_not_exclusive _ (not_exclusive he hmode)
  · have hwithin := futureSet_within (ofFutures_at f) (setFuture_other hgf) value.toInt t
    have hsame := hwithin.mono fun _ _ h => congrArg (Option.map Future.names) h
    exact traced_aside hsame halloc hstart

theorem futureGet_traced (f g : Nat) (depth : Nat) (t : Futures) :
    futureMachine.Traced (NamesIf f) (.futureGet g depth) (futureGet g depth t) none false t := by
  have halloc : ∀ mode, FCall.futureGet g depth ≠ .futureAlloc mode := nofun
  by_cases hgf : g = f
  swap
  · have hwithin := futureGet_within (ofFutures_at f) (setFuture_other hgf) depth t
    refine traced_aside (hwithin.mono fun _ _ h => congrArg (Option.map Future.names) h) halloc ?_
    exact fun o s h => hgf h.1
  subst hgf
  cases depth with
  | zero => exact traced_halted _
  | succ depth =>
      cases he : t.future g with
      | none =>
          have hrun : futureGet g (depth + 1) t = .halted (withMask t false) := halts_of_none he
          rw [hrun]
          exact traced_halted _
      | some e =>
          by_cases hmode : e.mode = .futureExclusive
          swap
          · exact traced_not_exclusive _ (not_exclusive he hmode)
          by_cases hempty : e.state = .futureEmpty
          · obtain ⟨t', mask, hrun, hnamed⟩ := futureGet_waits he hmode hempty depth
            rw [hrun]
            refine traced_of_within (waitRest_within g mask t') halloc ?_
            intro o s _ hsame
            have hbefore : namesOf g t = some (.futureExclusive, e.pid) := by
              unfold namesOf
              rw [he, ← hmode]
              rfl
            have hnot : ¬ Allocated g
                ⟨futureMachine.current t, .futureGet g (depth + 1), false, t, o, s⟩ := id
            have hstarts : StartsWaiting g
                ⟨futureMachine.current t, .futureGet g (depth + 1), false, t, o, s⟩ ↔
                  (kernelOf t).currpid ≠ -1 := by
              have hstate : (t.future g).map Future.state = some .futureEmpty := by
                rw [he, ← hempty]
                rfl
              exact ⟨fun h => h.2.2.1, fun h => ⟨rfl, rfl, h, hstate⟩⟩
            unfold Names
            rw [if_neg hnot]
            have hafter : namesOf g s = some (.futureExclusive,
                if e.pid = -1 then (kernelOf t).currpid else e.pid) := hsame.trans hnamed
            by_cases hpid : e.pid = -1
            · rw [if_pos hpid] at hafter
              rw [hpid] at hbefore
              by_cases hwho : (kernelOf t).currpid = -1
              · rw [if_neg fun h => hstarts.mp h.1 hwho]
                rw [hwho] at hafter
                exact hafter.trans hbefore.symm
              · rw [if_pos ⟨hstarts.mpr hwho, hbefore⟩]
                exact hafter
            · rw [if_neg hpid] at hafter
              have hother : ¬ namesOf g t = some (.futureExclusive, -1) := by
                rw [hbefore]
                exact fun h => hpid (Prod.mk.inj (Option.some.inj h)).2
              rw [if_neg fun h => hother h.2]
              exact hafter.trans hbefore.symm
          · refine traced_aside (futureGet_aside he hmode hempty depth) halloc ?_
            rintro o s ⟨-, -, -, hstate⟩
            rw [he] at hstate
            exact hempty (Option.some.inj hstate)

theorem futureCall_traced (f : Nat) (t : Futures) (c : FCall) :
    futureMachine.Traced (NamesIf f) c (futureMachine.exec c t) none false t := by
  cases c with
  | kernel c =>
      refine traced_aside (onKernel_within (ofFutures_namesOf f) c.exec t) nofun ?_
      exact fun _ _ h => h
  | futureAlloc mode =>
      have h := futureAlloc_namesOf f mode t
      show futureMachine.Traced (NamesIf f) (.futureAlloc mode) (futureAlloc mode t) none false t
      generalize futureAlloc mode t = x at h
      cases x with
      | done a t' =>
          intro _ _ hone
          refine ⟨nofun, fun _ => ?_⟩
          have hafter : namesOf f t' = if a = (f : Int) then some (mode, -1) else namesOf f t := h
          unfold Names
          dsimp only
          rw [hafter]
          by_cases haf : a = (f : Int)
          · subst haf
            have halloc : Allocated f ⟨futureMachine.current t, .futureAlloc mode, false, t,
              .returned f, t'⟩ := rfl
            obtain ⟨rfl, -⟩ := hone rfl
            rw [if_pos rfl, if_pos halloc]
          · have hnot : ¬ Allocated f ⟨futureMachine.current t, .futureAlloc mode, false, t,
                .returned a, t'⟩ := fun h => haf (Outcome.returned.inj h)
            rw [if_neg haf, if_neg hnot, if_neg fun h => h.1]
      | suspended s k => exact h.elim
      | halted s => exact traced_halted s
      | stuck => trivial
  | futureSet g value => exact futureSet_traced f g value t
  | futureGet g depth => exact futureGet_traced f g depth t

/-- One waits for a future that is there. -/
theorem StartsWaiting.present {seg : Segment Futures FCall} (h : StartsWaiting f seg) :
    Xinu.namesOf f seg.before ≠ none := by
  unfold StartsWaiting at h
  split at h
  · obtain ⟨-, -, -, hstate⟩ := h
    obtain ⟨e, he, -⟩ := Option.map_eq_some_iff.mp hstate
    unfold Xinu.namesOf
    rw [he]
    nofun
  · exact h.elim

/-- The first waiter is a process. -/
theorem firstWaiter_ne (f : Nat) (tr : List (Segment Futures FCall)) :
    firstWaiter f tr ≠ some (-1) := by
  intro h
  obtain ⟨seg, hfind, hwho⟩ := Option.map_eq_some_iff.mp h
  have hstarts : StartsWaiting f seg := by simpa using List.find?_some hfind
  unfold StartsWaiting at hstarts
  split at hstarts
  · exact hstarts.2.2.1 hwho
  · exact hstarts

/-- What is known of the future after a run: it names its first waiter. -/
structure Remembers (f : Nat) (tr : List (Segment Futures FCall)) (C : Config Futures FCall)
    (lbl : Int → Option Bool) : Prop where
  labels : ∀ p, lbl p ≠ some false
  names : namesOf f C.state = none ∧ firstWaiter f tr = none ∨
    namesOf f C.state = some (.futureExclusive, (firstWaiter f tr).getD (-1))

theorem Remembers.step {tr : List (Segment Futures FCall)} {C C' : Config Futures FCall}
    {lbl : Int → Option Bool} {seg : Segment Futures FCall} {l : Option Bool}
    (h : Remembers f tr C lbl) (hstep : futureMachine.Step C seg C') (hone : OneFuture f seg)
    (hR : NamesIf f (lbl seg.who) seg l) (hout : seg.outcome ≠ .halted) :
    Remembers f (tr ++ [seg]) C' (futureMachine.keep seg.after (update lbl seg.who l)) := by
  obtain ⟨hbefore, hafter, -⟩ := hstep.segment
  have hold := h.names
  rw [← hbefore] at hold
  have hexcl : Exclusive f seg.before := by
    intro x hx
    rcases hold with ⟨hnone, -⟩ | hsome
    · rw [hnone] at hx
      contradiction
    · rw [hsome] at hx
      rw [← Option.some.inj hx]
  obtain ⟨hl, hnames⟩ := hR (h.labels _) hexcl hone
  have hnew := hnames hout
  constructor
  · intro p
    unfold Machine.keep
    split
    · nofun
    · by_cases hp : p = seg.who
      · rw [hp, update_self]
        exact hl
      · rw [update_of_ne hp]
        exact h.labels p
  rw [← hafter, firstWaiter_concat]
  unfold Names at hnew
  by_cases halloc : Allocated f seg
  · have hgone : seg.before.future f = none := by
      unfold Allocated at halloc
      unfold OneFuture at hone
      split at halloc
      · next mode hcall =>
          rw [hcall] at hone
          exact (hone halloc).2
      · exact halloc.elim
    have hnone : namesOf f seg.before = none := by
      unfold namesOf
      rw [hgone]
      rfl
    have hnot : ¬ StartsWaiting f seg := fun h => h.present hnone
    have hfirst : firstWaiter f tr = none := by
      rcases hold with ⟨-, hfirst⟩ | hsome
      · exact hfirst
      · rw [hnone] at hsome
        contradiction
    rw [if_pos halloc] at hnew
    right
    rw [hnew, hfirst, if_neg hnot]
    rfl
  rw [if_neg halloc] at hnew
  by_cases hstarts : StartsWaiting f seg
  · have hsome : namesOf f seg.before = some (.futureExclusive, (firstWaiter f tr).getD (-1)) := by
      rcases hold with ⟨hnone, -⟩ | hsome
      · exact (hstarts.present hnone).elim
      · exact hsome
    right
    rw [if_pos hstarts]
    cases hfirst : firstWaiter f tr with
    | none =>
        rw [hfirst] at hsome
        rw [if_pos ⟨hstarts, hsome⟩] at hnew
        exact hnew
    | some p =>
        have hne : p ≠ -1 := fun hp => firstWaiter_ne f tr (hp ▸ hfirst)
        rw [hfirst] at hsome
        have hother : ¬ namesOf f seg.before = some (.futureExclusive, -1) := by
          rw [hsome]
          exact fun h => hne (Prod.mk.inj (Option.some.inj h)).2
        rw [if_neg fun h => hother h.2] at hnew
        exact hnew.trans hsome
  · rw [if_neg fun h => hstarts h.1] at hnew
    rw [hnew, if_neg hstarts, Option.or_none]
    exact hold

/-- In every run the future names its first waiter. -/
theorem pid_firstWaiter {b : Board} {tr : List (Segment Futures FCall)} {C : Config Futures FCall}
    (hrun : futureMachine.RunWhen (fun _ => OneFuture f) (Machine.initial (bootFutures b)) tr C)
    (hrunning : C.running = true) {e : Future} (he : C.state.future f = some e) :
    e.mode = .futureExclusive ∧ e.pid = (firstWaiter f tr).getD (-1) := by
  obtain ⟨lbl, h, -⟩ := Machine.run_traced
    (P := fun tr C lbl => C.running = true → Remembers f tr C lbl) (futureCall_traced f)
    (fun _ => ⟨nofun, Or.inl ⟨rfl, rfl⟩⟩)
    (fun tr C lbl seg C' l hP _ hstep hone hR hrunning =>
      (hP hstep.running).step hstep hone hR (hstep.not_halted hrunning)) hrun
  have hnamed : namesOf f C.state = some (e.mode, e.pid) := congrArg (Option.map Future.names) he
  rcases (h hrunning).names with ⟨hnone, -⟩ | hsome
  · rw [hnone] at hnamed
    contradiction
  · rw [hsome] at hnamed
    obtain ⟨hmode, hpid⟩ := Prod.mk.inj (Option.some.inj hnamed)
    exact ⟨hmode.symm, hpid.symm⟩

/-- There is nobody to be made ready in a slot that holds no process. -/
theorem setAndWake_bad (he : t.future f = some e) (hstate : e.state ≠ .futureReady)
    {p : Int} (hbad : isbadpid (kernelOf t) p) (value : Int) :
    setAndWake f value (some p) t = setAndWake f value none t := by
  have hlook : theFuture f (withMask t false) = .done e (withMask t false) :=
    run_theFuture he
  unfold setAndWake
  rw [Coop.run_bind, Coop.run_bind, run_disable, Flow.bind_done, Flow.bind_done, Coop.run_bind,
    Coop.run_bind, hlook, Flow.bind_done, Flow.bind_done, if_neg hstate, if_neg hstate]
  rw [Coop.run_bind, Coop.run_bind, run_setFuture (t := withMask t false) he, Flow.bind_done,
    Flow.bind_done]
  generalize hs : withFuture (withMask t false) f { e with value := value } = s
  have hvalue : s.future f = some { e with value := value } := by
    rw [← hs]
    exact update_self _ _ _
  rw [Coop.run_bind, Coop.run_bind, run_setFuture hvalue, Flow.bind_done, Flow.bind_done]
  generalize hs' : withFuture s f { e with value := value, state := .futureReady } = s'
  have hbad' : isbadpid (kernelOf s') p := by
    rw [← hs', ← hs]
    exact hbad
  have hready : ready p (kernelOf s') = .done syserr (kernelOf s') := by
    unfold ready
    rw [Coop.run_bind, Coop.run_get, Flow.bind_done, Coop.run_ite, if_pos hbad']
    rfl
  have hwake : wakeGetter (some p) s' = .done syserr s' := by
    show onKernel (ready p) s' = _
    rw [run_onKernel, hready]
    rfl
  rw [Coop.run_bind, Coop.run_bind, hwake]
  rfl

/--
In every run, a `future_set` on the exclusive future makes ready exactly the process that
is blocked on it, if this is the first waiter or nobody is left to be woken.
-/
theorem set_wakes_getter {b : Board} {tr : List (Segment Futures FCall)}
    {C : Config Futures FCall}
    (hrun : futureMachine.RunWhen (fun _ => OneFuture f) (Machine.initial (bootFutures b)) tr C)
    (hrunning : C.running = true) (hround : InFirstRound f tr C) (value : Int32) :
    WakesGetter f value C := by
  have hexec : FCall.exec (.futureSet f value) C.state = futureSet f value.toInt C.state := rfl
  unfold WakesGetter
  rw [hexec]
  unfold InFirstRound at hround
  cases he : C.state.future f with
  | none =>
      rw [he] at hround
      rw [if_neg nofun] at hround
      obtain ⟨who, hwho, -⟩ := hround
      refine ⟨who, hwho, ?_⟩
      have hset : futureSet f value.toInt C.state = .halted (withMask C.state false) :=
        halts_of_none he
      rw [hset]
      exact (halts_of_none he).symm
  | some e =>
      obtain ⟨hmode, hpid⟩ := pid_firstWaiter hrun hrunning he
      rw [futureSet_exclusive he hmode]
      rw [he, Option.map_some] at hround
      by_cases hready : e.state = .futureReady
      · rw [if_pos (congrArg some hready)] at hround
        rw [if_pos hready]
        exact ⟨none, fun p => ⟨fun h => (hround p h).elim, nofun⟩, rfl⟩
      · rw [if_neg fun h => hready (Option.some.inj h)] at hround
        rw [if_neg hready, hpid]
        obtain ⟨who, hwho, hfirst⟩ := hround
        refine ⟨who, hwho, ?_⟩
        have hnobody : isbadpid (kernelOf C.state) (-1) := Or.inl (by decide)
        cases hwaiter : firstWaiter f tr with
        | none =>
            rw [hwaiter] at hfirst
            have hnone : who = none := hfirst.elim id And.left
            rw [hnone]
            exact setAndWake_bad he hready hnobody _
        | some p =>
            rw [hwaiter] at hfirst
            rcases hfirst with rfl | ⟨rfl, hgone⟩
            · rfl
            · exact setAndWake_bad he hready (hgone p rfl) _

end Runs

/-! ## The second round -/

/-- The state in which an execution ends or first gives the processor away. -/
def firstStop {σ α : Type} : Flow σ α → Option σ
  | .done _ s => some s
  | .suspended s _ => some s
  | .halted s => some s
  | .stuck => none

def futureEntries : Touched :=
  ⟨[0, 1, 2], [0, 1, 2, 300, 301, 302, 303], [], [.memlist, .heap 4096, .heap 4112]⟩

/-- Process 1 waits for a value. -/
def firstRound : List (Option FCall) :=
  [some (.futureAlloc .futureExclusive), some (.kernel (.create 400 20)),
    some (.kernel (.create 400 20)), some (.kernel (.resume 1)), some (.futureGet 4096 1), none]

/-- Then it gets one, and process 2 waits for the next. -/
def secondRound : List (Option FCall) :=
  firstRound ++ [some (.futureSet 4096 7), none, some (.kernel .receive), none,
    some (.kernel (.resume 2)), some (.futureGet 4096 1), none]

instance (f : Nat) (C : Config Futures FCall) (p : Int) : Decidable (BlockedGetter f C p) := by
  unfold BlockedGetter
  split <;> infer_instance

/-- In the first round the process that waits is made ready. -/
theorem first_round : ∃ tr C,
    futureMachine.RunWhen (fun _ => OneFuture 4096) (Machine.initial (bootFutures smallBoard))
        tr C ∧
      BlockedGetter 4096 C 1 ∧ WakesGetter 4096 7 C := by
  have hreplay : (futureMachine.replayWhen (fun _ => OneFuture 4096)
      (forceFutures futureEntries 4096) firstRound []
        (Machine.initial (bootFutures smallBoard))).map (fun r =>
          decide (r.2.running = true ∧ firstWaiter 4096 r.1 = some 1 ∧
            (r.2.state.future 4096).map Future.state ≠ some .futureReady ∧
              BlockedGetter 4096 r.2 1 ∧ ¬ BlockedGetter 4096 r.2 0 ∧
                r.1.map Segment.who = [0, 0, 0, 0, 1, 0])) = some true := by
    decide +kernel
  obtain ⟨⟨tr, C⟩, hr, hend⟩ := Option.map_eq_some_iff.mp hreplay
  obtain ⟨hrunning, hfirst, hnot, hblocked, hnull, hwho⟩ := of_decide_eq_true hend
  have hrun := futureMachine.replayWhen_run (forcedFutures_eq futureEntries 4096) .start hr
  have hround : InFirstRound 4096 tr C := by
    unfold InFirstRound
    rw [if_neg hnot]
    refine ⟨some 1, fun p => ⟨fun hp => ?_, fun hp => ?_⟩, Or.inl hfirst.symm⟩
    · have hpending : C.pending p ≠ none := by
        intro hnone
        unfold BlockedGetter at hp
        rw [hnone] at hp
        exact hp
      obtain ⟨seg, hmem, rfl⟩ := hrun.pending_who hpending
      have hlisted := List.mem_map_of_mem (f := Segment.who) hmem
      rw [hwho] at hlisted
      simp only [List.mem_cons, List.not_mem_nil, or_false] at hlisted
      have hcases : seg.who = 0 ∨ seg.who = 1 := by omega
      rcases hcases with hzero | hone
      · rw [hzero] at hp
        exact (hnull hp).elim
      · rw [hone]
    · rw [← Option.some.inj hp]
      exact hblocked
  exact ⟨tr, C, hrun, hblocked, set_wakes_getter hrun hrunning hround 7⟩

/-- In the second round process 2 stays blocked. -/
theorem second_round :
    ¬ ∀ (f : Nat) (b : Board) tr (C : Config Futures FCall) (value : Int32),
      futureMachine.RunWhen (fun _ => OneFuture f) (Machine.initial (bootFutures b)) tr C →
        C.running = true → WakesGetter f value C := by
  intro hall
  have hreplay : (futureMachine.replayWhen (fun _ => OneFuture 4096)
      (forceFutures futureEntries 4096) secondRound []
        (Machine.initial (bootFutures smallBoard))).map (fun r =>
          decide (r.2.running = true ∧ BlockedGetter 4096 r.2 2 ∧
            (firstStop (FCall.exec (.futureSet 4096 8) r.2.state)).map
                (fun t => (kernelOf t).state 2) = some .prWait ∧
            (firstStop (setAndWake 4096 (8 : Int32).toInt (some 2) r.2.state)).map
                (fun t => (kernelOf t).state 2) = some .prCurr)) = some true := by
    decide +kernel
  obtain ⟨⟨tr, C⟩, hr, hend⟩ := Option.map_eq_some_iff.mp hreplay
  obtain ⟨hrunning, hblocked, hset, hwake⟩ := of_decide_eq_true hend
  have hrun := futureMachine.replayWhen_run (forcedFutures_eq futureEntries 4096) .start hr
  obtain ⟨who, hwho, hsame⟩ := hall 4096 smallBoard tr C 8 hrun hrunning
  have hwho := (hwho 2).mp hblocked
  subst hwho
  rw [hsame] at hset
  have hboth := hset.symm.trans hwake
  exact absurd (Option.some.inj hboth) nofun

end Xinu
