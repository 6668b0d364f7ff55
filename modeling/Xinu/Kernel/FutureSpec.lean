import Xinu.Foundations.ReturnPaths
import Xinu.Kernel.QueueIds
import Xinu.Kernel.Script

/-!
# The calls of a future

What the calls of a future leave alone, and what an exclusive future does with the
process it names.

Main results:

- Theorems `futureSet_within` and `futureGet_within`: what the parts of the calls may
  change, the calls may change.
- Theorem `futureGet_waits`: a `future_get` that waits writes its process into the future
  if none is there.
- Theorem `futureAlloc_namesOf`: a new future names nobody.
- Theorem `forcedFutures_eq`: forcing a configuration changes nothing.
-/

namespace Xinu

open Foundations Function

/-- The mode of a future and the process it names. -/
def Future.names (e : Future) : FutureMode × Int :=
  (e.mode, e.pid)

def namesOf (f : Nat) (t : Futures) : Option (FutureMode × Int) :=
  (t.future f).map Future.names

section Calls

variable {f g : Nat} {t : Futures} {α β : Type} {r : Futures → Futures → Prop}

/-- A relation that the processor and the variables of the processes do not enter. -/
structure OfFutures (r : Futures → Futures → Prop) : Prop extends IsPreorder Futures r where
  cpu : ∀ t s, r t { t with cpu := s }
  out : ∀ (t : Futures) o, r t { t with out := o }

theorem ofFutures_namesOf (f : Nat) : OfFutures (SameView (namesOf f)) :=
  ⟨inferInstance, fun _ _ => rfl, fun _ _ => rfl⟩

theorem ofFutures_at (f : Nat) : OfFutures (SameView fun t => t.future f) :=
  ⟨inferInstance, fun _ _ => rfl, fun _ _ => rfl⟩

section Within

variable (h : OfFutures r)
include h

theorem onCpu_within (x : Coop Cpu α) : (onCpu x : FutureM α).Within r :=
  .zoom (fun t s => h.cpu t s) x

theorem onKernel_within (x : KernelM α) : (onKernel x : FutureM α).Within r :=
  onCpu_within h _

theorem theFuture_within (g : Nat) : (theFuture g).Within r := by
  have := h.toIsPreorder
  intro t
  unfold theFuture
  rw [Coop.run_bind, Coop.run_get, Flow.bind_done]
  cases t.future g with
  | some e => exact refl_of r t
  | none => exact refl_of r t

/-- Calls on a future whose fields `r` lets the calls change. -/
theorem futureSignal_within (g : Nat) : (futureSignal g).Within r := by
  have := h.toIsPreorder
  have hready : ∀ q, (readyFirst q).Within r := fun q => onKernel_within h _
  have hloop : ∀ q n, (futureSignalLoop q n).Within r := by
    intro q n
    induction n with
    | zero => exact .diverge
    | succ n ih => exact .read fun _ => .ite (.bind (hready q) fun _ => ih) (.pure _)
  have hend : ∀ mask, (do restore mask; return ok : FutureM Int).Within r :=
    fun mask => .bind (onCpu_within h _) fun _ => .pure _
  refine .bind (onCpu_within h _) fun mask => .bind (theFuture_within h g) fun e => ?_
  refine .ite ?_ (.ite ?_ ?_)
  · cases e.mode with
    | futureExclusive => exact .bind (onKernel_within h _) fun _ => hend mask
    | futureShared => exact .bind (hloop _ _) fun _ => hend mask
    | futureQueue => exact .bind (hready _) fun _ => hend mask
  · cases e.mode with
    | futureExclusive => exact hend mask
    | futureShared => exact hend mask
    | futureQueue => exact .bind (hready _) fun _ => hend mask
  · exact hend mask

theorem futureGetShared_within (g : Nat) (e : Future) (mask : Bool) :
    (futureGetShared g e mask).Within r := by
  have := h.toIsPreorder
  refine .bind (onKernel_within h _) fun _ => .bind (onKernel_within h _) fun _ => ?_
  refine .bind (onKernel_within h _) fun _ => .bind (theFuture_within h g) fun _ => ?_
  exact .bind (.modify fun t => h.out t _) fun _ => .bind (onCpu_within h _) fun _ => .pure _

variable (hset : ∀ u, (setFuture g u).Within r)
include hset

theorem futureWait_within : (futureWait g).Within r := by
  have := h.toIsPreorder
  have hend : ∀ mask, (do restore mask; return ok : FutureM Int).Within r :=
    fun mask => .bind (onCpu_within h _) fun _ => .pure _
  have hresched : ∀ mask, (do
      onKernel resched
      restore mask
      return ok : FutureM Int).Within r :=
    fun mask => .bind (onKernel_within h _) fun _ => hend mask
  have hstate : waitState.Within r := onKernel_within h _
  refine .bind (onCpu_within h _) fun mask => .bind (theFuture_within h g) fun e => ?_
  refine .ite ?_ (hend mask)
  cases e.mode with
  | futureExclusive =>
      refine .bind hstate fun _ => .ite (.read fun _ => ?_) (hresched mask)
      exact .bind (hset _) fun _ => hresched mask
  | futureShared => exact .bind hstate fun _ => hresched mask
  | futureQueue => exact .bind hstate fun _ => hresched mask

theorem futureSet_within (value : Int) : (futureSet g value).Within r := by
  have := h.toIsPreorder
  have henqueue : ∀ q, (enqueueMe q).Within r := fun q => onKernel_within h _
  have hsignal : (do
      let _ ← futureSignal g
      return ok : FutureM Int).Within r :=
    .bind (futureSignal_within h g) fun _ => .pure _
  have hput : ∀ x : FutureM Int, x.Within r → (do
      setFuture g fun e => { e with value := value }
      setFuture g fun e => { e with state := .futureReady }
      x : FutureM Int).Within r :=
    fun x hx => .bind (hset _) fun _ => .bind (hset _) fun _ => hx
  have hend : ∀ mask, (do restore mask; return ok : FutureM Int).Within r :=
    fun mask => .bind (onCpu_within h _) fun _ => .pure _
  refine .bind (onCpu_within h _) fun mask => .bind (theFuture_within h g) fun e => .ite ?_ ?_
  · cases e.mode with
    | futureExclusive => exact hput _ hsignal
    | futureShared =>
        refine hput _ (.bind (onKernel_within h _) fun _ => ?_)
        exact .bind (onKernel_within h _) fun _ => .bind (onKernel_within h _) fun _ => hend mask
    | futureQueue =>
        refine .read fun _ => .ite ?_ (hput _ hsignal)
        exact .bind (henqueue _) fun _ => .bind (futureWait_within h hset) fun _ => hput _ hsignal
  · cases e.mode with
    | futureExclusive => exact .bind (hset _) fun _ => hend mask
    | futureShared => exact .pure _
    | futureQueue => exact .pure _

theorem futureGet_within (depth : Nat) : (futureGet g depth).Within r := by
  have := h.toIsPreorder
  have hsetOut : ∀ v, (setOut v).Within r := fun v => .modify fun t => h.out t _
  have hwait := futureWait_within h hset
  induction depth with
  | zero => exact fun t => refl_of r t
  | succ depth ih =>
      have hagain : (do
          let _ ← futureWait g
          let _ ← futureGet g depth
          return ok : FutureM Int).Within r :=
        .bind hwait fun _ => .bind ih fun _ => .pure _
      refine .bind (onCpu_within h _) fun mask => .bind (theFuture_within h g) fun e => ?_
      cases e.state with
      | futureEmpty =>
          cases e.mode with
          | futureExclusive =>
              refine .bind (hset _) fun _ => .bind hwait fun _ => ?_
              refine .bind (theFuture_within h g) fun _ => .bind (hsetOut _) fun _ => ?_
              exact .bind (hset _) fun _ => .pure _
          | futureShared => exact .bind (hset _) fun _ => futureGetShared_within h g e mask
          | futureQueue =>
              refine .read fun _ => .ite (.bind (onKernel_within h _) fun _ => hagain) ?_
              exact .bind (onKernel_within h _) fun _ =>
                .bind (futureSignal_within h g) fun _ => hagain
      | futureReady => exact .bind (hsetOut _) fun _ => .bind (hset _) fun _ => .pure _
      | futureWaiting =>
          cases e.mode with
          | futureExclusive => exact .pure _
          | futureShared => exact futureGetShared_within h g e mask
          | futureQueue => exact .pure _

end Within

/-- The calls on one future leave the others alone. -/
theorem setFuture_other (hne : g ≠ f) (u : Future → Future) :
    (setFuture g u).Within (SameView fun t => t.future f) :=
  .modify fun _ => update_of_ne hne.symm _ _

/-! ## An exclusive future -/

section Exclusive

variable {e : Future}

theorem run_theFuture (he : t.future f = some e) : theFuture f t = .done e t := by
  simp [theFuture, he]

/-- Interrupts that are disabled already. -/
theorem withMask_self (h : maskOf t (kernelOf t).currpid = false) : withMask t false = t :=
  congrArg (fun mask => Futures.mk ⟨kernelOf t, mask⟩ t.future t.out)
    (update_eq_self_iff.mpr h.symm)

theorem namesOf_setFuture (u : Future → Future) (hu : ∀ e, (u e).mode = e.mode ∧ (u e).pid = e.pid) :
    (setFuture f u).Within (SameView (namesOf f)) := by
  refine .modify fun t => ?_
  show ((update t.future f _) f).map _ = _
  rw [update_self, Option.map_map]
  unfold namesOf
  congr 1
  funext e
  exact Prod.ext (hu e).1 (hu e).2

theorem futureSignal_exclusive (he : t.future f = some e) (hmode : e.mode = .futureExclusive)
    (hready : e.state = .futureReady) : futureSignal f t = (do
      let _ ← onKernel (ready e.pid)
      restore (maskOf t (kernelOf t).currpid)
      return ok : FutureM Int) (withMask t false) := by
  have hlook : theFuture f (withMask t false) = .done e (withMask t false) :=
    run_theFuture he
  unfold futureSignal
  rw [Coop.run_bind, run_disable, Flow.bind_done, Coop.run_bind, hlook, Flow.bind_done,
    if_pos hready, hmode]

theorem namesOf_withFuture : namesOf f (withFuture t f e) = some (e.mode, e.pid) :=
  congrArg _ (update_self _ _ _)

/-- The current process waits for a future. -/
def waiting (t : Futures) : Futures :=
  withKernel t ((kernelOf t).setState (kernelOf t).currpid .prWait)

/-- What is left of an exclusive `future_get` once it waits. -/
def waitRest (f : Nat) (mask : Bool) : FutureM Int := do
  onKernel resched
  restore mask
  setOut (← theFuture f).value
  setFuture f fun e => { e with state := .futureEmpty }
  return ok

theorem waitRest_within (f : Nat) (mask : Bool) :
    (waitRest f mask).Within (SameView (namesOf f)) := by
  have h := ofFutures_namesOf f
  refine .bind (onKernel_within h _) fun _ => .bind (onCpu_within h _) fun _ => ?_
  refine .bind (theFuture_within h f) fun _ => .bind (.modify fun t => h.out t _) fun _ => ?_
  exact .bind (namesOf_setFuture _ fun _ => ⟨rfl, rfl⟩) fun _ => .pure _

/-- A `future_get` that waits notes its process if none is noted. -/
theorem futureGet_waits (he : t.future f = some e) (hmode : e.mode = .futureExclusive)
    (hstate : e.state = .futureEmpty) (depth : Nat) : ∃ t' mask,
      futureGet f (depth + 1) t = waitRest f mask t' ∧ namesOf f t' =
        some (.futureExclusive, if e.pid = -1 then (kernelOf t).currpid else e.pid) := by
  have hlook : theFuture f (withMask t false) = .done e (withMask t false) :=
    run_theFuture he
  unfold futureGet
  rw [Coop.run_bind, run_disable, Flow.bind_done, Coop.run_bind, hlook, Flow.bind_done]
  simp only [hstate, hmode]
  rw [Coop.run_bind, run_setFuture (t := withMask t false) he, Flow.bind_done]
  generalize hs : withFuture (withMask t false) f { e with state := .futureWaiting } = s
  have hwaiting : s.future f = some { e with state := .futureWaiting } := by
    rw [← hs]
    exact update_self _ _ _
  have hme : (kernelOf s).currpid = (kernelOf t).currpid := by
    rw [← hs]
    rfl
  have hwait := run_theFuture (t := withMask s false) hwaiting
  have hstopped : waitState (withMask s false) = .done ⟨⟩ (waiting (withMask s false)) := rfl
  unfold futureWait
  rw [Coop.run_bind, Coop.run_bind, run_disable, Flow.bind_done, Coop.run_bind, hwait,
    Flow.bind_done, if_pos (Or.inr rfl)]
  simp only [hmode]
  generalize maskOf s _ = mask
  have hrest : ∀ t', ((do
      onKernel resched
      restore mask
      return ok : FutureM Int) t').bind (fun _ => do
      setOut (← theFuture f).value
      setFuture f fun e => { e with state := .futureEmpty }
      return ok) = waitRest f mask t' := by
    intro t'
    unfold waitRest
    rw [Coop.run_bind, Coop.run_bind, Flow.bind_assoc]
    rfl
  by_cases hpid : e.pid = -1
  · rw [if_pos hpid, if_pos hpid, Coop.run_bind, hstopped, Flow.bind_done, Coop.run_bind,
      Coop.run_get, Flow.bind_done, Coop.run_bind,
      run_setFuture (t := waiting (withMask s false)) hwaiting, Flow.bind_done]
    exact ⟨_, mask, hrest _, namesOf_withFuture.trans (by rw [← hme]; simp [hmode]; rfl)⟩
  · rw [if_neg hpid, if_neg hpid, Coop.run_bind, hstopped, Flow.bind_done]
    refine ⟨_, mask, hrest _, ?_⟩
    have hsame : namesOf f (waiting (withMask s false)) = namesOf f s := rfl
    rw [hsame, namesOf, hwaiting, ← hmode]
    rfl

/-- A `future_get` that does not wait. -/
theorem futureGet_aside {e : Future} (he : t.future f = some e) (hmode : e.mode = .futureExclusive)
    (hempty : e.state ≠ .futureEmpty) (depth : Nat) :
    (futureGet f (depth + 1) t).Within (SameView (namesOf f)) t := by
  have hlook : theFuture f (withMask t false) = .done e (withMask t false) :=
    run_theFuture he
  have hmask : SameView (namesOf f) t (withMask t false) := rfl
  unfold futureGet
  rw [Coop.run_bind, run_disable, Flow.bind_done, Coop.run_bind, hlook, Flow.bind_done]
  cases hstate : e.state with
  | futureEmpty => exact (hempty hstate).elim
  | futureReady =>
      have hrest : (do
          setOut e.value
          setFuture f fun e => { e with state := .futureEmpty }
          return ok : FutureM Int).Within (SameView (namesOf f)) := by
        refine .bind (.modify fun t => (ofFutures_namesOf f).out t _) fun _ => ?_
        exact .bind (namesOf_setFuture _ fun _ => ⟨rfl, rfl⟩) fun _ => .pure _
      exact (hrest (withMask t false)).after hmask
  | futureWaiting =>
      simp only [hmode]
      exact hmask

/-- A call on a future that is not there stops the machine. -/
theorem halts_of_none {α : Type} {rest : Bool → Future → FutureM α} (hnone : t.future f = none) :
    (do
      let mask ← disable
      let e ← theFuture f
      rest mask e : FutureM α) t = .halted (withMask t false) := by
  have hlook : theFuture f (withMask t false) = .halted (withMask t false) := by
    have hsame : (withMask t false).future f = none := hnone
    simp [theFuture, hsame]
  rw [Coop.run_bind, run_disable, Flow.bind_done, Coop.run_bind, hlook, Flow.bind_halted]

end Exclusive

/-! ## Allocation -/

theorem getmem_atOnce (nbytes : Nat) (m : Memory.Heap) :
    (Memory.getmem nbytes m).AtOnce fun _ _ => True := by
  have hloop : ∀ n prev curr (m : Memory.Heap),
      (Memory.getmemLoop (Memory.roundmb nbytes) n prev curr m).AtOnce fun _ _ => True := by
    intro n
    induction n with
    | zero => exact fun _ _ _ => True.intro
    | succ n ih =>
        intro prev curr m
        unfold Memory.getmemLoop
        rw [Coop.run_ite]
        split
        · exact True.intro
        · rw [Coop.run_bind, Coop.run_get, Flow.bind_done, Coop.run_ite, Coop.run_ite]
          split
          · exact True.intro
          · split
            · exact True.intro
            · exact ih _ _ _
  unfold Memory.getmem
  rw [Coop.run_ite]
  split
  · exact True.intro
  · exact hloop _ _ _ _

theorem newqueue_atOnce (s : Kernel) : (newqueue s).AtOnce fun _ _ => True := by
  unfold newqueue
  rw [Coop.run_bind, Coop.run_get, Flow.bind_done, Coop.run_ite]
  split <;> exact True.intro

/-- A procedure of the kernel that does not give the processor away, in front of another one. -/
theorem onKernel_atOnce {x : KernelM α} {rest : α → FutureM β} {post : β → Futures → Prop}
    (hx : (x (kernelOf t)).AtOnce fun a s => (rest a (withKernel t s)).AtOnce post) :
    ((onKernel x >>= rest) t).AtOnce post := by
  rw [Coop.run_bind, Flow.atOnce_bind, run_onKernel, Flow.atOnce_zoom]
  exact hx

theorem setFuture_namesOf (a : Nat) {u : Future → Future}
    (hu : ∀ e, (u e).mode = e.mode ∧ (u e).pid = e.pid) :
    ∃ t', setFuture a u t = .done ⟨⟩ t' ∧ namesOf f t' = namesOf f t := by
  refine ⟨_, rfl, ?_⟩
  by_cases haf : a = f
  · subst haf
    exact namesOf_setFuture u hu t
  · exact congrArg (Option.map Future.names) (update_of_ne (Ne.symm haf) _ _)

/-- An allocation names nobody. -/
theorem futureAlloc_namesOf (f : Nat) (mode : FutureMode) (t : Futures) :
    (futureAlloc mode t).AtOnce fun a t' =>
      namesOf f t' = if a = (f : Int) then some (mode, -1) else namesOf f t := by
  refine onKernel_atOnce (Flow.atOnce_zoom.mpr ((getmem_atOnce _ _).mono ?_))
  rintro (_ | a) m -
  · exact True.intro
  have hend : ∀ t',
      namesOf f t' = (if (a : Int) = (f : Int) then some (mode, -1) else namesOf f t) →
      ((return (a : Int) : FutureM Int) t').AtOnce fun a t' =>
        namesOf f t' = if a = (f : Int) then some (mode, -1) else namesOf f t := fun _ h => h
  generalize hpost : (fun a t' => namesOf f t' = if a = (f : Int) then some (mode, -1)
    else namesOf f t : Int → Futures → Prop) = post at hend ⊢
  have hqueue : ∀ (u : Int → Future → Future) (rest : FutureM Int),
      (∀ q e, (u q e).mode = e.mode ∧ (u q e).pid = e.pid) →
      (∀ t', namesOf f t' = (if (a : Int) = (f : Int) then some (mode, -1) else namesOf f t) →
        (rest t').AtOnce post) →
      ∀ t', namesOf f t' = (if (a : Int) = (f : Int) then some (mode, -1) else namesOf f t) →
        ((do
          let q ← onKernel newqueue
          setFuture a (u q)
          rest : FutureM Int) t').AtOnce post := by
    intro u rest hu hrest t' ht'
    refine onKernel_atOnce ((newqueue_atOnce _).mono fun q s _ => ?_)
    obtain ⟨t'', hset, hsame⟩ := setFuture_namesOf (f := f) (t := withKernel t' s) a (hu q)
    rw [Coop.run_bind, hset, Flow.bind_done]
    exact hrest t'' (hsame.trans ht')
  have hstart : ∀ c, namesOf f ⟨c, update t.future a (some ⟨0, .futureEmpty, mode, -1, -1, -1⟩),
      t.out⟩ = if (a : Int) = (f : Int) then some (mode, -1) else namesOf f t := by
    intro c
    by_cases haf : a = f
    · subst haf
      rw [if_pos rfl]
      exact congrArg (Option.map Future.names) (update_self a _ t.future)
    · rw [if_neg (by omega)]
      exact congrArg (Option.map Future.names) (update_of_ne (Ne.symm haf) _ t.future)
  have hget := fun (q : Int) (e : Future) =>
    (⟨rfl, rfl⟩ : { e with getQueue := q }.mode = e.mode ∧ { e with getQueue := q }.pid = e.pid)
  have hput := fun (q : Int) (e : Future) =>
    (⟨rfl, rfl⟩ : { e with setQueue := q }.mode = e.mode ∧ { e with setQueue := q }.pid = e.pid)
  cases mode with
  | futureExclusive => exact hend _ (hstart _)
  | futureShared => exact hqueue _ _ hget hend _ (hstart _)
  | futureQueue => exact hqueue _ _ hget (hqueue _ _ hput hend) _ (hstart _)

end Calls

/-! ## Evaluating scripts -/

section Script

variable {β : Type}

def forceFutureState (st : FutureState) (f : FutureState → β) : β :=
  match st with
  | .futureEmpty => f .futureEmpty
  | .futureWaiting => f .futureWaiting
  | .futureReady => f .futureReady

def forceFuture (e : Option Future) (f : Option Future → β) : β :=
  match e with
  | none => f none
  | some e =>
      forceInt e.value fun value =>
        forceFutureState e.state fun state =>
          forceInt e.pid fun pid =>
            forceInt e.setQueue fun setQueue =>
              forceInt e.getQueue fun getQueue =>
                f (some ⟨value, state, e.mode, pid, setQueue, getQueue⟩)

/-- Evaluate a configuration with the future at `a` before the next call. -/
def forceFutures (x : Touched) (a : Nat) (β : Type) (C : Config Futures FCall)
    (f : Config Futures FCall → β) : β :=
  forceKernel x C.state.cpu.kernel fun kernel =>
    forceTable forceBool x.pids C.state.cpu.mask fun mask =>
      forceTable forceFuture [a] C.state.future fun future =>
        forceTable forceInt x.pids C.state.out fun out =>
          forceBool C.running fun running =>
            forceTable forcePending x.pids C.pending fun pending =>
              f ⟨⟨⟨kernel, mask⟩, future, out⟩, running, pending⟩

theorem forceFuture_eq (e : Option Future) (f : Option Future → β) : forceFuture e f = f e := by
  cases e with
  | none => rfl
  | some e =>
      obtain ⟨value, state, mode, pid, setQueue, getQueue⟩ := e
      cases state <;> simp [forceFuture, forceFutureState]

theorem forcedFutures_eq (x : Touched) (a : Nat) (β : Type) (C : Config Futures FCall)
    (f : Config Futures FCall → β) : forceFutures x a β C f = f C := by
  simp [forceFutures, forceKernel_eq, forceTable_eq forceFuture_eq, forceTable_eq forcePending_eq]

end Script

end Xinu
