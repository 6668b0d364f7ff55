import Xinu.Foundations.ReturnPaths
import Xinu.Kernel.BufferPoolSpec
import Xinu.Kernel.Future

/-!
# Saving and restoring the interrupt mask

Which mask is in force when a procedure returns.  A process that gives the processor
away gets it back with its own mask, whatever else may have changed.

Main results:

- Theorem `futureWait_leaves` and `futureSignal_leaves`: these two put the mask back.
- Theorems `futureSet_leaves` and `futureGet_leaves`: which branches of the other two
  put it back, and that all others leave interrupts disabled.
-/

namespace Xinu

open Foundations Function

variable {τ α β : Type} [HasCpu τ] {me : Int} {m m' : Bool} {t : τ}

/-- Process `me` gave the processor away in the first state and has it back in the second,
with its own mask. -/
def Regains (me : Int) (t t' : τ) : Prop :=
  (kernelOf t').currpid = me ∧ maskOf t' me = maskOf t me

/-- Process `me` runs with the mask `m`. -/
def RunsWith (me : Int) (m : Bool) (t : τ) : Prop :=
  (kernelOf t).currpid = me ∧ maskOf t me = m

/-- Called by process `me` with the mask `m` in force, the procedure returns with the mask
`m'` in force. -/
def Leaves (me : Int) (m m' : Bool) (x : Coop τ α) : Prop :=
  ∀ t, RunsWith me m t → (x t).Returns (Regains me) fun _ t' => RunsWith me m' t'

/-! ## Rules -/

theorem Leaves.pure (a : α) : Leaves me m m (Pure.pure a : Coop τ α) :=
  fun _ h => h

theorem Leaves.bind {m'' : Bool} {x : Coop τ α} {f : α → Coop τ β} (hx : Leaves me m m'' x)
    (hf : ∀ a, Leaves me m'' m' (f a)) : Leaves me m m' (x >>= f) := by
  intro t ht
  rw [Coop.run_bind, Flow.returns_bind]
  exact (hx t ht).mono fun a s hs => hf a s hs

theorem Leaves.read {f : τ → Coop τ α} (hf : ∀ t, Leaves me m m' (f t)) :
    Leaves me m m' (MonadState.get >>= f) :=
  fun t ht => hf t t ht

theorem Leaves.ite {c : Prop} [Decidable c] {x y : Coop τ α} (hx : Leaves me m m' x)
    (hy : Leaves me m m' y) : Leaves me m m' (if c then x else y) := by
  split
  · exact hx
  · exact hy

theorem Leaves.modify {f : τ → τ} (hf : ∀ t, HasCpu.cpu (f t) = HasCpu.cpu t) :
    Leaves me m m (modify f : Coop τ PUnit) := by
  intro t ht
  show RunsWith me m (f t)
  unfold RunsWith kernelOf maskOf
  rw [hf]
  exact ht

theorem Leaves.halt : Leaves me m m' (Coop.halt : Coop τ α) :=
  fun _ _ => trivial

theorem Leaves.diverge : Leaves me m m' (Coop.diverge : Coop τ α) :=
  fun _ _ => trivial

theorem RunsWith.withMask (h : RunsWith me m t) (mask : Bool) :
    RunsWith me mask (withMask t mask) := by
  have hcur := h.1
  subst hcur
  exact ⟨congrArg _ (kernelOf_withMask t mask), maskOf_withMask t mask⟩

theorem RunsWith.withKernel (h : RunsWith me m t) {s : Kernel} (hs : s.currpid = me) :
    RunsWith me m (withKernel t s) := by
  constructor
  · rw [kernelOf_withKernel]
    exact hs
  · rw [maskOf_withKernel]
    exact h.2

/-- A part that begins by disabling interrupts remembers the mask it found. -/
theorem Leaves.disabled {f : Bool → Coop τ α} (hf : Leaves me false m' (f m)) :
    Leaves me m m' (disable >>= f) := by
  intro t ht
  have hmask : maskOf t (kernelOf t).currpid = m := by rw [ht.1, ht.2]
  rw [Coop.run_bind, run_disable, Flow.bind_done, hmask]
  exact hf _ (ht.withMask false)

theorem Leaves.restore (mask : Bool) : Leaves me m mask (restore mask : Coop τ Unit) :=
  fun _ ht => ht.withMask mask

/-- The procedures of the kernel do not touch the mask. -/
theorem Leaves.onKernel {x : KernelM α} (hx : Lends me x) :
    Leaves me m m (onKernel x : Coop τ α) := by
  have hall : ∀ {q : Kernel → Kernel → Prop} (y : Flow Kernel α) (s : Kernel) (t : τ),
      maskOf t me = m → y.Stretches (fun s => s.currpid = me) q (fun _ _ s => s.currpid = me) s →
      (y.zoom kernelOf Xinu.withKernel t).Returns (Regains me) fun _ t' => RunsWith me m t' := by
    intro q y
    induction y with
    | done a s' =>
        intro s t hm hy
        exact ⟨by rw [kernelOf_withKernel]; exact hy, by rw [maskOf_withKernel]; exact hm⟩
    | suspended s' k ih =>
        intro s t hm hy t' ht'
        apply ih (kernelOf t') (kernelOf t') t'
        · rw [ht'.2, maskOf_withKernel]
          exact hm
        · exact hy.2 _ ht'.1
    | halted s' => exact fun _ _ _ _ => trivial
    | stuck => exact fun _ _ _ _ => trivial
  intro t ht
  rw [run_onKernel]
  exact hall (x (kernelOf t)) (kernelOf t) t ht.2 (hx (kernelOf t) ht.1)

/-! ## Calls that keep the mask -/

/-- The mask in force. -/
def maskInForce (t : τ) : Bool :=
  maskOf t (kernelOf t).currpid

/-- On every path on which the call returns, the mask in force is the one in force when it
was entered. -/
def KeepsMask (x : Coop τ α) (t : τ) : Prop :=
  (x t).Returns (Regains (kernelOf t).currpid) fun _ t' => maskInForce t' = maskInForce t

/-- There is no path on which the call returns. -/
def NeverReturns (x : Coop τ α) (t : τ) : Prop :=
  (x t).Returns (Regains (kernelOf t).currpid) fun _ _ => False

/-- The mask at the end of a call that began with the mask `m`. -/
def maskAfter (m : Bool) (restores : Prop) [Decidable restores] : Bool :=
  if restores then m else false

theorem runsWith_maskInForce (t : τ) : RunsWith (kernelOf t).currpid (maskInForce t) t :=
  ⟨rfl, rfl⟩

theorem RunsWith.maskInForce (h : RunsWith me m t) : maskInForce t = m := by
  unfold Xinu.maskInForce
  rw [h.1, h.2]

theorem Leaves.keepsMask {x : Coop τ α} (hx : ∀ me m, Leaves me m m x) (t : τ) :
    KeepsMask x t :=
  (hx _ _ t (runsWith_maskInForce t)).mono fun _ _ h => h.maskInForce

/-- A call that disables interrupts and puts the mask back on some branches only. -/
theorem keepsMask_iff {x : Coop τ α} {restores : Prop} [Decidable restores]
    (hx : (x t).Returns (Regains (kernelOf t).currpid) fun _ t' =>
      RunsWith (kernelOf t).currpid (maskAfter (maskInForce t) restores) t') :
    KeepsMask x t ↔ maskInForce t = false ∨ restores ∨ NeverReturns x t := by
  unfold maskAfter at hx
  constructor
  · intro hkeeps
    by_cases hrestores : restores
    · exact Or.inr (Or.inl hrestores)
    · rw [if_neg hrestores] at hx
      cases hmask : maskInForce t with
      | false => exact Or.inl rfl
      | true =>
          right
          right
          apply (hx.and hkeeps).mono
          intro a t' h
          have hbad := h.1.maskInForce.symm.trans h.2
          rw [hmask] at hbad
          contradiction
  · intro h
    rcases h with hmask | hrestores | hnever
    · apply hx.mono
      intro a t' h
      rw [h.maskInForce, hmask]
      exact ite_self _
    · rw [if_pos hrestores] at hx
      exact hx.mono fun _ _ h => h.maskInForce
    · exact hnever.mono fun _ _ h => h.elim

/-! ## Buffer pools -/

section Pools

variable [HasPools τ]

/-- The pools are kept apart from the processor. -/
def PoolsApart (τ : Type) [HasCpu τ] [HasPools τ] : Prop :=
  ∀ (t : τ) s, HasCpu.cpu (HasPools.setPools t s) = HasCpu.cpu t

theorem onPools_leaves (hp : PoolsApart τ) (f : Pools → Pools) :
    Leaves me m m (onPools f : Coop τ Unit) :=
  .modify fun t => hp t _

theorem freebuf_leaves (hp : PoolsApart τ) (a : Nat) : Leaves me m m (freebuf a : Coop τ Int) := by
  refine .disabled (.read fun t => .ite ?_ ?_)
  · exact .bind (.restore m) fun _ => .pure _
  · refine .bind (onPools_leaves hp _) fun _ => .bind (onPools_leaves hp _) fun _ => ?_
    exact .bind (.onKernel (signal_lends _)) fun _ => .bind (.restore m) fun _ => .pure _

theorem getbuf_leaves (hp : PoolsApart τ) (poolid : Int) :
    Leaves me m m (getbuf poolid : Coop τ Int) := by
  refine .disabled (.read fun t => .ite ?_ (.read fun t => ?_))
  · exact .bind (.restore m) fun _ => .pure _
  · refine .bind (.onKernel (wait_lends _)) fun _ => .read fun t => ?_
    refine .bind (onPools_leaves hp _) fun _ => .bind (onPools_leaves hp _) fun _ => ?_
    exact .bind (.restore m) fun _ => .pure _

end Pools

/-! ## Futures -/

section FutureCalls

variable {f : Nat} {s : Futures}

theorem theFuture_leaves (f : Nat) : Leaves me m m (theFuture f) := by
  refine .read fun s => ?_
  cases s.future f with
  | none => exact .halt
  | some e => exact .pure e

theorem setFuture_leaves (f : Nat) (g : Future → Future) : Leaves me m m (setFuture f g) :=
  .modify fun _ => rfl

theorem setOut_leaves (v : Int) : Leaves me m m (setOut v) :=
  .modify fun _ => rfl

theorem waitState_leaves : Leaves me m m waitState :=
  .onKernel (.modify fun _ => rfl)

theorem enqueueMe_leaves (q : Int) : Leaves me m m (enqueueMe q) :=
  .onKernel (.read fun _ => enqueue_lends _ _)

theorem readyFirst_leaves (q : Int) : Leaves me m m (readyFirst q) :=
  .onKernel (.bind (dequeue_lends _) fun _ => ready_lends _)

theorem futureWait_leaves (f : Nat) : Leaves me m m (futureWait f) := by
  have hend : Leaves me false m (do restore m; return ok : FutureM Int) :=
    .bind (.restore m) fun _ => .pure _
  have hwait : Leaves me false m (do
      waitState
      onKernel resched
      restore m
      return ok : FutureM Int) :=
    .bind waitState_leaves fun _ => .bind (.onKernel resched_lends) fun _ => hend
  refine .disabled (.bind (theFuture_leaves f) fun e => .ite ?_ hend)
  cases e.mode with
  | futureExclusive =>
      refine .bind waitState_leaves fun _ => .ite (.read fun _ => ?_) ?_
      · refine .bind (setFuture_leaves _ _) fun _ => ?_
        exact .bind (.onKernel resched_lends) fun _ => hend
      · exact .bind (.onKernel resched_lends) fun _ => hend
  | futureShared => exact hwait
  | futureQueue => exact hwait

theorem futureSignalLoop_leaves (q : Int) (n : Nat) : Leaves me m m (futureSignalLoop q n) := by
  induction n with
  | zero => exact .diverge
  | succ n ih => exact .read fun _ => .ite (.bind (readyFirst_leaves q) fun _ => ih) (.pure _)

theorem futureSignal_leaves (f : Nat) : Leaves me m m (futureSignal f) := by
  have hend : Leaves me false m (do restore m; return ok : FutureM Int) :=
    .bind (.restore m) fun _ => .pure _
  refine .disabled (.bind (theFuture_leaves f) fun e => .ite ?_ (.ite ?_ hend))
  · cases e.mode with
    | futureExclusive => exact .bind (.onKernel (ready_lends _)) fun _ => hend
    | futureShared => exact .bind (futureSignalLoop_leaves _ _) fun _ => hend
    | futureQueue => exact .bind (readyFirst_leaves _) fun _ => hend
  · cases e.mode with
    | futureExclusive => exact hend
    | futureShared => exact hend
    | futureQueue => exact .bind (readyFirst_leaves _) fun _ => hend

theorem futureSetLoop_lends (q : Int) (n : Nat) : Lends me (futureSetLoop q n) := by
  induction n with
  | zero => exact .diverge
  | succ n ih =>
      refine .read fun s => .ite ?_ (.pure _)
      exact .bind (getfirst_lends q) fun _ => .bind (ready_lends _) fun _ => ih

/-- The branches of `future_set` that put the mask back. -/
def setRestores (e : Future) : Prop :=
  e.mode = .futureExclusive ∧ e.state = .futureReady ∨
    e.mode = .futureShared ∧ e.state ≠ .futureReady

instance (e : Future) : Decidable (setRestores e) :=
  inferInstanceAs (Decidable (_ ∨ _))

/-- The branches of `future_get` that put the mask back. -/
def getRestores (e : Future) : Prop :=
  e.mode = .futureShared ∧ e.state ≠ .futureReady

instance (e : Future) : Decidable (getRestores e) :=
  inferInstanceAs (Decidable (_ ∧ _))

/-- A future call disables interrupts and looks at the future. -/
theorem futureCall_leaves {rest : Bool → Future → FutureM α} (hs : RunsWith me m s) {e : Future}
    (he : s.future f = some e) (hrest : Leaves me false m' (rest m e)) :
    ((do
      let mask ← disable
      let e ← theFuture f
      rest mask e : FutureM α) s).Returns (Regains me) fun _ s' => RunsWith me m' s' := by
  have hmask : maskOf s (kernelOf s).currpid = m := by rw [hs.1, hs.2]
  have hlook : theFuture f (withMask s false) = .done e (withMask s false) := by
    have hsame : (withMask s false).future f = some e := he
    simp [theFuture, hsame]
  rw [Coop.run_bind, run_disable, Flow.bind_done, Coop.run_bind, hlook, Flow.bind_done, hmask]
  exact hrest _ (hs.withMask false)

theorem futureSet_leaves {e : Future} (value : Int) (hs : RunsWith me m s)
    (he : s.future f = some e) : (futureSet f value s).Returns (Regains me) fun _ s' =>
      RunsWith me (maskAfter m (setRestores e)) s' := by
  have hput : ∀ {m'}, Leaves me false m' (do
      let _ ← futureSignal f
      return ok : FutureM Int) → Leaves me false m' (do
      setFuture f fun e => { e with value := value }
      setFuture f fun e => { e with state := .futureReady }
      let _ ← futureSignal f
      return ok : FutureM Int) := fun h =>
    .bind (setFuture_leaves _ _) fun _ => .bind (setFuture_leaves _ _) fun _ => h
  have hsignal : Leaves me false false (do
      let _ ← futureSignal f
      return ok : FutureM Int) := .bind (futureSignal_leaves f) fun _ => .pure _
  have hshared : Leaves me false m (do
      setFuture f fun e => { e with value := value }
      setFuture f fun e => { e with state := .futureReady }
      let _ ← onKernel (reschedCntl deferStart)
      onKernel (futureSetLoop e.getQueue queueFuel)
      let _ ← onKernel (reschedCntl deferStop)
      restore m
      return ok : FutureM Int) := by
    refine .bind (setFuture_leaves _ _) fun _ => .bind (setFuture_leaves _ _) fun _ => ?_
    refine .bind (.onKernel (reschedCntl_lends _)) fun _ => ?_
    refine .bind (.onKernel (futureSetLoop_lends _ _)) fun _ => ?_
    refine .bind (.onKernel (reschedCntl_lends _)) fun _ => ?_
    exact .bind (.restore m) fun _ => .pure _
  unfold maskAfter
  split
  · next hrestores =>
      apply futureCall_leaves hs he
      rcases hrestores with ⟨hmode, hstate⟩ | ⟨hmode, hstate⟩
      · rw [if_neg (by simp [hstate]), hmode]
        exact .bind (setFuture_leaves _ _) fun _ => .bind (.restore m) fun _ => .pure _
      · have hunset : e.state = .futureWaiting ∨ e.state = .futureEmpty := by
          cases hcase : e.state <;> simp_all
        rw [if_pos hunset, hmode]
        exact hshared
  · next hrestores =>
      apply futureCall_leaves hs he
      by_cases hready : e.state = .futureReady
      · rw [if_neg (by simp [hready])]
        cases hmode : e.mode with
        | futureExclusive => exact (hrestores (Or.inl ⟨hmode, hready⟩)).elim
        | futureShared => exact .pure _
        | futureQueue => exact .pure _
      · have hunset : e.state = .futureWaiting ∨ e.state = .futureEmpty := by
          cases hcase : e.state <;> simp_all
        rw [if_pos hunset]
        cases hmode : e.mode with
        | futureExclusive => exact hput hsignal
        | futureShared => exact (hrestores (Or.inr ⟨hmode, hready⟩)).elim
        | futureQueue =>
            refine .read fun s => .ite ?_ (hput hsignal)
            refine .bind (enqueueMe_leaves _) fun _ => ?_
            exact .bind (futureWait_leaves f) fun _ => hput hsignal

theorem futureGetShared_leaves (e : Future) (mask : Bool) :
    Leaves me m mask (futureGetShared f e mask) := by
  refine .bind waitState_leaves fun _ => .bind (enqueueMe_leaves _) fun _ => ?_
  refine .bind (.onKernel resched_lends) fun _ => .bind (theFuture_leaves f) fun e => ?_
  exact .bind (setOut_leaves _) fun _ => .bind (.restore mask) fun _ => .pure _

theorem theFuture_none (hnone : s.future f = none) :
    theFuture f (withMask s false) = .halted (withMask s false) := by
  have hsame : (withMask s false).future f = none := hnone
  simp [theFuture, hsame]

/-- Where there is no future, the machine stops. -/
theorem futureSet_none (value : Int) (hnone : s.future f = none) {post : Int → Futures → Prop} :
    (futureSet f value s).Returns (Regains me) post := by
  unfold futureSet
  rw [Coop.run_bind, run_disable, Flow.bind_done, Coop.run_bind, theFuture_none hnone]
  trivial

theorem futureGet_none (depth : Nat) (hnone : s.future f = none) {post : Int → Futures → Prop} :
    (futureGet f depth s).Returns (Regains me) post := by
  cases depth with
  | zero => trivial
  | succ depth =>
      unfold futureGet
      rw [Coop.run_bind, run_disable, Flow.bind_done, Coop.run_bind, theFuture_none hnone]
      trivial

/-- The induction is on the depth of the calls of `future_get` by itself, each of which
finds interrupts disabled. -/
theorem futureGet_leaves {e : Future} (depth : Nat) (hs : RunsWith me m s)
    (he : s.future f = some e) : (futureGet f depth s).Returns (Regains me) fun _ s' =>
      RunsWith me (maskAfter m (getRestores e)) s' := by
  induction depth generalizing m s e with
  | zero => trivial
  | succ depth ih =>
      have hagain : Leaves me false false (futureGet f depth) := by
        intro s hs
        cases hfuture : s.future f with
        | none => exact futureGet_none depth hfuture
        | some e =>
            have h := ih hs hfuture
            simpa only [maskAfter, ite_self] using h
      have hrest : Leaves me false false (do
          let _ ← futureWait f
          let _ ← futureGet f depth
          return ok : FutureM Int) :=
        .bind (futureWait_leaves f) fun _ => .bind hagain fun _ => .pure _
      unfold maskAfter
      split
      · next hrestores =>
          apply futureCall_leaves hs he
          cases hstate : e.state with
          | futureReady => exact (hrestores.2 hstate).elim
          | futureEmpty =>
              simp only [hrestores.1]
              exact .bind (setFuture_leaves _ _) fun _ => futureGetShared_leaves e m
          | futureWaiting =>
              simp only [hrestores.1]
              exact futureGetShared_leaves e m
      · next hrestores =>
          apply futureCall_leaves hs he
          cases hstate : e.state with
          | futureReady =>
              exact .bind (setOut_leaves _) fun _ => .bind (setFuture_leaves _ _) fun _ => .pure _
          | futureEmpty =>
              cases hmode : e.mode with
              | futureExclusive =>
                  refine .bind (setFuture_leaves _ _) fun _ => .bind (futureWait_leaves f) fun _ => ?_
                  refine .bind (theFuture_leaves f) fun e => .bind (setOut_leaves _) fun _ => ?_
                  exact .bind (setFuture_leaves _ _) fun _ => .pure _
              | futureShared => exact (hrestores ⟨hmode, by simp [hstate]⟩).elim
              | futureQueue =>
                  refine .read fun s => .ite (.bind (enqueueMe_leaves _) fun _ => hrest) ?_
                  refine .bind (enqueueMe_leaves _) fun _ => ?_
                  exact .bind (futureSignal_leaves f) fun _ => hrest
          | futureWaiting =>
              cases hmode : e.mode with
              | futureExclusive => exact .pure _
              | futureShared => exact (hrestores ⟨hmode, by simp [hstate]⟩).elim
              | futureQueue => exact .pure _

end FutureCalls

/-! ## A wait that fails -/

section Rebuff

variable {s s' : Kernel}

/-- Process `me`, which runs, has been sent `SYSERR`, and nobody waits for a semaphore. -/
structure Rebuffed (me : Int) (s : Kernel) : Prop where
  current : s.currpid = me
  flag : (s.proctab me).prhasmsg = true
  word : (s.proctab me).prmsg = syserr
  counts : ∀ sem, 0 ≤ s.count sem

/-- Process `me` has the processor back, and finds itself rebuffed. -/
def Rebuffs (me : Int) (t t' : τ) : Prop :=
  Regains me t t' ∧ Rebuffed me (kernelOf t')

theorem exists_rebuffs (me : Int) (t : τ) : ∃ t', Rebuffs me t t' := by
  obtain ⟨s, hs⟩ : ∃ s : Kernel, { kernelOf t with
    currpid := me
    semtab := fun _ => ⟨.sUsed, 0, 0⟩ } = s := ⟨_, rfl⟩
  obtain ⟨s', hs'⟩ : ∃ s', s.setProc me (fun e => { e with prhasmsg := true, prmsg := syserr }) = s' :=
    ⟨_, rfl⟩
  refine ⟨withKernel t s', ⟨?_, maskOf_withKernel t s' me⟩, ?_⟩
  · rw [kernelOf_withKernel, ← hs', ← hs]
    rfl
  · rw [kernelOf_withKernel, ← hs']
    constructor
    · rw [← hs]
      rfl
    · rw [proctab_setProc, if_pos rfl]
    · rw [proctab_setProc, if_pos rfl]
    · intro sem
      rw [← hs]
      exact le_refl 0

/-- The end of a receive takes the message. -/
theorem Rebuffed.tail (h : Rebuffed me s) :
    ∃ s', recvtimeTail me s = .done syserr s' ∧ s'.currpid = me ∧ ∀ sem, 0 ≤ s'.count sem := by
  refine ⟨s.setProc me fun e => { e with prhasmsg := false }, ?_, h.current, h.counts⟩
  simp [recvtimeTail, h.flag, h.word]

theorem Rebuffed.recvtime (h : Rebuffed me s) {maxwait : Int} (hpos : 0 ≤ maxwait) :
    ∃ s', Xinu.recvtime maxwait s = .done syserr s' ∧ s'.currpid = me ∧
      ∀ sem, 0 ≤ s'.count sem := by
  have hflag : (s.proctab s.currpid).prhasmsg = true := by rw [h.current, h.flag]
  rw [recvtime_pass hpos hflag, h.current]
  exact h.tail

/-- A procedure that gives the processor away once at most finishes when it is back. -/
theorem Once.finishes {x : KernelM α} {back g : Kernel → Prop} {q post : Kernel → Kernel → Prop}
    (hx : Once x) (hpost : (x s).Stretches g q (fun _ s s' => post s s') s) :
    (x s).Finishes (fun _ => back) (fun _ s' => post s s') fun _ => back := by
  rcases hx s with ⟨a, s₁, hrun⟩ | ⟨a, s₁, hrun⟩ | hrun
  · rw [hrun] at hpost ⊢
    exact hpost
  · rw [hrun]
    exact fun s' hs' => ⟨a, s', rfl, hs'⟩
  · rw [hrun]
    trivial

theorem wait_finishes (sem : Int) (hs : s.currpid = me) :
    (wait sem s).Finishes (fun _ => Rebuffed me)
      (fun _ s' => s'.currpid = me ∧ mailbox s' me = mailbox s me) fun _ => Rebuffed me := by
  have hstretches := (wait_lends sem).calm (wait_within calm_blind calm_mayWait sem) hs
  apply ((wait_once sem).finishes hstretches).mono
  · exact fun _ s' h => ⟨h.1, mailbox_congr (congrFun h.2.mail me)⟩
  · exact fun _ _ h => h

theorem signal_finishes (sem : Int) (hs : s.currpid = me) :
    (signal sem s).Finishes (fun _ => Rebuffed me) (fun _ s' => s'.currpid = me)
      fun _ s' => s'.currpid = me := by
  apply ((signal_once sem).finishes (signal_lends sem s hs)).mono
  · exact fun _ _ h => h
  · exact fun _ _ h => Rebuffed.current h

/-- Nobody waits for the semaphore. -/
theorem signal_at_once {sem : Int} (hcount : 0 ≤ s.count sem) :
    ∃ v s', signal sem s = .done v s' ∧ s'.currpid = s.currpid := by
  by_cases hbad : isbadsem sem
  · exact ⟨syserr, s, by simp [signal, hbad], rfl⟩
  by_cases hfree : (s.semtab sem).sstate = .sFree
  · exact ⟨syserr, s, by simp [signal, hbad, hfree], rfl⟩
  · have hnone : ¬ s.count sem < 0 := by omega
    exact ⟨ok, s.setCount sem (i32 (s.count sem + 1)), by simp [signal, hbad, hfree, hnone], rfl⟩

theorem recvtime_finishes {maxwait : Int} (hpos : 0 ≤ maxwait) (hs : s.currpid = me)
    (hempty : mailbox s me = []) :
    (recvtime maxwait s).Finishes (fun _ => Rebuffed me)
      (fun v s' => (s'.currpid = me ∧ mailbox s' me = []) ∧ (v = timeout ∨ v = syserr))
      fun v s' => v = syserr ∧ s'.currpid = me ∧ ∀ sem, 0 ≤ s'.count sem := by
  have hanswers : ∀ v s', Answers me v s s' →
      (s'.currpid = me ∧ mailbox s' me = []) ∧ (v = timeout ∨ v = syserr) := by
    intro v s' h
    rcases h.2 with ⟨hmail, -⟩ | ⟨-, hcalm, hv⟩
    · rw [hempty] at hmail
      contradiction
    · refine ⟨⟨h.1, ?_⟩, hv.imp id fun h => h.1⟩
      rw [mailbox_congr (congrFun hcalm.mail me), hempty]
  have hstretches := recvtime_stretches hpos hs
  have hneg : ¬ maxwait < 0 := by omega
  have hflag : (s.proctab s.currpid).prhasmsg = false := by
    rw [hs]
    by_contra htrue
    have hmail : HasMessage s me := by
      unfold HasMessage
      simpa using htrue
    rw [mailbox_of_hasMessage hmail] at hempty
    contradiction
  rcases insertd_cases s.currpid s.sleepq maxwait s with ⟨-, hins⟩ | ⟨t', hins⟩ | hins
  · have hrun : recvtime maxwait s = .done syserr s := by simp [recvtime, hneg, hflag, hins]
    rw [hrun] at hstretches ⊢
    exact hanswers _ _ hstretches
  · obtain ⟨s', hs'⟩ : ∃ s', { s with queuetab := t' }.setState s.currpid .prRectim = s' :=
      ⟨_, rfl⟩
    have hne : ok ≠ syserr := by decide
    have hrun : recvtime maxwait s = (resched s').bind fun _ => recvtimeTail s.currpid := by
      simp [recvtime, recvtimeTail, hneg, hflag, hins, hne, hs']
    rw [hrun, hs] at hstretches ⊢
    rcases resched_once s' with ⟨s₁, hres⟩ | ⟨s₁, hres⟩ | hres
    · rw [hres, Flow.bind_done] at hstretches ⊢
      by_cases hmail : (s₁.proctab me).prhasmsg = true
      · have hend : recvtimeTail me s₁ = .done (s₁.proctab me).prmsg
            (s₁.setProc me fun e => { e with prhasmsg := false }) := by
          simp [recvtimeTail, hmail]
        rw [hend] at hstretches ⊢
        exact hanswers _ _ hstretches
      · have hend : recvtimeTail me s₁ = .done timeout s₁ := by simp [recvtimeTail, hmail]
        rw [hend] at hstretches ⊢
        exact hanswers _ _ hstretches
    · rw [hres]
      intro s₂ hs₂
      rcases hs₂.tail with ⟨s₃, hend, hcur, hcounts⟩
      exact ⟨syserr, s₃, hend, rfl, hcur, hcounts⟩
    · rw [hres]
      trivial
  · have hrun : recvtime maxwait s = .stuck := by simp [recvtime, hneg, hflag, hins]
    rw [hrun]
    trivial

/-- A procedure of the kernel, called with the mask `m` in force. -/
theorem onKernel_finishes {x : KernelM α} {post post' : α → Kernel → Prop}
    (hx : (x (kernelOf t)).Finishes (fun _ => Rebuffed me) post post') (ht : RunsWith me m t)
    (hpost : ∀ a s, post a s → s.currpid = me) (hpost' : ∀ a s, post' a s → s.currpid = me) :
    ((onKernel x : Coop τ α) t).Finishes (Rebuffs me)
      (fun a t' => RunsWith me m t' ∧ post a (kernelOf t'))
      fun a t' => RunsWith me m t' ∧ post' a (kernelOf t') := by
  rw [run_onKernel]
  apply (hx.zoom fun s t' h => h.2).mono
  · rintro a t' ⟨s, rfl, hs⟩
    rw [kernelOf_withKernel]
    exact ⟨ht.withKernel (hpost a s hs), hs⟩
  · rintro a t' ⟨s, t₁, s₁, hback, rfl, hs₁⟩
    rw [kernelOf_withKernel]
    have hmask : RunsWith me m t₁ := by
      refine ⟨hback.1.1, ?_⟩
      rw [hback.1.2, maskOf_withKernel]
      exact ht.2
    exact ⟨hmask.withKernel (hpost' a s₁ hs₁), hs₁⟩

end Rebuff

end Xinu
