import Xinu.Kernel.BufferPool
import Xinu.Kernel.Bystanders

/-!
# What buffer pools leave alone

Giving a buffer back wakes a process that waits for one, and so may give the processor
away.  It changes nothing outside the kernel and the pools, and while rescheduling is
deferred it runs in one stretch.

Main results:

- Theorems `freebuf_aside` and `freebuf_stretches`: what `freebuf` leaves alone.
- Theorem `freebuf_undivided`: `freebuf` runs in one stretch while rescheduling is
  deferred.
-/

namespace Xinu

open Foundations Function

variable {τ ν α β : Type} [HasCpu τ] [HasPools τ] {view : τ → ν} {t t' : τ}

/-! ## A part of the state -/

/-- A part of the state that belongs neither to the processor nor to the pools. -/
structure Elsewhere (view : τ → ν) : Prop where
  cpu : ∀ t s, view (HasCpu.setCpu t s) = view t
  pools : ∀ t s, view (HasPools.setPools t s) = view t
  kernel : ∀ (t : τ) s, kernelOf (HasPools.setPools t s) = kernelOf t

/-- What `view` shows stays the same, and the kernel is calm. -/
structure Aside (view : τ → ν) (t t' : τ) : Prop where
  view : view t' = view t
  calm : Calm (kernelOf t) (kernelOf t')

instance (view : τ → ν) : IsPreorder τ (Aside view) where
  refl t := ⟨rfl, refl_of Calm (kernelOf t)⟩
  trans _ _ _ h h' := ⟨h'.view.trans h.view, trans_of Calm h.calm h'.calm⟩

theorem aside_withKernel (hv : Elsewhere view) {s : Kernel} (h : Calm (kernelOf t) s) :
    Aside view t (withKernel t s) :=
  ⟨hv.cpu _ _, by rwa [kernelOf_withKernel]⟩

theorem aside_withMask (hv : Elsewhere view) (t : τ) (mask : Bool) :
    Aside view t (withMask t mask) := by
  refine ⟨hv.cpu _ _, ?_⟩
  rw [kernelOf_withMask]
  exact refl_of Calm (kernelOf t)

theorem restore_aside (hv : Elsewhere view) (mask : Bool) :
    (restore mask : Coop τ Unit).Within (Aside view) :=
  fun t => aside_withMask hv t mask

theorem disable_aside (hv : Elsewhere view) : (disable : Coop τ Bool).Within (Aside view) :=
  fun t => aside_withMask hv t false

theorem onPools_aside (hv : Elsewhere view) (f : Pools → Pools) :
    (onPools f : Coop τ Unit).Within (Aside view) := by
  refine .modify fun t => ⟨hv.pools _ _, ?_⟩
  rw [hv.kernel]
  exact refl_of Calm (kernelOf t)

/-- A calm procedure of the kernel. -/
theorem onKernel_aside (hv : Elsewhere view) {x : KernelM α} (hx : x.Within Calm) :
    (onKernel x : Coop τ α).Within (Aside view) := by
  intro t
  rw [run_onKernel]
  exact (hx (kernelOf t)).inside (fun _ h => aside_withKernel hv h) fun _ _ h =>
    aside_withKernel hv h

/-- The message is passed first. -/
theorem send_aside (hv : Elsewhere view) (pid msg : Int) (t : τ) :
    ((onKernel (send pid msg) : Coop τ Int) t).Within (Aside view)
      (withKernel t (sent (kernelOf t) pid msg)) := by
  rw [run_onKernel]
  exact (send_calm (kernelOf t) pid msg).inside
    (fun _ h => ⟨(hv.cpu _ _).trans (hv.cpu _ _).symm, by simpa only [kernelOf_withKernel] using h⟩)
    fun _ _ h => aside_withKernel hv h

theorem freebuf_aside (hv : Elsewhere view) (a : Nat) :
    (freebuf a : Coop τ Int).Within (Aside view) := by
  refine .bind (disable_aside hv) fun mask => .read fun t => .ite ?_ ?_
  · exact .bind (restore_aside hv _) fun _ => .pure _
  · refine .bind (onPools_aside hv _) fun _ => .bind (onPools_aside hv _) fun _ => ?_
    refine .bind (onKernel_aside hv (signal_within calm_blind _)) fun _ => ?_
    exact .bind (restore_aside hv _) fun _ => .pure _

/-- A process that gives a buffer back and loses the processor has its context saved. -/
theorem freebuf_stretches (hv : Elsewhere view) {me : Int} (a : Nat)
    (hcur : (kernelOf t).currpid = me) :
    (freebuf a t).Stretches (fun t => (kernelOf t).currpid = me)
      (fun t t' => ¬ Fresh (kernelOf t') me ∧ Aside view t t') (fun _ => Aside view) t := by
  have hlends : (freebuf a t).Stretches (fun t => (kernelOf t).currpid = me)
      (fun _ t' => ¬ Fresh (kernelOf t') me) (fun _ _ _ => True) t := by
    obtain ⟨mask, hmask⟩ : ∃ mask, maskOf t (kernelOf t).currpid = mask := ⟨_, rfl⟩
    obtain ⟨t₁, ht₁⟩ : ∃ t₁, withMask t false = t₁ := ⟨_, rfl⟩
    obtain ⟨s, hs⟩ : ∃ s, HasPools.pools t₁ = s := ⟨_, rfl⟩
    obtain ⟨poolid, hpoolid⟩ : ∃ poolid, s.word (a - sizeofBpid) = poolid := ⟨_, rfl⟩
    have hkernel : kernelOf t₁ = kernelOf t := by rw [← ht₁, kernelOf_withMask]
    by_cases hbad : poolid < 0 ∨ poolid ≥ s.nbpools
    · have hrun : freebuf a t = .done syserr (withMask t₁ mask) := by
        simp [freebuf, hmask, ht₁, hs, hpoolid, hbad]
      rw [hrun]
      trivial
    · obtain ⟨t₂, ht₂⟩ : ∃ t₂, HasPools.setPools t₁
          { HasPools.pools t₁ with
            word := update (HasPools.pools t₁).word (a - sizeofBpid)
              ((s.buftab poolid).bpnext : Int) } = t₂ := ⟨_, rfl⟩
      obtain ⟨t₃, ht₃⟩ : ∃ t₃, HasPools.setPools t₂
          { HasPools.pools t₂ with
            buftab := update (HasPools.pools t₂).buftab poolid
              { (HasPools.pools t₂).buftab poolid with bpnext := a - sizeofBpid } } = t₃ :=
        ⟨_, rfl⟩
      have hrun : freebuf a t =
          ((onKernel (signal (s.buftab poolid).bpsem) : Coop τ Int) t₃).bind fun _ => (do
            restore mask
            return ok : Coop τ Int) := by
        simp [freebuf, setWord, setBpentry, onPools, hmask, ht₁, hs, hpoolid, hbad, ← ht₂, ← ht₃]
      have hcur₃ : (kernelOf t₃).currpid = me := by
        rw [← ht₃, hv.kernel, ← ht₂, hv.kernel, hkernel, hcur]
      have hsignal := @signal_lends me (s.buftab poolid).bpsem (kernelOf t₃) hcur₃
      rw [hrun]
      apply (onKernel_stretches hsignal).bind
      · exact fun s h => h.1
      · exact fun _ _ _ => trivial
      · exact fun _ _ _ h => h.1
      · exact fun _ _ _ _ _ => trivial
  apply (hlends.within (freebuf_aside hv a t)).mono
  · exact fun _ h => h
  · exact fun _ _ h => h.2
  · exact fun _ _ _ h => h
  · exact fun _ _ _ _ h => h.2

/-! ## Deferred rescheduling -/

section Deferred

variable {σ : Type} {count : σ → Int}

/-- As long as the count of deferrals is positive, the procedure runs in one stretch and
leaves the count alone. -/
def Undivided (count : σ → Int) (x : Coop σ α) : Prop :=
  ∀ s, 0 < count s → (∃ a s', x s = .done a s' ∧ count s' = count s) ∨ x s = .stuck

theorem Undivided.pure (a : α) : Undivided count (Pure.pure a) :=
  fun s _ => Or.inl ⟨a, s, rfl, rfl⟩

theorem Undivided.bind {x : Coop σ α} {f : α → Coop σ β} (hx : Undivided count x)
    (hf : ∀ a, Undivided count (f a)) : Undivided count (x >>= f) := by
  intro s hs
  rcases hx s hs with ⟨a, s₁, hrun, hn⟩ | hrun
  · rcases hf a s₁ (by rwa [hn]) with ⟨b, s₂, hrun', hn'⟩ | hrun'
    · exact Or.inl ⟨b, s₂, by rw [Coop.run_bind, hrun, Flow.bind_done, hrun'], hn'.trans hn⟩
    · exact Or.inr (by rw [Coop.run_bind, hrun, Flow.bind_done, hrun'])
  · exact Or.inr (by rw [Coop.run_bind, hrun, Flow.bind_stuck])

theorem Undivided.read {f : σ → Coop σ α} (hf : ∀ s, Undivided count (f s)) :
    Undivided count (MonadState.get >>= f) :=
  fun s hs => hf s s hs

theorem Undivided.ite {c : Prop} [Decidable c] {x y : Coop σ α} (hx : Undivided count x)
    (hy : Undivided count y) : Undivided count (if c then x else y) := by
  split
  · exact hx
  · exact hy

theorem Undivided.modify {f : σ → σ} (hf : ∀ s, count (f s) = count s) :
    Undivided count (modify f : Coop σ PUnit) :=
  fun s _ => Or.inl ⟨⟨⟩, f s, rfl, hf s⟩

theorem Undivided.diverge : Undivided count (Coop.diverge : Coop σ α) :=
  fun _ _ => Or.inr rfl

end Deferred

/-- How many calls defer rescheduling. -/
def ndefersOf (s : Kernel) : Int :=
  s.defer.ndefers

theorem insert_undivided (pid q key : Int) : Undivided ndefersOf (insert pid q key) := by
  intro s _
  rcases insert_cases pid q key s with ⟨v, t', hrun⟩ | hrun
  · exact Or.inl ⟨v, _, hrun, rfl⟩
  · exact Or.inr hrun

theorem dequeue_undivided (q : Int) : Undivided ndefersOf (dequeue q) := by
  intro s _
  obtain ⟨v, t', hrun⟩ := dequeue_done q s
  exact Or.inl ⟨v, _, hrun, rfl⟩

/-- Only the attempt to reschedule is recorded. -/
theorem resched_undivided : Undivided ndefersOf resched := by
  intro s hs
  have hdefer : s.defer.ndefers > 0 := hs
  exact Or.inl ⟨(), { s with defer := { s.defer with attempt := true } }, by simp [resched, hdefer],
    rfl⟩

theorem ready_undivided (pid : Int) : Undivided ndefersOf (ready pid) := by
  refine .read fun s => .ite (.pure _) (.bind (.modify fun _ => rfl) fun _ => ?_)
  exact .bind (insert_undivided _ _ _) fun _ => .bind resched_undivided fun _ => .pure _

theorem signal_undivided (sem : Int) : Undivided ndefersOf (signal sem) := by
  refine .ite (.pure _) (.read fun s => .ite (.pure _) ?_)
  refine .bind (.modify fun _ => rfl) fun _ => ?_
  refine .ite (.bind (dequeue_undivided _) fun _ => ?_) (.pure _)
  exact .bind (ready_undivided _) fun _ => .pure _

omit [HasPools τ] in
/-- A procedure of the kernel that runs in one stretch. -/
theorem onKernel_undivided {x : KernelM α} (hx : Undivided ndefersOf x) :
    Undivided (fun t : τ => ndefersOf (kernelOf t)) (onKernel x) := by
  intro t ht
  rw [run_onKernel]
  rcases hx (kernelOf t) ht with ⟨a, s', hrun, hn⟩ | hrun
  · refine Or.inl ⟨a, withKernel t s', by rw [hrun]; rfl, ?_⟩
    show ndefersOf (kernelOf (withKernel t s')) = _
    rw [kernelOf_withKernel]
    exact hn
  · exact Or.inr (by rw [hrun]; rfl)

omit [HasPools τ] in
theorem ndefersOf_withMask (t : τ) (mask : Bool) :
    ndefersOf (kernelOf (withMask t mask)) = ndefersOf (kernelOf t) := by
  rw [kernelOf_withMask]

theorem freebuf_undivided (hpools : ∀ (t : τ) s, kernelOf (HasPools.setPools t s) = kernelOf t)
    (a : Nat) : Undivided (fun t : τ => ndefersOf (kernelOf t)) (freebuf a) := by
  have hrestore : ∀ mask,
      Undivided (fun t : τ => ndefersOf (kernelOf t)) (restore mask : Coop τ Unit) := fun mask t _ =>
    Or.inl ⟨(), withMask t mask, rfl, ndefersOf_withMask t mask⟩
  have hdisable : Undivided (fun t : τ => ndefersOf (kernelOf t)) (disable : Coop τ Bool) :=
    fun t _ => Or.inl ⟨_, withMask t false, rfl, ndefersOf_withMask t false⟩
  have honPools : ∀ f, Undivided (fun t : τ => ndefersOf (kernelOf t)) (onPools f : Coop τ Unit) :=
    fun f => .modify fun t => congrArg ndefersOf (hpools t _)
  refine .bind hdisable fun mask => .read fun t => .ite ?_ ?_
  · exact .bind (hrestore _) fun _ => .pure _
  · refine .bind (honPools _) fun _ => .bind (honPools _) fun _ => ?_
    refine .bind (onKernel_undivided (signal_undivided _)) fun _ => ?_
    exact .bind (hrestore _) fun _ => .pure _

end Xinu
