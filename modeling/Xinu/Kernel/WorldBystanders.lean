import Xinu.Foundations.RelyGuarantee
import Xinu.Kernel.SemaphoreWorld

/-!
# Procedures that leave a semaphore alone

An invariant that concerns one semaphore and a part of what is shared is kept by every
procedure that uses other semaphores and changes other parts.

Main results:

- Theorem `holds_away`: such a procedure keeps the invariant, wherever it gives the
  processor away.
- Theorem `Prompt.bind`: a procedure that only signals runs to its end while rescheduling
  is deferred.
-/

namespace Xinu
namespace World

open Foundations Function

variable {δ ε α β κ Γ : Type}

/-- Semaphore `x` is as it was, and what is shared and the log change as `keep` allows. -/
structure Aside (x : Int) (keep : δ × List ε → δ × List ε → Prop) (w w' : World δ ε) : Prop where
  tidy : (w.settle false).Tidy → (w'.settle false).Tidy
  sem : w'.sems x = w.sems x
  granted : w'.granted x = w.granted x
  kept : keep (w.shared, w.log) (w'.shared, w'.log)

/-- Rescheduling is not deferred either if it was not. -/
structure Away (x : Int) (keep : δ × List ε → δ × List ε → Prop) (w w' : World δ ε) : Prop
    extends Aside x keep w w' where
  ndefers : w.ndefers = 0 → w'.ndefers = 0

section Preorder

variable {x : Int} {keep : δ × List ε → δ × List ε → Prop} [IsPreorder _ keep]

instance : IsPreorder (World δ ε) (Aside x keep) where
  refl _ := ⟨id, rfl, rfl, refl_of keep _⟩
  trans _ _ _ h h' := ⟨fun ht => h'.tidy (h.tidy ht), h'.sem.trans h.sem,
    h'.granted.trans h.granted, trans_of keep h.kept h'.kept⟩

instance : IsPreorder (World δ ε) (Away x keep) where
  refl w := ⟨refl_of (Aside x keep) w, id⟩
  trans _ _ _ h h' := ⟨trans_of (Aside x keep) h.toAside h'.toAside,
    fun hd => h'.ndefers (h.ndefers hd)⟩

end Preorder

section Away

variable {x y me : Int} {keep : δ × List ε → δ × List ε → Prop}
variable {w w' : World δ ε}

theorem tidy_settle (hdefer : w.ndefers = 0) : (w.settle false).Tidy ↔ w.Tidy := by
  constructor
  · exact fun h => h.congr rfl hdefer rfl rfl
  · exact fun h => h.congr rfl hdefer.symm rfl rfl

theorem Away.settle (h : Away x keep w w') (b : Bool) :
    Away x keep (w.settle b) (w'.settle b) :=
  ⟨⟨h.tidy, h.sem, h.granted, h.kept⟩, fun _ => rfl⟩

/-- The units of a resource that others leave alone. -/
theorem Supply.away {Γ : Type} {γ : Γ} {k n : Int} {L : Int → Option Γ}
    (h : Supply x k n γ w L) (haway : Away x keep w w') : Supply x k n γ w' L := by
  have htidy : w'.Tidy := (tidy_settle (haway.ndefers h.tidy.ndefers)).mp
    (haway.tidy ((tidy_settle h.tidy.ndefers).mpr h.tidy))
  exact h.congr htidy haway.sem haway.granted

/-- Only what is shared and the log change. -/
theorem Away.of_same (hsems : w'.sems = w.sems) (hgranted : w'.granted = w.granted)
    (hnext : w'.nextsem = w.nextsem) (hdefer : w'.ndefers = w.ndefers)
    (hkeep : keep (w.shared, w.log) (w'.shared, w'.log)) : Away x keep w w' := by
  refine ⟨⟨?_, ?_, ?_, hkeep⟩, ?_⟩
  · exact fun h => h.congr hnext rfl hsems hgranted
  · rw [hsems]
  · rw [hgranted]
  · rw [hdefer]
    exact id

theorem Away.setShared {f : δ → δ} (h : ∀ d l, keep (d, l) (f d, l)) (w : World δ ε) :
    Away x keep w (w.setShared f) :=
  .of_same rfl rfl rfl rfl (h _ _)

theorem Away.note {e : ε} (h : ∀ d l, keep (d, l) (d, l ++ [e])) (w : World δ ε) :
    Away x keep w (w.note e) :=
  .of_same rfl rfl rfl rfl (h _ _)

variable [IsPreorder _ keep]

theorem Away.setSem (hy : y ≠ x) {f : Sem Int → Sem Int} (hused : (w.sems y).used = true)
    (hf : (f (w.sems y)).used = true) : Away x keep w (w.setSem y f) := by
  refine ⟨⟨?_, ?_, rfl, refl_of keep _⟩, id⟩
  · exact fun h => (h.setSem hused hf : ((w.settle false).setSem y f).Tidy)
  · exact update_of_ne hy.symm _ _

theorem Away.leave (hy : y ≠ x) (w : World δ ε) : Away x keep w (World.leave y me w) := by
  refine ⟨⟨?_, rfl, ?_, refl_of keep _⟩, id⟩
  · intro h
    refine ⟨h.nextsem_nonneg, h.nextsem_lt, h.ndefers, h.good, h.queue, ?_⟩
    intro z hz
    show update w.granted y _ z = []
    by_cases heq : z = y
    · have hempty : w.granted y = [] := by
        rw [← heq]
        exact h.granted z hz
      rw [heq, update_self, hempty]
      rfl
    · rw [update_of_ne heq]
      exact h.granted z hz
  · exact update_of_ne hy.symm _ _

theorem Away.signals (hy : y ≠ x) (hused : (w.sems y).used = true) (n : Nat) :
    Away x keep w ((release y)^[n] w) := by
  obtain ⟨hshared, hlog, hdefer, -⟩ := w.release_frame y n
  obtain ⟨hsem, hgranted⟩ := release_other (w := w) hy.symm n
  refine ⟨⟨?_, hsem, hgranted, ?_⟩, ?_⟩
  · intro h
    rw [settle_release]
    exact h.signals hused n
  · rw [hshared, hlog]
    exact refl_of keep _
  · rw [hdefer]
    exact id

theorem resched_away : (resched : WorldM δ ε Unit).Within (Away x keep) := by
  apply Coop.Within.read
  intro w
  apply Coop.Within.ite
  · exact .modify fun w => .of_same rfl rfl rfl rfl (refl_of keep _)
  · exact .giveAway

theorem wait_away (hy : y ≠ x) (me : Int) :
    (wait me y : WorldM δ ε Int).Within (Away x keep) := by
  intro w
  unfold wait
  rw [Coop.run_bind, Coop.run_get, Flow.bind_done, Coop.run_ite]
  split
  · exact refl_of (Away x keep) w
  · next hused =>
      rw [Bool.not_eq_false] at hused
      rw [Coop.run_bind, Coop.run_modify, Flow.bind_done, Coop.run_bind, Coop.run_get,
        Flow.bind_done, Coop.run_ite]
      have haway : Away x keep w (w.setSem y (Sem.wait i32 me)) := .setSem hy hused hused
      split
      · have hrest : (resched >>= fun _ => modify (World.leave y me) >>= fun _ => pure ok :
            WorldM δ ε Int).Within (Away x keep) := by
          apply resched_away.bind
          intro _
          apply Coop.Within.bind
          · exact .modify fun w => .leave hy w
          · exact fun _ => .pure _
        exact (hrest _).after haway
      · exact haway

theorem signal_away (hy : y ≠ x) : (signal y : WorldM δ ε Int).Within (Away x keep) := by
  intro w
  unfold signal
  rw [Coop.run_bind, Coop.run_get, Flow.bind_done, Coop.run_ite]
  split
  · exact refl_of (Away x keep) w
  · next hused =>
      rw [Bool.not_eq_false] at hused
      rw [Coop.run_bind, Coop.run_modify, Flow.bind_done, Coop.run_ite]
      have haway : Away x keep w (release y w) := .signals hy hused 1
      split
      · have hrest : (resched >>= fun _ => pure ok : WorldM δ ε Int).Within (Away x keep) :=
          resched_away.bind fun _ => .pure _
        exact (hrest _).after haway
      · exact haway

theorem signaln_away (hy : y ≠ x) (n : Int) :
    (signaln y n : WorldM δ ε Int).Within (Away x keep) := by
  intro w
  unfold signaln
  rw [Coop.run_bind, Coop.run_get, Flow.bind_done, Coop.run_ite]
  split
  · exact refl_of (Away x keep) w
  · next hbad =>
      rw [not_or, Bool.not_eq_false] at hbad
      rw [Coop.run_bind, Coop.run_modify, Flow.bind_done, Coop.run_ite]
      have haway : Away x keep w ((release y)^[n.toNat] w) := .signals hy hbad.2 _
      split
      · have hrest : (resched >>= fun _ => pure ok : WorldM δ ε Int).Within (Away x keep) :=
          resched_away.bind fun _ => .pure _
        exact (hrest _).after haway
      · exact haway

end Away

/-! ## Procedures that run to their end -/

/-- While rescheduling is deferred, the procedure ends without giving the processor away. -/
def Prompt (x : WorldM δ ε α) : Prop :=
  ∀ w, 0 < w.ndefers → ∃ a s, x w = .done a s ∧ s.ndefers = w.ndefers

section Prompt

variable {x : WorldM δ ε α} {f : α → WorldM δ ε β} {y : Int}

theorem Prompt.pure (a : α) : Prompt (Pure.pure a : WorldM δ ε α) :=
  fun w _ => ⟨a, w, rfl, rfl⟩

theorem Prompt.modify {g : World δ ε → World δ ε} (hg : ∀ w, (g w).ndefers = w.ndefers) :
    Prompt (modify g : WorldM δ ε PUnit) :=
  fun w _ => ⟨⟨⟩, g w, rfl, hg w⟩

theorem Prompt.bind (hx : Prompt x) (hf : ∀ a, Prompt (f a)) : Prompt (x >>= f) := by
  intro w hw
  obtain ⟨a, s, hrun, hs⟩ := hx w hw
  obtain ⟨b, s', hrun', hs'⟩ := hf a s (by omega)
  refine ⟨b, s', ?_, by omega⟩
  rw [Coop.run_bind, hrun, Flow.bind_done, hrun']

theorem Prompt.read {f : World δ ε → WorldM δ ε β} (hf : ∀ w, Prompt (f w)) :
    Prompt (get >>= f) :=
  fun w hw => hf w w hw

theorem Prompt.ite {c : Prop} [Decidable c] {z : WorldM δ ε α} (hx : Prompt x) (hz : Prompt z) :
    Prompt (if c then x else z) := by
  split
  · exact hx
  · exact hz

theorem resched_prompt : Prompt (resched : WorldM δ ε Unit) := by
  intro w hw
  exact ⟨(), { w with attempt := true }, by simp [resched, hw], rfl⟩

theorem signal_prompt (y : Int) : Prompt (signal y : WorldM δ ε Int) := by
  apply Prompt.read
  intro w
  apply Prompt.ite
  · exact .pure _
  · apply Prompt.bind
    · exact .modify fun _ => rfl
    · intro _
      apply Prompt.ite
      · exact resched_prompt.bind fun _ => .pure _
      · exact .pure _

theorem signaln_prompt (y n : Int) : Prompt (signaln y n : WorldM δ ε Int) := by
  apply Prompt.read
  intro w
  apply Prompt.ite
  · exact .pure _
  · apply Prompt.bind
    · exact .modify fun w => (w.release_frame y n.toNat).2.2.1
    · intro _
      apply Prompt.ite
      · exact resched_prompt.bind fun _ => .pure _
      · exact .pure _

end Prompt

/-! ## Procedures that keep an invariant -/

section Sparing

variable {M : Crew (World δ ε) κ} {I : World δ ε → (Int → Option Γ) → Prop}
variable {G : World δ ε → Prop} {me y : Int} {x : WorldM δ ε α}

/-- The procedure keeps the invariant in whatever order the processes run. -/
def Sparing (M : Crew (World δ ε) κ) (I : World δ ε → (Int → Option Γ) → Prop)
    (G : World δ ε → Prop) (me : Int) (x : WorldM δ ε α) : Prop :=
  ∀ w L, I w (update L me none) → M.Holds I G me (fun _ s L => I s (update L me none)) (x w) L

theorem Sparing.ends {w : World δ ε} {L : Int → Option Γ} (hx : Sparing M I G me x)
    (hI : I w (update L me none)) : M.Holds I G me (Crew.Ends I G me) (x w) L :=
  (hx w L hI).mono fun _ _ _ h _ => h

theorem Sparing.pure (a : α) : Sparing M I G me (Pure.pure a : WorldM δ ε α) :=
  fun _ _ h => h

theorem Sparing.bind {f : α → WorldM δ ε β} (hx : Sparing M I G me x)
    (hf : ∀ a, Sparing M I G me (f a)) : Sparing M I G me (x >>= f) :=
  fun w L hI => (hx w L hI).bind fun a s L' hI' => hf a s L' hI'

theorem Sparing.ite {c : Prop} [Decidable c] {z : WorldM δ ε α} (hx : Sparing M I G me x)
    (hz : Sparing M I G me z) : Sparing M I G me (if c then x else z) := by
  split
  · exact hx
  · exact hz

/-- A procedure that reads the state, of which the invariant holds. -/
theorem Sparing.read {f : World δ ε → WorldM δ ε β}
    (hf : ∀ w L, I w L → Sparing M I G me (f w)) : Sparing M I G me (get >>= f) :=
  fun w L hI => hf w _ hI w L hI

theorem Sparing.modify {g : World δ ε → World δ ε} (hg : ∀ w L, I w L → I (g w) L) :
    Sparing M I G me (modify g : WorldM δ ε PUnit) :=
  fun w _ hI => hg w _ hI

/-- A procedure whose every stretch keeps the invariant. -/
theorem Sparing.of_within {r : World δ ε → World δ ε → Prop} (γ : Γ) (hx : x.Within r)
    (hkeep : ∀ w w' L, I w L → r w w' → I w' L)
    (hpause : ∀ w L, I w (update L me none) → I w (update L me (some γ)))
    (hunpause : ∀ w L, I w L → L me = some γ → I w (update L me none)) :
    Sparing M I G me x := by
  have hall : ∀ w (f : Flow (World δ ε) α) L, f.Within r w → I w (update L me none) →
      M.Holds I G me (fun _ s L => I s (update L me none)) f L := by
    intro w f L hf hI
    induction f generalizing w L with
    | done a s => exact hkeep w s _ hI hf
    | suspended s k ih =>
        intro _
        refine ⟨γ, hpause s L (hkeep w s _ hI hf.1), ?_⟩
        intro s' L' hI' hL' _
        exact ih s' s' L' (hf.2 s') (hunpause s' L' hI' hL')
    | halted s => exact fun _ => hkeep w s _ hI hf
    | stuck => trivial
  exact fun w L hI => hall w (x w) L (hx w) hI

/-- A procedure on a component of the state, whose every stretch keeps the invariant as long
as the component satisfies `g` where it goes on. -/
theorem Sparing.of_relies {σ : Type} {look : World δ ε → σ} {put : World δ ε → σ → World δ ε}
    {z : Coop σ α} {g : σ → Prop} {r : σ → σ → Prop} (γ : Γ) (hz : z.Relies g r)
    (hg : ∀ w L, I w L → g (look w))
    (hkeep : ∀ w s L, I w L → r (look w) s → I (put w s) L)
    (hpause : ∀ w L, I w (update L me none) → I w (update L me (some γ)))
    (hunpause : ∀ w L, I w L → L me = some γ → I w (update L me none)) :
    Sparing M I G me (Coop.zoom look put z) := by
  have hall : ∀ w (f : Flow σ α) L, f.Relies g r (look w) → I w (update L me none) →
      M.Holds I G me (fun _ s L => I s (update L me none)) (f.zoom look put w) L := by
    intro w f L hf hI
    induction f generalizing w L with
    | done a s => exact hkeep w s _ hI hf
    | suspended s k ih =>
        intro _
        refine ⟨γ, hpause _ L (hkeep w s _ hI hf.1), ?_⟩
        intro w' L' hI' hL' _
        exact ih (look w') w' L' (hf.2 _ (hg w' L' hI')) (hunpause w' L' hI' hL')
    | halted s => exact fun _ => hkeep w s _ hI hf
    | stuck => trivial
  exact fun w L hI => hall w (z (look w)) L (hz (look w) (hg w _ hI)) hI

/-- Rescheduling is deferred, and the invariant holds but for that. -/
structure Deferred (I : World δ ε → (Int → Option Γ) → Prop) (w : World δ ε)
    (L : Int → Option Γ) : Prop where
  ndefers : w.ndefers = 1
  inv : ∀ b, I (w.settle b) L

/-- While rescheduling is deferred, the procedure ends, and keeps the invariant. -/
def Calm (I : World δ ε → (Int → Option Γ) → Prop) (x : WorldM δ ε α) : Prop :=
  ∀ w L, Deferred I w L → ∃ a s, x w = .done a s ∧ Deferred I s L

theorem Calm.pure (a : α) : Calm I (Pure.pure a : WorldM δ ε α) :=
  fun w _ h => ⟨a, w, rfl, h⟩

theorem Calm.bind {f : α → WorldM δ ε β} (hx : Calm I x) (hf : ∀ a, Calm I (f a)) :
    Calm I (x >>= f) := by
  intro w L h
  obtain ⟨a, s, hrun, hs⟩ := hx w L h
  obtain ⟨b, s', hrun', hs'⟩ := hf a s L hs
  refine ⟨b, s', ?_, hs'⟩
  rw [Coop.run_bind, hrun, Flow.bind_done, hrun']

theorem Calm.ite {c : Prop} [Decidable c] {z : WorldM δ ε α} (hx : Calm I x) (hz : Calm I z) :
    Calm I (if c then x else z) := by
  split
  · exact hx
  · exact hz

theorem Calm.read {f : World δ ε → WorldM δ ε β} (hf : ∀ w L, Deferred I w L → Calm I (f w)) :
    Calm I (get >>= f) :=
  fun w L h => hf w L h w L h

theorem Calm.modify {g : World δ ε → World δ ε} (hdefer : ∀ w, (g w).ndefers = w.ndefers)
    (hg : ∀ w b L, I (w.settle b) L → I ((g w).settle b) L) :
    Calm I (modify g : WorldM δ ε PUnit) :=
  fun w L h => ⟨⟨⟩, g w, rfl, (hdefer w).trans h.ndefers, fun b => hg w b L (h.inv b)⟩

/-- A procedure whose every stretch keeps the invariant, and that only signals. -/
theorem Calm.of_within {r : World δ ε → World δ ε → Prop} (hx : x.Within r) (hprompt : Prompt x)
    (hkeep : ∀ w w' b L, I (w.settle b) L → r w w' → I (w'.settle b) L) : Calm I x := by
  intro w L h
  have hpos : 0 < w.ndefers := by
    rw [h.ndefers]
    exact Nat.one_pos
  obtain ⟨a, s, hrun, hs⟩ := hprompt w hpos
  have hrel := hx w
  rw [hrun] at hrel
  exact ⟨a, s, hrun, hs.trans h.ndefers, fun b => hkeep w s b L (h.inv b) hrel⟩

theorem Deferred.start {w : World δ ε} {L : Int → Option Γ} (hdefer : w.ndefers = 0)
    (hI : ∀ b, I { w with attempt := b } L) :
    Deferred I { w with ndefers := 1, attempt := false } L := by
  refine ⟨rfl, fun b => ?_⟩
  have hsame : World.settle b { w with ndefers := 1, attempt := false } =
      { w with attempt := b } := by
    unfold settle
    rw [← hdefer]
  rw [hsame]
  exact hI b

/-- While rescheduling is deferred the units that the running process holds are signaled. -/
theorem Supply.signaln {w : World δ ε} {L : Int → Option Γ} {γ : Γ} {x k n : Int}
    (hdefer : w.ndefers = 1) (h : ∀ b, Supply x k n γ (w.settle b) L) (hk : 0 ≤ k)
    (hn : n < 0x80000000) : ∃ s, World.signaln x k w = .done ok s ∧ s.ndefers = 1 ∧
      s.shared = w.shared ∧ s.log = w.log ∧ ∀ b, Supply x 0 n γ (s.settle b) L := by
  have hused : (w.sems x).used = true := (h false).turns.used
  obtain ⟨hshared, hlog, hsame, -⟩ := w.release_frame x k.toNat
  refine ⟨_, signaln_deferred hused hk (by omega), ?_, hshared, hlog, fun b => ?_⟩
  · exact hsame.trans hdefer
  · have hsignals := (h b).signals hk hn
    rw [← settle_release] at hsignals
    exact hsignals

/-- Rescheduling that was deferred takes place. -/
theorem Deferred.stop {w : World δ ε} {L : Int → Option Γ} (γ : Γ)
    (h : Deferred I w (update L me none))
    (hpause : ∀ w L, I w (update L me none) → I w (update L me (some γ)))
    (hunpause : ∀ w L, I w L → L me = some γ → I w (update L me none)) :
    M.Holds I G me (fun _ s L => I s (update L me none)) (reschedCntl deferStop w) L := by
  have hinv : I { w with ndefers := 0 } (update L me none) := h.inv w.attempt
  apply holds_stop γ h.ndefers
  · exact fun _ => hpause _ _ hinv
  · exact fun s L' hI hL' _ => hunpause s L' hI hL'
  · exact hinv

end Sparing

end World
end Xinu
