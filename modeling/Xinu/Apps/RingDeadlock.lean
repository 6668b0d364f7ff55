import Xinu.Apps.RingCountdown

/-!
# Rings that stop

A second process that enters the loop waits at its own place, which nobody visits any
more after the first process has gone around, and the shell waits for it.

Main results:

- Theorem `Quiet.next`: what a step keeps when nobody gets a turn any more.
- Theorem `ring_iff`: the rings that count down in every interleaving.
-/

namespace Xinu
namespace Apps

open Foundations Function RingState

variable {A : RingArgs} {s s' : RingState} {w : Runner} {k t n : Nat} {e e' : RingProcess}

/-! ## Rings in which nobody gets a turn -/

/-- Process `k` waits at its own place, or will, and nobody comes by. -/
structure Starved (A : RingArgs) (k : Nat) (s : RingState) : Prop where
  own : ∀ e, s.ring k = some e → e.index = k ∧ e.roundsLocal = 0 ∧
    e.value = (A.garbage k).toInt ∧ (e.pc = .test ∨ e.pc = .wait ∨ e.pc = .load)
  turn : s.semarray k = if s.pcOf k = .load then ⟨true, -1, [.ring k]⟩ else ⟨true, 0, []⟩
  done : s.doneSem k =
    if k < s.shell.awaited A.processCount then ⟨true, -1, [.shell]⟩ else ⟨true, 0, []⟩
  awaited : k < s.shell.awaited A.processCount → s.shell = .deleteTurn k

/-- The process enters the loop, at a place where there is no turn yet. -/
def Hungry (A : RingArgs) (k : Nat) : Prop :=
  0 < k ∧ 0 ≤ (A.garbage k).toInt

/-- Nobody will print any more. -/
structure Quiet (A : RingArgs) (s : RingState) : Prop where
  starved : ∀ k, k < A.processCount → Hungry A k → Starved A k s
  harmless : ∀ k e, s.ring k = some e → ¬ Hungry A k → e.pc = .exited ∨
    e.index = k ∧ e.value < 0 ∧ (e.pc = .test ∨ e.pc = .done)
  first : s.shell = .create 0 → (A.garbage 0).toInt < 0
  made : ∀ j, s.shell = .create j → ∀ k, j ≤ k → s.ring k = none
  small : ∀ k e, s.ring k = some e → k < A.processCount

/-- What a step has to leave alone for the processes that wait. -/
theorem Starved.frame (h : Starved A k s) (hring : s'.ring k = s.ring k)
    (hturn : s'.semarray k = s.semarray k) (hdone : s'.doneSem k = s.doneSem k)
    (hawaited : k < s'.shell.awaited A.processCount ↔ k < s.shell.awaited A.processCount)
    (hshell : s.shell = .deleteTurn k → s'.shell = .deleteTurn k) : Starved A k s' := by
  have hpc : s'.pcOf k = s.pcOf k := by
    unfold pcOf
    rw [hring]
  constructor
  · intro e he
    rw [hring] at he
    exact h.own e he
  · rw [hturn, hpc]
    exact h.turn
  · rw [hdone, h.done]
    simp only [hawaited]
  · intro hlt
    exact hshell (h.awaited (hawaited.mp hlt))

/-- A step of process `k` that leaves the semaphores of the others alone. -/
theorem Quiet.of_ring (h : Quiet A s) (hring : s.ring k = some e)
    (hring' : s'.ring = update s.ring k (some e')) (hshell : s'.shell = s.shell)
    (hturn : ∀ j, j ≠ k → s'.semarray j = s.semarray j)
    (hdone : ∀ j, j ≠ k → s'.doneSem j = s.doneSem j)
    (hhungry : Hungry A k → Starved A k s')
    (hharmless : ¬ Hungry A k → e'.pc = .exited ∨
      e'.index = k ∧ e'.value < 0 ∧ (e'.pc = .test ∨ e'.pc = .done)) : Quiet A s' := by
  constructor
  · intro j hj hjh
    by_cases heq : j = k
    · subst heq
      exact hhungry hjh
    · apply (h.starved j hj hjh).frame
      · rw [hring', update_of_ne heq]
      · exact hturn j heq
      · exact hdone j heq
      · rw [hshell]
      · rw [hshell]
        exact id
  · intro j f hf hjh
    rw [hring'] at hf
    by_cases heq : j = k
    · subst heq
      rw [update_self, Option.some.injEq] at hf
      rw [← hf]
      exact hharmless hjh
    · rw [update_of_ne heq] at hf
      exact h.harmless j f hf hjh
  · rw [hshell]
    exact h.first
  · intro j hj i hi
    rw [hshell] at hj
    have hne : i ≠ k := by
      rintro rfl
      rw [h.made j hj i hi] at hring
      cases hring
    rw [hring', update_of_ne hne]
    exact h.made j hj i hi
  · intro j f hf
    by_cases heq : j = k
    · rw [heq]
      exact h.small k e hring
    · rw [hring', update_of_ne heq] at hf
      exact h.small j f hf

theorem Quiet.ring (h : Quiet A s) (hring : s.ring k = some e) (hpc : e.pc ≠ .exited)
    (hfree : s.blocked A (.ring k) = false) :
    Quiet A (stepRing A k e s) ∧ (stepRing A k e s).printed = s.printed := by
  have hk := h.small k e hring
  have hpcOf := pcOf_eq hring
  by_cases hhungry : Hungry A k
  · have hstarved := h.starved k hk hhungry
    obtain ⟨hindex, hround, hvalue, hat | hat | hat⟩ := hstarved.own e hring
    · -- the process enters the loop
      have hgo : e.roundsLocal < A.roundsCount ∧ e.value ≥ 0 := by
        have hpos := A.rounds_pos
        have hnonneg := hhungry.2
        omega
      have hstep : stepRing A k e s = s.setRing k { e with pc := .wait } := by
        simp [stepRing, hat, hgo]
      have hnew : (s.setRing k { e with pc := .wait }).ring k = some { e with pc := .wait } :=
        update_self _ _ _
      have hturn := hstarved.turn
      rw [hpcOf, hat] at hturn
      rw [hstep]
      refine ⟨?_, rfl⟩
      have hnext : Starved A k (s.setRing k { e with pc := .wait }) := by
        refine ⟨?_, ?_, hstarved.done, hstarved.awaited⟩
        · intro f hf
          rw [hnew, Option.some.injEq] at hf
          rw [← hf]
          exact ⟨hindex, hround, hvalue, Or.inr (Or.inl rfl)⟩
        · rw [pcOf_eq hnew]
          exact hturn
      apply h.of_ring hring
      · exact rfl
      · rfl
      · exact fun _ _ => rfl
      · exact fun _ _ => rfl
      · exact fun _ => hnext
      · exact absurd hhungry
    · -- the process joins the queue of its place
      have hturn := hstarved.turn
      rw [hpcOf, hat, if_neg (by decide)] at hturn
      have hstep : stepRing A k e s =
          ((s.touch k A.processCount).setTurn k (waitSem (.ring k))).setRing k
            { e with pc := .load } := by
        simp [stepRing, hat, hindex]
      have hnew : (stepRing A k e s).ring k = some { e with pc := .load } := by
        rw [hstep]
        exact update_self _ _ _
      rw [hstep] at hnew ⊢
      refine ⟨?_, rfl⟩
      have hnext : Starved A k
          (((s.touch k A.processCount).setTurn k (waitSem (.ring k))).setRing k
            { e with pc := .load }) := by
        refine ⟨?_, ?_, hstarved.done, hstarved.awaited⟩
        · intro f hf
          rw [hnew, Option.some.injEq] at hf
          rw [← hf]
          exact ⟨hindex, hround, hvalue, Or.inr (Or.inr rfl)⟩
        · rw [pcOf_eq hnew, if_pos rfl]
          show update s.semarray k (waitSem (.ring k) (s.semarray k)) k = _
          rw [update_self, hturn]
          rfl
      apply h.of_ring hring
      · exact rfl
      · rfl
      · exact fun j hj => update_of_ne hj _ _
      · exact fun _ _ => rfl
      · exact fun _ => hnext
      · exact absurd hhungry
    · -- the process is in the queue
      have hblocked : s.blocked A (.ring k) = true := by
        rw [blocked_iff]
        refine ⟨k, hk, Or.inl ?_⟩
        rw [hstarved.turn, hpcOf, hat, if_pos rfl]
        exact List.mem_singleton_self _
      rw [hblocked] at hfree
      cases hfree
  · obtain hat | ⟨hindex, hneg, hat | hat⟩ := h.harmless k e hring hhungry
    · exact absurd hat hpc
    · have hstop : ¬ (e.roundsLocal < A.roundsCount ∧ e.value ≥ 0) := by omega
      have hstep : stepRing A k e s = s.setRing k { e with pc := .done } := by
        simp [stepRing, hat, hstop]
      rw [hstep]
      refine ⟨?_, rfl⟩
      apply h.of_ring hring
      · exact rfl
      · rfl
      · exact fun _ _ => rfl
      · exact fun _ _ => rfl
      · exact fun hk => absurd hk hhungry
      · exact fun _ => Or.inr ⟨hindex, hneg, Or.inr rfl⟩
    · have hstep : stepRing A k e s =
          ((s.touch k A.processCount).setDone k signalSem).setRing k { e with pc := .exited } := by
        simp [stepRing, hat, hindex]
      rw [hstep]
      refine ⟨?_, rfl⟩
      apply h.of_ring hring
      · exact rfl
      · rfl
      · exact fun _ _ => rfl
      · exact fun j hj => update_of_ne hj _ _
      · exact fun hk => absurd hk hhungry
      · exact fun _ => Or.inl rfl

/-- A step of the shell that creates no process. -/
theorem Quiet.of_shell (h : Quiet A s) (hring : s'.ring = s.ring)
    (hmade : ∀ j, s'.shell ≠ .create j)
    (hstarved : ∀ k, k < A.processCount → Hungry A k → Starved A k s → Starved A k s') :
    Quiet A s' := by
  constructor
  · exact fun k hk hhungry => hstarved k hk hhungry (h.starved k hk hhungry)
  · rw [hring]
    exact h.harmless
  · exact fun hfirst => absurd hfirst (hmade 0)
  · exact fun j hj => absurd hj (hmade j)
  · rw [hring]
    exact h.small

theorem Quiet.shell (h : Quiet A s) (hshell : s.shell ≠ .returned)
    (hfree : s.blocked A .shell = false) :
    Quiet A (stepShell A s) ∧ (stepShell A s).printed = s.printed := by
  cases hat : s.shell with
  | create k =>
      by_cases hk : k < A.processCount
      · have hstep : stepShell A s = { s.setRing k ⟨.test, k, 0, (A.garbage k).toInt⟩ with
            shell := .create (k + 1) } := by
          simp [stepShell, hat, hk]
        have hnone := h.made k hat k (Nat.le_refl k)
        rw [hstep]
        refine ⟨?_, rfl⟩
        constructor
        · intro j hj hjh
          have hstarved := h.starved j hj hjh
          by_cases heq : j = k
          · subst heq
            have hturn := hstarved.turn
            have hpc : s.pcOf j = .test := by simp [pcOf, hnone]
            have hdone := hstarved.done
            rw [hat] at hdone
            rw [hpc, if_neg (by decide)] at hturn
            refine ⟨?_, ?_, hdone, fun hlt => absurd hlt (Nat.not_lt_zero j)⟩
            · intro f hf
              have hf' : ⟨.test, j, 0, (A.garbage j).toInt⟩ = f := by simpa [setRing] using hf
              rw [← hf']
              exact ⟨rfl, rfl, rfl, Or.inl rfl⟩
            · rw [pcOf_eq (e := ⟨.test, j, 0, (A.garbage j).toInt⟩) (by simp [setRing])]
              exact hturn
          · apply hstarved.frame
            · exact update_of_ne heq _ _
            · rfl
            · rfl
            · rw [hat]
              rfl
            · rw [hat]
              intro hshell
              cases hshell
        · intro j f hf hjh
          by_cases heq : j = k
          · subst heq
            have hf' : ⟨.test, j, 0, (A.garbage j).toInt⟩ = f := by simpa [setRing] using hf
            have hneg : (A.garbage j).toInt < 0 := by
              by_cases hzero : j = 0
              · subst hzero
                exact h.first hat
              · by_contra hnonneg
                exact hjh ⟨Nat.pos_of_ne_zero hzero, by omega⟩
            rw [← hf']
            exact Or.inr ⟨rfl, hneg, Or.inl rfl⟩
          · exact h.harmless j f (by simpa [setRing, heq] using hf) hjh
        · intro hfirst
          cases hfirst
        · intro j hj i hi
          obtain rfl : k + 1 = j := by simpa using hj
          have hne : i ≠ k := by omega
          show update s.ring k _ i = none
          rw [update_of_ne hne]
          exact h.made k hat i (by omega)
        · intro j f hf
          by_cases heq : j = k
          · rw [heq]
            exact hk
          · exact h.small j f (by simpa [setRing, heq] using hf)
      · have hstep : stepShell A s = { s with shell := .wait 0 } := by simp [stepShell, hat, hk]
        rw [hstep]
        refine ⟨?_, rfl⟩
        apply h.of_shell
        · rfl
        · simp
        · intro j _ _ hstarved
          apply hstarved.frame
          · rfl
          · rfl
          · rfl
          · rw [hat]
            rfl
          · rw [hat]
            intro hshell
            cases hshell
  | wait n =>
      by_cases hn : n < A.processCount
      · have hstep : stepShell A s = { (s.touch n A.processCount).setDone n (waitSem .shell) with
            shell := .deleteTurn n } := by
          simp [stepShell, hat, hn]
        rw [hstep]
        refine ⟨?_, rfl⟩
        apply h.of_shell
        · rfl
        · simp
        · intro j _ _ hstarved
          have hdone := hstarved.done
          rw [hat] at hdone
          have hpast : ¬ j < n := by
            intro hlt
            have hshell := hstarved.awaited (by rw [hat]; exact hlt)
            rw [hat] at hshell
            cases hshell
          by_cases heq : j = n
          · subst heq
            rw [SemPc.awaited, if_neg (Nat.lt_irrefl j)] at hdone
            refine ⟨hstarved.own, hstarved.turn, ?_, fun _ => rfl⟩
            show update s.doneSem j (waitSem .shell (s.doneSem j)) j =
              if j < j + 1 then _ else _
            rw [update_self, hdone, if_pos (Nat.lt_succ_self j)]
            rfl
          · apply hstarved.frame
            · rfl
            · rfl
            · exact update_of_ne heq _ _
            · rw [hat]
              simp only [SemPc.awaited]
              omega
            · rw [hat]
              intro hshell
              cases hshell
      · have hstep : stepShell A s = { s with shell := .returned } := by simp [stepShell, hat, hn]
        rw [hstep]
        refine ⟨?_, rfl⟩
        apply h.of_shell
        · rfl
        · simp
        · intro j hj _ hstarved
          have hshell := hstarved.awaited (by rw [hat]; show j < n; omega)
          rw [hat] at hshell
          cases hshell
  | deleteTurn n =>
      have hstep : stepShell A s = { (s.touch n A.processCount).setTurn n deleteSem with
          shell := .deleteDone n } := by
        simp [stepShell, hat]
      rw [hstep]
      refine ⟨?_, rfl⟩
      apply h.of_shell
      · rfl
      · simp
      · intro j hj _ hstarved
        -- the shell would be in the queue of a process that waits
        have hne : j ≠ n := by
          rintro rfl
          have hdone := hstarved.done
          rw [hat, SemPc.awaited, if_pos (Nat.lt_succ_self j)] at hdone
          have hblocked : s.blocked A .shell = true := by
            rw [blocked_iff]
            refine ⟨j, hj, Or.inr ?_⟩
            rw [hdone]
            exact List.mem_singleton_self _
          rw [hblocked] at hfree
          cases hfree
        apply hstarved.frame
        · rfl
        · exact update_of_ne hne _ _
        · rfl
        · rw [hat]
          rfl
        · rw [hat]
          intro hshell
          obtain rfl : n = j := by simpa using hshell
          exact absurd rfl hne
  | deleteDone n =>
      have hstep : stepShell A s = { (s.touch n A.processCount).setDone n deleteSem with
          shell := .wait (n + 1) } := by
        simp [stepShell, hat]
      rw [hstep]
      refine ⟨?_, rfl⟩
      apply h.of_shell
      · rfl
      · simp
      · intro j hj _ hstarved
        have hne : j ≠ n := by
          rintro rfl
          have hshell := hstarved.awaited (by rw [hat]; exact Nat.lt_succ_self j)
          rw [hat] at hshell
          cases hshell
        apply hstarved.frame
        · rfl
        · rfl
        · exact update_of_ne hne _ _
        · rw [hat]
          rfl
        · rw [hat]
          intro hshell
          cases hshell
  | returned => exact absurd hat hshell

theorem Quiet.next (h : Quiet A s) (hnext : s.next A w = some s') :
    Quiet A s' ∧ s'.printed = s.printed := by
  cases w with
  | shell =>
      obtain ⟨hshell, hfree, rfl⟩ := next_shell_iff.mp hnext
      exact h.shell hshell hfree
  | ring k =>
      obtain ⟨e, hring, hpc, hfree, rfl⟩ := next_ring_iff.mp hnext
      exact h.ring hring hpc hfree

theorem countdown_ne_nil (A : RingArgs) : countdown A ≠ [] := by
  intro hnil
  have hlen := congrArg List.length hnil
  rw [countdown, List.length_map, List.length_range] at hlen
  exact Nat.ne_of_gt A.turns_pos hlen

/-- A ring that is correct prints everything after a state in which nobody waits in vain. -/
theorem Quiet.ended (h : Quiet A s) (hA : RingCorrect A) (hrun : RingRun A n s) :
    s.said = countdown A ∧ ∀ k, k < A.processCount → ¬ Hungry A k := by
  obtain ⟨m, u, hrun', ⟨hquiet, hsame⟩, hstuck⟩ :=
    exists_stuck (P := fun u => Quiet A u ∧ u.printed = s.printed) hA.ends hrun ⟨h, rfl⟩
      (by
        rintro u u' w ⟨hu, hprinted⟩ hnext
        obtain ⟨hu', hprinted'⟩ := hu.next hnext
        exact ⟨hu', hprinted'.trans hprinted⟩)
  have hfinished := hA.live m u hrun' hstuck
  constructor
  · have hall := hA.complete m u hrun' hfinished
    unfold said at hall ⊢
    rw [← hsame]
    exact hall
  · intro k hk hhungry
    obtain ⟨e, hring, hpc⟩ := hfinished.2 k hk
    obtain ⟨-, -, -, hat | hat | hat⟩ := (hquiet.starved k hk hhungry).own e hring <;>
      rw [hat] at hpc <;> cases hpc

theorem quiet_initial (hneg : (A.garbage 0).toInt < 0) : Quiet A (initial A) := by
  constructor
  · rintro k hk ⟨hpos, -⟩
    have hne : k ≠ 0 := Nat.pos_iff_ne_zero.mp hpos
    refine ⟨?_, ?_, rfl, fun hlt => absurd hlt (Nat.not_lt_zero k)⟩
    · intro e he
      cases he
    · simp [initial, hne, pcOf]
  · intro k e he
    cases he
  · exact fun _ => hneg
  · exact fun _ _ _ _ => rfl
  · intro k e he
    cases he

/-- The first process has to enter the loop. -/
theorem RingCorrect.garbage (hA : RingCorrect A) : 0 ≤ (A.garbage 0).toInt := by
  by_contra hneg
  have hsaid := ((quiet_initial (by omega)).ended hA .start).1
  exact countdown_ne_nil A hsaid.symm

/-! ## The first process alone -/

/-- After `t` turns the first process is at `pc`, and nobody else has been created. -/
structure Alone (A : RingArgs) (t : Nat) (pc : RingPc) (s : RingState) : Prop where
  run : ∃ n, RingRun A n s
  solo : Solo A t s
  ring : ∃ e, s.ring 0 = some e ∧ e.pc = pc
  shell : s.shell = .create 1
  others : ∀ k, 0 < k → s.ring k = none
  words : s.globalarray.length = 2

theorem alone_start (A : RingArgs) : ∃ s, Alone A 0 .test s := by
  have hp := A.processCount_pos
  have hfree : (initial A).blocked A .shell = false := (by
    apply not_blocked
    intro i _
    refine ⟨?_, List.not_mem_nil⟩
    unfold initial
    dsimp only
    split <;> exact List.not_mem_nil)
  have hnext := next_shell (A := A) (s := initial A) (by simp [initial]) hfree
  have hsolo := (solo_initial A).create rfl hp (fun h => absurd h (Nat.lt_irrefl 0))
  have hstep : stepShell A (initial A) =
      { (initial A).setRing 0 ⟨.test, 0, 0, (A.garbage 0).toInt⟩ with shell := .create 1 } := by
    simp [stepShell, initial, hp]
  refine ⟨stepShell A (initial A), ⟨_, .step .start hnext⟩, hsolo, ?_, ?_, ?_, ?_⟩
  · rw [hstep]
    exact ⟨⟨.test, 0, 0, (A.garbage 0).toInt⟩, by simp [setRing], rfl⟩
  · rw [hstep]
  · intro k hk
    rw [hstep]
    exact update_of_ne (Nat.pos_iff_ne_zero.mp hk) _ _
  · rw [hstep]
    rfl

/-- Where the first process goes from each place but the test. -/
def RingPc.succ : RingPc → RingPc
  | .wait => .load
  | .load => .print
  | .print => .move
  | .move => .store
  | .store => .signal
  | .signal => .test
  | _ => .exited

theorem stepRing_next (htest : e.pc ≠ .test) (hpc : e.pc ≠ .exited) :
    (stepRing A k e s).shell = s.shell ∧
      (stepRing A k e s).globalarray.length = s.globalarray.length ∧
      ∃ e', (stepRing A k e s).ring = update s.ring k (some e') ∧ e'.pc = e.pc.succ := by
  cases hat : e.pc with
  | test => exact absurd hat htest
  | exited => exact absurd hat hpc
  | move =>
      simp only [stepRing, hat]
      split <;> exact ⟨rfl, rfl, _, rfl, rfl⟩
  | wait | load | print | signal | done =>
      simp only [stepRing, hat]
      exact ⟨rfl, rfl, _, rfl, rfl⟩
  | store =>
      simp only [stepRing, hat]
      exact ⟨rfl, List.length_set, _, rfl, rfl⟩

theorem Alone.next {t' : Nat} {pc pc' : RingPc} (h : Alone A t pc s) (hring : s.ring 0 = some e)
    (hpc : e.pc ≠ .exited) (hshell : (stepRing A 0 e s).shell = s.shell)
    (hwords : (stepRing A 0 e s).globalarray.length = s.globalarray.length)
    (hring' : (stepRing A 0 e s).ring = update s.ring 0 (some e')) (hpc' : e'.pc = pc')
    (hsolo : Solo A t' (stepRing A 0 e s)) : Alone A t' pc' (stepRing A 0 e s) := by
  obtain ⟨n, hrun⟩ := h.run
  have hnext := next_ring hring hpc (h.solo.not_blocked 0)
  refine ⟨⟨n + 1, .step hrun hnext⟩, hsolo, ⟨e', ?_, hpc'⟩, hshell.trans h.shell, ?_,
    hwords.trans h.words⟩
  · rw [hring', update_self]
  · intro k hk
    rw [hring', update_of_ne (Nat.pos_iff_ne_zero.mp hk)]
    exact h.others k hk

/-- A step of the first process other than the test. -/
theorem Alone.step {t' : Nat} {pc : RingPc} (h : Alone A t pc s) (htest : pc ≠ .test)
    (hpc : pc ≠ .exited)
    (hsolo : ∀ e, s.ring 0 = some e → e.pc = pc → Solo A t' (stepRing A 0 e s)) :
    ∃ s', Alone A t' pc.succ s' := by
  obtain ⟨e, hring, rfl⟩ := h.ring
  obtain ⟨hshell, hwords, e', hring', hpc'⟩ :=
    stepRing_next (A := A) (k := 0) (s := s) htest hpc
  exact ⟨_, h.next hring hpc hshell hwords hring' hpc' (hsolo e hring rfl)⟩

/-- The first process takes a turn, as far as the line. -/
theorem Alone.speak (h : Alone A t .test s) (ht : t < A.turns)
    (hvalue : 0 ≤ if t = 0 then (A.garbage 0).toInt else i32 (firstValue A - t)) :
    ∃ s', Alone A t .move s' := by
  obtain ⟨e, hring, hpc⟩ := h.ring
  have hw := h.solo.walkerAt hring
  have hgo : e.roundsLocal < A.roundsCount ∧ e.value ≥ 0 := by
    constructor
    · have hrounds := hw.rounds
      rw [hpc] at hrounds
      rw [hrounds]
      exact Int.ofNat_lt.mpr (rounds_lt_iff.mpr ht)
    · rw [hw.carried (by rw [hpc]; rfl)]
      exact hvalue
  have hstep : stepRing A 0 e s = s.setRing 0 { e with pc := .wait } := by
    simp [stepRing, hpc, hgo]
  have hwait : Alone A t .wait (stepRing A 0 e s) := by
    apply h.next hring (by rw [hpc]; decide)
    · rw [hstep]
      rfl
    · rw [hstep]
      rfl
    · rw [hstep]
      exact rfl
    · rfl
    · exact h.solo.test hring hpc hgo
  obtain ⟨s₁, h₁⟩ := hwait.step (by decide) (by decide) fun e => hwait.solo.wait
  obtain ⟨s₂, h₂⟩ := h₁.step (by decide) (by decide) fun e => h₁.solo.load
  exact h₂.step (by decide) (by decide) fun e => h₂.solo.print

/-- The first process takes a turn and passes it on. -/
theorem Alone.turn (h : Alone A t .test s) (ht : t < A.turns)
    (hvalue : 0 ≤ if t = 0 then (A.garbage 0).toInt else i32 (firstValue A - t))
    (hinside : (t + 1) % A.processCount < 2) : ∃ s', Alone A (t + 1) .test s' := by
  obtain ⟨s₁, h₁⟩ := h.speak ht hvalue
  obtain ⟨s₂, h₂⟩ := h₁.step (by decide) (by decide) fun e => h₁.solo.move
  obtain ⟨s₃, h₃⟩ := h₂.step (by decide) (by decide) (by
    intro e hring hpc
    apply h₂.solo.store hring hpc
    have hindex := (h₂.solo.walkerAt hring).index
    rw [hpc] at hindex
    rw [h₂.words, hindex]
    exact hinside)
  exact h₃.step (by decide) (by decide) fun e => h₃.solo.signal

/-- The first line has to show the number of turns. -/
theorem RingCorrect.turns_le (hA : RingCorrect A) : A.turns ≤ 0x80000000 := by
  obtain ⟨s, h⟩ := alone_start A
  obtain ⟨s₁, h₁⟩ := h.speak A.turns_pos (by
    rw [if_pos rfl]
    exact hA.garbage)
  obtain ⟨e, hring, hpc⟩ := h₁.ring
  obtain ⟨n, hrun⟩ := h₁.run
  obtain ⟨rest, hrest⟩ := hA.printed n s₁ hrun
  have hprinted := (h₁.solo.walkerAt hring).printed
  rw [hpc] at hprinted
  have hsaid : s₁.said = [(0, firstValue A)] := by
    unfold said
    rw [hprinted]
    simp [RingPc.spoken, lineOf, i32_firstValue]
  have hhead := congrArg List.head? hrest
  rw [hsaid] at hhead
  have hcount : (countdown A).head? = some (0, (A.turns : Int) - 1) := by
    have hne : A.processCount * A.roundsCount ≠ 0 := Nat.ne_of_gt A.turns_pos
    rw [countdown, List.head?_map, List.head?_range, if_neg hne, A.turns_cast]
    simp
  rw [hcount] at hhead
  have hfirst : firstValue A = A.turns - 1 := by simpa using hhead
  have hlt := firstValue_lt A
  omega

/-- Before a turn, the value of the first process keeps it in the loop. -/
theorem carried_nonneg (hgarbage : 0 ≤ (A.garbage 0).toInt) (hturns : A.turns ≤ 0x80000000)
    (ht : t < A.turns) :
    0 ≤ if t = 0 then (A.garbage 0).toInt else i32 (firstValue A - t) := by
  split
  · exact hgarbage
  · rw [i32_turn hturns (by omega)]
    omega

/-- The array has a word for each place. -/
theorem RingCorrect.two (hA : RingCorrect A) : A.processCount ≤ 2 := by
  by_contra hthree
  have hmany : 3 ≤ A.turns := by
    have hle := Nat.mul_le_mul (Nat.not_le.mp hthree) A.rounds_pos
    simpa [RingArgs.turns] using hle
  obtain ⟨s, h⟩ := alone_start A
  have hone : (0 + 1) % A.processCount < 2 := by
    rw [Nat.mod_eq_of_lt (by omega)]
    omega
  obtain ⟨s₁, h₁⟩ :=
    h.turn A.turns_pos (carried_nonneg hA.garbage hA.turns_le A.turns_pos) hone
  obtain ⟨s₂, h₂⟩ := h₁.speak (by omega) (carried_nonneg hA.garbage hA.turns_le (by omega))
  obtain ⟨s₃, h₃⟩ := h₂.step (by decide) (by decide) fun e => h₂.solo.move
  obtain ⟨e, hring, hpc⟩ := h₃.ring
  have hstore : e.pc = .store := hpc
  obtain ⟨n, hrun⟩ := h₃.run
  have hnext := next_ring hring (by rw [hstore]; decide) (h₃.solo.not_blocked 0)
  have hindex := (h₃.solo.walkerAt hring).index
  rw [hstore, RingPc.lap, Nat.mod_eq_of_lt (by omega)] at hindex
  have hinside := hA.inside (n + 1) _ (.step hrun hnext)
  simp [stepRing, hstore, setGlobal, setRing, touch, h₃.words, hindex] at hinside

theorem alone_test (hgarbage : 0 ≤ (A.garbage 0).toInt) (hturns : A.turns ≤ 0x80000000)
    (htwo : A.processCount = 2) (ht : t ≤ A.turns) : ∃ s, Alone A t .test s := by
  induction t with
  | zero => exact alone_start A
  | succ t ih =>
      obtain ⟨s, h⟩ := ih (by omega)
      apply h.turn (by omega) (carried_nonneg hgarbage hturns (by omega))
      rw [htwo]
      exact Nat.mod_lt _ (by decide)

/-- After the first process has left, the others wait in vain. -/
theorem Alone.quiet (h : Alone A t .exited s) : Quiet A s := by
  obtain ⟨e, hring, hpc⟩ := h.ring
  have hw := h.solo.walkerAt hring
  have hwalk : s.walker A = e := by simp [RingState.walker, hring]
  constructor
  · rintro k hk ⟨hpos, -⟩
    have hnone := h.others k hpos
    have hne : k ≠ 0 := Nat.pos_iff_ne_zero.mp hpos
    have hlast : t % A.processCount = 0 := by
      rw [hw.last (Or.inr hpc)]
      exact Nat.mul_mod_right A.processCount A.roundsCount
    have hturn := h.solo.turns k hk
    have hdone := h.solo.dones k hk
    have hexited : s.exited k = false := by simp [exited, hnone]
    rw [h.shell] at hturn hdone
    rw [hlast, SemPc.swept, if_neg (Nat.not_lt_zero k), if_neg (fun h => hne h.2)] at hturn
    rw [hexited] at hdone
    refine ⟨?_, ?_, ?_, ?_⟩
    · intro f hf
      rw [hnone] at hf
      cases hf
    · have hpcOf : s.pcOf k = .test := by simp [pcOf, hnone]
      rw [hpcOf, if_neg (by decide)]
      exact hturn
    · rw [h.shell, SemPc.awaited, if_neg (Nat.not_lt_zero k)]
      exact hdone
    · intro hlt
      rw [h.shell] at hlt
      exact absurd hlt (Nat.not_lt_zero k)
  · intro k f hf _
    by_cases hzero : k = 0
    · subst hzero
      rw [hring, Option.some.injEq] at hf
      rw [← hf]
      exact Or.inl hpc
    · rw [h.others k (Nat.pos_of_ne_zero hzero)] at hf
      cases hf
  · intro hfirst
    rw [h.shell] at hfirst
    cases hfirst
  · intro j hj k hk
    rw [h.shell] at hj
    obtain rfl : 1 = j := by simpa using hj
    exact h.others k hk
  · exact fun k f hf => h.solo.ring_lt hf

/-- A second process must not enter the loop. -/
theorem RingCorrect.second (hA : RingCorrect A) (htwo : A.processCount = 2) :
    (A.garbage 1).toInt < 0 := by
  by_contra hnonneg
  obtain ⟨s, h⟩ := alone_test hA.garbage hA.turns_le htwo (Nat.le_refl A.turns)
  obtain ⟨e, hring, hpc⟩ := h.ring
  have hrounds := (h.solo.walkerAt hring).rounds
  rw [hpc] at hrounds
  have hstop : ¬ (e.roundsLocal < A.roundsCount ∧ e.value ≥ 0) := by
    rintro ⟨hlt, -⟩
    rw [hrounds] at hlt
    exact Nat.lt_irrefl _ (rounds_lt_iff.mp (Int.ofNat_lt.mp hlt))
  have hstep : stepRing A 0 e s = s.setRing 0 { e with pc := .done } := by
    simp [stepRing, hpc, hstop]
  have hdone : Alone A A.turns .done (stepRing A 0 e s) := by
    apply h.next hring (by rw [hpc]; decide)
    · rw [hstep]
      rfl
    · rw [hstep]
      rfl
    · rw [hstep]
      exact rfl
    · rfl
    · exact h.solo.leave hring hpc hstop rfl
  obtain ⟨s₁, h₁⟩ : ∃ s₁, Alone A A.turns RingPc.done.succ s₁ := by
    apply hdone.step (by decide) (by decide)
    intro f hf hfpc
    have hindex := (hdone.solo.walkerAt hf).index
    have hlast : (A.turns + RingPc.done.lap) % A.processCount = 0 :=
      Nat.mul_mod_right A.processCount A.roundsCount
    rw [hfpc, hlast] at hindex
    exact hdone.solo.exit A.processCount_pos hf hfpc hindex
  obtain ⟨n, hrun⟩ := h₁.run
  exact (h₁.quiet.ended hA hrun).2 1 (by omega) ⟨Nat.one_pos, by omega⟩

/-- The rings that count down in every interleaving. -/
theorem ring_iff (A : RingArgs) : RingCorrect A ↔ CountsDown A := by
  constructor
  · intro hA
    refine ⟨hA.garbage, hA.turns_le, ?_⟩
    have hpos := A.processCount_pos
    have hle := hA.two
    by_cases hone : A.processCount = 1
    · exact Or.inl hone
    · have htwo : A.processCount = 2 := by omega
      exact Or.inr ⟨htwo, hA.second htwo⟩
  · exact CountsDown.correct

/-- The ring that `process_ring -i sync` makes when it is given no other arguments. -/
def defaultRing : RingArgs where
  processCount := 2
  roundsCount := 3
  garbage := fun _ => 0
  accepted := ⟨by decide, by decide, by decide⟩
  rounds_pos := by decide
  rounds_lt := by decide

/-- The second process of the default ring waits in vain. -/
theorem default_ring_stops : ¬ RingCorrect defaultRing := by
  intro h
  have hneg := h.second rfl
  exact absurd hneg (by decide)

end Apps
end Xinu
