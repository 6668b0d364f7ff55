import Xinu.Apps.RingWalker

/-!
# Rings that count down

Where the first process goes around alone and the others leave at once, the ring prints
its countdown, and every run comes to its end.

Main results:

- Theorem `Counting.next`: what every step of such a ring keeps.
- Theorem `Counting.remaining`: every step brings the end nearer.
- Theorem `CountsDown.correct`: such a ring does what it should in every interleaving.
-/

namespace Xinu
namespace Apps

open Foundations Function RingState

variable {A : RingArgs} {s s' : RingState} {w : Runner} {k t n : Nat} {e e' : RingProcess}

/-! ## Rings that count down -/

/-- The ring is small enough for its array and its words, the first process enters the loop,
and a second one does not. -/
def CountsDown (A : RingArgs) : Prop :=
  0 ≤ (A.garbage 0).toInt ∧ A.turns ≤ 0x80000000 ∧
    (A.processCount = 1 ∨ A.processCount = 2 ∧ (A.garbage 1).toInt < 0)

theorem firstValue_eq (h : A.turns ≤ 0x80000000) : firstValue A = A.turns - 1 := by
  have hpos := A.turns_pos
  unfold firstValue
  rw [i32_sub_one]
  rw [← A.turns_cast]
  exact i32_eq (by omega) (by omega)

theorem i32_turn (h : A.turns ≤ 0x80000000) (ht : t ≤ A.turns) :
    i32 (firstValue A - t) = (A.turns : Int) - 1 - t := by
  rw [firstValue_eq h]
  exact i32_eq (by omega) (by omega)

/-- The lines of the first turns. -/
theorem said_lines (h : A.turns ≤ 0x80000000) (ht : n ≤ A.turns)
    (hprinted : s.printed = (List.range n).map (lineOf A)) :
    s.said = (countdown A).take n := by
  unfold said countdown
  have hmin : min n (A.processCount * A.roundsCount) = n := Nat.min_eq_left ht
  rw [hprinted, List.map_map, ← List.map_take, List.take_range, hmin]
  apply List.map_congr_left
  intro j hj
  rw [List.mem_range] at hj
  have hvalue := i32_turn h (Nat.le_of_lt (Nat.lt_of_lt_of_le hj ht))
  rw [A.turns_cast] at hvalue
  simp only [Function.comp_apply, lineOf, hvalue]

theorem CountsDown.two (h : CountsDown A) : A.processCount ≤ 2 := by
  obtain ⟨-, -, hone | htwo⟩ := h <;> omega

theorem CountsDown.garbage (h : CountsDown A) (hk : 0 < k) (hlt : k < A.processCount) :
    (A.garbage k).toInt < 0 := by
  obtain ⟨-, -, hone | ⟨htwo, hneg⟩⟩ := h
  · omega
  · have hk : k = 1 := by omega
    rw [hk]
    exact hneg

/-- The first process leaves the loop after the last turn. -/
theorem CountsDown.leave (h : CountsDown A) (hw : WalkerAt A t e s) (hpc : e.pc = .test)
    (hstop : ¬ (e.roundsLocal < A.roundsCount ∧ e.value ≥ 0)) : t = A.turns := by
  have hle := hw.le
  by_contra hne
  have hlt : t < A.turns := by omega
  apply hstop
  constructor
  · have hrounds := hw.rounds
    rw [hpc] at hrounds
    rw [hrounds]
    exact Int.ofNat_lt.mpr (rounds_lt_iff.mpr hlt)
  · rw [hw.carried (by rw [hpc]; rfl)]
    split
    · exact h.1
    · rw [i32_turn h.2.1 hle]
      omega

/-- What holds in every state of a ring that counts down. -/
structure Counting (A : RingArgs) (s : RingState) : Prop where
  solo : ∃ t, Solo A t s
  words : s.globalarray.length = 2
  inside : s.strayed = false

theorem stepRing_inside (hwords : s.globalarray.length = 2) (hinside : s.strayed = false)
    (hindex : e.index < A.processCount) (htwo : A.processCount ≤ 2) :
    (stepRing A k e s).globalarray.length = 2 ∧ (stepRing A k e s).strayed = false := by
  have hword : ¬ 2 ≤ e.index := by omega
  have hplace : ¬ A.processCount ≤ e.index := by omega
  cases hat : e.pc with
  | test | move =>
      simp only [stepRing, hat]
      split <;> exact ⟨hwords, hinside⟩
  | store => simp [stepRing, hat, setRing, setGlobal, touch, hwords, hinside, hword]
  | wait | signal => simp [stepRing, hat, setRing, setTurn, touch, hwords, hinside, hplace]
  | done => simp [stepRing, hat, setRing, setDone, touch, hwords, hinside, hplace]
  | load | print => simp [stepRing, hat, setRing, touch, hwords, hinside, hword]
  | exited => simp [stepRing, hat, hwords, hinside]

theorem stepShell_inside (hwords : s.globalarray.length = 2) (hinside : s.strayed = false)
    (hrange : s.shell.InRange A.processCount) :
    (stepShell A s).globalarray.length = 2 ∧ (stepShell A s).strayed = false := by
  cases hat : s.shell with
  | create k =>
      simp only [stepShell, hat]
      split <;> exact ⟨hwords, hinside⟩
  | wait n =>
      simp only [stepShell, hat]
      split
      · next hn => simp [setDone, touch, hwords, hinside, hn]
      · exact ⟨hwords, hinside⟩
  | deleteTurn n =>
      rw [hat] at hrange
      have hn : ¬ A.processCount ≤ n := Nat.not_le_of_lt hrange
      simp [stepShell, hat, setTurn, touch, hwords, hinside, hn]
  | deleteDone n =>
      rw [hat] at hrange
      have hn : ¬ A.processCount ≤ n := Nat.not_le_of_lt hrange
      simp [stepShell, hat, setDone, touch, hwords, hinside, hn]
  | returned => simp [stepShell, hat, hwords, hinside]

theorem Counting.next (h : Counting A s) (hA : CountsDown A) (hnext : s.next A w = some s') :
    Counting A s' := by
  obtain ⟨⟨t, hsolo⟩, hwords, hinside⟩ := h
  cases w with
  | shell =>
      obtain ⟨hshell, hfree, rfl⟩ := next_shell_iff.mp hnext
      have hin := stepShell_inside (A := A) hwords hinside hsolo.inRange
      exact ⟨⟨t, hsolo.next_shell hshell hfree fun k => hA.garbage⟩, hin.1, hin.2⟩
  | ring k =>
      obtain ⟨e, hring, hpc, -, rfl⟩ := next_ring_iff.mp hnext
      have hindex := hsolo.index_lt hring
      have hin := stepRing_inside (k := k) hwords hinside hindex hA.two
      refine ⟨?_, hin.1, hin.2⟩
      apply hsolo.next_ring hring hpc
      · intro _ _
        have htwo := hA.two
        omega
      · intro hk hat hstop
        subst hk
        exact hA.leave (hsolo.walkerAt hring) hat hstop

theorem counting_of_run (hA : CountsDown A) (hrun : RingRun A n s) : Counting A s := by
  induction hrun with
  | start => exact ⟨⟨0, solo_initial A⟩, rfl, rfl⟩
  | step _ hnext ih => exact ih.next hA hnext

theorem Counting.said (h : Counting A s) (hA : CountsDown A) :
    ∃ n, n ≤ A.turns ∧ s.printed = (List.range n).map (lineOf A) ∧
      s.said = (countdown A).take n := by
  obtain ⟨t, hsolo⟩ := h.solo
  have hw := hsolo.walker
  have hle : t + (s.walker A).pc.spoken ≤ A.turns := by
    have ht := hw.le
    have hmore := hw.more
    cases hat : (s.walker A).pc <;> simp only [hat, RingPc.spoken, RingPc.holds] at hmore ⊢ <;>
      simp at hmore <;> omega
  exact ⟨_, hle, hw.printed, said_lines hA.2.1 hle hw.printed⟩

/-- Where nobody can go on, everybody has returned. -/
theorem Counting.live (h : Counting A s) (hstuck : ∀ w, s.next A w = none) : s.Finished A := by
  obtain ⟨t, hsolo⟩ := h.solo
  -- a ring process that exists has left, since it is in no queue
  have hleft : ∀ k, k < s.shell.made A.processCount → s.exited k = true := by
    intro k hk
    obtain ⟨e, hring⟩ := Option.isSome_iff_exists.mp ((hsolo.made k).mpr hk)
    by_contra hstay
    have hpc : e.pc ≠ .exited := by
      intro hpc
      rw [exited_eq hring, hpc] at hstay
      exact hstay rfl
    have hgo := next_ring hring hpc (hsolo.not_blocked k)
    rw [hstuck] at hgo
    cases hgo
  have hshell : s.shell = .returned := by
    by_contra hshell
    have hblocked : s.blocked A .shell = true := by
      by_contra hfree
      rw [Bool.not_eq_true] at hfree
      have hgo := next_shell hshell hfree
      rw [hstuck] at hgo
      cases hgo
    obtain ⟨i, hi, hturn | hdone⟩ := blocked_iff.mp hblocked
    · rw [hsolo.turn_queue hi] at hturn
      cases hturn
    · rw [hsolo.dones i hi] at hdone
      unfold doneAt at hdone
      split at hdone
      · cases hdone
      · cases hdone
      · cases hdone
      · next hdropped hawaited hstay =>
          -- the shell waits only after it has created all
          have hmade : s.shell.made A.processCount = A.processCount := by
            cases hat : s.shell with
            | create k => simp [hat, SemPc.awaited] at hawaited
            | wait n => rfl
            | deleteTurn n => rfl
            | deleteDone n => rfl
            | returned => rfl
          rw [hleft i (by rw [hmade]; exact hi)] at hstay
          cases hstay
      · cases hdone
  refine ⟨hshell, ?_⟩
  intro k hk
  have hmade : k < s.shell.made A.processCount := by
    rw [hshell]
    exact hk
  obtain ⟨e, hring⟩ := Option.isSome_iff_exists.mp ((hsolo.made k).mpr hmade)
  have hexit := hleft k hmade
  rw [exited_eq hring] at hexit
  exact ⟨e, hring, by simpa using hexit⟩

theorem Counting.complete (h : Counting A s) (hA : CountsDown A) (hfinished : s.Finished A) :
    s.said = countdown A := by
  obtain ⟨t, hsolo⟩ := h.solo
  obtain ⟨e, hring, hpc⟩ := hfinished.2 0 A.processCount_pos
  have hw := hsolo.walkerAt hring
  have hprinted := hw.printed
  rw [hw.last (Or.inr hpc), hpc] at hprinted
  rw [said_lines hA.2.1 (Nat.le_refl A.turns) hprinted, List.take_of_length_le]
  rw [countdown, List.length_map, List.length_range]
  exact Nat.le_refl _

/-! ## The steps that remain -/

/-- The number of steps to the end of the turn, with the turns counted at the line. -/
def RingPc.rank : RingPc → Nat
  | .move => 13
  | .store => 12
  | .signal => 11
  | .test => 9
  | .wait | .done => 8
  | .load => 7
  | .print => 6
  | .exited => 0

/-- The number of statements of the shell that remain. -/
def SemPc.rank (p : Nat) : SemPc → Nat
  | create k => 3 * p + 2 + (p - k)
  | wait n => 3 * (p - n) + 1
  | deleteTurn n => 3 * (p - n)
  | deleteDone n => 3 * (p - n) - 1
  | returned => 0

/-- Where process `k` is, also before it has been created. -/
def RingState.pcOf (s : RingState) (k : Nat) : RingPc :=
  ((s.ring k).map RingProcess.pc).getD .test

/-- A bound on the number of steps that remain. -/
def RingState.remaining (A : RingArgs) (s : RingState) : Nat :=
  8 * (A.turns - s.printed.length) + (s.pcOf 0).rank + (s.pcOf 1).rank +
    s.shell.rank A.processCount

theorem pcOf_eq (hring : s.ring k = some e) : s.pcOf k = e.pc := by
  simp [pcOf, hring]

/-- What a step of a ring process does to the steps that remain. -/
theorem stepRing_rank (hpc : e.pc ≠ .exited) :
    (stepRing A k e s).shell = s.shell ∧ (∀ j, j ≠ k → (stepRing A k e s).ring j = s.ring j) ∧
      ∃ e', (stepRing A k e s).ring k = some e' ∧
        (e.pc = .print ∧ e'.pc = .move ∧
            (stepRing A k e s).printed.length = s.printed.length + 1 ∨
          e.pc ≠ .print ∧ e'.pc.rank < e.pc.rank ∧ (stepRing A k e s).printed = s.printed) := by
  cases hat : e.pc with
  | test | move =>
      simp only [stepRing, hat]
      split <;> simp +contextual [setRing, RingPc.rank]
  | wait | load | store | signal | done =>
      simp +contextual [stepRing, hat, setRing, setTurn, setDone, setGlobal, touch, RingPc.rank]
  | print => simp +contextual [stepRing, hat, setRing, touch]
  | exited => exact absurd hat hpc

theorem Solo.shell_rank (h : Solo A t s) (hshell : s.shell ≠ .returned) :
    (stepShell A s).printed = s.printed ∧ (∀ j, (stepShell A s).pcOf j = s.pcOf j) ∧
      (stepShell A s).shell.rank A.processCount < s.shell.rank A.processCount := by
  have hrange := h.inRange
  cases hat : s.shell with
  | create k =>
      rw [hat] at hrange
      have hle : k ≤ A.processCount := hrange
      have hnone : s.ring k = none := by
        have hmade := h.made k
        rw [hat] at hmade
        simpa [SemPc.made] using hmade
      by_cases hk : k < A.processCount
      · simp only [stepShell, hat, if_pos hk]
        refine ⟨rfl, ?_, ?_⟩
        · intro j
          by_cases hj : j = k
          · simp [pcOf, setRing, hj, hnone]
          · simp [pcOf, setRing, hj]
        · simp only [SemPc.rank]
          omega
      · simp only [stepShell, hat, if_neg hk]
        refine ⟨trivial, fun j => rfl, ?_⟩
        simp only [SemPc.rank]
        omega
  | wait n =>
      simp only [stepShell, hat]
      split
      · refine ⟨rfl, fun j => rfl, ?_⟩
        simp only [SemPc.rank]
        omega
      · refine ⟨rfl, fun j => rfl, ?_⟩
        simp only [SemPc.rank]
        omega
  | deleteTurn n =>
      rw [hat] at hrange
      have hlt : n < A.processCount := hrange
      simp only [stepShell, hat]
      refine ⟨rfl, fun j => rfl, ?_⟩
      simp only [SemPc.rank]
      omega
  | deleteDone n =>
      rw [hat] at hrange
      have hlt : n < A.processCount := hrange
      simp only [stepShell, hat]
      refine ⟨rfl, fun j => rfl, ?_⟩
      simp only [SemPc.rank]
      omega
  | returned => exact absurd hat hshell

theorem Solo.printed_lt (h : Solo A t s) (hring : s.ring k = some e) (hpc : e.pc = .print) :
    s.printed.length < A.turns := by
  by_cases hzero : k = 0
  · subst hzero
    have hw := h.walkerAt hring
    rw [hw.printed, List.length_map, List.length_range, hpc]
    exact hw.more (Or.inr (by rw [hpc]; rfl))
  · obtain ⟨-, -, hat | hat | hat⟩ := h.others k e (Nat.pos_of_ne_zero hzero) hring <;>
      rw [hat] at hpc <;> cases hpc

/-- Every step brings the end nearer. -/
theorem Counting.remaining (h : Counting A s) (hA : CountsDown A) (hnext : s.next A w = some s') :
    s'.remaining A < s.remaining A := by
  obtain ⟨t, hsolo⟩ := h.solo
  unfold RingState.remaining
  cases w with
  | shell =>
      obtain ⟨hshell, -, rfl⟩ := next_shell_iff.mp hnext
      obtain ⟨hprinted, hpc, hrank⟩ := hsolo.shell_rank hshell
      rw [hprinted, hpc, hpc]
      omega
  | ring k =>
      obtain ⟨e, hring, hpc, -, rfl⟩ := next_ring_iff.mp hnext
      obtain ⟨hshell, hothers, e', hring', hstep⟩ := stepRing_rank (A := A) (k := k) (s := s) hpc
      have hk : k = 0 ∨ k = 1 := by
        have hlt := hsolo.ring_lt hring
        have htwo := hA.two
        omega
      have hpcs : ∀ j, j ≠ k → (stepRing A k e s).pcOf j = s.pcOf j := by
        intro j hj
        unfold pcOf
        rw [hothers j hj]
      have hold := pcOf_eq hring
      have hnew := pcOf_eq hring'
      have hrank : 8 * (A.turns - (stepRing A k e s).printed.length) + e'.pc.rank <
          8 * (A.turns - s.printed.length) + e.pc.rank := by
        obtain ⟨hprint, hmove, hlen⟩ | ⟨-, hlt, hprinted⟩ := hstep
        · have hmore := hsolo.printed_lt hring hprint
          rw [hprint, hmove, hlen]
          simp only [RingPc.rank]
          omega
        · rw [hprinted]
          omega
      rcases hk with rfl | rfl
      · rw [hshell, hpcs 1 (by decide), hold, hnew]
        omega
      · rw [hshell, hpcs 0 (by decide), hold, hnew]
        omega

theorem run_bound (hA : CountsDown A) (hrun : RingRun A n s) :
    n + s.remaining A ≤ (initial A).remaining A := by
  induction hrun with
  | start => omega
  | @step n s s' w hrun hnext ih =>
      have hlt := (counting_of_run hA hrun).remaining hA hnext
      omega

theorem CountsDown.correct (hA : CountsDown A) : RingCorrect A := by
  constructor
  · intro n s hrun
    obtain ⟨m, -, -, hsaid⟩ := (counting_of_run hA hrun).said hA
    rw [hsaid]
    exact List.take_prefix m _
  · exact fun n s hrun => (counting_of_run hA hrun).inside
  · exact fun n s hrun => (counting_of_run hA hrun).live
  · exact fun n s hrun => (counting_of_run hA hrun).complete hA
  · refine ⟨(initial A).remaining A, ?_⟩
    intro n s hrun
    have hle := run_bound hA hrun
    omega

end Apps
end Xinu
