import Xinu.Apps.ProcessRing
import Xinu.Kernel.SchedulerSpec

/-!
# The first process of the ring

The first process of the ring does not wait for the others: it takes its turn, moves on
to the next place and takes that turn as well.

Main results:

- Theorems `Solo.next_ring` and `Solo.next_shell`: what a step keeps while the first
  process is alone in the ring.
-/

namespace Xinu
namespace Apps

open Foundations Function RingState

variable {A : RingArgs} {s s' : RingState} {w : Runner} {k t n : Nat} {e e' : RingProcess}

/-- The number of turns. -/
def RingArgs.turns (A : RingArgs) : Nat :=
  A.processCount * A.roundsCount

theorem RingArgs.processCount_pos (A : RingArgs) : 0 < A.processCount := by
  have hzero := A.accepted.1
  omega

theorem RingArgs.turns_cast (A : RingArgs) :
    (A.turns : Int) = A.processCount * A.roundsCount :=
  Int.natCast_mul _ _

theorem RingArgs.turns_pos (A : RingArgs) : 0 < A.turns :=
  Nat.mul_pos A.processCount_pos A.rounds_pos

/-! ## The first process -/

/-- One after the index has moved on. -/
def RingPc.lap : RingPc → Nat
  | .store | .signal => 1
  | _ => 0

/-- One after the line has been printed. -/
def RingPc.spoken : RingPc → Nat
  | .move | .store | .signal => 1
  | _ => 0

/-- The process has taken its turn and not passed it on. -/
def RingPc.holds : RingPc → Bool
  | .load | .print | .move | .store | .signal => true
  | _ => false

/-- The first process, also before it has been created. -/
def RingState.walker (A : RingArgs) (s : RingState) : RingProcess :=
  (s.ring 0).getD ⟨.test, 0, 0, (A.garbage 0).toInt⟩

/-- The line of turn `j`. -/
def lineOf (A : RingArgs) (j : Nat) : RingLine :=
  ⟨j % A.processCount, (j / A.processCount : Nat), i32 (firstValue A - j)⟩

/-- The process has finished `t` turns and is in the next one. -/
structure WalkerAt (A : RingArgs) (t : Nat) (e : RingProcess) (s : RingState) : Prop where
  index : e.index = (t + e.pc.lap) % A.processCount
  rounds : e.roundsLocal = ((t + e.pc.lap) / A.processCount : Nat)
  carried : e.pc.holds = false →
    e.value = if t = 0 then (A.garbage 0).toInt else i32 (firstValue A - t)
  value : e.pc = .print ∨ e.pc.spoken = 1 → e.value = i32 (firstValue A - t - 1)
  global : e.pc ≠ .store →
    s.global ((t + e.pc.lap) % A.processCount) = i32 (firstValue A - (t + e.pc.lap : Nat))
  printed : s.printed = (List.range (t + e.pc.spoken)).map (lineOf A)
  more : e.pc = .wait ∨ e.pc.holds = true → t < A.turns
  last : e.pc = .done ∨ e.pc = .exited → t = A.turns
  le : t ≤ A.turns

/-! ## Where the shell is -/

/-- The number of ring processes that have been created. -/
def SemPc.made (p : Nat) : SemPc → Nat
  | create k => k
  | _ => p

/-- The number of elements of `done_sem` that the shell has waited for. -/
def SemPc.awaited (p : Nat) : SemPc → Nat
  | create _ => 0
  | wait n => n
  | deleteTurn n | deleteDone n => n + 1
  | returned => p

/-- The number of elements of `semarray` that have been deleted. -/
def SemPc.swept (p : Nat) : SemPc → Nat
  | create _ => 0
  | wait n | deleteTurn n => n
  | deleteDone n => n + 1
  | returned => p

/-- The number of elements of `done_sem` that have been deleted. -/
def SemPc.dropped (p : Nat) : SemPc → Nat
  | create _ => 0
  | wait n | deleteTurn n | deleteDone n => n
  | returned => p

/-- The loops of the shell stay inside their bounds. -/
def SemPc.InRange (p : Nat) : SemPc → Prop
  | create k => k ≤ p
  | wait n => n ≤ p
  | deleteTurn n | deleteDone n => n < p
  | returned => True

/-- The process has left `sem_function`. -/
def RingState.exited (s : RingState) (k : Nat) : Bool :=
  (s.ring k).any fun e => e.pc == .exited

/-- The semaphore on which the shell waits for a process. -/
def doneAt (awaited dropped exited : Bool) : Sem Runner :=
  match dropped, awaited, exited with
  | true, _, _ => ⟨false, 0, []⟩
  | false, false, false => ⟨true, 0, []⟩
  | false, false, true => ⟨true, 1, []⟩
  | false, true, false => ⟨true, -1, [.shell]⟩
  | false, true, true => ⟨true, 0, []⟩

/-- The first process goes around alone, after `t` turns; the others leave at once. -/
structure Solo (A : RingArgs) (t : Nat) (s : RingState) : Prop where
  walker : WalkerAt A t (s.walker A) s
  turns : ∀ i, i < A.processCount → s.semarray i =
    if i < s.shell.swept A.processCount then ⟨false, 0, []⟩
    else ⟨true, if (s.walker A).pc.holds = false ∧ i = t % A.processCount then 1 else 0, []⟩
  dones : ∀ k, k < A.processCount → s.doneSem k =
    doneAt (decide (k < s.shell.awaited A.processCount))
      (decide (k < s.shell.dropped A.processCount)) (s.exited k)
  leavers : ∀ k, k < s.shell.swept A.processCount → s.exited k = true
  others : ∀ k e, 0 < k → s.ring k = some e →
    e.index = k ∧ e.value < 0 ∧ (e.pc = .test ∨ e.pc = .done ∨ e.pc = .exited)
  made : ∀ k, (s.ring k).isSome = true ↔ k < s.shell.made A.processCount
  inRange : s.shell.InRange A.processCount

theorem i32_i32 (x : Int) : i32 (i32 x) = i32 x := by
  have hx := i32_range x
  exact i32_eq hx.1 hx.2

theorem i32_sub_one (x : Int) : i32 (i32 x - 1) = i32 (x - 1) := by
  unfold i32
  exact Int.bmod_sub_bmod

theorem i32_firstValue (A : RingArgs) : i32 (firstValue A) = firstValue A :=
  i32_i32 _

theorem firstValue_lt (A : RingArgs) : firstValue A < 0x80000000 :=
  (i32_range _).2

theorem global_initial (A : RingArgs) : (initial A).global 0 = firstValue A := by
  unfold RingState.global initial
  exact List.getD_cons_zero

theorem solo_initial (A : RingArgs) : Solo A 0 (initial A) := by
  have hp := A.processCount_pos
  have hwalk : (initial A).walker A = ⟨.test, 0, 0, (A.garbage 0).toInt⟩ := rfl
  constructor
  · rw [hwalk]
    constructor
    · simp [RingPc.lap]
    · simp [RingPc.lap]
    · simp
    · simp [RingPc.spoken]
    · intro _
      simp only [RingPc.lap, Nat.zero_mod, Nat.add_zero]
      rw [global_initial, Int.natCast_zero, Int.sub_zero, i32_firstValue]
    · simp [RingPc.spoken, initial]
    · simp [RingPc.holds]
    · simp
    · exact Nat.zero_le _
  · intro i hi
    by_cases hzero : i = 0
    · simp [hzero, initial, SemPc.swept, RingState.walker, RingPc.holds]
    · simp [hzero, initial, SemPc.swept]
  · intro k hk
    simp [initial, SemPc.awaited, SemPc.dropped, exited, doneAt]
  · intro k hk
    simp [initial, SemPc.swept] at hk
  · intro k e _ hring
    simp [initial] at hring
  · intro k
    simp [initial, SemPc.made]
  · simp [initial, SemPc.InRange]

/-! ## Steps of the first process -/

theorem rounds_lt_iff : t / A.processCount < A.roundsCount ↔ t < A.turns := by
  rw [Nat.div_lt_iff_lt_mul A.processCount_pos, RingArgs.turns, Nat.mul_comm]

theorem exited_eq (hring : s.ring k = some e) : s.exited k = (e.pc == .exited) := by
  simp [exited, hring]

/-- As long as the first process goes around, no semaphore has been deleted. -/
theorem Solo.swept_eq (h : Solo A t s) (hpc : (s.walker A).pc ≠ .exited) :
    s.shell.swept A.processCount = 0 := by
  by_contra hpos
  have hleft := h.leavers 0 (Nat.pos_of_ne_zero hpos)
  unfold exited at hleft
  unfold RingState.walker at hpc
  cases hring : s.ring 0 with
  | none =>
      rw [hring] at hleft
      cases hleft
  | some e =>
      rw [hring] at hleft hpc
      exact hpc (by simpa using hleft)

/-- The shell is not in the queue of a semaphore of the ring, and the others are in no
queue. -/
theorem Solo.turn_queue (h : Solo A t s) {i : Nat} (hi : i < A.processCount) :
    (s.semarray i).queue = [] := by
  rw [h.turns i hi]
  split <;> rfl

theorem Solo.not_blocked (h : Solo A t s) (k : Nat) : s.blocked A (.ring k) = false := by
  apply RingState.not_blocked
  intro i hi
  rw [h.turn_queue hi, h.dones i hi]
  refine ⟨List.not_mem_nil, ?_⟩
  unfold doneAt
  split <;> simp

/-- A step of the first process that changes neither `done_sem` nor the shell. -/
theorem Solo.of_turn {t' : Nat} (h : Solo A t s) (hring : s.ring 0 = some e)
    (hpc : e.pc ≠ .exited) (hring' : s'.ring = update s.ring 0 (some e'))
    (hpc' : e'.pc ≠ .exited) (hdone : s'.doneSem = s.doneSem) (hshell : s'.shell = s.shell)
    (hwalker : WalkerAt A t' e' s')
    (hturns : ∀ i, i < A.processCount → s'.semarray i =
      ⟨true, if e'.pc.holds = false ∧ i = t' % A.processCount then 1 else 0, []⟩) :
    Solo A t' s' := by
  have hwalk : s.walker A = e := by simp [RingState.walker, hring]
  have hwalk' : s'.walker A = e' := by simp [RingState.walker, hring']
  have hexited : ∀ k, s'.exited k = s.exited k := by
    intro k
    by_cases hk : k = 0
    · subst hk
      rw [exited_eq hring, exited_eq (by rw [hring', update_self]), beq_eq_false_iff_ne.mpr hpc,
        beq_eq_false_iff_ne.mpr hpc']
    · simp [exited, hring', update_of_ne hk]
  constructor
  · rw [hwalk']
    exact hwalker
  · intro i hi
    rw [hshell, h.swept_eq (by rw [hwalk]; exact hpc), if_neg (Nat.not_lt_zero i), hwalk']
    exact hturns i hi
  · intro k hk
    rw [hdone, hshell, hexited]
    exact h.dones k hk
  · intro k hk
    rw [hshell] at hk
    rw [hexited]
    exact h.leavers k hk
  · intro k f hk hf
    rw [hring', update_of_ne (Nat.pos_iff_ne_zero.mp hk)] at hf
    exact h.others k f hk hf
  · intro k
    rw [hring', hshell, ← h.made k]
    by_cases hk : k = 0
    · subst hk
      simp [hring]
    · rw [update_of_ne hk]
  · rw [hshell]
    exact h.inRange

theorem Solo.walkerAt (h : Solo A t s) (hring : s.ring 0 = some e) : WalkerAt A t e s := by
  have hwalk : s.walker A = e := by simp [RingState.walker, hring]
  rw [← hwalk]
  exact h.walker

theorem Solo.turns_eq (h : Solo A t s) (hring : s.ring 0 = some e) (hpc : e.pc ≠ .exited)
    {i : Nat} (hi : i < A.processCount) : s.semarray i =
      ⟨true, if e.pc.holds = false ∧ i = t % A.processCount then 1 else 0, []⟩ := by
  have hwalk : s.walker A = e := by simp [RingState.walker, hring]
  have hturn := h.turns i hi
  rw [h.swept_eq (by rw [hwalk]; exact hpc), if_neg (Nat.not_lt_zero i), hwalk] at hturn
  exact hturn

theorem Solo.test (h : Solo A t s) (hring : s.ring 0 = some e) (hpc : e.pc = .test)
    (hgo : e.roundsLocal < A.roundsCount ∧ e.value ≥ 0) :
    Solo A t (stepRing A 0 e s) := by
  have hw := h.walkerAt hring
  have hmore : t < A.turns := by
    have hrounds := hw.rounds
    rw [hpc] at hrounds
    have hlt := hgo.1
    rw [hrounds] at hlt
    exact rounds_lt_iff.mp (Int.ofNat_lt.mp hlt)
  have hstep : stepRing A 0 e s = s.setRing 0 { e with pc := .wait } := by
    simp [stepRing, hpc, hgo]
  have hring' : (stepRing A 0 e s).ring = update s.ring 0 (some { e with pc := .wait }) := by
    rw [hstep]
    rfl
  apply h.of_turn hring (by simp [hpc]) hring' (by simp)
  · rw [hstep]
    rfl
  · rw [hstep]
    rfl
  · obtain ⟨hindex, hrounds, hcarried, -, hglobal, hprinted, -, -, hle⟩ := hw
    rw [hpc] at hindex hrounds hcarried hglobal hprinted
    rw [hstep]
    exact ⟨hindex, hrounds, hcarried, by simp [RingPc.spoken], fun _ => hglobal (by simp),
      hprinted, fun _ => hmore, by simp, hle⟩
  · intro i hi
    have hturn := h.turns_eq hring (by simp [hpc]) hi
    rw [hpc] at hturn
    rw [hstep]
    exact hturn

/-- The first process leaves the loop. -/
theorem Solo.leave (h : Solo A t s) (hring : s.ring 0 = some e) (hpc : e.pc = .test)
    (hstop : ¬ (e.roundsLocal < A.roundsCount ∧ e.value ≥ 0)) (hover : t = A.turns) :
    Solo A t (stepRing A 0 e s) := by
  have hw := h.walkerAt hring
  have hstep : stepRing A 0 e s = s.setRing 0 { e with pc := .done } := by
    simp [stepRing, hpc, hstop]
  have hring' : (stepRing A 0 e s).ring = update s.ring 0 (some { e with pc := .done }) := by
    rw [hstep]
    rfl
  apply h.of_turn hring (by simp [hpc]) hring' (by simp)
  · rw [hstep]
    rfl
  · rw [hstep]
    rfl
  · obtain ⟨hindex, hrounds, hcarried, -, hglobal, hprinted, -, -, hle⟩ := hw
    rw [hpc] at hindex hrounds hcarried hglobal hprinted
    rw [hstep]
    exact ⟨hindex, hrounds, hcarried, by simp [RingPc.spoken], fun _ => hglobal (by simp),
      hprinted, by simp [RingPc.holds], fun _ => hover, hle⟩
  · intro i hi
    have hturn := h.turns_eq hring (by simp [hpc]) hi
    rw [hpc] at hturn
    rw [hstep]
    exact hturn

/-- The first process takes its turn. -/
theorem Solo.wait (h : Solo A t s) (hring : s.ring 0 = some e) (hpc : e.pc = .wait) :
    Solo A t (stepRing A 0 e s) := by
  have hw := h.walkerAt hring
  have hturn := fun i hi => h.turns_eq hring (by simp [hpc]) (i := i) hi
  rw [hpc] at hturn
  have hstep : stepRing A 0 e s =
      ((s.touch e.index A.processCount).setTurn e.index (waitSem (.ring 0))).setRing 0
        { e with pc := .load } := by
    simp [stepRing, hpc]
  have hring' : (stepRing A 0 e s).ring = update s.ring 0 (some { e with pc := .load }) := by
    rw [hstep]
    rfl
  obtain ⟨hindex, hrounds, -, -, hglobal, hprinted, hmore, -, hle⟩ := hw
  rw [hpc] at hindex hrounds hglobal hprinted
  apply h.of_turn hring (by simp [hpc]) hring' (by simp)
  · rw [hstep]
    rfl
  · rw [hstep]
    rfl
  · rw [hstep]
    exact ⟨hindex, hrounds, by simp [RingPc.holds], by simp [RingPc.spoken],
      fun _ => hglobal (by simp), hprinted, fun _ => hmore (Or.inl hpc), by simp, hle⟩
  · intro i hi
    rw [hstep]
    show update s.semarray e.index (waitSem (.ring 0) (s.semarray e.index)) i = _
    by_cases heq : i = e.index
    · subst heq
      rw [update_self, hturn _ hi, hindex]
      simp [RingPc.lap, RingPc.holds, waitSem, Sem.wait]
      decide
    · rw [update_of_ne heq, hturn i hi]
      have hne : i ≠ t % A.processCount := by
        rw [hindex] at heq
        exact heq
      simp [hne]

theorem Solo.load (h : Solo A t s) (hring : s.ring 0 = some e) (hpc : e.pc = .load) :
    Solo A t (stepRing A 0 e s) := by
  have hw := h.walkerAt hring
  have hturn := fun i hi => h.turns_eq hring (by simp [hpc]) (i := i) hi
  rw [hpc] at hturn
  have hstep : stepRing A 0 e s =
      (s.touch e.index s.globalarray.length).setRing 0
        { e with pc := .print, value := i32 (s.global e.index - 1) } := by
    simp [stepRing, hpc]
  have hring' : (stepRing A 0 e s).ring =
      update s.ring 0 (some { e with pc := .print, value := i32 (s.global e.index - 1) }) := by
    rw [hstep]
    rfl
  obtain ⟨hindex, hrounds, -, -, hglobal, hprinted, hmore, -, hle⟩ := hw
  rw [hpc] at hindex hrounds hglobal hprinted
  have hvalue : i32 (s.global e.index - 1) = i32 (firstValue A - t - 1) := by
    rw [hindex, hglobal (by simp)]
    exact i32_sub_one _
  apply h.of_turn hring (by simp [hpc]) hring' (by simp)
  · rw [hstep]
    rfl
  · rw [hstep]
    rfl
  · rw [hstep]
    exact ⟨hindex, hrounds, by simp [RingPc.holds], fun _ => hvalue,
      fun _ => hglobal (by simp), hprinted, fun _ => hmore (by simp [hpc, RingPc.holds]),
      by simp, hle⟩
  · intro i hi
    rw [hstep]
    exact hturn i hi

theorem Solo.print (h : Solo A t s) (hring : s.ring 0 = some e) (hpc : e.pc = .print) :
    Solo A t (stepRing A 0 e s) := by
  have hw := h.walkerAt hring
  have hturn := fun i hi => h.turns_eq hring (by simp [hpc]) (i := i) hi
  rw [hpc] at hturn
  have hstep : stepRing A 0 e s =
      { (s.touch e.index s.globalarray.length).setRing 0 { e with pc := .move } with
        printed := s.printed ++ [⟨e.index, e.roundsLocal, s.global e.index⟩] } := by
    simp [stepRing, hpc]
  have hring' : (stepRing A 0 e s).ring = update s.ring 0 (some { e with pc := .move }) := by
    rw [hstep]
    rfl
  obtain ⟨hindex, hrounds, -, hvalue, hglobal, hprinted, hmore, -, hle⟩ := hw
  rw [hpc] at hindex hrounds hglobal hprinted
  have hline : (⟨e.index, e.roundsLocal, s.global e.index⟩ : RingLine) = lineOf A t := by
    rw [hindex, hglobal (by simp), hrounds]
    rfl
  apply h.of_turn hring (by simp [hpc]) hring' (by simp)
  · rw [hstep]
    rfl
  · rw [hstep]
    rfl
  · rw [hstep]
    refine ⟨hindex, hrounds, by simp [RingPc.holds], fun _ => hvalue (Or.inl hpc),
      fun _ => hglobal (by simp), ?_, fun _ => hmore (by simp [hpc, RingPc.holds]),
      by simp, hle⟩
    show s.printed ++ [⟨e.index, e.roundsLocal, s.global e.index⟩] = _
    rw [hprinted, hline]
    simp [RingPc.spoken, List.range_succ]
  · intro i hi
    rw [hstep]
    exact hturn i hi

/-- The turn after the last place of the ring. -/
theorem place_wrap {p : Nat} (h : t % p + 1 = p) : (t + 1) % p = 0 ∧ (t + 1) / p = t / p + 1 := by
  have hp : 0 < p := by omega
  have hnext : t + 1 = p * (t / p + 1) := by
    have hdiv := Nat.div_add_mod t p
    rw [Nat.mul_add, Nat.mul_one]
    omega
  rw [hnext, Nat.mul_mod_right, Nat.mul_div_cancel_left _ hp]
  exact ⟨rfl, rfl⟩

/-- The turn after any other place. -/
theorem place_succ {p : Nat} (hp : 0 < p) (h : t % p + 1 ≠ p) :
    (t + 1) % p = t % p + 1 ∧ (t + 1) / p = t / p := by
  have hmod := Nat.mod_lt t hp
  have hlt : t % p + 1 < p := by omega
  have hnext : t + 1 = t % p + 1 + p * (t / p) := by
    have hdiv := Nat.div_add_mod t p
    omega
  constructor
  · conv_lhs => rw [hnext]
    rw [Nat.add_mul_mod_self_left, Nat.mod_eq_of_lt hlt]
  · conv_lhs => rw [hnext]
    rw [Nat.add_mul_div_left _ _ hp, Nat.div_eq_of_lt hlt, Nat.zero_add]

theorem Solo.move (h : Solo A t s) (hring : s.ring 0 = some e) (hpc : e.pc = .move) :
    Solo A t (stepRing A 0 e s) := by
  have hw := h.walkerAt hring
  have hturn := fun i hi => h.turns_eq hring (by simp [hpc]) (i := i) hi
  rw [hpc] at hturn
  obtain ⟨hindex, hrounds, -, hvalue, hglobal, hprinted, hmore, -, hle⟩ := hw
  rw [hpc] at hindex hrounds hglobal hprinted
  have ht : t < A.turns := hmore (by simp [hpc, RingPc.holds])
  have hp := A.processCount_pos
  have hstep : stepRing A 0 e s = s.setRing 0
      ⟨.store, (t + 1) % A.processCount, ((t + 1) / A.processCount : Nat), e.value⟩ := by
    simp only [stepRing, hpc]
    by_cases hlast : t % A.processCount + 1 = A.processCount
    · have hif : (e.index : Int) = A.processCount - 1 := by
        rw [hindex]
        simp only [RingPc.lap, Nat.add_zero]
        omega
      have hlt := rounds_lt_iff.mpr ht
      have hmax := A.rounds_lt
      have hround : i32 (e.roundsLocal + 1) = ((t / A.processCount + 1 : Nat) : Int) := by
        rw [hrounds]
        simp only [RingPc.lap, Nat.add_zero]
        have hnonneg : (0 : Int) ≤ (t / A.processCount : Nat) := Int.natCast_nonneg _
        rw [i32_eq (by omega) (by omega)]
        rfl
      rw [if_pos hif, (place_wrap hlast).1, (place_wrap hlast).2, hround]
    · have hif : ¬ (e.index : Int) = A.processCount - 1 := by
        rw [hindex]
        simp only [RingPc.lap, Nat.add_zero]
        omega
      rw [if_neg hif, (place_succ hp hlast).1, (place_succ hp hlast).2, hindex, hrounds]
      rfl
  have hring' : (stepRing A 0 e s).ring = update s.ring 0
      (some ⟨.store, (t + 1) % A.processCount, ((t + 1) / A.processCount : Nat), e.value⟩) := by
    rw [hstep]
    rfl
  apply h.of_turn hring (by simp [hpc]) hring' (by simp)
  · rw [hstep]
    rfl
  · rw [hstep]
    rfl
  · rw [hstep]
    exact ⟨rfl, rfl, by simp [RingPc.holds], fun _ => hvalue (by simp [hpc, RingPc.spoken]),
      by simp, hprinted, fun _ => ht, by simp, hle⟩
  · intro i hi
    rw [hstep]
    exact hturn i hi

/-- The value is stored for the next process, where the array has a word for it. -/
theorem Solo.store (h : Solo A t s) (hring : s.ring 0 = some e) (hpc : e.pc = .store)
    (hinside : e.index < s.globalarray.length) : Solo A t (stepRing A 0 e s) := by
  have hw := h.walkerAt hring
  have hturn := fun i hi => h.turns_eq hring (by simp [hpc]) (i := i) hi
  rw [hpc] at hturn
  have hstep : stepRing A 0 e s =
      (s.setGlobal e.index e.value).setRing 0 { e with pc := .signal } := by
    simp [stepRing, hpc]
  have hring' : (stepRing A 0 e s).ring = update s.ring 0 (some { e with pc := .signal }) := by
    rw [hstep]
    rfl
  obtain ⟨hindex, hrounds, -, hvalue, -, hprinted, hmore, -, hle⟩ := hw
  rw [hpc] at hindex hrounds hprinted
  have hval := hvalue (by simp [hpc, RingPc.spoken])
  apply h.of_turn hring (by simp [hpc]) hring' (by simp)
  · rw [hstep]
    rfl
  · rw [hstep]
    rfl
  · rw [hstep]
    refine ⟨hindex, hrounds, by simp [RingPc.holds], fun _ => hval, ?_, hprinted,
      fun _ => hmore (by simp [hpc, RingPc.holds]), by simp, hle⟩
    intro _
    have hplace : (t + RingPc.signal.lap) % A.processCount = e.index := hindex.symm
    rw [hplace]
    show (s.globalarray.set e.index e.value).getD e.index 0 = _
    rw [List.getD_eq_getElem?_getD, List.getElem?_set_self hinside, Option.getD_some, hval]
    simp only [RingPc.lap]
    push_cast
    rw [Int.sub_sub]
  · intro i hi
    rw [hstep]
    exact hturn i hi

/-- The turn is passed on. -/
theorem Solo.signal (h : Solo A t s) (hring : s.ring 0 = some e) (hpc : e.pc = .signal) :
    Solo A (t + 1) (stepRing A 0 e s) := by
  have hw := h.walkerAt hring
  have hturn := fun i hi => h.turns_eq hring (by simp [hpc]) (i := i) hi
  rw [hpc] at hturn
  have hstep : stepRing A 0 e s =
      ((s.touch e.index A.processCount).setTurn e.index signalSem).setRing 0
        { e with pc := .test } := by
    simp [stepRing, hpc]
  have hring' : (stepRing A 0 e s).ring = update s.ring 0 (some { e with pc := .test }) := by
    rw [hstep]
    rfl
  obtain ⟨hindex, hrounds, -, hvalue, hglobal, hprinted, hmore, -, hle⟩ := hw
  rw [hpc] at hindex hrounds hglobal hprinted
  have hval := hvalue (by simp [hpc, RingPc.spoken])
  apply h.of_turn hring (by simp [hpc]) hring' (by simp)
  · rw [hstep]
    rfl
  · rw [hstep]
    rfl
  · rw [hstep]
    refine ⟨hindex, hrounds, ?_, by simp [RingPc.spoken], fun _ => hglobal (by simp), hprinted,
      by simp [RingPc.holds], by simp, hmore (by simp [hpc, RingPc.holds])⟩
    intro _
    rw [if_neg (Nat.succ_ne_zero t)]
    show e.value = _
    rw [hval]
    push_cast
    rw [Int.sub_sub]
  · intro i hi
    rw [hstep]
    show update s.semarray e.index (signalSem (s.semarray e.index)) i = _
    by_cases heq : i = e.index
    · subst heq
      rw [update_self, hturn _ hi, hindex]
      simp [RingPc.lap, RingPc.holds, signalSem, Sem.signal]
      decide
    · rw [update_of_ne heq, hturn i hi]
      have hne : i ≠ (t + 1) % A.processCount := by
        rw [hindex] at heq
        exact heq
      simp [RingPc.holds, hne]

/-! ## Steps of the others -/

/-- Only the array and the lines matter for the first process. -/
theorem WalkerAt.frame (h : WalkerAt A t e s) (hglobal : s'.globalarray = s.globalarray)
    (hprinted : s'.printed = s.printed) : WalkerAt A t e s' := by
  have hget : ∀ i, s'.global i = s.global i := by
    intro i
    unfold RingState.global
    rw [hglobal]
  obtain ⟨hindex, hrounds, hcarried, hvalue, hg, hp, hmore, hover, hle⟩ := h
  refine ⟨hindex, hrounds, hcarried, hvalue, ?_, ?_, hmore, hover, hle⟩
  · rw [hget]
    exact hg
  · rw [hprinted]
    exact hp

theorem SemPc.dropped_le_swept (p : Nat) (c : SemPc) : c.dropped p ≤ c.swept p := by
  cases c <;> simp [SemPc.dropped, SemPc.swept]

theorem exited_setRing (j : Nat) :
    (s.setRing k e).exited j = if j = k then e.pc == .exited else s.exited j := by
  by_cases hj : j = k
  · simp [exited, setRing, hj]
  · simp [exited, setRing, hj]

theorem signalSem_doneAt (awaited : Bool) :
    signalSem (doneAt awaited false false) = doneAt awaited false true := by
  cases awaited <;> decide

/-- A process that is still at its own place leaves. -/
theorem Solo.exit (h : Solo A t s) (hk : k < A.processCount) (hring : s.ring k = some e)
    (hpc : e.pc = .done) (hindex : e.index = k) : Solo A t (stepRing A k e s) := by
  have hstep : stepRing A k e s =
      ((s.touch k A.processCount).setDone k signalSem).setRing k { e with pc := .exited } := by
    simp [stepRing, hpc, hindex]
  have hstay : s.exited k = false := by
    rw [exited_eq hring, hpc]
    rfl
  have hswept : ¬ k < s.shell.swept A.processCount := by
    intro hlt
    rw [h.leavers k hlt] at hstay
    cases hstay
  have hexited : ∀ j, (stepRing A k e s).exited j = if j = k then true else s.exited j := by
    intro j
    rw [hstep, exited_setRing]
    rfl
  have hwalk : (stepRing A k e s).walker A =
      if k = 0 then { e with pc := .exited } else s.walker A := by
    rw [hstep]
    by_cases hzero : k = 0
    · simp [RingState.walker, setRing, hzero]
    · simp [RingState.walker, setRing, hzero, Ne.symm hzero, setDone, touch]
  have hholds : ((stepRing A k e s).walker A).pc.holds = (s.walker A).pc.holds := by
    rw [hwalk]
    split
    · next hzero =>
        rw [hzero] at hring
        simp [RingState.walker, hring, hpc, RingPc.holds]
    · rfl
  constructor
  · rw [hwalk]
    split
    · next hzero =>
        rw [hzero] at hring
        obtain ⟨hi, hr, hcarried, -, hg, hp, -, hover, hle⟩ := h.walkerAt hring
        rw [hpc] at hi hr hcarried hg hp
        rw [hstep]
        exact ⟨hi, hr, hcarried, by simp [RingPc.spoken], fun _ => hg (by simp), hp,
          by simp [RingPc.holds], fun _ => hover (Or.inl hpc), hle⟩
    · rw [hstep]
      exact h.walker.frame rfl rfl
  · intro i hi
    rw [hholds, hstep]
    exact h.turns i hi
  · intro j hj
    rw [hexited, hstep]
    show update s.doneSem k (signalSem (s.doneSem k)) j = _
    by_cases heq : j = k
    · subst heq
      have hdropped := SemPc.dropped_le_swept A.processCount s.shell
      have hdrop : ¬ j < s.shell.dropped A.processCount := by omega
      rw [update_self, h.dones j hj, hstay, if_pos rfl]
      show _ = doneAt (decide (j < s.shell.awaited A.processCount))
        (decide (j < s.shell.dropped A.processCount)) true
      rw [decide_eq_false hdrop, signalSem_doneAt]
    · rw [update_of_ne heq, if_neg heq]
      exact h.dones j hj
  · intro j hj
    rw [hexited]
    split
    · rfl
    · rw [hstep] at hj
      exact h.leavers j hj
  · intro j f hj hf
    rw [hstep] at hf
    by_cases heq : j = k
    · subst heq
      have hf' : { e with pc := .exited } = f := by simpa [setRing] using hf
      have hother := h.others j e hj hring
      rw [← hf']
      exact ⟨hother.1, hother.2.1, by simp⟩
    · exact h.others j f hj (by simpa [setRing, heq, setDone, touch] using hf)
  · intro j
    rw [hstep]
    show (update s.ring k _ j).isSome = true ↔ j < s.shell.made A.processCount
    rw [← h.made j]
    by_cases heq : j = k
    · simp [heq, hring]
    · rw [update_of_ne heq]
  · rw [hstep]
    exact h.inRange

/-- Another process finds that it has nothing to do. -/
theorem Solo.other (h : Solo A t s) (hk : 0 < k) (hring : s.ring k = some e)
    (hpc : e.pc = .test) : Solo A t (stepRing A k e s) := by
  have hne : k ≠ 0 := Nat.pos_iff_ne_zero.mp hk
  obtain ⟨hindex, hneg, -⟩ := h.others k e hk hring
  have hstep : stepRing A k e s = s.setRing k { e with pc := .done } := by
    have hstop : ¬ (e.roundsLocal < A.roundsCount ∧ e.value ≥ 0) := by omega
    simp [stepRing, hpc, hstop]
  have hwalk : (stepRing A k e s).walker A = s.walker A := by
    rw [hstep]
    simp [RingState.walker, setRing, Ne.symm hne]
  have hexited : ∀ j, (stepRing A k e s).exited j = s.exited j := by
    intro j
    rw [hstep, exited_setRing]
    split
    · next heq =>
        rw [heq, exited_eq hring, hpc]
        rfl
    · rfl
  constructor
  · rw [hwalk, hstep]
    exact h.walker.frame rfl rfl
  · intro i hi
    rw [hwalk, hstep]
    exact h.turns i hi
  · intro j hj
    rw [hexited, hstep]
    exact h.dones j hj
  · intro j hj
    rw [hstep] at hj
    rw [hexited]
    exact h.leavers j hj
  · intro j f hj hf
    rw [hstep] at hf
    by_cases heq : j = k
    · subst heq
      have hf' : { e with pc := .done } = f := by simpa [setRing] using hf
      rw [← hf']
      exact ⟨hindex, hneg, by simp⟩
    · exact h.others j f hj (by simpa [setRing, heq] using hf)
  · intro j
    rw [hstep]
    show (update s.ring k _ j).isSome = true ↔ j < s.shell.made A.processCount
    rw [← h.made j]
    by_cases heq : j = k
    · simp [heq, hring]
    · rw [update_of_ne heq]
  · rw [hstep]
    exact h.inRange

/-! ## Steps of the shell -/

/-- A step of the shell that creates no process. -/
theorem Solo.of_shell (h : Solo A t s) (hring : s'.ring = s.ring)
    (hglobal : s'.globalarray = s.globalarray) (hprinted : s'.printed = s.printed)
    (hmade : s'.shell.made A.processCount = s.shell.made A.processCount)
    (hturns : ∀ i, i < A.processCount → s'.semarray i =
      if i < s'.shell.swept A.processCount then ⟨false, 0, []⟩ else s.semarray i)
    (hdones : ∀ k, k < A.processCount → s'.doneSem k =
      doneAt (decide (k < s'.shell.awaited A.processCount))
        (decide (k < s'.shell.dropped A.processCount)) (s.exited k))
    (hswept : s.shell.swept A.processCount ≤ s'.shell.swept A.processCount)
    (hleavers : ∀ k, k < s'.shell.swept A.processCount → s.exited k = true)
    (hrange : s'.shell.InRange A.processCount) : Solo A t s' := by
  have hwalk : s'.walker A = s.walker A := by
    unfold RingState.walker
    rw [hring]
  have hexited : ∀ k, s'.exited k = s.exited k := by
    intro k
    unfold RingState.exited
    rw [hring]
  constructor
  · rw [hwalk]
    exact h.walker.frame hglobal hprinted
  · intro i hi
    rw [hturns i hi, hwalk]
    split
    · rfl
    · next hlt => rw [h.turns i hi, if_neg (by omega)]
  · intro k hk
    rw [hexited]
    exact hdones k hk
  · intro k hk
    rw [hexited]
    exact hleavers k hk
  · intro k f hk hf
    rw [hring] at hf
    exact h.others k f hk hf
  · intro k
    rw [hring, hmade]
    exact h.made k
  · exact hrange

/-- The shell creates a process that has nothing to do, or the first one. -/
theorem Solo.create (h : Solo A t s) (hshell : s.shell = .create k) (hk : k < A.processCount)
    (hgarbage : 0 < k → (A.garbage k).toInt < 0) : Solo A t (stepShell A s) := by
  have hstep : stepShell A s = { s.setRing k ⟨.test, k, 0, (A.garbage k).toInt⟩ with
      shell := .create (k + 1) } := by
    simp [stepShell, hshell, hk]
  have hnone : s.ring k = none := by
    have hmade := h.made k
    rw [hshell] at hmade
    simpa [SemPc.made] using hmade
  have hwalk : (stepShell A s).walker A = s.walker A := by
    rw [hstep]
    by_cases hzero : k = 0
    · subst hzero
      simp [RingState.walker, setRing, hnone]
    · simp [RingState.walker, setRing, Ne.symm hzero]
  have hexited : ∀ j, (stepShell A s).exited j = s.exited j := by
    intro j
    rw [hstep]
    show (s.setRing k _).exited j = _
    rw [exited_setRing]
    split
    · next heq => simp [exited, heq, hnone]
    · rfl
  constructor
  · rw [hwalk, hstep]
    exact h.walker.frame rfl rfl
  · intro i hi
    have hturn := h.turns i hi
    rw [hshell] at hturn
    rw [hwalk, hstep]
    exact hturn
  · intro j hj
    have hdone := h.dones j hj
    rw [hshell] at hdone
    rw [hexited, hstep]
    exact hdone
  · intro j hj
    rw [hstep] at hj
    simp [SemPc.swept] at hj
  · intro j f hj hf
    rw [hstep] at hf
    by_cases heq : j = k
    · subst heq
      have hf' : ⟨.test, j, 0, (A.garbage j).toInt⟩ = f := by simpa [setRing] using hf
      rw [← hf']
      exact ⟨rfl, hgarbage hj, Or.inl rfl⟩
    · exact h.others j f hj (by simpa [setRing, heq] using hf)
  · intro j
    have hmade := h.made j
    rw [hshell] at hmade
    rw [hstep]
    show (update s.ring k _ j).isSome = true ↔ j < k + 1
    by_cases heq : j = k
    · simp [heq]
    · rw [update_of_ne heq, hmade]
      simp only [SemPc.made]
      omega
  · rw [hstep]
    exact hk

theorem Solo.created (h : Solo A t s) (hshell : s.shell = .create k) (hk : ¬ k < A.processCount) :
    Solo A t (stepShell A s) := by
  have hrange := h.inRange
  rw [hshell] at hrange
  have hall : k = A.processCount := by
    have hle : k ≤ A.processCount := hrange
    omega
  have hstep : stepShell A s = { s with shell := .wait 0 } := by simp [stepShell, hshell, hk]
  rw [hstep]
  apply h.of_shell
  · rfl
  · rfl
  · rfl
  · rw [hshell]
    exact hall.symm
  · intro i hi
    simp [SemPc.swept]
  · intro j hj
    have hdone := h.dones j hj
    rw [hshell] at hdone
    exact hdone
  · rw [hshell]
    exact Nat.le_refl _
  · intro j hj
    exact absurd hj (Nat.not_lt_zero j)
  · exact Nat.zero_le _

theorem waitSem_doneAt (exited : Bool) :
    waitSem .shell (doneAt false false exited) = doneAt true false exited := by
  cases exited <;> decide

theorem deleteSem_doneAt : deleteSem (doneAt true false true) = ⟨false, 0, []⟩ := by
  decide

/-- The shell waits for the next process. -/
theorem Solo.await (h : Solo A t s) (hshell : s.shell = .wait n) (hn : n < A.processCount) :
    Solo A t (stepShell A s) := by
  have hstep : stepShell A s =
      { (s.touch n A.processCount).setDone n (waitSem .shell) with shell := .deleteTurn n } := by
    simp [stepShell, hshell, hn]
  rw [hstep]
  apply h.of_shell
  · rfl
  · rfl
  · rfl
  · rw [hshell]
    rfl
  · intro i hi
    have hturn := h.turns i hi
    rw [hshell] at hturn
    show s.semarray i = if i < n then _ else s.semarray i
    split
    · next hlt => rw [hturn, SemPc.swept, if_pos hlt]
    · rfl
  · intro j hj
    have hdone := h.dones j hj
    rw [hshell] at hdone
    show update s.doneSem n (waitSem .shell (s.doneSem n)) j =
      doneAt (decide (j < n + 1)) (decide (j < n)) (s.exited j)
    by_cases heq : j = n
    · subst heq
      rw [update_self, hdone]
      simp only [SemPc.awaited, SemPc.dropped, Nat.lt_irrefl, decide_false]
      rw [waitSem_doneAt, decide_eq_true (Nat.lt_succ_self j)]
    · rw [update_of_ne heq, hdone]
      have hsame : decide (j < n + 1) = decide (j < n) := by
        apply decide_eq_decide.mpr
        omega
      rw [hsame]
      rfl
  · rw [hshell]
    exact Nat.le_refl _
  · intro j hj
    have hleft := h.leavers j
    rw [hshell] at hleft
    exact hleft hj
  · exact hn

/-- The shell has waited for all processes. -/
theorem Solo.leaves (h : Solo A t s) (hshell : s.shell = .wait n) (hn : ¬ n < A.processCount) :
    Solo A t (stepShell A s) := by
  have hrange := h.inRange
  rw [hshell] at hrange
  have hall : n = A.processCount := by
    have hle : n ≤ A.processCount := hrange
    omega
  have hstep : stepShell A s = { s with shell := .returned } := by simp [stepShell, hshell, hn]
  have hdones := h.dones
  have hturns := h.turns
  have hleavers := h.leavers
  rw [hshell, hall] at hdones hturns hleavers
  rw [hstep]
  apply h.of_shell
  · rfl
  · rfl
  · rfl
  · rw [hshell]
    rfl
  · intro i hi
    show s.semarray i = if i < A.processCount then _ else _
    rw [if_pos hi, hturns i hi, SemPc.swept, if_pos hi]
  · exact hdones
  · rw [hshell, hall]
    exact Nat.le_refl _
  · exact hleavers
  · trivial

/-- A process for which the shell has waited has left, if the shell is in no queue. -/
theorem Solo.exited_of_awaited (h : Solo A t s) (hfree : s.blocked A .shell = false)
    (hn : n < A.processCount) (hawaited : n < s.shell.awaited A.processCount)
    (hdropped : ¬ n < s.shell.dropped A.processCount) : s.exited n = true := by
  have hdone := h.dones n hn
  rw [decide_eq_true hawaited, decide_eq_false hdropped] at hdone
  by_contra hstay
  rw [Bool.not_eq_true] at hstay
  rw [hstay] at hdone
  have hblocked : s.blocked A .shell = true := by
    rw [RingState.blocked_iff]
    refine ⟨n, hn, Or.inr ?_⟩
    rw [hdone]
    exact List.mem_singleton_self _
  rw [hblocked] at hfree
  cases hfree

theorem deleteSem_idle (c : Int) : deleteSem ⟨true, c, []⟩ = ⟨false, 0, []⟩ := by
  simp [deleteSem, Sem.delete]

/-- The shell deletes the semaphore of a place that nobody visits again. -/
theorem Solo.sweep (h : Solo A t s) (hshell : s.shell = .deleteTurn n)
    (hfree : s.blocked A .shell = false) : Solo A t (stepShell A s) := by
  have hn : n < A.processCount := by
    have hrange := h.inRange
    rw [hshell] at hrange
    exact hrange
  have hexit : s.exited n = true := by
    apply h.exited_of_awaited hfree hn
    · rw [hshell]
      exact Nat.lt_succ_self n
    · rw [hshell]
      exact Nat.lt_irrefl n
  have hstep : stepShell A s =
      { (s.touch n A.processCount).setTurn n deleteSem with shell := .deleteDone n } := by
    simp [stepShell, hshell]
  rw [hstep]
  apply h.of_shell
  · rfl
  · rfl
  · rfl
  · rw [hshell]
    rfl
  · intro i hi
    have hturn := h.turns i hi
    rw [hshell] at hturn
    show update s.semarray n (deleteSem (s.semarray n)) i = if i < n + 1 then _ else s.semarray i
    by_cases heq : i = n
    · subst heq
      rw [update_self, if_pos (Nat.lt_succ_self i), hturn, SemPc.swept,
        if_neg (Nat.lt_irrefl i), deleteSem_idle]
    · rw [update_of_ne heq]
      split
      · next hlt => rw [hturn, SemPc.swept, if_pos (by omega)]
      · rfl
  · intro j hj
    have hdone := h.dones j hj
    rw [hshell] at hdone
    exact hdone
  · rw [hshell]
    exact Nat.le_succ n
  · intro j hj
    have hleft := h.leavers j
    rw [hshell] at hleft
    have hlt : j < n + 1 := hj
    by_cases heq : j = n
    · rw [heq]
      exact hexit
    · exact hleft (show j < n by omega)
  · exact hn

/-- The shell deletes the semaphore on which it has waited. -/
theorem Solo.drop (h : Solo A t s) (hshell : s.shell = .deleteDone n) :
    Solo A t (stepShell A s) := by
  have hn : n < A.processCount := by
    have hrange := h.inRange
    rw [hshell] at hrange
    exact hrange
  have hexit : s.exited n = true := by
    apply h.leavers n
    rw [hshell]
    exact Nat.lt_succ_self n
  have hstep : stepShell A s =
      { (s.touch n A.processCount).setDone n deleteSem with shell := .wait (n + 1) } := by
    simp [stepShell, hshell]
  rw [hstep]
  apply h.of_shell
  · rfl
  · rfl
  · rfl
  · rw [hshell]
    rfl
  · intro i hi
    have hturn := h.turns i hi
    rw [hshell] at hturn
    show s.semarray i = if i < n + 1 then _ else s.semarray i
    split
    · next hlt => rw [hturn, SemPc.swept, if_pos hlt]
    · rfl
  · intro j hj
    have hdone := h.dones j hj
    rw [hshell] at hdone
    show update s.doneSem n (deleteSem (s.doneSem n)) j =
      doneAt (decide (j < n + 1)) (decide (j < n + 1)) (s.exited j)
    by_cases heq : j = n
    · subst heq
      rw [update_self, hdone, hexit]
      simp only [SemPc.awaited, SemPc.dropped, Nat.lt_irrefl, Nat.lt_succ_self, decide_true,
        decide_false]
      exact deleteSem_doneAt
    · rw [update_of_ne heq, hdone]
      have hsame : decide (j < n + 1) = decide (j < n) := by
        apply decide_eq_decide.mpr
        omega
      show doneAt (decide (j < n + 1)) (decide (j < n)) _ =
        doneAt (decide (j < n + 1)) (decide (j < n + 1)) _
      rw [hsame]
  · rw [hshell]
    exact Nat.le_refl _
  · intro j hj
    have hleft := h.leavers j
    rw [hshell] at hleft
    exact hleft hj
  · exact hn

/-! ## Any step -/

theorem Solo.ring_lt (h : Solo A t s) (hring : s.ring k = some e) : k < A.processCount := by
  have hmade := (h.made k).mp (by rw [hring]; rfl)
  have hrange := h.inRange
  revert hmade hrange
  cases s.shell with
  | create j => exact fun hlt hle => Nat.lt_of_lt_of_le hlt hle
  | wait n => exact fun hlt _ => hlt
  | deleteTurn n => exact fun hlt _ => hlt
  | deleteDone n => exact fun hlt _ => hlt
  | returned => exact fun hlt _ => hlt

theorem Solo.index_lt (h : Solo A t s) (hring : s.ring k = some e) :
    e.index < A.processCount := by
  by_cases hzero : k = 0
  · subst hzero
    rw [(h.walkerAt hring).index]
    exact Nat.mod_lt _ A.processCount_pos
  · rw [(h.others k e (Nat.pos_of_ne_zero hzero) hring).1]
    exact h.ring_lt hring

/-- A step of a ring process.  The first process may not leave early, and may not store
outside the array. -/
theorem Solo.next_ring (h : Solo A t s) (hring : s.ring k = some e) (hpc : e.pc ≠ .exited)
    (hstore : k = 0 → e.pc = .store → e.index < s.globalarray.length)
    (hleave : k = 0 → e.pc = .test → ¬ (e.roundsLocal < A.roundsCount ∧ e.value ≥ 0) →
      t = A.turns) : ∃ t', Solo A t' (stepRing A k e s) := by
  have hk := h.ring_lt hring
  by_cases hzero : k = 0
  · subst hzero
    cases hat : e.pc with
    | test =>
        by_cases hgo : e.roundsLocal < A.roundsCount ∧ e.value ≥ 0
        · exact ⟨t, h.test hring hat hgo⟩
        · exact ⟨t, h.leave hring hat hgo (hleave rfl hat hgo)⟩
    | wait => exact ⟨t, h.wait hring hat⟩
    | load => exact ⟨t, h.load hring hat⟩
    | print => exact ⟨t, h.print hring hat⟩
    | move => exact ⟨t, h.move hring hat⟩
    | store => exact ⟨t, h.store hring hat (hstore rfl hat)⟩
    | signal => exact ⟨t + 1, h.signal hring hat⟩
    | done =>
        have hw := h.walkerAt hring
        have hlast : (A.turns + RingPc.done.lap) % A.processCount = 0 :=
          Nat.mul_mod_right A.processCount A.roundsCount
        have hindex := hw.index
        rw [hw.last (Or.inl hat), hat, hlast] at hindex
        exact ⟨t, h.exit hk hring hat hindex⟩
    | exited => exact absurd hat hpc
  · have hpos := Nat.pos_of_ne_zero hzero
    obtain ⟨hindex, -, hat | hat | hat⟩ := h.others k e hpos hring
    · exact ⟨t, h.other hpos hring hat⟩
    · exact ⟨t, h.exit hk hring hat hindex⟩
    · exact absurd hat hpc

/-- A step of the shell. -/
theorem Solo.next_shell (h : Solo A t s) (hshell : s.shell ≠ .returned)
    (hfree : s.blocked A .shell = false)
    (hgarbage : ∀ k, 0 < k → k < A.processCount → (A.garbage k).toInt < 0) :
    Solo A t (stepShell A s) := by
  cases hat : s.shell with
  | create k =>
      by_cases hk : k < A.processCount
      · exact h.create hat hk fun hpos => hgarbage k hpos hk
      · exact h.created hat hk
  | wait n =>
      by_cases hn : n < A.processCount
      · exact h.await hat hn
      · exact h.leaves hat hn
  | deleteTurn n => exact h.sweep hat hfree
  | deleteDone n => exact h.drop hat
  | returned => exact absurd hat hshell

end Apps
end Xinu
