import Xinu.Foundations.CountingSemaphore
import Xinu.Kernel.State

/-!
# The process ring

Embedding of `apps/process_ring.c` and of `sem` in `shell/xsh_process_ring.c`: the
ring of processes that pass a value around, synchronised by semaphores.  A process can
lose the processor between any two statements, so each statement is a step.

Main results:

- Theorem `RingState.next_ring`: a ring process that is not in a queue goes on.
- Theorem `exists_stuck`: where all runs are bounded, some run ends in a state in which
  nobody can go on.
-/

namespace Xinu
namespace Apps

open Foundations Function

/-- What `xsh_process_ring` accepts behind `-p`. -/
def AcceptedCount (processCount : Int) : Prop :=
  processCount ≠ 0 ∧ 0 ≤ processCount ∧ processCount ≤ 64

/-- The arguments of `sem`, and what the stack of each process holds where its
variable `value` will be, which `sem_function` tests before it assigns it. -/
structure RingArgs where
  processCount : Nat
  roundsCount : Nat
  garbage : Nat → Int32
  accepted : AcceptedCount processCount
  rounds_pos : 0 < roundsCount
  rounds_lt : roundsCount < 0x80000000

/-- The processes: the shell, which executes `sem`, and the elements of the ring. -/
inductive Runner where
  | shell
  | ring (k : Nat)
deriving DecidableEq, Repr

/-- The next statement of `sem_function`. -/
inductive RingPc where
  | test
  | wait
  | load
  | print
  | move
  | store
  | signal
  | done
  | exited
deriving DecidableEq, Repr

/-- The variables of `sem_function`. -/
structure RingProcess where
  pc : RingPc
  index : Nat
  roundsLocal : Int
  value : Int
deriving DecidableEq, Repr

/-- The next statement of `sem`, in its last two loops. -/
inductive SemPc where
  | create (k : Nat)
  | wait (n : Nat)
  | deleteTurn (n : Nat)
  | deleteDone (n : Nat)
  | returned
deriving DecidableEq, Repr

/-- `RingElement %d : Round %d : Value : %d` -/
structure RingLine where
  element : Nat
  round : Int
  value : Int
deriving DecidableEq, Repr

structure RingState where
  globalarray : List Int
  semarray : Nat → Sem Runner
  doneSem : Nat → Sem Runner
  /-- The ring processes that have been created. -/
  ring : Nat → Option RingProcess
  shell : SemPc
  printed : List RingLine
  /-- Some access was outside its array. -/
  strayed : Bool

/-! ## Semaphores -/

/-- `wait(sem)`, by process `w` -/
def waitSem (w : Runner) (v : Sem Runner) : Sem Runner :=
  if v.used = true then v.wait i32 w else v

/-- `signal(sem)` -/
def signalSem (v : Sem Runner) : Sem Runner :=
  if v.used = true then v.signal i32 else v

/-- `semdelete(sem)` -/
def deleteSem (v : Sem Runner) : Sem Runner :=
  if v.used = true then v.delete else v

namespace RingState

/-- An access to place `i` of an array of `n` words. -/
def touch (i n : Nat) (s : RingState) : RingState :=
  { s with strayed := s.strayed || decide (n ≤ i) }

/-- `globalarray[i] = v` -/
def setGlobal (i : Nat) (v : Int) (s : RingState) : RingState :=
  { s.touch i s.globalarray.length with globalarray := s.globalarray.set i v }

/-- `globalarray[i]` -/
def global (s : RingState) (i : Nat) : Int :=
  s.globalarray.getD i 0

def setRing (k : Nat) (e : RingProcess) (s : RingState) : RingState :=
  { s with ring := update s.ring k (some e) }

def setTurn (i : Nat) (f : Sem Runner → Sem Runner) (s : RingState) : RingState :=
  { s with semarray := update s.semarray i (f (s.semarray i)) }

def setDone (i : Nat) (f : Sem Runner → Sem Runner) (s : RingState) : RingState :=
  { s with doneSem := update s.doneSem i (f (s.doneSem i)) }

/-- The process is in the queue of a semaphore. -/
def blocked (A : RingArgs) (s : RingState) (w : Runner) : Bool :=
  (List.range A.processCount).any fun i =>
    (s.semarray i).queue.contains w || (s.doneSem i).queue.contains w

/-! ## sem_function -/

/-- The next statement of ring process `k`. -/
def stepRing (A : RingArgs) (k : Nat) (e : RingProcess) (s : RingState) : RingState :=
  match e.pc with
  | .test =>
      if e.roundsLocal < A.roundsCount ∧ e.value ≥ 0 then s.setRing k { e with pc := .wait }
      else s.setRing k { e with pc := .done }
  | .wait =>
      ((s.touch e.index A.processCount).setTurn e.index (waitSem (.ring k))).setRing k
        { e with pc := .load }
  | .load =>
      (s.touch e.index s.globalarray.length).setRing k
        { e with pc := .print, value := i32 (s.global e.index - 1) }
  | .print =>
      { (s.touch e.index s.globalarray.length).setRing k { e with pc := .move } with
        printed := s.printed ++ [⟨e.index, e.roundsLocal, s.global e.index⟩] }
  | .move =>
      if (e.index : Int) = A.processCount - 1 then
        s.setRing k { e with pc := .store, index := 0, roundsLocal := i32 (e.roundsLocal + 1) }
      else s.setRing k { e with pc := .store, index := e.index + 1 }
  | .store => (s.setGlobal e.index e.value).setRing k { e with pc := .signal }
  | .signal =>
      ((s.touch e.index A.processCount).setTurn e.index signalSem).setRing k
        { e with pc := .test }
  | .done =>
      ((s.touch e.index A.processCount).setDone e.index signalSem).setRing k
        { e with pc := .exited }
  | .exited => s

/-! ## sem -/

/-- The next statement of `sem`. -/
def stepShell (A : RingArgs) (s : RingState) : RingState :=
  match s.shell with
  | .create k =>
      if k < A.processCount then
        { s.setRing k ⟨.test, k, 0, (A.garbage k).toInt⟩ with shell := .create (k + 1) }
      else { s with shell := .wait 0 }
  | .wait n =>
      if n < A.processCount then
        { (s.touch n A.processCount).setDone n (waitSem .shell) with shell := .deleteTurn n }
      else { s with shell := .returned }
  | .deleteTurn n =>
      { (s.touch n A.processCount).setTurn n deleteSem with shell := .deleteDone n }
  | .deleteDone n =>
      { (s.touch n A.processCount).setDone n deleteSem with shell := .wait (n + 1) }
  | .returned => s

/-- The value that `sem` puts into the ring. -/
def firstValue (A : RingArgs) : Int :=
  i32 (i32 (A.processCount * A.roundsCount) - 1)

/-- The state in which `sem` creates the processes.  `globalarray` has been declared
with two words, before the arguments were read. -/
def initial (A : RingArgs) : RingState where
  globalarray := [firstValue A, -1]
  semarray := fun l => if l = 0 then ⟨true, 1, []⟩ else ⟨true, 0, []⟩
  doneSem := fun _ => ⟨true, 0, []⟩
  ring := fun _ => none
  shell := .create 0
  printed := []
  strayed := false

/-- The state after the next statement of `w`, if `w` can go on. -/
def next (A : RingArgs) (s : RingState) : Runner → Option RingState
  | .shell =>
      if s.shell = .returned ∨ s.blocked A .shell = true then none else some (stepShell A s)
  | .ring k =>
      match s.ring k with
      | none => none
      | some e =>
          if e.pc = .exited ∨ s.blocked A (.ring k) = true then none
          else some (stepRing A k e s)

end RingState

open RingState

/-- A run of `n` steps, in any order of the processes. -/
inductive RingRun (A : RingArgs) : Nat → RingState → Prop
  | start : RingRun A 0 (initial A)
  | step {n : Nat} {s s' : RingState} {w : Runner} (hrun : RingRun A n s)
      (hnext : s.next A w = some s') : RingRun A (n + 1) s'

/-- Everybody has returned. -/
def RingState.Finished (A : RingArgs) (s : RingState) : Prop :=
  s.shell = .returned ∧ ∀ k, k < A.processCount → ∃ e, s.ring k = some e ∧ e.pc = .exited

/-- The lines that are expected: who prints, and the value. -/
def countdown (A : RingArgs) : List (Nat × Int) :=
  (List.range (A.processCount * A.roundsCount)).map fun (t : Nat) =>
    (t % A.processCount, (A.processCount * A.roundsCount : Int) - 1 - t)

/-- What has been printed, without the rounds. -/
def RingState.said (s : RingState) : List (Nat × Int) :=
  s.printed.map fun l => (l.element, l.value)

/-- In every interleaving the ring prints the countdown, every access is inside its array,
and nobody is left behind. -/
structure RingCorrect (A : RingArgs) : Prop where
  printed : ∀ n s, RingRun A n s → s.said <+: countdown A
  inside : ∀ n s, RingRun A n s → s.strayed = false
  live : ∀ n s, RingRun A n s → (∀ w, s.next A w = none) → s.Finished A
  complete : ∀ n s, RingRun A n s → s.Finished A → s.said = countdown A
  ends : ∃ bound, ∀ n s, RingRun A n s → n ≤ bound

/-! ## Steps -/

section Steps

variable {A : RingArgs} {s s' : RingState} {w : Runner} {k : Nat} {e : RingProcess}

theorem RingState.blocked_iff : s.blocked A w = true ↔
    ∃ i, i < A.processCount ∧ (w ∈ (s.semarray i).queue ∨ w ∈ (s.doneSem i).queue) := by
  simp [blocked]

theorem RingState.not_blocked
    (h : ∀ i, i < A.processCount → w ∉ (s.semarray i).queue ∧ w ∉ (s.doneSem i).queue) :
    s.blocked A w = false := by
  rw [Bool.eq_false_iff, ne_eq, blocked_iff]
  rintro ⟨i, hi, hturn | hdone⟩
  · exact (h i hi).1 hturn
  · exact (h i hi).2 hdone

theorem RingState.next_ring_iff : s.next A (.ring k) = some s' ↔
    ∃ e, s.ring k = some e ∧ e.pc ≠ .exited ∧ s.blocked A (.ring k) = false ∧
      s' = stepRing A k e s := by
  cases hring : s.ring k with
  | none => simp [next, hring]
  | some e =>
      by_cases hstop : e.pc = .exited ∨ s.blocked A (.ring k) = true
      · simp only [next, hring, if_pos hstop, Option.some.injEq]
        constructor
        · intro h
          cases h
        · rintro ⟨e', rfl, hpc, hfree, -⟩
          rcases hstop with h | h
          · exact absurd h hpc
          · rw [h] at hfree
            cases hfree
      · simp only [next, hring, if_neg hstop, Option.some.injEq]
        rw [not_or, Bool.not_eq_true] at hstop
        constructor
        · rintro rfl
          exact ⟨e, rfl, hstop.1, hstop.2, rfl⟩
        · rintro ⟨e', rfl, -, -, rfl⟩
          rfl

theorem RingState.next_shell_iff : s.next A .shell = some s' ↔
    s.shell ≠ .returned ∧ s.blocked A .shell = false ∧ s' = stepShell A s := by
  unfold next
  by_cases hstop : s.shell = .returned ∨ s.blocked A .shell = true
  · simp only [if_pos hstop]
    constructor
    · intro h
      cases h
    · rintro ⟨hshell, hfree, -⟩
      rcases hstop with h | h
      · exact absurd h hshell
      · rw [h] at hfree
        cases hfree
  · simp only [if_neg hstop, Option.some.injEq]
    rw [not_or, Bool.not_eq_true] at hstop
    constructor
    · rintro rfl
      exact ⟨hstop.1, hstop.2, rfl⟩
    · rintro ⟨-, -, rfl⟩
      rfl

/-- A ring process that is not in a queue goes on. -/
theorem RingState.next_ring (hring : s.ring k = some e) (hpc : e.pc ≠ .exited)
    (hfree : s.blocked A (.ring k) = false) : s.next A (.ring k) = some (stepRing A k e s) :=
  next_ring_iff.mpr ⟨e, hring, hpc, hfree, rfl⟩

theorem RingState.next_shell (hshell : s.shell ≠ .returned)
    (hfree : s.blocked A .shell = false) : s.next A .shell = some (stepShell A s) :=
  next_shell_iff.mpr ⟨hshell, hfree, rfl⟩

/-- Where all runs are bounded, a run can be continued to a state in which nobody can go
on, and a property that each step keeps holds there. -/
theorem exists_stuck {P : RingState → Prop} {n : Nat}
    (hbound : ∃ bound, ∀ n s, RingRun A n s → n ≤ bound) (hrun : RingRun A n s) (hs : P s)
    (hstep : ∀ s s' w, P s → s.next A w = some s' → P s') :
    ∃ n s, RingRun A n s ∧ P s ∧ ∀ w, s.next A w = none := by
  by_contra hnone
  obtain ⟨bound, hbound⟩ := hbound
  -- otherwise the run has continuations of every length
  have hlong : ∀ m, ∃ s, RingRun A (n + m) s ∧ P s := by
    intro m
    induction m with
    | zero => exact ⟨s, hrun, hs⟩
    | succ m ih =>
        obtain ⟨s₁, hrun₁, hs₁⟩ := ih
        by_cases hstuck : ∀ w, s₁.next A w = none
        · exact absurd ⟨n + m, s₁, hrun₁, hs₁, hstuck⟩ hnone
        · rw [not_forall] at hstuck
          obtain ⟨w, hw⟩ := hstuck
          obtain ⟨s₂, hs₂⟩ := Option.ne_none_iff_exists'.mp hw
          exact ⟨s₂, .step hrun₁ hs₂, hstep s₁ s₂ w hs₁ hs₂⟩
  obtain ⟨s₁, hrun₁, -⟩ := hlong (bound + 1)
  have hle := hbound _ _ hrun₁
  omega

end Steps

end Apps
end Xinu
