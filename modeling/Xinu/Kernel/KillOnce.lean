import Xinu.Kernel.Script
import Xinu.Kernel.Footprint

/-!
# Killing takes effect once

A process is created once, condemned when a `kill` of it passes its checks, and
buried when that `kill` has freed its stack and its slot.  In between, `kill`
may lose the processor while it tells the parent.

Main results:

- Theorem `kill_once`: while no two kills of one process are under way at once,
  and no process is killed that is itself in the middle of a kill, each life of
  a slot is counted out once and buried once, and a kill never reaches the next
  process in the slot.
- Theorem `two_kills_at_once`: without that condition both fail.
-/

namespace Xinu

open Foundations Function

/-! ## What happens to a slot -/

/-- The segment creates process `p`. -/
def Bears (p : Int) (seg : Segment Kernel KCall) : Prop :=
  match seg.call with
  | .create _ _ => p ≠ syserr ∧ seg.outcome = .returned p
  | _ => False

/-- The segment begins a kill of process `p` that passes its checks. -/
def Condemns (p : Int) (seg : Segment Kernel KCall) : Prop :=
  match seg.call with
  | .kill pid => pid.toInt = p ∧ seg.resumed = false ∧ Killable seg.before p
  | _ => False

/-- The segment ends a kill of process `p`; a process that kills itself does not return. -/
def Buries (p : Int) (seg : Segment Kernel KCall) : Prop :=
  match seg.call with
  | .kill pid => pid.toInt = p ∧ (seg.outcome = .returned ok ∨
      seg.outcome = .switched ∧ seg.who = p ∧ seg.after.state p = .prFree)
  | _ => False

instance (p : Int) (seg : Segment Kernel KCall) : Decidable (Bears p seg) := by
  unfold Bears
  split <;> infer_instance

instance (p : Int) (seg : Segment Kernel KCall) : Decidable (Condemns p seg) := by
  unfold Condemns
  split <;> infer_instance

instance (p : Int) (seg : Segment Kernel KCall) : Decidable (Buries p seg) := by
  unfold Buries
  split <;> infer_instance

/-- How often slot `p` was given to a process, a kill of it was begun, and it was freed. -/
def born (p : Int) (tr : List (Segment Kernel KCall)) : Nat := tr.countP (Bears p ·)
def condemned (p : Int) (tr : List (Segment Kernel KCall)) : Nat := tr.countP (Condemns p ·)
def buried (p : Int) (tr : List (Segment Kernel KCall)) : Nat := tr.countP (Buries p ·)

/-- What the segment does to the number of processes and to the heap: one process
more or less, one stack taken or given back. -/
structure Accounts (seg : Segment Kernel KCall) : Prop where
  born : ∀ p, Bears p seg → seg.after.prcount = i32 (seg.before.prcount + 1) ∧
    Memory.getstk (seg.after.proctab p).prstklen seg.before.heap =
      .done (some (seg.after.proctab p).prstkbase) seg.after.heap
  condemned : ∀ p, Condemns p seg → seg.after.prcount = i32 (seg.before.prcount - 1)
  others : (∀ p, ¬ Bears p seg ∧ ¬ Condemns p seg) → seg.after.prcount = seg.before.prcount
  buried : ∀ p, Buries p seg → ∃ b,
    Memory.freestk (seg.before.proctab p).prstkbase (seg.before.proctab p).prstklen
      seg.before.heap = .done b seg.after.heap
  unburied : (∀ p, ¬ Buries p seg) → (∀ n prio, seg.call ≠ .create n prio) →
    seg.after.heap = seg.before.heap
  stack : ∀ p, ¬ Bears p seg → (seg.after.proctab p).prstkbase = (seg.before.proctab p).prstkbase ∧
    (seg.after.proctab p).prstklen = (seg.before.proctab p).prstklen

/-! ## What the calls leave alone -/

/-- No process but `mortal` loses its slot, and nothing happens to stacks, heap and
the number of processes. -/
structure Quiet (mortal : Option Int) (s s' : Kernel) : Prop where
  heap : s'.heap = s.heap
  prcount : s'.prcount = s.prcount
  stack : ∀ p, (s'.proctab p).prstkbase = (s.proctab p).prstkbase ∧
    (s'.proctab p).prstklen = (s.proctab p).prstklen
  live : ∀ p, mortal ≠ some p → s.state p ≠ .prFree → s'.state p ≠ .prFree
  fresh : ∀ p, Fresh s' p → Fresh s p

section Segments

variable {mortal : Option Int} {s s' : Kernel} {p : Int}

instance : IsPreorder Kernel (Quiet mortal) where
  refl _ := ⟨rfl, rfl, fun _ => ⟨rfl, rfl⟩, fun _ _ h => h, fun _ h => h⟩
  trans _ _ _ h h' :=
    ⟨h'.heap.trans h.heap, h'.prcount.trans h.prcount,
      fun p => ⟨(h'.stack p).1.trans (h.stack p).1, (h'.stack p).2.trans (h.stack p).2⟩,
      fun p hp hl => h'.live p hp (h.live p hp hl), fun p hp => h.fresh p (h'.fresh p hp)⟩

/-- A change of a table entry that keeps its stack and, unless it is mortal, its life. -/
theorem quiet_setProc (s : Kernel) (p : Int) (f : Procent → Procent)
    (hstack : ∀ e, (f e).prstkbase = e.prstkbase ∧ (f e).prstklen = e.prstklen)
    (hlive : mortal ≠ some p → ∀ e, e.prstate ≠ .prFree → (f e).prstate ≠ .prFree)
    (hfresh : ∀ e, (f e).prstkptr = .initial → e.prstkptr = .initial) :
    Quiet mortal s (s.setProc p f) := by
  refine ⟨rfl, rfl, ?_, ?_, ?_⟩
  · intro r
    rw [proctab_setProc]
    split
    · next h => rw [h]; exact hstack _
    · exact ⟨rfl, rfl⟩
  · intro r hr hl
    unfold Kernel.state at hl ⊢
    rw [proctab_setProc]
    split
    · next h => subst h; exact hlive hr _ hl
    · exact hl
  · intro r hr
    unfold Fresh at hr ⊢
    rw [proctab_setProc] at hr
    split at hr
    · next h => rw [h]; exact hfresh _ hr
    · exact hr

theorem quiet_deaf : Deaf (Quiet mortal) := by
  have hrefl : ∀ s s' : Kernel, s'.heap = s.heap → s'.prcount = s.prcount →
      s'.proctab = s.proctab → Quiet mortal s s' := by
    intro s s' hheap hcount hproc
    refine ⟨hheap, hcount, fun p => ?_, fun p _ hl => ?_, fun p hp => ?_⟩
    · rw [hproc]; exact ⟨rfl, rfl⟩
    · unfold Kernel.state at hl ⊢; rwa [hproc]
    · unfold Fresh at hp ⊢; rwa [hproc] at hp
  refine ⟨⟨?_, ?_, ?_, ?_, ?_, ?_, ?_, ?_, ?_⟩, ?_, ?_⟩
  · exact fun s _ => hrefl s _ rfl rfl rfl
  · exact fun s _ => hrefl s _ rfl rfl rfl
  · exact fun s _ => hrefl s _ rfl rfl rfl
  · exact fun s _ _ _ => hrefl s _ rfl rfl rfl
  · exact fun s p st hst _ =>
      quiet_setProc s p _ (fun _ => ⟨rfl, rfl⟩) (fun _ _ _ => hst) fun _ h => h
  · exact fun s p => quiet_setProc s p _ (fun _ => ⟨rfl, rfl⟩) (fun _ _ h => h) nofun
  · exact fun s p n => quiet_setProc s p _ (fun _ => ⟨rfl, rfl⟩) (fun _ _ h => h) fun _ h => h
  · exact fun s _ _ => hrefl s _ rfl rfl rfl
  · exact fun s _ => hrefl s _ rfl rfl rfl
  · exact fun s p msg => quiet_setProc s p _ (fun _ => ⟨rfl, rfl⟩) (fun _ _ h => h) fun _ h => h
  · exact fun s p => quiet_setProc s p _ (fun _ => ⟨rfl, rfl⟩) (fun _ _ h => h) fun _ h => h

theorem quiet_mayWait : MayWait (Quiet mortal) :=
  fun s p _ => quiet_setProc s p _ (fun _ => ⟨rfl, rfl⟩) (fun _ _ _ => nofun) fun _ h => h

theorem Killable.live (h : Killable s p) : IsPid p ∧ p ≠ nullproc ∧ s.state p ≠ .prFree := by
  refine ⟨?_, ?_, ?_⟩
  · exact isPid_of_not_isbadpid fun hb => h (Or.inl hb)
  · exact fun hnull => h (Or.inr (Or.inl hnull))
  · exact fun hfree => h (Or.inr (Or.inr hfree))

theorem quiet_setFree (s : Kernel) (p : Int) : Quiet (some p) s (s.setState p .prFree) :=
  quiet_setProc s p _ (fun _ => ⟨rfl, rfl⟩) (fun hne => (hne rfl).elim) fun _ h => h

/-- The end of a kill: the stack is given back, the slot is free. -/
theorem killTail_cases (h : KernelOk ordinary s) (hpid : IsPid p) (hp : p ≠ nullproc) :
    ∃ b m, Memory.freestk (s.proctab p).prstkbase (s.proctab p).prstklen s.heap = .done b m ∧
      ∃ s₁, Quiet (some p) { s with heap := m } s₁ ∧ s₁.state p = .prFree ∧
        (killTail p s = .done ok s₁ ∨ p = s.currpid ∧ ∃ k, killTail p s = .suspended s₁ k) := by
  obtain ⟨b, m, hfreestk, hrun, hok⟩ := killTail_eq h hp
  have hlinked : s.state p = .prWait → ∃ x, ¬ isbadsem x ∧ p ∈ members s.queuetab (s.squeue x) := by
    intro hwait
    obtain ⟨hbad, hmem⟩ := h.consistent.wait_mem trivial p (by simp) hpid hwait
    exact ⟨_, hbad, hmem⟩
  have hwithin := killState_within (r := Quiet (some p)) quiet_deaf.toBlind p (quiet_setFree · p)
    { s with heap := m }
  refine ⟨b, m, hfreestk, ?_⟩
  rw [hrun]
  rcases killState_run hok hpid hp hlinked with ⟨s₁, hdone, -, -, -, hfree⟩ |
    ⟨s₁, k, hsusp, -, -, -, hself, hfree, -⟩
  · rw [hdone] at hwithin
    exact ⟨s₁, hwithin, hfree, Or.inl hdone⟩
  · rw [hsusp] at hwithin
    exact ⟨s₁, hwithin.1, hfree, Or.inr ⟨hself, k, hsusp⟩⟩

/-- The ways in which a kill can begin. -/
theorem kill_cases (h : KernelOk ordinary s) (p : Int) :
    ¬ Killable s p ∧ kill p s = .done syserr s ∨
      Killable s p ∧ (kill p s = .halted { s with prcount := i32 (s.prcount - 1) } ∨
        ∃ s₁, Quiet none { s with prcount := i32 (s.prcount - 1) } s₁ ∧
          (kill p s = .suspended s₁ (killTail p) ∧ ¬ Fresh s₁ s.currpid ∨
            kill p s = killTail p s₁ ∧ KernelOk ordinary s₁ ∧ s₁.currpid = s.currpid)) := by
  by_cases hkill : Killable s p
  swap
  · exact Or.inl ⟨hkill, kill_bad hkill⟩
  refine Or.inr ⟨hkill, ?_⟩
  by_cases hlast : i32 (s.prcount - 1) ≤ 1
  · exact Or.inl (kill_last hkill hlast)
  right
  have hok₁ : KernelOk ordinary { s with prcount := i32 (s.prcount - 1) } :=
    h.setGlobals s.nextpid _
  have hwithin := send_within (r := Quiet none) quiet_deaf (s.proctab p).prparent p
    { s with prcount := i32 (s.prcount - 1) }
  obtain ⟨v, s₁, hlands, hok, -, -, -, hhands⟩ := send_run hok₁ (s.proctab p).prparent p
  rw [kill_eq hkill hlast]
  refine ⟨s₁, ?_⟩
  cases hlands with
  | done hdone =>
      rw [hdone] at hwithin hhands ⊢
      exact ⟨hwithin, Or.inr ⟨rfl, hok, hhands⟩⟩
  | switched hsusp =>
      rw [hsusp] at hwithin hhands ⊢
      refine ⟨hwithin.1, Or.inl ⟨rfl, ?_⟩⟩
      have hsaved : (s₁.proctab s.currpid).prstkptr = .saved := hhands
      unfold Fresh
      rw [hsaved]
      exact nofun

end Segments

/-! ## Kills under way -/

/-- The process that process `w` is killing, if its kill is suspended. -/
def killing (C : Config Kernel KCall) (w : Int) : Option Int :=
  match C.pending w with
  | some (.kill pid, _) => some pid.toInt
  | _ => none

/-- Process `w` is in the middle of a kill of process `p`. -/
def Underway (C : Config Kernel KCall) (w p : Int) : Prop :=
  killing C w = some p ∧ C.state.state w ≠ .prFree

instance (C : Config Kernel KCall) (w p : Int) : Decidable (Underway C w p) :=
  inferInstanceAs (Decidable (_ ∧ _))

/-- A segment of an ordinary call.  If it kills a process, no other process is in the
middle of a kill of the same one, and the target is not in the middle of a kill. -/
def KillsAlone (C : Config Kernel KCall) (seg : Segment Kernel KCall) : Prop :=
  NullRuns seg.before seg.resumed seg.call ∧
    match seg.call with
    | .kill pid => ∀ w, IsPid w → w ≠ seg.who → ∀ q ∈ killing C w,
        C.state.state w ≠ .prFree → w ≠ pid.toInt ∧ q ≠ pid.toInt
    | _ => True

/-- What is known of a configuration about the suspended kills. -/
structure KillsOk (C : Config Kernel KCall) : Prop where
  /-- The rest of a suspended kill is its second half. -/
  rest : ∀ w pid k, C.pending w = some (.kill pid, k) → C.state.state w ≠ .prFree →
    k = killTail pid.toInt
  saved : ∀ w c k, C.pending w = some (c, k) → ¬ Fresh C.state w
  /-- `create` never loses the processor. -/
  created : ∀ w n prio k, C.pending w ≠ some (.create n prio, k)
  killer : ∀ w p, Underway C w p → IsPid w
  target : ∀ w p, Underway C w p → IsPid p ∧ p ≠ nullproc ∧ C.state.state p ≠ .prFree
  sole : ∀ w w' p, Underway C w p → Underway C w' p → w = w'

/-- What is known of the suspended kills, whoever kills whom. -/
structure Halfway (C : Config Kernel KCall) : Prop where
  rest : ∀ w pid k, C.pending w = some (.kill pid, k) → C.state.state w ≠ .prFree →
    k = killTail pid.toInt
  created : ∀ w n prio k, C.pending w ≠ some (.create n prio, k)
  killer : ∀ w p, Underway C w p → IsPid w
  target : ∀ w p, Underway C w p → IsPid p ∧ p ≠ nullproc

theorem KillsOk.halfway {C : Config Kernel KCall} (h : KillsOk C) : Halfway C := by
  refine ⟨h.rest, h.created, h.killer, ?_⟩
  intro w p hway
  obtain ⟨hpid, hnull, -⟩ := h.target w p hway
  exact ⟨hpid, hnull⟩

section Steps

variable {C C' : Config Kernel KCall} {seg : Segment Kernel KCall} {p w : Int}

/-- How a segment of a kill of process `p` changes the configuration. -/
inductive KillStep (C : Config Kernel KCall) (p : Int) (seg : Segment Kernel KCall)
    (C' : Config Kernel KCall) : Prop
  | refused (hfirst : seg.resumed = false) (hnot : ¬ Killable seg.before p)
      (hout : seg.outcome = .returned syserr)
      (hsame : seg.after = seg.before)
  | halted (hfirst : seg.resumed = false) (hkill : Killable seg.before p)
      (hout : seg.outcome = .halted) (hrun : C'.running = false)
      (hafter : seg.after = { seg.before with prcount := i32 (seg.before.prcount - 1) })
  | noticed (hfirst : seg.resumed = false) (hkill : Killable seg.before p)
      (hout : seg.outcome = .switched)
      (hquiet : Quiet none { seg.before with prcount := i32 (seg.before.prcount - 1) } seg.after)
      (hfresh : ¬ Fresh seg.after seg.who)
      (hpend : ∃ pid : Int32, pid.toInt = p ∧
        C'.pending seg.who = some (.kill pid, (killTail p : Kernel → Flow Kernel Int)))
  | ended {n : Int} {b : Bool} {m : Memory.Heap} {s₁ : Kernel}
      (hstart : seg.resumed = false ∧ Killable seg.before p ∧
          n = i32 (seg.before.prcount - 1) ∨
        seg.resumed = true ∧ Underway C seg.who p ∧ n = seg.before.prcount)
      (hquiet : Quiet none { seg.before with prcount := n } s₁)
      (hfreestk : Memory.freestk (s₁.proctab p).prstkbase (s₁.proctab p).prstklen s₁.heap =
        .done b m)
      (hquiet' : Quiet (some p) { s₁ with heap := m } seg.after)
      (hfree : seg.after.state p = .prFree)
      (hout : seg.outcome = .returned ok ∨ seg.outcome = .switched ∧ p = seg.who)

theorem kill_step {pid : Int32} (hI : Inv ordinary C.state) (hkills : Halfway C)
    (hstep : kernelMachine.Step C seg C') (hcall : seg.call = .kill pid) :
    KillStep C pid.toInt seg C' := by
  cases hstep with
  | @call c o C' hrun hidle hflow =>
      dsimp only at hcall
      subst hcall
      have hflow' : kernelMachine.settle C (.kill pid) (kill pid.toInt C.state) = some (o, C') :=
        hflow
      rcases kill_cases hI.kernelOk pid.toInt with ⟨hnot, hexec⟩ |
        ⟨hkill, hexec | ⟨s₁, hquiet, ⟨hexec, hsaved⟩ | ⟨hexec, hok, hcur⟩⟩⟩
      · rw [hexec] at hflow'
        simp only [Machine.settle, Option.some.injEq, Prod.mk.injEq] at hflow'
        obtain ⟨rfl, rfl⟩ := hflow'
        exact .refused rfl hnot rfl rfl
      · rw [hexec] at hflow'
        simp only [Machine.settle, Option.some.injEq, Prod.mk.injEq] at hflow'
        obtain ⟨rfl, rfl⟩ := hflow'
        exact .halted rfl hkill rfl rfl rfl
      · rw [hexec] at hflow'
        simp only [Machine.settle, Option.some.injEq, Prod.mk.injEq] at hflow'
        obtain ⟨rfl, rfl⟩ := hflow'
        refine .noticed rfl hkill rfl hquiet hsaved ⟨pid, rfl, ?_⟩
        have hfresh : ¬ kernelMachine.fresh s₁ C.state.currpid = true := by
          show ¬ decide (Fresh s₁ C.state.currpid) = true
          rw [decide_eq_true_eq]
          exact hsaved
        exact (if_neg hfresh).trans (update_self _ _ _)
      · obtain ⟨hpid, hnull, -⟩ := hkill.live
        obtain ⟨b, m, hfreestk, s₂, hquiet', hfree, hdone | ⟨hself, k, hsusp⟩⟩ :=
          killTail_cases hok hpid hnull
        · rw [hexec, hdone] at hflow'
          simp only [Machine.settle, Option.some.injEq, Prod.mk.injEq] at hflow'
          obtain ⟨rfl, rfl⟩ := hflow'
          exact .ended (Or.inl ⟨rfl, hkill, rfl⟩) hquiet hfreestk hquiet' hfree (Or.inl rfl)
        · rw [hexec, hsusp] at hflow'
          simp only [Machine.settle, Option.some.injEq, Prod.mk.injEq] at hflow'
          obtain ⟨rfl, rfl⟩ := hflow'
          exact .ended (Or.inl ⟨rfl, hkill, rfl⟩) hquiet hfreestk hquiet' hfree
            (Or.inr ⟨rfl, hself.trans hcur⟩)
  | @resume c k o C' hrun hbusy hflow =>
      dsimp only at hcall
      subst hcall
      have hlive : C.state.state C.state.currpid ≠ .prFree := by
        rw [hI.running]
        decide
      have hway : Underway C C.state.currpid pid.toInt := by
        refine ⟨?_, hlive⟩
        have hbusy' : C.pending C.state.currpid = some (.kill pid, k) := hbusy
        unfold killing
        rw [hbusy']
      obtain ⟨hpid, hnull⟩ := hkills.target _ _ hway
      obtain rfl := hkills.rest _ _ _ hbusy hlive
      obtain ⟨b, m, hfreestk, s₂, hquiet', hfree, hdone | ⟨hself, k, hsusp⟩⟩ :=
        killTail_cases hI.kernelOk hpid hnull
      · rw [hdone] at hflow
        simp only [Machine.settle, Option.some.injEq, Prod.mk.injEq] at hflow
        obtain ⟨rfl, rfl⟩ := hflow
        exact .ended (Or.inr ⟨rfl, hway, rfl⟩) (refl_of _ _) hfreestk hquiet' hfree (Or.inl rfl)
      · rw [hsusp] at hflow
        simp only [Machine.settle, Option.some.injEq, Prod.mk.injEq] at hflow
        obtain ⟨rfl, rfl⟩ := hflow
        exact .ended (Or.inr ⟨rfl, hway, rfl⟩) (refl_of _ _) hfreestk hquiet' hfree
          (Or.inr ⟨rfl, hself⟩)

/-- What a segment does to the slots and to the kills under way. -/
structure Turnover (C : Config Kernel KCall) (seg : Segment Kernel KCall)
    (C' : Config Kernel KCall) : Prop where
  bears : ∀ p, Bears p seg → C.state.state p = .prFree ∧ C'.state.state p ≠ .prFree ∧
    ¬ Condemns p seg ∧ ¬ Buries p seg
  buries : ∀ p, Buries p seg → C.state.state p ≠ .prFree ∧ C'.state.state p = .prFree
  keeps : ∀ p, ¬ Bears p seg → ¬ Buries p seg →
    (C'.state.state p = .prFree ↔ C.state.state p = .prFree)
  underway : ∀ w p, Underway C' w p ↔ Underway C w p ∧ ¬ (w = seg.who ∧ Buries p seg) ∨
    w = seg.who ∧ Condemns p seg ∧ ¬ Buries p seg

theorem killing_eq_some : killing C w = some p ↔
    ∃ pid k, C.pending w = some (.kill pid, k) ∧ pid.toInt = p := by
  unfold killing
  split
  · next pid k heq =>
      rw [heq]
      simp
  · next hno =>
      simp only [reduceCtorEq, false_iff]
      rintro ⟨pid, k, heq, -⟩
      exact hno pid k heq

/-- A kill of another process stays under way, unless its killer dies. -/
theorem KillsOk.underway_other (h : KillsOk C) (hstep : kernelMachine.Step C seg C')
    (hw : w ≠ seg.who) (hlive : C.state.state w ≠ .prFree → C'.state.state w ≠ .prFree)
    (hdead : C.state.state w = .prFree → Fresh C'.state w ∨ C'.state.state w = .prFree)
    (hfresh : Fresh C'.state w → Fresh C.state w ∨ C.state.state w = .prFree) :
    Underway C' w p ↔ Underway C w p := by
  have hafter := hstep.segment.2.1
  constructor
  · rintro ⟨hkilling, hlive'⟩
    obtain ⟨pid, k, hpend, rfl⟩ := killing_eq_some.mp hkilling
    obtain ⟨hnew, ⟨rfl, -⟩ | ⟨-, hpend'⟩⟩ := hstep.pending hpend
    · exact (hw rfl).elim
    · refine ⟨killing_eq_some.mpr ⟨pid, k, hpend', rfl⟩, ?_⟩
      intro hfree
      have hold : ¬ Fresh C'.state w := by
        rw [← hafter]
        exact of_decide_eq_false hnew
      rcases hdead hfree with hf | hf
      · exact hold hf
      · exact hlive' hf
  · rintro ⟨hkilling, halive⟩
    obtain ⟨pid, k, hpend, rfl⟩ := killing_eq_some.mp hkilling
    have hold : ¬ Fresh C'.state w := by
      intro hf
      rcases hfresh hf with hf | hf
      · exact h.saved _ _ _ hpend hf
      · exact halive hf
    have hnew : kernelMachine.fresh seg.after w = false := by
      rw [hafter]
      exact decide_eq_false hold
    refine ⟨killing_eq_some.mpr ⟨pid, k, ?_, rfl⟩, hlive halive⟩
    rw [hstep.keeps_pending hw hnew]
    exact hpend

/-- The running process is in the middle of no kill, unless it goes on with one. -/
theorem not_underway_of_started (hstep : kernelMachine.Step C seg C') (hres : seg.resumed = false) :
    ¬ Underway C seg.who p := by
  rintro ⟨hkilling, -⟩
  obtain ⟨pid, k, hpend, -⟩ := killing_eq_some.mp hkilling
  rw [hstep.started hres] at hpend
  contradiction

theorem call_of_underway (hstep : kernelMachine.Step C seg C') (h : Underway C seg.who p) :
    ∃ pid, seg.call = .kill pid ∧ pid.toInt = p ∧ seg.resumed = true := by
  obtain ⟨pid, k, hpend, hp⟩ := killing_eq_some.mp h.1
  cases hres : seg.resumed with
  | false => exact (not_underway_of_started hstep hres h).elim
  | true =>
      obtain ⟨k', hpend'⟩ := hstep.resumed hres
      rw [hpend] at hpend'
      exact ⟨pid, (congrArg Prod.fst (Option.some.inj hpend')).symm, hp, rfl⟩

theorem call_of_underway_after (hstep : kernelMachine.Step C seg C') (h : Underway C' seg.who p) :
    ∃ pid, seg.call = .kill pid ∧ pid.toInt = p ∧ seg.outcome = .switched := by
  obtain ⟨pid, k, hpend, hp⟩ := killing_eq_some.mp h.1
  obtain ⟨-, ⟨-, hout, hcall⟩ | ⟨hne, -⟩⟩ := hstep.pending hpend
  · exact ⟨pid, hcall.symm, hp, hout⟩
  · exact (hne rfl).elim

theorem call_of_buries (h : Buries p seg) : ∃ pid, seg.call = .kill pid ∧ pid.toInt = p := by
  unfold Buries at h
  split at h
  · next pid heq => exact ⟨pid, heq, h.1⟩
  · exact h.elim

theorem call_of_condemns (h : Condemns p seg) :
    ∃ pid, seg.call = .kill pid ∧ pid.toInt = p ∧ seg.resumed = false ∧ Killable seg.before p := by
  unfold Condemns at h
  split at h
  · next pid heq => exact ⟨pid, heq, h⟩
  · exact h.elim

theorem call_of_bears (h : Bears p seg) : ∃ n prio, seg.call = .create n prio := by
  unfold Bears at h
  split at h
  · next n prio heq => exact ⟨n, prio, heq⟩
  · exact h.elim

theorem noEvents_of_keepsProcs (hcall : KeepsProcs seg.call) :
    (∀ p, ¬ Bears p seg) ∧ (∀ p, ¬ Condemns p seg) ∧ ∀ p, ¬ Buries p seg := by
  refine ⟨fun p h => ?_, fun p h => ?_, fun p h => ?_⟩
  · obtain ⟨n, prio, heq⟩ := call_of_bears h
    rw [heq] at hcall
    exact hcall
  · obtain ⟨pid, heq, -⟩ := call_of_condemns h
    rw [heq] at hcall
    exact hcall
  · obtain ⟨pid, heq, -⟩ := call_of_buries h
    rw [heq] at hcall
    exact hcall

/-- A call that neither creates nor kills. -/
theorem turnover_plain (hkills : KillsOk C) (hI : Inv ordinary C.state)
    (hstep : kernelMachine.Step C seg C') (hseg : SegOk seg)
    (hquiet : Quiet none seg.before seg.after) (hcall : KeepsProcs seg.call) :
    Turnover C seg C' := by
  obtain ⟨hbefore, hafter, hwho⟩ := hstep.segment
  obtain ⟨hnb, hnc, hnd⟩ := noEvents_of_keepsProcs hcall
  have hlive : ∀ p, C.state.state p ≠ .prFree → C'.state.state p ≠ .prFree := by
    intro p hp
    rw [← hafter]
    exact hquiet.live p nofun (by rwa [hbefore])
  have hdead : ∀ p, C.state.state p = .prFree → C'.state.state p = .prFree := by
    intro p hp
    have hcur : seg.before.currpid ≠ p := by
      rintro rfl
      rw [← hbefore] at hI hp
      rw [hI.running] at hp
      contradiction
    rcases hseg.free p (by rwa [hbefore]) hcur with ⟨-, n, prio, heq⟩ | hfree
    · rw [heq] at hcall
      exact hcall.elim
    · rw [← hafter]
      exact hfree.1
  refine ⟨fun p hp => (hnb p hp).elim, fun p hp => (hnd p hp).elim, ?_, ?_⟩
  · exact fun p _ _ => ⟨fun hf => by_contra fun hne => hlive p hne hf, hdead p⟩
  · intro w p
    by_cases hw : w = seg.who
    · subst hw
      have hno : ∀ pid, seg.call ≠ .kill pid := by
        intro pid heq
        rw [heq] at hcall
        exact hcall
      constructor
      · intro h
        obtain ⟨pid, heq, -⟩ := call_of_underway_after hstep h
        exact (hno pid heq).elim
      · rintro (⟨h, -⟩ | ⟨-, h, -⟩)
        · obtain ⟨pid, heq, -⟩ := call_of_underway hstep h
          exact (hno pid heq).elim
        · exact (hnc p h).elim
    · rw [hkills.underway_other hstep hw (hlive w) (fun hf => Or.inr (hdead w hf)) fun hf =>
        Or.inl (by rw [← hbefore]; exact hquiet.fresh w (by rwa [hafter]))]
      simp [hw]

/-- How a segment of `create` changes the state. -/
inductive CreateStep (seg : Segment Kernel KCall) : Prop
  | failed (hout : seg.outcome = .returned syserr) (hproc : seg.after.proctab = seg.before.proctab)
      (hcount : seg.after.prcount = seg.before.prcount)
  | created {p : Int} (hout : seg.outcome = .returned p) (hpid : IsPid p)
      (hfree : seg.before.state p = .prFree) (hlive : seg.after.state p ≠ .prFree)
      (hfresh : Fresh seg.after p)
      (hother : ∀ r, r ≠ p → seg.after.proctab r = seg.before.proctab r)
      (hcount : seg.after.prcount = i32 (seg.before.prcount + 1))
      (hstack : Memory.getstk (seg.after.proctab p).prstklen seg.before.heap =
        .done (some (seg.after.proctab p).prstkbase) seg.after.heap)

theorem create_step {n : UInt32} {prio : Int16} (hI : Inv ordinary C.state) (hkills : Halfway C)
    (hstep : kernelMachine.Step C seg C') (hcall : seg.call = .create n prio) :
    CreateStep seg := by
  cases hstep with
  | @call c o C' hrun hidle hflow =>
      dsimp only at hcall
      subst hcall
      have hflow' : kernelMachine.settle C (.create n prio) (create n.toNat prio C.state) =
          some (o, C') := hflow
      obtain ⟨r, m, hstk, -, k, hexec | ⟨pid, a, rfl, hpid, hfree, -, hexec⟩⟩ :=
        create_cases hI.kernelOk n.toNat prio
      · rw [hexec] at hflow'
        simp only [Machine.settle, Option.some.injEq, Prod.mk.injEq] at hflow'
        obtain ⟨rfl, rfl⟩ := hflow'
        exact .failed rfl rfl rfl
      · rw [hexec] at hflow'
        simp only [Machine.settle, Option.some.injEq, Prod.mk.injEq] at hflow'
        obtain ⟨rfl, rfl⟩ := hflow'
        refine .created rfl hpid hfree ?_ ?_ ?_ rfl ?_
        · unfold Kernel.state
          rw [proctab_setProc, if_pos rfl]
          intro h
          cases h
        · unfold Fresh
          rw [proctab_setProc, if_pos rfl]
          rfl
        · intro r hr
          rw [proctab_setProc, if_neg hr]
        · rw [proctab_setProc, if_pos rfl]
          exact hstk
  | @resume c k o C' hrun hbusy hflow =>
      dsimp only at hcall
      subst hcall
      exact (hkills.created _ _ _ _ hbusy).elim

theorem turnover_create {n : UInt32} {prio : Int16} (hkills : KillsOk C)
    (hstep : kernelMachine.Step C seg C') (hcall : seg.call = .create n prio)
    (hcreate : CreateStep seg) : Turnover C seg C' := by
  obtain ⟨hbefore, hafter, hwho⟩ := hstep.segment
  have hnc : ∀ p, ¬ Condemns p seg := by
    intro p hb
    unfold Condemns at hb
    rw [hcall] at hb
    exact hb
  have hnd : ∀ p, ¬ Buries p seg := by
    intro p hb
    unfold Buries at hb
    rw [hcall] at hb
    exact hb
  have hnone : ∀ p, ¬ Underway C' seg.who p ∧ ¬ Underway C seg.who p := by
    refine fun p => ⟨fun h => ?_, fun h => ?_⟩
    · obtain ⟨pid, heq, -⟩ := call_of_underway_after hstep h
      rw [hcall] at heq
      contradiction
    · obtain ⟨pid, heq, -⟩ := call_of_underway hstep h
      rw [hcall] at heq
      contradiction
  have hbears : ∀ p, Bears p seg ↔ p ≠ syserr ∧ seg.outcome = .returned p := by
    intro p
    unfold Bears
    rw [hcall]
  -- the kills under way are those of before
  have hunderway : (∀ w, C.state.state w ≠ .prFree → C'.state.state w ≠ .prFree) →
      (∀ w, C.state.state w = .prFree → Fresh C'.state w ∨ C'.state.state w = .prFree) →
      (∀ w, Fresh C'.state w → Fresh C.state w ∨ C.state.state w = .prFree) →
      ∀ w p, Underway C' w p ↔ Underway C w p ∧ ¬ (w = seg.who ∧ Buries p seg) ∨
        w = seg.who ∧ Condemns p seg ∧ ¬ Buries p seg := by
    intro hlive hdead hfresh w p
    by_cases hw : w = seg.who
    · subst hw
      simp [hnone p, hnc p]
    · rw [hkills.underway_other hstep hw (hlive w) (hdead w) (hfresh w)]
      simp [hw]
  cases hcreate with
  | failed hout hproc hcount =>
      have hproc' : C'.state.proctab = C.state.proctab := by rw [← hafter, hproc, hbefore]
      have hst : C'.state.state = C.state.state := by
        unfold Kernel.state
        rw [hproc']
      have hnb : ∀ p, ¬ Bears p seg := by
        intro p hb
        obtain ⟨hne, heq⟩ := (hbears p).mp hb
        rw [hout] at heq
        exact hne (Outcome.returned.inj heq).symm
      refine ⟨fun p hp => (hnb p hp).elim, fun p hp => (hnd p hp).elim, ?_, ?_⟩
      · exact fun p _ _ => by rw [hst]
      · refine hunderway ?_ ?_ ?_
        · exact fun w hw => by rwa [hst]
        · exact fun w hw => Or.inr (by rwa [hst])
        · intro w hw
          left
          unfold Fresh at hw ⊢
          rwa [hproc'] at hw
  | @created v hout hpid hfree hlive hfresh hother hcount hstack =>
      have hborn : ∀ p, Bears p seg ↔ p = v := by
        intro p
        rw [hbears, hout]
        constructor
        · exact fun h => (Outcome.returned.inj h.2).symm
        · rintro rfl
          refine ⟨?_, rfl⟩
          have hpos := hpid.1
          unfold syserr
          omega
      have hst : ∀ p, p ≠ v → C'.state.state p = C.state.state p := by
        intro p hp
        unfold Kernel.state
        rw [← hafter, hother p hp, hbefore]
      rw [hbefore] at hfree
      rw [hafter] at hlive hfresh
      refine ⟨?_, fun p hp => (hnd p hp).elim, ?_, ?_⟩
      · intro p hp
        obtain rfl := (hborn p).mp hp
        exact ⟨hfree, hlive, hnc p, hnd p⟩
      · intro p hp _
        rw [hst p fun heq => hp ((hborn p).mpr heq)]
      · refine hunderway ?_ ?_ ?_
        · intro w hw
          by_cases hwv : w = v
          · rw [hwv]
            exact hlive
          · rwa [hst w hwv]
        · intro w hw
          by_cases hwv : w = v
          · rw [hwv]
            exact Or.inl hfresh
          · exact Or.inr (by rwa [hst w hwv])
        · intro w hw
          by_cases hwv : w = v
          · rw [hwv]
            exact Or.inr hfree
          · left
            unfold Fresh at hw ⊢
            rwa [← hafter, hother w hwv, hbefore] at hw

/-- A kill that its condition allows. -/
theorem turnover_kill {pid : Int32} (hI : Inv ordinary C.state) (hkills : KillsOk C)
    (hstep : kernelMachine.Step C seg C') (hseg : SegOk seg) (halone : KillsAlone C seg)
    (hcall : seg.call = .kill pid) (hkill : KillStep C pid.toInt seg C')
    (hrunning : C'.running = true) : Turnover C seg C' := by
  obtain ⟨hbefore, hafter, hwho⟩ := hstep.segment
  have hnb : ∀ p, ¬ Bears p seg := by
    intro p hb
    unfold Bears at hb
    rw [hcall] at hb
    exact hb
  have hcondemns : ∀ p, Condemns p seg ↔
      pid.toInt = p ∧ seg.resumed = false ∧ Killable seg.before p := by
    intro p
    unfold Condemns
    rw [hcall]
  have hburies : ∀ p, Buries p seg ↔ pid.toInt = p ∧ (seg.outcome = .returned ok ∨
      seg.outcome = .switched ∧ seg.who = p ∧ seg.after.state p = .prFree) := by
    intro p
    unfold Buries
    rw [hcall]
  have hdead : ∀ p, C.state.state p = .prFree → C'.state.state p = .prFree := by
    intro p hp
    have hcur : seg.before.currpid ≠ p := by
      rintro rfl
      rw [← hbefore] at hI hp
      rw [hI.running] at hp
      contradiction
    rcases hseg.free p (by rwa [hbefore]) hcur with ⟨-, n, prio, heq⟩ | hfree
    · rw [hcall] at heq
      contradiction
    · rw [← hafter]
      exact hfree.1
  have hwholive : C.state.state seg.who ≠ .prFree := by
    rw [hwho]
    show C.state.state C.state.currpid ≠ .prFree
    rw [hI.running]
    decide
  cases hkill with
  | refused hfirst hnot hout hsame =>
      have hstate : C'.state = C.state := by rw [← hafter, hsame, hbefore]
      have hnd : ∀ p, ¬ Buries p seg := by
        intro p hb
        rcases ((hburies p).mp hb).2 with heq | heq
        · rw [hout] at heq
          exact absurd (Outcome.returned.inj heq) (by decide)
        · rw [hout] at heq
          exact absurd heq.1 nofun
      have hnc : ∀ p, ¬ Condemns p seg := by
        intro p hc
        obtain ⟨rfl, -, hk⟩ := (hcondemns p).mp hc
        exact hnot hk
      refine ⟨fun p hp => (hnb p hp).elim, fun p hp => (hnd p hp).elim,
        fun p _ _ => by rw [hstate], ?_⟩
      intro w p
      by_cases hw : w = seg.who
      · subst hw
        constructor
        · intro h
          obtain ⟨-, -, -, heq⟩ := call_of_underway_after hstep h
          rw [hout] at heq
          contradiction
        · rintro (⟨h, -⟩ | ⟨-, h, -⟩)
          · exact (not_underway_of_started hstep hfirst h).elim
          · exact (hnc p h).elim
      · rw [hkills.underway_other hstep hw (fun h => by rwa [hstate])
          (fun h => Or.inr (by rwa [hstate])) fun h => Or.inl (by rwa [hstate] at h)]
        simp [hw]
  | halted hfirst hkill hout hrun hstate =>
      rw [hrun] at hrunning
      contradiction
  | noticed hfirst hkill hout hquiet hfresh hpend =>
      have hlive : ∀ p, C.state.state p ≠ .prFree → C'.state.state p ≠ .prFree := by
        intro p hp
        rw [← hafter]
        refine hquiet.live p nofun ?_
        show seg.before.state p ≠ .prFree
        rwa [hbefore]
      have hnd : ∀ p, ¬ Buries p seg := by
        intro p hb
        obtain ⟨rfl, heq | ⟨-, -, hfree⟩⟩ := (hburies p).mp hb
        · rw [hout] at heq
          contradiction
        · have halive := hkill.live.2.2
          rw [hbefore] at halive
          rw [hafter] at hfree
          exact hlive _ halive hfree
      refine ⟨fun p hp => (hnb p hp).elim, fun p hp => (hnd p hp).elim, ?_, ?_⟩
      · exact fun p _ _ => ⟨fun hf => by_contra fun hne => hlive p hne hf, hdead p⟩
      · intro w p
        by_cases hw : w = seg.who
        · subst hw
          obtain ⟨pid', hpid', hpend⟩ := hpend
          have hkilling : killing C' seg.who = some pid.toInt :=
            killing_eq_some.mpr ⟨pid', _, hpend, hpid'⟩
          constructor
          · rintro ⟨h, -⟩
            rw [hkilling] at h
            obtain rfl := Option.some.inj h
            exact Or.inr ⟨rfl, (hcondemns _).mpr ⟨rfl, hfirst, hkill⟩, hnd _⟩
          · rintro (⟨h, -⟩ | ⟨-, h, -⟩)
            · exact (not_underway_of_started hstep hfirst h).elim
            · obtain ⟨rfl, -⟩ := (hcondemns p).mp h
              exact ⟨hkilling, hlive _ hwholive⟩
        · rw [hkills.underway_other hstep hw (hlive w) (fun hf => Or.inr (hdead w hf)) fun hf =>
            Or.inl (by rw [← hbefore]; exact hquiet.fresh w (by rwa [hafter]))]
          simp [hw]
  | @ended n b m s₁ hstart hquiet hfreestk hquiet' hfree hout =>
      have hpidlive : C.state.state pid.toInt ≠ .prFree := by
        rcases hstart with ⟨-, hkill, -⟩ | ⟨-, hway, -⟩
        · rw [← hbefore]
          exact hkill.live.2.2
        · exact (hkills.target _ _ hway).2.2
      have hlive : ∀ p, p ≠ pid.toInt → C.state.state p ≠ .prFree → C'.state.state p ≠ .prFree := by
        intro p hp halive
        rw [← hafter]
        refine hquiet'.live p (fun heq => hp (Option.some.inj heq).symm) ?_
        refine hquiet.live p nofun ?_
        show seg.before.state p ≠ .prFree
        rwa [hbefore]
      have hfree' : C'.state.state pid.toInt = .prFree := by rwa [← hafter]
      have hburied : ∀ p, Buries p seg ↔ p = pid.toInt := by
        intro p
        rw [hburies]
        constructor
        · exact fun h => h.1.symm
        · rintro rfl
          refine ⟨rfl, hout.imp id ?_⟩
          rintro ⟨heq, hself⟩
          exact ⟨heq, hself.symm, hfree⟩
      refine ⟨fun p hp => (hnb p hp).elim, ?_, ?_, ?_⟩
      · intro p hp
        obtain rfl := (hburied p).mp hp
        exact ⟨hpidlive, hfree'⟩
      · intro p _ hp
        have hne : p ≠ pid.toInt := fun heq => hp ((hburied p).mpr heq)
        exact ⟨fun hf => by_contra fun halive => hlive p hne halive hf, hdead p⟩
      · intro w p
        by_cases hw : w = seg.who
        · subst hw
          constructor
          · intro h
            obtain ⟨pid', heq, hp, hsw⟩ := call_of_underway_after hstep h
            rcases hout with hret | ⟨-, hself⟩
            · rw [hret] at hsw
              contradiction
            · rw [← hself] at h
              exact (h.2 hfree').elim
          · rintro (⟨h, hnot⟩ | ⟨-, h, hnot⟩)
            · obtain ⟨pid', heq, rfl, -⟩ := call_of_underway hstep h
              rw [hcall] at heq
              obtain rfl := KCall.kill.inj heq
              exact (hnot ⟨rfl, (hburied _).mpr rfl⟩).elim
            · obtain ⟨rfl, -⟩ := (hcondemns p).mp h
              exact (hnot ((hburied _).mpr rfl)).elim
        · by_cases hwp : w = pid.toInt
          · constructor
            · intro h
              rw [hwp] at h
              exact (h.2 hfree').elim
            · rintro (⟨h, -⟩ | ⟨heq, -⟩)
              · have hrule := halone.2
                rw [hcall] at hrule
                exact ((hrule w (hkills.killer w p h) hw p h.1 h.2).1 hwp).elim
              · exact (hw heq).elim
          · rw [hkills.underway_other hstep hw (hlive w hwp) (fun hf => Or.inr (hdead w hf)) fun hf =>
              Or.inl (by
                rw [← hbefore]
                exact hquiet.fresh w (hquiet'.fresh w (by rwa [hafter])))]
            simp [hw]

/-- No other process is in the middle of a kill of the target. -/
theorem KillsAlone.apart {pid : Int32} (h : KillsAlone C seg) (hkills : KillsOk C)
    (hcall : seg.call = .kill pid) (hw : w ≠ seg.who) : ¬ Underway C w pid.toInt := by
  intro hway
  have hrule := h.2
  rw [hcall] at hrule
  exact (hrule w (hkills.killer w _ hway) hw _ hway.1 hway.2).2 rfl

/-- The kills under way, after a segment that its condition allows. -/
theorem KillsOk.step (h : KillsOk C) (hI : Inv ordinary C.state)
    (hstep : kernelMachine.Step C seg C') (halone : KillsAlone C seg) (hturn : Turnover C seg C') :
    KillsOk C' := by
  obtain ⟨hbefore, hafter, hwho⟩ := hstep.segment
  constructor
  · intro w pid k hpend hlive
    obtain ⟨-, ⟨rfl, hout, hcall⟩ | ⟨hne, hpend'⟩⟩ := hstep.pending hpend
    · cases kill_step hI h.halfway hstep hcall.symm with
      | refused _ _ heq =>
          rw [hout] at heq
          contradiction
      | halted _ _ heq =>
          rw [hout] at heq
          contradiction
      | noticed _ _ _ _ _ hrest =>
          obtain ⟨pid', -, hrest⟩ := hrest
          rw [hpend] at hrest
          exact congrArg Prod.snd (Option.some.inj hrest)
      | ended _ _ _ _ hfree hends =>
          rcases hends with heq | ⟨-, hself⟩
          · rw [hout] at heq
            contradiction
          · rw [hself, hafter] at hfree
            exact (hlive hfree).elim
    · refine h.rest w pid k hpend' ?_
      have hway : Underway C' w pid.toInt := ⟨killing_eq_some.mpr ⟨pid, k, hpend, rfl⟩, hlive⟩
      rcases (hturn.underway w _).mp hway with ⟨hold, -⟩ | ⟨heq, -⟩
      · exact hold.2
      · exact (hne heq).elim
  · intro w c k hpend
    have hfresh := (hstep.pending hpend).1
    rw [hafter] at hfresh
    exact of_decide_eq_false hfresh
  · intro w n prio k hpend
    obtain ⟨-, ⟨-, hout, hcall⟩ | ⟨-, hpend'⟩⟩ := hstep.pending hpend
    · cases create_step hI h.halfway hstep hcall.symm with
      | failed heq =>
          rw [hout] at heq
          contradiction
      | created heq =>
          rw [hout] at heq
          contradiction
    · exact h.created w n prio k hpend'
  · intro w p hway
    rcases (hturn.underway w p).mp hway with ⟨hold, -⟩ | ⟨rfl, -⟩
    · exact h.killer w p hold
    · rw [hwho]
      exact hI.kernelOk.consistent.pid
  · intro w p hway
    rcases (hturn.underway w p).mp hway with ⟨hold, hnot⟩ | ⟨-, hcondemns, hnot⟩
    · obtain ⟨hpid, hnull, hlive⟩ := h.target w p hold
      refine ⟨hpid, hnull, ?_⟩
      by_cases hburies : Buries p seg
      · obtain ⟨pid, hcall, rfl⟩ := call_of_buries hburies
        have hw : w ≠ seg.who := fun heq => hnot ⟨heq, hburies⟩
        exact (halone.apart h hcall hw hold).elim
      · have hbears : ¬ Bears p seg := fun hb => hlive (hturn.bears p hb).1
        exact fun hfree => hlive ((hturn.keeps p hbears hburies).mp hfree)
    · obtain ⟨pid, hcall, rfl, -, hkill⟩ := call_of_condemns hcondemns
      obtain ⟨hpid, hnull, hlive⟩ := hkill.live
      refine ⟨hpid, hnull, ?_⟩
      rw [hbefore] at hlive
      have hbears : ¬ Bears pid.toInt seg := fun hb => hlive (hturn.bears _ hb).1
      exact fun hfree => hlive ((hturn.keeps _ hbears hnot).mp hfree)
  · intro w w' p hway hway'
    -- a kill that has just begun is the only one of its target
    have hnew : ∀ w, Underway C w p → Condemns p seg → w = seg.who := by
      intro w hold hcondemns
      obtain ⟨pid, hcall, rfl, -⟩ := call_of_condemns hcondemns
      by_contra hw
      exact halone.apart h hcall hw hold
    rcases (hturn.underway w p).mp hway with ⟨hold, -⟩ | ⟨rfl, hcondemns, -⟩
    · rcases (hturn.underway w' p).mp hway' with ⟨hold', -⟩ | ⟨rfl, hcondemns, -⟩
      · exact h.sole w w' p hold hold'
      · exact hnew w hold hcondemns
    · rcases (hturn.underway w' p).mp hway' with ⟨hold', -⟩ | ⟨rfl, -⟩
      · exact (hnew w' hold' hcondemns).symm
      · rfl

/-! ## Kills without the condition -/

/-- A kill that is under way was so before, or has just begun. -/
theorem Halfway.underway (h : Halfway C) (hI : Inv ordinary C.state)
    (hstep : kernelMachine.Step C seg C') (hseg : SegOk seg) (hway : Underway C' w p) :
    Underway C w p ∨ w = seg.who ∧ Condemns p seg := by
  obtain ⟨hbefore, hafter, hwho⟩ := hstep.segment
  obtain ⟨hkilling, hlive⟩ := hway
  obtain ⟨pid, k, hpend, rfl⟩ := killing_eq_some.mp hkilling
  obtain ⟨hfresh, ⟨rfl, hout, hcall⟩ | ⟨hne, hpend'⟩⟩ := hstep.pending hpend
  · right
    refine ⟨rfl, ?_⟩
    unfold Condemns
    rw [← hcall]
    cases kill_step hI h hstep hcall.symm with
    | refused _ _ heq =>
        rw [hout] at heq
        contradiction
    | halted _ _ heq =>
        rw [hout] at heq
        contradiction
    | noticed hfirst hkill => exact ⟨rfl, hfirst, hkill⟩
    | ended _ _ _ _ hfree hends =>
        rcases hends with heq | ⟨-, hself⟩
        · rw [hout] at heq
          contradiction
        · rw [hself, hafter] at hfree
          exact (hlive hfree).elim
  · left
    refine ⟨killing_eq_some.mpr ⟨pid, k, hpend', rfl⟩, ?_⟩
    -- a process whose call is still kept has not been created since
    intro hdead
    have hcur : seg.before.currpid ≠ w := by
      rw [hbefore]
      intro heq
      exact hne (heq.symm.trans hwho.symm)
    rw [← hbefore] at hdead
    rcases hseg.free w hdead hcur with ⟨hnew, -⟩ | ⟨hfree, -⟩
    · have hold : ¬ Fresh seg.after w := of_decide_eq_false hfresh
      exact hold hnew
    · rw [hafter] at hfree
      exact hlive hfree

theorem Halfway.step (h : Halfway C) (hI : Inv ordinary C.state)
    (hstep : kernelMachine.Step C seg C') (hseg : SegOk seg) : Halfway C' := by
  obtain ⟨hbefore, hafter, hwho⟩ := hstep.segment
  constructor
  · intro w pid k hpend hlive
    have hway : Underway C' w pid.toInt := ⟨killing_eq_some.mpr ⟨pid, k, hpend, rfl⟩, hlive⟩
    obtain ⟨-, ⟨rfl, hout, hcall⟩ | ⟨hne, hpend'⟩⟩ := hstep.pending hpend
    · cases kill_step hI h hstep hcall.symm with
      | refused _ _ heq =>
          rw [hout] at heq
          contradiction
      | halted _ _ heq =>
          rw [hout] at heq
          contradiction
      | noticed _ _ _ _ _ hrest =>
          obtain ⟨pid', -, hrest⟩ := hrest
          rw [hpend] at hrest
          exact congrArg Prod.snd (Option.some.inj hrest)
      | ended _ _ _ _ hfree hends =>
          rcases hends with heq | ⟨-, hself⟩
          · rw [hout] at heq
            contradiction
          · rw [hself, hafter] at hfree
            exact (hlive hfree).elim
    · rcases h.underway hI hstep hseg hway with ⟨-, hold⟩ | ⟨heq, -⟩
      · exact h.rest w pid k hpend' hold
      · exact (hne heq).elim
  · intro w n prio k hpend
    obtain ⟨-, ⟨-, hout, hcall⟩ | ⟨-, hpend'⟩⟩ := hstep.pending hpend
    · cases create_step hI h hstep hcall.symm with
      | failed heq =>
          rw [hout] at heq
          contradiction
      | created heq =>
          rw [hout] at heq
          contradiction
    · exact h.created w n prio k hpend'
  · intro w p hway
    rcases h.underway hI hstep hseg hway with hold | ⟨rfl, -⟩
    · exact h.killer w p hold
    · rw [hwho]
      exact hI.kernelOk.consistent.pid
  · intro w p hway
    rcases h.underway hI hstep hseg hway with hold | ⟨-, hcondemns⟩
    · exact h.target w p hold
    · obtain ⟨pid, -, rfl, -, hkill⟩ := call_of_condemns hcondemns
      obtain ⟨hpid, hnull, -⟩ := hkill.live
      exact ⟨hpid, hnull⟩

/-- A process survives a segment that does not kill it, if no kill of it is under way. -/
theorem Halfway.survives (h : Halfway C) (hI : Inv ordinary C.state)
    (hstep : kernelMachine.Step C seg C')
    (hquiet : KeepsProcs seg.call → Quiet none seg.before seg.after)
    (hidle : ∀ w, ¬ Underway C w p) (hspared : ¬ Condemns p seg)
    (hlive : seg.before.state p ≠ .prFree) : seg.after.state p ≠ .prFree := by
  by_cases hcall : KeepsProcs seg.call
  · exact (hquiet hcall).live p nofun hlive
  cases heq : seg.call with
  | create n prio =>
      cases create_step hI h hstep heq with
      | failed _ hproc =>
          unfold Kernel.state
          rwa [hproc]
      | @created r _ _ hfree _ _ hother =>
          have hne : p ≠ r := by
            rintro rfl
            exact hlive hfree
          unfold Kernel.state
          rwa [hother p hne]
  | kill pid =>
      have hcondemns : seg.resumed = false → Killable seg.before pid.toInt → pid.toInt ≠ p := by
        rintro hres hkill rfl
        unfold Condemns at hspared
        rw [heq] at hspared
        exact hspared ⟨rfl, hres, hkill⟩
      cases kill_step hI h hstep heq with
      | refused _ _ _ hsame =>
          rw [hsame]
          exact hlive
      | halted _ _ _ _ hafter =>
          rw [hafter]
          exact hlive
      | noticed _ _ _ hquiet => exact hquiet.live p nofun hlive
      | ended hstart hquiet _ hquiet' =>
          have hne : pid.toInt ≠ p := by
            rcases hstart with ⟨hfirst, hkill, -⟩ | ⟨-, hway, -⟩
            · exact hcondemns hfirst hkill
            · rintro rfl
              exact hidle _ hway
          apply hquiet'.live p (fun hmortal => hne (Option.some.inj hmortal))
          exact hquiet.live p nofun hlive
  | _ =>
      rw [heq] at hcall
      exact (hcall trivial).elim

end Steps

/-! ## Runs -/

section Runs

variable {C C' : Config Kernel KCall} {seg : Segment Kernel KCall} {p w : Int}
variable {tr pre mid post : List (Segment Kernel KCall)}

theorem born_snoc : born p (tr ++ [seg]) = born p tr + if Bears p seg then 1 else 0 := by
  unfold born
  rw [List.countP_append, List.countP_singleton]
  by_cases h : Bears p seg <;> simp [h]

theorem condemned_snoc :
    condemned p (tr ++ [seg]) = condemned p tr + if Condemns p seg then 1 else 0 := by
  unfold condemned
  rw [List.countP_append, List.countP_singleton]
  by_cases h : Condemns p seg <;> simp [h]

theorem buried_snoc : buried p (tr ++ [seg]) = buried p tr + if Buries p seg then 1 else 0 := by
  unfold buried
  rw [List.countP_append, List.countP_singleton]
  by_cases h : Buries p seg <;> simp [h]

/-- The lives of slot `p` so far: each but the last has been condemned once and buried
once, and the slot is free if the last one has been, too. -/
structure Lives (p : Int) (tr : List (Segment Kernel KCall)) (s : Kernel) : Prop where
  born : born p tr = buried p tr + if s.state p = .prFree then 0 else 1
  buried_le : buried p tr ≤ condemned p tr
  condemned_le : condemned p tr ≤ Xinu.born p tr

/-- From the segment in which a kill of process `p` loses the processor until its
killer runs again, the slot of `p` is neither freed nor given away, and no other
kill of it begins. -/
def Undisturbed (tr : List (Segment Kernel KCall)) : Prop :=
  ∀ pre seg mid post p, tr = pre ++ seg :: mid ++ post → Condemns p seg → ¬ Buries p seg →
    (∀ x ∈ mid, x.who ≠ seg.who) → ∀ x ∈ mid, ¬ Bears p x ∧ ¬ Condemns p x ∧ ¬ Buries p x

/-- What holds of the kills after a history. -/
structure Tally (tr : List (Segment Kernel KCall)) (C : Config Kernel KCall) : Prop where
  lives : ∀ p, p ≠ nullproc → Lives p tr C.state
  kills : C.running = true → KillsOk C
  underway : C.running = true → ∀ p, p ≠ nullproc →
    (condemned p tr = buried p tr + 1 ↔ ∃ w, Underway C w p)
  accounts : ∀ seg ∈ tr, Accounts seg

theorem bears_create {n : UInt32} {prio : Int16} (hcall : seg.call = .create n prio) :
    Bears p seg ↔ p ≠ syserr ∧ seg.outcome = .returned p := by
  unfold Bears
  rw [hcall]

/-- A segment that has nothing to do with creating and killing. -/
theorem accounts_quiet (hb : ∀ p, ¬ Bears p seg) (hc : ∀ p, ¬ Condemns p seg)
    (hd : ∀ p, ¬ Buries p seg) (hquiet : Quiet none seg.before seg.after) : Accounts seg :=
  ⟨fun p h => (hb p h).elim, fun p h => (hc p h).elim, fun _ => hquiet.prcount,
    fun p h => (hd p h).elim, fun _ _ => hquiet.heap, fun p _ => hquiet.stack p⟩

theorem accounts_create {n : UInt32} {prio : Int16} (hcall : seg.call = .create n prio)
    (hcreate : CreateStep seg) : Accounts seg := by
  have hbears : ∀ p, Bears p seg ↔ _ := fun p => bears_create hcall
  have hnc : ∀ p, ¬ Condemns p seg := by
    intro p h
    obtain ⟨pid, heq, -⟩ := call_of_condemns h
    rw [hcall] at heq
    contradiction
  have hnd : ∀ p, ¬ Buries p seg := by
    intro p h
    obtain ⟨pid, heq, -⟩ := call_of_buries h
    rw [hcall] at heq
    contradiction
  refine ⟨?_, fun p h => (hnc p h).elim, ?_, fun p h => (hnd p h).elim,
    fun _ hno => (hno n prio hcall).elim, ?_⟩
  · intro p hb
    obtain ⟨hne, hret⟩ := (hbears p).mp hb
    cases hcreate with
    | failed hout =>
        rw [hret] at hout
        exact (hne (Outcome.returned.inj hout)).elim
    | created hout hpid hfree hlive hfresh hother hcount hstack =>
        rw [hret] at hout
        obtain rfl := Outcome.returned.inj hout
        exact ⟨hcount, hstack⟩
  · intro hno
    cases hcreate with
    | failed _ _ hcount => exact hcount
    | @created v hout hpid =>
        refine ((hno v).1 ((hbears v).mpr ⟨?_, hout⟩)).elim
        have hpos := hpid.1
        unfold syserr
        omega
  · intro p hb
    cases hcreate with
    | failed _ hproc =>
        rw [hproc]
        exact ⟨rfl, rfl⟩
    | @created v hout hpid hfree hlive hfresh hother =>
        rw [hother p]
        · exact ⟨rfl, rfl⟩
        · rintro rfl
          refine hb ((hbears p).mpr ⟨?_, hout⟩)
          have hpos := hpid.1
          unfold syserr
          omega

theorem accounts_kill {pid : Int32} (hcall : seg.call = .kill pid)
    (hkill : KillStep C pid.toInt seg C') : Accounts seg := by
  have hnb : ∀ p, ¬ Bears p seg := by
    intro p h
    unfold Bears at h
    rw [hcall] at h
    exact h
  have hcondemns : ∀ p, Condemns p seg → seg.resumed = false ∧ Killable seg.before pid.toInt := by
    intro p h
    obtain ⟨pid', heq, rfl, hres, hkillable⟩ := call_of_condemns h
    rw [hcall] at heq
    obtain rfl := KCall.kill.inj heq
    exact ⟨hres, hkillable⟩
  have hcondemned : seg.resumed = false → Killable seg.before pid.toInt →
      Condemns pid.toInt seg := by
    intro hres hkillable
    unfold Condemns
    rw [hcall]
    exact ⟨rfl, hres, hkillable⟩
  have hburies : ∀ p, Buries p seg ↔ pid.toInt = p ∧ (seg.outcome = .returned ok ∨
      seg.outcome = .switched ∧ seg.who = p ∧ seg.after.state p = .prFree) := by
    intro p
    unfold Buries
    rw [hcall]
  cases hkill with
  | refused _ hnot hout hsame =>
      refine accounts_quiet hnb (fun p h => hnot (hcondemns p h).2) ?_ (hsame ▸ refl_of _ _)
      intro p hb
      rcases ((hburies p).mp hb).2 with heq | heq
      · rw [hout] at heq
        exact absurd (Outcome.returned.inj heq) (by decide)
      · rw [hout] at heq
        exact absurd heq.1 nofun
  | halted hfirst hkillable hout _ hafter =>
      refine ⟨fun p h => (hnb p h).elim, ?_, ?_, ?_, ?_, ?_⟩
      · intro p _
        rw [hafter]
      · exact fun hno => ((hno _).2 (hcondemned hfirst hkillable)).elim
      · intro p hb
        rcases ((hburies p).mp hb).2 with heq | heq
        · rw [hout] at heq
          contradiction
        · rw [hout] at heq
          exact absurd heq.1 nofun
      · intro _ _
        rw [hafter]
      · intro p _
        rw [hafter]
        exact ⟨rfl, rfl⟩
  | noticed hfirst hkillable hout hquiet =>
      refine ⟨fun p h => (hnb p h).elim, fun p _ => hquiet.prcount, ?_, ?_,
        fun _ _ => hquiet.heap, fun p _ => hquiet.stack p⟩
      · exact fun hno => ((hno _).2 (hcondemned hfirst hkillable)).elim
      · intro p hb
        obtain ⟨rfl, heq | ⟨-, -, hfree⟩⟩ := (hburies p).mp hb
        · rw [hout] at heq
          contradiction
        · exact (hquiet.live _ nofun hkillable.live.2.2 hfree).elim
  | @ended n b m s₁ hstart hquiet hfreestk hquiet' hfree hout =>
      have hcount : seg.after.prcount = n := hquiet'.prcount.trans hquiet.prcount
      have hburied : Buries pid.toInt seg := by
        refine (hburies _).mpr ⟨rfl, hout.imp id ?_⟩
        rintro ⟨heq, hself⟩
        exact ⟨heq, hself.symm, hfree⟩
      refine ⟨fun p h => (hnb p h).elim, ?_, ?_, ?_, fun hno _ => (hno _ hburied).elim, ?_⟩
      · intro p h
        rcases hstart with ⟨-, -, hn⟩ | ⟨hres, -⟩
        · rw [hcount, hn]
        · rw [(hcondemns p h).1] at hres
          contradiction
      · intro hno
        rcases hstart with ⟨hfirst, hkillable, -⟩ | ⟨-, -, hn⟩
        · exact ((hno _).2 (hcondemned hfirst hkillable)).elim
        · rw [hcount, hn]
      · intro p hb
        obtain ⟨rfl, -⟩ := (hburies p).mp hb
        refine ⟨b, ?_⟩
        rw [(hquiet.stack _).1, (hquiet.stack _).2, hquiet.heap] at hfreestk
        exact hfreestk.trans (congrArg _ hquiet'.heap.symm)
      · intro p _
        exact ⟨(hquiet'.stack p).1.trans (hquiet.stack p).1,
          (hquiet'.stack p).2.trans (hquiet.stack p).2⟩

/-- The kills of process `p` that are under way, before a segment that concerns it. -/
theorem Turnover.ways (hturn : Turnover C seg C') (hkills : KillsOk C) (hI : Inv ordinary C.state)
    (hstep : kernelMachine.Step C seg C') (halone : KillsAlone C seg) :
    (Condemns p seg → ¬ ∃ w, Underway C w p) ∧
      (Buries p seg → ¬ Condemns p seg → ∃ w, Underway C w p) ∧
        ((∃ w, Underway C' w p) ↔ ¬ Buries p seg ∧ (Condemns p seg ∨ ∃ w, Underway C w p)) := by
  refine ⟨?_, ?_, ?_⟩
  · rintro hcondemns ⟨w, hway⟩
    obtain ⟨pid, hcall, rfl, hres, -⟩ := call_of_condemns hcondemns
    by_cases hw : w = seg.who
    · rw [hw] at hway
      exact not_underway_of_started hstep hres hway
    · exact halone.apart hkills hcall hw hway
  · intro hburies hnot
    obtain ⟨pid, hcall, rfl⟩ := call_of_buries hburies
    have hcondemns : seg.resumed = false → Killable seg.before pid.toInt →
        Condemns pid.toInt seg := by
      intro hres hkill
      unfold Condemns
      rw [hcall]
      exact ⟨rfl, hres, hkill⟩
    cases kill_step hI hkills.halfway hstep hcall with
    | refused _ _ hout =>
        unfold Buries at hburies
        rw [hcall, hout] at hburies
        rcases hburies.2 with heq | heq
        · exact absurd (Outcome.returned.inj heq) (by decide)
        · exact absurd heq.1 nofun
    | halted hfirst hkill => exact (hnot (hcondemns hfirst hkill)).elim
    | noticed hfirst hkill => exact (hnot (hcondemns hfirst hkill)).elim
    | ended hstart =>
        rcases hstart with ⟨hfirst, hkill, -⟩ | ⟨-, hway, -⟩
        · exact (hnot (hcondemns hfirst hkill)).elim
        · exact ⟨_, hway⟩
  · constructor
    · rintro ⟨w, hway⟩
      have hburies : ¬ Buries p seg := fun hb =>
        ((hkills.step hI hstep halone hturn).target w p hway).2.2 (hturn.buries p hb).2
      refine ⟨hburies, ?_⟩
      rcases (hturn.underway w p).mp hway with ⟨hold, -⟩ | ⟨-, hcondemns, -⟩
      · exact Or.inr ⟨w, hold⟩
      · exact Or.inl hcondemns
    · rintro ⟨hburies, hcondemns | ⟨w, hway⟩⟩
      · exact ⟨_, (hturn.underway _ p).mpr (Or.inr ⟨rfl, hcondemns, hburies⟩)⟩
      · exact ⟨w, (hturn.underway w p).mpr (Or.inl ⟨hway, fun hand => hburies hand.2⟩)⟩

/-- One more segment, if it obeys the condition. -/
theorem Tally.turnover (h : Tally tr C) (hstep : kernelMachine.Step C seg C')
    (hI : Inv ordinary C.state) (halone : KillsAlone C seg) (hturn : Turnover C seg C')
    (haccounts : Accounts seg) : Tally (tr ++ [seg]) C' := by
  have hkills := h.kills hstep.running
  have hlives : ∀ p, p ≠ nullproc → Lives p (tr ++ [seg]) C'.state ∧
      (condemned p (tr ++ [seg]) = buried p (tr ++ [seg]) + 1 ↔ ∃ w, Underway C' w p) := by
    intro p hp
    obtain ⟨hborn, hle, hle'⟩ := h.lives p hp
    have hway := h.underway hstep.running p hp
    obtain ⟨hnew, hold, hafter⟩ := hturn.ways (p := p) hkills hI hstep halone
    have hb : born p (tr ++ [seg]) = _ := born_snoc
    have hc : condemned p (tr ++ [seg]) = _ := condemned_snoc
    have hd : buried p (tr ++ [seg]) = _ := buried_snoc
    by_cases hbears : Bears p seg
    · obtain ⟨hfree, hlive, hnc, hnd⟩ := hturn.bears p hbears
      rw [if_pos hbears] at hb
      rw [if_neg hnc] at hc
      rw [if_neg hnd] at hd
      rw [if_pos hfree] at hborn
      refine ⟨⟨?_, by omega, by omega⟩, ?_⟩
      · rw [if_neg hlive]
        omega
      · rw [hafter, hc, hd, Nat.add_zero, Nat.add_zero, hway]
        simp [hnc, hnd]
    rw [if_neg hbears] at hb
    by_cases hburies : Buries p seg
    · obtain ⟨hlive, hfree⟩ := hturn.buries p hburies
      rw [if_pos hburies] at hd
      rw [if_neg hlive] at hborn
      have hnone : ¬ ∃ w, Underway C' w p := fun hex => (hafter.mp hex).1 hburies
      have hcount : condemned p (tr ++ [seg]) = buried p tr + 1 := by
        by_cases hcondemns : Condemns p seg
        · have hidle := mt hway.mp (hnew hcondemns)
          rw [if_pos hcondemns] at hc
          omega
        · have hbusy := hway.mpr (hold hburies hcondemns)
          rw [if_neg hcondemns] at hc
          omega
      refine ⟨⟨?_, by omega, by omega⟩, ?_⟩
      · rw [if_pos hfree]
        omega
      · refine iff_of_false ?_ hnone
        omega
    rw [if_neg hburies] at hd
    have hsame : (if C'.state.state p = .prFree then 0 else 1) =
        if C.state.state p = .prFree then 0 else 1 := if_congr (hturn.keeps p hbears hburies) rfl rfl
    by_cases hcondemns : Condemns p seg
    · obtain ⟨pid, hcall, rfl, -, hkill⟩ := call_of_condemns hcondemns
      have hlive := hkill.live.2.2
      rw [hstep.segment.1] at hlive
      have hidle := mt hway.mp (hnew hcondemns)
      have hyes : ∃ w, Underway C' w pid.toInt := hafter.mpr ⟨hburies, Or.inl hcondemns⟩
      rw [if_pos hcondemns] at hc
      rw [if_neg hlive] at hborn hsame
      refine ⟨⟨?_, by omega, by omega⟩, ?_⟩
      · rw [hsame]
        omega
      · refine iff_of_true ?_ hyes
        omega
    · rw [if_neg hcondemns] at hc
      refine ⟨⟨?_, by omega, by omega⟩, ?_⟩
      · rw [hsame]
        omega
      · rw [hafter, hc, hd, Nat.add_zero, Nat.add_zero, hway]
        simp [hcondemns, hburies]
  refine ⟨fun p hp => (hlives p hp).1, fun _ => hkills.step hI hstep halone hturn,
    fun _ p hp => (hlives p hp).2, ?_⟩
  intro x hx
  rcases List.mem_append.mp hx with hx | hx
  · exact h.accounts x hx
  · rw [List.mem_singleton.mp hx]
    exact haccounts

/-- The last process exits. -/
theorem Tally.halt {pid : Int32} (h : Tally tr C) (hstep : kernelMachine.Step C seg C')
    (halone : KillsAlone C seg) (hcall : seg.call = .kill pid) (hfirst : seg.resumed = false)
    (hout : seg.outcome = .halted)
    (hrun : C'.running = false)
    (hstate : seg.after = { seg.before with prcount := i32 (seg.before.prcount - 1) })
    (haccounts : Accounts seg) : Tally (tr ++ [seg]) C' := by
  obtain ⟨hbefore, hafter, -⟩ := hstep.segment
  have hkills := h.kills hstep.running
  have hsame : C'.state.state = C.state.state := by
    rw [← hafter, hstate, hbefore]
    rfl
  have hbears : ∀ p, ¬ Bears p seg := by
    intro p hb
    unfold Bears at hb
    rw [hcall] at hb
    exact hb
  have hburies : ∀ p, ¬ Buries p seg := by
    intro p hb
    unfold Buries at hb
    rw [hcall, hout] at hb
    rcases hb.2 with heq | heq
    · contradiction
    · exact absurd heq.1 nofun
  refine ⟨?_, fun htrue => ?_, fun htrue => ?_, ?_⟩
  · intro p hp
    obtain ⟨hborn, hle, hle'⟩ := h.lives p hp
    have hb : born p (tr ++ [seg]) = _ := born_snoc
    have hc : condemned p (tr ++ [seg]) = _ := condemned_snoc
    have hd : buried p (tr ++ [seg]) = _ := buried_snoc
    rw [if_neg (hbears p)] at hb
    rw [if_neg (hburies p)] at hd
    by_cases hcondemns : Condemns p seg
    · obtain ⟨pid', heq, rfl, -, halive⟩ := call_of_condemns hcondemns
      have hlive := halive.live.2.2
      rw [hbefore] at hlive
      rw [if_neg hlive] at hborn
      rw [if_pos hcondemns] at hc
      -- no other kill of the process is under way
      have hidle : ¬ ∃ w, Underway C w pid'.toInt := by
        rintro ⟨w, hway⟩
        by_cases hw : w = seg.who
        · rw [hw] at hway
          exact not_underway_of_started hstep hfirst hway
        · exact halone.apart hkills heq hw hway
      have hcount := mt (h.underway hstep.running _ hp).mp hidle
      refine ⟨?_, by omega, by omega⟩
      rw [hsame, if_neg hlive]
      omega
    · rw [if_neg hcondemns] at hc
      refine ⟨?_, by omega, by omega⟩
      rw [hsame]
      omega
  · rw [hrun] at htrue
    contradiction
  · rw [hrun] at htrue
    contradiction
  · intro x hx
    rcases List.mem_append.mp hx with hx | hx
    · exact h.accounts x hx
    · rw [List.mem_singleton.mp hx]
      exact haccounts

/-- A segment of another process than the killer, while its kill is under way. -/
theorem untouched {seg' : Segment Kernel KCall} (hkills : KillsOk C) (halone : KillsAlone C seg')
    (hbears : Bears p seg' → C.state.state p = .prFree) (hw : w ≠ seg'.who)
    (hway : Underway C w p) : ¬ Bears p seg' ∧ ¬ Condemns p seg' ∧ ¬ Buries p seg' := by
  refine ⟨?_, ?_, ?_⟩
  · exact fun hb => (hkills.target w p hway).2.2 (hbears hb)
  · intro hc
    obtain ⟨pid, hcall, rfl, -⟩ := call_of_condemns hc
    exact halone.apart hkills hcall hw hway
  · intro hd
    obtain ⟨pid, hcall, rfl⟩ := call_of_buries hd
    exact halone.apart hkills hcall hw hway

/-- What holds after a run whose segments all obey the condition. -/
structure KillInv (tr : List (Segment Kernel KCall)) (C : Config Kernel KCall) : Prop where
  tally : Tally tr C
  undisturbed : Undisturbed tr
  /-- A kill that has begun stays under way while its killer does not run. -/
  pending : C.running = true → ∀ pre seg mid p, tr = pre ++ seg :: mid → Condemns p seg →
    ¬ Buries p seg → (∀ x ∈ mid, x.who ≠ seg.who) → Underway C seg.who p

theorem KillInv.snoc (h : KillInv tr C) (hrunning : C.running = true)
    (htally : Tally (tr ++ [seg]) C') (halone : KillsAlone C seg)
    (hbears : ∀ p, Bears p seg → C.state.state p = .prFree)
    (hnew : C'.running = true → ∀ p, Condemns p seg → ¬ Buries p seg → Underway C' seg.who p)
    (hkept : C'.running = true → ∀ w p, w ≠ seg.who → Underway C w p → Underway C' w p) :
    KillInv (tr ++ [seg]) C' := by
  have hkills := h.tally.kills hrunning
  have hpending := h.pending hrunning
  refine ⟨htally, ?_, ?_⟩
  · intro pre seg₁ mid post p heq hcondemns hburies hmid
    rcases List.eq_nil_or_concat post with rfl | ⟨post', last, rfl⟩
    · rcases List.eq_nil_or_concat mid with rfl | ⟨mid', last, rfl⟩
      · simp
      · -- the new segment is the last one while the kill is under way
        rw [List.concat_eq_append] at heq hmid ⊢
        have hsplit : tr ++ [seg] = (pre ++ seg₁ :: mid') ++ [last] := by simpa using heq
        obtain ⟨hinit, hlast⟩ := List.append_inj' hsplit rfl
        obtain rfl : seg = last := by simpa using hlast
        have hold := hpending pre seg₁ mid' p hinit hcondemns hburies fun x hx => hmid x (by simp [hx])
        intro x hx
        rcases List.mem_append.mp hx with hx | hx
        · exact h.undisturbed pre seg₁ mid' [] p (by simpa using hinit) hcondemns hburies
            (fun y hy => hmid y (by simp [hy])) x hx
        · rw [List.mem_singleton.mp hx]
          exact untouched hkills halone (hbears p) (Ne.symm (hmid seg (by simp))) hold
    · rw [List.concat_eq_append] at heq
      have hsplit : tr ++ [seg] = (pre ++ seg₁ :: mid ++ post') ++ [last] := by simpa using heq
      obtain ⟨hinit, -⟩ := List.append_inj' hsplit rfl
      exact h.undisturbed pre seg₁ mid post' p hinit hcondemns hburies hmid
  · intro hrun pre seg₁ mid p heq hcondemns hburies hmid
    rcases List.eq_nil_or_concat mid with rfl | ⟨mid', last, rfl⟩
    · obtain ⟨-, hlast⟩ := List.append_inj' heq rfl
      obtain rfl : seg = seg₁ := by simpa using hlast
      exact hnew hrun p hcondemns hburies
    · rw [List.concat_eq_append] at heq hmid
      have hsplit : tr ++ [seg] = (pre ++ seg₁ :: mid') ++ [last] := by simpa using heq
      obtain ⟨hinit, hlast⟩ := List.append_inj' hsplit rfl
      obtain rfl : seg = last := by simpa using hlast
      have hold := hpending pre seg₁ mid' p hinit hcondemns hburies fun x hx => hmid x (by simp [hx])
      exact hkept hrun _ p (Ne.symm (hmid seg (by simp))) hold

/-- No call but `create` and `kill` touches stacks, lives or the number of processes. -/
theorem quiet_of_run {ok' : Kernel → Bool → KCall → Prop} {s₀ : Kernel}
    (hrun : kernelMachine.Run ok' (Machine.initial s₀) tr C) :
    ∀ seg ∈ tr, KeepsProcs seg.call → Quiet none seg.before seg.after := by
  refine (Machine.run_obeys (R := fun seg => KeepsProcs seg.call →
    Quiet none seg.before seg.after) ?_ hrun).1
  intro s c
  by_cases hc : KeepsProcs c
  · exact Machine.obeys_within (exec_within quiet_deaf hc (fun _ => quiet_mayWait) s) (fun _ _ h _ => h) fun _ _ _ h _ => h
  · exact Machine.obeys_all (fun seg heq hkeeps => (hc (by rw [← heq]; exact hkeeps)).elim) _ _ _

theorem halfway_of_run {s₀ : Kernel} (hI : Inv ordinary s₀)
    (hrun : kernelMachine.Run NullRuns (Machine.initial s₀) tr C) : Halfway C := by
  induction hrun with
  | start =>
      have hnone : ∀ w p, ¬ Underway (Machine.initial s₀) w p := by
        rintro w p ⟨hkilling, -⟩
        obtain ⟨pid, k, hpend, -⟩ := killing_eq_some.mp hkilling
        simp [Machine.initial] at hpend
      refine ⟨?_, ?_, fun w p h => (hnone w p h).elim, fun w p h => (hnone w p h).elim⟩
      · simp [Machine.initial]
      · simp [Machine.initial]
  | @step tr C C' seg hrun hstep hok ih =>
      have hinv := (kernel_run nullRuns_admits hI hrun).1
      have hseg := (kernel_run nullRuns_admits hI (.step hrun hstep hok)).2 seg (by simp)
      exact ih.step hinv hstep hseg

theorem killInv_of_run {s₀ : Kernel} (hI : Inv ordinary s₀)
    (hfree : ∀ p, p ≠ nullproc → s₀.state p = .prFree)
    (hrun : kernelMachine.RunWhen KillsAlone (Machine.initial s₀) tr C) : KillInv tr C := by
  induction hrun with
  | start =>
      have hnone : ∀ w p, ¬ Underway (Machine.initial s₀) w p := by
        rintro w p ⟨hkilling, -⟩
        obtain ⟨pid, k, hpend, -⟩ := killing_eq_some.mp hkilling
        simp [Machine.initial] at hpend
      refine ⟨⟨?_, fun _ => ⟨?_, ?_, ?_, ?_, ?_, ?_⟩, ?_, ?_⟩, ?_, ?_⟩
      · intro p hp
        refine ⟨?_, Nat.le_refl _, Nat.le_refl _⟩
        show 0 = 0 + if s₀.state p = .prFree then 0 else 1
        rw [if_pos (hfree p hp)]
      · simp [Machine.initial]
      · simp [Machine.initial]
      · simp [Machine.initial]
      · exact fun w p h => (hnone w p h).elim
      · exact fun w p h => (hnone w p h).elim
      · exact fun w _ p h => (hnone w p h).elim
      · intro _ p _
        refine iff_of_false (by simp [condemned, buried]) ?_
        rintro ⟨w, h⟩
        exact hnone w p h
      · simp
      · intro pre seg mid post p heq
        simp at heq
      · intro _ pre seg mid p heq
        simp at heq
  | @step tr C C' seg hrun hstep halone ih =>
      have hinit := hrun.run fun C seg (h : KillsAlone C seg) => h.1
      have hinv := (kernel_run nullRuns_admits hI hinit).1
      have hall : kernelMachine.Run NullRuns (Machine.initial s₀) (tr ++ [seg]) C' :=
        .step hinit hstep halone.1
      have hseg := (kernel_run nullRuns_admits hI hall).2 seg (by simp)
      have hkills := ih.tally.kills hstep.running
      -- a segment that obeys the condition and does not halt the machine
      have hsnoc : Turnover C seg C' → Accounts seg → KillInv (tr ++ [seg]) C' := by
        intro hturn haccounts
        refine ih.snoc hstep.running (ih.tally.turnover hstep hinv halone hturn haccounts) halone
          (fun p hb => (hturn.bears p hb).1) ?_ ?_
        · exact fun _ p hc hd => (hturn.underway _ p).mpr (Or.inr ⟨rfl, hc, hd⟩)
        · exact fun _ w p hw hway =>
            (hturn.underway w p).mpr (Or.inl ⟨hway, fun hand => hw hand.1⟩)
      by_cases hcall : KeepsProcs seg.call
      · have hquiet := quiet_of_run hall seg (by simp) hcall
        obtain ⟨hnb, hnc, hnd⟩ := noEvents_of_keepsProcs hcall
        exact hsnoc (turnover_plain hkills hinv hstep hseg hquiet hcall)
          (accounts_quiet hnb hnc hnd hquiet)
      cases heq : seg.call with
      | create n prio =>
          have hcreate := create_step hinv hkills.halfway hstep heq
          exact hsnoc (turnover_create hkills hstep heq hcreate) (accounts_create heq hcreate)
      | kill pid =>
          have hkill := kill_step hinv hkills.halfway hstep heq
          have haccounts := accounts_kill heq hkill
          by_cases hhalt : seg.outcome = .halted
          swap
          · have hrunning := hstep.running_after hhalt
            exact hsnoc (turnover_kill hinv hkills hstep hseg halone heq hkill hrunning) haccounts
          cases hkill with
          | refused _ _ hout =>
              rw [hhalt] at hout
              contradiction
          | noticed _ _ hout =>
              rw [hhalt] at hout
              contradiction
          | ended _ _ _ _ _ hout =>
              rw [hhalt] at hout
              rcases hout with hout | hout
              · contradiction
              · have heq := hout.1
                contradiction
          | halted hfirst hkillable _ hstop hafter =>
              have hnever : ¬ C'.running = true := by
                rw [hstop]
                exact Bool.false_ne_true
              refine ih.snoc hstep.running
                (ih.tally.halt hstep halone heq hfirst hhalt hstop hafter haccounts) halone ?_
                (fun htrue => (hnever htrue).elim) fun htrue => (hnever htrue).elim
              intro p hb
              obtain ⟨n, prio, hcreate⟩ := call_of_bears hb
              rw [heq] at hcreate
              contradiction
      | _ =>
          rw [heq] at hcall
          exact (hcall trivial).elim

end Runs

/-- The kills of a history took effect exactly once. -/
structure KilledOnce (tr : List (Segment Kernel KCall)) (s : Kernel) : Prop where
  lives : ∀ p, p ≠ nullproc → Lives p tr s
  accounts : ∀ seg ∈ tr, Accounts seg
  undisturbed : Undisturbed tr

/--
In every run whose kills obey the condition, every life of a slot is counted out
of the number of processes once, by the kill that condemns it, and gives its own
stack back once, when it is buried; and between the two the slot is not given to
another process.
-/
theorem kill_once {b : Board} {tr : List (Segment Kernel KCall)} {C : Config Kernel KCall}
    (hrun : kernelMachine.RunWhen KillsAlone (Machine.initial (boot b)) tr C) :
    KilledOnce tr C.state := by
  have hbooted := (boot_eq b).2
  have hinv := killInv_of_run (hbooted.inv ordinary) (fun p hp => (hbooted.alone.free p hp).1) hrun
  exact ⟨hinv.tally.lives, hinv.tally.accounts, hinv.undisturbed⟩

instance (P : Int → Prop) [DecidablePred P] : Decidable (∀ w, IsPid w → P w) :=
  decidable_of_iff (∀ i ∈ List.range nproc.toNat, P (i : Int)) <| by
    constructor
    · intro h w hw
      have hmem : w.toNat ∈ List.range nproc.toNat := by
        obtain ⟨hpos, hlt⟩ := hw
        rw [List.mem_range]
        omega
      have hP := h _ hmem
      rwa [Int.toNat_of_nonneg hw.1] at hP
    · intro h i hi
      rw [List.mem_range] at hi
      refine h _ ⟨Int.natCast_nonneg i, ?_⟩
      omega

instance (C : Config Kernel KCall) (seg : Segment Kernel KCall) : Decidable (KillsAlone C seg) := by
  unfold KillsAlone
  split <;> infer_instance

/-- The entries of the first processes, of the ready list and of the sleep queue. -/
def firstEntries : Touched :=
  ⟨[0, 1, 2, 3], [0, 1, 2, 3, 300, 301, 302, 303], [], [.memlist, .heap 4096]⟩

/-- Process 1 has a child, waits for a message, and is told when the null process
kills the child. -/
def childScript : List (Option KCall) :=
  [some (.create 400 30), some (.resume 1), some (.create 400 10), some .receive, none,
    some (.kill 2), none, some .receive, none]

theorem child_killed_once :
    ∃ tr C, kernelMachine.RunWhen KillsAlone (Machine.initial (boot smallBoard)) tr C ∧
      buried 2 tr = 1 ∧ KilledOnce tr C.state := by
  have hreplay : (kernelMachine.replayWhen KillsAlone (forceConfig firstEntries) childScript []
      (Machine.initial (boot smallBoard))).map (fun r => buried 2 r.1) = some 1 := by
    decide +kernel
  obtain ⟨⟨tr, C⟩, hr, hst⟩ := Option.map_eq_some_iff.mp hreplay
  have hrun := kernelMachine.replayWhen_run (forced_eq firstEntries) .start hr
  exact ⟨tr, C, hrun, hst, kill_once hrun⟩

/-! ## Two kills at once -/

/-- The rule of a run of ordinary calls. -/
def Plainly (_ : Config Kernel KCall) (seg : Segment Kernel KCall) : Prop :=
  NullRuns seg.before seg.resumed seg.call

instance (C : Config Kernel KCall) (seg : Segment Kernel KCall) : Decidable (Plainly C seg) :=
  inferInstanceAs (Decidable (NullRuns _ _ _))

/-- While the null process kills process 2 and tells the parent, the parent kills it, too. -/
def twiceScript : List (Option KCall) :=
  [some (.create 400 30), some (.resume 1), some (.create 400 10), some .receive, none,
    some (.kill 2), none, some (.create 400 10), some (.kill 2)]

/-- Then slot 2 is given to another process, and the null process goes on. -/
def reuseScript : List (Option KCall) :=
  twiceScript ++ List.replicate 97 (some (.create 400 10)) ++ [some (.suspend 1), none]

/-- A run in which process 2 is counted out twice, and one in which the null process
frees the process that has been given slot 2 after it began to kill the old one. -/
theorem two_kills_at_once :
    (∃ tr C, kernelMachine.Run NullRuns (Machine.initial (boot smallBoard)) tr C ∧
      condemned 2 tr = 2 ∧ born 2 tr = 1) ∧
    ∃ pre seg mid last C, kernelMachine.Run NullRuns (Machine.initial (boot smallBoard))
        (pre ++ (seg :: mid ++ [last])) C ∧
      Condemns 2 seg ∧ (∀ x ∈ mid, x.who ≠ seg.who) ∧ (∃ x ∈ mid, Bears 2 x) ∧
      last.who = seg.who ∧ last.resumed = true ∧ last.before.state 2 = .prSusp ∧
      Buries 2 last := by
  constructor
  · have hreplay : (kernelMachine.replayWhen Plainly (forceConfig firstEntries) twiceScript []
        (Machine.initial (boot smallBoard))).map
          (fun r => decide (condemned 2 r.1 = 2 ∧ born 2 r.1 = 1)) = some true := by
      decide +kernel
    obtain ⟨⟨tr, C⟩, hr, hcounts⟩ := Option.map_eq_some_iff.mp hreplay
    have hrun := kernelMachine.replayWhen_run (forced_eq firstEntries) .start hr
    exact ⟨tr, C, hrun.run fun _ _ h => h, of_decide_eq_true hcounts⟩
  · have hreplay : (kernelMachine.replayWhen Plainly (forceConfig firstEntries) reuseScript []
        (Machine.initial (boot smallBoard))).map (fun r => decide (∃ seg ∈ r.1[5]?,
          ∃ last ∈ (r.1.drop 6).getLast?, Condemns 2 seg ∧
            (∀ x ∈ (r.1.drop 6).dropLast, x.who ≠ seg.who) ∧
            (∃ x ∈ (r.1.drop 6).dropLast, Bears 2 x) ∧ last.who = seg.who ∧
            last.resumed = true ∧ last.before.state 2 = .prSusp ∧ Buries 2 last)) = some true := by
      decide +kernel
    obtain ⟨⟨tr, C⟩, hr, hkilled⟩ := Option.map_eq_some_iff.mp hreplay
    obtain ⟨seg, hseg, last, hlast, hkilled⟩ := of_decide_eq_true hkilled
    have hrun := kernelMachine.replayWhen_run (forced_eq firstEntries) .start hr
    have hsplit : tr = tr.take 5 ++ (seg :: (tr.drop 6).dropLast ++ [last]) := by
      obtain ⟨hlt, rfl⟩ := List.getElem?_eq_some_iff.mp hseg
      have hends : (tr.drop 6).dropLast ++ [last] = tr.drop 6 :=
        List.dropLast_append_getLast? last hlast
      rw [List.cons_append, hends, List.getElem_cons_drop, List.take_append_drop]
    rw [hsplit] at hrun
    exact ⟨_, seg, _, last, C, hrun.run fun _ _ h => h, hkilled⟩

end Xinu
