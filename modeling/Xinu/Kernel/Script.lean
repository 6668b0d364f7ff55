import Xinu.Kernel.QueueInvariant

/-!
# Evaluating scripts

A script is replayed by evaluating the state after each call.  The functions here
evaluate the table entries that a script uses, so that the next call starts from
values; they return the state they were given.

Main result:

- Theorem `forced_eq`: forcing changes nothing.
-/

namespace Xinu

open Foundations Function

variable {β : Type}

def forceNat (n : Nat) (f : Nat → β) : β :=
  match n with
  | 0 => f 0
  | n + 1 => f (n + 1)

def forceInt (x : Int) (f : Int → β) : β :=
  match x with
  | .ofNat n => forceNat n fun n => f (.ofNat n)
  | .negSucc n => forceNat n fun n => f (.negSucc n)

def forceBool (b : Bool) (f : Bool → β) : β :=
  match b with
  | true => f true
  | false => f false

def forceState (st : PrState) (f : PrState → β) : β :=
  match st with
  | .prFree => f .prFree
  | .prCurr => f .prCurr
  | .prReady => f .prReady
  | .prRecv => f .prRecv
  | .prSleep => f .prSleep
  | .prSusp => f .prSusp
  | .prWait => f .prWait
  | .prRectim => f .prRectim

def forceContext (c : Context) (f : Context → β) : β :=
  match c with
  | .initial => f .initial
  | .saved => f .saved

def forceProcent (e : Procent) (f : Procent → β) : β :=
  forceState e.prstate fun prstate =>
    forceContext e.prstkptr fun prstkptr =>
      forceNat e.prstkbase fun prstkbase =>
        forceNat e.prstklen fun prstklen =>
          forceInt e.prsem fun prsem =>
            forceInt e.prparent fun prparent =>
              forceInt e.prmsg fun prmsg =>
                forceBool e.prhasmsg fun prhasmsg =>
                  f { e with
                    prstate := prstate
                    prstkptr := prstkptr
                    prstkbase := prstkbase
                    prstklen := prstklen
                    prsem := prsem
                    prparent := prparent
                    prmsg := prmsg
                    prhasmsg := prhasmsg }

def forceQentry (e : Qentry) (f : Qentry → β) : β :=
  forceInt e.qkey fun qkey =>
    forceInt e.qnext fun qnext =>
      forceInt e.qprev fun qprev => f ⟨qkey, qnext, qprev⟩

def forceSentry (e : Sentry) (f : Sentry → β) : β :=
  match e.sstate with
  | .sFree => forceInt e.scount fun scount => forceInt e.squeue fun squeue => f ⟨.sFree, scount, squeue⟩
  | .sUsed => forceInt e.scount fun scount => forceInt e.squeue fun squeue => f ⟨.sUsed, scount, squeue⟩

def forceMemblk (e : Memory.Memblk) (f : Memory.Memblk → β) : β :=
  forceNat e.mnext fun mnext =>
    forceNat e.mlength fun mlength => f ⟨mnext, mlength⟩

/-- Evaluate the entries of a table that the list names. -/
def forceTable {ι α : Type} [DecidableEq ι] (force : α → (α → β) → β) :
    List ι → (ι → α) → ((ι → α) → β) → β
  | [], tab, f => f tab
  | i :: l, tab, f => force (tab i) fun a => forceTable force l tab fun tab => f (update tab i a)

/-- The table entries that a script uses. -/
structure Touched where
  pids : List Int
  /-- Processes, and heads and tails of queues. -/
  qids : List Int
  sems : List Int
  blks : List Memory.Blk

def forceHeap (l : List Memory.Blk) (m : Memory.Heap) (f : Memory.Heap → β) : β :=
  forceTable forceMemblk l m.blk fun blk =>
    forceNat m.minheap fun minheap =>
      forceNat m.maxheap fun maxheap =>
        forceNat m.memlistAddr fun memlistAddr => f ⟨blk, minheap, maxheap, memlistAddr⟩

/-- Evaluate the entries of the kernel's tables and its global variables. -/
def forceKernel (x : Touched) (s : Kernel) (f : Kernel → β) : β :=
  forceTable forceProcent x.pids s.proctab fun proctab =>
    forceTable forceQentry x.qids s.queuetab fun queuetab =>
      forceTable forceSentry x.sems s.semtab fun semtab =>
        forceHeap x.blks s.heap fun heap =>
          forceInt s.readylist fun readylist =>
            forceInt s.sleepq fun sleepq =>
              forceInt s.prcount fun prcount =>
                forceInt s.currpid fun currpid =>
                  forceInt s.defer.ndefers fun ndefers =>
                    forceBool s.defer.attempt fun attempt =>
                      forceNat s.preempt fun preempt =>
                        forceNat s.clkticks fun clkticks =>
                          forceInt s.nextqid fun nextqid =>
                            forceInt s.nextpid fun nextpid =>
                              forceInt s.nextsem fun nextsem =>
                                f { platform := s.platform
                                    proctab, queuetab, semtab, heap, readylist, sleepq, prcount
                                    currpid, preempt, clkticks, nextqid, nextpid, nextsem
                                    defer := ⟨ndefers, attempt⟩
                                    clktime := s.clktime }

def forcePending {σ κ : Type} (r : Option (κ × (σ → Flow σ Int)))
    (f : Option (κ × (σ → Flow σ Int)) → β) : β :=
  match r with
  | none => f none
  | some r => f (some r)

/-- Evaluate a configuration before the next call. -/
def forceConfig {κ : Type} (x : Touched) (β : Type) (C : Config Kernel κ)
    (f : Config Kernel κ → β) : β :=
  forceKernel x C.state fun state =>
    forceBool C.running fun running =>
      forceTable forcePending x.pids C.pending fun pending => f ⟨state, running, pending⟩

section Forced

@[simp]
theorem forceNat_eq (n : Nat) (f : Nat → β) : forceNat n f = f n := by
  cases n <;> rfl

@[simp]
theorem forceInt_eq (x : Int) (f : Int → β) : forceInt x f = f x := by
  cases x <;> simp [forceInt]

@[simp]
theorem forceBool_eq (b : Bool) (f : Bool → β) : forceBool b f = f b := by
  cases b <;> rfl

@[simp]
theorem forceState_eq (st : PrState) (f : PrState → β) : forceState st f = f st := by
  cases st <;> rfl

@[simp]
theorem forceContext_eq (c : Context) (f : Context → β) : forceContext c f = f c := by
  cases c <;> rfl

@[simp]
theorem forceTable_eq {ι α : Type} [DecidableEq ι] {force : α → (α → β) → β}
    (hforce : ∀ a f, force a f = f a) (l : List ι) (tab : ι → α) (f : (ι → α) → β) :
    forceTable force l tab f = f tab := by
  induction l generalizing tab f with
  | nil => rfl
  | cons i l ih =>
      unfold forceTable
      rw [hforce, ih]
      exact congrArg f (update_eq_self i tab)

theorem forceProcent_eq (e : Procent) (f : Procent → β) : forceProcent e f = f e := by
  simp [forceProcent]

theorem forceQentry_eq (e : Qentry) (f : Qentry → β) : forceQentry e f = f e := by
  simp [forceQentry]

theorem forceSentry_eq (e : Sentry) (f : Sentry → β) : forceSentry e f = f e := by
  obtain ⟨sstate, scount, squeue⟩ := e
  cases sstate <;> simp [forceSentry]

theorem forceMemblk_eq (e : Memory.Memblk) (f : Memory.Memblk → β) : forceMemblk e f = f e := by
  simp [forceMemblk]

theorem forceHeap_eq (l : List Memory.Blk) (m : Memory.Heap) (f : Memory.Heap → β) :
    forceHeap l m f = f m := by
  simp [forceHeap, forceTable_eq forceMemblk_eq]

theorem forceKernel_eq (x : Touched) (s : Kernel) (f : Kernel → β) : forceKernel x s f = f s := by
  simp [forceKernel, forceTable_eq forceProcent_eq, forceTable_eq forceQentry_eq,
    forceTable_eq forceSentry_eq, forceHeap_eq]

theorem forcePending_eq {σ κ : Type} (r : Option (κ × (σ → Flow σ Int)))
    (f : Option (κ × (σ → Flow σ Int)) → β) : forcePending r f = f r := by
  cases r <;> rfl

/-- Forcing a configuration changes nothing. -/
theorem forced_eq {κ : Type} (x : Touched) (β : Type) (C : Config Kernel κ)
    (f : Config Kernel κ → β) : forceConfig x β C f = f C := by
  simp [forceConfig, forceKernel_eq, forceTable_eq forcePending_eq]

end Forced

end Xinu
