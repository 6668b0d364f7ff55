import Xinu.Shell.Jobs
import Xinu.Kernel.Messages

/-!
# A foreground command is noticed when it ends

The shell waits for its foreground child with `receive`.  A process that ends
passes its identifier to its parent, and the notice is refused when a message is
pending for the parent.

Main results:

- Theorem `never_stranded`: if each foreground child begins to end after the shell's
  `recvclr` and while no message is pending for the shell, the shell never waits for
  a child that has ended without a message.
- Theorem `stranded_by_background`: the notice of a background child can make that
  of the foreground child be refused.
-/

namespace Xinu
namespace Shell

open Foundations

/-! ## Who is whose parent -/

def parents (s : Kernel) (p : Int) : Int :=
  (s.proctab p).prparent

theorem parents_setProc (s : Kernel) (p : Int) (f : Procent → Procent)
    (hf : ∀ e, (f e).prparent = e.prparent) : parents (s.setProc p f) = parents s := by
  funext r
  unfold parents
  rw [proctab_setProc]
  split
  · next heq => rw [heq, hf]
  · rfl

theorem parents_deaf : Deaf (SameView parents) := by
  refine ⟨⟨?_, ?_, ?_, ?_, ?_, ?_, ?_, ?_, ?_⟩, ?_, ?_⟩
  · exact fun _ _ => rfl
  · exact fun _ _ => rfl
  · exact fun _ _ => rfl
  · exact fun _ _ _ _ => rfl
  · exact fun s p st _ _ => parents_setProc s p _ fun _ => rfl
  · exact fun s p => parents_setProc s p _ fun _ => rfl
  · exact fun s p n => parents_setProc s p _ fun _ => rfl
  · exact fun _ _ _ => rfl
  · exact fun _ _ => rfl
  · exact fun s p msg => parents_setProc s p _ fun _ => rfl
  · exact fun s p => parents_setProc s p _ fun _ => rfl

/-- Only `create` gives a process a parent. -/
theorem exec_parents (s : Kernel) (c : KCall) :
    kernelMachine.Obeys (fun seg => (∀ n prio, seg.call ≠ .create n prio) →
      parents seg.after = parents seg.before) c (kernelMachine.exec c s) false s := by
  have hall : c.exec.Within (SameView parents) → kernelMachine.Obeys
      (fun seg => (∀ n prio, seg.call ≠ .create n prio) →
        parents seg.after = parents seg.before) c (c.exec s) false s := by
    intro hx
    apply Machine.obeys_within (hx s)
    · exact fun s' o hr _ => hr
    · exact fun s' s'' o hr _ => hr
  by_cases hprocs : KeepsProcs c
  · exact hall (exec_within parents_deaf hprocs fun _ s p _ => parents_setProc s p _ fun _ => rfl)
  · cases c with
    | create ssize priority => exact Machine.obeys_all (fun _ h hno => (hno _ _ h).elim) _ _ _
    | kill pid =>
        apply hall
        apply kill_within parents_deaf (fun _ _ => rfl) (fun _ _ => rfl)
        exact fun s => parents_setProc s _ _ fun _ => rfl
    | _ => exact (hprocs trivial).elim

section Steps

variable {b : Board} {sh p w : Int} {pc pc' : Place} {line : Option Command} {j : Job}
variable {tr : List (Segment Kernel KCall)} {C C' : Config Kernel KCall}
variable {seg : Segment Kernel KCall}

/-- What is known of a step of the system. -/
structure Known (C : Config Kernel KCall) (seg : Segment Kernel KCall)
    (C' : Config Kernel KCall) : Prop where
  step : kernelMachine.Step C seg C'
  inv : Inv ordinary C.state
  halfway : Halfway C
  segOk : SegOk seg
  mail : MailOk seg
  quiet : KeepsProcs seg.call → Quiet none seg.before seg.after
  parents : (∀ n prio, seg.call ≠ .create n prio) → parents seg.after = parents seg.before

theorem known_of_run (hrun : kernelMachine.Run NullRuns (Machine.initial (boot b)) tr C)
    (hstep : kernelMachine.Step C seg C') (hok : NullRuns seg.before seg.resumed seg.call) :
    Known C seg C' := by
  have hI := (boot_eq b).2.inv ordinary
  have hall := Machine.Run.step hrun hstep hok
  constructor
  · exact hstep
  · exact (kernel_run nullRuns_admits hI hrun).1
  · exact halfway_of_run hI hrun
  · exact (kernel_run nullRuns_admits hI hall).2 seg (by simp)
  · exact mailOk_of_run hall seg (by simp)
  · exact quiet_of_run hall seg (by simp)
  · exact (Machine.run_obeys exec_parents hall).1 seg (by simp)

/-- Process `p` is a child of the shell that nobody has begun to kill. -/
structure Watched (sh : Int) (C : Config Kernel KCall) (p : Int) : Prop where
  parent : (C.state.proctab p).prparent = sh
  live : C.state.state p ≠ .prFree
  idle : ∀ w, ¬ Underway C w p

/-- A child stays watched until a kill of it begins. -/
theorem Watched.step (h : Watched sh C p) (hknown : Known C seg C')
    (hspared : ¬ Condemns p seg) : Watched sh C' p := by
  obtain ⟨hbefore, hafter, -⟩ := hknown.step.segment
  have hlive : seg.before.state p ≠ .prFree := by
    rw [hbefore]
    exact h.live
  constructor
  · have hparent : (seg.before.proctab p).prparent = sh := by
      rw [hbefore]
      exact h.parent
    rw [← hafter, ← hparent]
    by_cases hcreate : ∃ n prio, seg.call = .create n prio
    · obtain ⟨n, prio, hcall⟩ := hcreate
      cases create_step hknown.inv hknown.halfway hknown.step hcall with
      | failed _ hproc => rw [hproc]
      | @created r _ _ hfree _ _ hother =>
          have hne : p ≠ r := by
            rintro rfl
            exact hlive hfree
          rw [hother p hne]
    · exact congrFun (hknown.parents fun n prio heq => hcreate ⟨n, prio, heq⟩) p
  · rw [← hafter]
    exact hknown.halfway.survives hknown.inv hknown.step hknown.quiet h.idle hspared hlive
  · intro w hway
    rcases hknown.halfway.underway hknown.inv hknown.step hknown.segOk hway with hold | ⟨-, hnew⟩
    · exact h.idle w hold
    · exact hspared hnew

/-- The machine halts when the last process but the null process is killed. -/
theorem halted_of_last {pid : Int32} (hstep : kernelMachine.Step C seg C')
    (hcall : seg.call = .kill pid) (hres : seg.resumed = false)
    (hkill : Killable seg.before pid.toInt) (hlast : i32 (seg.before.prcount - 1) ≤ 1) :
    seg.outcome = .halted ∧ C'.state.proctab = C.state.proctab := by
  cases hstep with
  | @call c o C' hrun hidle hflow =>
      dsimp only at hcall hkill hlast
      subst hcall
      have hexec : kill pid.toInt C.state = _ := kill_last hkill hlast
      have hflow' : kernelMachine.settle C (.kill pid) (kill pid.toInt C.state) = some (o, C') :=
        hflow
      rw [hexec] at hflow'
      simp only [Machine.settle, Option.some.injEq, Prod.mk.injEq] at hflow'
      obtain ⟨rfl, rfl⟩ := hflow'
      exact ⟨rfl, rfl⟩
  | resume => contradiction

/-- The end of a watched child is told to the shell, if no message is pending for it,
or the system has halted. -/
theorem Watched.condemned (h : Watched sh C p) (hknown : Known C seg C')
    (hshell : IsPid sh ∧ C.state.state sh ≠ .prFree) (hwho : seg.who ≠ sh)
    (hcondemns : Condemns p seg) (hempty : ¬ HasMessage seg.before sh) :
    mailbox C'.state sh = [p] ∨ Watched sh C' p := by
  obtain ⟨hbefore, hafter, -⟩ := hknown.step.segment
  obtain ⟨pid, hcall, rfl, hres, hkill⟩ := call_of_condemns hcondemns
  have hlive : seg.before.state sh ≠ .prFree := by
    rw [hbefore]
    exact hshell.2
  by_cases hlast : i32 (seg.before.prcount - 1) ≤ 1
  · right
    obtain ⟨hout, hproc⟩ := halted_of_last hknown.step hcall hres hkill hlast
    refine ⟨?_, ?_, ?_⟩
    · rw [hproc]
      exact h.parent
    · unfold Kernel.state
      rw [hproc]
      exact h.live
    · rintro w ⟨hkilling, halive⟩
      obtain ⟨pid', k, hpend, heq⟩ := killing_eq_some.mp hkilling
      obtain ⟨-, ⟨-, hswitched, -⟩ | ⟨-, hpend'⟩⟩ := hknown.step.pending hpend
      · rw [hout] at hswitched
        contradiction
      · apply h.idle w
        refine ⟨killing_eq_some.mpr ⟨pid', k, hpend', heq⟩, ?_⟩
        unfold Kernel.state at halive ⊢
        rwa [hproc] at halive
  · left
    have hkeep := hknown.mail.other hwho hlive
    have haccepts : Accepts seg.before sh := by
      refine ⟨?_, hempty⟩
      rintro (hneg | hbig | hfree)
      · exact absurd hshell.1.1 (by omega)
      · exact absurd hshell.1.2 (by omega)
      · exact hlive hfree
    have hpassed : passed sh seg = [pid.toInt] := by
      have hparent : (seg.before.proctab pid.toInt).prparent = sh := by
        rw [hbefore]
        exact h.parent
      unfold passed
      rw [hcall]
      exact if_pos ⟨hres, ⟨hkill, hlast, hparent⟩, haccepts⟩
    rw [hpassed, mailbox_of_not hempty, List.nil_append] at hkeep
    rw [← hafter]
    exact hkeep.symm

/-- The shell will hear of the end of its foreground child. -/
def Heard (sh : Int) (C : Config Kernel KCall) (j : Job) : Prop :=
  Watched sh C j.child ∧ j.exited = false ∨ mailbox C.state sh = [j.child]

/-- What holds of the foreground child at each place of the shell. -/
structure Safe (sh : Int) (C : Config Kernel KCall) (pc : Place) : Prop where
  shell : pc.foreground ≠ none → IsPid sh ∧ C.state.state sh ≠ .prFree
  created : ∀ j, pc = .created j → j.backgnd = false →
    Watched sh C j.child ∧ j.exited = false
  cleared : ∀ j, pc = .cleared j → j.backgnd = false → Heard sh C j
  waiting : ∀ j, pc = .waiting j → j.backgnd = false ∧ Heard sh C j

theorem Safe.of_prompt (sh : Int) (C : Config Kernel KCall) : Safe sh C .prompt :=
  ⟨fun h => (h rfl).elim, nofun, nofun, nofun⟩

theorem Safe.of_gone (sh : Int) (C : Config Kernel KCall) : Safe sh C .gone :=
  ⟨fun h => (h rfl).elim, nofun, nofun, nofun⟩

/-- A watched child has not terminated. -/
theorem Watched.observe (h : Watched sh C j.child) (hexited : j.exited = false) :
    Watched sh C (j.observe C.state).child ∧ (j.observe C.state).exited = false := by
  refine ⟨h, ?_⟩
  unfold Job.observe
  simp [hexited, h.live]

theorem Heard.observe (h : Heard sh C j) : Heard sh C (j.observe C.state) := by
  rcases h with ⟨hwatched, hexited⟩ | hmail
  · exact Or.inl (hwatched.observe hexited)
  · exact Or.inr hmail

/-- The notice stays in the slot of the shell until the shell takes a message. -/
theorem mailbox_step (hknown : Known C seg C') (hlive : C.state.state sh ≠ .prFree)
    (hmail : mailbox C.state sh = [p]) (htaken : taken sh seg = []) :
    mailbox C'.state sh = [p] := by
  obtain ⟨hbefore, hafter, -⟩ := hknown.step.segment
  rw [← hbefore] at hmail hlive
  rw [← hafter]
  have hbalance := hknown.mail.balance sh hlive
  rw [hmail, htaken, List.nil_append] at hbalance
  -- a slot holds one message
  have hone : (mailbox seg.after sh).length ≤ 1 := by
    unfold mailbox
    split
    · simp
    · simp
  rw [← hbalance] at hone ⊢
  have hnone : passed sh seg = [] := by
    apply List.eq_nil_of_length_eq_zero
    rw [List.length_append, List.length_singleton] at hone
    omega
  rw [hnone, List.append_nil]

/-- A segment after which the shell will hear of the end of its child as before. -/
theorem Heard.step (h : Heard sh C j) (hknown : Known C seg C')
    (hshell : IsPid sh ∧ C.state.state sh ≠ .prFree) (htaken : taken sh seg = [])
    (hwho : Condemns j.child seg → seg.who ≠ sh ∧ ¬ HasMessage seg.before sh) :
    Heard sh C' j := by
  rcases h with ⟨hwatched, hexited⟩ | hmail
  · by_cases hcondemns : Condemns j.child seg
    · obtain ⟨hother, hempty⟩ := hwho hcondemns
      rcases hwatched.condemned hknown hshell hother hcondemns hempty with hmail | hwatched'
      · exact Or.inr hmail
      · exact Or.inl ⟨hwatched', hexited⟩
    · exact Or.inl ⟨hwatched.step hknown hcondemns, hexited⟩
  · exact Or.inr (mailbox_step hknown hshell.2 hmail htaken)

theorem Place.foreground_observe (pc : Place) (s : Kernel) :
    (pc.observe s).foreground = pc.foreground := by
  cases pc <;> rfl

theorem foreground_of (hfore : j.backgnd = false) :
    (Place.created j).foreground = some j.child ∧ (Place.cleared j).foreground = some j.child ∧
      (Place.waiting j).foreground = some j.child := by
  simp [Place.foreground, hfore]

/-- A segment that leaves the shell where it is. -/
theorem Safe.keeps (h : Safe sh C pc) (hknown : Known C seg C')
    (hlive : C'.state.state sh ≠ .prFree) (htaken : taken sh seg = [])
    (hwho : ∀ p ∈ pc.foreground, Condemns p seg →
      pc.clearing = false ∧ seg.who ≠ sh ∧ ¬ HasMessage seg.before sh) :
    Safe sh C' (pc.observe C'.state) := by
  constructor
  · intro hfore
    rw [Place.foreground_observe] at hfore
    exact ⟨(h.shell hfore).1, hlive⟩
  · intro j hj hfore
    cases pc with
    | created j₀ =>
        obtain rfl := Place.created.inj hj
        obtain ⟨hwatched, hexited⟩ := h.created j₀ rfl hfore
        refine (hwatched.step hknown ?_).observe hexited
        intro hcondemns
        obtain ⟨hclearing, -⟩ := hwho j₀.child (foreground_of hfore).1 hcondemns
        contradiction
    | _ => cases hj
  · intro j hj hfore
    cases pc with
    | cleared j₀ =>
        obtain rfl := Place.cleared.inj hj
        have hsome := (foreground_of hfore).2.1
        refine ((h.cleared j₀ rfl hfore).step hknown (h.shell ?_) htaken ?_).observe
        · exact hsome ▸ Option.some_ne_none _
        · exact fun hcondemns => (hwho j₀.child hsome hcondemns).2
    | _ => cases hj
  · intro j hj
    cases pc with
    | waiting j₀ =>
        obtain rfl := Place.waiting.inj hj
        obtain ⟨hfore, hheard⟩ := h.waiting j₀ rfl
        have hsome := (foreground_of hfore).2.2
        refine ⟨hfore, (hheard.step hknown (h.shell ?_) htaken ?_).observe⟩
        · exact hsome ▸ Option.some_ne_none _
        · exact fun hcondemns => (hwho j₀.child hsome hcondemns).2
    | _ => cases hj

/-- The child that the shell has just created is watched. -/
theorem watched_of_create {n : UInt32} {prio : Int16} {v : Int} (hknown : Known C seg C')
    (hcall : seg.call = .create n prio) (hout : seg.outcome = .returned v) (hv : v ≠ syserr)
    (hwho : seg.who = sh) (hunused : ∀ w, IsPid w → ¬ Underway C w v) :
    IsPid sh ∧ Watched sh C' v := by
  obtain ⟨hbefore, hafter, hcur⟩ := hknown.step.segment
  have hsh : IsPid sh := by
    rw [← hwho, hcur]
    exact hknown.inv.kernelOk.consistent.pid
  refine ⟨hsh, ?_, ?_, ?_⟩
  · have hstep := hknown.step
    cases hstep with
    | @call c o C' hrun hidle hflow =>
        dsimp only at hcall hout hwho
        subst hcall hout
        have hflow' : kernelMachine.settle C (.create n prio) (create n.toNat prio C.state) =
            some (.returned v, C') := hflow
        obtain ⟨r, m, -, -, k, hexec | ⟨pid, a, -, -, -, -, hexec⟩⟩ :=
          create_cases hknown.inv.kernelOk n.toNat prio
        · rw [hexec] at hflow'
          simp only [Machine.settle, Option.some.injEq, Prod.mk.injEq, Outcome.returned.injEq]
            at hflow'
          exact (hv hflow'.1.symm).elim
        · rw [hexec] at hflow'
          simp only [Machine.settle, Option.some.injEq, Prod.mk.injEq, Outcome.returned.injEq]
            at hflow'
          obtain ⟨rfl, rfl⟩ := hflow'
          rw [proctab_setProc, if_pos rfl]
          exact hwho
    | @resume c k o C' hrun hbusy hflow =>
        dsimp only at hcall
        subst hcall
        exact (hknown.halfway.created _ _ _ _ hbusy).elim
  · cases create_step hknown.inv hknown.halfway hknown.step hcall with
    | failed hfail =>
        rw [hout] at hfail
        exact (hv (Outcome.returned.inj hfail)).elim
    | created hdone _ _ hlive =>
        rw [hout] at hdone
        obtain rfl := Outcome.returned.inj hdone
        rw [← hafter]
        exact hlive
  · intro w hway
    rcases hknown.halfway.underway hknown.inv hknown.step hknown.segOk hway with hold | ⟨-, hnew⟩
    · exact hunused w (hknown.halfway.killer w v hold) hold
    · obtain ⟨pid, heq, -⟩ := call_of_condemns hnew
      rw [hcall] at heq
      contradiction

/-- A call of the shell returns. -/
theorem Safe.returns {v : Int} (h : Safe sh C pc) (hknown : Known C seg C')
    (hlive : C'.state.state sh ≠ .prFree) (hwho : seg.who = sh) (hcalls : pc.Calls seg.call)
    (hout : seg.outcome = .returned v)
    (hunused : pc.foreground = none → ∀ p ∈ (pc.returns line seg.call v).foreground,
      ∀ w, IsPid w → ¬ Underway C w p) :
    Safe sh C' ((pc.returns line seg.call v).observe C'.state) := by
  obtain ⟨hbefore, hafter, -⟩ := hknown.step.segment
  have hspared : ∀ p, (∀ pid, seg.call ≠ .kill pid) → ¬ Condemns p seg := by
    intro p hno hcondemns
    obtain ⟨pid, heq, -⟩ := call_of_condemns hcondemns
    exact hno pid heq
  cases pc with
  | prompt =>
      cases line with
      | none => exact .of_prompt sh C'
      | some cmd =>
          cases hcall : seg.call with
          | create ssize priority =>
              by_cases hcmd : ssize = shellCmdstk ∧ priority = shellCmdprio ∧ v ≠ syserr ∧
                  cmd.argsFit = true
              · have hret : Place.prompt.returns (some cmd) (.create ssize priority) v =
                    .created ⟨v, cmd.backgnd, false⟩ := if_pos hcmd
                rw [hcall, hret] at hunused
                rw [hret]
                cases hback : cmd.backgnd with
                | true =>
                    refine ⟨fun hfore => (hfore rfl).elim, ?_, nofun, nofun⟩
                    intro j hj hfore
                    obtain rfl := Place.created.inj hj
                    contradiction
                | false =>
                    have hsome : (Place.created ⟨v, cmd.backgnd, false⟩).foreground = some v :=
                      (foreground_of hback).1
                    obtain ⟨hsh, hwatched⟩ := watched_of_create hknown hcall hout hcmd.2.2.1 hwho
                      (hunused rfl v hsome)
                    refine ⟨fun _ => ⟨hsh, hlive⟩, ?_, nofun, nofun⟩
                    intro j hj _
                    obtain rfl := Place.created.inj hj
                    exact Watched.observe (j := ⟨v, false, false⟩) hwatched rfl
              · have hret : Place.prompt.returns (some cmd) (.create ssize priority) v = .prompt :=
                  if_neg hcmd
                rw [hret]
                exact .of_prompt sh C'
          | _ => exact .of_prompt sh C'
  | created j =>
      refine ⟨?_, nofun, ?_, nofun⟩
      · exact fun hfore => ⟨(h.shell hfore).1, hlive⟩
      · intro j' hj hfore
        obtain rfl := Place.cleared.inj hj
        obtain ⟨hwatched, hexited⟩ := h.created j rfl hfore
        refine Or.inl ((hwatched.step hknown (hspared _ ?_)).observe hexited)
        intro pid heq
        rw [heq] at hcalls
        exact hcalls
  | cleared j =>
      by_cases hback : j.backgnd = true
      · have hret : (Place.cleared j).returns line seg.call v = .prompt := if_pos hback
        rw [hret]
        exact .of_prompt sh C'
      · have hret : (Place.cleared j).returns line seg.call v = .waiting j := if_neg hback
        have hfore : j.backgnd = false := by simpa using hback
        rw [hret]
        have hshell := h.shell (by rw [(foreground_of hfore).2.1]; exact Option.some_ne_none _)
        refine ⟨fun _ => ⟨hshell.1, hlive⟩, nofun, nofun, ?_⟩
        intro j' hj
        obtain rfl := Place.waiting.inj hj
        have hno : ∀ pid, seg.call ≠ .kill pid := by
          intro pid heq
          rw [heq] at hcalls
          exact hcalls
        refine ⟨hfore, ((h.cleared j rfl hfore).step hknown hshell ?_ ?_).observe⟩
        · unfold taken
          rw [hout]
          apply if_neg
          rintro ⟨htakes, -⟩
          unfold Place.Calls at hcalls
          cases hcall : seg.call with
          | resume pid =>
              rw [hcall] at htakes
              exact htakes
          | _ =>
              rw [hcall] at hcalls
              exact hcalls
        · exact fun hcondemns => (hspared _ hno hcondemns).elim
  | waiting j =>
      by_cases hchild : v = j.child
      · have hret : (Place.waiting j).returns line seg.call v = .prompt := if_pos hchild
        rw [hret]
        exact .of_prompt sh C'
      · have hret : (Place.waiting j).returns line seg.call v = .waiting j := if_neg hchild
        obtain ⟨hfore, hheard⟩ := h.waiting j rfl
        rw [hret]
        have hshell := h.shell (by rw [(foreground_of hfore).2.2]; exact Option.some_ne_none _)
        refine ⟨fun _ => ⟨hshell.1, hlive⟩, nofun, nofun, ?_⟩
        intro j' hj
        obtain rfl := Place.waiting.inj hj
        have hcall : seg.call = .receive := by
          unfold Place.Calls at hcalls
          cases hcall : seg.call with
          | receive => rfl
          | _ =>
              rw [hcall] at hcalls
              exact hcalls.elim
        refine ⟨hfore, ?_⟩
        rcases hheard with ⟨hwatched, hexited⟩ | hmail
        · refine Or.inl ((hwatched.step hknown (hspared _ ?_)).observe hexited)
          intro pid heq
          rw [hcall] at heq
          contradiction
        · -- the message was the child
          refine (hchild ?_).elim
          have hresult := hknown.mail.result v hout
          unfold ResultOk at hresult
          rw [hcall, hwho, hbefore] at hresult
          unfold mailbox at hmail
          split at hmail
          · rw [hresult]
            exact List.head_eq_of_cons_eq hmail
          · contradiction
  | gone => exact .of_gone sh C'

/-- A segment of a run that meets the condition. -/
theorem Safe.step (h : Safe sh C pc) (hknown : Known C seg C')
    (hnext : pc.next sh line seg = some pc') (hnoticed : Noticed sh C pc seg pc') :
    Safe sh C' pc' := by
  obtain ⟨-, hafter, -⟩ := hknown.step.segment
  unfold Place.next at hnext
  rw [hafter] at hnext
  split at hnext
  · obtain rfl := Option.some.inj hnext
    exact .of_gone sh C'
  next hlive =>
  split at hnext
  · next hother =>
      obtain rfl := Option.some.inj hnext
      have hkills : ∀ p, Condemns p seg → seg.who ≠ sh := by
        intro p hcondemns
        rcases hother with hne | hint
        · exact hne
        · obtain ⟨pid, heq, -⟩ := call_of_condemns hcondemns
          rw [heq] at hint
          exact hint.elim
      apply h.keeps hknown hlive
      · rcases hother with hne | hint
        · exact taken_of_other hne
        · unfold taken
          split
          · apply if_neg
            rintro ⟨htakes, -⟩
            cases hcall : seg.call with
            | tick | signal _ | signaln _ _ =>
                rw [hcall] at htakes
                exact htakes
            | _ =>
                rw [hcall] at hint
                exact hint
          · rfl
      · intro p hfore hcondemns
        obtain ⟨hclearing, hempty⟩ := hnoticed.1 p hfore hcondemns
        exact ⟨hclearing, hkills p hcondemns, hempty⟩
  next hother =>
  have hwho : seg.who = sh := by
    by_contra hne
    exact hother (Or.inl hne)
  split at hnext
  swap
  · contradiction
  next hcalls =>
  split at hnext
  · next v hout =>
      obtain rfl := Option.some.inj hnext
      apply h.returns hknown hlive hwho hcalls hout
      intro hnone p hfore
      apply hnoticed.2 hnone
      rwa [Place.foreground_observe]
  · next hlost =>
      obtain rfl := Option.some.inj hnext
      apply h.keeps hknown hlive
      · unfold taken
        split
        · next v hout => exact (hlost v hout).elim
        · rfl
      · intro p hfore hcondemns
        obtain ⟨pid, heq, -⟩ := call_of_condemns hcondemns
        rw [heq] at hcalls
        cases pc with
        | prompt => contradiction
        | gone => contradiction
        | created j => exact hcalls.elim
        | cleared j => exact hcalls.elim
        | waiting j => exact hcalls.elim

theorem Run.toKernel {rule : Config Kernel KCall → Place → Segment Kernel KCall → Place → Prop}
    (h : Run rule b sh tr C pc) : kernelMachine.Run NullRuns (Machine.initial (boot b)) tr C := by
  induction h with
  | start hrun => exact hrun
  | step _ hstep hok _ _ ih => exact .step ih hstep hok

theorem safe_of_run (h : Run (Noticed sh) b sh tr C pc) : Safe sh C pc := by
  induction h with
  | start => exact .of_prompt sh _
  | step hrun hstep hok hnext hnoticed ih =>
      exact ih.step (known_of_run hrun.toKernel hstep hok) hnext hnoticed

end Steps

/--
In every run in which each foreground child begins to end after the shell's
`recvclr` and while no message is pending for the shell, the shell is never blocked
waiting for a child that has terminated without a message.
-/
theorem never_stranded {b : Board} {sh : Int} {tr : List (Segment Kernel KCall)}
    {C : Config Kernel KCall} {pc : Place} (h : Run (Noticed sh) b sh tr C pc) :
    ¬ Stranded sh C pc := by
  cases pc with
  | waiting j =>
      rintro ⟨hexited, -, hempty⟩
      rcases ((safe_of_run h).waiting j rfl).2 with ⟨-, hrunning⟩ | hmail
      · rw [hexited] at hrunning
        contradiction
      · rw [mailbox_of_not hempty] at hmail
        contradiction
  | _ => exact id

/-! ## Scripts -/

/-- Run a script in which each segment comes with the line that the shell was about
to start. -/
def follow (rule : Config Kernel KCall → Place → Segment Kernel KCall → Place → Prop)
    [∀ C pc seg pc', Decidable (rule C pc seg pc')] (sh : Int) (x : Touched) :
    List (Option Command × Option KCall) → List (Segment Kernel KCall) → Config Kernel KCall →
      Place → Option (List (Segment Kernel KCall) × Config Kernel KCall × Place)
  | [], tr, C, pc => some (tr, C, pc)
  | (line, c) :: script, tr, C, pc =>
      match kernelMachine.advance C c with
      | some (seg, C') =>
          match pc.next sh line seg with
          | some pc' =>
              if NullRuns seg.before seg.resumed seg.call ∧ rule C pc seg pc' then
                forceConfig x _ C' fun C' => follow rule sh x script (tr ++ [seg]) C' pc'
              else none
          | none => none
      | none => none

theorem follow_run {rule : Config Kernel KCall → Place → Segment Kernel KCall → Place → Prop}
    [∀ C pc seg pc', Decidable (rule C pc seg pc')] {b : Board} {sh : Int} {x : Touched}
    {script : List (Option Command × Option KCall)} {tr tr' : List (Segment Kernel KCall)}
    {C C' : Config Kernel KCall} {pc pc' : Place} (hrun : Run rule b sh tr C pc)
    (h : follow rule sh x script tr C pc = some (tr', C', pc')) : Run rule b sh tr' C' pc' := by
  induction script generalizing tr C pc with
  | nil =>
      simp only [follow, Option.some.injEq, Prod.mk.injEq] at h
      obtain ⟨rfl, rfl, rfl⟩ := h
      exact hrun
  | cons head script ih =>
      obtain ⟨line, c⟩ := head
      simp only [follow, forced_eq] at h
      split at h
      · next seg C₁ hadv =>
          split at h
          · next pc₁ hnext =>
              split at h
              · next hrule =>
                  exact ih (.step hrun (kernelMachine.advance_step hadv) hrule.1 hnext hrule.2) h
              · contradiction
          · contradiction
      · contradiction

/-- The shell, as the main process creates it again, and a background command that
goes on while the shell starts a foreground command. -/
def jobsScript : List (Option Command × Option KCall) :=
  [(none, some (.create 4096 20)), (none, some (.resume 1)),
    (some ⟨true, true⟩, some (.create shellCmdstk shellCmdprio)), (none, some .recvclr),
    (none, some (.resume 2)), (none, some .yield), (none, none),
    (some ⟨false, true⟩, some (.create shellCmdstk shellCmdprio)), (none, some .recvclr),
    (none, some (.resume 3))]

/-- The background command goes on, and the foreground command ends. -/
def inTurnScript : List (Option Command × Option KCall) :=
  jobsScript ++ [(none, none), (none, some .yield), (none, some (.kill 3)), (none, none)]

theorem child_noticed :
    ∃ tr C, Run (Noticed 1) smallBoard 1 tr C (.waiting ⟨3, false, true⟩) ∧
      ¬ Stranded 1 C (.waiting ⟨3, false, true⟩) := by
  have hreplay : (follow (Noticed 1) 1 firstEntries inTurnScript []
      (Machine.initial (boot smallBoard)) .prompt).map (fun r => r.2.2) =
        some (.waiting ⟨3, false, true⟩) := by
    decide +kernel
  obtain ⟨⟨tr, C, pc⟩, hr, hpc⟩ := Option.map_eq_some_iff.mp hreplay
  have hrun := follow_run (.start .start) hr
  cases hpc
  exact ⟨tr, C, hrun, never_stranded hrun⟩

/-- No condition. -/
def Anyhow (_ : Config Kernel KCall) (_ : Place) (_ : Segment Kernel KCall) (_ : Place) : Prop :=
  True

instance (C : Config Kernel KCall) (pc : Place) (seg : Segment Kernel KCall) (pc' : Place) :
    Decidable (Anyhow C pc seg pc') :=
  instDecidableTrue

/-- Both commands end before the shell runs again, the background command first. -/
def strandedScript : List (Option Command × Option KCall) :=
  jobsScript ++ [(none, none), (none, some (.kill 2)), (none, some (.kill 3)), (none, none),
    (none, some .receive), (none, some .receive)]

/-- The notice of the foreground command is refused, and the shell waits for ever. -/
theorem stranded_by_background :
    ∃ tr C pc, Run Anyhow smallBoard 1 tr C pc ∧ Stranded 1 C pc := by
  have hreplay : (follow Anyhow 1 firstEntries strandedScript []
      (Machine.initial (boot smallBoard)) .prompt).map (fun r => decide (Stranded 1 r.2.1 r.2.2)) =
        some true := by
    decide +kernel
  obtain ⟨⟨tr, C, pc⟩, hr, hst⟩ := Option.map_eq_some_iff.mp hreplay
  exact ⟨tr, C, pc, follow_run (.start .start) hr, of_decide_eq_true hst⟩

end Shell
end Xinu
