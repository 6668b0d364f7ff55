import Xinu.Kernel.KillOnce

/-!
# Job control of the shell

Embedding of the part of the command loop of `shell/shell.c` that runs a command
in a process of its own: from `create` to the line

    while (msg != child) msg = receive();

The rest of the loop (the prompt, reading and parsing a line, and commands that
are built in) makes calls of the kernel that are left open.
-/

namespace Xinu
namespace Shell

open Foundations

/-- Size of stack for process, and process priority for command. -/
def shellCmdstk : UInt32 := 8192
def shellCmdprio : Int16 := 20

/-- A line that names a command which is not built in. -/
structure Command where
  /-- Run command in background? -/
  backgnd : Bool
  /-- `addargs` finds room for the arguments on the stack of the child. -/
  argsFit : Bool
deriving DecidableEq

/-- The command that the shell is starting, or waits for. -/
structure Job where
  /-- Process ID of spawned child -/
  child : Int
  backgnd : Bool
  /-- The child has terminated. -/
  exited : Bool
deriving DecidableEq

/-- How far the shell has come in its loop. -/
inductive Place where
  /-- The child is not created yet; also the whole of a line that creates none. -/
  | prompt
  /-- `create` and `addargs` have returned: the next call is `recvclr`. -/
  | created (j : Job)
  /-- `recvclr` has returned: the next call is `resume`. -/
  | cleared (j : Job)
  /-- The shell is in the loop that receives until the message is the child. -/
  | waiting (j : Job)
  /-- The shell has terminated. -/
  | gone
deriving DecidableEq

/-- A handler makes this call in the name of the process that it interrupts. -/
def Interrupts : KCall → Prop
  | .tick | .signal _ | .signaln _ _ => True
  | _ => False

instance (c : KCall) : Decidable (Interrupts c) :=
  match c with
  | .tick | .signal _ | .signaln _ _ => instDecidableTrue
  | .create _ _ | .resume _ | .suspend _ | .kill _ | .wait _ | .semcreate _ | .semdelete _ |
    .semreset _ _ | .sleepms _ | .recvtime _ | .receive | .send _ _ | .recvclr | .yield |
    .chprio _ _ | .ready _ | .reschedCntl _ => instDecidableFalse

/-- The calls that the shell makes at this place. -/
def Place.Calls (pc : Place) (c : KCall) : Prop :=
  match pc, c with
  | .prompt, _ => True
  | .created _, .recvclr => True
  | .cleared j, .resume pid => pid.toInt = j.child
  | .waiting _, .receive => True
  | _, _ => False

def Place.calls (pc : Place) (c : KCall) : Bool :=
  match pc, c with
  | .prompt, _ => true
  | .created _, .recvclr => true
  | .cleared j, .resume pid => decide (pid.toInt = j.child)
  | .waiting _, .receive => true
  | _, _ => false

theorem calls_iff {pc : Place} {c : KCall} : pc.calls c = true ↔ pc.Calls c := by
  unfold Place.calls Place.Calls
  split <;> simp

instance (pc : Place) (c : KCall) : Decidable (pc.Calls c) :=
  decidable_of_iff _ calls_iff

/-- Where the shell is after its call `c` returned `v`; `line` is the command that it
was about to start. -/
def Place.returns (line : Option Command) (pc : Place) (c : KCall) (v : Int) : Place :=
  match pc with
  | .prompt =>
      match line, c with
      | some cmd, .create ssize priority =>
          if ssize = shellCmdstk ∧ priority = shellCmdprio ∧ v ≠ syserr ∧ cmd.argsFit = true then
            .created ⟨v, cmd.backgnd, false⟩
          else .prompt
      | _, _ => .prompt
  | .created j => .cleared j
  | .cleared j => if j.backgnd = true then .prompt else .waiting j
  | .waiting j => if v = j.child then .prompt else .waiting j
  | .gone => .gone

/-- A child is seen to have terminated when its slot is free. -/
def Job.observe (j : Job) (s : Kernel) : Job :=
  { j with exited := j.exited || decide (s.state j.child = .prFree) }

def Place.observe (pc : Place) (s : Kernel) : Place :=
  match pc with
  | .created j => .created (j.observe s)
  | .cleared j => .cleared (j.observe s)
  | .waiting j => .waiting (j.observe s)
  | .prompt => .prompt
  | .gone => .gone

/-- Where the shell, process `sh`, is after a segment; `none` if it does not run this
segment there. -/
def Place.next (sh : Int) (line : Option Command) (pc : Place) (seg : Segment Kernel KCall) :
    Option Place :=
  if seg.after.state sh = .prFree then some .gone
  else if seg.who ≠ sh ∨ Interrupts seg.call then some (pc.observe seg.after)
  else if pc.Calls seg.call then
    match seg.outcome with
    | .returned v => some ((pc.returns line seg.call v).observe seg.after)
    | _ => some (pc.observe seg.after)
  else none

/-- The runs of the system in which process `sh` is the shell, from some point on.
Every segment satisfies `rule`, which may look at the place of the shell before the
segment and after it. -/
inductive Run (rule : Config Kernel KCall → Place → Segment Kernel KCall → Place → Prop)
    (b : Board) (sh : Int) : List (Segment Kernel KCall) → Config Kernel KCall → Place → Prop
  | start {tr : List (Segment Kernel KCall)} {C : Config Kernel KCall}
      (hrun : kernelMachine.Run NullRuns (Machine.initial (boot b)) tr C) :
      Run rule b sh tr C .prompt
  | step {tr : List (Segment Kernel KCall)} {C C' : Config Kernel KCall}
      {seg : Segment Kernel KCall} {pc pc' : Place} {line : Option Command}
      (hrun : Run rule b sh tr C pc) (hstep : kernelMachine.Step C seg C')
      (hok : NullRuns seg.before seg.resumed seg.call) (hnext : pc.next sh line seg = some pc')
      (hrule : rule C pc seg pc') : Run rule b sh (tr ++ [seg]) C' pc'

/-- The shell is blocked in `receive` and waits for its foreground child, although
the child has terminated and no message is pending. -/
def Stranded (sh : Int) (C : Config Kernel KCall) (pc : Place) : Prop :=
  match pc with
  | .waiting j => j.exited = true ∧ C.state.state sh = .prRecv ∧ ¬ HasMessage C.state sh
  | _ => False

instance (sh : Int) (C : Config Kernel KCall) (pc : Place) : Decidable (Stranded sh C pc) := by
  unfold Stranded
  split <;> infer_instance

/-- The foreground child of the shell, if there is one. -/
def Place.foreground : Place → Option Int
  | .created j | .cleared j | .waiting j => if j.backgnd = true then none else some j.child
  | .prompt | .gone => none

/-- The shell has still to call `recvclr`. -/
def Place.clearing : Place → Bool
  | .created _ => true
  | _ => false

/-- A kill of the shell's foreground child begins only after `recvclr` and while no
message is pending for the shell; and no old kill of its slot is under way when the
child is created. -/
def Noticed (sh : Int) (C : Config Kernel KCall) (pc : Place) (seg : Segment Kernel KCall)
    (pc' : Place) : Prop :=
  (∀ p ∈ pc.foreground, Condemns p seg → pc.clearing = false ∧ ¬ HasMessage seg.before sh) ∧
    (pc.foreground = none → ∀ p ∈ pc'.foreground, ∀ w, IsPid w → ¬ Underway C w p)

instance (sh : Int) (C : Config Kernel KCall) (pc : Place) (seg : Segment Kernel KCall)
    (pc' : Place) : Decidable (Noticed sh C pc seg pc') :=
  inferInstanceAs (Decidable (_ ∧ _))

end Shell
end Xinu
