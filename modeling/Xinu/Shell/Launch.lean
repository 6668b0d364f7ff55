import Xinu.Shell.CommandLine

/-!
# Starting a command

Embedding of the part of the command loop of `shell/shell.c` that opens the files of a
redirection and starts the child.  Messages to the terminal and the wait for the child are
left out.

Main results:

- Theorem `launch_events`: what has happened when the next prompt is displayed.
- Theorem `leaves_nothing_iff`: a line whose command is not started leaves nothing behind if
  the first request that it makes is the one that fails.
-/

namespace Xinu
namespace Shell

open Foundations Function

/-! ## Requests -/

/-- What a system call has done for the shell. -/
inductive Event where
  | opened (device : Int)
  | truncated (device : Int)
  | closed (device : Int)
  | created (pid : Int)
  | redirected (pid stdinput stdoutput : Int)
  | resumed (pid : Int)
  | killed (pid : Int)
deriving DecidableEq

/-- What the system calls for one line return. -/
structure Returned where
  /-- `open(NAMESPACE,inname,"ro")` -/
  openIn : Int
  /-- `open(NAMESPACE,outname,"w")` -/
  openOut : Int
  create : Int
  /-- `addargs` returns `OK`. -/
  addargs : Bool

/-- Procedures of the shell, which end with `continue` where they fail. -/
abbrev ShellM := OptionT (StateM (List Event))

def happens (e : Event) : ShellM Unit :=
  modify fun tr => tr ++ [e]

/-- `open`, which returns `SYSERR` or a device. -/
def openFile (returned : Int) : ShellM Int := do
  if returned = syserr then
    failure
  happens (.opened returned)
  return returned

def openInput (a : Returned) (dev : Int) (q : Parse) : ShellM Int :=
  if q.inname ≠ none then openFile a.openIn else pure dev

/-- An output file is truncated at once. -/
def openOutput (a : Returned) (dev : Int) (q : Parse) : ShellM Int :=
  if q.outname ≠ none then do
    let stdoutput ← openFile a.openOut
    happens (.truncated stdoutput)
    return stdoutput
  else pure dev

/-- Spawn child thread, with the files as its descriptors. -/
def spawn (a : Returned) (stdinput stdoutput : Int) : ShellM Unit := do
  if a.create = syserr then
    failure
  happens (.created a.create)
  if a.addargs = false then
    failure
  happens (.redirected a.create stdinput stdoutput)
  happens (.resumed a.create)

/-- Open files and redirect I/O if specified, and spawn the child. -/
def launch (a : Returned) (dev : Int) (q : Parse) : ShellM Unit := do
  let stdinput ← openInput a dev q
  let stdoutput ← openOutput a dev q
  spawn a stdinput stdoutput

/-- One turn of the command loop, from the tokens of a line to the next prompt. -/
def shellTurn (cmdtab : List Cmdent) (args : Nat → Option Nat) (t : Lexed) (dev : Int)
    (a : Returned) : List Event :=
  match shellLine cmdtab args t with
  | .spawn _ q => (launch a dev q []).2
  | _ => []

/-! ## What is left behind -/

/-- The device was opened more often than closed. -/
def LeftOpen (tr : List Event) (device : Int) : Prop :=
  tr.count (.closed device) < tr.count (.opened device)

/-- The process was created, and is neither started nor killed. -/
def Unstarted (tr : List Event) (pid : Int) : Prop :=
  .created pid ∈ tr ∧ .resumed pid ∉ tr ∧ .killed pid ∉ tr

/-- If no child is started, no device is left open and no process unstarted. -/
def LeavesNothing (tr : List Event) : Prop :=
  (∀ pid, .resumed pid ∉ tr) → (∀ device, ¬ LeftOpen tr device) ∧ ∀ pid, ¬ Unstarted tr pid

/-- Whether the requests that a line makes one after another succeed. -/
def requests (q : Parse) (a : Returned) : List Bool :=
  (if q.inname ≠ none then [decide (a.openIn ≠ syserr)] else []) ++
    (if q.outname ≠ none then [decide (a.openOut ≠ syserr)] else []) ++
      [decide (a.create ≠ syserr), a.addargs]

/-- The first request fails, or none of them. -/
def FailsFirst (rs : List Bool) : Prop :=
  rs.head? = some false ∨ ∀ r ∈ rs, r = true

instance (rs : List Bool) : Decidable (FailsFirst rs) :=
  inferInstanceAs (Decidable (_ ∨ _))

section Launch

variable {a : Returned} {dev : Int} {q : Parse} {tr tr' : List Event}

theorem run_bind_some {α β : Type} {x : ShellM α} {v : α} (h : x tr = (some v, tr'))
    (f : α → ShellM β) : (x >>= f) tr = f v tr' := by
  simp only [Bind.bind, OptionT.bind, OptionT.mk, StateT.bind, h]

theorem run_bind_none {α β : Type} {x : ShellM α} (h : x tr = (none, tr')) (f : α → ShellM β) :
    (x >>= f) tr = (none, tr') := by
  simp only [Bind.bind, OptionT.bind, OptionT.mk, StateT.bind, h]
  rfl

theorem openFile_run (r : Int) (tr : List Event) :
    openFile r tr = if r = syserr then (none, tr) else (some r, tr ++ [.opened r]) := by
  unfold openFile happens
  split
  · rfl
  · rfl

theorem openInput_run (a : Returned) (dev : Int) (q : Parse) (tr : List Event) :
    openInput a dev q tr =
      if q.inname = none then (some dev, tr)
      else if a.openIn = syserr then (none, tr)
      else (some a.openIn, tr ++ [.opened a.openIn]) := by
  unfold openInput
  by_cases hin : q.inname = none
  · rw [if_neg (not_not_intro hin), if_pos hin]
    rfl
  · rw [if_pos hin, if_neg hin, openFile_run]

theorem openOutput_run (a : Returned) (dev : Int) (q : Parse) (tr : List Event) :
    openOutput a dev q tr =
      if q.outname = none then (some dev, tr)
      else if a.openOut = syserr then (none, tr)
      else (some a.openOut, tr ++ [.opened a.openOut] ++ [.truncated a.openOut]) := by
  unfold openOutput
  have hfile := openFile_run a.openOut tr
  by_cases hout : q.outname = none
  · rw [if_neg (not_not_intro hout), if_pos hout]
    rfl
  · rw [if_pos hout, if_neg hout]
    by_cases hopen : a.openOut = syserr
    · rw [if_pos hopen] at hfile ⊢
      exact run_bind_none hfile _
    · rw [if_neg hopen] at hfile ⊢
      rw [run_bind_some hfile]
      rfl

theorem spawn_run (a : Returned) (stdinput stdoutput : Int) (tr : List Event) :
    (spawn a stdinput stdoutput tr).2 =
      if a.create = syserr then tr
      else if a.addargs = false then tr ++ [.created a.create]
      else tr ++ [.created a.create] ++ [.redirected a.create stdinput stdoutput] ++
        [.resumed a.create] := by
  unfold spawn happens
  by_cases hcreate : a.create = syserr
  · rw [if_pos hcreate, if_pos hcreate]
    rfl
  · by_cases hargs : a.addargs = false
    · rw [if_neg hcreate, if_neg hcreate, if_pos hargs, if_pos hargs]
      rfl
    · rw [if_neg hcreate, if_neg hcreate, if_neg hargs, if_neg hargs]
      rfl

/-- The events of opening a file that is asked for. -/
def opening (name : Option Nat) (events : List Event) : List Event :=
  if name = none then [] else events

/-- What has happened when the next prompt is displayed, up to the first request that fails. -/
theorem launch_events (a : Returned) (dev : Int) (q : Parse) :
    ∃ stdinput stdoutput, (launch a dev q []).2 =
      if q.inname ≠ none ∧ a.openIn = syserr then []
      else if q.outname ≠ none ∧ a.openOut = syserr then opening q.inname [.opened a.openIn]
      else
        opening q.inname [.opened a.openIn] ++
          opening q.outname [.opened a.openOut, .truncated a.openOut] ++
            if a.create = syserr then []
            else if a.addargs = false then [.created a.create]
            else [.created a.create, .redirected a.create stdinput stdoutput,
              .resumed a.create] := by
  have hinput := openInput_run a dev q []
  unfold launch
  by_cases hfail : q.inname ≠ none ∧ a.openIn = syserr
  · rw [if_neg hfail.1, if_pos hfail.2] at hinput
    refine ⟨dev, dev, ?_⟩
    rw [run_bind_none hinput, if_pos hfail]
  obtain ⟨stdinput, hinput'⟩ : ∃ d, openInput a dev q [] =
      (some d, opening q.inname [.opened a.openIn]) := by
    rw [hinput]
    unfold opening
    by_cases hin : q.inname = none
    · exact ⟨dev, by rw [if_pos hin, if_pos hin]⟩
    · refine ⟨a.openIn, ?_⟩
      rw [if_neg hin, if_neg hin, if_neg fun hsys => hfail ⟨hin, hsys⟩]
      rfl
  simp only [if_neg hfail]
  rw [run_bind_some hinput']
  have houtput := openOutput_run a dev q (opening q.inname [.opened a.openIn])
  by_cases hfail' : q.outname ≠ none ∧ a.openOut = syserr
  · rw [if_neg hfail'.1, if_pos hfail'.2] at houtput
    refine ⟨dev, dev, ?_⟩
    rw [run_bind_none houtput, if_pos hfail']
  obtain ⟨stdoutput, houtput'⟩ : ∃ d, openOutput a dev q (opening q.inname [.opened a.openIn]) =
      (some d, opening q.inname [.opened a.openIn] ++
        opening q.outname [.opened a.openOut, .truncated a.openOut]) := by
    rw [houtput, show opening q.outname [.opened a.openOut, .truncated a.openOut] =
      if q.outname = none then [] else [.opened a.openOut, .truncated a.openOut] from rfl]
    by_cases hout : q.outname = none
    · exact ⟨dev, by rw [if_pos hout, if_pos hout, List.append_nil]⟩
    · refine ⟨a.openOut, ?_⟩
      rw [if_neg hout, if_neg hout, if_neg fun hsys => hfail' ⟨hout, hsys⟩, List.append_assoc]
      rfl
  refine ⟨stdinput, stdoutput, ?_⟩
  rw [if_neg hfail', run_bind_some houtput', spawn_run]
  split
  · simp
  · split
    · simp
    · simp

end Launch

/-! ## What is left -/

section Left

variable {a : Returned} {dev : Int} {q : Parse}

/-- Where nothing is closed or killed, whatever was acquired is left. -/
theorem leavesNothing_iff {tr : List Event} (hclosed : ∀ d, .closed d ∉ tr)
    (hkilled : ∀ pid, .killed pid ∉ tr) :
    LeavesNothing tr ↔ (∀ pid, .resumed pid ∉ tr) →
      (∀ d, .opened d ∉ tr) ∧ ∀ pid, .created pid ∉ tr := by
  have hopen : ∀ d, LeftOpen tr d ↔ .opened d ∈ tr := by
    intro d
    unfold LeftOpen
    rw [List.count_eq_zero.mpr (hclosed d), List.count_pos_iff]
  unfold LeavesNothing Unstarted
  simp only [hopen, hkilled, not_false_eq_true, and_true]
  constructor
  · intro h hstarted
    obtain ⟨hdevices, hprocesses⟩ := h hstarted
    exact ⟨hdevices, fun pid hcreated => hprocesses pid ⟨hcreated, hstarted pid⟩⟩
  · intro h hstarted
    obtain ⟨hdevices, hprocesses⟩ := h hstarted
    exact ⟨hdevices, fun pid hpid => hprocesses pid hpid.1⟩

/-- Nothing is left behind by the commands that are started, and by those for which nothing was
acquired. -/
theorem leavesNothing_launch (a : Returned) (dev : Int) (q : Parse) :
    LeavesNothing (launch a dev q []).2 ↔ FailsFirst (requests q a) := by
  obtain ⟨stdinput, stdoutput, hevents⟩ := launch_events a dev q
  rw [hevents, leavesNothing_iff]
  · unfold FailsFirst requests opening
    by_cases hin : q.inname = none
    all_goals by_cases hout : q.outname = none
    all_goals by_cases hopen : a.openIn = syserr
    all_goals by_cases hopen' : a.openOut = syserr
    all_goals by_cases hcreate : a.create = syserr
    all_goals by_cases hargs : a.addargs = false
    all_goals simp [hin, hout, hopen, hopen', hcreate, hargs]
    -- both files are open and no process was created
    all_goals exact ⟨a.openIn, fun hne => absurd rfl hne⟩
  · intro d
    unfold opening
    split_ifs <;> simp
  · intro pid
    unfold opening
    split_ifs <;> simp

/-- A line whose command is not started leaves nothing behind if and only if the first request
that it makes is the one that fails. -/
theorem leaves_nothing_iff (cmdtab : List Cmdent) (args : Nat → Option Nat) (t : Lexed)
    (dev : Int) (a : Returned) :
    LeavesNothing (shellTurn cmdtab args t dev a) ↔
      ∀ cmd q, shellLine cmdtab args t = .spawn cmd q → FailsFirst (requests q a) := by
  have hnone : LeavesNothing [] := by simp [LeavesNothing, LeftOpen, Unstarted]
  unfold shellTurn
  cases hline : shellLine cmdtab args t with
  | spawn cmd q =>
      rw [leavesNothing_launch]
      constructor
      · rintro h cmd' q' heq
        cases heq
        exact h
      · exact fun h => h cmd q rfl
  | blank => simp [hnone]
  | synerr => simp [hnone]
  | notFound => simp [hnone]
  | bgerr => simp [hnone]
  | builtin cmd nargs args' => simp [hnone]

end Left

/-- What `lexan` makes of the line `ls <f >g`. -/
def redirectedLine : Lexed :=
  let arrays : Lexed := ⟨0, 0, fun _ => 0, fun _ => 0, fun _ => .other⟩
  (lexan [108, 115, 32, 60, 102, 32, 62, 103, 10] arrays).getD arrays

/-- The input file is opened and the output file is not: the input file stays open. -/
theorem input_left_open : ¬ LeavesNothing
    (shellTurn [⟨[108, 115], false, by decide⟩] (fun _ => none) redirectedLine 0
      ⟨7, syserr, 3, true⟩) := by
  have hevents : shellTurn [⟨[108, 115], false, by decide⟩] (fun _ => none) redirectedLine 0
      ⟨7, syserr, 3, true⟩ = [.opened 7] := by decide +kernel
  rw [hevents]
  intro h
  exact (h (by simp)).1 7 (by simp [LeftOpen])

end Shell
end Xinu
