import Xinu.Kernel.QueueInvariant
import Xinu.Kernel.Footprint

/-!
# One-word messages

Every process has a slot for one message.  What is put in the slot of a process
is what that process takes out of it, in order and each message once, whoever
sends and however the calls interleave.

Main results:

- Theorem `mailOk_of_run`: the balance of the slots over one segment.
- Theorem `messages_of_window`: the balance over any stretch of a run, and what
  the calls return.
-/

namespace Xinu

open Foundations Function

/-- What the message slots hold. -/
def mailView (s : Kernel) (p : Int) : Int × Bool :=
  ((s.proctab p).prmsg, (s.proctab p).prhasmsg)

/-- The message that waits for process `p`, if there is one. -/
def mailbox (s : Kernel) (p : Int) : List Int :=
  if HasMessage s p then [(s.proctab p).prmsg] else []

/-- A message to process `p` is accepted. -/
def Accepts (s : Kernel) (p : Int) : Prop :=
  ¬ isbadpid s p ∧ ¬ HasMessage s p

instance (s : Kernel) (p : Int) : Decidable (Accepts s p) :=
  inferInstanceAs (Decidable (_ ∧ _))

/-- Killing `pid` goes as far as the message to its parent `p`. -/
def Notifies (s : Kernel) (pid p : Int) : Prop :=
  Killable s pid ∧ ¬ i32 (s.prcount - 1) ≤ 1 ∧ (s.proctab pid).prparent = p

instance (s : Kernel) (pid p : Int) : Decidable (Notifies s pid p) :=
  inferInstanceAs (Decidable (_ ∧ _ ∧ _))

/-- The messages that the segment puts in the slot of process `p`. -/
def passed (p : Int) (seg : Segment Kernel KCall) : List Int :=
  match seg.call with
  | .send pid msg =>
      if seg.resumed = false ∧ pid.toInt = p ∧ Accepts seg.before p then [(msg.toNat : Int)] else []
  | .kill pid =>
      if seg.resumed = false ∧ Notifies seg.before pid.toInt p ∧ Accepts seg.before p then
        [pid.toInt]
      else []
  | _ => []

/-- The call takes the message of its caller, if there is one. -/
def Takes : KCall → Prop
  | .receive | .recvclr => True
  | .recvtime maxwait => 0 ≤ maxwait.toInt
  | _ => False

instance (c : KCall) : Decidable (Takes c) :=
  match c with
  | .receive | .recvclr => instDecidableTrue
  | .recvtime _ => inferInstanceAs (Decidable (_ ≤ _))
  | .create _ _ | .resume _ | .suspend _ | .kill _ | .wait _ | .signal _ | .signaln _ _
  | .semcreate _ | .semdelete _ | .semreset _ _ | .sleepms _ | .send _ _ | .yield | .chprio _ _
  | .tick | .ready _ | .reschedCntl _ => instDecidableFalse

/-- The messages that process `p` takes with the segment. -/
def taken (p : Int) (seg : Segment Kernel KCall) : List Int :=
  match seg.outcome with
  | .returned v =>
      if Takes seg.call ∧ seg.who = p ∧ HasMessage seg.before p then [v] else []
  | _ => []

/-- The result of a call that deals with messages, from the state in which its
last segment begins. -/
def ResultOk (seg : Segment Kernel KCall) (v : Int) : Prop :=
  match seg.call with
  | .send pid _ =>
      v = if seg.resumed = true ∨ Accepts seg.before pid.toInt then ok else syserr
  | .receive => v = (seg.before.proctab seg.who).prmsg
  | .recvtime maxwait =>
      if 0 ≤ maxwait.toInt ∧ HasMessage seg.before seg.who then
        v = (seg.before.proctab seg.who).prmsg
      else v = syserr ∨ v = timeout ∧ ¬ HasMessage seg.before seg.who
  | .recvclr =>
      v = if HasMessage seg.before seg.who then (seg.before.proctab seg.who).prmsg else ok
  | _ => True

/-- A `send` loses the processor only after it put its message in the slot. -/
def SendOk (seg : Segment Kernel KCall) : Prop :=
  match seg.call with
  | .send pid _ => seg.resumed = false → seg.outcome = .switched → Accepts seg.before pid.toInt
  | _ => True

/-- Messages are not negative, unlike `TIMEOUT`. -/
def MailNonneg (s : Kernel) : Prop :=
  ∀ p, ∀ m ∈ mailbox s p, 0 ≤ m

/-- The slot of every live process is balanced, and the results are as they should be. -/
structure MailOk (seg : Segment Kernel KCall) : Prop where
  nonneg : MailNonneg seg.before → MailNonneg seg.after
  balance : ∀ p, seg.before.state p ≠ .prFree →
    mailbox seg.before p ++ passed p seg = taken p seg ++ mailbox seg.after p
  result : ∀ v, seg.outcome = .returned v → ResultOk seg v
  sends : SendOk seg

section Segments

variable {s s₀ s₁ : Kernel} {p : Int} {c : KCall} {b : Bool} {o : Outcome}

theorem mailView_setProc (s : Kernel) (p : Int) (f : Procent → Procent)
    (hf : ∀ e, (f e).prmsg = e.prmsg ∧ (f e).prhasmsg = e.prhasmsg) :
    mailView (s.setProc p f) = mailView s := by
  funext r
  unfold mailView
  rw [proctab_setProc]
  split
  · next heq => rw [heq, (hf _).1, (hf _).2]
  · rfl

theorem mailView_blind : Blind (SameView mailView) := by
  constructor
  · exact fun _ _ => rfl
  · exact fun _ _ => rfl
  · exact fun _ _ => rfl
  · exact fun _ _ _ _ => rfl
  · exact fun s p st _ _ => mailView_setProc s p _ fun _ => ⟨rfl, rfl⟩
  · exact fun s p => mailView_setProc s p _ fun _ => ⟨rfl, rfl⟩
  · exact fun s p n => mailView_setProc s p _ fun _ => ⟨rfl, rfl⟩
  · exact fun _ _ _ => rfl
  · exact fun _ _ => rfl

theorem mailView_mayWait : MayWait (SameView mailView) :=
  fun s p _ => mailView_setProc s p _ fun _ => ⟨rfl, rfl⟩

theorem mailbox_congr (h : mailView s p = mailView s₀ p) : mailbox s p = mailbox s₀ p := by
  obtain ⟨hmsg, hhas⟩ : _ ∧ _ := by simpa [mailView] using h
  unfold mailbox
  rw [hmsg]
  refine if_congr ?_ rfl rfl
  unfold HasMessage
  rw [hhas]

theorem mailbox_of_hasMessage (h : HasMessage s p) : mailbox s p = [(s.proctab p).prmsg] :=
  if_pos h

theorem mailbox_of_not (h : ¬ HasMessage s p) : mailbox s p = [] :=
  if_neg h

/-- A segment that puts nothing in a slot and takes nothing out. -/
theorem mailOk_of_view {who : Int} (hview : mailView s = mailView s₀)
    (hpassed : ∀ p, passed p ⟨who, c, b, s₀, o, s⟩ = [])
    (htaken : ∀ p, taken p ⟨who, c, b, s₀, o, s⟩ = [])
    (hresult : ∀ v, o = .returned v → ResultOk ⟨who, c, b, s₀, o, s⟩ v)
    (hsend : SendOk ⟨who, c, b, s₀, o, s⟩) :
    MailOk ⟨who, c, b, s₀, o, s⟩ := by
  have hmail : ∀ p, mailbox s p = mailbox s₀ p := fun p => mailbox_congr (congrFun hview p)
  refine ⟨?_, ?_, hresult, hsend⟩
  · intro hnonneg p
    rw [hmail]
    exact hnonneg p
  · intro p _
    rw [hpassed, htaken, List.append_nil, List.nil_append, hmail]

/-- A segment that ends before its call returns takes nothing. -/
theorem taken_of_lost {who : Int} (ho : ∀ v, o ≠ .returned v) (p : Int) :
    taken p ⟨who, c, b, s₀, o, s⟩ = [] := by
  unfold taken
  cases o with
  | returned v => exact (ho v rfl).elim
  | switched => rfl
  | halted => rfl

theorem taken_of_not {who : Int} (hc : ¬ Takes c) (p : Int) :
    taken p ⟨who, c, b, s₀, o, s⟩ = [] := by
  unfold taken
  cases o with
  | returned v => exact if_neg fun hand => hc hand.1
  | switched => rfl
  | halted => rfl

/-- The calls that have nothing to do with messages. -/
def Silent : KCall → Prop
  | .send _ _ | .kill _ | .receive | .recvtime _ | .recvclr | .create _ _ => False
  | _ => True

theorem obeys_silent (hc : Silent c) (h : (c.exec s).Within (SameView mailView) s) :
    kernelMachine.Obeys MailOk c (c.exec s) false s := by
  have hall : ∀ b s₁ s o, mailView s = mailView s₁ → MailOk ⟨s₁.currpid, c, b, s₁, o, s⟩ := by
    intro b s₁ s o hview
    refine mailOk_of_view hview ?_ ?_ ?_ ?_
    · intro p
      cases c <;> first | exact hc.elim | rfl
    · refine taken_of_not ?_
      cases c <;> first | exact hc.elim | exact id
    · intro v _
      cases c <;> first | exact hc.elim | trivial
    · cases c <;> first | exact hc.elim | trivial
  exact Machine.obeys_within h (hall false s) (hall true)

/-! ## Taking a message -/

/-- A segment that ends a call which takes the message of its caller. -/
theorem mailOk_of_take {v : Int} (hc : Takes c) (hpassed : ∀ p o, passed p ⟨s₀.currpid, c, b, s₀, o, s⟩ = [])
    (hafter : ∀ p, mailbox s p = if p = s₀.currpid then [] else mailbox s₀ p)
    (hv : HasMessage s₀ s₀.currpid → v = (s₀.proctab s₀.currpid).prmsg)
    (hresult : ResultOk ⟨s₀.currpid, c, b, s₀, .returned v, s⟩ v) :
    MailOk ⟨s₀.currpid, c, b, s₀, .returned v, s⟩ := by
  refine ⟨?_, ?_, ?_, ?_⟩
  · intro hnonneg p m hm
    have hm' : m ∈ mailbox s p := hm
    rw [hafter] at hm'
    split at hm'
    · simp at hm'
    · exact hnonneg p m hm'
  · intro p _
    show mailbox s₀ p ++ _ = _ ++ mailbox s p
    rw [hpassed, hafter, List.append_nil]
    unfold taken
    by_cases hp : p = s₀.currpid
    · rw [if_pos hp, List.append_nil, hp]
      by_cases hmsg : HasMessage s₀ s₀.currpid
      · simp [hc, hmsg, mailbox, hv hmsg]
      · simp [hmsg, mailbox]
    · have hne : s₀.currpid ≠ p := Ne.symm hp
      simp [hp, hne]
  · intro w hw
    obtain rfl : v = w := by simpa using hw
    exact hresult
  · cases c <;> first | exact hc.elim | trivial

/-- The slots after process `me` took its message. -/
theorem mailbox_take (s : Kernel) (me p : Int) :
    mailbox (s.setProc me fun e => { e with prhasmsg := false }) p =
      if p = me then [] else mailbox s p := by
  by_cases hp : p = me
  · rw [if_pos hp]
    refine mailbox_of_not ?_
    unfold HasMessage
    rw [proctab_setProc, if_pos hp]
    exact Bool.false_ne_true
  · rw [if_neg hp]
    refine mailbox_congr ?_
    unfold mailView
    rw [proctab_setProc, if_neg hp]

theorem receiveTail_obeys (hview : mailView s = mailView s₀) :
    kernelMachine.Obeys MailOk .receive (receiveTail s₀.currpid s) b s₀ := by
  obtain ⟨hmsg, -⟩ : _ ∧ _ := by simpa [mailView] using congrFun hview s₀.currpid
  refine mailOk_of_take trivial (fun _ _ => rfl) ?_ (fun _ => hmsg) hmsg
  intro p
  rw [mailbox_take, mailbox_congr (congrFun hview p)]

theorem receive_obeys (s : Kernel) :
    kernelMachine.Obeys MailOk .receive (Xinu.receive s) false s := by
  rw [receive_eq]
  split
  · have hwithin := resched_within mailView_blind (s.setState s.currpid .prRecv)
    have hstate := mailView_blind.state s s.currpid .prRecv (by decide) (by decide)
    refine Machine.obeys_bind (hwithin.after hstate) ?_ ?_ ?_ ?_
    · exact fun s₁ o hview ho => mailOk_of_view hview (fun _ => rfl) (taken_of_lost ho)
        (fun v hv => (ho v hv).elim) trivial
    · exact fun _ s₁ hview => receiveTail_obeys hview
    · exact fun s₁ s₂ o _ hview ho => mailOk_of_view hview (fun _ => rfl) (taken_of_lost ho)
        (fun v hv => (ho v hv).elim) trivial
    · intro _ s₁ s₂ hcur hview
      have hme : s.currpid = s₁.currpid := hcur.symm
      rw [hme]
      exact receiveTail_obeys hview
  · exact receiveTail_obeys rfl

theorem recvtimeTail_obeys {maxwait : Int32} (hpos : 0 ≤ maxwait.toInt)
    (hview : mailView s = mailView s₀) :
    kernelMachine.Obeys MailOk (.recvtime maxwait) (recvtimeTail s₀.currpid s) b s₀ := by
  obtain ⟨hmsg, hhas⟩ : _ ∧ _ := by simpa [mailView] using congrFun hview s₀.currpid
  by_cases hmail : HasMessage s₀ s₀.currpid
  · have hrun : recvtimeTail s₀.currpid s = .done (s.proctab s₀.currpid).prmsg
        (s.setProc s₀.currpid fun e => { e with prhasmsg := false }) := by
      unfold HasMessage at hmail
      simp [recvtimeTail, hhas, hmail]
    rw [hrun]
    refine mailOk_of_take hpos (fun _ _ => rfl) ?_ (fun _ => hmsg) ?_
    · intro p
      rw [mailbox_take, mailbox_congr (congrFun hview p)]
    · unfold ResultOk
      simp [hpos, hmail, hmsg]
  · have hrun : recvtimeTail s₀.currpid s = .done timeout s := by
      unfold HasMessage at hmail
      simp [recvtimeTail, hhas, hmail]
    rw [hrun]
    refine mailOk_of_take hpos (fun _ _ => rfl) ?_ (fun h => (hmail h).elim) ?_
    · intro p
      rw [mailbox_congr (congrFun hview p)]
      split
      · next heq => rw [heq, mailbox_of_not hmail]
      · rfl
    · unfold ResultOk
      simp [hmail]

/-- `insertd` never gives the processor away. -/
theorem insertd_cases (pid q key : Int) (s : Kernel) :
    (isbadqid q ∨ isbadpid s pid) ∧ insertd pid q key s = .done syserr s ∨
      (∃ t', insertd pid q key s = .done ok { s with queuetab := t' }) ∨
      insertd pid q key s = .stuck := by
  by_cases hbad : isbadqid q ∨ isbadpid s pid
  · exact Or.inl ⟨hbad, by simp [insertd, hbad]⟩
  right
  cases hloop : insertdLoop s.queuetab q queueFuel key (queuehead q)
      (s.queuetab.qnext (queuehead q)) with
  | none => exact Or.inr (by simp [insertd, hbad, hloop])
  | some r =>
      obtain ⟨left, prev, next⟩ := r
      left
      by_cases hlast : next = queuetail q
      · exact ⟨_, by simp [insertd, hbad, hloop, hlast, onQueues]; rfl⟩
      · exact ⟨_, by simp [insertd, hbad, hloop, hlast, onQueues]; rfl⟩

theorem recvtime_obeys (maxwait : Int32) (s : Kernel) :
    kernelMachine.Obeys MailOk (.recvtime maxwait) (Xinu.recvtime maxwait.toInt s) false s := by
  -- an execution that does not get as far as taking a message
  have herr : ¬ (0 ≤ maxwait.toInt ∧ HasMessage s s.currpid) → ∀ s', mailView s' = mailView s →
      MailOk ⟨s.currpid, .recvtime maxwait, false, s, .returned syserr, s'⟩ := by
    intro hnot s' hview
    refine mailOk_of_view hview (fun _ => rfl) ?_ ?_ trivial
    · intro p
      refine if_neg ?_
      rintro ⟨hpos, rfl, hmail⟩
      exact hnot ⟨hpos, hmail⟩
    · intro v hv
      obtain rfl : syserr = v := by simpa using hv
      unfold ResultOk
      simp [hnot]
  by_cases hneg : maxwait.toInt < 0
  · have hrun : Xinu.recvtime maxwait.toInt s = .done syserr s := by simp [Xinu.recvtime, hneg]
    rw [hrun]
    exact herr (fun hand => by omega) s rfl
  have hpos : 0 ≤ maxwait.toInt := by omega
  by_cases hmail : HasMessage s s.currpid
  · rw [recvtime_pass hpos hmail]
    exact recvtimeTail_obeys hpos rfl
  · have hflag : (s.proctab s.currpid).prhasmsg = false := by
      unfold HasMessage at hmail
      simpa using hmail
    have hnot : ¬ (0 ≤ maxwait.toInt ∧ HasMessage s s.currpid) := fun hand => hmail hand.2
    rcases insertd_cases s.currpid s.sleepq maxwait.toInt s with ⟨-, hins⟩ | ⟨t', hins⟩ | hins
    · have hrun : Xinu.recvtime maxwait.toInt s = .done syserr s := by
        simp [Xinu.recvtime, hneg, hflag, hins]
      rw [hrun]
      exact herr hnot _ rfl
    · obtain ⟨s', hs'⟩ : ∃ s', { s with queuetab := t' }.setState s.currpid .prRectim = s' :=
        ⟨_, rfl⟩
      have hne : ok ≠ syserr := by decide
      have hrun : Xinu.recvtime maxwait.toInt s =
          (resched s').bind fun _ => recvtimeTail s.currpid := by
        simp [Xinu.recvtime, recvtimeTail, hneg, hflag, hins, hne, hs']
      have hview : SameView mailView s s' := by
        rw [← hs']
        apply mailView_blind.state { s with queuetab := t' } s.currpid .prRectim
        all_goals decide
      rw [hrun]
      refine Machine.obeys_bind ((resched_within mailView_blind s').after hview) ?_ ?_ ?_ ?_
      · exact fun s₁ o hview ho => mailOk_of_view hview (fun _ => rfl) (taken_of_lost ho)
          (fun v hv => (ho v hv).elim) trivial
      · exact fun _ s₁ hview => recvtimeTail_obeys hpos hview
      · exact fun s₁ s₂ o _ hview ho => mailOk_of_view hview (fun _ => rfl) (taken_of_lost ho)
          (fun v hv => (ho v hv).elim) trivial
      · intro _ s₁ s₂ hcur hview
        have hme : s.currpid = s₁.currpid := hcur.symm
        rw [hme]
        exact recvtimeTail_obeys hpos hview
    · have hrun : Xinu.recvtime maxwait.toInt s = .stuck := by
        simp [Xinu.recvtime, hneg, hflag, hins]
      rw [hrun]
      trivial

theorem recvclr_obeys (s : Kernel) :
    kernelMachine.Obeys MailOk .recvclr (Xinu.recvclr s) false s := by
  by_cases hmail : HasMessage s s.currpid
  · have hrun : Xinu.recvclr s = .done (s.proctab s.currpid).prmsg
        (s.setProc s.currpid fun e => { e with prhasmsg := false }) := by
      unfold HasMessage at hmail
      simp [Xinu.recvclr, hmail]
    rw [hrun]
    refine mailOk_of_take trivial (fun _ _ => rfl) (mailbox_take s s.currpid) (fun _ => rfl) ?_
    unfold ResultOk
    simp [hmail]
  · have hrun : Xinu.recvclr s = .done ok s := by
      unfold HasMessage at hmail
      simp [Xinu.recvclr, hmail]
    rw [hrun]
    refine mailOk_of_take trivial (fun _ _ => rfl) ?_ (fun h => (hmail h).elim) ?_
    · intro p
      split
      · next heq => rw [heq, mailbox_of_not hmail]
      · rfl
    · unfold ResultOk
      simp [hmail]

/-! ## Passing a message -/

/-- The state in which the message is in the slot of process `pid`. -/
def placed (s : Kernel) (pid msg : Int) : Kernel :=
  s.setProc pid fun e => { e with prmsg := msg, prhasmsg := true }

theorem mailbox_placed (s : Kernel) (pid msg p : Int) :
    mailbox (placed s pid msg) p = if p = pid then [msg] else mailbox s p := by
  by_cases hp : p = pid
  · rw [if_pos hp]
    unfold mailbox HasMessage placed
    simp [hp]
  · rw [if_neg hp]
    refine mailbox_congr ?_
    unfold mailView placed
    rw [proctab_setProc, if_neg hp]

/-- A segment that puts a message in a slot that was empty. -/
theorem mailOk_of_place {pid msg : Int} (hview : mailView s = mailView (placed s₀ pid msg))
    (hempty : ¬ HasMessage s₀ pid) (hpos : 0 ≤ msg)
    (hpassed : ∀ p, passed p ⟨s₀.currpid, c, b, s₀, o, s⟩ = if p = pid then [msg] else [])
    (hc : ¬ Takes c) (hresult : ∀ v, o = .returned v → ResultOk ⟨s₀.currpid, c, b, s₀, o, s⟩ v)
    (hsend : SendOk ⟨s₀.currpid, c, b, s₀, o, s⟩) :
    MailOk ⟨s₀.currpid, c, b, s₀, o, s⟩ := by
  have hafter : ∀ p, mailbox s p = if p = pid then [msg] else mailbox s₀ p := fun p =>
    (mailbox_congr (congrFun hview p)).trans (mailbox_placed s₀ pid msg p)
  refine ⟨?_, ?_, hresult, hsend⟩
  · intro hnonneg p m hm
    have hm' : m ∈ mailbox s p := hm
    rw [hafter] at hm'
    split at hm'
    · obtain rfl : m = msg := by simpa using hm'
      exact hpos
    · exact hnonneg p m hm'
  · intro p _
    show mailbox s₀ p ++ _ = _ ++ mailbox s p
    rw [hpassed, hafter, taken_of_not hc, List.nil_append]
    by_cases hp : p = pid
    · rw [if_pos hp, if_pos hp, hp, mailbox_of_not hempty, List.nil_append]
    · rw [if_neg hp, if_neg hp, List.append_nil]

theorem send_obeys (pid : Int32) (msg : UInt32) (s : Kernel) :
    kernelMachine.Obeys MailOk (.send pid msg) (Xinu.send pid.toInt msg.toNat s) false s := by
  rw [send_eq]
  by_cases hacc : Accepts s pid.toInt
  · have hnot : ¬ (isbadpid s pid.toInt ∨ (s.proctab pid.toInt).prhasmsg = true) := by
      rintro (hbad | hmail)
      · exact hacc.1 hbad
      · exact hacc.2 hmail
    obtain ⟨x, hwake, hwithin⟩ := wake_eq (s.state pid.toInt) pid.toInt
    have hpassed : ∀ o s' p, passed p ⟨s.currpid, .send pid msg, false, s, o, s'⟩ =
        if p = pid.toInt then [(msg.toNat : Int)] else [] := by
      intro o s' p
      by_cases hp : p = pid.toInt
      · subst hp
        simp [passed, hacc]
      · simp [passed, hp, Ne.symm hp]
    rw [if_neg hnot, hwake]
    refine Machine.obeys_bind (hwithin mailView_blind _) ?_ ?_ ?_ ?_
    · intro s₁ o hview ho
      exact mailOk_of_place hview hacc.2 (Int.natCast_nonneg _) (hpassed o s₁) id
        (fun v hv => (ho v hv).elim) fun _ _ => hacc
    · intro _ s₁ hview
      refine mailOk_of_place hview hacc.2 (Int.natCast_nonneg _) (hpassed _ s₁) id ?_ fun _ _ => hacc
      intro v hv
      obtain rfl : ok = v := by simpa using hv
      unfold ResultOk
      simp [hacc]
    · exact fun s₁ s₂ o _ hview ho => mailOk_of_view hview (fun _ => by simp [passed])
        (taken_of_lost ho) (fun v hv => (ho v hv).elim) nofun
    · intro _ s₁ s₂ _ hview
      refine mailOk_of_view hview (fun _ => by simp [passed]) (taken_of_not id) ?_ nofun
      intro v hv
      obtain rfl : ok = v := by simpa using hv
      unfold ResultOk
      simp
  · have hbad : isbadpid s pid.toInt ∨ (s.proctab pid.toInt).prhasmsg = true := by
      by_contra hnot
      exact hacc ⟨fun hb => hnot (Or.inl hb), fun hm => hnot (Or.inr hm)⟩
    rw [if_pos hbad]
    refine mailOk_of_view rfl ?_ (taken_of_not id) ?_ nofun
    · intro p
      refine if_neg ?_
      rintro ⟨-, rfl, hacc'⟩
      exact hacc hacc'
    · intro v hv
      obtain rfl : syserr = v := by simpa using hv
      unfold ResultOk
      simp [hacc]

/-- A segment of a kill that passes no message. -/
theorem mailOk_of_kill {pid : Int32} {who : Int} (hview : mailView s = mailView s₀)
    (hpassed : ∀ p, passed p ⟨who, .kill pid, b, s₀, o, s⟩ = []) :
    MailOk ⟨who, .kill pid, b, s₀, o, s⟩ :=
  mailOk_of_view hview hpassed (taken_of_not id) (fun _ _ => trivial) trivial

theorem kill_obeys (pid : Int32) (s : Kernel) :
    kernelMachine.Obeys MailOk (.kill pid) (Xinu.kill pid.toInt s) false s := by
  have hrest : ∀ s₁ s₂ o, mailView s₂ = mailView s₁ →
      MailOk ⟨kernelMachine.current s₁, .kill pid, true, s₁, o, s₂⟩ := fun _ _ _ hview =>
    mailOk_of_kill hview fun p => by simp [passed]
  have hnone : (∀ p, ¬ (Notifies s pid.toInt p ∧ Accepts s p)) → ∀ o s₁,
      mailView s₁ = mailView s →
        MailOk ⟨kernelMachine.current s, .kill pid, false, s, o, s₁⟩ := by
    intro hnot o s₁ hview
    refine mailOk_of_kill hview fun p => if_neg ?_
    rintro ⟨-, hnotifies, hacc⟩
    exact hnot p ⟨hnotifies, hacc⟩
  by_cases hkill : Killable s pid.toInt
  swap
  · rw [kill_bad hkill]
    exact hnone (fun p hand => hkill hand.1.1) _ s rfl
  by_cases hlast : i32 (s.prcount - 1) ≤ 1
  · rw [kill_last hkill hlast]
    exact hnone (fun p hand => hand.1.2.1 hlast) _ _ rfl
  obtain ⟨parent, hparent⟩ : ∃ parent, (s.proctab pid.toInt).prparent = parent := ⟨_, rfl⟩
  have htail := killTail_within mailView_blind (fun _ _ => rfl) pid.toInt fun s =>
    mailView_setProc s _ _ fun _ => ⟨rfl, rfl⟩
  rw [kill_eq hkill hlast, send_eq, hparent]
  by_cases hacc : Accepts s parent
  · have hnot : ¬ (isbadpid { s with prcount := i32 (s.prcount - 1) } parent ∨
        (s.proctab parent).prhasmsg = true) := by
      rintro (hbad | hmail)
      · exact hacc.1 hbad
      · exact hacc.2 hmail
    obtain ⟨x, hwake, hwithin⟩ :=
      wake_eq (({ s with prcount := i32 (s.prcount - 1) } : Kernel).state parent) parent
    have hpos : 0 ≤ pid.toInt := by
      have hpid : IsPid pid.toInt := isPid_of_not_isbadpid fun hb => hkill (Or.inl hb)
      exact hpid.1
    rw [if_neg hnot, hwake, Flow.bind_assoc]
    refine Machine.obeys_within ((hwithin mailView_blind _).bind fun _ => htail) ?_ hrest
    intro s₁ o hview
    have hview' : mailView s₁ = mailView (placed s parent pid.toInt) := hview
    refine mailOk_of_place hview' hacc.2 hpos ?_ id (fun _ _ => trivial) trivial
    intro p
    by_cases hp : p = parent
    · subst hp
      simp [passed, Notifies, hkill, hlast, hparent, hacc]
    · simp [passed, Notifies, hparent, hp, Ne.symm hp]
  · have hbad : isbadpid { s with prcount := i32 (s.prcount - 1) } parent ∨
        (s.proctab parent).prhasmsg = true := by
      by_contra hnot
      exact hacc ⟨fun hb => hnot (Or.inl hb), fun hm => hnot (Or.inr hm)⟩
    rw [if_pos hbad, Flow.bind_done]
    refine Machine.obeys_within (htail _) (fun s₁ o hview => hnone ?_ o s₁ hview) hrest
    rintro p ⟨hnotifies, hacc'⟩
    exact hacc (by rw [← hparent, hnotifies.2.2]; exact hacc')

/-! ## All calls -/

/-- What `create` does once it has asked for a stack. -/
def createRest (size : Nat) (priority : Int16) : Option Nat → KernelM Int
  | none => return syserr
  | some saddr => do
      let pid ← newpid
      if pid = syserr ∨ priority.toInt < 1 then
        return syserr
      modify fun s => { s with prcount := i32 (s.prcount + 1) }
      modify fun s => s.setProc pid fun e => newProcent s e saddr size priority
      return pid

theorem create_eq (ssize : Nat) (priority : Int16) :
    create ssize priority =
      (onHeap (Memory.getstk (roundew (if ssize < minstk then minstk else ssize))) >>=
        createRest (roundew (if ssize < minstk then minstk else ssize)) priority) := by
  unfold create
  congr 1

theorem create_obeys (ssize : UInt32) (priority : Int16) (s : Kernel) :
    kernelMachine.Obeys MailOk (.create ssize priority) (Xinu.create ssize.toNat priority s) false
      s := by
  have hkeep : ∀ {who : Int} {b : Bool} {o : Outcome} {s₀ s₁ : Kernel} {pid : Int},
      s₀.state pid = .prFree → (s₁.proctab pid).prhasmsg = false →
      (∀ p, p ≠ pid → s₁.proctab p = s₀.proctab p) →
      MailOk ⟨who, .create ssize priority, b, s₀, o, s₁⟩ := by
    intro who b o s₀ s₁ pid hfree hflag hother
    have hmail : ∀ p, p ≠ pid → mailbox s₁ p = mailbox s₀ p := by
      intro p hp
      refine mailbox_congr ?_
      unfold mailView
      rw [hother p hp]
    refine ⟨?_, ?_, fun _ _ => trivial, trivial⟩
    · intro hnonneg p m hm
      have hm' : m ∈ mailbox s₁ p := hm
      by_cases hp : p = pid
      · rw [hp, mailbox_of_not (by unfold HasMessage; rw [hflag]; exact Bool.false_ne_true)] at hm'
        simp at hm'
      · rw [hmail p hp] at hm'
        exact hnonneg p m hm'
    · intro p hlive
      have hp : p ≠ pid := fun heq => hlive (heq ▸ hfree)
      rw [taken_of_not id, List.nil_append]
      show mailbox s₀ p ++ [] = mailbox s₁ p
      rw [hmail p hp, List.append_nil]
  have hquiet : ∀ {who : Int} {b : Bool} {o : Outcome} {s₀ s₁ : Kernel},
      s₁.proctab = s₀.proctab → MailOk ⟨who, .create ssize priority, b, s₀, o, s₁⟩ := by
    intro who b o s₀ s₁ hproc
    refine mailOk_of_view ?_ (fun _ => rfl) (taken_of_not id) (fun _ _ => trivial) trivial
    funext p
    unfold mailView
    rw [hproc]
  obtain ⟨size, hsize⟩ : ∃ size,
      roundew (if ssize.toNat < minstk then minstk else ssize.toNat) = size := ⟨_, rfl⟩
  have hrest : ∀ r b s₀ s₁, s₁.proctab = s₀.proctab →
      kernelMachine.Obeys MailOk (.create ssize priority) (createRest size priority r s₁) b s₀ := by
    intro r b s₀ s₁ hproc
    cases r with
    | none => exact hquiet hproc
    | some saddr =>
        rcases newpidLoop_run nproc.toNat s₁ with ⟨k, hnew⟩ | ⟨k, pid, hnew, -, hfree⟩
        · have hrun : createRest size priority (some saddr) s₁ =
              .done syserr { s₁ with nextpid := k } := by
            simp [createRest, newpid, hnew]
          rw [hrun]
          exact hquiet hproc
        · by_cases hbad : pid = syserr ∨ priority.toInt < 1
          · have hrun : createRest size priority (some saddr) s₁ =
                .done syserr { s₁ with nextpid := k } := by
              simp [createRest, newpid, hnew, hbad]
            rw [hrun]
            exact hquiet hproc
          · obtain ⟨s₂, hs₂⟩ : ∃ s₂ : Kernel,
                { s₁ with nextpid := k, prcount := i32 (s₁.prcount + 1) } = s₂ := ⟨_, rfl⟩
            have hrun : createRest size priority (some saddr) s₁ = .done pid
                (s₂.setProc pid fun e => newProcent s₂ e saddr size priority) := by
              simp [createRest, newpid, hnew, hbad, ← hs₂]
            have hproc₂ : s₂.proctab = s₀.proctab := by
              rw [← hs₂]
              exact hproc
            rw [hrun]
            refine @hkeep _ _ _ _ _ pid ?_ ?_ ?_
            · unfold Kernel.state at hfree ⊢
              rw [← hproc]
              exact hfree
            · rw [proctab_setProc, if_pos rfl]
              rfl
            · intro p hp
              rw [proctab_setProc, if_neg hp, hproc₂]
  rw [create_eq, hsize]
  have hwithin : (onHeap (Memory.getstk size)).Within (SameView Kernel.proctab) :=
    onHeap_within (fun _ _ => rfl) _
  refine Machine.obeys_bind (hwithin s) ?_ ?_ ?_ ?_
  · exact fun _ _ hview _ => hquiet hview
  · exact fun r s₁ hview => hrest r false s s₁ hview
  · exact fun _ _ _ _ hview _ => hquiet hview
  · exact fun r s₁ s₂ _ hview => hrest r true s₁ s₂ hview

theorem exec_obeys (s : Kernel) (c : KCall) :
    kernelMachine.Obeys MailOk c (kernelMachine.exec c s) false s := by
  have hblind := mailView_blind
  cases c with
  | create ssize priority => exact create_obeys ssize priority s
  | resume pid => exact obeys_silent trivial (resume_within hblind _ s)
  | suspend pid => exact obeys_silent trivial (suspend_within hblind _ s)
  | kill pid => exact kill_obeys pid s
  | wait sem => exact obeys_silent trivial (wait_within hblind mailView_mayWait _ s)
  | signal sem => exact obeys_silent trivial (signal_within hblind _ s)
  | signaln sem count => exact obeys_silent trivial (signaln_within hblind _ _ s)
  | semcreate count => exact obeys_silent trivial (semcreate_within hblind _ s)
  | semdelete sem => exact obeys_silent trivial (semdelete_within hblind _ s)
  | semreset sem count => exact obeys_silent trivial (semreset_within hblind _ _ s)
  | sleepms delay => exact obeys_silent trivial (sleepms_within hblind _ s)
  | recvtime maxwait => exact recvtime_obeys maxwait s
  | receive => exact receive_obeys s
  | send pid msg => exact send_obeys pid msg s
  | recvclr => exact recvclr_obeys s
  | yield => exact obeys_silent trivial (yield_within hblind s)
  | chprio pid newprio => exact obeys_silent trivial (chprio_within hblind _ _ s)
  | tick => exact obeys_silent trivial (clkhandler_within hblind s)
  | ready pid => exact obeys_silent trivial (ready_within hblind _ s)
  | reschedCntl defer => exact obeys_silent trivial (reschedCntl_within hblind _ s)

/-- A `receive` that finds no message waits for one, and then ends at once. -/
theorem receive_cases (hI : Inv ordinary s) (hblock : Blocks s .receive → MayBlock s) :
    HasMessage s s.currpid ∧ Xinu.receive s = receiveTail s.currpid s ∨
      ∃ s₁, Xinu.receive s = .suspended s₁ (receiveTail s.currpid) ∧ Receiving s₁ s.currpid := by
  rw [receive_eq]
  by_cases hmsg : (s.proctab s.currpid).prhasmsg = false
  · obtain ⟨hcur, hnull⟩ := hblock hmsg
    obtain ⟨s₁, hres, -⟩ := block_run .prRecv hI.kernelOk hcur hnull (by decide)
    have hself : (s.setState s.currpid .prRecv).state s.currpid = .prRecv := by
      rw [state_setState, if_pos rfl]
    rw [if_pos hmsg]
    generalize hx : resched (s.setState s.currpid .prRecv) = x at hres
    cases hres with
    | deferred hdefer =>
        have hzero := hI.undeferred trivial
        rw [defer_setState, hzero] at hdefer
        omega
    | kept _ hrun =>
        rw [currpid_setState, hself] at hrun
        contradiction
    | switched _ hstate hactive =>
        have hne : s₁.currpid ≠ s.currpid := by
          intro heq
          rw [heq, hself] at hactive
          rcases hactive with h | h <;> contradiction
        refine Or.inr ⟨s₁, rfl, ?_, hne⟩
        rw [hstate, if_neg (Ne.symm hne), if_neg, hself]
        rintro ⟨-, hcurr⟩
        rw [hself] at hcurr
        contradiction
  · refine Or.inl ⟨?_, if_neg hmsg⟩
    unfold HasMessage
    simpa using hmsg

end Segments

/-! ## Runs -/

section Runs

variable {p : Int} {s₀ : Kernel} {tr pre win : List (Segment Kernel KCall)}
variable {C C₀ C' : Config Kernel KCall} {seg : Segment Kernel KCall}

/-- Every segment of a run keeps the slots of the live processes balanced. -/
theorem mailOk_of_run {ok' : Kernel → Bool → KCall → Prop}
    (hrun : kernelMachine.Run ok' (Machine.initial s₀) tr C) : ∀ seg ∈ tr, MailOk seg :=
  (Machine.run_obeys exec_obeys hrun).1

theorem nonneg_of_run {ok' : Kernel → Bool → KCall → Prop} (hnonneg : MailNonneg s₀)
    (hrun : kernelMachine.Run ok' (Machine.initial s₀) tr C) : MailNonneg C.state := by
  induction hrun with
  | start => exact hnonneg
  | @step tr C C' seg hrun hstep hok ih =>
      obtain ⟨hbefore, hafter, -⟩ := hstep.segment
      have hmail := mailOk_of_run (.step hrun hstep hok) seg (by simp)
      rw [← hafter]
      refine hmail.nonneg ?_
      rwa [hbefore]

theorem taken_of_other (hwho : seg.who ≠ p) : taken p seg = [] := by
  unfold taken
  split
  · exact if_neg fun hand => hwho hand.2.1
  · rfl

theorem mailbox_eq_nil {s : Kernel} : mailbox s p = [] ↔ ¬ HasMessage s p := by
  unfold mailbox
  split
  · next h => simp [h]
  · next h => simp [h]

/-- What a segment of another process leaves in the slot. -/
theorem MailOk.other (h : MailOk seg) (hwho : seg.who ≠ p) (hlive : seg.before.state p ≠ .prFree) :
    mailbox seg.before p ++ passed p seg = mailbox seg.after p := by
  rw [h.balance p hlive, taken_of_other hwho, List.nil_append]

/-- A suspended `receive` of a live process has its message or waits for it, and it
ends as soon as it is resumed. -/
def Awaiting (C : Config Kernel KCall) : Prop :=
  ∀ p k, C.pending p = some (.receive, k) → (∀ s, ∃ v s', k s = .done v s') ∧
    (C.state.state p = .prFree ∨ HasMessage C.state p ∨ Receiving C.state p)

theorem Awaiting.step (h : Awaiting C) (hI : Inv ordinary C.state) (hstep : kernelMachine.Step C seg C')
    (hok : NullRuns seg.before seg.resumed seg.call) (hseg : SegOk seg)
    (hmail : MailOk seg) : Awaiting C' := by
  obtain ⟨hbefore, hafter, hwho⟩ := hstep.segment
  intro p k hp
  obtain ⟨hfresh, ⟨hme, hout, hcall⟩ | ⟨hother, hpend⟩⟩ := hstep.pending hp
  · -- the process began to wait with this segment
    cases hstep with
    | @call c o C' hrun hidle hflow =>
        dsimp only at hme hout hcall hok hp
        subst hcall hme hout
        have hflow' : kernelMachine.settle C .receive (Xinu.receive C.state) = some (.switched, C') :=
          hflow
        rcases receive_cases hI fun hb => ⟨hI.running, hok.2 rfl hb⟩ with ⟨-, hexec⟩ |
          ⟨s₁, hexec, hrecv⟩
        · rw [hexec] at hflow'
          simp [Machine.settle, receiveTail] at hflow'
        · rw [hexec] at hflow'
          simp only [Machine.settle, Option.some.injEq, Prod.mk.injEq, true_and] at hflow'
          subst hflow'
          unfold Machine.keep at hp
          dsimp only at hp
          split at hp
          · contradiction
          · rw [update_self] at hp
            have hk : receiveTail C.state.currpid = k := congrArg Prod.snd (Option.some.inj hp)
            rw [← hk]
            exact ⟨fun s => ⟨_, _, rfl⟩, Or.inr (Or.inr hrecv)⟩
    | @resume c k' o C' hrun hbusy hflow =>
        dsimp only at hme hout hcall
        subst hcall hme hout
        obtain ⟨v, s', hdone⟩ := (h _ _ hbusy).1 C.state
        rw [hdone] at hflow
        simp [Machine.settle] at hflow
  · obtain ⟨hends, hwait⟩ := h p k hpend
    refine ⟨hends, ?_⟩
    have hcur : seg.before.currpid ≠ p := by
      rw [hbefore]
      intro heq
      exact hother (heq.symm.trans hwho.symm)
    rw [← hbefore] at hwait
    rw [← hafter]
    by_cases hlive : seg.before.state p = .prFree
    · left
      rcases hseg.free p hlive hcur with ⟨hnew, -⟩ | hdead
      · have hfalse : decide (Fresh seg.after p) = false := hfresh
        rw [decide_eq_true hnew] at hfalse
        contradiction
      · exact hdead.1
    · rcases hwait.resolve_left hlive with hmsg | hrecv
      · right; left
        have hkeep := hmail.other (Ne.symm hother) hlive
        by_contra hnot
        rw [mailbox_of_not hnot, mailbox_of_hasMessage hmsg] at hkeep
        simp at hkeep
      · rcases hseg.receiving p hrecv with hmsg | hrecv | hdead
        · exact Or.inr (Or.inl hmsg)
        · exact Or.inr (Or.inr hrecv)
        · exact Or.inl hdead

theorem awaiting_of_run (hI : Inv ordinary s₀)
    (hrun : kernelMachine.Run NullRuns (Machine.initial s₀) tr C) : Awaiting C := by
  induction hrun with
  | start =>
      intro p k hp
      simp [Machine.initial] at hp
  | @step tr C C' seg hrun hstep hok ih =>
      have hinv := (kernel_run nullRuns_admits hI hrun).1
      have hseg := (kernel_run nullRuns_admits hI (.step hrun hstep hok)).2 seg (by simp)
      exact ih.step hinv hstep hok hseg (mailOk_of_run (.step hrun hstep hok) seg (by simp))

/-- What is known of a segment of a run, as far as messages go. -/
structure Mailed (seg : Segment Kernel KCall) : Prop where
  ok : MailOk seg
  nonneg : MailNonneg seg.before
  received : ∀ v, seg.call = .receive → seg.outcome = .returned v →
    seg.before.state seg.who ≠ .prFree → HasMessage seg.before seg.who

theorem mailed_of_run (hI : Inv ordinary s₀) (hnonneg : MailNonneg s₀)
    (hrun : kernelMachine.Run NullRuns (Machine.initial s₀) tr C) : ∀ seg ∈ tr, Mailed seg := by
  induction hrun with
  | start => simp
  | @step tr C C' seg hrun hstep hok ih =>
      intro seg' hmem
      rcases List.mem_append.mp hmem with hmem | hmem
      · exact ih seg' hmem
      rw [List.mem_singleton.mp hmem]
      obtain ⟨hbefore, -, hwho⟩ := hstep.segment
      refine ⟨mailOk_of_run (.step hrun hstep hok) seg (by simp), ?_, ?_⟩
      · rw [hbefore]
        exact nonneg_of_run hnonneg hrun
      · intro v hcall hout hlive
        cases hstep with
        | @call c o C' hrunning hidle hflow =>
            dsimp only at hcall hout
            subst hcall hout
            have hI' := (kernel_run nullRuns_admits hI hrun).1
            have hflow' : kernelMachine.settle C .receive (Xinu.receive C.state) =
                some (.returned v, C') := hflow
            rcases receive_cases hI' fun hb => ⟨hI'.running, hok.2 rfl hb⟩ with ⟨hmsg, -⟩ |
              ⟨s₁, hexec, -⟩
            · exact hmsg
            · rw [hexec] at hflow'
              simp [Machine.settle] at hflow'
        | @resume c k o C' hrunning hbusy hflow =>
            dsimp only at hcall hlive ⊢
            subst hcall
            obtain ⟨-, hwait⟩ := awaiting_of_run hI hrun _ _ hbusy
            rcases hwait.resolve_left hlive with hmsg | hrecv
            · exact hmsg
            · exact (hrecv.2 rfl).elim

/-- The balance of the slot of a live process over a stretch of a run. -/
theorem balance_of_run (hmail : ∀ seg ∈ win, MailOk seg)
    (hlive : ∀ seg ∈ win, seg.before.state p ≠ .prFree)
    (hwin : kernelMachine.Run NullRuns C₀ win C) :
    mailbox C₀.state p ++ win.flatMap (passed p) = win.flatMap (taken p) ++ mailbox C.state p := by
  induction hwin with
  | start => simp
  | @step win C C' seg hwin hstep hok ih =>
      obtain ⟨hbefore, hafter, -⟩ := hstep.segment
      have hseg := (hmail seg (by simp)).balance p (hlive seg (by simp))
      have hinit := ih (fun x hx => hmail x (by simp [hx])) fun x hx => hlive x (by simp [hx])
      rw [hbefore, hafter] at hseg
      rw [List.flatMap_append, List.flatMap_append, List.flatMap_singleton, List.flatMap_singleton,
        ← List.append_assoc, hinit, List.append_assoc, hseg, List.append_assoc]

/-- While a process does not run, its slot fills up at most. -/
theorem empty_before (hmail : ∀ seg ∈ win, MailOk seg)
    (hlive : ∀ seg ∈ win, seg.before.state p ≠ .prFree) (hwho : ∀ seg ∈ win, seg.who ≠ p)
    (hwin : kernelMachine.Run NullRuns C₀ win C) (hend : mailbox C.state p = []) :
    ∀ seg ∈ win, mailbox seg.before p = [] ∧ passed p seg = [] := by
  induction hwin with
  | start => simp
  | @step win C C' seg hwin hstep hok ih =>
      obtain ⟨hbefore, hafter, -⟩ := hstep.segment
      have hseg := (hmail seg (by simp)).other (hwho seg (by simp)) (hlive seg (by simp))
      rw [hafter, hend, List.append_eq_nil_iff] at hseg
      intro seg' hmem
      rcases List.mem_append.mp hmem with hmem | hmem
      · refine ih (fun x hx => hmail x (by simp [hx])) (fun x hx => hlive x (by simp [hx]))
          (fun x hx => hwho x (by simp [hx])) ?_ seg' hmem
        rw [← hbefore]
        exact hseg.1
      · rw [List.mem_singleton.mp hmem]
        exact hseg

/-- What the calls of process `p` that take messages return, and what it takes with them. -/
theorem Mailed.taken_eq {v : Int} (h : Mailed seg) (hwho : seg.who = p)
    (hlive : seg.before.state p ≠ .prFree) (hout : seg.outcome = .returned v) :
    taken p seg = match seg.call with
      | .receive => [v]
      | .recvtime _ => if v = timeout ∨ v = syserr then [] else [v]
      | .recvclr => if HasMessage seg.before p then [v] else []
      | _ => [] := by
  have hresult := h.ok.result v hout
  have hneg : HasMessage seg.before p → v = (seg.before.proctab p).prmsg → 0 ≤ v := by
    intro hmsg heq
    refine h.nonneg p v ?_
    rw [mailbox_of_hasMessage hmsg, heq]
    exact List.mem_singleton_self _
  subst hwho
  unfold ResultOk at hresult
  unfold taken
  rw [hout]
  cases hcall : seg.call with
  | receive =>
      have hmsg := h.received v hcall hout hlive
      simp [Takes, hmsg]
  | recvtime maxwait =>
      rw [hcall] at hresult
      dsimp only at hresult
      by_cases hmsg : 0 ≤ maxwait.toInt ∧ HasMessage seg.before seg.who
      · rw [if_pos hmsg] at hresult
        have hpos := hneg hmsg.2 hresult
        have hne : ¬ (v = timeout ∨ v = syserr) := by
          unfold timeout syserr
          omega
        simp [Takes, hmsg.1, hmsg.2, hne]
      · rw [if_neg hmsg] at hresult
        have hnot : ¬ (Takes (.recvtime maxwait) ∧ seg.who = seg.who ∧
            HasMessage seg.before seg.who) := fun hand => hmsg ⟨hand.1, hand.2.2⟩
        dsimp only
        rw [if_neg hnot, if_pos (hresult.symm.imp And.left id)]
  | recvclr => simp [Takes]
  | _ => simp [Takes]

/-- A `recvtime` that returns `TIMEOUT` finds no message. -/
theorem Mailed.empty_of_timeout {maxwait : Int32} (h : Mailed seg)
    (hcall : seg.call = .recvtime maxwait) (hout : seg.outcome = .returned timeout) :
    mailbox seg.before seg.who = [] := by
  have hresult := h.ok.result _ hout
  unfold ResultOk at hresult
  rw [hcall] at hresult
  dsimp only at hresult
  refine mailbox_of_not ?_
  split at hresult
  · next hand =>
      have hpos : 0 ≤ timeout := by
        refine h.nonneg seg.who timeout ?_
        rw [mailbox_of_hasMessage hand.2, hresult]
        exact List.mem_singleton_self _
      exact absurd hpos (by decide)
  · rcases hresult with herr | htime
    · exact absurd herr (by decide)
    · exact htime.2

/-! ## The system's runs -/

theorem initProcs_within (n : Nat) (i : Int) : (initProcs n i).Within (SameView mailView) := by
  induction n generalizing i with
  | zero => exact .pure _
  | succ n ih => exact .bind (.modify fun s => mailView_setProc s i _ fun _ => ⟨rfl, rfl⟩) fun _ => ih _

theorem newqueue_within : newqueue.Within (SameView mailView) := by
  have hqueues := onQueues_within mailView_blind
  refine .read fun s => .ite (.pure _) ?_
  refine .bind (.modify fun _ => rfl) fun _ => ?_
  refine .bind (hqueues _) fun _ => ?_
  refine .bind (hqueues _) fun _ => ?_
  refine .bind (hqueues _) fun _ => ?_
  refine .bind (hqueues _) fun _ => ?_
  refine .bind (hqueues _) fun _ => ?_
  exact .bind (hqueues _) fun _ => .pure _

theorem initSems_within (n : Nat) (i : Int) : (initSems n i).Within (SameView mailView) := by
  induction n generalizing i with
  | zero => exact .pure _
  | succ n ih => exact .bind newqueue_within fun _ => .bind (.modify fun _ => rfl) fun _ => ih _

theorem sysinit_within (b : Board) : (sysinit b).Within (SameView mailView) := by
  refine .bind (.modify fun _ => rfl) fun _ => .bind (.modify fun _ => rfl) fun _ => ?_
  refine .bind (.modify fun _ => rfl) fun _ => .bind (initProcs_within _ _) fun _ => ?_
  refine .bind (.modify fun s => mailView_setProc s _ _ fun _ => ⟨rfl, rfl⟩) fun _ => ?_
  refine .bind (onHeap_within (fun _ _ => rfl) _) fun _ => ?_
  refine .bind (.modify fun s => mailView_setProc s _ _ fun _ => ⟨rfl, rfl⟩) fun _ => ?_
  refine .bind (.modify fun _ => rfl) fun _ => .bind (initSems_within _ _) fun _ => ?_
  refine .bind newqueue_within fun _ => .bind (.modify fun _ => rfl) fun _ => ?_
  exact .bind newqueue_within fun _ => .modify fun _ => rfl

/-- No process has a message when the system starts. -/
theorem boot_nonneg (b : Board) : MailNonneg (boot b) := by
  have hview := sysinit_within b (loaded b)
  rw [(boot_eq b).1] at hview
  have hmail : mailView (boot b) = mailView (loaded b) := hview
  intro p m hm
  have hnone : ¬ HasMessage (loaded b) p := Bool.false_ne_true
  rw [mailbox_congr (congrFun hmail p), mailbox_of_not hnone] at hm
  simp at hm

/-- How the slot of process `p` fares over the stretch `win` of a run. -/
structure Delivered (p : Int) (C₀ : Config Kernel KCall) (win : List (Segment Kernel KCall))
    (C : Config Kernel KCall) : Prop where
  /-- What was put in the slot is what was taken out, in order, and what is still there. -/
  balance : mailbox C₀.state p ++ win.flatMap (passed p) =
    win.flatMap (taken p) ++ mailbox C.state p
  /-- The `send` calls that return `OK` are those that put their message in the slot. -/
  sent : ∀ seg ∈ win, ∀ pid msg, seg.call = .send pid msg → pid.toInt = p →
    (seg.resumed = false → passed p seg = [] ∨ passed p seg = [(msg.toNat : Int)]) ∧
      (seg.resumed = false → seg.outcome = .switched → passed p seg ≠ []) ∧
        ∀ v, seg.outcome = .returned v →
          v = if seg.resumed = true ∨ passed p seg ≠ [] then ok else syserr
  /-- The calls of the process return what they take out. -/
  received : ∀ seg ∈ win, seg.who = p → ∀ v, seg.outcome = .returned v →
    taken p seg = match seg.call with
      | .receive => [v]
      | .recvtime _ => if v = timeout ∨ v = syserr then [] else [v]
      | .recvclr => if HasMessage seg.before p then [v] else []
      | _ => []
  /-- When `recvtime` returns `TIMEOUT`, the slot was empty all the time since the
  process ran last, and no message was put in it. -/
  expired : ∀ a mid last rest maxwait, win = a ++ mid ++ last :: rest →
    (∀ seg ∈ mid, seg.who ≠ p) → last.who = p → last.call = .recvtime maxwait →
      last.outcome = .returned timeout → mailbox last.before p = [] ∧
        ∀ seg ∈ mid, mailbox seg.before p = [] ∧ passed p seg = []

theorem MailOk.sent {pid : Int32} {msg : UInt32} (h : MailOk seg) (hcall : seg.call = .send pid msg)
    (hp : pid.toInt = p) :
    (seg.resumed = false → passed p seg = [] ∨ passed p seg = [(msg.toNat : Int)]) ∧
      (seg.resumed = false → seg.outcome = .switched → passed p seg ≠ []) ∧
        ∀ v, seg.outcome = .returned v →
          v = if seg.resumed = true ∨ passed p seg ≠ [] then ok else syserr := by
  subst hp
  have hpassed : passed pid.toInt seg =
      if seg.resumed = false ∧ Accepts seg.before pid.toInt then [(msg.toNat : Int)] else [] := by
    unfold passed
    rw [hcall]
    simp
  have hsends := h.sends
  have hresult := h.result
  unfold SendOk at hsends
  unfold ResultOk at hresult
  rw [hcall] at hsends hresult
  refine ⟨?_, ?_, ?_⟩
  · intro _
    rw [hpassed]
    split
    · exact Or.inr rfl
    · exact Or.inl rfl
  · intro hres hout
    rw [hpassed, if_pos ⟨hres, hsends hres hout⟩]
    exact List.cons_ne_nil _ _
  · intro v hv
    rw [hresult v hv, hpassed]
    by_cases hres : seg.resumed = true
    · rw [if_pos (Or.inl hres), if_pos (Or.inl hres)]
    · by_cases hacc : Accepts seg.before pid.toInt
      · have hfirst : seg.resumed = false := by simpa using hres
        simp [hacc, hfirst]
      · simp [hacc, hres]

end Runs

/-- Process 1 waits for one tick, the tick makes it ready, and before it runs
process 2 sends it a message. -/
def mailScript : List (Option KCall) :=
  [some (.create 1024 20), some (.resume 1), some (.recvtime 1), none, some (.create 1024 30),
    some (.resume 2), some .tick, some (.send 1 7), some .receive, none]

end Xinu
