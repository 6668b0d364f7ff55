import Xinu.Net.ArpCache

/-!
# Answers of ARP

What `arp_resolve` returns.  A process that waits for an answer trusts every message
it receives, and the slot of the cache that it chose before it waited.

Main results:

- Theorem `arpAsk_stretches`: what `arp_resolve` returns, in terms of the message that
  its caller has.
- Theorem `answers_of_run`: as long as nobody else sends a message to a process that
  waits in `arp_resolve`, kills it or takes its entry away, it returns what an ARP
  packet said, and leaves no pending entry behind.
-/

namespace Xinu
namespace Net

open Foundations Function

variable {t t' t₁ base : State} {me : Int} {slot : Nat} {nxthop : UInt32}

/-! ## Asking -/

/-- The process is in the process table, the sleep queue is there, and the only message
that the process may have is that of `arp_in`. -/
structure Poised (me : Int) (t : State) : Prop where
  alive : ¬ isbadpid (kernelOf t) me
  sleepq : ¬ isbadqid (kernelOf t).sleepq
  mail : mailbox (kernelOf t) me = [] ∨ mailbox (kernelOf t) me = [ok]

/-- What a process has received that goes on in `arp_resolve`. -/
structure Obtained (me : Int) (msg : Int) (t t' : State) : Prop where
  cache : t'.arpcache = t.arpcache
  netData : t'.netData = t.netData
  took : Took me (kernelOf t) (kernelOf t')
  msg : msg = timeout ∧ mailbox (kernelOf t) me = [] ∨ msg = ok ∧ mailbox (kernelOf t) me = [ok]

/-- The guarantee of `arp_resolve` where it waits. -/
def Asks (me : Int) (t t' : State) : Prop :=
  Poised me t → ¬ Fresh (kernelOf t') me ∧ Still t t'

/-- The guarantee of the loop of `arp_resolve` at its end. -/
def Hears (me : Int) (msg : Int) (t t' : State) : Prop :=
  (kernelOf t').currpid = me ∧ (Poised me t → Obtained me msg t t')

/-- A turn of the loop of `arp_resolve`, once it has sent the request. -/
def arpListen (apkt : Arppacket) (n : Nat) : NetM Int := do
  let msg := i32 (← onKernel (recvtime arpTimeout))
  if msg = timeout then arpAwait apkt n msg else return msg

theorem arpAwait_succ (apkt : Arppacket) (n : Nat) (msg : Int) :
    arpAwait apkt (n + 1) msg = (ethwrite (.arp apkt) 42 >>= fun _ => arpListen apkt n) :=
  rfl

theorem Still.took (h : Still base t) (htook : Took me (kernelOf t) (kernelOf t')) :
    Took me (kernelOf base) (kernelOf t') := by
  refine ⟨?_, fun p => trans_of (Outlives p) (h.calm.outlives p) (htook.outlives p)⟩
  intro p
  rw [htook.mail p, mailbox_congr (congrFun h.calm.mail p)]

/-- What a turn of the loop makes of the message. -/
theorem listen_of_answers {n : Nat} {apkt : Arppacket} {v : Int}
    (hrest : ∀ t' msg, (kernelOf t').currpid = me → (n = 0 → msg = timeout) →
      (Poised me base → Still base t' ∧ (n = 0 → mailbox (kernelOf base) me = [])) →
      (arpAwait apkt n msg t').Stretches (fun t => (kernelOf t).currpid = me) (Asks me) (Hears me)
        base)
    (hbase : Poised me base → Still base t)
    (h : Answers me v (kernelOf t) (kernelOf t') ∧ t' = withKernel t (kernelOf t')) :
    ((if i32 v = timeout then arpAwait apkt n (i32 v) else pure (i32 v) : NetM Int) t').Stretches
      (fun t => (kernelOf t).currpid = me) (Asks me) (Hears me) base := by
  obtain ⟨⟨hcur, hanswers⟩, ht'⟩ := h
  have hok : i32 ok ≠ timeout := by decide
  have hmail : Poised me base → mailbox (kernelOf t) me = mailbox (kernelOf base) me := fun hp =>
    mailbox_congr (congrFun (hbase hp).calm.mail me)
  split
  · next htimeout =>
      apply hrest t' _ hcur fun _ => htimeout
      intro hpoised
      rcases hanswers with ⟨hmsg, -⟩ | ⟨hempty, hcalm, -⟩
      · rw [hmail hpoised] at hmsg
        rcases hpoised.mail with hnone | hsome
        · rw [hnone] at hmsg
          contradiction
        · obtain rfl : v = ok := by
            rw [hsome] at hmsg
            simpa using hmsg.symm
          exact (hok htimeout).elim
      · rw [hmail hpoised] at hempty
        refine ⟨trans_of Still (hbase hpoised) ?_, fun _ => hempty⟩
        rw [ht']
        exact still_withKernel hcalm
  · next htimeout =>
      refine ⟨hcur, ?_⟩
      intro hpoised
      have hstill := hbase hpoised
      have hcache : t'.arpcache = base.arpcache := by
        rw [ht']
        exact hstill.cache
      have hdata : t'.netData = base.netData := by
        rw [ht']
        exact hstill.netData
      rcases hanswers with ⟨hmsg, htook⟩ | ⟨hempty, hcalm, hv⟩
      · rw [hmail hpoised] at hmsg
        refine ⟨hcache, hdata, hstill.took htook, ?_⟩
        rcases hpoised.mail with hnone | hsome
        · rw [hnone] at hmsg
          contradiction
        · obtain rfl : v = ok := by
            rw [hsome] at hmsg
            simpa using hmsg.symm
          exact Or.inr ⟨rfl, hsome⟩
      · rcases hv with rfl | ⟨-, hbad | hbad⟩
        · exact (htimeout rfl).elim
        · rw [(hstill.calm.outlives me).sleepq] at hbad
          exact (hpoised.sleepq hbad).elim
        · exact (hpoised.alive ((hstill.calm.outlives me).isbadpid hbad)).elim

/-- What the loop of `arp_resolve` returns. -/
theorem arpAwait_stretches (apkt : Arppacket) (n : Nat) (msg : Int)
    (ht : (kernelOf t).currpid = me) (hmsg : n = 0 → msg = timeout)
    (hbase : Poised me base → Still base t ∧ (n = 0 → mailbox (kernelOf base) me = [])) :
    (arpAwait apkt n msg t).Stretches (fun t => (kernelOf t).currpid = me) (Asks me) (Hears me)
      base := by
  induction n generalizing t base msg with
  | zero =>
      refine ⟨ht, ?_⟩
      intro hpoised
      obtain ⟨hstill, hempty⟩ := hbase hpoised
      exact ⟨hstill.cache, hstill.netData, took_of_empty (hempty rfl) hstill.calm,
        Or.inl ⟨hmsg rfl, hempty rfl⟩⟩
  | succ n ih =>
      have hlisten : ∀ base t, (kernelOf t).currpid = me → (Poised me base → Still base t) →
          (arpListen apkt n t).Stretches (fun t => (kernelOf t).currpid = me) (Asks me) (Hears me)
            base := by
        intro base t ht hbase
        apply (onKernel_stretches (recvtime_stretches (by decide) ht)).bind
        · intro t' h hpoised
          refine ⟨h.1.1, trans_of Still (hbase hpoised) ?_⟩
          rw [h.2]
          exact still_withKernel h.1.2.2
        · exact fun v t' h => listen_of_answers (fun t' msg => ih msg) hbase h
        · intro t₁ t' _ h _
          refine ⟨h.1.1, ?_⟩
          rw [h.2]
          exact still_withKernel h.1.2.2
        · exact fun v t₁ t' _ h =>
            listen_of_answers (fun t' msg => ih msg) (fun _ => refl_of Still t₁) h
      rw [arpAwait_succ]
      apply (ethwrite_still (.arp apkt) 42 ht).bind
      · intro t₁ h hpoised
        exact ⟨h.1, trans_of Still (hbase hpoised).1 h.2⟩
      · intro _ t₁ h
        exact hlisten base t₁ h.1 fun hpoised => trans_of Still (hbase hpoised).1 h.2
      · exact fun t₁ t₂ _ h _ => h
      · exact fun _ t₁ t₂ _ h => hlisten t₁ t₂ h.1 fun _ => h.2

/-! ## Answering -/

/-- What `arp_resolve` leaves behind when it returns `v`, after it has waited with its
entry in slot `slot`. -/
structure Resolved (me : Int) (slot : Nat) (v : Int) (t t' : State) : Prop where
  netData : t'.netData = t.netData
  took : Took me (kernelOf t) (kernelOf t')
  result :
    v = timeout ∧ mailbox (kernelOf t) me = [] ∧
      t'.arpcache = update t.arpcache slot { t.arpcache slot with arstate := .arFree } ∨
    v = ok ∧ mailbox (kernelOf t) me = [ok] ∧ t'.arpcache = t.arpcache ∧
      (t'.vars me).mac = (t.arpcache slot).arhaddr

/-- The caller of `arp_resolve` gets its results. -/
def storeMac (r : Int × Option Mac) : NetM Int := do
  if let some mac := r.2 then
    setVars fun v => { v with mac := mac }
  return r.1

theorem exec_arpResolve (nxthop : UInt32) :
    ArpCall.exec (.arpResolve nxthop) = (Net.arpResolve nxthop >>= storeMac) :=
  rfl

theorem answer_resolved {mask : Bool} {msg : Int} (h : Hears me msg base t) :
    ∃ v t', (arpAnswer slot mask msg t).bind storeMac = .done v t' ∧ (kernelOf t').currpid = me ∧
      (Poised me base → Resolved me slot v base t') := by
  obtain ⟨hcur, hreceived⟩ := h
  have hne : timeout ≠ syserr := by decide
  have hne' : ok ≠ syserr := by decide
  have hne'' : ok ≠ timeout := by decide
  by_cases herr : msg = syserr
  · refine ⟨syserr, withMask t mask, by simp [arpAnswer, storeMac, herr], by simpa using hcur, ?_⟩
    intro hpoised
    rcases (hreceived hpoised).msg with ⟨hmsg, -⟩ | ⟨hmsg, -⟩
    · exact (hne (hmsg.symm.trans herr)).elim
    · exact (hne' (hmsg.symm.trans herr)).elim
  by_cases htimeout : msg = timeout
  · obtain ⟨t₁, ht₁⟩ : ∃ t₁, { t with
        arpcache := update t.arpcache slot { t.arpcache slot with arstate := .arFree } } = t₁ :=
      ⟨_, rfl⟩
    have hkernel : kernelOf t₁ = kernelOf t := by rw [← ht₁]; rfl
    have hrun : (arpAnswer slot mask msg t).bind storeMac = .done timeout (withMask t₁ mask) := by
      simp [arpAnswer, storeMac, setArp, htimeout, hne, ht₁]
    refine ⟨timeout, withMask t₁ mask, hrun, ?_, ?_⟩
    · rw [kernelOf_withMask, hkernel]
      exact hcur
    · intro hpoised
      have hr := hreceived hpoised
      have hempty : mailbox (kernelOf base) me = [] := by
        rcases hr.msg with ⟨-, hempty⟩ | ⟨hmsg, -⟩
        · exact hempty
        · exact (hne'' (hmsg.symm.trans htimeout)).elim
      refine ⟨?_, ?_, Or.inl ⟨rfl, hempty, ?_⟩⟩
      · rw [← hr.netData, show t.netData = t₁.netData by rw [← ht₁]]
        rfl
      · rw [kernelOf_withMask, hkernel]
        exact hr.took
      · rw [← hr.cache]
        rw [← ht₁]
        rfl
  · obtain ⟨t₁, ht₁⟩ : ∃ t₁, withMask t mask = t₁ := ⟨_, rfl⟩
    have hkernel : kernelOf t₁ = kernelOf t := by rw [← ht₁, kernelOf_withMask]
    obtain ⟨found, hfound⟩ : ∃ found : Vars,
        { t₁.vars (kernelOf t₁).currpid with mac := (t.arpcache slot).arhaddr } = found := ⟨_, rfl⟩
    obtain ⟨t₂, ht₂⟩ : ∃ t₂, { t₁ with vars := update t₁.vars (kernelOf t₁).currpid found } = t₂ :=
      ⟨_, rfl⟩
    have hrun : (arpAnswer slot mask msg t).bind storeMac = .done ok t₂ := by
      simp [arpAnswer, storeMac, setVars, herr, htimeout, ht₁, hfound, ht₂]
    refine ⟨ok, t₂, hrun, ?_, ?_⟩
    · rw [← ht₂]
      show (kernelOf t₁).currpid = me
      rw [hkernel]
      exact hcur
    · intro hpoised
      have hr := hreceived hpoised
      have hmail : mailbox (kernelOf base) me = [ok] := by
        rcases hr.msg with ⟨hmsg, -⟩ | ⟨-, hmail⟩
        · exact (htimeout hmsg).elim
        · exact hmail
      refine ⟨?_, ?_, Or.inr ⟨rfl, hmail, ?_, ?_⟩⟩
      · rw [← hr.netData, ← ht₂, ← ht₁]
        rfl
      · rw [show kernelOf t₂ = kernelOf t by rw [← hkernel, ← ht₂]; rfl]
        exact hr.took
      · rw [← hr.cache, ← ht₂, ← ht₁]
        rfl
      · rw [← hr.cache, ← ht₂]
        rw [show (kernelOf t₁).currpid = me by rw [hkernel]; exact hcur]
        show (update t₁.vars me found me).mac = _
        rw [update_self, ← hfound]

/-- What `arp_resolve` does once it has an entry: it clears its message, and then it
asks until it has one. -/
theorem arpAsk_stretches (nxthop : UInt32) (slot : Nat) (mask : Bool)
    (ht : (kernelOf t).currpid = me) :
    ∃ base, base.arpcache = t.arpcache ∧ base.netData = t.netData ∧
      Took me (kernelOf t) (kernelOf base) ∧
      ((arpAsk nxthop slot mask t).bind storeMac).Stretches (fun t => (kernelOf t).currpid = me)
        (Asks me) (fun v t t' => Poised me t → Resolved me slot v t t') base := by
  obtain ⟨v, s, hrun, hcur, htook⟩ := recvclr_took (kernelOf t)
  rw [ht] at hcur htook
  have hkernel : kernelOf (withKernel t s) = s := kernelOf_withKernel t s
  refine ⟨withKernel t s, rfl, rfl, by rwa [hkernel], ?_⟩
  have hclr : (onKernel recvclr : NetM Int) t = .done v (withKernel t s) := by
    have hrun' : recvclr (HasCpu.cpu t).kernel = .done v s := hrun
    simp only [onKernel, onCpu, Coop.run_zoom, hrun', Flow.zoom_done]
    rfl
  have hask : arpAsk nxthop slot mask t =
      (arpAwait (arpRequest t.netData nxthop) arpRetry (i32 v) (withKernel t s)).bind
        (arpAnswer slot mask) := by
    simp only [arpAsk, Coop.run_bind, Coop.run_get, Flow.bind_done, hclr]
  rw [hask, Flow.bind_assoc]
  have hcur' : (kernelOf (withKernel t s)).currpid = me := by rw [hkernel]; exact hcur
  have hretry : arpRetry ≠ 0 := by decide
  apply (arpAwait_stretches (arpRequest t.netData nxthop) arpRetry (i32 v) hcur'
    (fun h => (hretry h).elim) fun _ => ⟨refl_of Still _, fun h => (hretry h).elim⟩).bind
  · exact fun _ h => h
  · intro msg t' h
    obtain ⟨v, t'', hrun, -, hres⟩ := answer_resolved h
    rw [hrun]
    exact hres
  · exact fun _ _ _ h => h
  · intro msg t₁ t' _ h
    obtain ⟨v, t'', hrun, -, hres⟩ := answer_resolved h
    rw [hrun]
    exact hres

/-! ## Segments -/

/-- The label of a suspended call: the slot of its entry and its address, if it is a
call of `arp_resolve` that waits. -/
abbrev Label := Option (Nat × UInt32)

/-- What a segment does that goes on in `arp_resolve` from state `base`, where the call
has its entry in slot `slot`. -/
def GoesOn (slot : Nat) (nxthop : UInt32) (base : State) (seg : Segment State ArpCall)
    (l' : Option Label) : Prop :=
  Poised seg.who base →
    (seg.outcome = .switched ∧ l' = some (some (slot, nxthop)) ∧
      ¬ Fresh (kernelOf seg.after) seg.who ∧ Still base seg.after) ∨
    ∃ v, seg.outcome = .returned v ∧ l' = none ∧ Resolved seg.who slot v base seg.after

/-- What the first segment of a call of `arp_resolve` does. -/
def Starts (nxthop : UInt32) (seg : Segment State ArpCall) (l' : Option Label) : Prop :=
  (l' = none ∧ Still seg.before seg.after ∧ ∃ v, seg.outcome = .returned v ∧
    (v = ok → nxthop = ipBcast ∨ nxthop = seg.before.netData.ipbcast ∨
      ∃ i, i < arpSiz ∧ (seg.before.arpcache i).arstate = .arResolved ∧
        (seg.before.arpcache i).arpaddr = nxthop ∧
        (seg.after.vars seg.who).mac = (seg.before.arpcache i).arhaddr)) ∨
  ∃ slot base, TakesOver seg.before slot (.arpResolve nxthop) ∧
    base.arpcache =
      update seg.before.arpcache slot (pendingEntry nxthop seg.who arpClear) ∧
    base.netData = seg.before.netData ∧ Took seg.who (kernelOf seg.before) (kernelOf base) ∧
    GoesOn slot nxthop base seg l'

/-- What a segment does whose call had the label `l` and gets the label `l'`. -/
def Effect (l : Option Label) (seg : Segment State ArpCall) (l' : Option Label) : Prop :=
  match seg.call with
  | .kernel c =>
      l'.join = none ∧ seg.after.arpcache = seg.before.arpcache ∧ MailOk (kernelSegment c seg) ∧
        ∀ p, Spares c p → Outlives p (kernelOf seg.before) (kernelOf seg.after)
  | .arpIn pkt buf =>
      l'.join = none ∧
        if seg.resumed then Still seg.before seg.after else Handled pkt buf seg.before seg.after
  | .arpResolve nxthop =>
      if seg.resumed then ∀ slot a, l = some (some (slot, a)) → GoesOn slot a seg.before seg l'
      else Starts nxthop seg l'

theorem kernel_traced (t : State) (c : KCall) :
    arpMachine.Traced Effect (.kernel c) (arpMachine.exec (.kernel c) t) none false t := by
  have hobeys := onKernel_obeys (N := arpMachine) (fun _ => rfl) ArpCall.kernel c t
  apply Machine.Traced.of_obeys (none : Label) hobeys
  rintro l ⟨who, call, b, t₁, o, t₂⟩ l' rfl ⟨⟨s, hafter⟩, hmail, hout⟩ hl
  refine ⟨?_, ?_, hmail, hout⟩
  · rcases hl with rfl | rfl
    · rfl
    · rfl
  · show t₂.arpcache = t₁.arpcache
    rw [show t₂ = withKernel t₁ s from hafter]
    rfl

theorem arpIn_traced (t : State) (pkt : Arppacket) (buf : Nat) :
    arpMachine.Traced Effect (.arpIn pkt buf) (arpMachine.exec (.arpIn pkt buf) t) none false t := by
  obtain ⟨t₁, hhandled, hwithin⟩ := arpIn_handles pkt buf t
  have hobeys : arpMachine.Obeys (fun seg => if seg.resumed then Still seg.before seg.after
      else Handled pkt buf seg.before seg.after) (.arpIn pkt buf)
      (arpMachine.exec (.arpIn pkt buf) t) false t := by
    have hall := hwithin.bind fun _ => (.pure ok : (pure ok : NetM Int).Within Still)
    apply Machine.obeys_within hall
    · exact fun s o h => hhandled.still h
    · exact fun s₁ s o h => h
  apply Machine.Traced.of_obeys (none : Label) hobeys
  rintro l ⟨who, call, b, t₁, o, t₂⟩ l' rfl h hl
  refine ⟨?_, h⟩
  rcases hl with rfl | rfl
  · rfl
  · rfl

theorem arpResolve_traced (t : State) (nxthop : UInt32) :
    arpMachine.Traced Effect (.arpResolve nxthop) (arpMachine.exec (.arpResolve nxthop) t) none
      false t := by
  have hbegun := arpResolve_begins nxthop t
  have hexec : arpMachine.exec (.arpResolve nxthop) t = (Net.arpResolve nxthop t).bind storeMac := rfl
  rw [hexec]
  generalize Net.arpResolve nxthop t = x at hbegun
  cases hbegun with
  | @refused t₁ h =>
      have hne : syserr ≠ ok := by decide
      exact Or.inl ⟨rfl, h, syserr, rfl, fun heq => (hne heq).elim⟩
  | @known t₁ mac h hkernel hmac =>
      obtain ⟨t₂, ht₂⟩ : ∃ t₂, { t₁ with
          vars := update t₁.vars (kernelOf t).currpid
            { t₁.vars (kernelOf t).currpid with mac := mac } } = t₂ := ⟨_, rfl⟩
      have hrun : (Flow.done (ok, some mac) t₁).bind storeMac = .done ok t₂ := by
        rw [← ht₂, ← hkernel]
        rfl
      have hstill : Still t t₂ := by
        rw [← ht₂]
        exact ⟨h.cache, h.netData, h.calm⟩
      rw [hrun]
      refine Or.inl ⟨rfl, hstill, ok, rfl, fun _ => ?_⟩
      rcases hmac with hlim | hnet | ⟨i, hi, hres, haddr, rfl⟩
      · exact Or.inl hlim
      · exact Or.inr (Or.inl hnet)
      · refine Or.inr (Or.inr ⟨i, hi, hres, haddr, ?_⟩)
        show (t₂.vars (kernelOf t).currpid).mac = _
        rw [← ht₂]
        simp
  | @asks t₁ slot mask htakes hcache hdata hkernel =>
      have hcur : (kernelOf t₁).currpid = (kernelOf t).currpid := by rw [hkernel]
      obtain ⟨base, hcache', hdata', htook, hstretches⟩ := arpAsk_stretches nxthop slot mask hcur
      rw [hkernel] at htook
      apply Machine.Traced.of_stretches (some (slot, nxthop)) (kernelOf t).currpid hstretches rfl
      · intro s h
        refine Or.inr ⟨slot, base, htakes, hcache'.trans hcache, hdata'.trans hdata, htook, ?_⟩
        exact fun hpoised => Or.inl ⟨rfl, rfl, h hpoised⟩
      · intro v s h
        refine Or.inr ⟨slot, base, htakes, hcache'.trans hcache, hdata'.trans hdata, htook, ?_⟩
        exact fun hpoised => Or.inr ⟨v, rfl, rfl, h hpoised⟩
      · rintro s₁ s - h slot' a heq
        obtain ⟨rfl, rfl⟩ : slot = slot' ∧ nxthop = a := by simpa using heq
        exact fun hpoised => Or.inl ⟨rfl, rfl, h hpoised⟩
      · rintro v s₁ s - h slot' a heq
        obtain ⟨rfl, rfl⟩ : slot = slot' ∧ nxthop = a := by simpa using heq
        exact fun hpoised => Or.inr ⟨v, rfl, rfl, h hpoised⟩

theorem arpCall_traced (t : State) (c : ArpCall) :
    arpMachine.Traced Effect c (arpMachine.exec c t) none false t := by
  cases c with
  | kernel c => exact kernel_traced t c
  | arpResolve nxthop => exact arpResolve_traced t nxthop
  | arpIn pkt buf => exact arpIn_traced t pkt buf

/-! ## Runs -/

/-- What a packet tells: an address, and the hardware address that belongs to it. -/
def tells : ArpCall → Option (UInt32 × Mac)
  | .arpIn pkt _ => some ((arpNtoh pkt).sndpa, pkt.sndha)
  | _ => none

/-- An ARP packet told that the hardware address belongs to the address. -/
def Heard (tr : List (Segment State ArpCall)) (addr : UInt32) (mac : Mac) : Prop :=
  ∃ seg ∈ tr, tells seg.call = some (addr, mac)

/-- The address that process `p` waits for in `arp_resolve`. -/
def asksFor (C : Config State ArpCall) (p : Int) : Option UInt32 :=
  match C.pending p with
  | some (.arpResolve nxthop, _) => some nxthop
  | _ => none

/-- The call takes no entry away from a process that waits for its address. -/
def Unhurried (C : Config State ArpCall) (c : ArpCall) : Prop :=
  ∀ slot, TakesOver C.state slot c → (C.state.arpcache slot).arstate = .arResolved →
    asksFor C (C.state.arpcache slot).arpid ≠ some (C.state.arpcache slot).arpaddr

/-- Nobody but `arp_in` interferes with a process that waits in `arp_resolve`: it gets
no other message, it is not killed, and its entry is not taken away.  The callers of
`arp_resolve` are in the process table. -/
def LeftAlone (C : Config State ArpCall) (seg : Segment State ArpCall) : Prop :=
  match seg.call with
  | .kernel (.send pid _) =>
      asksFor C pid.toInt ≠ none → seg.resumed = true ∨ ¬ Accepts (kernelOf seg.before) pid.toInt
  | .kernel (.kill pid) =>
      asksFor C pid.toInt = none ∧ ∀ parent, parent = ((kernelOf seg.before).proctab pid.toInt).prparent →
        asksFor C parent ≠ none → seg.resumed = true ∨
          ¬ (Notifies (kernelOf seg.before) pid.toInt parent ∧ Accepts (kernelOf seg.before) parent)
  | .kernel _ => True
  | .arpIn _ _ => seg.resumed = false → Unhurried C seg.call
  | .arpResolve _ =>
      ¬ isbadpid (kernelOf seg.before) seg.who ∧ (seg.resumed = false → Unhurried C seg.call)

/-- Process `p` waits in `arp_resolve` for address `a`, with its entry in slot `i`. -/
structure Asking (t : State) (p : Int) (i : Nat) (a : UInt32) : Prop where
  alive : ¬ isbadpid (kernelOf t) p
  saved : ¬ Fresh (kernelOf t) p
  lt : i < arpSiz
  addr : (t.arpcache i).arpaddr = a
  pid : (t.arpcache i).arpid = p
  mail : (t.arpcache i).arstate = .arPending ∧ mailbox (kernelOf t) p = [] ∨
    (t.arpcache i).arstate = .arResolved ∧ mailbox (kernelOf t) p = [ok]

/-- What a call of `arp_resolve` returns that ends with the segment, after the history
`tr`. -/
def Answered (tr : List (Segment State ArpCall)) (seg : Segment State ArpCall) : Prop :=
  ∀ a v, seg.call = .arpResolve a → seg.outcome = .returned v →
    (v = ok → a ≠ ipBcast → a ≠ seg.before.netData.ipbcast →
      Heard tr a (seg.after.vars seg.who).mac) ∧
    ∀ i, i < arpSiz → (seg.after.arpcache i).arstate = .arPending →
      (seg.after.arpcache i).arpid ≠ seg.who

/-- The invariant of the runs in which waiting processes are left alone. -/
structure Answering (tr : List (Segment State ArpCall)) (C : Config State ArpCall)
    (lbl : Int → Option Label) : Prop where
  sleepq : ¬ isbadqid (kernelOf C.state).sleepq
  pending : ∀ i, i < arpSiz → (C.state.arpcache i).arstate = .arPending →
    lbl (C.state.arpcache i).arpid = some (some (i, (C.state.arpcache i).arpaddr))
  asking : ∀ p i a, lbl p = some (some (i, a)) → Asking C.state p i a ∧ asksFor C p = some a
  labelled : ∀ p a, asksFor C p = some a → ∃ i, lbl p = some (some (i, a))
  resolved : ∀ i, i < arpSiz → (C.state.arpcache i).arstate = .arResolved →
    Heard tr (C.state.arpcache i).arpaddr (C.state.arpcache i).arhaddr
  answered : ∀ pre seg post, tr = pre ++ seg :: post → Answered pre seg

section Steps

variable {tr : List (Segment State ArpCall)} {C C' : Config State ArpCall}
variable {lbl : Int → Option Label} {seg : Segment State ArpCall} {l : Option Label}

theorem Heard.snoc {addr : UInt32} {mac : Mac} (h : Heard tr addr mac) :
    Heard (tr ++ [seg]) addr mac := by
  obtain ⟨seg', hmem, htells⟩ := h
  exact ⟨seg', List.mem_append_left _ hmem, htells⟩

theorem pending_of_asksFor {p : Int} {a : UInt32} (h : asksFor C p = some a) :
    ∃ k, C.pending p = some (.arpResolve a, k) := by
  unfold asksFor at h
  split at h
  · next a' k hk =>
      obtain rfl : a' = a := by simpa using h
      exact ⟨k, hk⟩
  · contradiction

/-- One segment more: what is to be shown of the entries and of the processes. -/
theorem Answering.snoc (h : Answering tr C lbl) (hstep : arpMachine.Step C seg C')
    (hsleepq : (kernelOf seg.after).sleepq = (kernelOf seg.before).sleepq)
    (hothers : ∀ q j b, q ≠ seg.who → lbl q = some (some (j, b)) → Asking seg.after q j b)
    (hwho : ∀ i a, l = some (some (i, a)) → Asking seg.after seg.who i a ∧
      seg.call = .arpResolve a ∧ seg.outcome = .switched)
    (hpending : ∀ i, i < arpSiz → (seg.after.arpcache i).arstate = .arPending →
      (seg.before.arpcache i).arstate = .arPending ∧
        Kept (seg.before.arpcache i) (seg.after.arpcache i) ∧
        (seg.after.arpcache i).arpid ≠ seg.who ∨
      l = some (some (i, (seg.after.arpcache i).arpaddr)) ∧
        (seg.after.arpcache i).arpid = seg.who)
    (hlabel : ∀ a, seg.call = .arpResolve a → seg.outcome = .switched →
      ∃ i, l = some (some (i, a)))
    (hreturned : ∀ a v, seg.call = .arpResolve a → seg.outcome = .returned v → l = none)
    (hresolved : ∀ i, i < arpSiz → (seg.after.arpcache i).arstate = .arResolved →
      (seg.before.arpcache i).arstate = .arResolved ∧
        (seg.after.arpcache i).arpaddr = (seg.before.arpcache i).arpaddr ∧
        (seg.after.arpcache i).arhaddr = (seg.before.arpcache i).arhaddr ∨
      tells seg.call = some ((seg.after.arpcache i).arpaddr, (seg.after.arpcache i).arhaddr))
    (hanswer : ∀ a, seg.call = .arpResolve a → seg.outcome = .returned ok → a ≠ ipBcast →
      a ≠ seg.before.netData.ipbcast → ∃ i, i < arpSiz ∧
        (seg.before.arpcache i).arstate = .arResolved ∧ (seg.before.arpcache i).arpaddr = a ∧
        (seg.after.vars seg.who).mac = (seg.before.arpcache i).arhaddr) :
    Answering (tr ++ [seg]) C' (arpMachine.keep seg.after (update lbl seg.who l)) := by
  obtain ⟨hbefore, hafter, -⟩ := hstep.segment
  have hfresh : ∀ {p}, ¬ Fresh (kernelOf seg.after) p → arpMachine.fresh seg.after p = false :=
    fun hnot => decide_eq_false hnot
  have hkeep : ∀ {p}, ¬ Fresh (kernelOf seg.after) p →
      arpMachine.keep seg.after (update lbl seg.who l) p = update lbl seg.who l p := by
    intro p hnot
    unfold Machine.keep
    rw [hfresh hnot]
    rfl
  constructor
  · rw [← hafter, hsleepq, hbefore]
    exact h.sleepq
  · intro i hi hpend
    rw [← hafter] at hpend ⊢
    rcases hpending i hi hpend with ⟨hpend', ⟨haddr, hpid⟩, hne⟩ | ⟨hl, hpid⟩
    · rw [hbefore] at hpend' haddr hpid
      have hlbl := h.pending i hi hpend'
      rw [← hpid] at hlbl
      rw [hkeep (hothers _ _ _ hne hlbl).saved, update_of_ne hne, hlbl, haddr]
    · rw [hpid, hkeep (hwho _ _ hl).1.saved, update_self]
      exact hl
  · intro p i a hlbl
    have hnot : ¬ Fresh (kernelOf seg.after) p := by
      intro hf
      unfold Machine.keep at hlbl
      rw [if_pos (show arpMachine.fresh seg.after p = true from decide_eq_true hf)] at hlbl
      contradiction
    rw [hkeep hnot] at hlbl
    rw [← hafter]
    by_cases hp : p = seg.who
    · subst hp
      rw [update_self] at hlbl
      obtain ⟨hasking, hcall, hout⟩ := hwho i a hlbl
      obtain ⟨k, hk⟩ := hstep.suspends hout (hfresh hasking.saved)
      refine ⟨hasking, ?_⟩
      unfold asksFor
      rw [hk, hcall]
    · rw [update_of_ne hp] at hlbl
      refine ⟨hothers p i a hp hlbl, ?_⟩
      unfold asksFor
      rw [hstep.keeps_pending hp (hfresh hnot)]
      exact (h.asking p i a hlbl).2
  · intro p a hasks
    obtain ⟨k, hk⟩ := pending_of_asksFor hasks
    obtain ⟨hnot, hcase⟩ := hstep.pending hk
    have hnot' : ¬ Fresh (kernelOf seg.after) p := of_decide_eq_false hnot
    rw [hkeep hnot']
    rcases hcase with ⟨rfl, hout, hcall⟩ | ⟨hne, hk'⟩
    · rw [update_self]
      exact hlabel a hcall.symm hout
    · rw [update_of_ne hne]
      apply h.labelled
      unfold asksFor
      rw [hk']
  · intro i hi hres
    rw [← hafter] at hres ⊢
    rcases hresolved i hi hres with ⟨hres', haddr, hmac⟩ | htells
    · rw [hbefore] at hres' haddr hmac
      rw [haddr, hmac]
      exact (h.resolved i hi hres').snoc
    · exact ⟨seg, by simp, htells⟩
  · intro pre seg' post heq
    rcases List.eq_nil_or_concat post with rfl | ⟨post', last, rfl⟩
    · obtain ⟨rfl, hlast⟩ := List.append_inj' heq rfl
      obtain rfl : seg = seg' := by simpa using hlast
      intro a v hcall hout
      refine ⟨?_, ?_⟩
      · rintro rfl hlim hnet
        obtain ⟨i, hi, hres, haddr, hmac⟩ := hanswer a hcall hout hlim hnet
        rw [hbefore] at hres haddr hmac
        rw [hmac, ← haddr]
        exact h.resolved i hi hres
      · intro i hi hpend hpid
        rcases hpending i hi hpend with ⟨-, -, hne⟩ | ⟨hl, -⟩
        · exact hne hpid
        · rw [hreturned a v hcall hout] at hl
          contradiction
    · have heq' : tr ++ [seg] = pre ++ seg' :: post' ++ [last] := by simpa using heq
      obtain ⟨htr, -⟩ := List.append_inj' heq' rfl
      exact h.answered pre seg' post' htr

/-- A process that goes on waiting, and its entry. -/
theorem Asking.bystander {q : Int} {j : Nat} {b : UInt32} (h : Asking t q j b)
    (hout : Outlives q (kernelOf t) (kernelOf t')) (hentry : t'.arpcache j = t.arpcache j)
    (hmail : mailbox (kernelOf t') q = mailbox (kernelOf t) q) : Asking t' q j b := by
  refine ⟨fun hbad => h.alive (hout.isbadpid hbad), ?_, h.lt, ?_, ?_, ?_⟩
  · exact hout.saved (fun hfree => h.alive (Or.inr (Or.inr hfree))) h.saved
  · rw [hentry]
    exact h.addr
  · rw [hentry]
    exact h.pid
  · rw [hentry, hmail]
    exact h.mail

theorem Still.bystander (h : Still t t') {q : Int} {j : Nat} {b : UInt32} (hask : Asking t q j b) :
    Asking t' q j b :=
  hask.bystander (h.calm.outlives q) (congrFun h.cache j) (mailbox_congr (congrFun h.calm.mail q))

/-- The process of a segment that waits in `arp_resolve` goes on with that call. -/
theorem Answering.resumes (h : Answering tr C lbl) (hstep : arpMachine.Step C seg C') {i : Nat}
    {a : UInt32} (hlbl : lbl seg.who = some (some (i, a))) :
    seg.call = .arpResolve a ∧ seg.resumed = true := by
  obtain ⟨k, hk⟩ := pending_of_asksFor (h.asking _ _ _ hlbl).2
  cases hres : seg.resumed with
  | false =>
      rw [hstep.started hres] at hk
      contradiction
  | true =>
      obtain ⟨k', hk'⟩ := hstep.resumed hres
      rw [hk, Option.some.injEq, Prod.mk.injEq] at hk'
      exact ⟨hk'.1.symm, rfl⟩

/-- A pending entry belongs to a process other than one that does not wait. -/
theorem Answering.pending_ne (h : Answering tr C lbl)
    (hwho : ∀ i a, lbl seg.who ≠ some (some (i, a))) {i : Nat} (hi : i < arpSiz)
    (hpend : (C.state.arpcache i).arstate = .arPending) : (C.state.arpcache i).arpid ≠ seg.who := by
  intro heq
  have hlbl := h.pending i hi hpend
  rw [heq] at hlbl
  exact hwho _ _ hlbl

theorem TakesOver.victim {c : ArpCall} (h : TakesOver t slot c) :
    Net.victim t.arpcache = some slot := by
  cases c with
  | kernel c => exact h.elim
  | arpResolve nxthop => exact h.2.2.2
  | arpIn pkt buf => exact h.2.2.2.2

/-- The slot that is taken over is not that of a process that waits. -/
theorem Answering.spared (h : Answering tr C lbl) {c : ArpCall} (hun : Unhurried C c)
    (htakes : TakesOver C.state slot c) {q : Int} {j : Nat} {b : UInt32}
    (hlbl : lbl q = some (some (j, b))) : j ≠ slot := by
  rintro rfl
  obtain ⟨hask, hfor⟩ := h.asking q j b hlbl
  rcases hask.mail with ⟨hpend, -⟩ | ⟨hres, -⟩
  · exact (victim_some htakes.victim).2 hpend
  · apply hun j htakes hres
    rw [hask.pid, hask.addr]
    exact hfor

/-- A segment of a process that does not wait, which leaves the cache alone. -/
theorem Answering.quiet (h : Answering tr C lbl) (hstep : arpMachine.Step C seg C')
    (hwho : ∀ i a, lbl seg.who ≠ some (some (i, a)))
    (hcache : seg.after.arpcache = seg.before.arpcache)
    (hsleepq : (kernelOf seg.after).sleepq = (kernelOf seg.before).sleepq)
    (hothers : ∀ q j b, q ≠ seg.who → lbl q = some (some (j, b)) → Asking seg.after q j b)
    (hl : l.join = none) (hlabel : ∀ a, seg.call = .arpResolve a → seg.outcome ≠ .switched)
    (hreturned : ∀ a v, seg.call = .arpResolve a → seg.outcome = .returned v → l = none)
    (hanswer : ∀ a, seg.call = .arpResolve a → seg.outcome = .returned ok → a ≠ ipBcast →
      a ≠ seg.before.netData.ipbcast → ∃ i, i < arpSiz ∧
        (seg.before.arpcache i).arstate = .arResolved ∧ (seg.before.arpcache i).arpaddr = a ∧
        (seg.after.vars seg.who).mac = (seg.before.arpcache i).arhaddr) :
    Answering (tr ++ [seg]) C' (arpMachine.keep seg.after (update lbl seg.who l)) := by
  apply h.snoc hstep hsleepq hothers
  · intro i a heq
    rw [heq] at hl
    contradiction
  · intro i hi hpend
    left
    rw [hcache] at hpend ⊢
    refine ⟨hpend, ⟨rfl, rfl⟩, ?_⟩
    rw [hstep.segment.1] at hpend ⊢
    exact h.pending_ne hwho hi hpend
  · exact fun a hcall hout => (hlabel a hcall hout).elim
  · exact hreturned
  · intro i hi hres
    rw [hcache] at hres ⊢
    exact Or.inl ⟨hres, rfl, rfl⟩
  · exact hanswer

/-- The messages that a call of the kernel passes to a process that waits. -/
theorem LeftAlone.passed {c : KCall} {p : Int} (h : LeftAlone C seg) (hcall : seg.call = .kernel c)
    (hasks : asksFor C p ≠ none) : Spares c p ∧ passed p (kernelSegment c seg) = [] := by
  unfold LeftAlone at h
  rw [hcall] at h
  cases c with
  | send pid msg =>
      refine ⟨nofun, if_neg ?_⟩
      rintro ⟨hfirst, rfl, hacc⟩
      rcases h hasks with hres | hacc'
      · have hfirst' : seg.resumed = false := hfirst
        rw [hres] at hfirst'
        contradiction
      · exact hacc' hacc
  | kill pid =>
      refine ⟨?_, if_neg ?_⟩
      · rintro pid' heq rfl
        obtain rfl : pid = pid' := by simpa using heq
        exact hasks h.1
      · rintro ⟨hfirst, hnotifies, hacc⟩
        rcases h.2 p hnotifies.2.2.symm hasks with hres | hnot
        · have hfirst' : seg.resumed = false := hfirst
          rw [hres] at hfirst'
          contradiction
        · exact hnot ⟨hnotifies, hacc⟩
  | _ => exact ⟨nofun, rfl⟩

/-- There is a process that the call does not kill. -/
theorem exists_spares (c : KCall) : ∃ p, Spares c p := by
  cases c with
  | kill pid =>
      refine ⟨pid.toInt + 1, ?_⟩
      intro pid' heq
      obtain rfl : pid = pid' := by simpa using heq
      omega
  | _ => exact ⟨0, nofun⟩

theorem Answering.kernelCall {c : KCall} (h : Answering tr C lbl) (hstep : arpMachine.Step C seg C')
    (hrule : LeftAlone C seg) (hcall : seg.call = .kernel c) (hR : Effect (lbl seg.who) seg l) :
    Answering (tr ++ [seg]) C' (arpMachine.keep seg.after (update lbl seg.who l)) := by
  obtain ⟨hbefore, -, -⟩ := hstep.segment
  have hnot : ∀ a, seg.call ≠ .arpResolve a := by
    intro a heq
    rw [hcall] at heq
    contradiction
  have hwho : ∀ i a, lbl seg.who ≠ some (some (i, a)) := fun i a hlbl =>
    hnot a (h.resumes hstep hlbl).1
  unfold Effect at hR
  rw [hcall] at hR
  obtain ⟨hl, hcache, hmail, hout⟩ := hR
  apply h.quiet hstep hwho hcache _ _ hl
  · exact fun a heq => (hnot a heq).elim
  · exact fun a v heq => (hnot a heq).elim
  · exact fun a heq => (hnot a heq).elim
  · obtain ⟨p, hp⟩ := exists_spares c
    exact (hout p hp).sleepq
  · intro q j b hne hlbl
    obtain ⟨hask, hfor⟩ := h.asking q j b hlbl
    rw [← hbefore] at hask
    obtain ⟨hspares, hpassed⟩ := hrule.passed hcall (by rw [hfor]; simp)
    apply hask.bystander (hout q hspares) (congrFun hcache j)
    have hbalance := hmail.balance q fun hfree => hask.alive (Or.inr (Or.inr hfree))
    rw [hpassed, taken_of_other (Ne.symm hne), List.append_nil, List.nil_append] at hbalance
    exact hbalance.symm

theorem updatedEntry_ne_pending (pkt : Arppacket) (e : Arpentry) :
    (updatedEntry pkt e).arstate ≠ .arPending := by
  unfold updatedEntry
  dsimp only
  split
  · simp
  · assumption

/-- A process that waits gets `OK` when its entry is resolved. -/
theorem Answering.updated {pkt : Arppacket} (h : Answering tr C lbl) (hlt : slot < arpSiz)
    (hcache : t.arpcache =
      update C.state.arpcache slot (updatedEntry pkt (C.state.arpcache slot)))
    (hcalm : Calm (if (C.state.arpcache slot).arstate = .arPending then
      sent (kernelOf C.state) (C.state.arpcache slot).arpid ok else kernelOf C.state) (kernelOf t))
    {q : Int} {j : Nat} {b : UInt32} (hlbl : lbl q = some (some (j, b))) : Asking t q j b := by
  obtain ⟨hask, -⟩ := h.asking q j b hlbl
  have hout := outlives_of_sent hcalm q
  have hmail := mailbox_congr (congrFun hcalm.mail q)
  have halive : ¬ isbadpid (kernelOf t) q := fun hbad => hask.alive (hout.isbadpid hbad)
  have hsaved : ¬ Fresh (kernelOf t) q :=
    hout.saved (fun hfree => hask.alive (Or.inr (Or.inr hfree))) hask.saved
  by_cases hj : j = slot
  · subst hj
    have hentry : t.arpcache j = updatedEntry pkt (C.state.arpcache j) := by
      rw [hcache, update_self]
    refine ⟨halive, hsaved, hask.lt, by rw [hentry]; exact hask.addr, by rw [hentry]; exact hask.pid,
      Or.inr ⟨?_, ?_⟩⟩
    · rw [hentry]
      unfold updatedEntry
      rcases hask.mail with ⟨hst, -⟩ | ⟨hst, -⟩
      · simp [hst]
      · simp [hst]
    · rw [hmail]
      rcases hask.mail with ⟨hst, hempty⟩ | ⟨hst, hok⟩
      · have hacc : Accepts (kernelOf C.state) q := ⟨hask.alive, mailbox_eq_nil.mp hempty⟩
        rw [if_pos hst, hask.pid, mailbox_sent, if_pos ⟨hacc, rfl⟩]
      · rw [if_neg (by rw [hst]; simp)]
        exact hok
  · apply hask.bystander hout
    · rw [hcache, update_of_ne hj]
    · rw [hmail]
      split
      · next hst =>
          rw [mailbox_sent, if_neg]
          rintro ⟨-, rfl⟩
          have hlbl' := h.pending slot hlt hst
          rw [hlbl] at hlbl'
          exact hj (by simpa using congrArg (fun x => x.join.map Prod.fst) hlbl')
      · rfl

theorem Answering.packet {pkt : Arppacket} {buf : Nat} (h : Answering tr C lbl)
    (hstep : arpMachine.Step C seg C') (hrule : LeftAlone C seg) (hcall : seg.call = .arpIn pkt buf)
    (hR : Effect (lbl seg.who) seg l) :
    Answering (tr ++ [seg]) C' (arpMachine.keep seg.after (update lbl seg.who l)) := by
  obtain ⟨hbefore, -, -⟩ := hstep.segment
  have hnot : ∀ a, seg.call ≠ .arpResolve a := by
    intro a heq
    rw [hcall] at heq
    contradiction
  have hwho : ∀ i a, lbl seg.who ≠ some (some (i, a)) := fun i a hlbl =>
    hnot a (h.resumes hstep hlbl).1
  have hstill : Still seg.before seg.after → l.join = none →
      Answering (tr ++ [seg]) C' (arpMachine.keep seg.after (update lbl seg.who l)) := by
    intro hs hl
    apply h.quiet hstep hwho hs.cache (hs.calm.outlives 0).sleepq _ hl
    · exact fun a heq => (hnot a heq).elim
    · exact fun a v heq => (hnot a heq).elim
    · exact fun a heq => (hnot a heq).elim
    · intro q j b _ hlbl
      exact hs.bystander (hbefore ▸ (h.asking q j b hlbl).1)
  unfold Effect at hR
  rw [hcall] at hR
  obtain ⟨hl, hR⟩ := hR
  have hl' : ∀ i a, l ≠ some (some (i, a)) := by
    rintro i a rfl
    contradiction
  cases hres : seg.resumed with
  | true => exact hstill (by rwa [hres] at hR) hl
  | false =>
      rw [hres] at hR
      cases hR with
      | ignored hs => exact hstill hs hl
      | updated slot hfind hcache hcalm =>
          obtain ⟨hlt, huse, haddr⟩ := arpFind_some hfind
          rw [hbefore] at hcache hcalm haddr huse
          apply h.snoc hstep
          · rw [hbefore]
            exact (outlives_of_sent hcalm 0).sleepq
          · exact fun q j b _ hlbl => h.updated hlt hcache hcalm hlbl
          · exact fun i a heq => (hl' i a heq).elim
          · intro i hi hpend
            left
            have hslot : i ≠ slot := by
              rintro rfl
              rw [hcache, update_self] at hpend
              exact updatedEntry_ne_pending _ _ hpend
            rw [hcache, update_of_ne hslot] at hpend ⊢
            rw [hbefore]
            exact ⟨hpend, ⟨rfl, rfl⟩, h.pending_ne hwho hi hpend⟩
          · exact fun a heq => (hnot a heq).elim
          · exact fun a v heq => (hnot a heq).elim
          · intro i hi hst
            by_cases hslot : i = slot
            · subst hslot
              right
              rw [hcall, hcache, update_self]
              show some (_, _) = _
              rw [← haddr]
              rfl
            · left
              rw [hcache, update_of_ne hslot] at hst ⊢
              rw [hbefore]
              exact ⟨hst, rfl, rfl⟩
          · exact fun a heq => (hnot a heq).elim
      | added slot htakes hcache hcalm =>
          have hun : Unhurried C seg.call := by
            unfold LeftAlone at hrule
            rw [hcall] at hrule ⊢
            exact hrule hres
          rw [hbefore] at htakes hcache hcalm
          rw [← hcall] at htakes
          apply h.snoc hstep
          · rw [hbefore]
            exact (hcalm.outlives 0).sleepq
          · intro q j b _ hlbl
            apply (h.asking q j b hlbl).1.bystander (hcalm.outlives q)
            · rw [hcache, update_of_ne (h.spared hun htakes hlbl)]
            · exact mailbox_congr (congrFun hcalm.mail q)
          · exact fun i a heq => (hl' i a heq).elim
          · intro i hi hpend
            left
            have hslot : i ≠ slot := by
              rintro rfl
              rw [hcache, update_self] at hpend
              contradiction
            rw [hcache, update_of_ne hslot] at hpend ⊢
            rw [hbefore]
            exact ⟨hpend, ⟨rfl, rfl⟩, h.pending_ne hwho hi hpend⟩
          · exact fun a heq => (hnot a heq).elim
          · exact fun a v heq => (hnot a heq).elim
          · intro i hi hst
            by_cases hslot : i = slot
            · subst hslot
              right
              rw [hcall, hcache, update_self]
              rfl
            · left
              rw [hcache, update_of_ne hslot] at hst ⊢
              rw [hbefore]
              exact ⟨hst, rfl, rfl⟩
          · exact fun a heq => (hnot a heq).elim

theorem Answering.resume {a : UInt32} (h : Answering tr C lbl) (hstep : arpMachine.Step C seg C')
    (hrule : LeftAlone C seg) (hcall : seg.call = .arpResolve a) (hres : seg.resumed = true)
    (hR : Effect (lbl seg.who) seg l) :
    Answering (tr ++ [seg]) C' (arpMachine.keep seg.after (update lbl seg.who l)) := by
  obtain ⟨hbefore, -, -⟩ := hstep.segment
  obtain ⟨k, hk⟩ := hstep.resumed hres
  have hfor : asksFor C seg.who = some a := by
    unfold asksFor
    rw [hk, hcall]
  obtain ⟨slot, hlbl⟩ := h.labelled seg.who a hfor
  obtain ⟨hask, -⟩ := h.asking _ _ _ hlbl
  have hmine : ∀ i, i < arpSiz → (C.state.arpcache i).arstate = .arPending →
      (C.state.arpcache i).arpid = seg.who → i = slot := by
    intro i hi hpend hpid
    have hlbl' := h.pending i hi hpend
    rw [hpid, hlbl] at hlbl'
    have heq : slot = i := by simpa using congrArg (fun x => x.join.map Prod.fst) hlbl'
    exact heq.symm
  unfold Effect at hR
  unfold LeftAlone at hrule
  rw [hcall, hres] at hR
  rw [hcall, hbefore] at hrule
  have hpoised : Poised seg.who seg.before := by
    rw [hbefore]
    refine ⟨hrule.1, h.sleepq, ?_⟩
    rcases hask.mail with ⟨-, hempty⟩ | ⟨-, hok⟩
    · exact Or.inl hempty
    · exact Or.inr hok
  rcases hR slot a hlbl hpoised with ⟨hout, hl, hsaved, hs⟩ | ⟨v, hout, hl, hend⟩
  · rw [hbefore] at hs
    apply h.snoc hstep
    · rw [hbefore]
      exact (hs.calm.outlives 0).sleepq
    · exact fun q j b _ hq => hs.bystander (h.asking q j b hq).1
    · intro i a' heq
      rw [hl] at heq
      obtain ⟨rfl, rfl⟩ : slot = i ∧ a = a' := by simpa using heq
      exact ⟨hs.bystander hask, hcall, hout⟩
    · intro i hi hpend
      rw [hs.cache] at hpend ⊢
      rw [hbefore]
      by_cases hpid : (C.state.arpcache i).arpid = seg.who
      · obtain rfl := hmine i hi hpend hpid
        right
        rw [hl, hask.addr]
        exact ⟨rfl, hpid⟩
      · exact Or.inl ⟨hpend, ⟨rfl, rfl⟩, hpid⟩
    · intro a' hcall' _
      rw [hcall] at hcall'
      obtain rfl : a = a' := by simpa using hcall'
      exact ⟨slot, hl⟩
    · intro a' v _ hout'
      rw [hout] at hout'
      contradiction
    · intro i hi hst
      rw [hs.cache] at hst ⊢
      rw [hbefore]
      exact Or.inl ⟨hst, rfl, rfl⟩
    · intro a' _ hout'
      rw [hout] at hout'
      contradiction
  · rw [hbefore] at hend
    have hothers : ∀ q j b, q ≠ seg.who → lbl q = some (some (j, b)) →
        seg.after.arpcache j = C.state.arpcache j → Asking seg.after q j b := by
      intro q j b hne hq hentry
      apply (h.asking q j b hq).1.bystander (hend.took.outlives q) hentry
      rw [hend.took.mail q, if_neg hne]
    have hapart : ∀ q j b, q ≠ seg.who → lbl q = some (some (j, b)) → j ≠ slot := by
      rintro q j b hne hq rfl
      have hpid := (h.asking q j b hq).1.pid
      rw [hask.pid] at hpid
      exact hne hpid.symm
    have hne : timeout ≠ ok := by decide
    rcases hend.result with ⟨rfl, hempty, hcache⟩ | ⟨rfl, hok, hcache, hmac⟩
    · apply h.snoc hstep
      · rw [hbefore]
        exact (hend.took.outlives 0).sleepq
      · intro q j b hqne hq
        apply hothers q j b hqne hq
        rw [hcache, update_of_ne (hapart q j b hqne hq)]
      · intro i a' heq
        rw [hl] at heq
        contradiction
      · intro i hi hpend
        have hslot : i ≠ slot := by
          rintro rfl
          rw [hcache, update_self] at hpend
          contradiction
        left
        rw [hcache, update_of_ne hslot] at hpend ⊢
        rw [hbefore]
        exact ⟨hpend, ⟨rfl, rfl⟩, fun hpid => hslot (hmine i hi hpend hpid)⟩
      · intro a' _ hout'
        rw [hout] at hout'
        contradiction
      · exact fun _ _ _ _ => hl
      · intro i hi hst
        have hslot : i ≠ slot := by
          rintro rfl
          rw [hcache, update_self] at hst
          contradiction
        left
        rw [hcache, update_of_ne hslot] at hst ⊢
        rw [hbefore]
        exact ⟨hst, rfl, rfl⟩
      · intro a' _ hout'
        rw [hout] at hout'
        exact (hne (by simpa using hout')).elim
    · have hresolved : (C.state.arpcache slot).arstate = .arResolved := by
        rcases hask.mail with ⟨-, hempty⟩ | ⟨hst, -⟩
        · rw [hempty] at hok
          contradiction
        · exact hst
      apply h.snoc hstep
      · rw [hbefore]
        exact (hend.took.outlives 0).sleepq
      · intro q j b hqne hq
        apply hothers q j b hqne hq
        rw [hcache]
      · intro i a' heq
        rw [hl] at heq
        contradiction
      · intro i hi hpend
        left
        rw [hcache] at hpend ⊢
        rw [hbefore]
        refine ⟨hpend, ⟨rfl, rfl⟩, fun hpid => ?_⟩
        rw [hmine i hi hpend hpid, hresolved] at hpend
        contradiction
      · intro a' _ hout'
        rw [hout] at hout'
        contradiction
      · exact fun _ _ _ _ => hl
      · intro i hi hst
        left
        rw [hcache] at hst ⊢
        rw [hbefore]
        exact ⟨hst, rfl, rfl⟩
      · intro a' hcall' _ _ _
        rw [hcall] at hcall'
        obtain rfl : a = a' := by simpa using hcall'
        rw [hbefore]
        exact ⟨slot, hask.lt, hresolved, hask.addr, hmac⟩

theorem Answering.start {a : UInt32} (h : Answering tr C lbl) (hstep : arpMachine.Step C seg C')
    (hrule : LeftAlone C seg) (hcall : seg.call = .arpResolve a) (hres : seg.resumed = false)
    (hR : Effect (lbl seg.who) seg l) :
    Answering (tr ++ [seg]) C' (arpMachine.keep seg.after (update lbl seg.who l)) := by
  obtain ⟨hbefore, -, -⟩ := hstep.segment
  have hwho : ∀ i a, lbl seg.who ≠ some (some (i, a)) := by
    intro i a hlbl
    rw [(h.resumes hstep hlbl).2] at hres
    contradiction
  unfold Effect at hR
  unfold LeftAlone at hrule
  rw [hcall, hres] at hR
  rw [hcall] at hrule
  obtain ⟨halive, hun⟩ := hrule
  rcases hR with ⟨hl, hs, v, hout, hanswer⟩ | ⟨slot, base, htakes, hbase, hdata, htook, hgoes⟩
  · apply h.quiet hstep hwho hs.cache (hs.calm.outlives 0).sleepq
    · intro q j b _ hq
      rw [hbefore] at hs
      exact hs.bystander (h.asking q j b hq).1
    · rw [hl]
      rfl
    · intro a' _ hout'
      rw [hout] at hout'
      contradiction
    · exact fun _ _ _ _ => hl
    · intro a' hcall' hout' hlim hnet
      rw [hcall] at hcall'
      obtain rfl : a = a' := by simpa using hcall'
      rw [hout] at hout'
      obtain rfl : v = ok := by simpa using hout'
      rcases hanswer rfl with hlim' | hnet' | hentry
      · exact (hlim hlim').elim
      · exact (hnet hnet').elim
      · exact hentry
  rw [hbefore] at htakes hbase htook halive
  have hempty : mailbox (kernelOf base) seg.who = [] := by rw [htook.mail, if_pos rfl]
  have hpoised : Poised seg.who base := by
    refine ⟨fun hbad => halive ((htook.outlives _).isbadpid hbad), ?_, Or.inl hempty⟩
    rw [(htook.outlives 0).sleepq]
    exact h.sleepq
  have hspared : ∀ q j b, lbl q = some (some (j, b)) → j ≠ slot := fun q j b hq =>
    h.spared (hun hres) htakes hq
  rcases hgoes hpoised with ⟨hout, hl, hsaved, hs⟩ | ⟨v, hout, hl, hend⟩
  · have hcache : seg.after.arpcache =
        update C.state.arpcache slot (pendingEntry a seg.who arpClear) := hs.cache.trans hbase
    have houtlives : ∀ p, Outlives p (kernelOf C.state) (kernelOf seg.after) := fun p =>
      trans_of (Outlives p) (htook.outlives p) (hs.calm.outlives p)
    have hmail := fun p => mailbox_congr (congrFun hs.calm.mail p)
    apply h.snoc hstep
    · rw [hbefore]
      exact (houtlives 0).sleepq
    · intro q j b hne hq
      apply (h.asking q j b hq).1.bystander (houtlives q)
      · rw [hcache, update_of_ne (hspared q j b hq)]
      · rw [hmail q, htook.mail, if_neg hne]
    · intro i a' heq
      rw [hl] at heq
      obtain ⟨rfl, rfl⟩ : slot = i ∧ a = a' := by simpa using heq
      refine ⟨⟨fun hbad => halive ((houtlives _).isbadpid hbad), hsaved,
        (victim_some htakes.victim).1, ?_, ?_, Or.inl ⟨?_, ?_⟩⟩, hcall, hout⟩
      · rw [hcache, update_self]
        rfl
      · rw [hcache, update_self]
        rfl
      · rw [hcache, update_self]
        rfl
      · rw [hmail, hempty]
    · intro i hi hpend
      by_cases hslot : i = slot
      · subst hslot
        right
        rw [hl, hcache, update_self]
        exact ⟨rfl, rfl⟩
      · left
        rw [hcache, update_of_ne hslot] at hpend ⊢
        rw [hbefore]
        exact ⟨hpend, ⟨rfl, rfl⟩, h.pending_ne hwho hi hpend⟩
    · intro a' hcall' _
      rw [hcall] at hcall'
      obtain rfl : a = a' := by simpa using hcall'
      exact ⟨slot, hl⟩
    · intro a' v _ hout'
      rw [hout] at hout'
      contradiction
    · intro i hi hst
      have hslot : i ≠ slot := by
        rintro rfl
        rw [hcache, update_self] at hst
        contradiction
      left
      rw [hcache, update_of_ne hslot] at hst ⊢
      rw [hbefore]
      exact ⟨hst, rfl, rfl⟩
    · intro a' _ hout'
      rw [hout] at hout'
      contradiction
  · obtain ⟨rfl, -, hcache⟩ : v = timeout ∧ mailbox (kernelOf base) seg.who = [] ∧ _ := by
      rcases hend.result with hend | ⟨-, hok, -⟩
      · exact hend
      · rw [hempty] at hok
        contradiction
    rw [hbase, update_idem] at hcache
    have houtlives : ∀ p, Outlives p (kernelOf C.state) (kernelOf seg.after) := fun p =>
      trans_of (Outlives p) (htook.outlives p) (hend.took.outlives p)
    have hslot : ∀ i, (seg.after.arpcache i).arstate ≠ .arFree → i ≠ slot := by
      rintro i hst rfl
      rw [hcache, update_self] at hst
      exact hst rfl
    have hne : timeout ≠ ok := by decide
    apply h.snoc hstep
    · rw [hbefore]
      exact (houtlives 0).sleepq
    · intro q j b hqne hq
      apply (h.asking q j b hq).1.bystander (houtlives q)
      · rw [hcache, update_of_ne (hspared q j b hq)]
      · rw [hend.took.mail, if_neg hqne, htook.mail, if_neg hqne]
    · intro i a' heq
      rw [hl] at heq
      contradiction
    · intro i hi hpend
      have hi' := hslot i (by rw [hpend]; simp)
      left
      rw [hcache, update_of_ne hi'] at hpend ⊢
      rw [hbefore]
      exact ⟨hpend, ⟨rfl, rfl⟩, h.pending_ne hwho hi hpend⟩
    · intro a' _ hout'
      rw [hout] at hout'
      contradiction
    · exact fun _ _ _ _ => hl
    · intro i hi hst
      have hi' := hslot i (by rw [hst]; simp)
      left
      rw [hcache, update_of_ne hi'] at hst ⊢
      rw [hbefore]
      exact ⟨hst, rfl, rfl⟩
    · intro a' _ hout'
      rw [hout] at hout'
      exact (hne (by simpa using hout')).elim

theorem Answering.step (h : Answering tr C lbl) (hstep : arpMachine.Step C seg C')
    (hrule : LeftAlone C seg) (hR : Effect (lbl seg.who) seg l) :
    Answering (tr ++ [seg]) C' (arpMachine.keep seg.after (update lbl seg.who l)) := by
  cases hcall : seg.call with
  | kernel c => exact h.kernelCall hstep hrule hcall hR
  | arpIn pkt buf => exact h.packet hstep hrule hcall hR
  | arpResolve a =>
      cases hres : seg.resumed with
      | true => exact h.resume hstep hrule hcall hres hR
      | false => exact h.start hstep hrule hcall hres hR

end Steps

/--
In every run in which the processes that wait in `arp_resolve` are left alone: a call
of `arp_resolve` that returns `OK` for an address which is not that of a broadcast
returns the hardware address that an ARP packet told for it before; when a call has
returned, no entry of its process is pending; and every entry that is pending belongs
to a process that waits for its address.
-/
theorem answers_of_run {t₀ : State} {tr : List (Segment State ArpCall)}
    {C : Config State ArpCall} (hinit : ∀ i, i < arpSiz → (t₀.arpcache i).arstate = .arFree)
    (hsleepq : ¬ isbadqid (kernelOf t₀).sleepq)
    (hrun : arpMachine.RunWhen LeftAlone (Machine.initial t₀) tr C) :
    (∀ pre seg post, tr = pre ++ seg :: post → Answered pre seg) ∧
      ∀ i, i < arpSiz → (C.state.arpcache i).arstate = .arPending →
        asksFor C (C.state.arpcache i).arpid = some (C.state.arpcache i).arpaddr := by
  have hstart : Answering [] (Machine.initial t₀) fun _ => none := by
    constructor
    · exact hsleepq
    · intro i hi hpend
      rw [show (Machine.initial t₀ : Config State ArpCall).state = t₀ from rfl, hinit i hi] at hpend
      contradiction
    · intro p i a hlbl
      contradiction
    · intro p a hasks
      contradiction
    · intro i hi hres
      rw [show (Machine.initial t₀ : Config State ArpCall).state = t₀ from rfl, hinit i hi] at hres
      contradiction
    · intro pre seg post heq
      cases pre <;> contradiction
  obtain ⟨lbl, h, -⟩ := Machine.run_traced (P := Answering) arpCall_traced hstart
    (fun tr C lbl seg C' l hP _ hstep hrule hR => hP.step hstep hrule hR) hrun
  refine ⟨h.answered, ?_⟩
  intro i hi hpend
  exact (h.asking _ _ _ (h.pending i hi hpend)).2

/-! ## A message from elsewhere -/

instance (t : State) (slot : Nat) (c : ArpCall) : Decidable (TakesOver t slot c) :=
  match c with
  | .kernel _ => instDecidableFalse
  | .arpResolve _ => inferInstanceAs (Decidable (_ ∧ _ ∧ _ ∧ _))
  | .arpIn _ _ => inferInstanceAs (Decidable (_ ∧ _ ∧ _ ∧ _ ∧ _))

instance (C : Config State ArpCall) (c : ArpCall) : Decidable (Unhurried C c) :=
  decidable_of_iff (∀ slot ∈ victim C.state.arpcache, TakesOver C.state slot c →
    (C.state.arpcache slot).arstate = .arResolved →
      asksFor C (C.state.arpcache slot).arpid ≠ some (C.state.arpcache slot).arpaddr) <| by
    constructor
    · exact fun h slot htakes => h slot htakes.victim htakes
    · exact fun h slot _ => h slot

instance (C : Config State ArpCall) (seg : Segment State ArpCall) : Decidable (LeftAlone C seg) :=
  match seg with
  | ⟨_, .kernel (.send _ _), _, _, _, _⟩ => inferInstanceAs (Decidable (_ → _))
  | ⟨_, .kernel (.kill pid), resumed, before, _, _⟩ =>
      decidable_of_iff (asksFor C pid.toInt = none ∧
        (asksFor C ((kernelOf before).proctab pid.toInt).prparent ≠ none → resumed = true ∨
          ¬ (Notifies (kernelOf before) pid.toInt ((kernelOf before).proctab pid.toInt).prparent ∧
            Accepts (kernelOf before) ((kernelOf before).proctab pid.toInt).prparent))) <| by
        constructor
        · rintro ⟨hpid, hparent⟩
          refine ⟨hpid, ?_⟩
          rintro parent rfl
          exact hparent
        · exact fun h => ⟨h.1, h.2 _ rfl⟩
  | ⟨_, .kernel .receive, _, _, _, _⟩ | ⟨_, .kernel .recvclr, _, _, _, _⟩
  | ⟨_, .kernel (.recvtime _), _, _, _, _⟩ | ⟨_, .kernel (.create _ _), _, _, _, _⟩
  | ⟨_, .kernel (.resume _), _, _, _, _⟩ | ⟨_, .kernel (.suspend _), _, _, _, _⟩
  | ⟨_, .kernel (.wait _), _, _, _, _⟩ | ⟨_, .kernel (.signal _), _, _, _, _⟩
  | ⟨_, .kernel (.signaln _ _), _, _, _, _⟩ | ⟨_, .kernel (.semcreate _), _, _, _, _⟩
  | ⟨_, .kernel (.semdelete _), _, _, _, _⟩ | ⟨_, .kernel (.semreset _ _), _, _, _, _⟩
  | ⟨_, .kernel (.sleepms _), _, _, _, _⟩ | ⟨_, .kernel .yield, _, _, _, _⟩
  | ⟨_, .kernel (.chprio _ _), _, _, _, _⟩ | ⟨_, .kernel .tick, _, _, _, _⟩
  | ⟨_, .kernel (.ready _), _, _, _, _⟩ | ⟨_, .kernel (.reschedCntl _), _, _, _, _⟩ =>
      instDecidableTrue
  | ⟨_, .arpIn _ _, _, _, _, _⟩ => inferInstanceAs (Decidable (_ → _))
  | ⟨_, .arpResolve _, _, _, _, _⟩ => inferInstanceAs (Decidable (_ ∧ _))

/-- Process 1 asks for address 5 and is sent the message 7 before anybody answers. -/
def strayScript : List (Option ArpCall) :=
  [some (.kernel (.semcreate 4)), some (.kernel (.create 400 30)), some (.kernel (.resume 1)),
    some (.arpResolve 5), none, some (.kernel (.send 1 7)), none]

/-- The address that the call asks for. -/
def resolves : ArpCall → Option UInt32
  | .arpResolve nxthop => some nxthop
  | _ => none

theorem resolves_eq_some {c : ArpCall} {a : UInt32} (h : resolves c = some a) :
    c = .arpResolve a := by
  cases c with
  | arpResolve a' =>
      obtain rfl : a' = a := by simpa [resolves] using h
      rfl
  | _ => contradiction

/-- The last segment returns `OK` from `arp_resolve` for address 5 although no packet
came, and the entry is pending. -/
def Misled (tr : List (Segment State ArpCall)) (seg : Segment State ArpCall) : Prop :=
  resolves seg.call = some 5 ∧ seg.outcome = .returned ok ∧ (∀ seg' ∈ tr, tells seg'.call = none) ∧
    (seg.after.arpcache 0).arstate = .arPending ∧ (seg.after.arpcache 0).arpaddr = 5 ∧
    (seg.after.arpcache 0).arpid = seg.who ∧ seg.before.netData.ipbcast ≠ 5

instance (tr : List (Segment State ArpCall)) (seg : Segment State ArpCall) :
    Decidable (Misled tr seg) :=
  decidable_of_iff (resolves seg.call = some 5 ∧ seg.outcome = .returned ok ∧
    (tr.all fun seg' => (tells seg'.call).isNone) = true ∧
    (seg.after.arpcache 0).arstate = .arPending ∧ (seg.after.arpcache 0).arpaddr = 5 ∧
    (seg.after.arpcache 0).arpid = seg.who ∧ seg.before.netData.ipbcast ≠ 5) <| by
      simp [Misled]

theorem misled_by_message :
    ∃ tr C pre seg, arpMachine.Run (fun _ _ _ => True) (Machine.initial (bootNet smallBoard)) tr C ∧
      tr = pre ++ [seg] ∧ Misled tr seg ∧ ¬ Answered pre seg := by
  have hreplay : ((arpMachine.replayWhen Anyhow (forceNetConfig netEntries) strayScript []
      (Machine.initial (bootNet smallBoard))).map fun r =>
        r.1.getLast?.map fun seg => decide (Misled r.1 seg)) = some (some true) := by
    decide +kernel
  obtain ⟨⟨tr, C⟩, hr, hlast⟩ := Option.map_eq_some_iff.mp hreplay
  obtain ⟨seg, hseg, hmisled⟩ := Option.map_eq_some_iff.mp hlast
  have hmis : Misled tr seg := of_decide_eq_true hmisled
  obtain ⟨pre, rfl⟩ : ∃ pre, tr = pre ++ [seg] := List.getLast?_eq_some_iff.mp hseg
  have hrun : arpMachine.Run (fun _ _ _ => True) (Machine.initial (bootNet smallBoard))
      (pre ++ [seg]) C :=
    (arpMachine.replayWhen_run (forcedNet_eq netEntries) .start hr).run fun _ _ h => trivial
  refine ⟨pre ++ [seg], C, pre, seg, hrun, rfl, hmis, ?_⟩
  intro hanswered
  obtain ⟨hcall, hout, -, hpend, -, hpid, -⟩ := hmis
  have hlt : 0 < arpSiz := by decide
  exact (hanswered 5 ok (resolves_eq_some hcall) hout).2 0 hlt hpend hpid

theorem answer_of_five :
    ∃ tr C, arpMachine.RunWhen LeftAlone (Machine.initial (bootNet smallBoard)) tr C ∧
      (C.state.arpcache 0).arstate = .arResolved ∧
      ((∀ pre seg post, tr = pre ++ seg :: post → Answered pre seg) ∧
        ∀ i, i < arpSiz → (C.state.arpcache i).arstate = .arPending →
          asksFor C (C.state.arpcache i).arpid = some (C.state.arpcache i).arpaddr) := by
  have hreplay : (arpMachine.replayWhen LeftAlone (forceNetConfig netEntries) askScript []
      (Machine.initial (bootNet smallBoard))).map (fun r => (r.2.state.arpcache 0).arstate) =
        some .arResolved := by
    decide +kernel
  obtain ⟨⟨tr, C⟩, hr, hst⟩ := Option.map_eq_some_iff.mp hreplay
  have hrun := arpMachine.replayWhen_run (forcedNet_eq netEntries) .start hr
  have hsleepq : ¬ isbadqid (kernelOf (bootNet smallBoard)).sleepq := by decide +kernel
  exact ⟨tr, C, hrun, hst, answers_of_run (fun _ _ => rfl) hsleepq hrun⟩

end Net
end Xinu
