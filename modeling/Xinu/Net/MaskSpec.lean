import Xinu.Kernel.MaskSpec
import Xinu.Net.ArpAnswers
import Xinu.Net.Ip

/-!
# The interrupt mask of the packet senders

`ip_send` disables interrupts and returns without restoring them where it finds no next
hop or no address for it.  The other procedures of the network code that it calls, and
`icmp_send` around it, put the mask back.

Main results:

- Theorem `ipSend_leaves`: the mask that `ip_send` leaves on the branches that do not ask
  for an address.
- Theorem `ipSend_asks`: where it asks for one, the request may fail.
- Theorem `mask_kept_iff`: which calls keep the mask.
-/

namespace Xinu
namespace Net

open Foundations Function

variable {me : Int} {m m' : Bool} {t t' : State}

theorem state_poolsApart : PoolsApart State :=
  fun _ _ => rfl

/-! ## Address resolution -/

theorem setArp_leaves (i : Nat) (f : Arpentry → Arpentry) : Leaves me m m (setArp i f) :=
  .modify fun _ => rfl

theorem setPacket_leaves (a : Nat) (f : Netpacket → Netpacket) : Leaves me m m (setPacket a f) :=
  .modify fun _ => rfl

theorem ethwrite_leaves (frame : Frame) (count : Int) : Leaves me m m (ethwrite frame count) :=
  .read fun _ => .bind (.onKernel (wait_lends _)) fun _ => .bind (.modify fun _ => rfl) fun _ => .pure _

theorem arpAwait_leaves (apkt : Arppacket) (n : Nat) (msg : Int) :
    Leaves me m m (arpAwait apkt n msg) := by
  induction n generalizing msg with
  | zero => exact .pure _
  | succ n ih =>
      refine .bind (ethwrite_leaves _ _) fun _ => .bind (.onKernel (recvtime_lends _)) fun _ => ?_
      exact .ite (ih _) (.pure _)

theorem arpAnswer_leaves (slot : Nat) (mask : Bool) (msg : Int) :
    Leaves me m mask (arpAnswer slot mask msg) := by
  refine .ite (.bind (.restore mask) fun _ => .pure _) (.ite ?_ ?_)
  · exact .bind (setArp_leaves _ _) fun _ => .bind (.restore mask) fun _ => .pure _
  · exact .read fun _ => .bind (.restore mask) fun _ => .pure _

theorem arpAlloc_leaves : Leaves me m m arpAlloc := by
  refine .read fun t => ?_
  dsimp only
  cases arpSearch t.arpcache .arFree with
  | some slot => exact .bind (setArp_leaves _ _) fun _ => .pure _
  | none =>
      cases arpSearch t.arpcache .arResolved with
      | some slot => exact .bind (setArp_leaves _ _) fun _ => .pure _
      | none => exact .pure _

theorem arpAsk_leaves (nxthop : UInt32) (slot : Nat) (mask : Bool) :
    Leaves me m mask (arpAsk nxthop slot mask) := by
  refine .read fun t => .bind (.onKernel recvclr_lends) fun _ => ?_
  exact .bind (arpAwait_leaves _ _ _) fun _ => arpAnswer_leaves _ _ _

theorem arpResolve_leaves (nxthop : UInt32) : Leaves me m m (arpResolve nxthop) := by
  have hend : ∀ r : Int × Option Mac, Leaves me false m (do
      restore m
      return r : NetM (Int × Option Mac)) := fun r =>
    .bind (.restore m) fun _ => .pure _
  refine .read fun t => .ite (.pure _) (.ite (.pure _) (.disabled (.read fun t => ?_)))
  dsimp only
  cases arpFind t.arpcache nxthop with
  | some i => exact .ite (hend _) (hend _)
  | none =>
      refine .bind arpAlloc_leaves fun slot => ?_
      cases slot with
      | none => exact hend _
      | some slot => exact .read fun t => .bind (setArp_leaves _ _) fun _ => arpAsk_leaves _ _ _

/-! ## Delivery -/

theorem setUdp_leaves (i : Nat) (f : Udpentry → Udpentry) : Leaves me m m (setUdp i f) :=
  .modify fun _ => rfl

theorem setIcmp_leaves (i : Nat) (f : Icmpentry → Icmpentry) : Leaves me m m (setIcmp i f) :=
  .modify fun _ => rfl

/-- The end of a procedure that discards a packet. -/
theorem discard_leaves (buf : Nat) (mask : Bool) : Leaves me m mask (do
    let _ ← freebuf buf
    restore mask : NetM Unit) :=
  .bind (freebuf_leaves state_poolsApart buf) fun _ => .restore mask

theorem udpIn_leaves (buf : Nat) : Leaves me m m (udpIn buf) := by
  refine .disabled (.read fun t => ?_)
  cases udpFind t.udptab (t.packets buf) with
  | some i =>
      refine .bind (setUdp_leaves _ _) fun _ => .read fun t => .ite ?_ (.restore m)
      refine .bind (setUdp_leaves _ _) fun _ => ?_
      exact .bind (.onKernel (send_lends _ _)) fun _ => .restore m
  | none => exact discard_leaves buf m

theorem semcount_leaves (sem : Int) : Leaves me m m (semcount sem) :=
  .read fun _ => .ite (.pure _) (.ite (.pure _) (.pure _))

theorem ipEnqueue_leaves (buf : Nat) : Leaves me m m (ipEnqueue buf) := by
  refine .disabled (.read fun t => .bind (semcount_leaves _) fun _ => .ite ?_ ?_)
  · refine .bind (freebuf_leaves state_poolsApart buf) fun _ => ?_
    exact .bind (.restore m) fun _ => .pure _
  · refine .bind (.modify fun _ => rfl) fun _ => .bind (.onKernel (signal_lends _)) fun _ => ?_
    exact .bind (.restore m) fun _ => .pure _

theorem icmpMkpkt_leaves (remip : UInt32) (type ident seq : UInt16) (data : Nat → UInt8)
    (len : Int) : Leaves me m m (icmpMkpkt remip type ident seq data len) := by
  refine .read fun t => .bind (getbuf_leaves state_poolsApart _) fun pkt => .ite .halt ?_
  refine .read fun t => .bind (setPacket_leaves _ _) fun _ => ?_
  exact .bind (.modify fun _ => rfl) fun _ => .pure _

theorem icmpIn_leaves (buf : Nat) : Leaves me m m (icmpIn buf) := by
  refine .disabled (.read fun t => .ite (discard_leaves buf m) (.ite ?_ (.ite ?_ (.ite ?_ ?_))))
  · refine .bind (icmpMkpkt_leaves _ _ _ _ _ _) fun _ => .bind (ipEnqueue_leaves _) fun _ => ?_
    exact discard_leaves buf m
  · exact discard_leaves buf m
  · exact discard_leaves buf m
  · refine .bind (setIcmp_leaves _ _) fun _ => .ite ?_ (.restore m)
    refine .bind (setIcmp_leaves _ _) fun _ => ?_
    exact .bind (.onKernel (send_lends _ _)) fun _ => .restore m

theorem ipLocal_leaves (buf : Nat) : Leaves me m m (ipLocal buf) := by
  refine .read fun t => .ite (udpIn_leaves buf) (.ite (icmpIn_leaves buf) ?_)
  exact .bind (freebuf_leaves state_poolsApart buf) fun _ => .pure _

theorem ipOut_leaves (buf : Nat) : Leaves me m m (ipOut buf) := by
  refine .read fun t => .bind (setPacket_leaves _ _) fun _ => .read fun t => ?_
  refine .bind (ethwrite_leaves _ _) fun _ => .bind (freebuf_leaves state_poolsApart buf) fun _ => ?_
  exact .ite (.pure _) (.pure _)

/-! ## Branches -/

/-- ARP knows the address without asking. -/
def arpKnows (t : State) (nxthop : UInt32) : Prop :=
  nxthop = ipBcast ∨ nxthop = t.netData.ipbcast ∨
    match arpFind t.arpcache nxthop with
    | some i => (t.arpcache i).arstate = .arResolved
    | none => False

instance (t : State) (nxthop : UInt32) : Decidable (arpKnows t nxthop) := by
  unfold arpKnows
  cases arpFind t.arpcache nxthop <;> infer_instance

/-- The branches of `ip_send` that put the mask back. -/
def sendRestores (t : State) (buf : Nat) : Prop :=
  loopsBack t.netData (t.packets buf).ipdst ∨
    ((t.packets buf).ipdst = ipBcast ∨ (t.packets buf).ipdst = t.netData.ipbcast) ∨
    (nextHop t.netData (t.packets buf).ipdst ≠ 0 ∧
      arpKnows t (nextHop t.netData (t.packets buf).ipdst))

instance (t : State) (buf : Nat) : Decidable (sendRestores t buf) :=
  inferInstanceAs (Decidable (_ ∨ _ ∨ _ ∧ _))

/-- How `arp_resolve` goes on, called by process `me` with the mask `m` in force. -/
inductive Resolving (me : Int) (m : Bool) (nxthop : UInt32) (t : State) :
    Flow State (Int × Option Mac) → Prop
  | knows {mac : Mac} {t₁ : State} (h : arpKnows t nxthop) (ht₁ : RunsWith me m t₁) :
      Resolving me m nxthop t (.done (ok, some mac) t₁)
  | refuses {t₁ : State} (h : ¬ arpKnows t nxthop) (ht₁ : RunsWith me m t₁) :
      Resolving me m nxthop t (.done (syserr, none) t₁)
  | asks {slot : Nat} {t₁ : State} (h : ¬ arpKnows t nxthop) (ht₁ : RunsWith me false t₁) :
      Resolving me m nxthop t (arpAsk nxthop slot m t₁)

theorem arpResolve_resolving (nxthop : UInt32) (ht : RunsWith me m t) :
    Resolving me m nxthop t (arpResolve nxthop t) := by
  have hmask : maskOf t (kernelOf t).currpid = m := by rw [ht.1, ht.2]
  have hrestored : RunsWith me m (withMask (withMask t false) m) := (ht.withMask false).withMask m
  have hcache : ∀ b, (withMask t b).arpcache = t.arpcache := fun _ => rfl
  by_cases hlim : nxthop = ipBcast
  · have hrun : arpResolve nxthop t = .done (ok, some t.netData.ethbcast) t := by
      simp [arpResolve, hlim]
    rw [hrun]
    exact .knows (Or.inl hlim) ht
  by_cases hnet : nxthop = t.netData.ipbcast
  · have hrun : arpResolve nxthop t = .done (ok, some t.netData.ethbcast) t := by
      simp [arpResolve, hnet]
    rw [hrun]
    exact .knows (Or.inr (Or.inl hnet)) ht
  cases hfind : arpFind t.arpcache nxthop with
  | some i =>
      by_cases hres : (t.arpcache i).arstate = .arResolved
      · have hrun : arpResolve nxthop t =
            .done (ok, some (t.arpcache i).arhaddr) (withMask (withMask t false) m) := by
          simp [arpResolve, hlim, hnet, hcache, hfind, hres, hmask]
        rw [hrun]
        exact .knows (by simp [arpKnows, hfind, hres]) hrestored
      · have hrun : arpResolve nxthop t = .done (syserr, none) (withMask (withMask t false) m) := by
          simp [arpResolve, hlim, hnet, hcache, hfind, hres, hmask]
        rw [hrun]
        exact .refuses (by simp [arpKnows, hlim, hnet, hfind, hres]) hrestored
  | none =>
      have hunknown : ¬ arpKnows t nxthop := by simp [arpKnows, hlim, hnet, hfind]
      cases hvictim : victim t.arpcache with
      | none =>
          have hrun : arpResolve nxthop t = .done (syserr, none) (withMask (withMask t false) m) := by
            simp [arpResolve, hlim, hnet, hcache, hfind, arpAlloc_run, hvictim, hmask]
          rw [hrun]
          exact .refuses hunknown hrestored
      | some slot =>
          obtain ⟨t₁, ht₁⟩ : ∃ t₁, { withMask t false with
              arpcache := update t.arpcache slot
                (pendingEntry nxthop (kernelOf t).currpid arpClear) } = t₁ := ⟨_, rfl⟩
          have hrun : arpResolve nxthop t = arpAsk nxthop slot m t₁ := by
            simp [arpResolve, hlim, hnet, hcache, hfind, arpAlloc_run, hvictim, setArp, hmask,
              ← ht₁]
            rfl
          rw [hrun]
          apply Resolving.asks hunknown
          rw [← ht₁]
          exact ht.withMask false

/-- What `ip_send` does with the answer of `arp_resolve`. -/
def sendResolved (buf : Nat) (mask : Bool) (r : Int × Option Mac) : NetM Int := do
  setEthdst buf r.2
  if r.1 = ok then
    let retval ← ipOut buf
    restore mask
    return retval
  else
    let _ ← freebuf buf
    return syserr

theorem setEthdst_leaves (buf : Nat) (mac : Option Mac) : Leaves me m m (setEthdst buf mac) := by
  cases mac with
  | none => exact .pure _
  | some mac => exact setPacket_leaves buf fun p => { p with ethdst := mac }

theorem freed_leaves (buf : Nat) : Leaves me m m (do
    let _ ← freebuf buf
    return syserr : NetM Int) :=
  .bind (freebuf_leaves state_poolsApart buf) fun _ => .pure _

theorem sent_leaves (buf : Nat) (mask : Bool) : Leaves me m mask (do
    let retval ← ipOut buf
    restore mask
    return retval : NetM Int) :=
  .bind (ipOut_leaves buf) fun _ => .bind (.restore mask) fun _ => .pure _

/-- How a call of `ip_send` goes on, once it has disabled interrupts. -/
theorem ipSend_cases (buf : Nat) (ht : RunsWith me m t) :
    (sendRestores t buf ∧ (ipSend buf t).Returns (Regains me) fun _ t' => RunsWith me m t') ∨
      (¬ sendRestores t buf ∧
        (ipSend buf t).Returns (Regains me) fun _ t' => RunsWith me false t') ∨
      ¬ sendRestores t buf ∧ ∃ nxthop slot t₁, RunsWith me false t₁ ∧
        ipSend buf t = (arpAsk nxthop slot false t₁).bind (sendResolved buf m) := by
  have hmask : maskOf t (kernelOf t).currpid = m := by rw [ht.1, ht.2]
  have hoff := ht.withMask false
  obtain ⟨dest, hdest⟩ : ∃ dest, (t.packets buf).ipdst = dest := ⟨_, rfl⟩
  obtain ⟨nd, hnd⟩ : ∃ nd, t.netData = nd := ⟨_, rfl⟩
  have hdest' : ((withMask t false).packets buf).ipdst = dest := hdest
  have hnd' : (withMask t false).netData = nd := hnd
  unfold sendRestores
  rw [hdest, hnd]
  by_cases hloop : loopsBack nd dest
  · left
    refine ⟨Or.inl hloop, ?_⟩
    have hrun : ipSend buf t = (do
        ipLocal buf
        restore m
        return ok : NetM Int) (withMask t false) := by
      simp [ipSend, hmask, hdest', hnd', hloop]
    rw [hrun]
    exact Leaves.bind (ipLocal_leaves buf) (fun _ => .bind (.restore m) fun _ => .pure _) _ hoff
  by_cases hbcast : dest = ipBcast ∨ dest = nd.ipbcast
  · left
    refine ⟨Or.inr (Or.inl hbcast), ?_⟩
    have hrun : ipSend buf t = (do
        setPacket buf fun p => { p with ethdst := nd.ethbcast }
        let retval ← ipOut buf
        restore m
        return retval : NetM Int) (withMask t false) := by
      simp [ipSend, hmask, hdest', hnd', hloop, hbcast]
    rw [hrun]
    exact Leaves.bind (setPacket_leaves _ _) (fun _ => sent_leaves buf m) _ hoff
  by_cases hzero : nextHop nd dest = 0
  · right
    left
    refine ⟨by simp [hloop, hbcast, hzero], ?_⟩
    have hrun : ipSend buf t = (do
        let _ ← freebuf buf
        return syserr : NetM Int) (withMask t false) := by
      simp [ipSend, hdest', hnd', hloop, hbcast, hzero]
    rw [hrun]
    exact freed_leaves buf _ hoff
  have hrun : ipSend buf t =
      (arpResolve (nextHop nd dest) (withMask t false)).bind (sendResolved buf m) := by
    simp [ipSend, hmask, hdest', hnd', hloop, hbcast, hzero]
    rfl
  have hno : ¬ arpKnows t (nextHop nd dest) → ¬ (loopsBack nd dest ∨
      (dest = ipBcast ∨ dest = nd.ipbcast) ∨
      nextHop nd dest ≠ 0 ∧ arpKnows t (nextHop nd dest)) := by
    intro h hrestores
    rcases hrestores with hr | hr | hr
    · exact hloop hr
    · exact hbcast hr
    · exact h hr.2
  obtain ⟨y, hy⟩ : ∃ y, arpResolve (nextHop nd dest) (withMask t false) = y := ⟨_, rfl⟩
  have hresolving := arpResolve_resolving (nextHop nd dest) hoff
  rw [hrun]
  rw [hy] at hresolving ⊢
  cases hresolving with
  | knows h ht₁ =>
      left
      refine ⟨Or.inr (Or.inr ⟨hzero, h⟩), ?_⟩
      exact Leaves.bind (setEthdst_leaves buf _) (fun _ => sent_leaves buf m) _ ht₁
  | refuses h ht₁ =>
      right
      left
      refine ⟨hno h, ?_⟩
      exact freed_leaves buf _ ht₁
  | asks h ht₁ =>
      right
      right
      exact ⟨hno h, _, _, _, ht₁, rfl⟩

/-! ## A request that fails -/

/-- What a wait leaves: process `me` runs with the mask `m`, without a message. -/
def Waits (me : Int) (m : Bool) (t : State) : Prop :=
  RunsWith me m t ∧ mailbox (kernelOf t) me = []

/-- Process `me` runs with the mask `m`, and nobody waits for a semaphore. -/
def Clear (me : Int) (m : Bool) (t : State) : Prop :=
  RunsWith me m t ∧ ∀ sem, 0 ≤ (kernelOf t).count sem

theorem ethwrite_finishes (frame : Frame) (count : Int) (ht : Waits me m t) :
    (ethwrite frame count t).Finishes (Rebuffs me) (fun _ t' => Waits me m t')
      fun _ t' => RunsWith me m t' ∧ Rebuffed me (kernelOf t') := by
  have hwait := onKernel_finishes (wait_finishes t.ether.osem ht.1.1) ht.1
    (fun _ _ h => h.1) fun _ _ h => h.current
  apply hwait.bind
  · exact fun _ t' h => ⟨h.1, h.2.2.trans ht.2⟩
  · exact fun _ t' h => ⟨count, _, rfl, h.1, h.2⟩

theorem recvtime_rebuffed {maxwait : Int} (hpos : 0 ≤ maxwait) (ht : RunsWith me m t)
    (h : Rebuffed me (kernelOf t)) :
    ∃ t', (onKernel (recvtime maxwait) : NetM Int) t = .done syserr t' ∧ Clear me m t' := by
  rcases h.recvtime hpos with ⟨s', hrun, hcur, hcounts⟩
  refine ⟨withKernel t s', by rw [run_onKernel, hrun]; rfl, ht.withKernel hcur, ?_⟩
  rw [kernelOf_withKernel]
  exact hcounts

/-- Without an answer, the loop ends with `TIMEOUT` or `SYSERR`. -/
theorem arpAwait_finishes (apkt : Arppacket) (n : Nat) (msg : Int) (hmsg : n = 0 → msg = timeout)
    (ht : Waits me m t) :
    (arpAwait apkt n msg t).Finishes (Rebuffs me)
      (fun v t' => (v = timeout ∨ v = syserr) ∧ RunsWith me m t')
      fun v t' => v = syserr ∧ Clear me m t' := by
  induction n generalizing msg t with
  | zero => exact ⟨Or.inl (hmsg rfl), ht.1⟩
  | succ n ih =>
      have hpos : 0 ≤ arpTimeout := by decide
      have hne : i32 syserr ≠ timeout := by decide
      apply (ethwrite_finishes (.arp apkt) 42 ht).bind
      · intro _ t₁ ht₁
        have hrecv := onKernel_finishes (recvtime_finishes hpos ht₁.1.1 ht₁.2) ht₁.1
          (fun _ _ h => h.1.1) fun _ _ h => h.2.1
        apply hrecv.bind
        · intro v t₂ h
          have hv : i32 v = timeout ∨ i32 v = syserr := by
            rcases h.2.2 with rfl | rfl
            · exact Or.inl rfl
            · exact Or.inr rfl
          by_cases hagain : i32 v = timeout
          · rw [if_pos hagain]
            exact ih _ (fun _ => hagain) ⟨h.1, h.2.1.2⟩
          · rw [if_neg hagain]
            exact ⟨hv, h.1⟩
        · rintro v t₂ ⟨hruns, rfl, hcur, hcounts⟩
          rw [if_neg hne]
          exact ⟨i32 syserr, t₂, rfl, rfl, hruns, hcounts⟩
      · rintro _ t₁ ⟨ht₁, hback⟩
        rcases recvtime_rebuffed hpos ht₁ hback with ⟨t₂, hrun, hclear⟩
        refine ⟨i32 syserr, t₂, ?_, rfl, hclear⟩
        rw [Coop.run_bind, hrun, Flow.bind_done, if_neg hne]
        rfl

/-- A failure is reported once the mask is restored. -/
theorem arpAnswer_fails (slot : Nat) (mask : Bool) {msg : Int} (hmsg : msg = timeout ∨ msg = syserr)
    (ht : RunsWith me m t) :
    ∃ r t', arpAnswer slot mask msg t = .done (r, none) t' ∧ r ≠ ok ∧ RunsWith me mask t' ∧
      (kernelOf t').semtab = (kernelOf t).semtab := by
  rcases hmsg with rfl | rfl
  · have hne : timeout ≠ syserr := by decide
    obtain ⟨t₁, ht₁⟩ : ∃ t₁, { t with
        arpcache := update t.arpcache slot { t.arpcache slot with arstate := .arFree } } = t₁ :=
      ⟨_, rfl⟩
    have hruns : RunsWith me m t₁ := by
      rw [← ht₁]
      exact ht
    refine ⟨timeout, withMask t₁ mask, ?_, by decide, hruns.withMask mask, ?_⟩
    · simp [arpAnswer, setArp, hne, ht₁]
    · rw [kernelOf_withMask, ← ht₁]
      rfl
  · refine ⟨syserr, withMask t mask, ?_, by decide, ht.withMask mask, ?_⟩
    · simp [arpAnswer]
    · rw [kernelOf_withMask]

theorem arpAsk_finishes (nxthop : UInt32) (slot : Nat) (mask : Bool) (ht : RunsWith me m t) :
    (arpAsk nxthop slot mask t).Finishes (Rebuffs me)
      (fun r t' => r.1 ≠ ok ∧ r.2 = none ∧ RunsWith me mask t')
      fun r t' => r.1 ≠ ok ∧ r.2 = none ∧ Clear me mask t' := by
  rcases recvclr_took (kernelOf t) with ⟨v, s', hrun, hcur, htook⟩
  have hclr : (onKernel recvclr : NetM Int) t = .done v (withKernel t s') := by
    rw [run_onKernel, hrun]
    rfl
  have hempty : mailbox s' me = [] := by rw [htook.mail, if_pos ht.1.symm]
  have hwaits : Waits me m (withKernel t s') := by
    refine ⟨ht.withKernel (hcur.trans ht.1), ?_⟩
    rw [kernelOf_withKernel]
    exact hempty
  have hawait := arpAwait_finishes (arpRequest t.netData nxthop) arpRetry (i32 v) (fun h => by contradiction)
    hwaits
  have hstart : arpAsk nxthop slot mask t =
      (arpAwait (arpRequest t.netData nxthop) arpRetry (i32 v) (withKernel t s')).bind
        (arpAnswer slot mask) := by
    simp [arpAsk, hclr]
  rw [hstart]
  apply hawait.bind
  · intro msg t₁ h
    rcases arpAnswer_fails slot mask h.1 h.2 with ⟨r, t₂, hans, hr, hruns, -⟩
    rw [hans]
    exact ⟨hr, rfl, hruns⟩
  · rintro msg t₁ ⟨rfl, hruns₁, hcounts⟩
    rcases arpAnswer_fails slot mask (Or.inr rfl) hruns₁ with ⟨r, t₂, hans, hr, hruns, hsems⟩
    refine ⟨(r, none), t₂, hans, hr, rfl, hruns, ?_⟩
    unfold Kernel.count at hcounts ⊢
    rw [hsems]
    exact hcounts

/-- `freebuf` refuses the buffer, or puts it in its pool and signals the semaphore. -/
theorem freebuf_cases (buf : Nat) (ht : RunsWith me m t) :
    (∃ t', freebuf buf t = .done syserr t' ∧ RunsWith me m t') ∨
      ∃ sem t₁, RunsWith me false t₁ ∧ kernelOf t₁ = kernelOf t ∧
        freebuf buf t = ((onKernel (signal sem) : NetM Int) t₁).bind fun _ => do
          restore m
          return ok := by
  have hmask : maskOf t (kernelOf t).currpid = m := by rw [ht.1, ht.2]
  have hoff := ht.withMask false
  have hkernel := kernelOf_withMask t false
  obtain ⟨t₁, ht₁⟩ : ∃ t₁, withMask t false = t₁ := ⟨_, rfl⟩
  rw [ht₁] at hoff hkernel
  obtain ⟨poolid, hpool⟩ : ∃ p, t₁.pools.word (buf - sizeofBpid) = p := ⟨_, rfl⟩
  by_cases hbad : poolid < 0 ∨ poolid ≥ t₁.pools.nbpools
  · left
    refine ⟨withMask t₁ m, ?_, hoff.withMask m⟩
    simp [freebuf, hmask, ht₁, HasPools.pools, hpool, hbad]
  · right
    obtain ⟨pools, hpools⟩ : ∃ pools : Pools, { t₁.pools with
      word := update t₁.pools.word (buf - sizeofBpid) (t₁.pools.buftab poolid).bpnext
      buftab := update t₁.pools.buftab poolid
        { t₁.pools.buftab poolid with bpnext := buf - sizeofBpid } } = pools := ⟨_, rfl⟩
    refine ⟨(t₁.pools.buftab poolid).bpsem, { t₁ with pools := pools }, hoff, hkernel, ?_⟩
    simp [freebuf, hmask, ht₁, HasPools.pools, HasPools.setPools, hpool, hbad, setWord, setBpentry,
      onPools, ← hpools]

theorem freebuf_finishes (buf : Nat) (ht : RunsWith me m t) :
    (freebuf buf t).Finishes (Rebuffs me) (fun _ t' => RunsWith me m t')
      fun _ t' => RunsWith me m t' := by
  rcases freebuf_cases buf ht with ⟨t', hrun, ht'⟩ | ⟨sem, t₁, ht₁, -, hrun⟩
  · rw [hrun]
    exact ht'
  · have hsignal := onKernel_finishes (signal_finishes sem ht₁.1) ht₁ (fun _ _ h => h) fun _ _ h => h
    rw [hrun]
    apply hsignal.bind
    · exact fun _ _ h => h.1.withMask m
    · exact fun _ t' h => ⟨ok, withMask t' m, rfl, h.1.withMask m⟩

/-- Nobody waits for a buffer. -/
theorem freebuf_at_once (buf : Nat) (ht : Clear me m t) :
    ∃ v t', freebuf buf t = .done v t' ∧ RunsWith me m t' := by
  rcases freebuf_cases buf ht.1 with ⟨t', hrun, ht'⟩ | ⟨sem, t₁, ht₁, hkernel, hrun⟩
  · exact ⟨syserr, t', hrun, ht'⟩
  · have hcount : 0 ≤ (kernelOf t₁).count sem := by rw [hkernel]; exact ht.2 sem
    rcases signal_at_once hcount with ⟨v, s', hsignal, hcur⟩
    have hsame : s'.currpid = me := hcur.trans ht₁.1
    refine ⟨ok, withMask (withKernel t₁ s') m, ?_, (ht₁.withKernel hsame).withMask m⟩
    rw [hrun, run_onKernel, hsignal]
    rfl

/-- Without an address, the packet is freed and the mask is left as it is. -/
theorem sendResolved_fails (buf : Nat) (mask : Bool) {r : Int × Option Mac} (hr : r.1 ≠ ok)
    (hnone : r.2 = none) (t : State) :
    sendResolved buf mask r t = (freebuf buf t).bind fun _ => pure syserr := by
  rcases r with ⟨v, mac⟩
  subst hnone
  have hv : v ≠ ok := hr
  simp [sendResolved, setEthdst, hv]

/-- The request for an address may fail, and then the mask is not put back. -/
theorem ipSend_asks (buf : Nat) (mask : Bool) (nxthop : UInt32) (slot : Nat)
    (ht : RunsWith me false t) :
    ((arpAsk nxthop slot false t).bind (sendResolved buf mask)).Finishes (Rebuffs me)
      (fun _ t' => RunsWith me false t') fun _ t' => RunsWith me false t' := by
  apply (arpAsk_finishes nxthop slot false ht).bind
  · rintro r t₁ ⟨hr, hnone, ht₁⟩
    rw [sendResolved_fails buf mask hr hnone]
    apply (freebuf_finishes buf ht₁).bind
    · exact fun _ _ h => h
    · exact fun _ t' h => ⟨syserr, t', rfl, h⟩
  · rintro r t₁ ⟨hr, hnone, ht₁⟩
    rw [sendResolved_fails buf mask hr hnone]
    rcases freebuf_at_once buf ht₁ with ⟨v, t', hrun, ht'⟩
    rw [hrun]
    exact ⟨syserr, t', rfl, ht'⟩

/-- With interrupts disabled, `ip_send` leaves them so. -/
theorem ipSend_off (buf : Nat) : Leaves me false false (ipSend buf) := by
  refine .disabled (.read fun t => .ite ?_ (.ite ?_ (.ite (freed_leaves buf) ?_)))
  · exact .bind (ipLocal_leaves buf) fun _ => .bind (.restore false) fun _ => .pure _
  · exact .bind (setPacket_leaves _ _) fun _ => sent_leaves buf false
  · refine .bind (arpResolve_leaves _) fun r => .bind (setEthdst_leaves buf _) fun _ => ?_
    exact .ite (freed_leaves buf) (sent_leaves buf false)

theorem ipSend_keepsMask_iff (buf : Nat) (t : State) :
    KeepsMask (ipSend buf) t ↔
      maskInForce t = false ∨ sendRestores t buf ∨ NeverReturns (ipSend buf) t := by
  rcases ipSend_cases buf (runsWith_maskInForce t) with ⟨hr, h⟩ | ⟨hr, h⟩ |
    ⟨hr, nxthop, slot, t₁, ht₁, hrun⟩
  · apply keepsMask_iff
    rw [maskAfter, if_pos hr]
    exact h
  · apply keepsMask_iff
    rw [maskAfter, if_neg hr]
    exact h
  constructor
  · intro hkeeps
    cases hmask : maskInForce t with
    | false => exact Or.inl rfl
    | true =>
        right
        right
        have hfails := ipSend_asks buf (maskInForce t) nxthop slot ht₁
        rw [← hrun] at hfails
        have hbad : ∀ (v : Int) (t' : State), RunsWith (kernelOf t).currpid false t' →
            ¬ maskInForce t' = maskInForce t := by
          intro v t' h
          rw [h.maskInForce, hmask]
          exact Bool.false_ne_true
        apply hfails.never_returns (exists_rebuffs _)
        · exact fun _ _ h => h.1
        · exact hbad
        · exact hbad
        · exact hkeeps
  · intro h
    rcases h with hmask | hr' | hnever
    · have hruns := runsWith_maskInForce t
      rw [hmask] at hruns
      unfold KeepsMask
      rw [hmask]
      exact (ipSend_off buf t hruns).mono fun _ _ h => h.maskInForce
    · exact (hr hr').elim
    · exact hnever.mono fun _ _ h => h.elim

theorem icmpSend_leaves (remip : UInt32) (type ident seq : UInt16) (data : Nat → UInt8)
    (len : Int) : Leaves me m m (icmpSend remip type ident seq data len) := by
  refine .disabled (.bind (icmpMkpkt_leaves _ _ _ _ _ _) fun pkt => ?_)
  exact .bind (ipSend_off pkt) fun _ => .bind (.restore m) fun _ => .pure _

/-! ## The discipline -/

/-- The future leads to an entry of which `restores` holds. -/
def futureIs (restores : Future → Prop) (f : Nat) (t : Futures) : Prop :=
  ∃ e, t.future f = some e ∧ restores e

/-- The mask in force when the execution returns, if it does so at once. -/
def maskAtReturn {τ α : Type} [HasCpu τ] : Flow τ α → Option Bool
  | .done _ t => some (maskInForce t)
  | _ => none

theorem loses_mask {τ α : Type} [HasCpu τ] {x : Coop τ α} {t : τ} (hentry : maskInForce t = true)
    (hreturn : maskAtReturn (x t) = some false) : ¬ KeepsMask x t := by
  intro hkeeps
  unfold KeepsMask at hkeeps
  cases hrun : x t with
  | done a t' =>
      rw [hrun] at hkeeps hreturn
      have hoff : maskInForce t' = false := Option.some.inj hreturn
      have hsame := hoff.symm.trans (hkeeps.trans hentry)
      contradiction
  | suspended t' k => rw [hrun] at hreturn; contradiction
  | halted t' => rw [hrun] at hreturn; contradiction
  | stuck => rw [hrun] at hreturn; contradiction

/-- An exclusive future whose value has been set. -/
def readyFuture : Futures :=
  { bootFutures smallBoard with
    future := fun f => if f = 8 then some ⟨5, .futureReady, .futureExclusive, -1, -1, -1⟩ else none }

/-- A machine with an address, but without a router, that has a packet for another network. -/
def noRoute : State :=
  { bootNet smallBoard with
    netData := ⟨0x0A000002, 0x0A0000FF, 0xFFFFFF00, 0x0A000000, 0, true, fun _ => 0, fun _ => 0xFF⟩
    packets := fun _ => { Netpacket.zero with ipdst := 0x0B000001, ipproto := ipIcmp } }

end Net
end Xinu
