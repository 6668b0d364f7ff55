import Xinu.Net.Udp
import Xinu.Kernel.BufferPoolSpec

/-!
# What the UDP procedures do to the endpoints

Each procedure changes one entry of the table at most, and gives the processor away
only before or after that.  A receive that finds no packet waits before.

Main results:

- Theorems `udpIn_arrives`, `udpRegister_run`, `udpRelease_releases`: what a procedure
  does to the table.
- Theorem `udpReceive_begins`: what a receive does before it waits.
- Theorem `udpWoken_within`: what it does afterwards.
-/

namespace Xinu
namespace Net

open Foundations Function

variable {t t' t₁ : State} {me : Int} {slot : Nat}

/-- The packets in the queue of an endpoint. -/
def contents (e : Udpentry) : List Nat :=
  Ring.window udpQsiz e.udqueue e.udhead e.udcount.toNat

/-- The queue of an endpoint is a ring buffer. -/
def Udpentry.Fits (e : Udpentry) : Prop :=
  Ring.Fits udpQsiz e.udhead e.udtail e.udcount

theorem udptab_elsewhere : Elsewhere State.udptab :=
  ⟨fun _ _ => rfl, fun _ _ => rfl, fun _ _ => rfl⟩

/-- The endpoints stay the same, and the kernel is calm. -/
abbrev Quiet : State → State → Prop :=
  Aside State.udptab

/-! ## Entries -/

@[simp]
theorem udstate_udpPush (buf : Nat) (e : Udpentry) : (udpPush buf e).udstate = e.udstate :=
  rfl

@[simp]
theorem udstate_udpPop (e : Udpentry) : (udpPop e).udstate = e.udstate :=
  rfl

theorem fits_push {e : Udpentry} (h : e.Fits) (hroom : e.udcount < udpQsiz) (buf : Nat) :
    (udpPush buf e).Fits :=
  Ring.Fits.push h hroom

theorem fits_pop {e : Udpentry} (h : e.Fits) (hpos : 0 < e.udcount) : (udpPop e).Fits :=
  Ring.Fits.pop h hpos

theorem contents_push {e : Udpentry} (h : e.Fits) (hroom : e.udcount < udpQsiz) (buf : Nat) :
    contents (udpPush buf e) = contents e ++ [buf] :=
  Ring.window_push h hroom buf

theorem contents_pop {e : Udpentry} (hpos : 0 < e.udcount) :
    contents e = e.udqueue e.udhead :: contents (udpPop e) :=
  Ring.window_pop hpos

theorem contents_opened (remip : UInt32) (remport locport : UInt16) (e : Udpentry) :
    contents (udpOpened remip remport locport e) = [] :=
  rfl

theorem fits_opened (remip : UInt32) (remport locport : UInt16) (e : Udpentry) :
    (udpOpened remip remport locport e).Fits := by
  have hfits : Ring.Fits udpQsiz 0 0 0 := by constructor <;> decide
  exact hfits

theorem udpFind_some {tab : Nat → Udpentry} {pkt : Netpacket} {i : Nat}
    (h : udpFind tab pkt = some i) :
    i < udpSlots ∧ (tab i).udstate ≠ .udpFree ∧ (tab i).udcount < udpQsiz := by
  have hfound := List.find?_some h
  have hmem := List.mem_of_find?_eq_some h
  simp only [decide_eq_true_eq] at hfound
  exact ⟨List.mem_range.mp hmem, hfound.1.1, hfound.2⟩

/-! ## Packets that arrive -/

/-- The entry after a packet was put in its queue. -/
def udpQueued (buf : Nat) (e : Udpentry) : Udpentry :=
  { udpPush buf e with udstate := if e.udstate = .udpRecv then .udpUsed else e.udstate }

/-- What `udp_in` does with a packet. -/
inductive Arrived (pkt : Netpacket) (buf : Nat) (t t' : State) : Prop where
  | discarded (hfind : udpFind t.udptab pkt = none) (h : Quiet t t')
  | queued (i : Nat) (hfind : udpFind t.udptab pkt = some i)
      (htab : t'.udptab = update t.udptab i (udpQueued buf (t.udptab i)))
      (hcalm : Calm (if (t.udptab i).udstate = .udpRecv then
        sent (kernelOf t) (t.udptab i).udpid ok else kernelOf t) (kernelOf t'))

theorem Arrived.quiet {pkt : Netpacket} {buf : Nat} (h : Arrived pkt buf t t₁) (hq : Quiet t₁ t') :
    Arrived pkt buf t t' := by
  cases h with
  | discarded hfind h => exact .discarded hfind (trans_of Quiet h hq)
  | queued i hfind htab hcalm =>
      exact .queued i hfind (hq.view.trans htab) (trans_of Calm hcalm hq.calm)

theorem udpIn_arrives (pkt : Netpacket) (buf : Nat) (t : State) :
    ∃ t₁, Arrived pkt buf t t₁ ∧ (UdpCall.exec (.udpIn pkt buf) t).Within Quiet t₁ := by
  obtain ⟨t₀, ht₀⟩ : ∃ t₀ : State, { t with packets := update t.packets buf pkt } = t₀ := ⟨_, rfl⟩
  obtain ⟨mask, hmask⟩ : ∃ mask, maskOf t₀ (kernelOf t₀).currpid = mask := ⟨_, rfl⟩
  obtain ⟨t₁, ht₁⟩ : ∃ t₁, withMask t₀ false = t₁ := ⟨_, rfl⟩
  have htab : t₁.udptab = t.udptab := by rw [← ht₁, ← ht₀]; rfl
  have hkernel : kernelOf t₁ = kernelOf t := by rw [← ht₁, kernelOf_withMask, ← ht₀]; rfl
  have hpkt : t₁.packets buf = pkt := by rw [← ht₁, ← ht₀]; exact update_self _ _ _
  have hend : (do restore mask; return ok : NetM Int).Within Quiet :=
    .bind (restore_aside udptab_elsewhere _) fun _ => .pure _
  cases hfind : udpFind t.udptab pkt with
  | none =>
      have hrun : UdpCall.exec (.udpIn pkt buf) t =
          (do let _ ← freebuf buf; restore mask; return ok : NetM Int) t₁ := by
        simp [UdpCall.exec, Net.udpIn, setPacket, ht₀, ht₁, htab, hpkt, hfind, hmask,
          Flow.bind_assoc]
        rfl
      refine ⟨t₁, .discarded hfind ⟨htab, by rw [hkernel]; exact refl_of Calm _⟩, ?_⟩
      rw [hrun]
      exact Coop.Within.bind (freebuf_aside udptab_elsewhere _) (fun _ => hend) t₁
  | some i =>
      obtain ⟨t₂, ht₂⟩ : ∃ t₂ : State,
          { t₁ with udptab := update t₁.udptab i (udpQueued buf (t₁.udptab i)) } = t₂ := ⟨_, rfl⟩
      have htab₂ : t₂.udptab = update t.udptab i (udpQueued buf (t.udptab i)) := by
        rw [← ht₂, ← htab]
      have hkernel₂ : kernelOf t₂ = kernelOf t := by
        rw [← hkernel, ← ht₂]
        rfl
      by_cases hrecv : (t.udptab i).udstate = .udpRecv
      · have hrun : UdpCall.exec (.udpIn pkt buf) t =
            ((onKernel (send (t.udptab i).udpid ok) : NetM Int) t₂).bind fun _ =>
              (do restore mask; return ok : NetM Int) := by
          rw [← ht₂]
          simp [UdpCall.exec, Net.udpIn, setPacket, setUdp, ht₀, ht₁, htab, hpkt, hfind, hmask,
            hrecv, udpQueued, udpPush, Flow.bind_assoc]
          rfl
        obtain ⟨t₃, ht₃⟩ : ∃ t₃, withKernel t₂ (sent (kernelOf t₂) (t.udptab i).udpid ok) = t₃ :=
          ⟨_, rfl⟩
        have htab₃ : t₃.udptab = update t.udptab i (udpQueued buf (t.udptab i)) := by
          rw [← ht₃, ← htab₂]
          rfl
        refine ⟨t₃, ?_, ?_⟩
        · apply Arrived.queued i hfind htab₃
          rw [if_pos hrecv, ← ht₃, kernelOf_withKernel, hkernel₂]
          exact refl_of Calm _
        · rw [hrun, ← ht₃]
          exact (send_aside udptab_elsewhere _ _ _).bind fun _ => hend
      · have hrun : UdpCall.exec (.udpIn pkt buf) t =
            (do restore mask; return ok : NetM Int) t₂ := by
          rw [← ht₂]
          simp [UdpCall.exec, Net.udpIn, setPacket, setUdp, ht₀, ht₁, htab, hpkt, hfind, hmask,
            hrecv, udpQueued, udpPush]
        refine ⟨t₂, ?_, ?_⟩
        · apply Arrived.queued i hfind htab₂
          rw [if_neg hrecv, hkernel₂]
          exact refl_of Calm _
        · rw [hrun]
          exact hend t₂

/-! ## Endpoints that open and close -/

/-- What `udp_register` does. -/
inductive Registered (remip : UInt32) (remport locport : UInt16) (v : Int) (t t' : State) :
    Prop where
  | refused (hv : v = syserr) (h : Quiet t t')
  | opened (i : Nat) (hlt : i < udpSlots) (hv : v = i) (hfree : (t.udptab i).udstate = .udpFree)
      (htab : t'.udptab = update t.udptab i (udpOpened remip remport locport (t.udptab i)))
      (hcalm : Calm (kernelOf t) (kernelOf t'))

theorem udpRegister_run (remip : UInt32) (remport locport : UInt16) (t : State) :
    ∃ v t', udpRegister remip remport locport t = .done v t' ∧
      Registered remip remport locport v t t' := by
  have hmask : ∀ mask mask', Quiet t (withMask (withMask t mask) mask') := fun mask mask' =>
    trans_of Quiet (aside_withMask udptab_elsewhere t mask) (aside_withMask udptab_elsewhere _ _)
  have htab : (withMask t false).udptab = t.udptab := rfl
  cases hused : udpRegistered t.udptab remip remport locport with
  | true =>
      refine ⟨syserr, _, ?_, .refused rfl (hmask false (maskOf t (kernelOf t).currpid))⟩
      simp [udpRegister, htab, hused]
  | false =>
      cases hfind : udpVacant t.udptab with
      | none =>
          refine ⟨syserr, _, ?_, .refused rfl (hmask false (maskOf t (kernelOf t).currpid))⟩
          simp [udpRegister, htab, hused, hfind]
      | some i =>
          have hfree := List.find?_some hfind
          have hmem := List.mem_of_find?_eq_some hfind
          simp only [decide_eq_true_eq] at hfree
          obtain ⟨e, he⟩ : ∃ e, udpOpened remip remport locport (t.udptab i) = e := ⟨_, rfl⟩
          obtain ⟨t₁, ht₁⟩ : ∃ t₁ : State,
              { withMask t false with udptab := update t.udptab i e } = t₁ := ⟨_, rfl⟩
          have hrun : udpRegister remip remport locport t =
              .done i (withMask t₁ (maskOf t (kernelOf t).currpid)) := by
            rw [← ht₁, ← he]
            simp [udpRegister, setUdp, htab, hused, hfind]
          refine ⟨i, _, hrun, .opened i (List.mem_range.mp hmem) rfl hfree ?_ ?_⟩
          · rw [he, ← ht₁]
            rfl
          · rw [kernelOf_withMask, ← ht₁]
            exact (aside_withMask udptab_elsewhere t false).calm

/-- One entry may have changed, and the kernel is calm. -/
def Rewrites (i : Nat) (t t' : State) : Prop :=
  (∃ e, t'.udptab = update t.udptab i e) ∧ Calm (kernelOf t) (kernelOf t')

instance (i : Nat) : IsPreorder State (Rewrites i) where
  refl t := ⟨⟨t.udptab i, (update_eq_self i _).symm⟩, refl_of Calm _⟩
  trans _ _ _ h h' := by
    obtain ⟨⟨e, he⟩, hcalm⟩ := h
    obtain ⟨⟨e', he'⟩, hcalm'⟩ := h'
    exact ⟨⟨e', by rw [he', he, update_idem]⟩, trans_of Calm hcalm hcalm'⟩

theorem Quiet.rewrites (h : Quiet t t') (i : Nat) : Rewrites i t t' :=
  ⟨⟨t.udptab i, by rw [h.view, update_eq_self]⟩, h.calm⟩

theorem setUdp_rewrites (i : Nat) (f : Udpentry → Udpentry) : (setUdp i f).Within (Rewrites i) :=
  .modify fun t => ⟨⟨f (t.udptab i), rfl⟩, refl_of Calm (kernelOf t)⟩

theorem udpDrain_rewrites (i n : Nat) : (udpDrain i n).Within (Rewrites i) := by
  induction n with
  | zero => exact .read fun t => .ite .diverge (.pure _)
  | succ n ih =>
      refine .read fun t => .ite ?_ (.pure _)
      refine .bind (setUdp_rewrites i _) fun _ => .bind ?_ fun _ => ?_
      · intro t
        exact (freebuf_aside udptab_elsewhere _ t).mono fun _ _ h => Quiet.rewrites h i
      · exact .bind (setUdp_rewrites i _) fun _ => ih

theorem udpDrain_undivided (i n : Nat) :
    Undivided (fun t => ndefersOf (kernelOf t)) (udpDrain i n) := by
  induction n with
  | zero => exact .read fun t => .ite .diverge (.pure _)
  | succ n ih =>
      refine .read fun t => .ite (.bind (.modify fun _ => rfl) fun _ => ?_) (.pure _)
      refine .bind (freebuf_undivided udptab_elsewhere.kernel _) fun _ => ?_
      exact .bind (.modify fun _ => rfl) fun _ => ih

/-- What `udp_release` does. -/
inductive Released (slot : Int) (t t' : State) : Prop where
  | refused (h : Quiet t t')
  | closed (i : Nat) (hslot : slot = i) (hlt : i < udpSlots) (e : Udpentry)
      (hfree : e.udstate = .udpFree) (htab : t'.udptab = update t.udptab i e)
      (hcalm : Calm (kernelOf t) (kernelOf t'))

/-- One more deferral is possible. -/
def MayDefer (s : Kernel) : Prop :=
  0 ≤ s.defer.ndefers ∧ s.defer.ndefers + 1 < 0x80000000

instance (s : Kernel) : Decidable (MayDefer s) :=
  inferInstanceAs (Decidable (_ ∧ _))

theorem deferStart_run {s : Kernel} (h : MayDefer s) :
    ∃ s', reschedCntl deferStart s = .done ok s' ∧ 0 < ndefersOf s' ∧ Calm s s' := by
  obtain ⟨hpos, hmax⟩ := h
  have hi : i32 (s.defer.ndefers + 1) = s.defer.ndefers + 1 := i32_eq (by omega) hmax
  by_cases hzero : s.defer.ndefers = 0
  · have hone : i32 1 = 1 := by decide
    have hpos : 0 < (1 : Int) := by decide
    exact ⟨{ s with defer := ⟨1, false⟩ }, by simp [reschedCntl, hzero, hone], hpos,
      calm_blind.defer s _⟩
  · refine ⟨{ s with defer := ⟨s.defer.ndefers + 1, s.defer.attempt⟩ }, ?_, ?_,
      calm_blind.defer s _⟩
    · simp [reschedCntl, hzero, hi]
    · show 0 < s.defer.ndefers + 1
      omega

/-- `udp_release` empties the queue and frees the entry in one stretch. -/
theorem udpRelease_releases (slot : Int) (t : State) (hdefer : MayDefer (kernelOf t)) :
    (∃ t₁, Released slot t t₁ ∧ (Net.udpRelease slot t).Within Quiet t₁) ∨
      Net.udpRelease slot t = .stuck := by
  obtain ⟨t₁, ht₁⟩ : ∃ t₁, withMask t false = t₁ := ⟨_, rfl⟩
  obtain ⟨mask, hmask⟩ : ∃ mask, maskOf t (kernelOf t).currpid = mask := ⟨_, rfl⟩
  have hquiet : Quiet t t₁ := ht₁ ▸ aside_withMask udptab_elsewhere t false
  have hkernel : kernelOf t₁ = kernelOf t := by rw [← ht₁, kernelOf_withMask]
  have htab : t₁.udptab = t.udptab := hquiet.view
  by_cases hslot : slot < 0 ∨ slot ≥ udpSlots
  · left
    refine ⟨t₁, .refused hquiet, ?_⟩
    have hrun : Net.udpRelease slot t = .done syserr (withMask t₁ mask) := by
      simp [Net.udpRelease, hslot, ht₁, hmask]
    rw [hrun]
    exact aside_withMask udptab_elsewhere t₁ mask
  obtain ⟨i, rfl⟩ : ∃ i : Nat, slot = i := Int.eq_ofNat_of_zero_le (by omega)
  have hneg : ¬ (i : Int) < 0 := by omega
  have hbig : ¬ udpSlots ≤ i := by omega
  by_cases hfree : (t.udptab i).udstate = .udpFree
  · left
    refine ⟨t₁, .refused hquiet, ?_⟩
    have hrun : Net.udpRelease i t = .done syserr (withMask t₁ mask) := by
      simp [Net.udpRelease, hneg, hbig, ht₁, hmask, htab, hfree]
    rw [hrun]
    exact aside_withMask udptab_elsewhere t₁ mask
  obtain ⟨s, hstart, hpos, hcalm⟩ := deferStart_run hdefer
  obtain ⟨t₂, ht₂⟩ : ∃ t₂, withKernel t₁ s = t₂ := ⟨_, rfl⟩
  have hkernel₂ : kernelOf t₂ = s := by rw [← ht₂, kernelOf_withKernel]
  have hstart' : (onKernel (reschedCntl deferStart) : NetM Int) t₁ = .done ok t₂ := by
    rw [run_onKernel, hkernel, hstart, ← ht₂]
    rfl
  have hrun : Net.udpRelease i t =
      (udpDrain i (t.udptab i).udcount.toNat t₂).bind fun _ => (do
        setUdp i fun e => { e with udstate := .udpFree }
        let _ ← onKernel (reschedCntl deferStop)
        restore mask
        return ok : NetM Int) := by
    simp [Net.udpRelease, hneg, hbig, ht₁, hmask, htab, hfree, hstart']
  have hwithin := udpDrain_rewrites i (t.udptab i).udcount.toNat t₂
  have hpos₂ : 0 < ndefersOf (kernelOf t₂) := by rwa [hkernel₂]
  rcases udpDrain_undivided i (t.udptab i).udcount.toNat t₂ hpos₂ with
    ⟨⟨⟩, t₃, hdrain, -⟩ | hdrain
  · rw [hdrain] at hwithin
    obtain ⟨⟨e, he⟩, hcalm₃⟩ := hwithin
    obtain ⟨e', he'⟩ : ∃ e', { e with udstate := .udpFree } = e' := ⟨_, rfl⟩
    obtain ⟨t₄, ht₄⟩ : ∃ t₄, { t₃ with udptab := update t₃.udptab i e' } = t₄ := ⟨_, rfl⟩
    have htab₂ : t₂.udptab = t.udptab := by
      rw [← htab, ← ht₂]
      rfl
    have hend : Net.udpRelease i t = (do
        let _ ← onKernel (reschedCntl deferStop)
        restore mask
        return ok : NetM Int) t₄ := by
      rw [hrun, hdrain, ← ht₄, ← he', Flow.bind_done]
      simp [setUdp, he]
    left
    refine ⟨t₄, .closed i rfl (by omega) e' (by rw [← he']) ?_ ?_, ?_⟩
    · rw [← ht₄, he, htab₂, update_idem]
    · have hcalm₄ : Calm (kernelOf t₂) (kernelOf t₄) := by
        rw [← ht₄]
        exact hcalm₃
      rw [hkernel₂] at hcalm₄
      exact trans_of Calm hcalm hcalm₄
    · rw [hend]
      refine Coop.Within.bind (onKernel_aside udptab_elsewhere ?_) (fun _ => ?_) t₄
      · exact reschedCntl_within calm_blind _
      · exact .bind (restore_aside udptab_elsewhere _) fun _ => .pure _
  · right
    rw [hrun, hdrain]
    rfl

/-! ## Packets that are received -/

/-- What `recvtime` returns to process `me`: the message that it has, or else `TIMEOUT`
or `SYSERR`. -/
def Gets (me v : Int) (s s' : Kernel) : Prop :=
  mailbox s me = [v] ∧ Took me s s' ∨ Calm s s' ∧ (v = timeout ∨ v = syserr)

/-- The caller of `recvtime` holds the processor when the call returns. -/
theorem recvtime_gets_current {s : Kernel} (maxwait : Int) (hs : s.currpid = me) :
    (recvtime maxwait s).Stretches (fun s => s.currpid = me)
      (fun s s' => ¬ Fresh s' me ∧ Calm s s') (fun v s s' => s'.currpid = me ∧ Gets me v s s')
      s := by
  have hgets : ∀ v s s', Answers me v s s' → s'.currpid = me ∧ Gets me v s s' := by
    intro v s s' ⟨hcur, h⟩
    refine ⟨hcur, ?_⟩
    rcases h with ⟨hmail, htook⟩ | ⟨-, hcalm, hv | ⟨hv, -⟩⟩
    · exact Or.inl ⟨hmail, htook⟩
    · exact Or.inr ⟨hcalm, Or.inl hv⟩
    · exact Or.inr ⟨hcalm, Or.inr hv⟩
  by_cases hneg : maxwait < 0
  · have hrun : recvtime maxwait s = .done syserr s := by simp [recvtime, hneg]
    rw [hrun]
    exact ⟨hs, Or.inr ⟨refl_of Calm s, Or.inr rfl⟩⟩
  · apply (recvtime_stretches (by omega) hs).mono
    · exact fun s' h => ⟨h.1, h.2.2⟩
    · exact fun v s' h => hgets v s s' h
    · exact fun s₁ s' _ h => ⟨h.1, h.2.2⟩
    · exact fun v s₁ s' _ h => hgets v s₁ s' h

theorem recvtime_gets {s : Kernel} (maxwait : Int) (hs : s.currpid = me) :
    (recvtime maxwait s).Stretches (fun s => s.currpid = me)
      (fun s s' => ¬ Fresh s' me ∧ Calm s s') (Gets me) s := by
  apply (recvtime_gets_current maxwait hs).mono
  · exact fun s' h => h
  · exact fun v s' h => h.2
  · exact fun s₁ s' _ h => h
  · exact fun v s₁ s' _ h => h.2

theorem Gets.outlives {v : Int} {s s' : Kernel} (h : Gets me v s s') (p : Int) :
    Outlives p s s' := by
  rcases h with ⟨-, htook⟩ | ⟨hcalm, -⟩
  · exact htook.outlives p
  · exact hcalm.outlives p

/-- Only its own message is taken. -/
theorem Gets.mail {v p : Int} {s s' : Kernel} (h : Gets me v s s') (hne : p ≠ me) :
    mailbox s' p = mailbox s p := by
  rcases h with ⟨-, htook⟩ | ⟨hcalm, -⟩
  · rw [htook.mail, if_neg hne]
  · exact mailbox_congr (congrFun hcalm.mail p)

section Receive

variable {note : Netpacket → Vars → Vars} {len : Int} {mask : Bool}

/-- A packet is taken before the processor is given away. -/
theorem udpTake_within (note : Netpacket → Vars → Vars) (i : Nat) (len : Int) (mask : Bool)
    (t : State) :
    ∃ t₁, kernelOf t₁ = kernelOf t ∧ t₁.udptab = update t.udptab i (udpPop (t.udptab i)) ∧
      (udpTake note i len mask t).Within Quiet t₁ := by
  obtain ⟨t₁, ht₁⟩ : ∃ t₁ : State,
      { t with udptab := update t.udptab i (udpPop (t.udptab i)) } = t₁ := ⟨_, rfl⟩
  have hvars : ∀ f, (setVars f).Within Quiet := fun f =>
    .modify fun t => ⟨rfl, refl_of Calm (kernelOf t)⟩
  refine ⟨t₁, by rw [← ht₁]; rfl, by rw [← ht₁], ?_⟩
  rw [← ht₁]
  unfold udpTake
  simp only [setUdp, Coop.run_bind, Coop.run_get, Flow.bind_done, Coop.run_modify]
  refine Coop.Within.bind (hvars _) (fun _ => ?_) _
  refine .bind (freebuf_aside udptab_elsewhere _) fun _ => ?_
  exact .bind (restore_aside udptab_elsewhere _) fun _ => .pure _

/-- The entry of an endpoint after a receive that waited on it has got the message. -/
def udpAwoken (msg : Int) (e : Udpentry) : Udpentry :=
  if msg = ok then udpPop { e with udstate := .udpUsed } else { e with udstate := .udpUsed }

theorem udpWoken_within (note : Netpacket → Vars → Vars) (i : Nat) (len : Int) (mask : Bool)
    (msg : Int) (t : State) :
    ∃ t₁, kernelOf t₁ = kernelOf t ∧ t₁.udptab = update t.udptab i (udpAwoken msg (t.udptab i)) ∧
      (udpWoken note i len mask msg t).Within Quiet t₁ := by
  obtain ⟨e, he⟩ : ∃ e, { t.udptab i with udstate := .udpUsed } = e := ⟨_, rfl⟩
  obtain ⟨t₁, ht₁⟩ : ∃ t₁ : State, { t with udptab := update t.udptab i e } = t₁ := ⟨_, rfl⟩
  have hkernel : kernelOf t₁ = kernelOf t := by rw [← ht₁]; rfl
  have htab : t₁.udptab = update t.udptab i e := by rw [← ht₁]
  by_cases hok : msg = ok
  · have hne : ok ≠ timeout := by decide
    have hrun : udpWoken note i len mask msg t = udpTake note i len mask t₁ := by
      rw [← ht₁, ← he]
      simp [udpWoken, setUdp, hok, hne]
    obtain ⟨t₂, hkernel₂, htab₂, hwithin⟩ := udpTake_within note i len mask t₁
    refine ⟨t₂, hkernel₂.trans hkernel, ?_, by rwa [hrun]⟩
    rw [htab₂, htab, update_self, update_idem]
    unfold udpAwoken
    rw [if_pos hok, he]
  · refine ⟨t₁, hkernel, ?_, ?_⟩
    · unfold udpAwoken
      rw [if_neg hok, he, htab]
    · have hrun : ∃ v, udpWoken note i len mask msg t = .done v (withMask t₁ mask) := by
        rw [← ht₁, ← he]
        by_cases htimeout : msg = timeout
        · exact ⟨timeout, by simp [udpWoken, setUdp, htimeout]⟩
        · exact ⟨syserr, by simp [udpWoken, setUdp, htimeout, hok]⟩
      obtain ⟨v, hrun⟩ := hrun
      rw [hrun]
      exact aside_withMask udptab_elsewhere t₁ mask

/-- The entry of an endpoint on which process `me` waits. -/
def udpWaiting (me : Int) (e : Udpentry) : Udpentry :=
  { e with udstate := .udpRecv, udpid := me }

/-- What a receive does before it waits, if it waits. -/
inductive Begins (note : Netpacket → Vars → Vars) (slot len : Int) (maxwait : Nat) (t : State) :
    Flow State Int → Prop where
  | refused {x : Flow State Int} (h : x.Within Quiet t) : Begins note slot len maxwait t x
  | takes {x : Flow State Int} {t₁ : State} (i : Nat) (hslot : slot = i) (hlt : i < udpSlots)
      (hused : (t.udptab i).udstate = .udpUsed) (hcount : (t.udptab i).udcount ≠ 0)
      (hkernel : kernelOf t₁ = kernelOf t)
      (htab : t₁.udptab = update t.udptab i (udpPop (t.udptab i))) (h : x.Within Quiet t₁) :
      Begins note slot len maxwait t x
  | waits {t₁ : State} (i : Nat) (hslot : slot = i) (hlt : i < udpSlots) (mask : Bool)
      (hused : (t.udptab i).udstate = .udpUsed) (hcount : (t.udptab i).udcount = 0)
      (hcur : (kernelOf t₁).currpid = (kernelOf t).currpid)
      (htook : Took (kernelOf t).currpid (kernelOf t) (kernelOf t₁))
      (htab : t₁.udptab =
        update t.udptab i (udpWaiting (kernelOf t).currpid (t.udptab i))) :
      Begins note slot len maxwait t
        (((onKernel (recvtime (i32 maxwait)) : NetM Int) t₁).bind fun msg =>
          udpWoken note i len mask (i32 msg))

/-- What a receive does until it waits, in an entry that is in use and has no packet. -/
theorem udpReceive_waits (note : Netpacket → Vars → Vars) {i : Nat} (len : Int) (maxwait : Nat)
    (hlt : i < udpSlots) (hused : (t.udptab i).udstate = .udpUsed)
    (hcount : (t.udptab i).udcount = 0) :
    ∃ t₁ mask, (kernelOf t₁).currpid = (kernelOf t).currpid ∧
      Took (kernelOf t).currpid (kernelOf t) (kernelOf t₁) ∧
      t₁.udptab = update t.udptab i (udpWaiting (kernelOf t).currpid (t.udptab i)) ∧
      udpReceive note i len maxwait t =
        ((onKernel (recvtime (i32 maxwait)) : NetM Int) t₁).bind fun msg =>
          udpWoken note i len mask (i32 msg) := by
  obtain ⟨t₁, ht₁⟩ : ∃ t₁, withMask t false = t₁ := ⟨_, rfl⟩
  obtain ⟨mask, hmask⟩ : ∃ mask, maskOf t (kernelOf t).currpid = mask := ⟨_, rfl⟩
  have hkernel : kernelOf t₁ = kernelOf t := by rw [← ht₁, kernelOf_withMask]
  have htab : t₁.udptab = t.udptab := by rw [← ht₁]; rfl
  have hneg : ¬ (i : Int) < 0 := by omega
  have hbig : ¬ udpSlots ≤ i := by omega
  obtain ⟨e, he⟩ : ∃ e, udpWaiting (kernelOf t).currpid (t.udptab i) = e := ⟨_, rfl⟩
  obtain ⟨t₂, ht₂⟩ : ∃ t₂ : State, { t₁ with udptab := update t₁.udptab i e } = t₂ := ⟨_, rfl⟩
  have hkernel₂ : kernelOf t₂ = kernelOf t := by
    rw [← hkernel, ← ht₂]
    rfl
  obtain ⟨v, s, hclr, hcur, htook⟩ := recvclr_took (kernelOf t)
  have hclr' : (onKernel recvclr : NetM Int) t₂ = .done v (withKernel t₂ s) := by
    rw [run_onKernel, hkernel₂, hclr]
    rfl
  have hset : (setUdp i fun e => { e with udstate := .udpRecv, udpid := (kernelOf t).currpid })
      t₁ = .done ⟨⟩ t₂ := by
    rw [← ht₂, ← he, htab]
    simp [setUdp, udpWaiting, htab]
  obtain ⟨x, hx⟩ : ∃ x : NetM Int, onKernel (recvtime (i32 maxwait)) = x := ⟨_, rfl⟩
  refine ⟨withKernel t₂ s, mask, ?_, ?_, ?_, ?_⟩
  · rw [kernelOf_withKernel]
    exact hcur
  · rw [kernelOf_withKernel]
    exact htook
  · rw [he, ← htab, ← ht₂]
    rfl
  · simp [udpReceive, hneg, hbig, ht₁, hmask, htab, hused, hcount, hkernel, hset, hclr', hx]

theorem udpReceive_begins (note : Netpacket → Vars → Vars) (slot len : Int) (maxwait : Nat)
    (t : State) : Begins note slot len maxwait t (udpReceive note slot len maxwait t) := by
  obtain ⟨t₁, ht₁⟩ : ∃ t₁, withMask t false = t₁ := ⟨_, rfl⟩
  obtain ⟨mask, hmask⟩ : ∃ mask, maskOf t (kernelOf t).currpid = mask := ⟨_, rfl⟩
  have hquiet : Quiet t t₁ := ht₁ ▸ aside_withMask udptab_elsewhere t false
  have hkernel : kernelOf t₁ = kernelOf t := by rw [← ht₁, kernelOf_withMask]
  have htab : t₁.udptab = t.udptab := hquiet.view
  have hrefused : Quiet t (withMask t₁ mask) :=
    trans_of Quiet hquiet (aside_withMask udptab_elsewhere t₁ mask)
  by_cases hslot : slot < 0 ∨ slot ≥ udpSlots
  · have hrun : udpReceive note slot len maxwait t = .done syserr (withMask t₁ mask) := by
      simp [udpReceive, hslot, ht₁, hmask]
    rw [hrun]
    exact .refused hrefused
  obtain ⟨i, rfl⟩ : ∃ i : Nat, slot = i := Int.eq_ofNat_of_zero_le (by omega)
  have hneg : ¬ (i : Int) < 0 := by omega
  have hbig : ¬ udpSlots ≤ i := by omega
  by_cases hused : (t.udptab i).udstate = .udpUsed
  swap
  · have hrun : udpReceive note i len maxwait t = .done syserr (withMask t₁ mask) := by
      simp [udpReceive, hneg, hbig, ht₁, hmask, htab, hused]
    rw [hrun]
    exact .refused hrefused
  by_cases hcount : (t.udptab i).udcount = 0
  · obtain ⟨t₂, mask', hcur, htook, htab₂, hrun⟩ :=
      udpReceive_waits note len maxwait (by omega) hused hcount
    rw [hrun]
    exact .waits i rfl (by omega) mask' hused hcount hcur htook htab₂
  · have hrun : udpReceive note i len maxwait t = udpTake note i len mask t₁ := by
      simp [udpReceive, hneg, hbig, ht₁, hmask, htab, hused, hcount]
    obtain ⟨t₂, hkernel₂, htab₂, hwithin⟩ := udpTake_within note i len mask t₁
    rw [hrun]
    rw [htab] at htab₂
    exact .takes i rfl (by omega) hused hcount (hkernel₂.trans hkernel) htab₂ hwithin

end Receive

end Net
end Xinu
