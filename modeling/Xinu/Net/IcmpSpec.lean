import Xinu.Net.Icmp
import Xinu.Net.UdpSpec

/-!
# What the ICMP procedures do to the endpoints

Each procedure changes one entry of the table at most, and gives the processor away
only before or after that.  A receive also writes the buffer of its caller.

Main results:

- Theorems `icmpIn_arrives`, `icmpRegister_run`, `icmpRelease_releases`: what a procedure
  does to the table.
- Theorem `icmpRecv_begins`: what a receive does before it waits.
- Theorem `icmpTake_begins`: what it does with the packet that it takes.
-/

namespace Xinu
namespace Net
namespace Icmp

open Foundations Function

variable {t t' t₁ : State} {me : Int} {slot i : Nat} {pkt : Netpacket} {buf : Nat}

/-- The packets in the queue of an endpoint. -/
def contents (e : Icmpentry) : List Nat :=
  Ring.window icmpQsiz e.icqueue e.ichead e.iccount.toNat

/-- The queue of an endpoint is a ring buffer. -/
def Fits (e : Icmpentry) : Prop :=
  Ring.Fits icmpQsiz e.ichead e.ictail e.iccount

/-- The endpoints, the packet buffers and the buffers of the processes. -/
def viewed (t : State) : (Nat → Icmpentry) × (Nat → Netpacket) × (Int → Vars) :=
  (t.icmptab, t.packets, t.vars)

theorem viewed_elsewhere : Elsewhere viewed :=
  ⟨fun _ _ => rfl, fun _ _ => rfl, fun _ _ => rfl⟩

/-- These stay the same, and the kernel is calm. -/
abbrev Quiet : State → State → Prop :=
  Aside viewed

theorem Quiet.icmptab (h : Quiet t t') : t'.icmptab = t.icmptab :=
  congrArg Prod.fst h.view

theorem Quiet.packets (h : Quiet t t') : t'.packets = t.packets :=
  congrArg (fun v => v.2.1) h.view

theorem Quiet.vars (h : Quiet t t') : t'.vars = t.vars :=
  congrArg (fun v => v.2.2) h.view

/-- Only entry `i` may have changed, to `e`. -/
structure Rewritten (i : Nat) (e : Icmpentry) (t t' : State) : Prop where
  icmptab : t'.icmptab = update t.icmptab i e
  packets : t'.packets = t.packets
  vars : t'.vars = t.vars

theorem Rewritten.quiet {e : Icmpentry} (h : Rewritten i e t t₁) (hq : Quiet t₁ t') :
    Rewritten i e t t' :=
  ⟨hq.icmptab.trans h.icmptab, hq.packets.trans h.packets, hq.vars.trans h.vars⟩

/-! ## Entries -/

theorem fits_push {e : Icmpentry} (h : Fits e) (hroom : e.iccount < icmpQsiz) (buf : Nat) :
    Fits (icmpPush buf e) :=
  Ring.Fits.push h hroom

theorem contents_push {e : Icmpentry} (h : Fits e) (hroom : e.iccount < icmpQsiz) (buf : Nat) :
    contents (icmpPush buf e) = contents e ++ [buf] :=
  Ring.window_push h hroom buf

/-- Before its last cell, the head goes on as that of a ring buffer. -/
theorem next_head {e : Icmpentry} (hlt : e.ichead < icmpQsiz - 1) :
    Ring.next icmpSlots e.ichead = Ring.next icmpQsiz e.ichead := by
  unfold icmpQsiz at hlt
  unfold Ring.next icmpSlots icmpQsiz
  rw [if_neg (by omega), if_neg (by omega)]

theorem fits_pop {e : Icmpentry} (h : Fits e) (hpos : 0 < e.iccount)
    (hlt : e.ichead < icmpQsiz - 1) : Fits (icmpPop e) := by
  have hfits := Ring.Fits.pop h hpos
  rw [← next_head hlt] at hfits
  exact hfits

theorem contents_pop {e : Icmpentry} (hpos : 0 < e.iccount) (hlt : e.ichead < icmpQsiz - 1) :
    contents e = e.icqueue e.ichead :: contents (icmpPop e) := by
  have hpop := @Ring.window_pop Nat icmpQsiz e.ichead e.iccount e.icqueue hpos
  rw [← next_head hlt] at hpop
  exact hpop

theorem contents_opened (remip : UInt32) (e : Icmpentry) : contents (icmpOpened remip e) = [] :=
  rfl

theorem fits_opened (remip : UInt32) (e : Icmpentry) : Fits (icmpOpened remip e) := by
  have hfits : Ring.Fits icmpQsiz 0 0 0 := by constructor <;> decide
  exact hfits

/-! ## Packets that arrive -/

/-- The packet is an echo reply for the endpoint. -/
def IsReplyTo (tab : Nat → Icmpentry) (pkt : Netpacket) (i : Nat) : Prop :=
  pkt.ictype = icmpEchoreply ∧ pkt.icident.toNat = i ∧ (i : Int) < icmpSlots ∧
    (tab i).icstate ≠ .icmpFree ∧ pkt.ipsrc = (tab i).icremip

instance (tab : Nat → Icmpentry) (pkt : Netpacket) (i : Nat) : Decidable (IsReplyTo tab pkt i) :=
  inferInstanceAs (Decidable (_ ∧ _ ∧ _ ∧ _ ∧ _))

theorem IsReplyTo.slot_eq {tab : Nat → Icmpentry} {j : Nat} (h : IsReplyTo tab pkt i)
    (h' : IsReplyTo tab pkt j) : i = j :=
  h.2.1.symm.trans h'.2.1

/-- The entry after a packet was put in its queue. -/
def icmpQueued (buf : Nat) (e : Icmpentry) : Icmpentry :=
  { icmpPush buf e with icstate := if e.icstate = .icmpRecv then .icmpUsed else e.icstate }

/-- The packet is in the buffer. -/
def filled (pkt : Netpacket) (buf : Nat) (t : State) : State :=
  { t with packets := update t.packets buf pkt }

/-- What `icmp_in` does with a packet that is no echo request. -/
inductive Arrived (pkt : Netpacket) (buf : Nat) (t t' : State) : Prop where
  | discarded (hnone : ∀ i, ¬ IsReplyTo t.icmptab pkt i) (h : Quiet (filled pkt buf t) t')
  | queued (i : Nat) (hreply : IsReplyTo t.icmptab pkt i)
      (h : Rewritten i (icmpQueued buf (t.icmptab i)) (filled pkt buf t) t')
      (hcalm : Calm (if (t.icmptab i).icstate = .icmpRecv then
        sent (kernelOf t) (t.icmptab i).icpid ok else kernelOf t) (kernelOf t'))

theorem Arrived.quiet (h : Arrived pkt buf t t₁) (hq : Quiet t₁ t') : Arrived pkt buf t t' := by
  cases h with
  | discarded hnone h => exact .discarded hnone (trans_of Quiet h hq)
  | queued i hreply h hcalm =>
      exact .queued i hreply (h.quiet hq) (trans_of Calm hcalm hq.calm)

/-- A packet for no endpoint. -/
theorem icmpIn_discards {s : State} (hnone : ∀ i, ¬ IsReplyTo s.icmptab (s.packets buf) i)
    (hreq : (s.packets buf).ictype ≠ icmpEchoreqst) :
    Net.icmpIn buf s = (do
      let _ ← freebuf buf
      restore (maskOf s (kernelOf s).currpid) : NetM Unit) (withMask s false) := by
  have htab : (withMask s false).icmptab = s.icmptab := rfl
  have hpackets : (withMask s false).packets = s.packets := rfl
  by_cases htype : (s.packets buf).ictype = icmpEchoreply
  · by_cases hslot : ((s.packets buf).icident.toNat : Int) ≥ icmpSlots
    · have hother : icmpEchoreply ≠ icmpEchoreqst := by decide
      simp [Net.icmpIn, hpackets, htype, hslot, hother]
    · have hmatch : (s.icmptab (s.packets buf).icident.toNat).icstate = .icmpFree ∨
          (s.packets buf).ipsrc ≠ (s.icmptab (s.packets buf).icident.toNat).icremip := by
        by_contra hmatch
        rw [not_or, not_not] at hmatch
        exact hnone _ ⟨htype, rfl, by omega, hmatch.1, hmatch.2⟩
      have hother : icmpEchoreply ≠ icmpEchoreqst := by decide
      simp [Net.icmpIn, htab, hpackets, htype, hslot, hother, hmatch]
  · simp [Net.icmpIn, hpackets, htype, hreq]

/-- A packet for endpoint `i`. -/
theorem icmpIn_queues {s : State} (h : IsReplyTo s.icmptab (s.packets buf) i) :
    ∃ s₁, Rewritten i (icmpQueued buf (s.icmptab i)) s s₁ ∧ kernelOf s₁ = kernelOf s ∧
      Net.icmpIn buf s = (if (s.icmptab i).icstate = .icmpRecv then do
          let _ ← onKernel (send (s.icmptab i).icpid ok)
          restore (maskOf s (kernelOf s).currpid)
        else restore (maskOf s (kernelOf s).currpid) : NetM Unit) s₁ := by
  obtain ⟨htype, hslot, hlt, hused, hsrc⟩ := h
  have htab : (withMask s false).icmptab = s.icmptab := rfl
  have hpackets : (withMask s false).packets = s.packets := rfl
  have hother : icmpEchoreply ≠ icmpEchoreqst := by decide
  have hslot' : ¬ ((i : Int) ≥ icmpSlots) := by omega
  obtain ⟨e, he⟩ : ∃ e, icmpQueued buf (s.icmptab i) = e := ⟨_, rfl⟩
  refine ⟨{ withMask s false with icmptab := update s.icmptab i e }, ⟨?_, rfl, rfl⟩, ?_, ?_⟩
  · rw [he]
  · exact kernelOf_withMask s false
  · by_cases hrecv : (s.icmptab i).icstate = .icmpRecv
    · simp [Net.icmpIn, setIcmp, htab, hpackets, htype, hslot, hother, hslot', hsrc, hrecv,
        ← he, icmpQueued, icmpPush]
    · simp [Net.icmpIn, setIcmp, htab, hpackets, htype, hslot, hother, hslot', hused, hsrc, hrecv,
        ← he, icmpQueued, icmpPush]

theorem icmpIn_arrives (pkt : Netpacket) (buf : Nat) (t : State)
    (hreq : pkt.ictype ≠ icmpEchoreqst) :
    ∃ t₁, Arrived pkt buf t t₁ ∧ (IcmpCall.exec (.icmpIn pkt buf) t).Within Quiet t₁ := by
  obtain ⟨t₀, ht₀⟩ : ∃ t₀, filled pkt buf t = t₀ := ⟨_, rfl⟩
  have hexec : IcmpCall.exec (.icmpIn pkt buf) t = (Net.icmpIn buf t₀).bind fun _ => pure ok := by
    rw [← ht₀]
    rfl
  have hpkt : t₀.packets buf = pkt := by
    rw [← ht₀]
    exact update_self _ _ _
  have htab : t₀.icmptab = t.icmptab := by
    rw [← ht₀]
    rfl
  have hkernel : kernelOf t₀ = kernelOf t := by
    rw [← ht₀]
    rfl
  have hok : ∀ u : Unit, ((fun _ => pure ok : Unit → NetM Int) u).Within Quiet := fun _ => .pure _
  have hrestore := fun mask => restore_aside viewed_elsewhere mask
  by_cases hreply : ∃ i, IsReplyTo t.icmptab pkt i
  · obtain ⟨i, hreply⟩ := hreply
    have hreply₀ := hreply
    rw [← htab, ← hpkt] at hreply₀
    obtain ⟨t₁, hrewritten, hkernel₁, hrun⟩ := icmpIn_queues hreply₀
    rw [htab, ← ht₀] at hrewritten
    rw [hexec, hrun, htab]
    by_cases hrecv : (t.icmptab i).icstate = .icmpRecv
    · refine ⟨withKernel t₁ (sent (kernelOf t₁) (t.icmptab i).icpid ok), .queued i hreply ?_ ?_, ?_⟩
      · exact ⟨hrewritten.icmptab, hrewritten.packets, hrewritten.vars⟩
      · rw [if_pos hrecv, kernelOf_withKernel, hkernel₁, hkernel]
        exact refl_of Calm _
      · rw [if_pos hrecv]
        exact ((send_aside viewed_elsewhere _ _ _).bind fun _ => hrestore _).bind hok
    · refine ⟨t₁, .queued i hreply hrewritten ?_, ?_⟩
      · rw [if_neg hrecv, hkernel₁, hkernel]
        exact refl_of Calm _
      · rw [if_neg hrecv]
        exact (hrestore _ t₁).bind hok
  · refine ⟨t₀, .discarded (fun i hi => hreply ⟨i, hi⟩) ?_, ?_⟩
    · rw [ht₀]
      exact refl_of Quiet t₀
    · rw [hexec, icmpIn_discards]
      · have hwithin := Coop.Within.bind (freebuf_aside viewed_elsewhere buf) fun _ =>
          hrestore (maskOf t₀ (kernelOf t₀).currpid)
        have hmask : Quiet t₀ (withMask t₀ false) := aside_withMask viewed_elsewhere t₀ false
        exact ((hwithin (withMask t₀ false)).after hmask).bind hok
      · rw [htab, hpkt]
        exact fun i hi => hreply ⟨i, hi⟩
      · rwa [hpkt]

/-! ## Endpoints that open and close -/

/-- What `icmp_register` does. -/
inductive Registered (remip : UInt32) (v : Int) (t t' : State) : Prop where
  | refused (hv : v = syserr) (h : Quiet t t')
  | opened (i : Nat) (hlt : i < icmpSlots) (hv : v = i) (hfree : (t.icmptab i).icstate = .icmpFree)
      (h : Rewritten i (icmpOpened remip (t.icmptab i)) t t')
      (hcalm : Calm (kernelOf t) (kernelOf t'))

/-- The slot to use is free. -/
theorem icmpScan_some {tab : Nat → Icmpentry} {remip : UInt32} {slots : List Nat}
    {freeslot v : Int} (h : icmpScan tab remip slots freeslot = some v) :
    v = freeslot ∨ ∃ i ∈ slots, v = i ∧ (tab i).icstate = .icmpFree := by
  induction slots generalizing freeslot with
  | nil =>
      unfold icmpScan at h
      exact Or.inl (Option.some_inj.mp h).symm
  | cons i slots ih =>
      unfold icmpScan at h
      split at h
      · next hfree =>
          rcases ih h with hv | ⟨j, hj, hv, hfree'⟩
          · split at hv
            · exact Or.inr ⟨i, List.mem_cons_self, hv, hfree⟩
            · exact Or.inl hv
          · exact Or.inr ⟨j, List.mem_cons_of_mem i hj, hv, hfree'⟩
      · split at h
        · contradiction
        · rcases ih h with hv | ⟨j, hj, hv, hfree'⟩
          · exact Or.inl hv
          · exact Or.inr ⟨j, List.mem_cons_of_mem i hj, hv, hfree'⟩

theorem icmpRegister_run (remip : UInt32) (t : State) :
    ∃ v t', icmpRegister remip t = .done v t' ∧ Registered remip v t t' := by
  have hmask : ∀ mask mask', Quiet t (withMask (withMask t mask) mask') := fun mask mask' =>
    trans_of Quiet (aside_withMask viewed_elsewhere t mask) (aside_withMask viewed_elsewhere _ _)
  have htab : (withMask t false).icmptab = t.icmptab := rfl
  cases hscan : icmpScan t.icmptab remip (List.range icmpSlots.toNat) (-1) with
  | none =>
      refine ⟨syserr, _, ?_, .refused rfl (hmask false (maskOf t (kernelOf t).currpid))⟩
      simp [icmpRegister, htab, hscan]
  | some v =>
      by_cases hv : v = -1
      · refine ⟨syserr, _, ?_, .refused rfl (hmask false (maskOf t (kernelOf t).currpid))⟩
        simp [icmpRegister, htab, hscan, hv]
      · obtain ⟨i, hmem, rfl, hfree⟩ := (icmpScan_some hscan).resolve_left hv
        obtain ⟨e, he⟩ : ∃ e, icmpOpened remip (t.icmptab i) = e := ⟨_, rfl⟩
        obtain ⟨t₁, ht₁⟩ : ∃ t₁ : State,
            { withMask t false with icmptab := update t.icmptab i e } = t₁ := ⟨_, rfl⟩
        have hrun : icmpRegister remip t =
            .done i (withMask t₁ (maskOf t (kernelOf t).currpid)) := by
          rw [← ht₁, ← he]
          simp [icmpRegister, setIcmp, htab, hscan, hv]
        have hlt := List.mem_range.mp hmem
        unfold icmpSlots at hlt
        refine ⟨i, _, hrun, .opened i (by unfold icmpSlots; omega) rfl hfree ⟨?_, ?_, ?_⟩ ?_⟩
        · rw [he, ← ht₁]
          rfl
        · rw [← ht₁]
          rfl
        · rw [← ht₁]
          rfl
        · rw [kernelOf_withMask, ← ht₁]
          exact (aside_withMask viewed_elsewhere t false).calm

/-- One entry may have changed, and the kernel is calm. -/
def Rewrites (i : Nat) (t t' : State) : Prop :=
  (∃ e, Rewritten i e t t') ∧ Calm (kernelOf t) (kernelOf t')

instance (i : Nat) : IsPreorder State (Rewrites i) where
  refl t := ⟨⟨t.icmptab i, (update_eq_self i _).symm, rfl, rfl⟩, refl_of Calm _⟩
  trans _ _ _ h h' := by
    obtain ⟨⟨e, he⟩, hcalm⟩ := h
    obtain ⟨⟨e', he'⟩, hcalm'⟩ := h'
    refine ⟨⟨e', ?_, he'.packets.trans he.packets, he'.vars.trans he.vars⟩,
      trans_of Calm hcalm hcalm'⟩
    rw [he'.icmptab, he.icmptab, update_idem]

theorem Quiet.rewrites (h : Quiet t t') (i : Nat) : Rewrites i t t' :=
  ⟨⟨t.icmptab i, by rw [h.icmptab, update_eq_self], h.packets, h.vars⟩, h.calm⟩

theorem setIcmp_rewrites (i : Nat) (f : Icmpentry → Icmpentry) :
    (setIcmp i f).Within (Rewrites i) :=
  .modify fun t => ⟨⟨f (t.icmptab i), rfl, rfl, rfl⟩, refl_of Calm (kernelOf t)⟩

theorem icmpDrain_rewrites (i n : Nat) : (icmpDrain i n).Within (Rewrites i) := by
  induction n with
  | zero => exact .read fun t => .ite .diverge (.pure _)
  | succ n ih =>
      refine .read fun t => .ite ?_ (.pure _)
      refine .bind (setIcmp_rewrites i _) fun _ => .bind ?_ fun _ => ?_
      · intro t
        exact (freebuf_aside viewed_elsewhere _ t).mono fun _ _ h => Quiet.rewrites h i
      · exact .bind (setIcmp_rewrites i _) fun _ => ih

theorem icmpDrain_undivided (i n : Nat) :
    Undivided (fun t => ndefersOf (kernelOf t)) (icmpDrain i n) := by
  induction n with
  | zero => exact .read fun t => .ite .diverge (.pure _)
  | succ n ih =>
      refine .read fun t => .ite (.bind (.modify fun _ => rfl) fun _ => ?_) (.pure _)
      refine .bind (freebuf_undivided viewed_elsewhere.kernel _) fun _ => ?_
      exact .bind (.modify fun _ => rfl) fun _ => ih

/-- What `icmp_release` does. -/
inductive Released (icmpid : Int) (t t' : State) : Prop where
  | refused (h : Quiet t t')
  | closed (i : Nat) (hslot : icmpid = i) (hlt : i < icmpSlots)
      (hused : (t.icmptab i).icstate = .icmpUsed) (e : Icmpentry)
      (hfree : e.icstate = .icmpFree) (h : Rewritten i e t t')
      (hcalm : Calm (kernelOf t) (kernelOf t'))

theorem Released.quiet {icmpid : Int} (h : Released icmpid t t₁) (hq : Quiet t₁ t') :
    Released icmpid t t' := by
  cases h with
  | refused h => exact .refused (trans_of Quiet h hq)
  | closed i hslot hlt hused e hfree h hcalm =>
      exact .closed i hslot hlt hused e hfree (h.quiet hq) (trans_of Calm hcalm hq.calm)

/-- `icmp_release` empties the queue and frees the entry in one stretch. -/
theorem icmpRelease_releases (icmpid : Int) (t : State) (hdefer : MayDefer (kernelOf t)) :
    (∃ t₁, Released icmpid t t₁ ∧ (Net.icmpRelease icmpid t).Within Quiet t₁) ∨
      Net.icmpRelease icmpid t = .stuck := by
  obtain ⟨t₁, ht₁⟩ : ∃ t₁, withMask t false = t₁ := ⟨_, rfl⟩
  obtain ⟨mask, hmask⟩ : ∃ mask, maskOf t (kernelOf t).currpid = mask := ⟨_, rfl⟩
  have hquiet : Quiet t t₁ := ht₁ ▸ aside_withMask viewed_elsewhere t false
  have hkernel : kernelOf t₁ = kernelOf t := by rw [← ht₁, kernelOf_withMask]
  have htab : t₁.icmptab = t.icmptab := hquiet.icmptab
  by_cases hslot : icmpid < 0 ∨ icmpid ≥ icmpSlots
  · left
    refine ⟨t₁, .refused hquiet, ?_⟩
    have hrun : Net.icmpRelease icmpid t = .done syserr (withMask t₁ mask) := by
      simp [Net.icmpRelease, hslot, ht₁, hmask]
    rw [hrun]
    exact aside_withMask viewed_elsewhere t₁ mask
  obtain ⟨i, rfl⟩ : ∃ i : Nat, icmpid = i := Int.eq_ofNat_of_zero_le (by omega)
  have hneg : ¬ (i : Int) < 0 := by omega
  have hbig : ¬ icmpSlots ≤ i := by omega
  by_cases hused : (t.icmptab i).icstate = .icmpUsed
  swap
  · left
    refine ⟨t₁, .refused hquiet, ?_⟩
    have hrun : Net.icmpRelease i t = .done syserr (withMask t₁ mask) := by
      simp [Net.icmpRelease, hneg, hbig, ht₁, hmask, htab, hused]
    rw [hrun]
    exact aside_withMask viewed_elsewhere t₁ mask
  obtain ⟨s, hstart, hpos, hcalm⟩ := deferStart_run hdefer
  obtain ⟨t₂, ht₂⟩ : ∃ t₂, withKernel t₁ s = t₂ := ⟨_, rfl⟩
  have hkernel₂ : kernelOf t₂ = s := by rw [← ht₂, kernelOf_withKernel]
  have hstart' : (onKernel (reschedCntl deferStart) : NetM Int) t₁ = .done ok t₂ := by
    rw [run_onKernel, hkernel, hstart, ← ht₂]
    rfl
  have hrun : Net.icmpRelease i t =
      (icmpDrain i (t.icmptab i).iccount.toNat t₂).bind fun _ => (do
        setIcmp i fun e => { e with icstate := .icmpFree }
        let _ ← onKernel (reschedCntl deferStop)
        restore mask
        return ok : NetM Int) := by
    simp [Net.icmpRelease, hneg, hbig, ht₁, hmask, htab, hused, hstart']
  have hquiet₂ : Quiet t t₂ := by
    refine trans_of Quiet hquiet ?_
    rw [← ht₂]
    exact aside_withKernel viewed_elsewhere (by rwa [hkernel])
  have hwithin := icmpDrain_rewrites i (t.icmptab i).iccount.toNat t₂
  have hpos₂ : 0 < ndefersOf (kernelOf t₂) := by rwa [hkernel₂]
  rcases icmpDrain_undivided i (t.icmptab i).iccount.toNat t₂ hpos₂ with
    ⟨⟨⟩, t₃, hdrain, -⟩ | hdrain
  · rw [hdrain] at hwithin
    have hrewrites : Rewrites i t t₃ := trans_of (Rewrites i) (hquiet₂.rewrites i) hwithin
    obtain ⟨⟨e, he⟩, hcalm₃⟩ := hrewrites
    obtain ⟨e', he'⟩ : ∃ e', { e with icstate := .icmpFree } = e' := ⟨_, rfl⟩
    obtain ⟨t₄, ht₄⟩ : ∃ t₄, { t₃ with icmptab := update t₃.icmptab i e' } = t₄ := ⟨_, rfl⟩
    have hend : Net.icmpRelease i t = (do
        let _ ← onKernel (reschedCntl deferStop)
        restore mask
        return ok : NetM Int) t₄ := by
      rw [hrun, hdrain, ← ht₄, ← he', Flow.bind_done]
      simp [setIcmp, he.icmptab]
    left
    refine ⟨t₄, .closed i rfl (by omega) hused e' (by rw [← he']) ⟨?_, ?_, ?_⟩ ?_, ?_⟩
    · rw [← ht₄, he.icmptab, update_idem]
    · rw [← ht₄]
      exact he.packets
    · rw [← ht₄]
      exact he.vars
    · rw [← ht₄]
      exact hcalm₃
    · rw [hend]
      refine Coop.Within.bind (onKernel_aside viewed_elsewhere ?_) (fun _ => ?_) t₄
      · exact reschedCntl_within calm_blind _
      · exact .bind (restore_aside viewed_elsewhere _) fun _ => .pure _
  · right
    rw [hrun, hdrain]
    rfl

/-! ## Packets that are received -/

section Receive

variable {len : Int} {mask : Bool}

/-- The first packet in the queue of an endpoint. -/
def first (t : State) (i : Nat) : Netpacket :=
  t.packets ((t.icmptab i).icqueue (t.icmptab i).ichead)

/-- Process `me` has taken the first packet, and its data are in the buffer of the
process. -/
structure Taken (me : Int) (i : Nat) (len : Int) (t t' : State) : Prop where
  icmptab : t'.icmptab = update t.icmptab i { icmpPop (t.icmptab i) with icstate := .icmpUsed }
  packets : t'.packets = t.packets
  vars : t'.vars = update t.vars me { t.vars me with buff := icmpBytes len (first t i) }

theorem Taken.quiet (h : Taken me i len t t₁) (hq : Quiet t₁ t') : Taken me i len t t' :=
  ⟨hq.icmptab.trans h.icmptab, hq.packets.trans h.packets, hq.vars.trans h.vars⟩

/-- The rest of a receive, once process `me` has taken a packet. -/
structure Takes (me : Int) (i : Nat) (len : Int) (t₀ : State) (x : Flow State Int) (t₁ : State) :
    Prop where
  kernel : kernelOf t₁ = kernelOf t₀
  taken : Taken me i len t₀ t₁
  stretches : x.Stretches (fun t => (kernelOf t).currpid = me)
    (fun t t' => ¬ Fresh (kernelOf t') me ∧ Quiet t t')
    (fun v t t' => v = (icmpCopied len (first t₀ i) : Int) ∧ Quiet t t') t₁

/-- A packet is taken before the processor is given away. -/
theorem icmpTake_begins (len : Int) (mask : Bool) (hused : (t.icmptab i).icstate = .icmpUsed) :
    ∃ t₁, Takes (kernelOf t).currpid i len t (icmpTake i len mask t) t₁ := by
  obtain ⟨pkt, hpkt⟩ : ∃ pkt, (t.icmptab i).icqueue (t.icmptab i).ichead = pkt := ⟨_, rfl⟩
  obtain ⟨e, he⟩ : ∃ e, icmpPop (t.icmptab i) = e := ⟨_, rfl⟩
  obtain ⟨t₁, ht₁⟩ : ∃ t₁ : State, { t with
      icmptab := update t.icmptab i e
      vars := update t.vars (kernelOf t).currpid { t.vars (kernelOf t).currpid with
        buff := icmpBytes len (t.packets pkt) } } = t₁ := ⟨_, rfl⟩
  have hrun : icmpTake i len mask t = (do
      let _ ← freebuf pkt
      restore mask
      return icmpCopied len (t.packets pkt) : NetM Int) t₁ := by
    rw [← ht₁, ← he]
    simp [icmpTake, setIcmp, setVars, hpkt]
    rfl
  have hsame : ({ e with icstate := .icmpUsed } : Icmpentry) = e := by
    rw [← he, ← hused]
    rfl
  have hkernel : kernelOf t₁ = kernelOf t := by
    rw [← ht₁]
    rfl
  refine ⟨t₁, hkernel, ⟨?_, ?_, ?_⟩, ?_⟩
  · rw [he, hsame, ← ht₁]
  · rw [← ht₁]
  · unfold first
    rw [hpkt, ← ht₁]
  · unfold first
    rw [hrun, hpkt]
    apply (freebuf_stretches viewed_elsewhere pkt (congrArg Kernel.currpid hkernel)).seq
    intro v s₁ s hquiet
    exact ⟨rfl, trans_of Quiet hquiet (aside_withMask viewed_elsewhere s mask)⟩

/-- A message that announces no packet. -/
theorem icmpWoken_fails (i : Nat) (len : Int) (mask : Bool) {msg : Int} (hok : msg ≠ ok)
    (t : State) :
    ∃ v t', icmpWoken i len mask msg t = .done v t' ∧ (v = timeout ∨ v = syserr) ∧
      Rewritten i { t.icmptab i with icstate := .icmpUsed } t t' ∧ kernelOf t' = kernelOf t := by
  obtain ⟨e, he⟩ : ∃ e, { t.icmptab i with icstate := .icmpUsed } = e := ⟨_, rfl⟩
  obtain ⟨t₁, ht₁⟩ : ∃ t₁ : State, { t with icmptab := update t.icmptab i e } = t₁ := ⟨_, rfl⟩
  have hrewritten : Rewritten i e t (withMask t₁ mask) := by
    rw [← ht₁]
    exact ⟨rfl, rfl, rfl⟩
  have hkernel : kernelOf (withMask t₁ mask) = kernelOf t := by
    rw [kernelOf_withMask, ← ht₁]
    rfl
  by_cases htimeout : msg = timeout
  · refine ⟨timeout, withMask t₁ mask, ?_, Or.inl rfl, by rwa [he], hkernel⟩
    rw [← ht₁, ← he]
    simp [icmpWoken, setIcmp, htimeout]
  · refine ⟨syserr, withMask t₁ mask, ?_, Or.inr rfl, by rwa [he], hkernel⟩
    rw [← ht₁, ← he]
    simp [icmpWoken, setIcmp, htimeout, hok]

/-- A message that announces a packet. -/
theorem icmpWoken_takes (i : Nat) (len : Int) (mask : Bool) (t : State) :
    ∃ t₁, Takes (kernelOf t).currpid i len t (icmpWoken i len mask ok t) t₁ := by
  obtain ⟨e, he⟩ : ∃ e, { t.icmptab i with icstate := .icmpUsed } = e := ⟨_, rfl⟩
  obtain ⟨t₁, ht₁⟩ : ∃ t₁ : State, { t with icmptab := update t.icmptab i e } = t₁ := ⟨_, rfl⟩
  have hkernel : kernelOf t₁ = kernelOf t := by rw [← ht₁]; rfl
  have hentry : t₁.icmptab i = e := by
    rw [← ht₁]
    exact update_self _ _ _
  have hused : (t₁.icmptab i).icstate = .icmpUsed := by rw [hentry, ← he]
  have hne : ok ≠ timeout := by decide
  have hrun : icmpWoken i len mask ok t = icmpTake i len mask t₁ := by
    rw [← ht₁, ← he]
    simp [icmpWoken, setIcmp, hne]
  have hfirst : first t₁ i = first t i := by
    unfold first
    rw [hentry, ← he, ← ht₁]
  obtain ⟨t₂, hkernel₂, ⟨htab, hpackets, hvars⟩, hstretches⟩ := icmpTake_begins len mask hused
  rw [hkernel, hfirst] at hvars
  rw [hkernel, hfirst] at hstretches
  refine ⟨t₂, hkernel₂.trans hkernel, ⟨?_, ?_, ?_⟩, by rwa [hrun]⟩
  · rw [htab, hentry, ← ht₁, ← he, update_idem]
    rfl
  · rw [hpackets, ← ht₁]
  · rw [hvars, ← ht₁]

/-- The entry of an endpoint on which process `me` waits. -/
def icmpWaiting (me : Int) (e : Icmpentry) : Icmpentry :=
  { e with icstate := .icmpRecv, icpid := me }

/-- What a receive does before it waits, if it waits. -/
inductive Begins (icmpid len : Int) (maxwait : Nat) (t : State) : Flow State Int → Prop where
  | refused {t' : State} (h : Quiet t t') : Begins icmpid len maxwait t (.done syserr t')
  | takes {x : Flow State Int} {t₁ : State} (i : Nat) (hslot : icmpid = i) (hlt : i < icmpSlots)
      (hused : (t.icmptab i).icstate = .icmpUsed) (hcount : (t.icmptab i).iccount ≠ 0)
      (h : Takes (kernelOf t).currpid i len t x t₁) : Begins icmpid len maxwait t x
  | waits {t₁ : State} (i : Nat) (hslot : icmpid = i) (hlt : i < icmpSlots) (mask : Bool)
      (hused : (t.icmptab i).icstate = .icmpUsed) (hcount : (t.icmptab i).iccount = 0)
      (hcur : (kernelOf t₁).currpid = (kernelOf t).currpid)
      (htook : Took (kernelOf t).currpid (kernelOf t) (kernelOf t₁))
      (h : Rewritten i (icmpWaiting (kernelOf t).currpid (t.icmptab i)) t t₁) :
      Begins icmpid len maxwait t
        (((onKernel (recvtime (i32 maxwait)) : NetM Int) t₁).bind fun msg =>
          icmpWoken i len mask (i32 msg))

/-- What a receive does until it waits, in an entry that is in use and has no packet. -/
theorem icmpRecv_waits (len : Int) (maxwait : Nat) (hlt : i < icmpSlots)
    (hused : (t.icmptab i).icstate = .icmpUsed) (hcount : (t.icmptab i).iccount = 0) :
    ∃ t₁ mask, (kernelOf t₁).currpid = (kernelOf t).currpid ∧
      Took (kernelOf t).currpid (kernelOf t) (kernelOf t₁) ∧
      Rewritten i (icmpWaiting (kernelOf t).currpid (t.icmptab i)) t t₁ ∧
      Net.icmpRecv i len maxwait t =
        ((onKernel (recvtime (i32 maxwait)) : NetM Int) t₁).bind fun msg =>
          icmpWoken i len mask (i32 msg) := by
  obtain ⟨t₁, ht₁⟩ : ∃ t₁, withMask t false = t₁ := ⟨_, rfl⟩
  obtain ⟨mask, hmask⟩ : ∃ mask, maskOf t (kernelOf t).currpid = mask := ⟨_, rfl⟩
  have hkernel : kernelOf t₁ = kernelOf t := by rw [← ht₁, kernelOf_withMask]
  have htab : t₁.icmptab = t.icmptab := by rw [← ht₁]; rfl
  have hneg : ¬ (i : Int) < 0 := by omega
  have hbig : ¬ icmpSlots ≤ i := by omega
  obtain ⟨e, he⟩ : ∃ e, icmpWaiting (kernelOf t).currpid (t.icmptab i) = e := ⟨_, rfl⟩
  obtain ⟨t₂, ht₂⟩ : ∃ t₂ : State, { t₁ with icmptab := update t₁.icmptab i e } = t₂ := ⟨_, rfl⟩
  have hkernel₂ : kernelOf t₂ = kernelOf t := by
    rw [← hkernel, ← ht₂]
    rfl
  obtain ⟨v, s, hclr, hcur, htook⟩ := recvclr_took (kernelOf t)
  have hclr' : (onKernel recvclr : NetM Int) t₂ = .done v (withKernel t₂ s) := by
    rw [run_onKernel, hkernel₂, hclr]
    rfl
  have hset : (setIcmp i fun e => { e with icstate := .icmpRecv, icpid := (kernelOf t).currpid })
      t₁ = .done ⟨⟩ t₂ := by
    rw [← ht₂, ← he, htab]
    simp [setIcmp, icmpWaiting, htab]
  obtain ⟨x, hx⟩ : ∃ x : NetM Int, onKernel (recvtime (i32 maxwait)) = x := ⟨_, rfl⟩
  refine ⟨withKernel t₂ s, mask, ?_, ?_, ⟨?_, ?_, ?_⟩, ?_⟩
  · rw [kernelOf_withKernel]
    exact hcur
  · rw [kernelOf_withKernel]
    exact htook
  · rw [he, ← htab, ← ht₂]
    rfl
  · rw [← ht₂, ← ht₁]
    rfl
  · rw [← ht₂, ← ht₁]
    rfl
  · simp [Net.icmpRecv, hneg, hbig, ht₁, hmask, htab, hused, hcount, hkernel, hset, hclr', hx]

theorem icmpRecv_begins (icmpid len : Int) (maxwait : Nat) (t : State) :
    Begins icmpid len maxwait t (Net.icmpRecv icmpid len maxwait t) := by
  obtain ⟨t₁, ht₁⟩ : ∃ t₁, withMask t false = t₁ := ⟨_, rfl⟩
  obtain ⟨mask, hmask⟩ : ∃ mask, maskOf t (kernelOf t).currpid = mask := ⟨_, rfl⟩
  have hquiet : Quiet t t₁ := ht₁ ▸ aside_withMask viewed_elsewhere t false
  have hkernel : kernelOf t₁ = kernelOf t := by rw [← ht₁, kernelOf_withMask]
  by_cases hslot : icmpid < 0 ∨ icmpid ≥ icmpSlots
  · have hrun : Net.icmpRecv icmpid len maxwait t = .done syserr t := by
      simp [Net.icmpRecv, hslot]
    rw [hrun]
    exact .refused (refl_of Quiet t)
  obtain ⟨i, rfl⟩ : ∃ i : Nat, icmpid = i := Int.eq_ofNat_of_zero_le (by omega)
  have hneg : ¬ (i : Int) < 0 := by omega
  have hbig : ¬ icmpSlots ≤ i := by omega
  by_cases hused : (t.icmptab i).icstate = .icmpUsed
  swap
  · have hrun : Net.icmpRecv i len maxwait t = .done syserr (withMask t₁ mask) := by
      simp [Net.icmpRecv, hneg, hbig, ht₁, hmask, hquiet.icmptab, hused]
    rw [hrun]
    exact .refused (trans_of Quiet hquiet (aside_withMask viewed_elsewhere t₁ mask))
  by_cases hcount : (t.icmptab i).iccount = 0
  · obtain ⟨t₂, mask', hcur, htook, hrewritten, hrun⟩ :=
      icmpRecv_waits len maxwait (by omega) hused hcount
    rw [hrun]
    exact .waits i rfl (by omega) mask' hused hcount hcur htook hrewritten
  · have hrun : Net.icmpRecv i len maxwait t = icmpTake i len mask t₁ := by
      simp [Net.icmpRecv, hneg, hbig, ht₁, hmask, hquiet.icmptab, hused, hcount]
    have hused₁ : (t₁.icmptab i).icstate = .icmpUsed := by rwa [hquiet.icmptab]
    have hfirst : first t₁ i = first t i := by
      unfold first
      rw [hquiet.icmptab, hquiet.packets]
    obtain ⟨t₂, hkernel₂, ⟨htab, hpackets, hvars⟩, hstretches⟩ :=
      icmpTake_begins len mask hused₁
    rw [hkernel, hfirst, hquiet.vars] at hvars
    rw [hkernel, hfirst] at hstretches
    rw [hquiet.icmptab] at htab
    rw [hrun]
    exact .takes i rfl (by omega) hused hcount ⟨hkernel₂.trans hkernel,
      ⟨htab, hpackets.trans hquiet.packets, hvars⟩, hstretches⟩

end Receive

end Icmp
end Net
end Xinu
