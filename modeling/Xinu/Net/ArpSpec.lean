import Xinu.Kernel.Bystanders
import Xinu.Net.Arp

/-!
# What the procedures of ARP do

One specification for each procedure of `net/arp.c`: what it does to the cache and to
the message slots before it gives the processor away, and that it leaves them alone
from then on.

Main results:

- Theorem `arpAlloc_run`: `arp_alloc` clears a slot that is free or resolved, and
  leaves the others alone.
- Theorem `arpResolve_begins`: how a call of `arp_resolve` begins.
- Theorem `arpIn_handles`: how `arp_in` handles a packet.
-/

namespace Xinu
namespace Net

open Foundations Function

variable {cache : Nat → Arpentry} {addr nxthop : UInt32} {i slot : Nat} {me : Int}
variable {t t' t₁ : State}

/-- The entry still belongs to the address and the process that it belonged to. -/
def Kept (e e' : Arpentry) : Prop :=
  e'.arpaddr = e.arpaddr ∧ e'.arpid = e.arpid

/-! ## Searching the cache -/

theorem arpFind_some (h : arpFind cache addr = some i) :
    i < arpSiz ∧ (cache i).arstate ≠ .arFree ∧ (cache i).arpaddr = addr := by
  have hmem := List.mem_of_find?_eq_some h
  have hsome := List.find?_some h
  exact ⟨List.mem_range.mp hmem, by simpa using hsome⟩

theorem arpFind_none (h : arpFind cache addr = none) (hi : i < arpSiz)
    (huse : (cache i).arstate ≠ .arFree) : (cache i).arpaddr ≠ addr := by
  intro haddr
  have hnone := List.find?_eq_none.mp h i (List.mem_range.mpr hi)
  exact hnone (decide_eq_true ⟨huse, haddr⟩)

theorem arpSearch_some {st : ArState} (h : arpSearch cache st = some i) :
    i < arpSiz ∧ (cache i).arstate = st := by
  have hmem := List.mem_of_find?_eq_some h
  have hsome := List.find?_some h
  exact ⟨List.mem_range.mp hmem, by simpa using hsome⟩

/-- The slot that `arp_alloc` gives away. -/
def victim (cache : Nat → Arpentry) : Option Nat :=
  (arpSearch cache .arFree).orElse fun _ => arpSearch cache .arResolved

theorem victim_some (h : victim cache = some slot) :
    slot < arpSiz ∧ (cache slot).arstate ≠ .arPending := by
  unfold victim at h
  cases hfree : arpSearch cache .arFree with
  | some i =>
      rw [hfree] at h
      obtain rfl : i = slot := by simpa using h
      obtain ⟨hlt, hst⟩ := arpSearch_some hfree
      exact ⟨hlt, by rw [hst]; simp⟩
  | none =>
      rw [hfree] at h
      obtain ⟨hlt, hst⟩ := arpSearch_some h
      exact ⟨hlt, by rw [hst]; simp⟩

/-- What `arp_alloc` does. -/
theorem arpAlloc_run (t : State) :
    arpAlloc t = match victim t.arpcache with
      | some slot => .done (some slot) { t with arpcache := update t.arpcache slot arpClear }
      | none => .done none t := by
  unfold arpAlloc victim
  cases hfree : arpSearch t.arpcache .arFree with
  | some i => simp [hfree, setArp]
  | none =>
      cases hres : arpSearch t.arpcache .arResolved with
      | some i => simp [hfree, hres, setArp]
      | none => simp [hfree, hres]

/-! ## Stretches that leave the cache alone -/

/-- The cache stays the same, and the kernel is calm. -/
structure Still (t t' : State) : Prop where
  cache : t'.arpcache = t.arpcache
  netData : t'.netData = t.netData
  calm : Calm (kernelOf t) (kernelOf t')

instance : IsPreorder State Still where
  refl t := ⟨rfl, rfl, refl_of Calm (kernelOf t)⟩
  trans _ _ _ h h' :=
    ⟨h'.cache.trans h.cache, h'.netData.trans h.netData, trans_of Calm h.calm h'.calm⟩

theorem still_withKernel {s : Kernel} (h : Calm (kernelOf t) s) : Still t (withKernel t s) :=
  ⟨rfl, rfl, h⟩

theorem still_withMask (t : State) (mask : Bool) : Still t (withMask t mask) :=
  ⟨rfl, rfl, refl_of Calm (kernelOf t)⟩

/-- A calm procedure of the kernel. -/
theorem onKernel_still {α : Type} {x : KernelM α} (hx : Lends me x) (hw : x.Within Calm)
    (ht : (kernelOf t).currpid = me) :
    ((onKernel x : NetM α) t).Stretches (fun t => (kernelOf t).currpid = me)
      (fun t t' => ¬ Fresh (kernelOf t') me ∧ Still t t')
      (fun _ t t' => (kernelOf t').currpid = me ∧ Still t t') t := by
  have hstill : ∀ t t' : State, Calm (kernelOf t) (kernelOf t') →
      t' = withKernel t (kernelOf t') → Still t t' := by
    intro t t' hcalm ht'
    rw [ht']
    exact still_withKernel hcalm
  apply (onKernel_stretches (hx.calm hw ht)).mono
  · exact fun t' h => ⟨h.1.1, hstill t t' h.1.2 h.2⟩
  · exact fun a t' h => ⟨h.1.1, hstill t t' h.1.2 h.2⟩
  · exact fun t₁ t' _ h => ⟨h.1.1, hstill t₁ t' h.1.2 h.2⟩
  · exact fun a t₁ t' _ h => ⟨h.1.1, hstill t₁ t' h.1.2 h.2⟩

theorem ethwrite_still (frame : Frame) (count : Int) (ht : (kernelOf t).currpid = me) :
    (ethwrite frame count t).Stretches (fun t => (kernelOf t).currpid = me)
      (fun t t' => ¬ Fresh (kernelOf t') me ∧ Still t t')
      (fun _ t t' => (kernelOf t').currpid = me ∧ Still t t') t := by
  have hwait := onKernel_still (wait_lends t.ether.osem)
    (wait_within calm_blind calm_mayWait _) ht
  apply hwait.seq
  rintro - t₁ t₂ ⟨hcur, hstill⟩
  exact ⟨hcur, hstill.cache, hstill.netData, hstill.calm⟩

/-! ## Handling a packet -/

theorem onKernel_within_still {α : Type} {x : KernelM α} (hx : x.Within Calm) :
    (onKernel x : NetM α).Within Still := by
  intro t
  rw [run_onKernel]
  exact (hx (kernelOf t)).inside (fun _ h => still_withKernel h) fun _ _ h => still_withKernel h

theorem restore_within_still (mask : Bool) : (restore mask : NetM Unit).Within Still :=
  fun t => still_withMask t mask

theorem freebuf_within_still (a : Nat) : (freebuf a : NetM Int).Within Still := by
  have hpools : ∀ f, (onPools f : NetM Unit).Within Still := fun f =>
    .modify fun t => ⟨rfl, rfl, refl_of Calm (kernelOf t)⟩
  have hdisable : (disable : NetM Bool).Within Still := fun t => still_withMask t false
  refine .bind hdisable fun mask => .read fun t => .ite ?_ ?_
  · exact .bind (restore_within_still _) fun _ => .pure _
  · refine .bind (hpools _) fun _ => .bind (hpools _) fun _ => ?_
    refine .bind (onKernel_within_still (signal_within calm_blind _)) fun _ => ?_
    exact .bind (restore_within_still _) fun _ => .pure _

theorem ethwrite_within_still (frame : Frame) (count : Int) :
    (ethwrite frame count).Within Still := by
  refine .read fun t => ?_
  refine .bind (onKernel_within_still (wait_within calm_blind calm_mayWait _)) fun _ => ?_
  exact .bind (.modify fun t => ⟨rfl, rfl, refl_of Calm (kernelOf t)⟩) fun _ => .pure _

theorem release_within_still (buf : Nat) (mask : Bool) :
    (do let _ ← freebuf buf; restore mask : NetM Unit).Within Still :=
  .bind (freebuf_within_still _) fun _ => restore_within_still _

theorem arpAcknowledge_within_still (pkt : Arppacket) (buf : Nat) (mask : Bool) :
    (arpAcknowledge pkt buf mask).Within Still := by
  refine .read fun t => .bind (ethwrite_within_still _ _) fun _ => ?_
  exact release_within_still buf mask

theorem arpServe_within_still (pkt : Arppacket) (buf : Nat) (mask : Bool) :
    (arpServe pkt buf mask true).Within Still := by
  have hfree := release_within_still buf mask
  exact .ite hfree (.read fun t => .ite hfree (arpAcknowledge_within_still pkt buf mask))

/-- The message is passed first. -/
theorem onKernel_send_within (pid msg : Int) (t : State) :
    ((onKernel (send pid msg) : NetM Int) t).Within Still
      (withKernel t (sent (kernelOf t) pid msg)) := by
  rw [run_onKernel]
  exact (send_calm (kernelOf t) pid msg).inside (fun _ h => ⟨rfl, rfl, h⟩) fun _ _ h => ⟨rfl, rfl, h⟩

/-- The call, started in state `t`, gives slot `slot` to a new address. -/
def TakesOver (t : State) (slot : Nat) : ArpCall → Prop
  | .kernel _ => False
  | .arpResolve nxthop =>
      nxthop ≠ ipBcast ∧ nxthop ≠ t.netData.ipbcast ∧ arpFind t.arpcache nxthop = none ∧
        victim t.arpcache = some slot
  | .arpIn pkt _ =>
      ¬ ((arpNtoh pkt).htype ≠ arpHtype ∨ (arpNtoh pkt).ptype ≠ arpPtype) ∧
        arpFind t.arpcache (arpNtoh pkt).sndpa = none ∧ (arpNtoh pkt).op ≠ arpOpRply ∧
        ¬ (t.netData.ipvalid = false ∨ (arpNtoh pkt).tarpa ≠ t.netData.ipucast) ∧
        victim t.arpcache = some slot

/-- The entry after the sender's hardware address was put in it. -/
def updatedEntry (pkt : Arppacket) (e : Arpentry) : Arpentry :=
  { e with
    arhaddr := pkt.sndha
    arstate := if e.arstate = .arPending then .arResolved else e.arstate }

/-- What `arp_in` does when it finds the sender in the cache. -/
theorem arpUpdate_run (slot : Nat) (pkt : Arppacket) (t : State) :
    arpUpdate slot pkt t =
      let t₁ := { t with arpcache := update t.arpcache slot (updatedEntry pkt (t.arpcache slot)) }
      if (t.arpcache slot).arstate = .arPending then
        ((onKernel (send (t.arpcache slot).arpid ok) : NetM Int) t₁).bind fun _ => pure ()
      else .done () t₁ := by
  by_cases hpend : (t.arpcache slot).arstate = .arPending
  · simp [arpUpdate, setArp, updatedEntry, hpend]
  · simp [arpUpdate, setArp, updatedEntry, hpend]

/-- What `arp_in` does with a packet. -/
inductive Handled (pkt : Arppacket) (buf : Nat) (t t' : State) : Prop where
  | ignored (h : Still t t')
  | updated (slot : Nat) (hfind : arpFind t.arpcache (arpNtoh pkt).sndpa = some slot)
      (hcache : t'.arpcache =
        update t.arpcache slot (updatedEntry (arpNtoh pkt) (t.arpcache slot)))
      (hcalm : Calm (if (t.arpcache slot).arstate = .arPending then
        sent (kernelOf t) (t.arpcache slot).arpid ok else kernelOf t) (kernelOf t'))
  | added (slot : Nat) (htakes : TakesOver t slot (.arpIn pkt buf))
      (hcache : t'.arpcache = update t.arpcache slot
        ⟨.arResolved, (arpNtoh pkt).sndpa, arpClear.arpid, pkt.sndha⟩)
      (hcalm : Calm (kernelOf t) (kernelOf t'))

theorem Handled.still {pkt : Arppacket} {buf : Nat} (h : Handled pkt buf t t₁) (hs : Still t₁ t') :
    Handled pkt buf t t' := by
  cases h with
  | ignored h => exact .ignored (trans_of Still h hs)
  | updated slot hfind hcache hcalm =>
      exact .updated slot hfind (hs.cache.trans hcache) (trans_of Calm hcalm hs.calm)
  | added slot htakes hcache hcalm =>
      exact .added slot htakes (hs.cache.trans hcache) (trans_of Calm hcalm hs.calm)

/-- `arp_in` handles the packet before it gives the processor away. -/
theorem arpIn_handles (pkt : Arppacket) (buf : Nat) (t : State) :
    ∃ t₁, Handled pkt buf t t₁ ∧ (Net.arpIn pkt buf t).Within Still t₁ := by
  obtain ⟨pkt', hpkt⟩ : ∃ pkt', arpNtoh pkt = pkt' := ⟨_, rfl⟩
  by_cases htype : pkt'.htype ≠ arpHtype ∨ pkt'.ptype ≠ arpPtype
  · have hrun : Net.arpIn pkt buf t = (do let _ ← freebuf buf : NetM Unit) t := by
      simp [Net.arpIn, hpkt, htype]
    have hfree : (do let _ ← freebuf buf : NetM Unit).Within Still :=
      .bind (freebuf_within_still _) fun _ => .pure _
    refine ⟨t, .ignored (refl_of Still t), ?_⟩
    rw [hrun]
    exact hfree t
  obtain ⟨mask, hmask⟩ : ∃ mask, maskOf t (kernelOf t).currpid = mask := ⟨_, rfl⟩
  obtain ⟨t₁, ht₁⟩ : ∃ t₁, withMask t false = t₁ := ⟨_, rfl⟩
  have hstill : Still t t₁ := ht₁ ▸ still_withMask t false
  have hkernel : kernelOf t₁ = kernelOf t := by rw [← ht₁, kernelOf_withMask]
  cases hfind : arpFind t.arpcache pkt'.sndpa with
  | some slot =>
      have hrun : Net.arpIn pkt buf t = (arpUpdate slot pkt' t₁).bind fun _ =>
          arpServe pkt' buf mask true := by
        simp [Net.arpIn, hpkt, htype, ht₁, hstill.cache, hfind, hmask]
      obtain ⟨t₂, ht₂⟩ : ∃ t₂, { t₁ with
          arpcache := update t₁.arpcache slot (updatedEntry pkt' (t₁.arpcache slot)) } = t₂ :=
        ⟨_, rfl⟩
      have hcache : t₂.arpcache =
          update t.arpcache slot (updatedEntry (arpNtoh pkt) (t.arpcache slot)) := by
        rw [← ht₂, ← hstill.cache, hpkt]
      have hkernel₂ : kernelOf t₂ = kernelOf t := by
        rw [← hkernel, ← ht₂]
        rfl
      rw [← hpkt] at hfind
      rw [hrun, arpUpdate_run, hstill.cache]
      rw [hstill.cache] at ht₂
      dsimp only
      rw [ht₂]
      by_cases hpend : (t.arpcache slot).arstate = .arPending
      · refine ⟨withKernel t₂ (sent (kernelOf t) (t.arpcache slot).arpid ok),
          .updated slot hfind hcache ?_, ?_⟩
        · rw [if_pos hpend, kernelOf_withKernel]
          exact refl_of Calm _
        · rw [if_pos hpend, Flow.bind_assoc]
          have hsend := onKernel_send_within (t.arpcache slot).arpid ok t₂
          rw [hkernel₂] at hsend
          exact hsend.bind fun _ => arpServe_within_still pkt' buf mask
      · refine ⟨t₂, .updated slot hfind hcache ?_, ?_⟩
        · rw [if_neg hpend, hkernel₂]
          exact refl_of Calm _
        · rw [if_neg hpend]
          exact arpServe_within_still pkt' buf mask t₂
  | none =>
      have hrun : Net.arpIn pkt buf t = arpServe pkt' buf mask false t₁ := by
        simp [Net.arpIn, hpkt, htype, ht₁, hstill.cache, hfind, hmask]
      have hignored : Net.arpIn pkt buf t = (do let _ ← freebuf buf; restore mask : NetM Unit) t₁ →
          ∃ t₁, Handled pkt buf t t₁ ∧ (Net.arpIn pkt buf t).Within Still t₁ := by
        intro hfree
        refine ⟨t₁, .ignored hstill, ?_⟩
        rw [hfree]
        exact release_within_still buf mask t₁
      by_cases hop : pkt'.op = arpOpRply
      · apply hignored
        rw [hrun]
        simp [arpServe, hop]
      have hdata : t₁.netData = t.netData := hstill.netData
      by_cases hmine : t.netData.ipvalid = false ∨ pkt'.tarpa ≠ t.netData.ipucast
      · apply hignored
        rw [hrun]
        simp [arpServe, hop, hdata, hmine]
      cases hvictim : victim t.arpcache with
      | none =>
          apply hignored
          rw [hrun]
          simp [arpServe, hop, hdata, hmine, arpAlloc_run, hstill.cache, hvictim]
      | some slot =>
          obtain ⟨t₂, ht₂⟩ : ∃ t₂, { t₁ with
              arpcache := update t.arpcache slot
                ⟨.arResolved, pkt'.sndpa, arpClear.arpid, pkt'.sndha⟩ } = t₂ := ⟨_, rfl⟩
          have hserve : arpServe pkt' buf mask false t₁ = arpAcknowledge pkt' buf mask t₂ := by
            simp [arpServe, hop, hdata, hmine, arpAlloc_run, hstill.cache, hvictim, setArp, ← ht₂]
          have hcache : t₂.arpcache = update t.arpcache slot
              ⟨.arResolved, (arpNtoh pkt).sndpa, arpClear.arpid, pkt.sndha⟩ := by
            rw [← ht₂, hpkt, show pkt.sndha = pkt'.sndha by rw [← hpkt]; rfl]
          have hkernel₂ : kernelOf t₂ = kernelOf t := by
            rw [← hkernel, ← ht₂]
            rfl
          have htakes : TakesOver t slot (.arpIn pkt buf) := by
            simp only [TakesOver, hpkt]
            exact ⟨htype, hfind, hop, hmine, hvictim⟩
          refine ⟨t₂, .added slot htakes hcache ?_, ?_⟩
          · rw [hkernel₂]
            exact refl_of Calm _
          · rw [hrun, hserve]
            exact arpAcknowledge_within_still pkt' buf mask t₂

/-! ## Resolving an address -/

/-- How a call of `arp_resolve` begins: it returns at once, or it has taken over a slot
of the cache and asks. -/
inductive Begun (nxthop : UInt32) (t : State) : Flow State (Int × Option Mac) → Prop
  | refused {t₁ : State} (h : Still t t₁) : Begun nxthop t (.done (syserr, none) t₁)
  | known {t₁ : State} {mac : Mac} (h : Still t t₁) (hkernel : kernelOf t₁ = kernelOf t)
      (hmac : nxthop = ipBcast ∨ nxthop = t.netData.ipbcast ∨
        ∃ i, i < arpSiz ∧ (t.arpcache i).arstate = .arResolved ∧
          (t.arpcache i).arpaddr = nxthop ∧ mac = (t.arpcache i).arhaddr) :
      Begun nxthop t (.done (ok, some mac) t₁)
  | asks {t₁ : State} {slot : Nat} {mask : Bool}
      (htakes : TakesOver t slot (.arpResolve nxthop))
      (hcache : t₁.arpcache =
        update t.arpcache slot (pendingEntry nxthop (kernelOf t).currpid arpClear))
      (hdata : t₁.netData = t.netData) (hkernel : kernelOf t₁ = kernelOf t) :
      Begun nxthop t (arpAsk nxthop slot mask t₁)

theorem arpResolve_begins (nxthop : UInt32) (t : State) :
    Begun nxthop t (Net.arpResolve nxthop t) := by
  by_cases hlim : nxthop = ipBcast
  · have hrun : Net.arpResolve nxthop t = .done (ok, some t.netData.ethbcast) t := by
      simp [Net.arpResolve, hlim]
    rw [hrun]
    exact .known (refl_of Still t) rfl (Or.inl hlim)
  by_cases hnet : nxthop = t.netData.ipbcast
  · have hrun : Net.arpResolve nxthop t = .done (ok, some t.netData.ethbcast) t := by
      simp [Net.arpResolve, hnet]
    rw [hrun]
    exact .known (refl_of Still t) rfl (Or.inr (Or.inl hnet))
  obtain ⟨mask, hmask⟩ : ∃ mask, maskOf t (kernelOf t).currpid = mask := ⟨_, rfl⟩
  have hcache : ∀ b, (withMask t b).arpcache = t.arpcache := fun _ => rfl
  have hstill : Still t (withMask (withMask t false) mask) :=
    trans_of Still (still_withMask t false) (still_withMask _ mask)
  cases hfind : arpFind t.arpcache nxthop with
  | some i =>
      obtain ⟨hi, huse, haddr⟩ := arpFind_some hfind
      by_cases hres : (t.arpcache i).arstate = .arResolved
      · have hrun : Net.arpResolve nxthop t =
            .done (ok, some (t.arpcache i).arhaddr) (withMask (withMask t false) mask) := by
          simp [Net.arpResolve, hlim, hnet, hcache, hfind, hres, hmask]
        rw [hrun]
        exact .known hstill rfl (Or.inr (Or.inr ⟨i, hi, hres, haddr, rfl⟩))
      · have hrun : Net.arpResolve nxthop t =
            .done (syserr, none) (withMask (withMask t false) mask) := by
          simp [Net.arpResolve, hlim, hnet, hcache, hfind, hres, hmask]
        rw [hrun]
        exact .refused hstill
  | none =>
      cases hvictim : victim t.arpcache with
      | none =>
          have hrun : Net.arpResolve nxthop t =
              .done (syserr, none) (withMask (withMask t false) mask) := by
            simp [Net.arpResolve, hlim, hnet, hcache, hfind, arpAlloc_run, hvictim, hmask]
          rw [hrun]
          exact .refused hstill
      | some slot =>
          obtain ⟨t₁, ht₁⟩ : ∃ t₁, { withMask t false with
              arpcache := update t.arpcache slot
                (pendingEntry nxthop (kernelOf t).currpid arpClear) } = t₁ := ⟨_, rfl⟩
          have hrun : Net.arpResolve nxthop t = arpAsk nxthop slot mask t₁ := by
            simp [Net.arpResolve, hlim, hnet, hcache, hfind, arpAlloc_run, hvictim, setArp, hmask,
              ← ht₁]
            rfl
          rw [hrun]
          apply Begun.asks ⟨hlim, hnet, hfind, hvictim⟩
          · rw [← ht₁]
          · rw [← ht₁]
            rfl
          · rw [← ht₁]
            rfl

end Net
end Xinu
