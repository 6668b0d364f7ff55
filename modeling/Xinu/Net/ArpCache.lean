import Xinu.Net.ArpSpec
import Xinu.Net.Script

/-!
# The ARP cache

Over any run of ARP together with the calls of the kernel, no address gets two entries
of the cache, and nobody takes over an entry that is pending.

Main result:

- Theorem `unique_of_run`: at most one entry in use carries any given address, and
  an entry that is pending keeps its address and its process for another segment.
-/

namespace Xinu
namespace Net

open Foundations Function

variable {cache cache' cache'' : Nat → Arpentry} {addr : UInt32} {i slot : Nat}

/-- At most one entry in use carries any given address. -/
def Unique (cache : Nat → Arpentry) : Prop :=
  ∀ i j, i < arpSiz → j < arpSiz → (cache i).arstate ≠ .arFree → (cache j).arstate ≠ .arFree →
    (cache i).arpaddr = (cache j).arpaddr → i = j

/-- What a segment does to the cache. -/
structure Evolves (cache cache' : Nat → Arpentry) : Prop where
  unique : Unique cache → Unique cache'
  pending : ∀ i, (cache i).arstate = .arPending → Kept (cache i) (cache' i)

/-- Some entries were invalidated. -/
def Invalidates (t t' : State) : Prop :=
  ∀ i, t'.arpcache i = t.arpcache i ∨ t'.arpcache i = { t.arpcache i with arstate := .arFree }

instance : IsPreorder State Invalidates where
  refl _ _ := Or.inl rfl
  trans t t' t'' h h' i := by
    rcases h' i with h' | h'
    · rw [h']
      exact h i
    · right
      rw [h']
      rcases h i with h | h
      · rw [h]
      · rw [h]

/-! ## Steps of the cache -/

theorem Evolves.refl (cache : Nat → Arpentry) : Evolves cache cache :=
  ⟨id, fun _ _ => ⟨rfl, rfl⟩⟩

/-- An entry that is in use after some were invalidated was so before. -/
theorem Invalidates.used {t t' : State} (h : Invalidates t t')
    (huse : (t'.arpcache i).arstate ≠ .arFree) : t'.arpcache i = t.arpcache i := by
  rcases h i with h | h
  · exact h
  · rw [h] at huse
    exact (huse rfl).elim

theorem Evolves.invalidates {t t' : State} (h : Evolves cache t.arpcache)
    (hinv : Invalidates t t') : Evolves cache t'.arpcache := by
  constructor
  · intro hu i j hi hj hui huj haddr
    have hti := hinv.used hui
    have htj := hinv.used huj
    rw [hti] at hui haddr
    rw [htj] at huj haddr
    exact h.unique hu i j hi hj hui huj haddr
  · intro i hi
    have hkept := h.pending i hi
    rcases hinv i with hsame | hfree
    · rw [hsame]
      exact hkept
    · rw [hfree]
      exact hkept

/-- An entry whose address stays the same. -/
theorem Evolves.update (huse : (cache slot).arstate ≠ .arFree) {e : Arpentry}
    (hkept : Kept (cache slot) e) : Evolves cache (update cache slot e) := by
  have haddr : ∀ i, (Function.update cache slot e i).arpaddr = (cache i).arpaddr := by
    intro i
    by_cases hi : i = slot
    · subst hi
      rw [update_self]
      exact hkept.1
    · rw [update_of_ne hi]
  have hused : ∀ i, (Function.update cache slot e i).arstate ≠ .arFree →
      (cache i).arstate ≠ .arFree := by
    intro i hu
    by_cases hi : i = slot
    · subst hi
      exact huse
    · rwa [update_of_ne hi] at hu
  constructor
  · intro hu i j hi hj hui huj heq
    rw [haddr i, haddr j] at heq
    exact hu i j hi hj (hused i hui) (hused j huj) heq
  · intro i hi
    by_cases hslot : i = slot
    · subst hslot
      rw [update_self]
      exact hkept
    · rw [update_of_ne hslot]
      exact ⟨rfl, rfl⟩

/-- An address that is not in the cache is put in a slot that is not pending. -/
theorem Evolves.allocate (hslot : (cache slot).arstate ≠ .arPending) {e : Arpentry}
    (hnew : ∀ i, i < arpSiz → (cache i).arstate ≠ .arFree → (cache i).arpaddr ≠ e.arpaddr) :
    Evolves cache (Function.update cache slot e) := by
  constructor
  · intro hu i j hi hj hui huj heq
    by_cases his : i = slot
    · subst his
      by_cases hjs : j = i
      · exact hjs.symm
      · rw [update_self, update_of_ne hjs] at heq
        rw [update_of_ne hjs] at huj
        exact (hnew j hj huj heq.symm).elim
    · rw [update_of_ne his] at hui heq
      by_cases hjs : j = slot
      · subst hjs
        rw [update_self] at heq
        exact (hnew i hi hui heq).elim
      · rw [update_of_ne hjs] at huj heq
        exact hu i j hi hj hui huj heq
  · intro i hi
    by_cases his : i = slot
    · subst his
      exact (hslot hi).elim
    · rw [update_of_ne his]
      exact ⟨rfl, rfl⟩

/-! ## The entry points -/

theorem invalidates_of_still {t t' : State} (h : Still t t') : Invalidates t t' := by
  intro i
  left
  rw [h.cache]

theorem onKernel_invalidates {α : Type} (x : KernelM α) :
    (onKernel x : NetM α).Within Invalidates :=
  .zoom (fun _ _ _ => Or.inl rfl) _

theorem restore_invalidates (mask : Bool) : (restore mask : NetM Unit).Within Invalidates :=
  .zoom (fun _ _ _ => Or.inl rfl) _

theorem setArp_invalidates (slot : Nat) :
    (setArp slot fun e => { e with arstate := .arFree }).Within Invalidates := by
  apply Coop.Within.modify
  intro t i
  by_cases hi : i = slot
  · subst hi
    right
    exact update_self _ _ _
  · left
    exact update_of_ne hi _ _

theorem arpAwait_invalidates (apkt : Arppacket) (n : Nat) (msg : Int) :
    (arpAwait apkt n msg).Within Invalidates := by
  have hwrite : (ethwrite (.arp apkt) 42).Within Invalidates := fun t =>
    (ethwrite_within_still (.arp apkt) 42 t).mono fun _ _ => invalidates_of_still
  induction n generalizing msg with
  | zero => exact .pure _
  | succ n ih =>
      refine .bind hwrite fun _ => .bind (onKernel_invalidates _) fun msg => ?_
      exact .ite (ih _) (.pure _)

theorem arpAsk_invalidates (nxthop : UInt32) (slot : Nat) (mask : Bool) :
    (arpAsk nxthop slot mask).Within Invalidates := by
  have hanswer : ∀ msg, (arpAnswer slot mask msg).Within Invalidates := by
    intro msg
    refine .ite ?_ (.ite ?_ (.read fun t => ?_))
    · exact .bind (restore_invalidates mask) fun _ => .pure _
    · refine .bind (setArp_invalidates slot) fun _ => ?_
      exact .bind (restore_invalidates mask) fun _ => .pure _
    · exact .bind (restore_invalidates mask) fun _ => .pure _
  refine .read fun t => .bind (onKernel_invalidates _) fun msg => ?_
  exact .bind (arpAwait_invalidates _ _ _) fun msg => hanswer msg

/-- From state `t`, the cache evolves, and entries are only invalidated from then on. -/
def Settles {α : Type} (x : Flow State α) (t : State) : Prop :=
  ∃ t₁, Evolves t.arpcache t₁.arpcache ∧ x.Within Invalidates t₁

theorem Settles.bind {α β : Type} {x : Flow State α} {t : State} {f : α → NetM β}
    (hx : Settles x t) (hf : ∀ a, (f a).Within Invalidates) : Settles (x.bind f) t := by
  obtain ⟨t₁, hevolves, hwithin⟩ := hx
  exact ⟨t₁, hevolves, hwithin.bind hf⟩

theorem Evolves.of_eq (h : cache' = cache) : Evolves cache cache' := by
  rw [h]
  exact .refl cache

theorem arpResolve_settles (nxthop : UInt32) (t : State) : Settles (Net.arpResolve nxthop t) t := by
  have hbegun := arpResolve_begins nxthop t
  generalize Net.arpResolve nxthop t = x at hbegun
  cases hbegun with
  | @refused t₁ h => exact ⟨t₁, .of_eq h.cache, refl_of Invalidates t₁⟩
  | @known t₁ mac h hkernel hmac => exact ⟨t₁, .of_eq h.cache, refl_of Invalidates t₁⟩
  | @asks t₁ slot mask htakes hcache hdata hkernel =>
      obtain ⟨-, -, hfind, hvictim⟩ := htakes
      refine ⟨t₁, ?_, arpAsk_invalidates nxthop slot mask t₁⟩
      rw [hcache]
      apply Evolves.allocate (victim_some hvictim).2
      exact fun i hi huse => arpFind_none hfind hi huse

theorem arpIn_settles (pkt : Arppacket) (buf : Nat) (t : State) :
    Settles (Net.arpIn pkt buf t) t := by
  obtain ⟨t₁, hhandled, hwithin⟩ := arpIn_handles pkt buf t
  refine ⟨t₁, ?_, hwithin.mono fun _ _ => invalidates_of_still⟩
  cases hhandled with
  | ignored h => exact .of_eq h.cache
  | updated slot hfind hcache hcalm =>
      rw [hcache]
      exact Evolves.update (arpFind_some hfind).2.1 ⟨rfl, rfl⟩
  | added slot htakes hcache hcalm =>
      obtain ⟨-, hfind, -, -, hvictim⟩ := htakes
      rw [hcache]
      apply Evolves.allocate (victim_some hvictim).2
      exact fun i hi huse => arpFind_none hfind hi huse

/-! ## Runs -/

/-- What a segment does to the cache. -/
def CacheOk (seg : Segment State ArpCall) : Prop :=
  Evolves seg.before.arpcache seg.after.arpcache

theorem Settles.obeys {x : Flow State Int} {t : State} (h : Settles x t) (c : ArpCall) :
    arpMachine.Obeys CacheOk c x false t := by
  obtain ⟨t₁, hevolves, hwithin⟩ := h
  apply Machine.obeys_within hwithin
  · exact fun s o hinv => hevolves.invalidates hinv
  · exact fun s₁ s o hinv => (Evolves.refl _).invalidates hinv

theorem arpCall_obeys (t : State) (c : ArpCall) :
    arpMachine.Obeys CacheOk c (arpMachine.exec c t) false t := by
  apply Settles.obeys
  cases c with
  | kernel c => exact ⟨t, Evolves.refl _, onKernel_invalidates _ t⟩
  | arpResolve nxthop =>
      have hvars : ∀ f, (setVars f).Within Invalidates := fun f => .modify fun t i => Or.inl rfl
      apply (arpResolve_settles nxthop t).bind
      rintro ⟨r, mac⟩
      cases mac with
      | none => exact .pure _
      | some mac => exact .bind (hvars _) fun _ => .pure _
  | arpIn pkt buf => exact (arpIn_settles pkt buf t).bind fun _ => .pure _

/--
In every state that any run of `arp_resolve`, `arp_in` and the calls of the kernel
reaches, at most one entry in use carries any given address.  In every segment of the
run, an entry that is pending keeps its address and its process; and `arp_alloc`,
wherever it is called, gives away no pending entry and changes no other slot.
-/
theorem unique_of_run {ok' : State → Bool → ArpCall → Prop} {t₀ : State}
    {tr : List (Segment State ArpCall)} {C : Config State ArpCall}
    (hinit : ∀ i, i < arpSiz → (t₀.arpcache i).arstate = .arFree)
    (hrun : arpMachine.Run ok' (Machine.initial t₀) tr C) :
    Unique C.state.arpcache ∧
      (∀ seg ∈ tr, ∀ i, (seg.before.arpcache i).arstate = .arPending →
        Kept (seg.before.arpcache i) (seg.after.arpcache i)) ∧
      ∀ t, ∃ r t', arpAlloc t = .done r t' ∧
        ∀ i, (t.arpcache i).arstate = .arPending →
          r ≠ some i ∧ t'.arpcache i = t.arpcache i := by
  have hsegs := (Machine.run_obeys arpCall_obeys hrun).1
  have hunique : Unique C.state.arpcache := by
    induction hrun with
    | start => exact fun i j hi hj hui => (hui (hinit i hi)).elim
    | @step tr C C' seg hrun hstep hok ih =>
        obtain ⟨hbefore, hafter, -⟩ := hstep.segment
        have hprev := ih fun seg' hmem => hsegs seg' (List.mem_append_left _ hmem)
        have hseg := hsegs seg (by simp)
        rw [← hafter]
        rw [← hbefore] at hprev
        exact hseg.unique hprev
  refine ⟨hunique, fun seg hmem => (hsegs seg hmem).pending, ?_⟩
  intro t
  rw [arpAlloc_run]
  cases hvictim : victim t.arpcache with
  | none => exact ⟨none, t, rfl, fun i hi => ⟨by simp, rfl⟩⟩
  | some slot =>
      refine ⟨some slot, _, rfl, ?_⟩
      intro i hi
      have hne : i ≠ slot := by
        rintro rfl
        exact (victim_some hvictim).2 hi
      exact ⟨by simpa using hne.symm, update_of_ne hne _ _⟩

/-- The answer of the machine with address 5, as it arrives. -/
def answerOfFive : Arppacket where
  ethdst := fun _ => 0
  ethsrc := fun _ => 0
  ethtype := 0
  htype := 0x0100
  ptype := 0x0008
  hlen := 6
  plen := 4
  op := 0x0200
  sndha := fun _ => 7
  sndpa := 0x05000000
  tarha := fun _ => 0
  tarpa := 0

/-- Process 1 asks for address 5, and process 0 handles the answer. -/
def askScript : List (Option ArpCall) :=
  [some (.kernel (.semcreate 4)), some (.kernel (.create 400 30)), some (.kernel (.resume 1)),
    some (.arpResolve 5), none, some (.arpIn answerOfFive 4), none]

theorem one_entry_for_five :
    ∃ tr C, arpMachine.Run (fun _ _ _ => True) (Machine.initial (bootNet smallBoard)) tr C ∧
      (C.state.arpcache 0).arstate = .arResolved ∧ Unique C.state.arpcache := by
  have hreplay : (arpMachine.replayWhen Anyhow (forceNetConfig netEntries) askScript []
      (Machine.initial (bootNet smallBoard))).map (fun r => (r.2.state.arpcache 0).arstate) =
        some .arResolved := by
    decide +kernel
  obtain ⟨⟨tr, C⟩, hr, hst⟩ := Option.map_eq_some_iff.mp hreplay
  have hwhen := arpMachine.replayWhen_run (forcedNet_eq netEntries) .start hr
  have hrun : arpMachine.Run (fun _ _ _ => True) (Machine.initial (bootNet smallBoard)) tr C :=
    hwhen.run fun _ _ h => h
  exact ⟨tr, C, hrun, hst, (unique_of_run (fun _ _ => rfl) hrun).1⟩

end Net
end Xinu
