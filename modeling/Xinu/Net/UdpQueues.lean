import Xinu.Net.UdpSpec
import Xinu.Net.Script

/-!
# Queues of UDP endpoints

The queue of an endpoint holds the packets that have arrived and have not been received.
A receive that waits for a packet trusts a message that tells it of one; the packet may
be gone when it goes on.

Main results:

- Theorem `udpCall_traced`: what each segment of a call does, in terms of the endpoint on
  which a suspended receive waits.
- Theorem `queues_of_run`: as long as nobody disturbs the processes that wait, the queues
  are consistent.
-/

namespace Xinu
namespace Net
namespace Udp

open Foundations Function

variable {t t' t₁ base : State} {me : Int} {i : Nat}

/-! ## Segments -/

/-- What a suspended call will do: a receive waits on an endpoint, or the call does
nothing to the endpoints from now on, or nothing is known of it. -/
inductive Phase where
  | waiting (i : Nat)
  | idle
  | lost
deriving DecidableEq

/-- The call has ended, or does nothing to the endpoints from now on. -/
def Over (l : Option Phase) : Prop :=
  l = none ∨ l = some .idle

/-- What a segment does that goes on in a receive which waits on endpoint `i`. -/
def GoesOn (i : Nat) (base : State) (seg : Segment State UdpCall) (l' : Option Phase) : Prop :=
  (seg.outcome = .switched ∧ l' = some (.waiting i) ∧ ¬ Fresh (kernelOf seg.after) seg.who ∧
    Quiet base seg.after) ∨
  Over l' ∧ ∃ v s, Gets seg.who v (kernelOf base) s ∧ Calm s (kernelOf seg.after) ∧
    seg.after.udptab = update base.udptab i (udpAwoken (i32 v) (base.udptab i))

/-- What a segment of a suspended call does. -/
def Resumes (l : Option Phase) (seg : Segment State UdpCall) (l' : Option Phase) : Prop :=
  match l with
  | some (.waiting i) => GoesOn i seg.before seg l'
  | some .idle => Over l' ∧ Quiet seg.before seg.after
  | _ => True

/-- What the first segment of a receive does. -/
inductive Receives (slot : Int) (seg : Segment State UdpCall) (l' : Option Phase) : Prop where
  | refused (hl : Over l') (h : Quiet seg.before seg.after)
  | takes (i : Nat) (hslot : slot = i) (hlt : i < udpSlots)
      (hused : (seg.before.udptab i).udstate = .udpUsed) (hcount : (seg.before.udptab i).udcount ≠ 0)
      (hl : Over l')
      (htab : seg.after.udptab = update seg.before.udptab i (udpPop (seg.before.udptab i)))
      (hcalm : Calm (kernelOf seg.before) (kernelOf seg.after))
  | waits (i : Nat) (base : State) (hslot : slot = i) (hlt : i < udpSlots)
      (hused : (seg.before.udptab i).udstate = .udpUsed) (hcount : (seg.before.udptab i).udcount = 0)
      (htook : Took seg.who (kernelOf seg.before) (kernelOf base))
      (htab : base.udptab =
        update seg.before.udptab i (udpWaiting seg.who (seg.before.udptab i)))
      (h : GoesOn i base seg l')

/-- What a segment does whose call had the label `l` and gets the label `l'`. -/
def Effect (l : Option Phase) (seg : Segment State UdpCall) (l' : Option Phase) : Prop :=
  match seg.call with
  | .kernel c => Over l' ∧ KernelEffect c seg
  | .udpRegister remip remport locport =>
      if seg.resumed then Resumes l seg l' else Over l' ∧
        ∃ v, seg.outcome = .returned v ∧ Registered remip remport locport v seg.before seg.after
  | .udpIn pkt buf =>
      if seg.resumed then Resumes l seg l' else Over l' ∧ Arrived pkt buf seg.before seg.after
  | .udpRecv slot _ _ | .udpRecvaddr slot _ _ =>
      if seg.resumed then Resumes l seg l' else Receives slot.toInt seg l'
  | .udpRelease slot =>
      if seg.resumed then Resumes l seg l' else
        MayDefer (kernelOf seg.before) → Over l' ∧ Released slot.toInt seg.before seg.after

theorem kernel_traced (t : State) (c : KCall) :
    udpMachine.Traced Effect (.kernel c) (udpMachine.exec (.kernel c) t) none false t := by
  have hobeys := onKernel_obeys (N := udpMachine) (fun _ => rfl) UdpCall.kernel c t
  apply Machine.Traced.of_obeys Phase.idle hobeys
  rintro l ⟨who, call, b, t₁, o, t₂⟩ l' rfl h hl
  exact ⟨hl, h⟩

/-- A call that ends as soon as it has changed the endpoints. -/
theorem settled_traced {c : UdpCall} {x : Flow State Int} {l : Option Phase} {b : Bool} {s₀ : State}
    (hx : x.Within Quiet t₁)
    (hfirst : ∀ s o l', Quiet t₁ s → Over l' →
      Effect l ⟨(kernelOf s₀).currpid, c, b, s₀, o, s⟩ l')
    (hlater : ∀ s₁ s o l', Quiet s₁ s → Over l' →
      Effect (some .idle) ⟨(kernelOf s₁).currpid, c, true, s₁, o, s⟩ l') :
    udpMachine.Traced Effect c x l b s₀ :=
  Machine.Traced.of_within Phase.idle hx hfirst hlater

theorem receive_traced {c : UdpCall} {note : Netpacket → Vars → Vars} {slot len : Int}
    {maxwait : Nat} (t : State)
    (heffect : ∀ l seg l', seg.call = c →
      (if seg.resumed then Resumes l seg l' else Receives slot seg l') → Effect l seg l') :
    udpMachine.Traced Effect c (udpReceive note slot len maxwait t) none false t := by
  have hlater : ∀ s₁ s o l', Quiet s₁ s → Over l' →
      Effect (some .idle) ⟨(kernelOf s₁).currpid, c, true, s₁, o, s⟩ l' :=
    fun s₁ s o l' h hl => heffect _ _ _ rfl ⟨hl, h⟩
  have hbegins := udpReceive_begins note slot len maxwait t
  generalize udpReceive note slot len maxwait t = x at hbegins
  cases hbegins with
  | refused h =>
      apply settled_traced h _ hlater
      exact fun s o l' hq hl => heffect _ _ _ rfl (.refused hl hq)
  | takes i hslot hlt hused hcount hkernel htab h =>
      apply settled_traced h _ hlater
      intro s o l' hq hl
      apply heffect _ _ _ rfl
      refine .takes i hslot hlt hused hcount hl (hq.view.trans htab) ?_
      have hcalm := hq.calm
      rwa [hkernel] at hcalm
  | @waits t₁ i hslot hlt mask hused hcount hcur htook htab =>
      generalize i32 maxwait = delay
      have hgets : (recvtime delay (kernelOf t₁)).Stretches
          (fun s => s.currpid = (kernelOf t).currpid)
          (fun s s' => ¬ Fresh s' (kernelOf t).currpid ∧ Calm s s')
          (Gets (kernelOf t).currpid) (kernelOf t₁) := recvtime_gets delay hcur
      have hstretches := onKernel_stretches hgets
      have hgoes : ∀ base s v (b : Bool) s₀ l, (kernelOf s₀).currpid = (kernelOf t).currpid →
          Gets (kernelOf t).currpid v (kernelOf base) (kernelOf s) ∧
            s = withKernel base (kernelOf s) →
          (∀ o s' l', GoesOn i base ⟨(kernelOf s₀).currpid, c, b, s₀, o, s'⟩ l' →
            Effect l ⟨(kernelOf s₀).currpid, c, b, s₀, o, s'⟩ l') →
          udpMachine.Traced Effect c (udpWoken note i len mask (i32 v) s) l b s₀ := by
        intro base s v b s₀ l hme ⟨hgets, hs⟩ hR
        obtain ⟨s₁, hkernel, htab₁, hwithin⟩ := udpWoken_within note i len mask (i32 v) s
        have hbase : s.udptab = base.udptab := by rw [hs]; rfl
        apply settled_traced hwithin _ hlater
        intro s' o l' hq hl
        apply hR
        refine Or.inr ⟨hl, v, kernelOf s, hme.symm ▸ hgets, ?_, ?_⟩
        · rw [← hkernel]
          exact hq.calm
        · rw [← hbase]
          exact hq.view.trans htab₁
      have hquiet : ∀ s₁ s : State, Calm (kernelOf s₁) (kernelOf s) →
          s = withKernel s₁ (kernelOf s) → Quiet s₁ s := by
        intro s₁ s hcalm hs
        exact ⟨by rw [hs]; rfl, hcalm⟩
      apply Machine.Traced.after_stretches (Phase.waiting i) (kernelOf t).currpid hstretches rfl
      · rintro s ⟨⟨hsaved, hcalm⟩, hs⟩
        apply heffect _ _ _ rfl
        exact .waits i t₁ hslot hlt hused hcount htook htab
          (Or.inl ⟨rfl, rfl, hsaved, hquiet _ _ hcalm hs⟩)
      · intro v s h
        apply hgoes t₁ s v false t none rfl h
        intro o s' l' hon
        exact heffect _ _ _ rfl (.waits i t₁ hslot hlt hused hcount htook htab hon)
      · rintro s₁ s - ⟨⟨hsaved, hcalm⟩, hs⟩
        apply heffect _ _ _ rfl
        exact Or.inl ⟨rfl, rfl, hsaved, hquiet _ _ hcalm hs⟩
      · intro v s₁ s hcur₁ h
        apply hgoes s₁ s v true s₁ _ hcur₁ h
        intro o s' l' hon
        exact heffect _ _ _ rfl hon

theorem release_traced (t : State) (slot : Int32) :
    udpMachine.Traced Effect (.udpRelease slot) (udpMachine.exec (.udpRelease slot) t) none false
      t := by
  by_cases hdefer : MayDefer (kernelOf t)
  · rcases udpRelease_releases slot.toInt t hdefer with ⟨t₁, hreleased, hwithin⟩ | hstuck
    · apply settled_traced hwithin
      · intro s o l' hq hl _
        refine ⟨hl, ?_⟩
        cases hreleased with
        | refused h => exact .refused (trans_of Quiet h hq)
        | closed i hslot hlt e hfree htab hcalm =>
            exact .closed i hslot hlt e hfree (hq.view.trans htab) (trans_of Calm hcalm hq.calm)
      · exact fun s₁ s o l' hq hl => ⟨hl, hq⟩
    · have hexec : udpMachine.exec (.udpRelease slot) t = .stuck := hstuck
      rw [hexec]
      trivial
  · apply Machine.Traced.of_within Phase.lost (Flow.Within.trivial t _)
    · exact fun s o l' _ _ hdefer' => (hdefer hdefer').elim
    · exact fun s₁ s o l' _ _ => trivial

theorem udpCall_traced (t : State) (c : UdpCall) :
    udpMachine.Traced Effect c (udpMachine.exec c t) none false t := by
  have hlater : ∀ {c : UdpCall}, (∀ k, c ≠ .kernel k) → ∀ s₁ s o l', Quiet s₁ s → Over l' →
      Effect (some .idle) ⟨(kernelOf s₁).currpid, c, true, s₁, o, s⟩ l' := by
    intro c hc s₁ s o l' hq hl
    cases c with
    | kernel k => exact (hc k rfl).elim
    | _ => exact ⟨hl, hq⟩
  cases c with
  | kernel c => exact kernel_traced t c
  | udpRegister remip remport locport =>
      obtain ⟨v, t', hrun, hreg⟩ := udpRegister_run remip remport locport t
      have hexec : udpMachine.exec (.udpRegister remip remport locport) t = .done v t' := hrun
      rw [hexec]
      exact ⟨Or.inl rfl, v, rfl, hreg⟩
  | udpIn pkt buf =>
      obtain ⟨t₁, harrived, hwithin⟩ := udpIn_arrives pkt buf t
      apply settled_traced hwithin
      · exact fun s o l' hq hl => ⟨hl, harrived.quiet hq⟩
      · exact hlater nofun
  | udpRecv slot len timeout =>
      apply receive_traced t
      rintro l ⟨who, call, b, s₀, o, s⟩ l' rfl h
      exact h
  | udpRecvaddr slot len timeout =>
      apply receive_traced t
      rintro l ⟨who, call, b, s₀, o, s⟩ l' rfl h
      exact h
  | udpRelease slot => exact release_traced t slot

/-! ## What the processes have been told -/

/-- The endpoint of a receive. -/
def receives : UdpCall → Option Int
  | .udpRecv slot _ _ | .udpRecvaddr slot _ _ => some slot.toInt
  | _ => none

/-- The endpoint of the receive in which process `p` is suspended. -/
def receiving (C : Config State UdpCall) (p : Int) : Option Int :=
  (C.pending p).bind fun r => receives r.1

/-- Process `p` has been told that there is a packet. -/
def Promised (t : State) (p : Int) : Prop :=
  ∃ m, mailbox (kernelOf t) p = [m] ∧ i32 m = ok

/-- No process has been told of the packet that a receive on the endpoint takes. -/
def Unclaimed (C : Config State UdpCall) (slot : Int) : Prop :=
  ∀ i : Nat, slot = i → (C.state.udptab i).udstate = .udpUsed → (C.state.udptab i).udcount ≠ 0 →
    ∀ p, ¬ isbadpid (kernelOf C.state) p → receiving C p = some slot → ¬ Promised C.state p

/-- Nobody but `udp_in` tells a process that is suspended in a receive of a packet, no
such process is killed, its packet is not taken by another receive, and its endpoint is
not released.  The processes that receive are in the process table, the buffers that
are passed to `udp_in` are in no queue, and there are not too many deferrals. -/
def Undisturbed (C : Config State UdpCall) (seg : Segment State UdpCall) : Prop :=
  match seg.call with
  | .kernel (.send pid msg) =>
      receiving C pid.toInt ≠ none → i32 msg.toNat = ok →
        seg.resumed = true ∨ ¬ Accepts (kernelOf seg.before) pid.toInt
  | .kernel (.kill pid) =>
      receiving C pid.toInt = none ∧
        ∀ parent, parent = ((kernelOf seg.before).proctab pid.toInt).prparent →
          receiving C parent ≠ none → i32 pid.toInt = ok → seg.resumed = true ∨
            ¬ (Notifies (kernelOf seg.before) pid.toInt parent ∧
              Accepts (kernelOf seg.before) parent)
  | .kernel _ | .udpRegister _ _ _ => True
  | .udpIn _ buf =>
      seg.resumed = false → ∀ i, i < udpSlots → (seg.before.udptab i).udstate ≠ .udpFree →
        buf ∉ contents (seg.before.udptab i)
  | .udpRecv slot _ _ | .udpRecvaddr slot _ _ =>
      ¬ isbadpid (kernelOf seg.before) seg.who ∧
        (seg.resumed = false → Unclaimed C slot.toInt)
  | .udpRelease slot =>
      seg.resumed = false →
        (∀ p, ¬ isbadpid (kernelOf C.state) p → receiving C p ≠ some slot.toInt) ∧
          MayDefer (kernelOf seg.before)

/-! ## Entries -/

/-- The buffers that have arrived at an endpoint since it was registered. -/
def arrive (i : Nat) (l : List Nat) (seg : Segment State UdpCall) : List Nat :=
  match seg.call with
  | .udpIn pkt buf =>
      if seg.resumed = false ∧ udpFind seg.before.udptab pkt = some i then l ++ [buf] else l
  | .udpRegister _ _ _ => if seg.resumed = false ∧ seg.outcome = .returned i then [] else l
  | _ => l

def arrivals (i : Nat) (tr : List (Segment State UdpCall)) : List Nat :=
  tr.foldl (arrive i) []

/-- The entry is that of a ring buffer, whose packets are different. -/
structure EntryOk (e : Udpentry) : Prop where
  fits : e.Fits
  nodup : (contents e).Nodup

/-- What a segment does with an entry. -/
inductive Move (i : Nat) (seg : Segment State UdpCall) : Prop where
  | same (h : seg.after.udptab i = seg.before.udptab i) (harr : ∀ l, arrive i l seg = l)
  | queued (pkt : Netpacket) (buf : Nat) (hcall : seg.call = .udpIn pkt buf)
      (hres : seg.resumed = false) (hused : (seg.before.udptab i).udstate ≠ .udpFree)
      (hroom : (seg.before.udptab i).udcount < udpQsiz)
      (h : seg.after.udptab i = udpQueued buf (seg.before.udptab i))
      (harr : ∀ l, arrive i l seg = l ++ [buf])
  | marked (hused : (seg.before.udptab i).udstate ≠ .udpFree) (st : UdState) (pid : Int)
      (h : seg.after.udptab i = { seg.before.udptab i with udstate := st, udpid := pid })
      (harr : ∀ l, arrive i l seg = l)
  | taken (hused : (seg.before.udptab i).udstate ≠ .udpFree)
      (hpos : 0 < (seg.before.udptab i).udcount)
      (h : seg.after.udptab i = udpPop { seg.before.udptab i with udstate := .udpUsed })
      (harr : ∀ l, arrive i l seg = l)
  | opened (remip : UInt32) (remport locport : UInt16)
      (hcall : seg.call = .udpRegister remip remport locport)
      (h : seg.after.udptab i = udpOpened remip remport locport (seg.before.udptab i))
      (harr : ∀ l, arrive i l seg = [])
  | closed (hcall : receives seg.call = none) (h : (seg.after.udptab i).udstate = .udpFree)

section Moves

variable {seg : Segment State UdpCall} {l : List Nat}

theorem contents_queued {e : Udpentry} (h : e.Fits) (hroom : e.udcount < udpQsiz) (buf : Nat) :
    contents (udpQueued buf e) = contents e ++ [buf] :=
  contents_push h hroom buf

/-- The queue stays a ring buffer of different packets. -/
theorem Move.entryOk (hmove : Move i seg)
    (h : (seg.before.udptab i).udstate ≠ .udpFree → EntryOk (seg.before.udptab i))
    (hnew : ∀ pkt buf, seg.call = .udpIn pkt buf → seg.resumed = false →
      (seg.before.udptab i).udstate ≠ .udpFree → buf ∉ contents (seg.before.udptab i))
    (hused' : (seg.after.udptab i).udstate ≠ .udpFree) : EntryOk (seg.after.udptab i) := by
  cases hmove with
  | same heq harr =>
      rw [heq] at hused' ⊢
      exact h hused'
  | queued pkt buf hcall hres hused hroom heq harr =>
      obtain ⟨hfits, hnodup⟩ := h hused
      have hfits' := fits_push hfits hroom buf
      rw [heq]
      refine ⟨hfits', ?_⟩
      rw [contents_queued hfits hroom, List.nodup_append]
      refine ⟨hnodup, List.nodup_singleton buf, ?_⟩
      rintro a ha b hb rfl
      rw [List.mem_singleton] at hb
      exact hnew pkt buf hcall hres hused (hb ▸ ha)
  | marked hused st pid heq harr =>
      obtain ⟨hfits, hnodup⟩ := h hused
      rw [heq]
      exact ⟨hfits, hnodup⟩
  | taken hused hpos heq harr =>
      obtain ⟨hfits, hnodup⟩ := h hused
      have hfits' : (udpPop (seg.before.udptab i)).Fits := fits_pop hfits hpos
      rw [contents_pop hpos, List.nodup_cons] at hnodup
      rw [heq]
      exact ⟨hfits', hnodup.2⟩
  | opened remip remport locport hcall heq harr =>
      rw [heq]
      refine ⟨fits_opened _ _ _ _, ?_⟩
      rw [contents_opened]
      exact List.nodup_nil
  | closed hcall hfree => exact (hused' hfree).elim

/-- The queue holds the last packets that have arrived. -/
theorem Move.order (hmove : Move i seg)
    (hfits : (seg.before.udptab i).udstate ≠ .udpFree → (seg.before.udptab i).Fits)
    (h : (seg.before.udptab i).udstate ≠ .udpFree → contents (seg.before.udptab i) <:+ l)
    (hused' : (seg.after.udptab i).udstate ≠ .udpFree) :
    contents (seg.after.udptab i) <:+ arrive i l seg := by
  cases hmove with
  | same heq harr =>
      rw [heq] at hused' ⊢
      rw [harr]
      exact h hused'
  | queued pkt buf hcall hres hused hroom heq harr =>
      rw [heq, harr, contents_queued (hfits hused) hroom]
      obtain ⟨pre, hpre⟩ := h hused
      exact ⟨pre, by rw [← List.append_assoc, hpre]⟩
  | marked hused st pid heq harr =>
      rw [heq, harr]
      exact h hused
  | taken hused hpos heq harr =>
      have hsuffix := h hused
      rw [contents_pop hpos] at hsuffix
      rw [heq, harr]
      exact (List.suffix_cons _ _).trans hsuffix
  | opened remip remport locport hcall heq harr =>
      rw [heq, contents_opened]
      exact List.nil_suffix
  | closed hcall hfree => exact (hused' hfree).elim

/-- What the claim says of a segment: a receive takes nothing from an empty queue, and
only `udp_register` opens an endpoint. -/
structure Sound (seg : Segment State UdpCall) : Prop where
  taken : ∀ i, i < udpSlots → receives seg.call ≠ none → (seg.before.udptab i).udcount = 0 →
    (seg.after.udptab i).udcount = 0 ∧
      (seg.after.udptab i).udhead = (seg.before.udptab i).udhead
  opened : ∀ i, i < udpSlots → (seg.before.udptab i).udstate = .udpFree →
    (seg.after.udptab i).udstate ≠ .udpFree →
      ∃ remip remport locport, seg.call = .udpRegister remip remport locport

theorem sound_of_moves (h : ∀ i, i < udpSlots → Move i seg) : Sound seg := by
  constructor
  · intro i hi hrec hempty
    cases h i hi with
    | same heq harr => exact ⟨by rw [heq, hempty], by rw [heq]⟩
    | queued pkt buf hcall hres hused hroom heq harr =>
        rw [hcall] at hrec
        exact (hrec rfl).elim
    | marked hused st pid heq harr => exact ⟨by rw [heq, hempty], by rw [heq]⟩
    | taken hused hpos heq harr => omega
    | opened remip remport locport hcall heq harr =>
        rw [hcall] at hrec
        exact (hrec rfl).elim
    | closed hcall hfree => exact (hrec hcall).elim
  · intro i hi hfree hused'
    cases h i hi with
    | same heq harr =>
        rw [heq] at hused'
        exact (hused' hfree).elim
    | opened remip remport locport hcall heq harr => exact ⟨remip, remport, locport, hcall⟩
    | queued pkt buf hcall hres hused hroom heq harr => exact (hused hfree).elim
    | marked hused st pid heq harr => exact (hused hfree).elim
    | taken hused hpos heq harr => exact (hused hfree).elim
    | closed hcall hfree' => exact (hused' hfree').elim

end Moves

/-! ## Claims to a packet -/

/-- What holds of endpoint `i` and of the processes `W` that wait on it. -/
structure Claims (t : State) (W : Int → Prop) (i : Nat) : Prop where
  empty : (t.udptab i).udstate = .udpRecv → (t.udptab i).udcount = 0 ∧ W (t.udptab i).udpid
  used : ∀ p, W p → (t.udptab i).udstate ≠ .udpFree
  claim : ∀ p, W p → Promised t p → 0 < (t.udptab i).udcount ∧ ∀ q, W q → Promised t q → q = p

section Claims

variable {W W' : Int → Prop} {p : Int}

theorem promised_congr (h : mailbox (kernelOf t') p = mailbox (kernelOf t) p) :
    Promised t' p ↔ Promised t p := by
  unfold Promised
  rw [h]

/-- A call of the kernel that passes no message `OK` tells nobody of a packet. -/
theorem promised_kernel {κ : Type} {c : KCall} {seg : Segment State κ} (h : KernelEffect c seg)
    (hne : p ≠ seg.who) (hused : (kernelOf seg.before).state p ≠ .prFree)
    (hpassed : ∀ m ∈ passed p (kernelSegment c seg), i32 m ≠ ok) :
    Promised seg.after p ↔ Promised seg.before p := by
  rcases h.mailbox_cases hne hused with hsame | ⟨m, hm, hempty, hmail⟩
  · exact promised_congr hsame
  · constructor
    · rintro ⟨m', hmail', hok⟩
      rw [hmail, List.singleton_inj] at hmail'
      subst hmail'
      exact (hpassed _ hm hok).elim
    · rintro ⟨m', hmail', -⟩
      rw [hempty] at hmail'
      contradiction

/-- Nothing has changed at the endpoint. -/
theorem Claims.frame (h : Claims t W i) (hentry : t'.udptab i = t.udptab i)
    (hW : ∀ p, W' p ↔ W p) (hprom : ∀ p, W p → (Promised t' p ↔ Promised t p)) :
    Claims t' W' i := by
  constructor
  · intro hrecv
    rw [hentry] at hrecv ⊢
    obtain ⟨hzero, hpid⟩ := h.empty hrecv
    exact ⟨hzero, (hW _).mpr hpid⟩
  · intro p hp
    rw [hentry]
    exact h.used p ((hW p).mp hp)
  · intro p hp hpr
    rw [hentry]
    obtain ⟨hpos, hsole⟩ := h.claim p ((hW p).mp hp) ((hprom p ((hW p).mp hp)).mp hpr)
    refine ⟨hpos, ?_⟩
    intro q hq hqr
    exact hsole q ((hW q).mp hq) ((hprom q ((hW q).mp hq)).mp hqr)

/-- A packet is put in the queue, and the process that waits for it is told. -/
theorem Claims.queued (h : Claims t W i) (hfits : (t.udptab i).Fits)
    (hused : (t.udptab i).udstate ≠ .udpFree) {buf : Nat}
    (hentry : t'.udptab i = udpQueued buf (t.udptab i))
    (hcalm : Calm (if (t.udptab i).udstate = .udpRecv then
      sent (kernelOf t) (t.udptab i).udpid ok else kernelOf t) (kernelOf t')) : Claims t' W i := by
  have hnonneg := hfits.count_nonneg
  have hcount : (t'.udptab i).udcount = (t.udptab i).udcount + 1 := by
    rw [hentry]
    rfl
  have hmail := fun p => mailbox_congr (congrFun hcalm.mail p)
  by_cases hrecv : (t.udptab i).udstate = .udpRecv
  · have hstate : (t'.udptab i).udstate = .udpUsed := by
      rw [hentry]
      exact if_pos hrecv
    obtain ⟨hzero, -⟩ := h.empty hrecv
    have hsole : ∀ p, W p → Promised t' p → p = (t.udptab i).udpid := by
      intro p hp hpr
      by_contra hne
      have hsame : mailbox (kernelOf t') p = mailbox (kernelOf t) p := by
        rw [hmail, if_pos hrecv, mailbox_sent, if_neg fun hcond => hne hcond.2]
      have hpos := (h.claim p hp ((promised_congr hsame).mp hpr)).1
      omega
    constructor
    · intro hst
      rw [hstate] at hst
      contradiction
    · intro p _
      rw [hstate]
      simp
    · intro p hp hpr
      refine ⟨by omega, ?_⟩
      intro q hq hqr
      rw [hsole p hp hpr, hsole q hq hqr]
  · have hstate : (t'.udptab i).udstate = (t.udptab i).udstate := by
      rw [hentry]
      exact if_neg hrecv
    have hsame : ∀ p, mailbox (kernelOf t') p = mailbox (kernelOf t) p := by
      intro p
      rw [hmail, if_neg hrecv]
    constructor
    · intro hst
      rw [hstate] at hst
      exact (hrecv hst).elim
    · intro p _
      rw [hstate]
      exact hused
    · intro p hp hpr
      obtain ⟨hpos, hsole⟩ := h.claim p hp ((promised_congr (hsame p)).mp hpr)
      refine ⟨by omega, ?_⟩
      exact fun q hq hqr => hsole q hq ((promised_congr (hsame q)).mp hqr)

/-- A packet is taken that nobody has been told of. -/
theorem claims_of_taken (hused : (t.udptab i).udstate = .udpUsed)
    (hfree : ∀ p, W p → ¬ Promised t p) (hentry : t'.udptab i = udpPop (t.udptab i))
    (hcalm : Calm (kernelOf t) (kernelOf t')) : Claims t' W i := by
  have hstate : (t'.udptab i).udstate = .udpUsed := by
    rw [hentry]
    exact hused
  have hprom : ∀ p, Promised t' p ↔ Promised t p := fun p =>
    promised_congr (mailbox_congr (congrFun hcalm.mail p))
  constructor
  · intro hst
    rw [hstate] at hst
    contradiction
  · intro p _
    rw [hstate]
    simp
  · exact fun p hp hpr => (hfree p hp ((hprom p).mp hpr)).elim

/-- Process `me` begins to wait. -/
theorem Claims.waits (h : Claims t W i) (hcount : (t.udptab i).udcount = 0)
    (hentry : t'.udptab i = udpWaiting me (t.udptab i))
    (htook : Took me (kernelOf t) (kernelOf t')) : Claims t' (fun p => W p ∨ p = me) i := by
  have hcount' : (t'.udptab i).udcount = 0 := by
    rw [hentry]
    exact hcount
  have hnone : ∀ p, W p ∨ p = me → ¬ Promised t' p := by
    intro p hp hpr
    by_cases hme : p = me
    · obtain ⟨m, hmail, -⟩ := hpr
      rw [htook.mail, if_pos hme] at hmail
      contradiction
    · have hsame : mailbox (kernelOf t') p = mailbox (kernelOf t) p := by
        rw [htook.mail, if_neg hme]
      have hpos := (h.claim p (hp.resolve_right hme) ((promised_congr hsame).mp hpr)).1
      omega
  constructor
  · intro _
    refine ⟨hcount', Or.inr ?_⟩
    rw [hentry]
    rfl
  · intro p _
    rw [hentry]
    simp [udpWaiting]
  · exact fun p hp hpr => (hnone p hp hpr).elim

/-- A message that says `OK` is a promise. -/
theorem promised_of_gets {v : Int} {s s' : Kernel} (h : Gets me v s s') (hok : i32 v = ok) :
    mailbox s me = [v] := by
  have htimeout : i32 timeout ≠ ok := by decide
  have hsyserr : i32 syserr ≠ ok := by decide
  rcases h with ⟨hmail, -⟩ | ⟨-, rfl | rfl⟩
  · exact hmail
  · exact (htimeout hok).elim
  · exact (hsyserr hok).elim

/-- Process `me` goes on after it has waited. -/
theorem Claims.awoken (h : Claims t W i) (hme : W me) {v : Int} {s : Kernel}
    (hentry : t'.udptab i = udpAwoken (i32 v) (t.udptab i))
    (hgets : Gets me v (kernelOf t) s) (hcalm : Calm s (kernelOf t')) :
    Claims t' (fun p => W p ∧ p ≠ me) i := by
  have hstate : (t'.udptab i).udstate = .udpUsed := by
    rw [hentry]
    unfold udpAwoken
    split
    · rfl
    · rfl
  have hprom : ∀ p, p ≠ me → (Promised t' p ↔ Promised t p) := by
    intro p hne
    apply promised_congr
    rw [mailbox_congr (congrFun hcalm.mail p)]
    exact hgets.mail hne
  constructor
  · intro hst
    rw [hstate] at hst
    contradiction
  · intro p _
    rw [hstate]
    simp
  · rintro p ⟨hp, hne⟩ hpr
    have hpr' := (hprom p hne).mp hpr
    obtain ⟨hpos, hsole⟩ := h.claim p hp hpr'
    by_cases hok : i32 v = ok
    · exact (hne (hsole me hme ⟨v, promised_of_gets hgets hok, hok⟩).symm).elim
    · refine ⟨?_, fun q hq hqr => hsole q hq.1 ((hprom q hq.2).mp hqr)⟩
      rw [hentry]
      unfold udpAwoken
      rw [if_neg hok]
      exact hpos

end Claims

/-! ## Runs -/

/-- The invariant of the runs in which waiting processes are not disturbed. -/
structure Served (tr : List (Segment State UdpCall)) (C : Config State UdpCall)
    (lbl : Int → Option Phase) : Prop where
  known : ∀ p, lbl p ≠ some .lost
  entries : ∀ i, i < udpSlots → (C.state.udptab i).udstate ≠ .udpFree → EntryOk (C.state.udptab i)
  claims : ∀ i, i < udpSlots → Claims C.state (fun p => lbl p = some (.waiting i)) i
  waits : ∀ p i, lbl p = some (.waiting i) → i < udpSlots ∧ ¬ isbadpid (kernelOf C.state) p ∧
    ¬ Fresh (kernelOf C.state) p ∧ receiving C p = some (i : Int)
  order : ∀ i, i < udpSlots → (C.state.udptab i).udstate ≠ .udpFree →
    contents (C.state.udptab i) <:+ arrivals i tr
  sound : ∀ seg ∈ tr, Sound seg

section Steps

variable {tr : List (Segment State UdpCall)} {C C' : Config State UdpCall}
variable {lbl : Int → Option Phase} {seg : Segment State UdpCall} {l : Option Phase}

/-- One segment more: what is to be shown of the endpoints and of the processes. -/
theorem Served.snoc (h : Served tr C lbl) (hstep : udpMachine.Step C seg C')
    (hrule : Undisturbed C seg) (hl : l ≠ some .lost)
    (hmove : ∀ i, i < udpSlots → Move i seg)
    (hclaims : ∀ i, i < udpSlots →
      Claims seg.after (fun p => update lbl seg.who l p = some (.waiting i)) i)
    (hothers : ∀ q i, q ≠ seg.who → lbl q = some (.waiting i) →
      Outlives q (kernelOf seg.before) (kernelOf seg.after))
    (hwho : ∀ i, l = some (.waiting i) → i < udpSlots ∧ ¬ isbadpid (kernelOf seg.after) seg.who ∧
      ¬ Fresh (kernelOf seg.after) seg.who ∧ receives seg.call = some (i : Int) ∧
      seg.outcome = .switched) :
    Served (tr ++ [seg]) C' (udpMachine.keep seg.after (update lbl seg.who l)) := by
  obtain ⟨hbefore, hafter, -⟩ := hstep.segment
  have hnew : ∀ i, i < udpSlots → ∀ pkt buf, seg.call = .udpIn pkt buf → seg.resumed = false →
      (seg.before.udptab i).udstate ≠ .udpFree → buf ∉ contents (seg.before.udptab i) := by
    intro i hi pkt buf hcall hres hused
    unfold Undisturbed at hrule
    rw [hcall] at hrule
    exact hrule hres i hi hused
  have hsaved : ∀ p i, update lbl seg.who l p = some (.waiting i) →
      ¬ Fresh (kernelOf seg.after) p := by
    intro p i hlbl
    by_cases hp : p = seg.who
    · subst hp
      rw [update_self] at hlbl
      exact (hwho i hlbl).2.2.1
    · rw [update_of_ne hp] at hlbl
      obtain ⟨-, halive, hfresh, -⟩ := h.waits p i hlbl
      rw [← hbefore] at halive hfresh
      exact (hothers p i hp hlbl).saved (fun hfree => halive (Or.inr (Or.inr hfree))) hfresh
  have hkept : ∀ p, udpMachine.keep seg.after (update lbl seg.who l) p = none ∨
      udpMachine.keep seg.after (update lbl seg.who l) p = update lbl seg.who l p := by
    intro p
    unfold Machine.keep
    split
    · exact Or.inl rfl
    · exact Or.inr rfl
  have hlabel : ∀ p i, udpMachine.keep seg.after (update lbl seg.who l) p = some (.waiting i) ↔
      update lbl seg.who l p = some (.waiting i) := by
    intro p i
    constructor
    · intro hlbl
      rcases hkept p with hnone | hsome
      · rw [hnone] at hlbl
        contradiction
      · rwa [hsome] at hlbl
    · intro hlbl
      have hnot : udpMachine.fresh seg.after p = false := decide_eq_false (hsaved p i hlbl)
      unfold Machine.keep
      rw [hnot]
      exact hlbl
  constructor
  · intro p hlost
    rcases hkept p with hnone | hsome
    · rw [hnone] at hlost
      contradiction
    · rw [hsome] at hlost
      by_cases hp : p = seg.who
      · subst hp
        rw [update_self] at hlost
        exact hl hlost
      · rw [update_of_ne hp] at hlost
        exact h.known p hlost
  · intro i hi
    rw [← hafter]
    exact (hmove i hi).entryOk (hbefore ▸ h.entries i hi) (hnew i hi)
  · intro i hi
    rw [← hafter]
    exact (hclaims i hi).frame rfl (fun p => hlabel p i) fun _ _ => Iff.rfl
  · intro p i hlbl
    have hlbl' := (hlabel p i).mp hlbl
    have hfresh := hsaved p i hlbl'
    have hnot : udpMachine.fresh seg.after p = false := decide_eq_false hfresh
    rw [← hafter]
    by_cases hp : p = seg.who
    · subst hp
      rw [update_self] at hlbl'
      obtain ⟨hi, halive, -, hcall, hout⟩ := hwho i hlbl'
      obtain ⟨k, hk⟩ := hstep.suspends hout hnot
      refine ⟨hi, halive, hfresh, ?_⟩
      unfold receiving
      rw [hk]
      exact hcall
    · rw [update_of_ne hp] at hlbl'
      obtain ⟨hi, halive, -, hrec⟩ := h.waits p i hlbl'
      rw [← hbefore] at halive
      refine ⟨hi, fun hbad => halive ((hothers p i hp hlbl').isbadpid hbad), hfresh, ?_⟩
      unfold receiving
      rw [hstep.keeps_pending hp hnot]
      exact hrec
  · intro i hi
    have harr : arrivals i (tr ++ [seg]) = arrive i (arrivals i tr) seg := by
      unfold arrivals
      rw [List.foldl_append]
      rfl
    rw [← hafter, harr]
    apply (hmove i hi).order
    · rw [hbefore]
      exact fun hused => (h.entries i hi hused).fits
    · rw [hbefore]
      exact h.order i hi
  · intro seg' hmem
    rcases List.mem_append.mp hmem with hmem | hmem
    · exact h.sound seg' hmem
    · rw [List.mem_singleton.mp hmem]
      exact sound_of_moves hmove

/-- The process of a segment that waits in a receive goes on with it. -/
theorem Served.resumes (h : Served tr C lbl) (hstep : udpMachine.Step C seg C')
    (hlbl : lbl seg.who = some (.waiting i)) :
    receives seg.call = some (i : Int) ∧ seg.resumed = true := by
  obtain ⟨-, -, -, hrec⟩ := h.waits _ _ hlbl
  unfold receiving at hrec
  cases hres : seg.resumed with
  | false =>
      rw [hstep.started hres] at hrec
      contradiction
  | true =>
      obtain ⟨k, hk⟩ := hstep.resumed hres
      rw [hk] at hrec
      exact ⟨hrec, rfl⟩

/-- Only the label of one process has changed. -/
theorem waiting_iff {p : Int} (hl : l ≠ some (.waiting i)) (hp : lbl p ≠ some (.waiting i))
    (q : Int) : update lbl p l q = some (.waiting i) ↔ lbl q = some (.waiting i) := by
  by_cases hq : q = p
  · subst hq
    rw [update_self]
    exact ⟨fun h => (hl h).elim, fun h => (hp h).elim⟩
  · rw [update_of_ne hq]

theorem Over.ne_waiting (h : Over l) (i : Nat) : l ≠ some (.waiting i) := by
  rcases h with rfl | rfl <;> simp

theorem Over.ne_lost (h : Over l) : l ≠ some .lost := by
  rcases h with rfl | rfl <;> simp

/-- A segment that leaves the endpoints alone. -/
theorem Served.quiet (h : Served tr C lbl) (hstep : udpMachine.Step C seg C')
    (hrule : Undisturbed C seg) (hl : Over l) (hwho : ∀ i, lbl seg.who ≠ some (.waiting i))
    (htab : seg.after.udptab = seg.before.udptab) (harr : ∀ i l, arrive i l seg = l)
    (hothers : ∀ q i, q ≠ seg.who → lbl q = some (.waiting i) →
      Outlives q (kernelOf seg.before) (kernelOf seg.after) ∧
        (Promised seg.after q ↔ Promised seg.before q)) :
    Served (tr ++ [seg]) C' (udpMachine.keep seg.after (update lbl seg.who l)) := by
  obtain ⟨hbefore, -, -⟩ := hstep.segment
  apply h.snoc hstep hrule hl.ne_lost
  · exact fun i _ => .same (congrFun htab i) (harr i)
  · intro i hi
    have hclaims := h.claims i hi
    rw [← hbefore] at hclaims
    apply hclaims.frame (congrFun htab i) (waiting_iff (hl.ne_waiting i) (hwho i))
    intro p hlbl
    have hne : p ≠ seg.who := by
      rintro rfl
      exact hwho i hlbl
    exact (hothers p i hne hlbl).2
  · exact fun q i hq hlbl => (hothers q i hq hlbl).1
  · exact fun i hlbl => (hl.ne_waiting i hlbl).elim

/-- The messages that a call of the kernel passes to a process that waits. -/
theorem Undisturbed.discreet {c : KCall} (h : Undisturbed C seg) (hcall : seg.call = .kernel c) :
    Discreet (fun p => receiving C p ≠ none) c seg := by
  unfold Undisturbed at h
  rw [hcall] at h
  cases c with
  | send pid msg => exact h
  | kill pid => exact ⟨not_not.mpr h.1, h.2⟩
  | _ => trivial

theorem Served.kernelCall {c : KCall} (h : Served tr C lbl) (hstep : udpMachine.Step C seg C')
    (hrule : Undisturbed C seg) (hcall : seg.call = .kernel c) (hR : Effect (lbl seg.who) seg l) :
    Served (tr ++ [seg]) C' (udpMachine.keep seg.after (update lbl seg.who l)) := by
  obtain ⟨hbefore, -, -⟩ := hstep.segment
  have hwho : ∀ i, lbl seg.who ≠ some (.waiting i) := by
    intro i hlbl
    have hrec := (h.resumes hstep hlbl).1
    rw [hcall] at hrec
    contradiction
  unfold Effect at hR
  rw [hcall] at hR
  obtain ⟨hl, heffect⟩ := hR
  obtain ⟨s, hafter⟩ := heffect.after
  apply h.quiet hstep hrule hl hwho
  · rw [hafter]
    rfl
  · intro i l'
    unfold arrive
    rw [hcall]
  · intro q i hne hlbl
    obtain ⟨-, halive, -, hrec⟩ := h.waits q i hlbl
    rw [← hbefore] at halive
    have hwaits : receiving C q ≠ none := by
      rw [hrec]
      simp
    have hdiscreet := hrule.discreet hcall
    exact ⟨heffect.outlives q (hdiscreet.spares hwaits),
      promised_kernel heffect hne (fun hfree => halive (Or.inr (Or.inr hfree)))
        fun m => hdiscreet.passed hwaits⟩

/-- A segment of a process that does not wait, which does nothing to the endpoints. -/
theorem Served.still (h : Served tr C lbl) (hstep : udpMachine.Step C seg C')
    (hrule : Undisturbed C seg) (hl : Over l) (hwho : ∀ i, lbl seg.who ≠ some (.waiting i))
    (hquiet : Quiet seg.before seg.after) (harr : ∀ i l, arrive i l seg = l) :
    Served (tr ++ [seg]) C' (udpMachine.keep seg.after (update lbl seg.who l)) := by
  apply h.quiet hstep hrule hl hwho hquiet.view harr
  intro q i _ _
  exact ⟨hquiet.calm.outlives q,
    promised_congr (mailbox_congr (congrFun hquiet.calm.mail q))⟩

/-- Nothing arrives with a segment of a receive. -/
theorem arrive_of_receives {j : Int} (hrec : receives seg.call = some j) (i : Nat) (l : List Nat) :
    arrive i l seg = l := by
  unfold arrive
  cases hcall : seg.call with
  | udpIn pkt buf =>
      rw [hcall] at hrec
      contradiction
  | udpRegister remip remport locport =>
      rw [hcall] at hrec
      contradiction
  | _ => rfl

/-- Nothing arrives with a segment that continues a call. -/
theorem arrive_of_resumed (hres : seg.resumed = true) (i : Nat) (l : List Nat) :
    arrive i l seg = l := by
  unfold arrive
  cases hcall : seg.call with
  | udpIn pkt buf => simp [hres]
  | udpRegister remip remport locport => simp [hres]
  | _ => rfl

/-- A segment changes one entry. -/
theorem moves_of_update {e : Udpentry} (htab : seg.after.udptab = update seg.before.udptab i e)
    (hmove : seg.after.udptab i = e → Move i seg) (harr : ∀ j, j ≠ i → ∀ l, arrive j l seg = l)
    (j : Nat) : Move j seg := by
  by_cases hj : j = i
  · subst hj
    apply hmove
    rw [htab, update_self]
  · refine .same ?_ (harr j hj)
    rw [htab, update_of_ne hj]

/-- A receive goes on that has waited on endpoint `i`. -/
theorem Served.goesOn (h : Served tr C lbl) (hstep : udpMachine.Step C seg C')
    (hrule : Undisturbed C seg) (hlbl : lbl seg.who = some (.waiting i))
    (hR : GoesOn i seg.before seg l) :
    Served (tr ++ [seg]) C' (udpMachine.keep seg.after (update lbl seg.who l)) := by
  obtain ⟨hbefore, -, -⟩ := hstep.segment
  obtain ⟨hrec, hres⟩ := h.resumes hstep hlbl
  obtain ⟨hi, halive, -, -⟩ := h.waits _ _ hlbl
  have hclaims : ∀ j, j < udpSlots → Claims seg.before (fun p => lbl p = some (.waiting j)) j := by
    rw [hbefore]
    exact h.claims
  have hused := (hclaims i hi).used _ hlbl
  rw [← hbefore] at halive
  rcases hR with ⟨hout, hl, hsaved, hquiet⟩ | ⟨hl, v, s, hgets, hcalm, htab⟩
  · have hsame : ∀ p, Promised seg.after p ↔ Promised seg.before p := fun p =>
      promised_congr (mailbox_congr (congrFun hquiet.calm.mail p))
    have hlabel : ∀ p j, update lbl seg.who l p = some (.waiting j) ↔
        lbl p = some (.waiting j) := by
      intro p j
      rw [hl, ← hlbl, update_eq_self]
    apply h.snoc hstep hrule
    · rw [hl]
      simp
    · exact fun j _ => .same (congrFun hquiet.view j) (arrive_of_resumed hres j)
    · intro j hj
      exact (hclaims j hj).frame (congrFun hquiet.view j) (fun p => hlabel p j) fun p _ => hsame p
    · exact fun q j _ _ => hquiet.calm.outlives q
    · intro j hl'
      obtain rfl : i = j := by simpa [hl] using hl'
      exact ⟨hi, fun hbad => halive ((hquiet.calm.outlives _).isbadpid hbad), hsaved, hrec, hout⟩
  · have houtlives : ∀ p, Outlives p (kernelOf seg.before) (kernelOf seg.after) := by
      intro p
      rcases hgets with ⟨-, htook⟩ | ⟨hcalm', -⟩
      · exact trans_of (Outlives p) (htook.outlives p) (hcalm.outlives p)
      · exact trans_of (Outlives p) (hcalm'.outlives p) (hcalm.outlives p)
    have hsame : ∀ p, p ≠ seg.who → (Promised seg.after p ↔ Promised seg.before p) := by
      intro p hne
      apply promised_congr
      rw [mailbox_congr (congrFun hcalm.mail p)]
      exact hgets.mail hne
    apply h.snoc hstep hrule hl.ne_lost
    · intro j _
      apply moves_of_update htab _ fun j _ => arrive_of_resumed hres j
      intro hentry
      by_cases hok : i32 v = ok
      · have hpos := ((hclaims i hi).claim _ hlbl ⟨v, promised_of_gets hgets hok, hok⟩).1
        refine .taken hused hpos ?_ (arrive_of_resumed hres i)
        rw [hentry]
        exact if_pos hok
      · refine .marked hused .udpUsed (seg.before.udptab i).udpid ?_ (arrive_of_resumed hres i)
        rw [hentry]
        exact if_neg hok
    · intro j hj
      by_cases hji : j = i
      · subst hji
        have hentry : seg.after.udptab j = udpAwoken (i32 v) (seg.before.udptab j) := by
          rw [htab, update_self]
        apply ((hclaims j hj).awoken hlbl hentry hgets hcalm).frame rfl _ fun _ _ => Iff.rfl
        intro p
        by_cases hp : p = seg.who
        · subst hp
          rw [update_self]
          exact ⟨fun hl' => (hl.ne_waiting j hl').elim, fun hcond => (hcond.2 rfl).elim⟩
        · rw [update_of_ne hp]
          exact ⟨fun hp' => ⟨hp', hp⟩, fun hcond => hcond.1⟩
      · have hwho : lbl seg.who ≠ some (.waiting j) := by
          rw [hlbl]
          simpa using Ne.symm hji
        apply (hclaims j hj).frame _ (waiting_iff (hl.ne_waiting j) hwho)
        · intro p hp
          apply hsame
          rintro rfl
          exact hwho hp
        · rw [htab, update_of_ne hji]
    · exact fun q j _ _ => houtlives q
    · exact fun j hl' => (hl.ne_waiting j hl').elim

/-- A receive begins. -/
theorem Served.receive {slot : Int} (h : Served tr C lbl) (hstep : udpMachine.Step C seg C')
    (hrule : Undisturbed C seg) (hrec : receives seg.call = some slot) (hres : seg.resumed = false)
    (halive : ¬ isbadpid (kernelOf seg.before) seg.who) (hfree : Unclaimed C slot)
    (hR : Receives slot seg l) :
    Served (tr ++ [seg]) C' (udpMachine.keep seg.after (update lbl seg.who l)) := by
  obtain ⟨hbefore, -, -⟩ := hstep.segment
  have hwho : ∀ i, lbl seg.who ≠ some (.waiting i) := by
    intro i hlbl
    have hres' := (h.resumes hstep hlbl).2
    rw [hres] at hres'
    contradiction
  have hclaims : ∀ j, j < udpSlots → Claims seg.before (fun p => lbl p = some (.waiting j)) j := by
    rw [hbefore]
    exact h.claims
  have harr := arrive_of_receives hrec
  cases hR with
  | refused hl hquiet => exact h.still hstep hrule hl hwho hquiet harr
  | takes i hslot hlt hused hcount hl htab hcalm =>
      have hsame : ∀ p, Promised seg.after p ↔ Promised seg.before p := fun p =>
        promised_congr (mailbox_congr (congrFun hcalm.mail p))
      have hnone : ∀ p, lbl p = some (.waiting i) → ¬ Promised seg.before p := by
        intro p hlbl
        obtain ⟨-, halive', -, hrec'⟩ := h.waits p i hlbl
        rw [hbefore] at hused hcount ⊢
        exact hfree i hslot hused hcount p halive' (hslot ▸ hrec')
      have hfits := (h.entries i hlt (by rw [← hbefore, hused]; simp)).fits
      have hnonneg := hfits.count_nonneg
      rw [← hbefore] at hnonneg
      apply h.snoc hstep hrule hl.ne_lost
      · intro j _
        apply moves_of_update htab _ fun j _ => harr j
        intro hentry
        refine .taken (by rw [hused]; simp) (by omega) ?_ (harr i)
        rw [hentry, ← hused]
      · intro j hj
        by_cases hji : j = i
        · subst hji
          have hentry : seg.after.udptab j = udpPop (seg.before.udptab j) := by
            rw [htab, update_self]
          apply (claims_of_taken hused hnone hentry hcalm).frame rfl _ fun _ _ => Iff.rfl
          exact waiting_iff (hl.ne_waiting j) (hwho j)
        · apply (hclaims j hj).frame _ (waiting_iff (hl.ne_waiting j) (hwho j)) fun p _ => hsame p
          rw [htab, update_of_ne hji]
      · exact fun q j _ _ => hcalm.outlives q
      · exact fun j hl' => (hl.ne_waiting j hl').elim
  | waits i base hslot hlt hused hcount htook htab hgoes =>
      have hother : ∀ p, p ≠ seg.who → (Promised base p ↔ Promised seg.before p) := by
        intro p hne
        apply promised_congr
        rw [htook.mail, if_neg hne]
      have hbase : Claims base (fun p => lbl p = some (.waiting i) ∨ p = seg.who) i :=
        (hclaims i hlt).waits hcount (by rw [htab, update_self]) htook
      have hlive : ∀ p j, lbl p = some (.waiting j) → p ≠ seg.who := by
        rintro p j hlbl rfl
        exact hwho j hlbl
      have hne : (seg.before.udptab i).udstate ≠ .udpFree := by
        rw [hused]
        simp
      rcases hgoes with ⟨hout, hl, hsaved, hquiet⟩ | ⟨hl, v, s, hgets, hcalm, htab'⟩
      · have hsame : ∀ p, Promised seg.after p ↔ Promised base p := fun p =>
          promised_congr (mailbox_congr (congrFun hquiet.calm.mail p))
        have houtlives : ∀ p, Outlives p (kernelOf seg.before) (kernelOf seg.after) := fun p =>
          trans_of (Outlives p) (htook.outlives p) (hquiet.calm.outlives p)
        apply h.snoc hstep hrule
        · rw [hl]
          simp
        · intro j _
          apply moves_of_update (hquiet.view.trans htab) _ fun j _ => harr j
          exact fun hentry => .marked hne .udpRecv seg.who hentry (harr i)
        · intro j hj
          by_cases hji : j = i
          · subst hji
            apply hbase.frame (congrFun hquiet.view j) _ fun p _ => hsame p
            intro p
            by_cases hp : p = seg.who
            · subst hp
              rw [update_self]
              exact ⟨fun _ => Or.inr rfl, fun _ => hl⟩
            · rw [update_of_ne hp]
              exact ⟨Or.inl, fun hcond => hcond.resolve_right hp⟩
          · have hl' : l ≠ some (.waiting j) := by
              rw [hl]
              simpa using Ne.symm hji
            apply (hclaims j hj).frame _ (waiting_iff hl' (hwho j))
            · exact fun p hp => (hsame p).trans (hother p (hlive p j hp))
            · rw [hquiet.view, htab, update_of_ne hji]
        · exact fun q j _ _ => houtlives q
        · intro j hl'
          obtain rfl : i = j := by simpa [hl] using hl'
          exact ⟨hlt, fun hbad => halive ((houtlives _).isbadpid hbad), hsaved, hslot ▸ hrec, hout⟩
      · have hnot : i32 v ≠ ok := by
          intro hok
          have hmail := promised_of_gets hgets hok
          rw [htook.mail, if_pos rfl] at hmail
          contradiction
        have htab₂ : seg.after.udptab = update seg.before.udptab i
            (udpAwoken (i32 v) (udpWaiting seg.who (seg.before.udptab i))) := by
          rw [htab', htab, update_self, update_idem]
        have hmail : ∀ p, p ≠ seg.who →
            mailbox (kernelOf seg.after) p = mailbox (kernelOf base) p := by
          intro p hp
          rw [mailbox_congr (congrFun hcalm.mail p)]
          exact hgets.mail hp
        have houtlives : ∀ p, Outlives p (kernelOf seg.before) (kernelOf seg.after) := fun p =>
          trans_of (Outlives p) (htook.outlives p)
            (trans_of (Outlives p) (hgets.outlives p) (hcalm.outlives p))
        apply h.snoc hstep hrule hl.ne_lost
        · intro j _
          apply moves_of_update htab₂ _ fun j _ => harr j
          intro hentry
          refine .marked hne .udpUsed seg.who ?_ (harr i)
          rw [hentry]
          exact if_neg hnot
        · intro j hj
          by_cases hji : j = i
          · subst hji
            have hentry : seg.after.udptab j = udpAwoken (i32 v) (base.udptab j) := by
              rw [htab', update_self]
            apply (hbase.awoken (Or.inr rfl) hentry hgets hcalm).frame rfl _ fun _ _ => Iff.rfl
            intro p
            by_cases hp : p = seg.who
            · subst hp
              rw [update_self]
              exact ⟨fun hl' => (hl.ne_waiting j hl').elim, fun hcond => (hcond.2 rfl).elim⟩
            · rw [update_of_ne hp]
              exact ⟨fun hp' => ⟨Or.inl hp', hp⟩, fun hcond => hcond.1.resolve_right hp⟩
          · apply (hclaims j hj).frame _ (waiting_iff (hl.ne_waiting j) (hwho j))
            · intro p hp
              have hpne := hlive p j hp
              exact (promised_congr (hmail p hpne)).trans (hother p hpne)
            · rw [htab₂, update_of_ne hji]
        · exact fun q j _ _ => houtlives q
        · exact fun j hl' => (hl.ne_waiting j hl').elim

/-- A packet arrives. -/
theorem Served.packet {pkt : Netpacket} {buf : Nat} (h : Served tr C lbl)
    (hstep : udpMachine.Step C seg C') (hrule : Undisturbed C seg)
    (hcall : seg.call = .udpIn pkt buf) (hres : seg.resumed = false) (hl : Over l)
    (hR : Arrived pkt buf seg.before seg.after) :
    Served (tr ++ [seg]) C' (udpMachine.keep seg.after (update lbl seg.who l)) := by
  obtain ⟨hbefore, -, -⟩ := hstep.segment
  have hwho : ∀ i, lbl seg.who ≠ some (.waiting i) := by
    intro i hlbl
    have hrec := (h.resumes hstep hlbl).1
    rw [hcall] at hrec
    contradiction
  have hclaims : ∀ j, j < udpSlots → Claims seg.before (fun p => lbl p = some (.waiting j)) j := by
    rw [hbefore]
    exact h.claims
  cases hR with
  | discarded hfind hquiet =>
      apply h.still hstep hrule hl hwho hquiet
      intro i l'
      unfold arrive
      rw [hcall]
      simp [hfind]
  | queued i hfind htab hcalm =>
      obtain ⟨hi, hused, hroom⟩ := udpFind_some hfind
      have hfits := (h.entries i hi (hbefore ▸ hused)).fits
      rw [← hbefore] at hfits
      apply h.snoc hstep hrule hl.ne_lost
      · intro j _
        apply moves_of_update htab
        · intro hentry
          refine .queued pkt buf hcall hres hused hroom hentry fun l' => ?_
          unfold arrive
          rw [hcall]
          exact if_pos ⟨hres, hfind⟩
        · intro j hj l'
          unfold arrive
          rw [hcall]
          refine if_neg fun hcond => hj ?_
          rw [hfind, Option.some.injEq] at hcond
          exact hcond.2.symm
      · intro j hj
        by_cases hji : j = i
        · subst hji
          have hentry : seg.after.udptab j = udpQueued buf (seg.before.udptab j) := by
            rw [htab, update_self]
          apply ((hclaims j hj).queued hfits hused hentry hcalm).frame rfl _ fun _ _ => Iff.rfl
          exact waiting_iff (hl.ne_waiting j) (hwho j)
        · apply (hclaims j hj).frame _ (waiting_iff (hl.ne_waiting j) (hwho j))
          · intro p hp
            apply promised_congr
            rw [mailbox_congr (congrFun hcalm.mail p)]
            split
            · next hrecv =>
                -- the process that is told waits on another endpoint
                have hpid := ((hclaims i hi).empty hrecv).2
                rw [mailbox_sent, if_neg]
                rintro ⟨-, rfl⟩
                rw [hpid] at hp
                exact hji (by simpa using hp.symm)
            · rfl
          · rw [htab, update_of_ne hji]
      · exact fun q j _ _ => outlives_of_sent hcalm q
      · exact fun j hl' => (hl.ne_waiting j hl').elim

/-- An endpoint is opened or closed, and no process waits on it. -/
theorem Served.turned {e : Udpentry} (h : Served tr C lbl) (hstep : udpMachine.Step C seg C')
    (hrule : Undisturbed C seg) (hres : seg.resumed = false) (hl : Over l) (hi : i < udpSlots)
    (htab : seg.after.udptab = update seg.before.udptab i e)
    (hcalm : Calm (kernelOf seg.before) (kernelOf seg.after)) (hrecv : e.udstate ≠ .udpRecv)
    (hnone : ∀ p, lbl p ≠ some (.waiting i)) (hmove : seg.after.udptab i = e → Move i seg)
    (harr : ∀ j, j ≠ i → ∀ l, arrive j l seg = l) :
    Served (tr ++ [seg]) C' (udpMachine.keep seg.after (update lbl seg.who l)) := by
  obtain ⟨hbefore, -, -⟩ := hstep.segment
  have hwho : ∀ i, lbl seg.who ≠ some (.waiting i) := by
    intro i hlbl
    have hres' := (h.resumes hstep hlbl).2
    rw [hres] at hres'
    contradiction
  have hclaims : ∀ j, j < udpSlots → Claims seg.before (fun p => lbl p = some (.waiting j)) j := by
    rw [hbefore]
    exact h.claims
  apply h.snoc hstep hrule hl.ne_lost
  · exact fun j _ => moves_of_update htab hmove harr j
  · intro j hj
    by_cases hji : j = i
    · subst hji
      have hnone' : ∀ p, update lbl seg.who l p ≠ some (.waiting j) := fun p hlbl =>
        hnone p ((waiting_iff (hl.ne_waiting j) (hwho j) p).mp hlbl)
      constructor
      · intro hst
        rw [htab, update_self] at hst
        exact (hrecv hst).elim
      · exact fun p hlbl => (hnone' p hlbl).elim
      · exact fun p hlbl => (hnone' p hlbl).elim
    · apply (hclaims j hj).frame _ (waiting_iff (hl.ne_waiting j) (hwho j))
      · exact fun p _ => promised_congr (mailbox_congr (congrFun hcalm.mail p))
      · rw [htab, update_of_ne hji]
  · exact fun q j _ _ => hcalm.outlives q
  · exact fun j hl' => (hl.ne_waiting j hl').elim

theorem Served.register {remip : UInt32} {remport locport : UInt16} (h : Served tr C lbl)
    (hstep : udpMachine.Step C seg C') (hrule : Undisturbed C seg)
    (hcall : seg.call = .udpRegister remip remport locport) (hres : seg.resumed = false)
    (hl : Over l) {v : Int} (hout : seg.outcome = .returned v)
    (hR : Registered remip remport locport v seg.before seg.after) :
    Served (tr ++ [seg]) C' (udpMachine.keep seg.after (update lbl seg.who l)) := by
  obtain ⟨hbefore, -, -⟩ := hstep.segment
  have hwho : ∀ i, lbl seg.who ≠ some (.waiting i) := by
    intro i hlbl
    have hrec := (h.resumes hstep hlbl).1
    rw [hcall] at hrec
    contradiction
  cases hR with
  | refused hv hquiet =>
      apply h.still hstep hrule hl hwho hquiet
      intro i l'
      unfold arrive
      rw [hcall]
      refine if_neg fun hcond => ?_
      have hneg : v = i := by simpa [hout] using hcond.2
      rw [hv] at hneg
      unfold syserr at hneg
      omega
  | opened i hlt hv hfree htab hcalm =>
      apply h.turned hstep hrule hres hl hlt htab hcalm
      · simp [udpOpened]
      · intro p hlbl
        have hused := (h.claims i hlt).used p hlbl
        rw [hbefore] at hfree
        exact hused hfree
      · intro hentry
        refine .opened remip remport locport hcall hentry fun l' => ?_
        unfold arrive
        rw [hcall]
        exact if_pos ⟨hres, by rw [hout, hv]⟩
      · intro j hj l'
        unfold arrive
        rw [hcall]
        refine if_neg fun hcond => hj ?_
        have heq : (i : Int) = j := by simpa [hout, hv] using hcond.2
        omega

theorem Served.release {slot : Int32} (h : Served tr C lbl) (hstep : udpMachine.Step C seg C')
    (hrule : Undisturbed C seg) (hcall : seg.call = .udpRelease slot) (hres : seg.resumed = false)
    (hl : Over l) (hR : Released slot.toInt seg.before seg.after) :
    Served (tr ++ [seg]) C' (udpMachine.keep seg.after (update lbl seg.who l)) := by
  have hwho : ∀ i, lbl seg.who ≠ some (.waiting i) := by
    intro i hlbl
    have hrec := (h.resumes hstep hlbl).1
    rw [hcall] at hrec
    contradiction
  have harr : ∀ i l, arrive i l seg = l := by
    intro i l'
    unfold arrive
    rw [hcall]
  cases hR with
  | refused hquiet => exact h.still hstep hrule hl hwho hquiet harr
  | closed i hslot hlt e hfree htab hcalm =>
      apply h.turned hstep hrule hres hl hlt htab hcalm
      · rw [hfree]
        simp
      · intro p hlbl
        obtain ⟨-, halive, -, hrec⟩ := h.waits p i hlbl
        unfold Undisturbed at hrule
        rw [hcall] at hrule
        apply (hrule hres).1 p halive
        rw [hrec, hslot]
      · intro hentry
        refine .closed ?_ ?_
        · rw [hcall]
          rfl
        · rw [hentry]
          exact hfree
      · exact fun j _ => harr j

theorem Served.step (h : Served tr C lbl) (htraced : udpMachine.TracedBy Effect C lbl)
    (hstep : udpMachine.Step C seg C') (hrule : Undisturbed C seg)
    (hR : Effect (lbl seg.who) seg l) :
    Served (tr ++ [seg]) C' (udpMachine.keep seg.after (update lbl seg.who l)) := by
  obtain ⟨hbefore, -, -⟩ := hstep.segment
  -- a call that is continued does what its label says
  have hresumed : seg.resumed = true → Resumes (lbl seg.who) seg l →
      Served (tr ++ [seg]) C' (udpMachine.keep seg.after (update lbl seg.who l)) := by
    intro hres hR
    obtain ⟨k, hk⟩ := hstep.resumed hres
    rcases htraced seg.who with ⟨hnone, -⟩ | ⟨c, k', γ, hp, hlbl, -⟩
    · rw [hk] at hnone
      contradiction
    · rw [hlbl] at hR
      cases γ with
      | waiting i => exact h.goesOn hstep hrule hlbl hR
      | idle =>
          apply h.still hstep hrule hR.1 _ hR.2 (arrive_of_resumed hres)
          rw [hlbl]
          simp
      | lost => exact (h.known _ hlbl).elim
  cases hcall : seg.call with
  | kernel c => exact h.kernelCall hstep hrule hcall hR
  | udpRegister remip remport locport =>
      unfold Effect at hR
      rw [hcall] at hR
      cases hres : seg.resumed with
      | true =>
          rw [hres] at hR
          exact hresumed hres hR
      | false =>
          rw [hres] at hR
          obtain ⟨hl, v, hout, hreg⟩ := hR
          exact h.register hstep hrule hcall hres hl hout hreg
  | udpIn pkt buf =>
      unfold Effect at hR
      rw [hcall] at hR
      cases hres : seg.resumed with
      | true =>
          rw [hres] at hR
          exact hresumed hres hR
      | false =>
          rw [hres] at hR
          exact h.packet hstep hrule hcall hres hR.1 hR.2
  | udpRecv slot len timeout =>
      have hrule' := hrule
      unfold Effect at hR
      unfold Undisturbed at hrule'
      rw [hcall] at hR hrule'
      cases hres : seg.resumed with
      | true =>
          rw [hres] at hR
          exact hresumed hres hR
      | false =>
          rw [hres] at hR
          exact h.receive hstep hrule (by rw [hcall]; rfl) hres hrule'.1 (hrule'.2 hres) hR
  | udpRecvaddr slot len timeout =>
      have hrule' := hrule
      unfold Effect at hR
      unfold Undisturbed at hrule'
      rw [hcall] at hR hrule'
      cases hres : seg.resumed with
      | true =>
          rw [hres] at hR
          exact hresumed hres hR
      | false =>
          rw [hres] at hR
          exact h.receive hstep hrule (by rw [hcall]; rfl) hres hrule'.1 (hrule'.2 hres) hR
  | udpRelease slot =>
      have hrule' := hrule
      unfold Effect at hR
      unfold Undisturbed at hrule'
      rw [hcall] at hR hrule'
      cases hres : seg.resumed with
      | true =>
          rw [hres] at hR
          exact hresumed hres hR
      | false =>
          rw [hres] at hR
          obtain ⟨hl, hreleased⟩ := hR (hrule' hres).2
          exact h.release hstep hrule hcall hres hl hreleased

end Steps

/-- What the claim says of the entry of an endpoint, where the buffers `arrived` have
arrived since it was registered. -/
structure Consistent (e : Udpentry) (arrived : List Nat) : Prop where
  count_nonneg : 0 ≤ e.udcount
  count_le : e.udcount ≤ udpQsiz
  tail_eq : e.udtail = (e.udhead + e.udcount) % udpQsiz
  nodup : (contents e).Nodup
  order : contents e <:+ arrived

theorem forall_pids_iff {s : Kernel} {P : Int → Prop} :
    (∀ n ∈ List.range nproc.toNat, ¬ isbadpid s (n : Int) → P n) ↔ ∀ p, ¬ isbadpid s p → P p := by
  constructor
  · intro h p hp
    have hrange : 0 ≤ p ∧ p < nproc := by
      constructor
      · by_contra hneg
        exact hp (Or.inl (by omega))
      · by_contra hbig
        exact hp (Or.inr (Or.inl (by omega)))
    have hcast : ((p.toNat : Nat) : Int) = p := Int.toNat_of_nonneg hrange.1
    have hmem : p.toNat ∈ List.range nproc.toNat := List.mem_range.mpr (by omega)
    have hP := h p.toNat hmem
    rw [hcast] at hP
    exact hP hp
  · exact fun h n _ => h n

/-- What holds of the processes in the table can be checked. -/
instance (s : Kernel) (P : Int → Prop) [∀ p, Decidable (P p)] :
    Decidable (∀ p, ¬ isbadpid s p → P p) :=
  decidable_of_iff _ forall_pids_iff

instance (t : State) (p : Int) : Decidable (Promised t p) :=
  decidable_of_iff (∃ m ∈ mailbox (kernelOf t) p, i32 m = ok) <| by
    constructor
    · rintro ⟨m, hmem, hok⟩
      refine ⟨m, ?_, hok⟩
      unfold mailbox at hmem ⊢
      split at hmem
      · next h =>
          rw [if_pos h, List.singleton_inj]
          exact (List.mem_singleton.mp hmem).symm
      · contradiction
    · rintro ⟨m, hmail, hok⟩
      exact ⟨m, by rw [hmail]; simp, hok⟩

instance (C : Config State UdpCall) (slot : Int) : Decidable (Unclaimed C slot) :=
  decidable_of_iff (0 ≤ slot → (C.state.udptab slot.toNat).udstate = .udpUsed →
      (C.state.udptab slot.toNat).udcount ≠ 0 → ∀ p, ¬ isbadpid (kernelOf C.state) p →
        receiving C p = some slot → ¬ Promised C.state p) <| by
    constructor
    · rintro h i rfl
      exact h (by omega)
    · exact fun h hslot => h slot.toNat (Int.toNat_of_nonneg hslot).symm

instance (C : Config State UdpCall) (seg : Segment State UdpCall) : Decidable (Undisturbed C seg) :=
  match seg with
  | ⟨_, .kernel (.send _ _), _, _, _, _⟩ => inferInstanceAs (Decidable (_ → _ → _))
  | ⟨_, .kernel (.kill pid), resumed, before, _, _⟩ =>
      decidable_of_iff (receiving C pid.toInt = none ∧
        (receiving C ((kernelOf before).proctab pid.toInt).prparent ≠ none → i32 pid.toInt = ok →
          resumed = true ∨
          ¬ (Notifies (kernelOf before) pid.toInt ((kernelOf before).proctab pid.toInt).prparent ∧
            Accepts (kernelOf before) ((kernelOf before).proctab pid.toInt).prparent))) <| by
        constructor
        · rintro ⟨hpid, hparent⟩
          refine ⟨hpid, ?_⟩
          rintro parent rfl
          exact hparent
        · exact fun h => ⟨h.1, h.2 _ rfl⟩
  | ⟨_, .kernel .receive, _, _, _, _⟩ | ⟨_, .kernel .recvclr, _, _, _, _⟩
  | ⟨_, .kernel (.recvtime _), _, _, _, _⟩ | ⟨_, .kernel (.create _ _), _, _, _, _⟩
  | ⟨_, .kernel (.resume _), _, _, _, _⟩ | ⟨_, .kernel (.suspend _), _, _, _, _⟩
  | ⟨_, .kernel (.wait _), _, _, _, _⟩ | ⟨_, .kernel (.signal _), _, _, _, _⟩
  | ⟨_, .kernel (.signaln _ _), _, _, _, _⟩ | ⟨_, .kernel (.semcreate _), _, _, _, _⟩
  | ⟨_, .kernel (.semdelete _), _, _, _, _⟩ | ⟨_, .kernel (.semreset _ _), _, _, _, _⟩
  | ⟨_, .kernel (.sleepms _), _, _, _, _⟩ | ⟨_, .kernel .yield, _, _, _, _⟩
  | ⟨_, .kernel (.chprio _ _), _, _, _, _⟩ | ⟨_, .kernel .tick, _, _, _, _⟩
  | ⟨_, .kernel (.ready _), _, _, _, _⟩ | ⟨_, .kernel (.reschedCntl _), _, _, _, _⟩
  | ⟨_, .udpRegister _ _ _, _, _, _, _⟩ => instDecidableTrue
  | ⟨_, .udpIn _ buf, resumed, before, _, _⟩ =>
      inferInstanceAs (Decidable (resumed = false → ∀ i, i < udpSlots →
        (before.udptab i).udstate ≠ .udpFree → buf ∉ contents (before.udptab i)))
  | ⟨_, .udpRecv _ _ _, _, _, _, _⟩ | ⟨_, .udpRecvaddr _ _ _, _, _, _, _⟩ =>
      inferInstanceAs (Decidable (_ ∧ (_ → _)))
  | ⟨_, .udpRelease slot, resumed, before, _, _⟩ =>
      inferInstanceAs (Decidable (resumed = false →
        (∀ p, ¬ isbadpid (kernelOf C.state) p → receiving C p ≠ some slot.toInt) ∧
          MayDefer (kernelOf before)))

/-- Process 1 waits for a packet at endpoint 0 and is sent the message `OK`. -/
def wrongScript : List (Option UdpCall) :=
  [some (.kernel (.create 400 30)), some (.kernel (.resume 1)), some (.udpRegister 0 0 68),
    some (.udpRecv 0 100 1000), none, some (.kernel (.send 1 1)), none]

/-- A receive on endpoint 0 takes a packet from the empty queue. -/
def Underflows (seg : Segment State UdpCall) : Prop :=
  receives seg.call = some 0 ∧ (seg.before.udptab 0).udcount = 0 ∧
    (seg.after.udptab 0).udcount = -1 ∧ (seg.after.udptab 0).udstate = .udpUsed

instance (seg : Segment State UdpCall) : Decidable (Underflows seg) :=
  inferInstanceAs (Decidable (_ ∧ _ ∧ _ ∧ _))

/-- A packet for port 68. -/
def packetFor68 : Netpacket :=
  { Netpacket.zero with udpdport := 68, udplen := 12 }

/-- Process 1 waits for a packet at endpoint 0 and gets one; another is put in the queue. -/
def receiveScript : List (Option UdpCall) :=
  [some (.kernel (.create 400 30)), some (.kernel (.resume 1)), some (.udpRegister 0 0 68),
    some (.udpRecv 0 100 1000), none, some (.udpIn packetFor68 8), none,
    some (.udpIn packetFor68 12)]

end Udp
end Net
end Xinu
