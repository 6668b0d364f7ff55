import Xinu.Net.IcmpSpec
import Xinu.Net.UdpQueues

/-!
# Queues of ICMP endpoints

The queue of an endpoint holds the echo replies that have arrived and have not been
received.  Its tail wraps at the end of the queue, its head does not, and nothing keeps a
full queue from another packet.

Main results:

- Theorem `icmpCall_traced`: what each segment of a call does.
- Theorem `Served.step`: what each segment of a run preserves.
- Theorem `icmp_queues_of_run`: as long as no queue overflows and no head passes its last
  cell, the queues are consistent and the receives return the replies in order.
-/

namespace Xinu
namespace Net
namespace Icmp

open Foundations Function

variable {t t' base : State} {i : Nat} {len : Int}

/-! ## Segments -/

/-- What a suspended call will do: a receive waits on an endpoint, or has taken a packet
and will return `v`; or the call does nothing to the endpoints from now on, or nothing is
known of it. -/
inductive Phase where
  | waiting (i : Nat) (len : Int)
  | ending (i : Nat) (len v : Int)
  | idle
  | lost
deriving DecidableEq

/-- The endpoint of a suspended receive, and the length of its buffer. -/
def Phase.endpoint : Phase → Option (Nat × Int)
  | waiting i len => some (i, len)
  | ending i len _ => some (i, len)
  | _ => none

/-- The endpoint of a receive, and the length of its buffer. -/
def receives : IcmpCall → Option (Int × Int)
  | .icmpRecv icmpid len _ => some (icmpid.toInt, len.toInt)
  | _ => none

/-- The call has ended, or does nothing to the endpoints from now on. -/
def Over (l : Option Phase) : Prop :=
  l = none ∨ l = some .idle

/-- How a segment ends in the rest of a receive that returns `v`. -/
def Ending (i : Nat) (len v : Int) (seg : Segment State IcmpCall) (l' : Option Phase) : Prop :=
  (seg.outcome = .switched ∧ l' = some (.ending i len v) ∧ ¬ Fresh (kernelOf seg.after) seg.who) ∨
    (seg.outcome = .returned v ∧ l' = none)

/-- What a segment does that goes on in a receive which waits on endpoint `i`. -/
inductive GoesOn (i : Nat) (len : Int) (base : State) (seg : Segment State IcmpCall)
    (l' : Option Phase) : Prop where
  | waits (hout : seg.outcome = .switched) (hl : l' = some (.waiting i len))
      (hsaved : ¬ Fresh (kernelOf seg.after) seg.who) (h : Quiet base seg.after)
  | fails (v w : Int) (s : Kernel) (hgets : Gets seg.who v (kernelOf base) s) (hok : i32 v ≠ ok)
      (hcalm : Calm s (kernelOf seg.after)) (hout : seg.outcome = .returned w)
      (hw : w = timeout ∨ w = syserr) (hl : l' = none)
      (h : Rewritten i { base.icmptab i with icstate := .icmpUsed } base seg.after)
  | takes (v : Int) (s : Kernel) (hgets : Gets seg.who v (kernelOf base) s) (hok : i32 v = ok)
      (hcalm : Calm s (kernelOf seg.after)) (h : Taken seg.who i len base seg.after)
      (hend : Ending i len (icmpCopied len (first base i)) seg l')

/-- What a segment of a suspended call does. -/
def Resumes (l : Option Phase) (seg : Segment State IcmpCall) (l' : Option Phase) : Prop :=
  match l with
  | some (.waiting i len) => GoesOn i len seg.before seg l'
  | some (.ending i len v) => Quiet seg.before seg.after ∧ Ending i len v seg l'
  | some .idle => receives seg.call = none ∧ Over l' ∧ Quiet seg.before seg.after
  | _ => True

/-- What the first segment of a receive does. -/
inductive Receives (icmpid len : Int) (seg : Segment State IcmpCall) (l' : Option Phase) :
    Prop where
  | refused (hl : l' = none) (hout : seg.outcome = .returned syserr)
      (h : Quiet seg.before seg.after)
  | takes (i : Nat) (hslot : icmpid = i) (hlt : i < icmpSlots)
      (hused : (seg.before.icmptab i).icstate = .icmpUsed)
      (hcount : (seg.before.icmptab i).iccount ≠ 0)
      (hcalm : Calm (kernelOf seg.before) (kernelOf seg.after))
      (h : Taken seg.who i len seg.before seg.after)
      (hend : Ending i len (icmpCopied len (first seg.before i)) seg l')
  | waits (i : Nat) (base : State) (hslot : icmpid = i) (hlt : i < icmpSlots)
      (hused : (seg.before.icmptab i).icstate = .icmpUsed)
      (hcount : (seg.before.icmptab i).iccount = 0)
      (htook : Took seg.who (kernelOf seg.before) (kernelOf base))
      (h : Rewritten i (icmpWaiting seg.who (seg.before.icmptab i)) seg.before base)
      (hgoes : GoesOn i len base seg l')

/-- What a segment does whose call had the label `l` and gets the label `l'`. -/
def Effect (l : Option Phase) (seg : Segment State IcmpCall) (l' : Option Phase) : Prop :=
  match seg.call with
  | .kernel c => Over l' ∧ KernelEffect c seg
  | .icmpRegister remip =>
      if seg.resumed then Resumes l seg l' else Over l' ∧
        ∃ v, seg.outcome = .returned v ∧ Registered remip v seg.before seg.after
  | .icmpIn pkt buf =>
      if seg.resumed then Resumes l seg l' else
        pkt.ictype ≠ icmpEchoreqst → Over l' ∧ Arrived pkt buf seg.before seg.after
  | .icmpRecv icmpid len _ =>
      if seg.resumed then Resumes l seg l' else Receives icmpid.toInt len.toInt seg l'
  | .icmpRelease icmpid =>
      if seg.resumed then Resumes l seg l' else
        MayDefer (kernelOf seg.before) → Over l' ∧ Released icmpid.toInt seg.before seg.after

theorem kernel_traced (t : State) (c : KCall) :
    icmpMachine.Traced Effect (.kernel c) (icmpMachine.exec (.kernel c) t) none false t := by
  have hobeys := onKernel_obeys (N := icmpMachine) (fun _ => rfl) IcmpCall.kernel c t
  apply Machine.Traced.of_obeys Phase.idle hobeys
  rintro l ⟨who, call, b, t₁, o, t₂⟩ l' rfl h hl
  exact ⟨hl, h⟩

/-- The segments of call `c`, of which the process `me` is. -/
abbrev segment (c : IcmpCall) (me : Int) (b : Bool) (s₀ : State) (o : Outcome) (s : State) :
    Segment State IcmpCall :=
  ⟨me, c, b, s₀, o, s⟩

/-- The rest of a receive that takes a packet from endpoint `i` in state `base`. -/
theorem takes_traced {c : IcmpCall} {me : Int} {x : Flow State Int} {t₁ s₀ : State} {b : Bool}
    {l : Option Phase} (h : Takes me i len base x t₁) (hme : (kernelOf s₀).currpid = me)
    (hfirst : ∀ o s l', Taken me i len base s → Calm (kernelOf base) (kernelOf s) →
      Ending i len (icmpCopied len (first base i)) (segment c me b s₀ o s) l' →
      Effect l (segment c me b s₀ o s) l')
    (hlater : ∀ s₁ o s l' v, Quiet s₁ s → Ending i len v (segment c me true s₁ o s) l' →
      Effect (some (.ending i len v)) (segment c me true s₁ o s) l') :
    icmpMachine.Traced Effect c x l b s₀ := by
  have hcalm : ∀ s, Quiet t₁ s → Calm (kernelOf base) (kernelOf s) := by
    intro s hquiet
    rw [← h.kernel]
    exact hquiet.calm
  apply Machine.Traced.of_stretches (Phase.ending i len (icmpCopied len (first base i))) me
    h.stretches hme
  · rintro s ⟨hsaved, hquiet⟩
    exact hfirst _ s _ (h.taken.quiet hquiet) (hcalm s hquiet) (Or.inl ⟨rfl, rfl, hsaved⟩)
  · rintro v s ⟨rfl, hquiet⟩
    exact hfirst _ s _ (h.taken.quiet hquiet) (hcalm s hquiet) (Or.inr ⟨rfl, rfl⟩)
  · rintro s₁ s - ⟨hsaved, hquiet⟩
    exact hlater s₁ _ s _ _ hquiet (Or.inl ⟨rfl, rfl, hsaved⟩)
  · rintro v s₁ s - ⟨rfl, hquiet⟩
    exact hlater s₁ _ s _ _ hquiet (Or.inr ⟨rfl, rfl⟩)

/-- A receive that has waited, once a message `v` has ended the wait. -/
theorem woken_traced {c : IcmpCall} {me v : Int} {mask b : Bool} {s s₀ : State} {l : Option Phase}
    (hme : (kernelOf s₀).currpid = me) (hcur : (kernelOf s).currpid = me)
    (hgets : Gets me v (kernelOf base) (kernelOf s)) (hs : s = withKernel base (kernelOf s))
    (hfirst : ∀ o s' l', GoesOn i len base (segment c me b s₀ o s') l' →
      Effect l (segment c me b s₀ o s') l')
    (hlater : ∀ s₁ o s l' v, Quiet s₁ s → Ending i len v (segment c me true s₁ o s) l' →
      Effect (some (.ending i len v)) (segment c me true s₁ o s) l') :
    icmpMachine.Traced Effect c (icmpWoken i len mask (i32 v) s) l b s₀ := by
  have hviews : s.icmptab = base.icmptab ∧ s.packets = base.packets ∧ s.vars = base.vars := by
    rw [hs]
    exact ⟨rfl, rfl, rfl⟩
  obtain ⟨htab, hpackets, hvars⟩ := hviews
  have hfirsts : first s i = first base i := by
    unfold first
    rw [htab, hpackets]
  by_cases hok : i32 v = ok
  · rw [hok]
    obtain ⟨t₁, h⟩ := icmpWoken_takes i len mask s
    rw [hcur] at h
    apply takes_traced h hme _ hlater
    intro o s' l' htaken hcalm hend
    apply hfirst
    refine .takes v (kernelOf s) hgets hok hcalm ?_ ?_
    · obtain ⟨htab', hpackets', hvars'⟩ := htaken
      rw [htab] at htab'
      rw [hpackets] at hpackets'
      rw [hvars, hfirsts] at hvars'
      exact ⟨htab', hpackets', hvars'⟩
    · rwa [hfirsts] at hend
  · obtain ⟨w, t', hrun, hw, ⟨htab', hpackets', hvars'⟩, hkernel⟩ := icmpWoken_fails i len mask hok s
    rw [htab] at htab'
    have hgoes : GoesOn i len base (segment c me b s₀ (.returned w) t') none :=
      .fails v w (kernelOf s) hgets hok (by rw [hkernel]; exact refl_of Calm _) rfl hw rfl
        ⟨htab', hpackets'.trans hpackets, hvars'.trans hvars⟩
    have heffect := hfirst _ _ _ hgoes
    rw [← hme] at heffect
    rw [hrun]
    exact heffect

theorem recv_traced {c : IcmpCall} {icmpid : Int} {maxwait : Nat} (t : State)
    (heffect : ∀ l seg l', seg.call = c →
      (if seg.resumed then Resumes l seg l' else Receives icmpid len seg l') → Effect l seg l') :
    icmpMachine.Traced Effect c (Net.icmpRecv icmpid len maxwait t) none false t := by
  have hlater : ∀ i me s₁ o s l' v, Quiet s₁ s → Ending i len v (segment c me true s₁ o s) l' →
      Effect (some (.ending i len v)) (segment c me true s₁ o s) l' :=
    fun i me s₁ o s l' v hquiet hend => heffect _ _ _ rfl ⟨hquiet, hend⟩
  have hbegins := icmpRecv_begins icmpid len maxwait t
  generalize Net.icmpRecv icmpid len maxwait t = x at hbegins
  cases hbegins with
  | refused h => exact heffect _ _ _ rfl (.refused rfl rfl h)
  | takes i hslot hlt hused hcount h =>
      apply takes_traced h rfl _ (hlater i _)
      intro o s l' htaken hcalm hend
      exact heffect _ _ _ rfl (.takes i hslot hlt hused hcount hcalm htaken hend)
  | @waits t₁ i hslot hlt mask hused hcount hcur htook hrewritten =>
      generalize i32 maxwait = delay
      have hstretches := onKernel_stretches (recvtime_gets_current delay hcur)
      have hquiet : ∀ s₁ s : State, Calm (kernelOf s₁) (kernelOf s) →
          s = withKernel s₁ (kernelOf s) → Quiet s₁ s := by
        intro s₁ s hcalm hs
        exact ⟨by rw [hs]; rfl, hcalm⟩
      apply Machine.Traced.after_stretches (Phase.waiting i len) (kernelOf t).currpid hstretches rfl
      · rintro s ⟨⟨hsaved, hcalm⟩, hs⟩
        apply heffect _ _ _ rfl
        exact .waits i t₁ hslot hlt hused hcount htook hrewritten
          (.waits rfl rfl hsaved (hquiet _ _ hcalm hs))
      · rintro v s ⟨⟨hcur', hgets⟩, hs⟩
        apply woken_traced rfl hcur' hgets hs _ (hlater i _)
        intro o s' l' hgoes
        exact heffect _ _ _ rfl (.waits i t₁ hslot hlt hused hcount htook hrewritten hgoes)
      · rintro s₁ s - ⟨⟨hsaved, hcalm⟩, hs⟩
        apply heffect _ _ _ rfl
        exact .waits rfl rfl hsaved (hquiet _ _ hcalm hs)
      · rintro v s₁ s hcur₁ ⟨⟨hcur', hgets⟩, hs⟩
        apply woken_traced hcur₁ hcur' hgets hs _ (hlater i _)
        intro o s' l' hgoes
        exact heffect _ _ _ rfl hgoes

/-- A call that ends as soon as it has changed the endpoints. -/
theorem settled_traced {c : IcmpCall} {x : Flow State Int} {t₁ s₀ : State}
    (hx : x.Within Quiet t₁)
    (hfirst : ∀ s o l', Quiet t₁ s → Over l' →
      Effect none ⟨(kernelOf s₀).currpid, c, false, s₀, o, s⟩ l')
    (hlater : ∀ s₁ s o l', Quiet s₁ s → Over l' →
      Effect (some .idle) ⟨(kernelOf s₁).currpid, c, true, s₁, o, s⟩ l') :
    icmpMachine.Traced Effect c x none false s₀ :=
  Machine.Traced.of_within Phase.idle hx hfirst hlater

theorem icmpCall_traced (t : State) (c : IcmpCall) :
    icmpMachine.Traced Effect c (icmpMachine.exec c t) none false t := by
  cases c with
  | kernel c => exact kernel_traced t c
  | icmpRegister remip =>
      obtain ⟨v, t', hrun, hreg⟩ := icmpRegister_run remip t
      have hexec : icmpMachine.exec (.icmpRegister remip) t = .done v t' := hrun
      rw [hexec]
      exact ⟨Or.inl rfl, v, rfl, hreg⟩
  | icmpIn pkt buf =>
      by_cases hreq : pkt.ictype = icmpEchoreqst
      · apply Machine.Traced.of_within Phase.lost (Flow.Within.trivial t _)
        · exact fun s o l' _ _ hnot => (hnot hreq).elim
        · exact fun s₁ s o l' _ _ => trivial
      · obtain ⟨t₁, harrived, hwithin⟩ := icmpIn_arrives pkt buf t hreq
        apply settled_traced hwithin
        · exact fun s o l' hq hl _ => ⟨hl, harrived.quiet hq⟩
        · exact fun s₁ s o l' hq hl => ⟨rfl, hl, hq⟩
  | icmpRecv icmpid len timeout =>
      apply recv_traced t
      rintro l ⟨who, call, b, s₀, o, s⟩ l' rfl h
      exact h
  | icmpRelease icmpid =>
      by_cases hdefer : MayDefer (kernelOf t)
      · rcases icmpRelease_releases icmpid.toInt t hdefer with ⟨t₁, hreleased, hwithin⟩ | hstuck
        · apply settled_traced hwithin
          · exact fun s o l' hq hl _ => ⟨hl, hreleased.quiet hq⟩
          · exact fun s₁ s o l' hq hl => ⟨rfl, hl, hq⟩
        · have hexec : icmpMachine.exec (.icmpRelease icmpid) t = .stuck := hstuck
          rw [hexec]
          trivial
      · apply Machine.Traced.of_within Phase.lost (Flow.Within.trivial t _)
        · exact fun s o l' _ _ hdefer' => (hdefer hdefer').elim
        · exact fun s₁ s o l' _ _ => trivial

/-! ## Packets and deliveries -/

/-- The receive in which process `p` is suspended. -/
def receiving (C : Config State IcmpCall) (p : Int) : Option (Int × Int) :=
  (C.pending p).bind fun r => receives r.1

/-- The endpoint of the receive in which process `p` is suspended. -/
def receivingOn (C : Config State IcmpCall) (p : Int) : Option Int :=
  (receiving C p).map Prod.fst

/-- The receive that begins or goes on with the segment removes a packet. -/
def Removes (i : Nat) (seg : Segment State IcmpCall) : Prop :=
  if seg.resumed then Udp.Promised seg.before seg.who
  else (seg.before.icmptab i).icstate = .icmpUsed ∧ (seg.before.icmptab i).iccount ≠ 0

/-- There is one receiver for each endpoint: no receive begins and no endpoint is released
while a process is suspended in a receive on it.  The defects are not reached: no packet
arrives at a full queue, no head passes its last cell, and no release does so.  Nobody
but `icmp_in` tells a process that is suspended in a receive of a packet, and no such
process is killed.  What arrives are no echo requests, in buffers that are in no queue; the
processes that receive are in the process table, and there are not too many deferrals. -/
def Orderly (C : Config State IcmpCall) (seg : Segment State IcmpCall) : Prop :=
  match seg.call with
  | .kernel c => Discreet (fun p => receiving C p ≠ none) c seg
  | .icmpRegister _ => True
  | .icmpIn pkt buf =>
      seg.resumed = false → pkt.ictype ≠ icmpEchoreqst ∧
        ∀ i : Nat, i < icmpSlots → (seg.before.icmptab i).icstate ≠ .icmpFree →
          buf ∉ contents (seg.before.icmptab i) ∧
            (IsReplyTo seg.before.icmptab pkt i → (seg.before.icmptab i).iccount < icmpQsiz)
  | .icmpRecv icmpid _ _ =>
      ¬ isbadpid (kernelOf seg.before) seg.who ∧
        (seg.resumed = false →
          ∀ p, ¬ isbadpid (kernelOf C.state) p → receivingOn C p ≠ some icmpid.toInt) ∧
        ∀ i : Nat, icmpid.toInt = i → Removes i seg →
          (seg.before.icmptab i).ichead < icmpQsiz - 1
  | .icmpRelease icmpid =>
      seg.resumed = false →
        (∀ p, ¬ isbadpid (kernelOf C.state) p → receivingOn C p ≠ some icmpid.toInt) ∧
        MayDefer (kernelOf seg.before) ∧
        ∀ i : Nat, icmpid.toInt = i → (seg.before.icmptab i).icstate = .icmpUsed →
          (seg.before.icmptab i).ichead + (seg.before.icmptab i).iccount ≤ icmpQsiz

/-- The echo replies that have arrived at an endpoint since it was registered. -/
def reply (i : Nat) (l : List Netpacket) (seg : Segment State IcmpCall) : List Netpacket :=
  match seg.call with
  | .icmpIn pkt _ =>
      if seg.resumed = false ∧ IsReplyTo seg.before.icmptab pkt i then l ++ [pkt] else l
  | .icmpRegister _ => if seg.resumed = false ∧ seg.outcome = .returned i then [] else l
  | _ => l

def replies (i : Nat) (tr : List (Segment State IcmpCall)) : List Netpacket :=
  tr.foldl (reply i) []

/-- What a receive returns: the length of the buffer that it was given, its value, and
the bytes in the buffer. -/
structure Delivery where
  len : Int
  retval : Int
  data : List UInt8
deriving DecidableEq

/-- The receive has returned the data of the packet. -/
def Delivery.Of (d : Delivery) (pkt : Netpacket) : Prop :=
  d.retval = icmpCopied d.len pkt ∧ d.data = icmpBytes d.len pkt

/-- The delivery of a receive that returns with the segment, unless it has failed. -/
def delivery (len : Int) (seg : Segment State IcmpCall) : List Delivery :=
  match seg.outcome with
  | .returned v =>
      if v = timeout ∨ v = syserr then [] else [⟨len, v, (seg.after.vars seg.who).buff⟩]
  | _ => []

/-- What receives on an endpoint have returned since it was registered. -/
def deliver (i : Nat) (l : List Delivery) (seg : Segment State IcmpCall) : List Delivery :=
  match seg.call with
  | .icmpRecv icmpid len _ => if icmpid.toInt = i then l ++ delivery len.toInt seg else l
  | .icmpRegister _ => if seg.resumed = false ∧ seg.outcome = .returned i then [] else l
  | _ => l

def delivered (i : Nat) (tr : List (Segment State IcmpCall)) : List Delivery :=
  tr.foldl (deliver i) []

/-! ## Endpoints -/

/-- The packets in the queue of an endpoint. -/
def queue (t : State) (i : Nat) : List Netpacket :=
  (contents (t.icmptab i)).map t.packets

/-- Process `p` is in a receive on endpoint `i`. -/
def On (lbl : Int → Option Phase) (i : Nat) (p : Int) : Prop :=
  ∃ γ len, lbl p = some γ ∧ γ.endpoint = some (i, len)

/-- What a process holds that is about to return. -/
structure Account (t : State) (lbl : Int → Option Phase) (i : Nat) (arr : List Netpacket)
    (del held : List Delivery) : Prop where
  ledger : Ledger Delivery.Of arr del held (queue t i)
  holds : ∀ p len v, lbl p = some (.ending i len v) → held = [⟨len, v, (t.vars p).buff⟩]
  nothing : (∀ p len v, lbl p ≠ some (.ending i len v)) → held = []

/-- What holds of endpoint `i`, at which the packets `arr` have arrived, and on which the
receives have returned `del`. -/
structure SlotOk (t : State) (lbl : Int → Option Phase) (arr : List Netpacket)
    (del : List Delivery) (i : Nat) : Prop where
  fits : (t.icmptab i).icstate ≠ .icmpFree → Fits (t.icmptab i)
  used : ∀ p, On lbl i p → (t.icmptab i).icstate ≠ .icmpFree
  sole : ∀ p q, On lbl i p → On lbl i q → p = q
  recv : (t.icmptab i).icstate = .icmpRecv → ∃ len, lbl (t.icmptab i).icpid = some (.waiting i len)
  claim : ∀ p len, lbl p = some (.waiting i len) → Udp.Promised t p → 0 < (t.icmptab i).iccount
  account : (t.icmptab i).icstate ≠ .icmpFree → ∃ held, Account t lbl i arr del held

section Slots

variable {lbl lbl' : Int → Option Phase} {arr : List Netpacket} {del : List Delivery}
variable {who : Int} {e : Icmpentry}

/-- Nothing has changed at the endpoint. -/
theorem SlotOk.frame (h : SlotOk t lbl arr del i) (hentry : t'.icmptab i = t.icmptab i)
    (hqueue : (t.icmptab i).icstate ≠ .icmpFree → queue t' i = queue t i)
    (hlbl : ∀ p γ len, γ.endpoint = some (i, len) → (lbl' p = some γ ↔ lbl p = some γ))
    (hprom : ∀ p len, lbl p = some (.waiting i len) → (Udp.Promised t' p ↔ Udp.Promised t p))
    (hvars : ∀ p len v, lbl p = some (.ending i len v) → t'.vars p = t.vars p) :
    SlotOk t' lbl' arr del i := by
  have hon : ∀ p, On lbl' i p → On lbl i p := by
    rintro p ⟨γ, len, hγ, hend⟩
    exact ⟨γ, len, (hlbl p γ len hend).mp hγ, hend⟩
  have hwaiting : ∀ p len, lbl' p = some (.waiting i len) ↔ lbl p = some (.waiting i len) :=
    fun p len => hlbl p _ len rfl
  have hending : ∀ p len v, lbl' p = some (.ending i len v) ↔ lbl p = some (.ending i len v) :=
    fun p len v => hlbl p _ len rfl
  constructor
  · rw [hentry]
    exact h.fits
  · rw [hentry]
    exact fun p hp => h.used p (hon p hp)
  · exact fun p q hp hq => h.sole p q (hon p hp) (hon q hq)
  · rw [hentry]
    intro hrecv
    obtain ⟨len, hlen⟩ := h.recv hrecv
    exact ⟨len, (hwaiting _ _).mpr hlen⟩
  · rw [hentry]
    intro p len hp hpr
    have hp' := (hwaiting p len).mp hp
    exact h.claim p len hp' ((hprom p len hp').mp hpr)
  · rw [hentry]
    intro hused
    obtain ⟨held, hledger, hholds, hnothing⟩ := h.account hused
    refine ⟨held, by rwa [hqueue hused], ?_, ?_⟩
    · intro p len v hp
      have hp' := (hending p len v).mp hp
      rw [hvars p len v hp']
      exact hholds p len v hp'
    · exact fun hnone => hnothing fun p len v hp => hnone p len v ((hending p len v).mpr hp)

/-- A packet is put in the queue. -/
theorem SlotOk.queued (h : SlotOk t lbl arr del i) {pkt : Netpacket} {buf : Nat}
    (hused : (t.icmptab i).icstate ≠ .icmpFree) (hroom : (t.icmptab i).iccount < icmpQsiz)
    (hbuf : buf ∉ contents (t.icmptab i))
    (hnew : Rewritten i (icmpQueued buf (t.icmptab i)) (filled pkt buf t) t')
    (hlbl : ∀ p γ len, γ.endpoint = some (i, len) → (lbl' p = some γ ↔ lbl p = some γ)) :
    SlotOk t' lbl' (arr ++ [pkt]) del i := by
  have hfits := h.fits hused
  have hnonneg := hfits.count_nonneg
  have hon : ∀ p, On lbl' i p → On lbl i p := by
    rintro p ⟨γ, len, hγ, hend⟩
    exact ⟨γ, len, (hlbl p γ len hend).mp hγ, hend⟩
  have hentry : t'.icmptab i = icmpQueued buf (t.icmptab i) := by
    rw [hnew.icmptab, update_self]
  have hstate : (t'.icmptab i).icstate ≠ .icmpFree ∧ (t'.icmptab i).icstate ≠ .icmpRecv := by
    rw [hentry]
    unfold icmpQueued
    dsimp only
    split
    · exact ⟨nofun, nofun⟩
    · next hrecv => exact ⟨hused, hrecv⟩
  have hpackets : t'.packets = update t.packets buf pkt := hnew.packets
  have hqueue : queue t' i = queue t i ++ [pkt] := by
    have hcontents : contents (t'.icmptab i) = contents (t.icmptab i) ++ [buf] := by
      rw [hentry]
      exact contents_push hfits hroom buf
    have hsame : (contents (t.icmptab i)).map (update t.packets buf pkt) =
        (contents (t.icmptab i)).map t.packets := by
      apply List.map_congr_left
      intro a ha
      rw [update_of_ne]
      rintro rfl
      exact hbuf ha
    unfold queue
    rw [hcontents, hpackets, List.map_append, hsame]
    simp
  constructor
  · intro _
    rw [hentry]
    exact fits_push hfits hroom buf
  · exact fun _ _ => hstate.1
  · exact fun p q hp hq => h.sole p q (hon p hp) (hon q hq)
  · exact fun hrecv => (hstate.2 hrecv).elim
  · intro p len _ _
    rw [hentry]
    show 0 < (t.icmptab i).iccount + 1
    omega
  · intro _
    obtain ⟨held, hledger, hholds, hnothing⟩ := h.account hused
    refine ⟨held, ?_, ?_, ?_⟩
    · rw [hqueue]
      exact hledger.push pkt
    · intro p len v hp
      have hvars : t'.vars = t.vars := hnew.vars
      rw [hvars]
      exact hholds p len v ((hlbl p _ len rfl).mp hp)
    · exact fun hnone => hnothing fun p len v hp => hnone p len v ((hlbl p _ len rfl).mpr hp)

/-- The entry is free, and no process is in a receive on it. -/
theorem SlotOk.closed (hfree : (t.icmptab i).icstate = .icmpFree) (hnone : ∀ p, ¬ On lbl i p) :
    SlotOk t lbl arr del i := by
  constructor
  · exact fun hused => (hused hfree).elim
  · exact fun p hp => (hnone p hp).elim
  · exact fun p q hp _ => (hnone p hp).elim
  · intro hrecv
    rw [hfree] at hrecv
    contradiction
  · exact fun p len hp _ => (hnone p ⟨_, len, hp, rfl⟩).elim
  · exact fun hused => (hused hfree).elim

/-- The entry was just registered. -/
theorem SlotOk.opened {remip : UInt32} (hentry : t.icmptab i = icmpOpened remip e)
    (hnone : ∀ p, ¬ On lbl i p) : SlotOk t lbl [] [] i := by
  have hqueue : queue t i = [] := by
    unfold queue
    rw [hentry, contents_opened]
    rfl
  constructor
  · intro _
    rw [hentry]
    exact fits_opened remip e
  · exact fun p hp => (hnone p hp).elim
  · exact fun p q hp _ => (hnone p hp).elim
  · intro hrecv
    rw [hentry] at hrecv
    contradiction
  · exact fun p len hp _ => (hnone p ⟨_, len, hp, rfl⟩).elim
  · intro _
    refine ⟨[], ?_, ?_, fun _ => rfl⟩
    · rw [hqueue]
      exact Ledger.empty _
    · exact fun p len v hp => (hnone p ⟨_, len, hp, rfl⟩).elim

/-- Only process `who` is in a receive. -/
theorem only_who {p : Int} {γ γ' : Phase} {len' : Int} (hothers : ∀ p, p ≠ who → ¬ On lbl i p)
    (hp : update lbl who (some γ) p = some γ') (hend : γ'.endpoint = some (i, len')) :
    p = who ∧ γ' = γ := by
  by_cases hne : p = who
  · subst hne
    rw [update_self, Option.some_inj] at hp
    exact ⟨rfl, hp.symm⟩
  · rw [update_of_ne hne] at hp
    exact (hothers p hne ⟨γ', len', hp, hend⟩).elim

/-- Process `who` begins to wait. -/
theorem SlotOk.waits (h : SlotOk t lbl arr del i) (hused : (t.icmptab i).icstate ≠ .icmpFree)
    (hvacant : ∀ p, ¬ On lbl i p) (hentry : t'.icmptab i = icmpWaiting who (t.icmptab i))
    (hpackets : t'.packets = t.packets) (hnot : ¬ Udp.Promised t' who) :
    SlotOk t' (update lbl who (some (.waiting i len))) arr del i := by
  have hothers : ∀ p, p ≠ who → ¬ On lbl i p := fun p _ => hvacant p
  have hcontents : contents (t'.icmptab i) = contents (t.icmptab i) := by
    rw [hentry]
    rfl
  have hstate : (t'.icmptab i).icstate = .icmpRecv := by
    rw [hentry]
    rfl
  constructor
  · intro _
    rw [hentry]
    exact h.fits hused
  · intro p _
    rw [hstate]
    nofun
  · rintro p q ⟨γ, len₁, hp, hend⟩ ⟨γ', len₂, hq, hend'⟩
    rw [(only_who hothers hp hend).1, (only_who hothers hq hend').1]
  · intro _
    refine ⟨len, ?_⟩
    rw [hentry]
    exact update_self _ _ _
  · intro p len' hp hpr
    rw [(only_who hothers hp rfl).1] at hpr
    exact (hnot hpr).elim
  · intro _
    obtain ⟨held, hledger, -, hnothing⟩ := h.account hused
    rw [hnothing fun p len' v hp => hvacant p ⟨_, len', hp, rfl⟩] at hledger
    refine ⟨[], ?_, ?_, fun _ => rfl⟩
    · unfold queue
      rw [hcontents, hpackets]
      exact hledger
    · intro p len' v hp
      exact Phase.noConfusion (only_who hothers hp rfl).2

/-- Only process `who` was in a receive, and is so no more. -/
theorem not_on_of_others (hothers : ∀ p, p ≠ who → ¬ On lbl i p) (p : Int) :
    ¬ On (update lbl who none) i p := by
  rintro ⟨γ, len, hp, hend⟩
  by_cases hne : p = who
  · subst hne
    rw [update_self] at hp
    contradiction
  · rw [update_of_ne hne] at hp
    exact hothers p hne ⟨γ, len, hp, hend⟩

/-- Nothing is held before a packet is taken. -/
theorem SlotOk.empty_handed (h : SlotOk t lbl arr del i)
    (hused : (t.icmptab i).icstate ≠ .icmpFree) (hothers : ∀ p, p ≠ who → ¬ On lbl i p)
    (hnot : ∀ len v, lbl who ≠ some (.ending i len v)) :
    Ledger Delivery.Of arr del [] (queue t i) := by
  obtain ⟨held, hledger, -, hnothing⟩ := h.account hused
  rwa [hnothing] at hledger
  intro p len v hp
  by_cases hne : p = who
  · subst hne
    exact hnot len v hp
  · exact hothers p hne ⟨_, len, hp, rfl⟩

/-- A receive fails; the packets stay. -/
theorem SlotOk.fails (h : SlotOk t lbl arr del i) (hused : (t.icmptab i).icstate ≠ .icmpFree)
    (hothers : ∀ p, p ≠ who → ¬ On lbl i p) (hnot : ∀ len v, lbl who ≠ some (.ending i len v))
    (pid : Int) (hentry : t'.icmptab i = { t.icmptab i with icstate := .icmpUsed, icpid := pid })
    (hpackets : t'.packets = t.packets) : SlotOk t' (update lbl who none) arr del i := by
  have hnone := not_on_of_others hothers
  have hcontents : contents (t'.icmptab i) = contents (t.icmptab i) := by
    rw [hentry]
    rfl
  constructor
  · intro _
    rw [hentry]
    exact h.fits hused
  · exact fun p hp => (hnone p hp).elim
  · exact fun p q hp _ => (hnone p hp).elim
  · intro hrecv
    rw [hentry] at hrecv
    contradiction
  · exact fun p len hp _ => (hnone p ⟨_, len, hp, rfl⟩).elim
  · intro _
    refine ⟨[], ?_, ?_, fun _ => rfl⟩
    · unfold queue
      rw [hcontents, hpackets]
      exact h.empty_handed hused hothers hnot
    · exact fun p len v hp => (hnone p ⟨_, len, hp, rfl⟩).elim

variable {seg : Segment State IcmpCall} {l : Option Phase} {v : Int}

/-- What a receive returns that has copied a packet. -/
theorem delivery_of_returned (hout : seg.outcome = .returned v) (hv : 0 ≤ v) :
    delivery len seg = [⟨len, v, (seg.after.vars seg.who).buff⟩] := by
  have hfailed : ¬ (v = timeout ∨ v = syserr) := by
    unfold timeout syserr
    omega
  unfold delivery
  rw [hout]
  exact if_neg hfailed

theorem delivery_of_failed (hout : seg.outcome = .returned v) (hv : v = timeout ∨ v = syserr) :
    delivery len seg = [] := by
  unfold delivery
  rw [hout]
  exact if_pos hv

theorem delivery_of_switched (hout : seg.outcome = .switched) : delivery len seg = [] := by
  unfold delivery
  rw [hout]

/-- The first packet is taken. -/
theorem SlotOk.takes (h : SlotOk seg.before lbl arr del i)
    (hused : (seg.before.icmptab i).icstate ≠ .icmpFree)
    (hpos : 0 < (seg.before.icmptab i).iccount)
    (hhead : (seg.before.icmptab i).ichead < icmpQsiz - 1)
    (hothers : ∀ p, p ≠ seg.who → ¬ On lbl i p)
    (hnot : ∀ len v, lbl seg.who ≠ some (.ending i len v))
    (htaken : Taken seg.who i len seg.before seg.after)
    (hend : Ending i len (icmpCopied len (first seg.before i)) seg l) :
    SlotOk seg.after (update lbl seg.who l) arr (del ++ delivery len seg) i := by
  have hentry : seg.after.icmptab i =
      { icmpPop (seg.before.icmptab i) with icstate := .icmpUsed } := by
    rw [htaken.icmptab, update_self]
  have hstate : (seg.after.icmptab i).icstate = .icmpUsed := by rw [hentry]
  have hqueue : queue seg.before i = first seg.before i :: queue seg.after i := by
    have hcontents : contents (seg.after.icmptab i) =
        contents (icmpPop (seg.before.icmptab i)) := by
      rw [hentry]
      rfl
    unfold queue first
    rw [contents_pop hpos hhead, hcontents, htaken.packets]
    rfl
  have hbuff : (seg.after.vars seg.who).buff = icmpBytes len (first seg.before i) := by
    rw [htaken.vars, update_self]
  have hof : Delivery.Of
      ⟨len, icmpCopied len (first seg.before i), (seg.after.vars seg.who).buff⟩
      (first seg.before i) := ⟨rfl, hbuff⟩
  have hledger := h.empty_handed hused hothers hnot
  rw [hqueue] at hledger
  have htook := hledger.take hof
  have hfits : Fits (seg.after.icmptab i) := by
    rw [hentry]
    exact fits_pop (h.fits hused) hpos hhead
  have hrecv : (seg.after.icmptab i).icstate ≠ .icmpRecv := by
    rw [hstate]
    nofun
  rcases hend with ⟨hout, rfl, -⟩ | ⟨hout, rfl⟩
  · constructor
    · exact fun _ => hfits
    · intro p _
      rw [hstate]
      nofun
    · rintro p q ⟨γ, len₁, hp, hend⟩ ⟨γ', len₂, hq, hend'⟩
      rw [(only_who hothers hp hend).1, (only_who hothers hq hend').1]
    · exact fun hst => (hrecv hst).elim
    · intro p len' hp _
      exact Phase.noConfusion (only_who hothers hp rfl).2
    · intro _
      refine ⟨[⟨len, icmpCopied len (first seg.before i), (seg.after.vars seg.who).buff⟩], ?_, ?_, ?_⟩
      · rw [delivery_of_switched hout, List.append_nil]
        exact htook
      · intro p len' v hp
        obtain ⟨rfl, heq⟩ := only_who hothers hp rfl
        obtain ⟨rfl, rfl⟩ : len' = len ∧ v = icmpCopied len (first seg.before i) := by
          simpa using heq
        rfl
      · exact fun hnone => (hnone seg.who _ _ (update_self _ _ _)).elim
  · have hnone := not_on_of_others hothers
    constructor
    · exact fun _ => hfits
    · exact fun p hp => (hnone p hp).elim
    · exact fun p q hp _ => (hnone p hp).elim
    · exact fun hst => (hrecv hst).elim
    · exact fun p len hp _ => (hnone p ⟨_, len, hp, rfl⟩).elim
    · intro _
      refine ⟨[], ?_, ?_, fun _ => rfl⟩
      · rw [delivery_of_returned hout (by omega)]
        exact htook.deliver
      · exact fun p len v hp => (hnone p ⟨_, len, hp, rfl⟩).elim

/-- A receive goes on that has taken a packet. -/
theorem SlotOk.ends (h : SlotOk seg.before lbl arr del i)
    (hwho : lbl seg.who = some (.ending i len v)) (hquiet : Quiet seg.before seg.after)
    (hend : Ending i len v seg l) :
    SlotOk seg.after (update lbl seg.who l) arr (del ++ delivery len seg) i := by
  have hqueue : queue seg.after i = queue seg.before i := by
    unfold queue
    rw [hquiet.icmptab, hquiet.packets]
  rcases hend with ⟨hout, rfl, -⟩ | ⟨hout, rfl⟩
  · rw [delivery_of_switched hout, List.append_nil, ← hwho, update_eq_self]
    apply h.frame (congrFun hquiet.icmptab i) fun _ => hqueue
    · exact fun _ _ _ _ => Iff.rfl
    · exact fun p len _ => Udp.promised_congr (mailbox_congr (congrFun hquiet.calm.mail p))
    · exact fun p len v _ => congrFun hquiet.vars p
  · have hon : On lbl i seg.who := ⟨_, len, hwho, rfl⟩
    have hused := h.used seg.who hon
    have hnone := @not_on_of_others i lbl seg.who fun p hne hp => hne (h.sole p seg.who hp hon)
    obtain ⟨held, hledger, hholds, -⟩ := h.account hused
    rw [hholds seg.who len v hwho] at hledger
    obtain ⟨pkt, hof⟩ := hledger.held_of_mem List.mem_cons_self
    have hv : v = icmpCopied len pkt := hof.1
    have hpos : 0 ≤ v := by
      rw [hv]
      omega
    have hused' : (seg.after.icmptab i).icstate ≠ .icmpFree := by rwa [hquiet.icmptab]
    constructor
    · rw [hquiet.icmptab]
      exact h.fits
    · exact fun p hp => (hnone p hp).elim
    · exact fun p q hp _ => (hnone p hp).elim
    · intro hrecv
      rw [hquiet.icmptab] at hrecv
      obtain ⟨len', hlbl⟩ := h.recv hrecv
      have heq := h.sole _ _ ⟨_, len', hlbl, rfl⟩ hon
      rw [heq, hwho, Option.some_inj] at hlbl
      contradiction
    · exact fun p len hp _ => (hnone p ⟨_, len, hp, rfl⟩).elim
    · intro _
      refine ⟨[], ?_, ?_, fun _ => rfl⟩
      · rw [delivery_of_returned hout hpos, hqueue, hquiet.vars]
        exact hledger.deliver
      · exact fun p len v hp => (hnone p ⟨_, len, hp, rfl⟩).elim

end Slots

/-! ## Runs -/

/-- The invariant of orderly runs. -/
structure Served (tr : List (Segment State IcmpCall)) (C : Config State IcmpCall)
    (lbl : Int → Option Phase) : Prop where
  known : ∀ p, lbl p ≠ some .lost
  slots : ∀ i : Nat, i < icmpSlots → SlotOk C.state lbl (replies i tr) (delivered i tr) i
  waits : ∀ p γ i len, lbl p = some γ → γ.endpoint = some (i, len) → (i : Int) < icmpSlots ∧
    ¬ isbadpid (kernelOf C.state) p ∧ ¬ Fresh (kernelOf C.state) p ∧
    receiving C p = some ((i : Int), len)

section Steps

variable {tr : List (Segment State IcmpCall)} {C C' : Config State IcmpCall}
variable {lbl : Int → Option Phase} {seg : Segment State IcmpCall} {l : Option Phase}

/-- One segment more: what is to be shown of the endpoints and of the processes. -/
theorem Served.snoc (h : Served tr C lbl) (hstep : icmpMachine.Step C seg C')
    (hl : l ≠ some .lost)
    (hslots : ∀ i : Nat, i < icmpSlots → SlotOk seg.after (update lbl seg.who l)
      (reply i (replies i tr) seg) (deliver i (delivered i tr) seg) i)
    (hothers : ∀ q γ i len, q ≠ seg.who → lbl q = some γ → γ.endpoint = some (i, len) →
      Outlives q (kernelOf seg.before) (kernelOf seg.after))
    (hwho : ∀ γ i len, l = some γ → γ.endpoint = some (i, len) → (i : Int) < icmpSlots ∧
      ¬ isbadpid (kernelOf seg.after) seg.who ∧ ¬ Fresh (kernelOf seg.after) seg.who ∧
      receives seg.call = some ((i : Int), len) ∧ seg.outcome = .switched) :
    Served (tr ++ [seg]) C' (icmpMachine.keep seg.after (update lbl seg.who l)) := by
  obtain ⟨hbefore, hafter, -⟩ := hstep.segment
  have hsaved : ∀ p γ i len, update lbl seg.who l p = some γ → γ.endpoint = some (i, len) →
      ¬ Fresh (kernelOf seg.after) p := by
    intro p γ i len hlbl hend
    by_cases hp : p = seg.who
    · subst hp
      rw [update_self] at hlbl
      exact (hwho γ i len hlbl hend).2.2.1
    · rw [update_of_ne hp] at hlbl
      obtain ⟨-, halive, hfresh, -⟩ := h.waits p γ i len hlbl hend
      rw [← hbefore] at halive hfresh
      exact (hothers p γ i len hp hlbl hend).saved (fun hfree => halive (Or.inr (Or.inr hfree)))
        hfresh
  have hkept : ∀ p, icmpMachine.keep seg.after (update lbl seg.who l) p = none ∨
      icmpMachine.keep seg.after (update lbl seg.who l) p = update lbl seg.who l p := by
    intro p
    unfold Machine.keep
    split
    · exact Or.inl rfl
    · exact Or.inr rfl
  have hlabel : ∀ p γ i len, γ.endpoint = some (i, len) →
      (icmpMachine.keep seg.after (update lbl seg.who l) p = some γ ↔
        update lbl seg.who l p = some γ) := by
    intro p γ i len hend
    constructor
    · intro hlbl
      rcases hkept p with hnone | hsome
      · rw [hnone] at hlbl
        contradiction
      · rwa [hsome] at hlbl
    · intro hlbl
      have hnot : icmpMachine.fresh seg.after p = false :=
        decide_eq_false (hsaved p γ i len hlbl hend)
      unfold Machine.keep
      rw [hnot]
      exact hlbl
  constructor
  · intro p hlost
    rcases hkept p with hnone | hsome
    · rw [hnone] at hlost
      contradiction
    · rw [hsome] at hlost
      by_cases hp : p = seg.who
      · subst hp
        rw [update_self] at hlost
        exact hl hlost
      · rw [update_of_ne hp] at hlost
        exact h.known p hlost
  · intro i hi
    have hreplies : replies i (tr ++ [seg]) = reply i (replies i tr) seg := by
      unfold replies
      rw [List.foldl_append]
      rfl
    have hdelivered : delivered i (tr ++ [seg]) = deliver i (delivered i tr) seg := by
      unfold delivered
      rw [List.foldl_append]
      rfl
    rw [← hafter, hreplies, hdelivered]
    exact (hslots i hi).frame rfl (fun _ => rfl) (fun p γ len => hlabel p γ i len)
      (fun _ _ _ => Iff.rfl) fun _ _ _ _ => rfl
  · intro p γ i len hlbl hend
    have hlbl' := (hlabel p γ i len hend).mp hlbl
    have hfresh := hsaved p γ i len hlbl' hend
    have hnot : icmpMachine.fresh seg.after p = false := decide_eq_false hfresh
    rw [← hafter]
    by_cases hp : p = seg.who
    · subst hp
      rw [update_self] at hlbl'
      obtain ⟨hi, halive, -, hcall, hout⟩ := hwho γ i len hlbl' hend
      obtain ⟨k, hk⟩ := hstep.suspends hout hnot
      refine ⟨hi, halive, hfresh, ?_⟩
      unfold receiving
      rw [hk]
      exact hcall
    · rw [update_of_ne hp] at hlbl'
      obtain ⟨hi, halive, -, hrec⟩ := h.waits p γ i len hlbl' hend
      rw [← hbefore] at halive
      refine ⟨hi, fun hbad => halive ((hothers p γ i len hp hlbl' hend).isbadpid hbad), hfresh, ?_⟩
      unfold receiving
      rw [hstep.keeps_pending hp hnot]
      exact hrec

/-- The process of a segment that is in a receive goes on with it. -/
theorem Served.resumes {γ : Phase} (h : Served tr C lbl) (hstep : icmpMachine.Step C seg C')
    (hlbl : lbl seg.who = some γ) (hend : γ.endpoint = some (i, len)) :
    receives seg.call = some ((i : Int), len) ∧ seg.resumed = true := by
  obtain ⟨-, -, -, hrec⟩ := h.waits _ _ _ _ hlbl hend
  unfold receiving at hrec
  cases hres : seg.resumed with
  | false =>
      rw [hstep.started hres] at hrec
      contradiction
  | true =>
      obtain ⟨k, hk⟩ := hstep.resumed hres
      rw [hk] at hrec
      exact ⟨hrec, rfl⟩

/-- A label that names no receive on endpoint `i`. -/
def Away (l : Option Phase) (i : Nat) : Prop :=
  ∀ γ len, l = some γ → γ.endpoint ≠ some (i, len)

theorem Over.away (h : Over l) (i : Nat) : Away l i := by
  rintro γ len hγ
  rcases h with rfl | rfl
  · contradiction
  · obtain rfl := Option.some_inj.mp hγ
    nofun

theorem Over.ne_lost (h : Over l) : l ≠ some .lost := by
  rcases h with rfl | rfl <;> simp

/-- Only the label of one process has changed, which is not in a receive on the endpoint. -/
theorem update_iff {who : Int} (hl : Away l i) (hwho : Away (lbl who) i) (p : Int) (γ : Phase)
    (len : Int) (hend : γ.endpoint = some (i, len)) :
    update lbl who l p = some γ ↔ lbl p = some γ := by
  by_cases hp : p = who
  · subst hp
    rw [update_self]
    exact ⟨fun h => (hl γ len h hend).elim, fun h => (hwho γ len h hend).elim⟩
  · rw [update_of_ne hp]

/-- An endpoint of which the segment leaves everything as it is. -/
theorem Served.spared (h : Served tr C lbl) (hstep : icmpMachine.Step C seg C')
    (hi : (i : Int) < icmpSlots) (hl : Away l i) (hwho : Away (lbl seg.who) i)
    (hentry : seg.after.icmptab i = seg.before.icmptab i)
    (hqueue : (seg.before.icmptab i).icstate ≠ .icmpFree → queue seg.after i = queue seg.before i)
    (hprom : ∀ q len, q ≠ seg.who → lbl q = some (.waiting i len) →
      (Udp.Promised seg.after q ↔ Udp.Promised seg.before q))
    (hvars : ∀ q, q ≠ seg.who → seg.after.vars q = seg.before.vars q)
    (hreply : reply i (replies i tr) seg = replies i tr)
    (hdeliver : deliver i (delivered i tr) seg = delivered i tr) :
    SlotOk seg.after (update lbl seg.who l) (reply i (replies i tr) seg)
      (deliver i (delivered i tr) seg) i := by
  obtain ⟨hbefore, -, -⟩ := hstep.segment
  have hslot := h.slots i hi
  rw [← hbefore] at hslot
  rw [hreply, hdeliver]
  apply hslot.frame hentry hqueue (update_iff hl hwho)
  · intro p len hlbl
    have hne : p ≠ seg.who := by
      rintro rfl
      exact hwho _ len hlbl rfl
    exact hprom p len hne hlbl
  · intro p len v hlbl
    have hne : p ≠ seg.who := by
      rintro rfl
      exact hwho _ len hlbl rfl
    exact hvars p hne

/-- A segment of a process that is in no receive, which leaves the endpoints alone. -/
theorem Served.still (h : Served tr C lbl) (hstep : icmpMachine.Step C seg C') (hl : Over l)
    (hwho : ∀ i, Away (lbl seg.who) i) (htab : seg.after.icmptab = seg.before.icmptab)
    (hqueue : ∀ i : Nat, i < icmpSlots → (seg.before.icmptab i).icstate ≠ .icmpFree →
      queue seg.after i = queue seg.before i)
    (hvars : seg.after.vars = seg.before.vars) (hreply : ∀ i arr, reply i arr seg = arr)
    (hdeliver : ∀ i del, deliver i del seg = del)
    (hothers : ∀ q γ i len, q ≠ seg.who → lbl q = some γ → γ.endpoint = some (i, len) →
      Outlives q (kernelOf seg.before) (kernelOf seg.after) ∧
        (Udp.Promised seg.after q ↔ Udp.Promised seg.before q)) :
    Served (tr ++ [seg]) C' (icmpMachine.keep seg.after (update lbl seg.who l)) := by
  apply h.snoc hstep hl.ne_lost
  · intro i hi
    apply h.spared hstep hi (hl.away i) (hwho i) (congrFun htab i) (hqueue i hi)
    · exact fun q len hq hlbl => (hothers q _ i len hq hlbl rfl).2
    · exact fun q _ => congrFun hvars q
    · exact hreply i _
    · exact hdeliver i _
  · exact fun q γ i len hq hlbl hend => (hothers q γ i len hq hlbl hend).1
  · exact fun γ i len hγ hend => (hl.away i γ len hγ hend).elim

/-- A segment that changes one endpoint. -/
theorem Served.turned (h : Served tr C lbl) (hstep : icmpMachine.Step C seg C')
    (hlost : l ≠ some .lost) (hl : ∀ j, j ≠ i → Away l j)
    (hwho : ∀ j, j ≠ i → Away (lbl seg.who) j)
    (htab : ∀ j, j ≠ i → seg.after.icmptab j = seg.before.icmptab j)
    (hqueue : ∀ j : Nat, j < icmpSlots → j ≠ i → (seg.before.icmptab j).icstate ≠ .icmpFree →
      queue seg.after j = queue seg.before j)
    (hvars : ∀ q, q ≠ seg.who → seg.after.vars q = seg.before.vars q)
    (hreply : ∀ j arr, j ≠ i → reply j arr seg = arr)
    (hdeliver : ∀ j del, j ≠ i → deliver j del seg = del)
    (hothers : ∀ q γ j len, q ≠ seg.who → lbl q = some γ → γ.endpoint = some (j, len) →
      Outlives q (kernelOf seg.before) (kernelOf seg.after) ∧
        (j ≠ i → (Udp.Promised seg.after q ↔ Udp.Promised seg.before q)))
    (hslot : SlotOk seg.after (update lbl seg.who l) (reply i (replies i tr) seg)
      (deliver i (delivered i tr) seg) i)
    (hin : ∀ γ j len, l = some γ → γ.endpoint = some (j, len) → (j : Int) < icmpSlots ∧
      ¬ isbadpid (kernelOf seg.after) seg.who ∧ ¬ Fresh (kernelOf seg.after) seg.who ∧
      receives seg.call = some ((j : Int), len) ∧ seg.outcome = .switched) :
    Served (tr ++ [seg]) C' (icmpMachine.keep seg.after (update lbl seg.who l)) := by
  apply h.snoc hstep hlost
  · intro j hj
    by_cases hji : j = i
    · rw [hji]
      exact hslot
    · apply h.spared hstep hj (hl j hji) (hwho j hji) (htab j hji) (hqueue j hj hji)
      · exact fun q len hq hlbl => (hothers q _ j len hq hlbl rfl).2 hji
      · exact hvars
      · exact hreply j _ hji
      · exact hdeliver j _ hji
  · exact fun q γ j len hq hlbl hend => (hothers q γ j len hq hlbl hend).1
  · exact hin

/-- A process whose call is no receive that goes on is in no receive. -/
theorem Served.away (h : Served tr C lbl) (hstep : icmpMachine.Step C seg C')
    (hcall : receives seg.call = none ∨ seg.resumed = false) (i : Nat) : Away (lbl seg.who) i := by
  intro γ len hlbl hend
  obtain ⟨hrec, hres⟩ := h.resumes hstep hlbl hend
  rcases hcall with hnone | hfirst
  · rw [hrec] at hnone
    contradiction
  · rw [hres] at hfirst
    contradiction

/-- A segment that leaves everything but the kernel alone. -/
theorem Served.quiet (h : Served tr C lbl) (hstep : icmpMachine.Step C seg C') (hl : Over l)
    (hwho : ∀ i, Away (lbl seg.who) i) (hquiet : Quiet seg.before seg.after)
    (hreply : ∀ i arr, reply i arr seg = arr) (hdeliver : ∀ i del, deliver i del seg = del) :
    Served (tr ++ [seg]) C' (icmpMachine.keep seg.after (update lbl seg.who l)) := by
  apply h.still hstep hl hwho hquiet.icmptab _ hquiet.vars hreply hdeliver
  · intro q γ i len _ _ _
    exact ⟨hquiet.calm.outlives q,
      Udp.promised_congr (mailbox_congr (congrFun hquiet.calm.mail q))⟩
  · intro i _ _
    unfold queue
    rw [hquiet.icmptab, hquiet.packets]

theorem Served.kernelCall {c : KCall} (h : Served tr C lbl) (hstep : icmpMachine.Step C seg C')
    (hrule : Orderly C seg) (hcall : seg.call = .kernel c) (hl : Over l)
    (heffect : KernelEffect c seg) :
    Served (tr ++ [seg]) C' (icmpMachine.keep seg.after (update lbl seg.who l)) := by
  obtain ⟨hbefore, -, -⟩ := hstep.segment
  obtain ⟨s, hafter⟩ := heffect.after
  have hdiscreet : Discreet (fun p => receiving C p ≠ none) c seg := by
    unfold Orderly at hrule
    rwa [hcall] at hrule
  have hnone : receives seg.call = none := by
    rw [hcall]
    rfl
  apply h.still hstep hl (h.away hstep (Or.inl hnone))
  · rw [hafter]
    rfl
  · intro i _ _
    rw [hafter]
    rfl
  · rw [hafter]
    rfl
  · intro i arr
    unfold reply
    rw [hcall]
  · intro i del
    unfold deliver
    rw [hcall]
  · intro q γ i len hne hlbl hend
    obtain ⟨-, halive, -, hrec⟩ := h.waits q γ i len hlbl hend
    rw [← hbefore] at halive
    have hwaits : receiving C q ≠ none := by
      rw [hrec]
      simp
    exact ⟨heffect.outlives q (hdiscreet.spares hwaits),
      Udp.promised_kernel heffect hne (fun hfree => halive (Or.inr (Or.inr hfree)))
        fun m => hdiscreet.passed hwaits⟩

theorem Served.register {remip : UInt32} (h : Served tr C lbl)
    (hstep : icmpMachine.Step C seg C') (hcall : seg.call = .icmpRegister remip)
    (hres : seg.resumed = false) (hl : Over l) {v : Int} (hout : seg.outcome = .returned v)
    (hR : Registered remip v seg.before seg.after) :
    Served (tr ++ [seg]) C' (icmpMachine.keep seg.after (update lbl seg.who l)) := by
  obtain ⟨hbefore, -, -⟩ := hstep.segment
  have hwho := h.away hstep (Or.inr hres)
  have hreply : ∀ (j : Nat) arr, v ≠ j → reply j arr seg = arr := by
    intro j arr hne
    unfold reply
    rw [hcall]
    refine if_neg fun hcond => hne ?_
    simpa [hout] using hcond.2
  have hdeliver : ∀ (j : Nat) del, v ≠ j → deliver j del seg = del := by
    intro j del hne
    unfold deliver
    rw [hcall]
    refine if_neg fun hcond => hne ?_
    simpa [hout] using hcond.2
  cases hR with
  | refused hv hquiet =>
      have hne : ∀ j : Nat, v ≠ j := by
        intro j
        rw [hv]
        unfold syserr
        omega
      exact h.quiet hstep hl hwho hquiet (fun j arr => hreply j arr (hne j))
        fun j del => hdeliver j del (hne j)
  | opened i hlt hv hfree hnew hcalm =>
      have hne : ∀ j : Nat, j ≠ i → v ≠ j := by
        intro j hj
        omega
      have hslot := h.slots i hlt
      rw [← hbefore] at hslot
      apply h.turned hstep hl.ne_lost (fun j _ => hl.away j) (fun j _ => hwho j) (i := i)
      · intro j hj
        rw [hnew.icmptab, update_of_ne hj]
      · intro j _ hj _
        unfold queue
        rw [hnew.icmptab, update_of_ne hj, hnew.packets]
      · exact fun q _ => congrFun hnew.vars q
      · exact fun j arr hj => hreply j arr (hne j hj)
      · exact fun j del hj => hdeliver j del (hne j hj)
      · intro q γ j len _ _ _
        exact ⟨hcalm.outlives q,
          fun _ => Udp.promised_congr (mailbox_congr (congrFun hcalm.mail q))⟩
      · have hreply' : reply i (replies i tr) seg = [] := by
          unfold reply
          rw [hcall]
          exact if_pos ⟨hres, by rw [hout, hv]⟩
        have hdeliver' : deliver i (delivered i tr) seg = [] := by
          unfold deliver
          rw [hcall]
          exact if_pos ⟨hres, by rw [hout, hv]⟩
        rw [hreply', hdeliver']
        refine SlotOk.opened (by rw [hnew.icmptab, update_self]) ?_
        rintro p ⟨γ, len, hp, hend⟩
        have hp' := (update_iff (hl.away i) (hwho i) p γ len hend).mp hp
        exact hslot.used p ⟨γ, len, hp', hend⟩ hfree
      · exact fun γ j len hγ hend => (hl.away j γ len hγ hend).elim

theorem Served.packet {pkt : Netpacket} {buf : Nat} (h : Served tr C lbl)
    (hstep : icmpMachine.Step C seg C') (hrule : Orderly C seg)
    (hcall : seg.call = .icmpIn pkt buf) (hres : seg.resumed = false) (hl : Over l)
    (hR : Arrived pkt buf seg.before seg.after) :
    Served (tr ++ [seg]) C' (icmpMachine.keep seg.after (update lbl seg.who l)) := by
  obtain ⟨hbefore, -, -⟩ := hstep.segment
  have hwho := h.away hstep (Or.inr hres)
  have hroom : ∀ i : Nat, i < icmpSlots → (seg.before.icmptab i).icstate ≠ .icmpFree →
      buf ∉ contents (seg.before.icmptab i) ∧
        (IsReplyTo seg.before.icmptab pkt i → (seg.before.icmptab i).iccount < icmpQsiz) := by
    unfold Orderly at hrule
    rw [hcall] at hrule
    exact (hrule hres).2
  have hother : ∀ j, (∀ i, i = j → ¬ IsReplyTo seg.before.icmptab pkt i) →
      ∀ arr, reply j arr seg = arr := by
    intro j hne arr
    unfold reply
    rw [hcall]
    exact if_neg fun hcond => hne j rfl hcond.2
  have hdeliver : ∀ j del, deliver j del seg = del := by
    intro j del
    unfold deliver
    rw [hcall]
  have hqueue : ∀ j : Nat, j < icmpSlots → seg.after.icmptab j = seg.before.icmptab j →
      seg.after.packets = update seg.before.packets buf pkt →
      (seg.before.icmptab j).icstate ≠ .icmpFree → queue seg.after j = queue seg.before j := by
    intro j hj hentry hpackets hused
    unfold queue
    rw [hentry, hpackets]
    apply List.map_congr_left
    intro a ha
    rw [update_of_ne]
    rintro rfl
    exact (hroom j hj hused).1 ha
  cases hR with
  | discarded hnone hquiet =>
      apply h.still hstep hl hwho hquiet.icmptab
      · exact fun j hj => hqueue j hj (congrFun hquiet.icmptab j) hquiet.packets
      · exact hquiet.vars
      · exact fun j => hother j fun i _ => hnone i
      · exact hdeliver
      · intro q γ i len _ _ _
        exact ⟨hquiet.calm.outlives q,
          Udp.promised_congr (mailbox_congr (congrFun hquiet.calm.mail q))⟩
  | queued i hreply hnew hcalm =>
      have hlt := hreply.2.2.1
      have hused := hreply.2.2.2.1
      have hentry : ∀ j, j ≠ i → seg.after.icmptab j = seg.before.icmptab j := by
        intro j hj
        rw [hnew.icmptab, update_of_ne hj]
        rfl
      have hslot := h.slots i hlt
      rw [← hbefore] at hslot
      apply h.turned hstep hl.ne_lost (fun j _ => hl.away j) (fun j _ => hwho j) hentry (i := i)
      · exact fun j hj hji => hqueue j hj (hentry j hji) hnew.packets
      · exact fun q _ => congrFun hnew.vars q
      · intro j arr hj
        exact hother j (fun k hk hreply' => hj (hk ▸ hreply'.slot_eq hreply)) arr
      · exact fun j del _ => hdeliver j del
      · intro q γ j len _ hlbl hend
        have hmail := mailbox_congr (congrFun hcalm.mail q)
        constructor
        · refine trans_of (Outlives q) ?_ (hcalm.outlives q)
          split
          · exact sent_outlives _ _ _ q
          · exact refl_of (Outlives q) _
        · -- the process that is told waits on endpoint `i`
          intro hji
          apply Udp.promised_congr
          rw [hmail]
          split
          · next hrecv =>
              rw [mailbox_sent, if_neg]
              rintro ⟨-, rfl⟩
              obtain ⟨len', hpid⟩ := hslot.recv hrecv
              rw [hlbl, Option.some_inj] at hpid
              rw [hpid] at hend
              exact hji (congrArg Prod.fst (Option.some_inj.mp hend)).symm
          · rfl
      · have hreplied : reply i (replies i tr) seg = replies i tr ++ [pkt] := by
          unfold reply
          rw [hcall]
          exact if_pos ⟨hres, hreply⟩
        rw [hreplied, hdeliver]
        obtain ⟨hbuf, hfull⟩ := hroom i hlt hused
        exact hslot.queued hused (hfull hreply) hbuf hnew (update_iff (hl.away i) (hwho i))
      · exact fun γ j len hγ hend => (hl.away j γ len hγ hend).elim

theorem Served.release {icmpid : Int32} (h : Served tr C lbl)
    (hstep : icmpMachine.Step C seg C') (hrule : Orderly C seg)
    (hcall : seg.call = .icmpRelease icmpid) (hres : seg.resumed = false) (hl : Over l)
    (hR : Released icmpid.toInt seg.before seg.after) :
    Served (tr ++ [seg]) C' (icmpMachine.keep seg.after (update lbl seg.who l)) := by
  have hwho := h.away hstep (Or.inr hres)
  have hreply : ∀ i arr, reply i arr seg = arr := by
    intro i arr
    unfold reply
    rw [hcall]
  have hdeliver : ∀ i del, deliver i del seg = del := by
    intro i del
    unfold deliver
    rw [hcall]
  cases hR with
  | refused hquiet => exact h.quiet hstep hl hwho hquiet hreply hdeliver
  | closed i hslot hlt hused e hfree hnew hcalm =>
      apply h.turned hstep hl.ne_lost (fun j _ => hl.away j) (fun j _ => hwho j) (i := i)
      · intro j hj
        rw [hnew.icmptab, update_of_ne hj]
      · intro j _ hj _
        unfold queue
        rw [hnew.icmptab, update_of_ne hj, hnew.packets]
      · exact fun q _ => congrFun hnew.vars q
      · exact fun j arr _ => hreply j arr
      · exact fun j del _ => hdeliver j del
      · intro q γ j len _ _ _
        exact ⟨hcalm.outlives q,
          fun _ => Udp.promised_congr (mailbox_congr (congrFun hcalm.mail q))⟩
      · refine SlotOk.closed (by rw [hnew.icmptab, update_self, hfree]) ?_
        rintro p ⟨γ, len, hp, hend⟩
        have hp' := (update_iff (hl.away i) (hwho i) p γ len hend).mp hp
        obtain ⟨-, halive, -, hrec⟩ := h.waits p γ i len hp' hend
        unfold Orderly at hrule
        rw [hcall] at hrule
        apply (hrule hres).1 p halive
        unfold receivingOn
        rw [hrec, hslot]
        rfl
      · exact fun γ j len hγ hend => (hl.away j γ len hγ hend).elim

/-! ### Receives -/

/-- Nothing arrives with a segment of a receive. -/
theorem reply_of_receives {r : Int × Int} (hrec : receives seg.call = some r) (j : Nat)
    (arr : List Netpacket) : reply j arr seg = arr := by
  unfold reply
  cases hcall : seg.call with
  | icmpIn pkt buf =>
      rw [hcall] at hrec
      contradiction
  | icmpRegister remip =>
      rw [hcall] at hrec
      contradiction
  | _ => rfl

theorem deliver_of_receives {slot : Int} (hrec : receives seg.call = some (slot, len)) (j : Nat)
    (del : List Delivery) :
    deliver j del seg = if slot = j then del ++ delivery len seg else del := by
  unfold deliver
  cases hcall : seg.call with
  | icmpRecv icmpid len' timeout =>
      rw [hcall] at hrec
      obtain ⟨rfl, rfl⟩ : icmpid.toInt = slot ∧ len'.toInt = len := by
        simpa [receives] using hrec
      rfl
  | _ =>
      rw [hcall] at hrec
      contradiction

/-- A segment of a receive on endpoint `i`. -/
theorem Served.received (h : Served tr C lbl) (hstep : icmpMachine.Step C seg C')
    (hi : (i : Int) < icmpSlots) (hrec : receives seg.call = some ((i : Int), len))
    (halive : ¬ isbadpid (kernelOf seg.before) seg.who)
    (hwho : ∀ j, j ≠ i → Away (lbl seg.who) j)
    (hl : l = none ∨ (∃ γ, l = some γ ∧ γ.endpoint = some (i, len)) ∧ seg.outcome = .switched ∧
      ¬ Fresh (kernelOf seg.after) seg.who)
    (htab : ∀ j, j ≠ i → seg.after.icmptab j = seg.before.icmptab j)
    (hpackets : seg.after.packets = seg.before.packets)
    (hvars : ∀ q, q ≠ seg.who → seg.after.vars q = seg.before.vars q)
    (hout : ∀ q, Outlives q (kernelOf seg.before) (kernelOf seg.after))
    (hmail : ∀ q, q ≠ seg.who → mailbox (kernelOf seg.after) q = mailbox (kernelOf seg.before) q)
    (hslot : SlotOk seg.after (update lbl seg.who l) (replies i tr)
      (delivered i tr ++ delivery len seg) i) :
    Served (tr ++ [seg]) C' (icmpMachine.keep seg.after (update lbl seg.who l)) := by
  have hendpoint : ∀ γ j len', l = some γ → γ.endpoint = some (j, len') → j = i ∧ len' = len ∧
      seg.outcome = .switched ∧ ¬ Fresh (kernelOf seg.after) seg.who := by
    intro γ j len' hγ hend
    rcases hl with rfl | ⟨⟨γ', rfl, hend'⟩, hswitched, hsaved⟩
    · contradiction
    · obtain rfl := Option.some_inj.mp hγ
      rw [hend', Option.some_inj, Prod.mk.injEq] at hend
      exact ⟨hend.1.symm, hend.2.symm, hswitched, hsaved⟩
  apply h.turned hstep _ _ hwho htab (i := i)
  · intro j _ hj _
    unfold queue
    rw [htab j hj, hpackets]
  · exact hvars
  · exact fun j arr _ => reply_of_receives hrec j arr
  · intro j del hj
    rw [deliver_of_receives hrec, if_neg (by omega)]
  · exact fun q γ j len hne _ _ => ⟨hout q, fun _ => Udp.promised_congr (hmail q hne)⟩
  · rw [reply_of_receives hrec, deliver_of_receives hrec, if_pos rfl]
    exact hslot
  · intro γ j len' hγ hend
    obtain ⟨rfl, rfl, hswitched, hsaved⟩ := hendpoint γ j len' hγ hend
    exact ⟨hi, fun hbad => halive ((hout seg.who).isbadpid hbad), hsaved, hrec, hswitched⟩
  · rintro rfl
    rcases hl with hnone | ⟨⟨γ', hγ, hend⟩, -⟩
    · contradiction
    · obtain rfl := Option.some_inj.mp hγ
      contradiction
  · intro j hj γ len' hγ hend
    exact hj (hendpoint γ j len' hγ hend).1

/-- The receive that is counted on: its process is in the process table, and the head
does not pass the last cell. -/
theorem Orderly.receives (h : Orderly C seg) (hrec : receives seg.call = some ((i : Int), len)) :
    ¬ isbadpid (kernelOf seg.before) seg.who ∧
      (seg.resumed = false →
        ∀ p, ¬ isbadpid (kernelOf C.state) p → receivingOn C p ≠ some (i : Int)) ∧
      (Removes i seg → (seg.before.icmptab i).ichead < icmpQsiz - 1) := by
  unfold Orderly at h
  cases hcall : seg.call with
  | icmpRecv icmpid len' timeout =>
      rw [hcall] at h hrec
      obtain ⟨hslot, -⟩ : icmpid.toInt = i ∧ len'.toInt = len := by
        simpa [Icmp.receives] using hrec
      rw [← hslot]
      exact ⟨h.1, h.2.1, h.2.2 i hslot⟩
  | _ =>
      rw [hcall] at hrec
      contradiction

/-- A receive goes on that has waited. -/
theorem Served.goesOn (h : Served tr C lbl) (hstep : icmpMachine.Step C seg C')
    (hrule : Orderly C seg) (hlbl : lbl seg.who = some (.waiting i len))
    (hR : GoesOn i len seg.before seg l) :
    Served (tr ++ [seg]) C' (icmpMachine.keep seg.after (update lbl seg.who l)) := by
  obtain ⟨hbefore, -, -⟩ := hstep.segment
  obtain ⟨hi, -, -, -⟩ := h.waits _ _ i len hlbl rfl
  obtain ⟨hrec, hres⟩ := h.resumes hstep hlbl rfl
  obtain ⟨halive, -, hhead⟩ := hrule.receives hrec
  have hslot := h.slots i hi
  rw [← hbefore] at hslot
  have hon : On lbl i seg.who := ⟨_, len, hlbl, rfl⟩
  have hused := hslot.used seg.who hon
  have hothers : ∀ p, p ≠ seg.who → ¬ On lbl i p := fun p hne hp => hne (hslot.sole p _ hp hon)
  have hnot : ∀ len' v, lbl seg.who ≠ some (.ending i len' v) := by
    intro len' v
    rw [hlbl]
    nofun
  have hwho : ∀ j, j ≠ i → Away (lbl seg.who) j := by
    intro j hj γ len' hγ hend
    rw [hlbl, Option.some_inj] at hγ
    rw [← hγ] at hend
    exact hj (congrArg Prod.fst (Option.some_inj.mp hend)).symm
  cases hR with
  | waits hout hl hsaved hquiet =>
      have hqueue : queue seg.after i = queue seg.before i := by
        unfold queue
        rw [hquiet.icmptab, hquiet.packets]
      apply h.received hstep hi hrec halive hwho (Or.inr ⟨⟨_, hl, rfl⟩, hout, hsaved⟩)
        (fun j _ => congrFun hquiet.icmptab j) hquiet.packets (fun q _ => congrFun hquiet.vars q)
        (fun q => hquiet.calm.outlives q) (fun q _ => mailbox_congr (congrFun hquiet.calm.mail q))
      rw [delivery_of_switched hout, List.append_nil, hl, ← hlbl, update_eq_self]
      apply hslot.frame (congrFun hquiet.icmptab i) (fun _ => hqueue) fun _ _ _ _ => Iff.rfl
      · exact fun p len' _ => Udp.promised_congr (mailbox_congr (congrFun hquiet.calm.mail p))
      · exact fun p len' v _ => congrFun hquiet.vars p
  | fails v w s hgets hok hcalm hout hw hl hnew =>
      apply h.received hstep hi hrec halive hwho (Or.inl hl)
        (fun j hj => by rw [hnew.icmptab, update_of_ne hj]) hnew.packets
        (fun q _ => congrFun hnew.vars q)
        (fun q => trans_of (Outlives q) (hgets.outlives q) (hcalm.outlives q))
      · intro q hne
        rw [mailbox_congr (congrFun hcalm.mail q), hgets.mail hne]
      · rw [delivery_of_failed hout hw, List.append_nil, hl]
        apply hslot.fails hused hothers hnot (seg.before.icmptab i).icpid
        · rw [hnew.icmptab, update_self]
        · exact hnew.packets
  | takes v s hgets hok hcalm htaken hend =>
      have hprom : Udp.Promised seg.before seg.who := ⟨v, Udp.promised_of_gets hgets hok, hok⟩
      have hremoves : Removes i seg := by
        unfold Removes
        rw [hres]
        exact hprom
      apply h.received hstep hi hrec halive hwho _
        (fun j hj => by rw [htaken.icmptab, update_of_ne hj]) htaken.packets
        (fun q hne => by rw [htaken.vars, update_of_ne hne])
        (fun q => trans_of (Outlives q) (hgets.outlives q) (hcalm.outlives q))
      · intro q hne
        rw [mailbox_congr (congrFun hcalm.mail q), hgets.mail hne]
      · exact hslot.takes hused (hslot.claim _ len hlbl hprom) (hhead hremoves) hothers hnot
          htaken hend
      · rcases hend with ⟨hout, hl, hsaved⟩ | ⟨-, hl⟩
        · exact Or.inr ⟨⟨_, hl, rfl⟩, hout, hsaved⟩
        · exact Or.inl hl

/-- A receive goes on that has taken a packet. -/
theorem Served.ends {v : Int} (h : Served tr C lbl) (hstep : icmpMachine.Step C seg C')
    (hrule : Orderly C seg) (hlbl : lbl seg.who = some (.ending i len v))
    (hquiet : Quiet seg.before seg.after) (hend : Ending i len v seg l) :
    Served (tr ++ [seg]) C' (icmpMachine.keep seg.after (update lbl seg.who l)) := by
  obtain ⟨hbefore, -, -⟩ := hstep.segment
  obtain ⟨hi, -, -, -⟩ := h.waits _ _ i len hlbl rfl
  obtain ⟨hrec, -⟩ := h.resumes hstep hlbl rfl
  obtain ⟨halive, -, -⟩ := hrule.receives hrec
  have hslot := h.slots i hi
  rw [← hbefore] at hslot
  have hwho : ∀ j, j ≠ i → Away (lbl seg.who) j := by
    intro j hj γ len' hγ hend
    rw [hlbl, Option.some_inj] at hγ
    rw [← hγ] at hend
    exact hj (congrArg Prod.fst (Option.some_inj.mp hend)).symm
  apply h.received hstep hi hrec halive hwho _ (fun j _ => congrFun hquiet.icmptab j)
    hquiet.packets (fun q _ => congrFun hquiet.vars q) (fun q => hquiet.calm.outlives q)
    (fun q _ => mailbox_congr (congrFun hquiet.calm.mail q))
  · exact hslot.ends hlbl hquiet hend
  · rcases hend with ⟨hout, hl, hsaved⟩ | ⟨-, hl⟩
    · exact Or.inr ⟨⟨_, hl, rfl⟩, hout, hsaved⟩
    · exact Or.inl hl

/-- A receive begins. -/
theorem Served.receive {icmpid : Int} (h : Served tr C lbl) (hstep : icmpMachine.Step C seg C')
    (hrule : Orderly C seg) (hrec : receives seg.call = some (icmpid, len))
    (hres : seg.resumed = false) (hR : Receives icmpid len seg l) :
    Served (tr ++ [seg]) C' (icmpMachine.keep seg.after (update lbl seg.who l)) := by
  obtain ⟨hbefore, -, -⟩ := hstep.segment
  have haway := h.away hstep (Or.inr hres)
  -- no process is in a receive on the endpoint
  have hvacant : ∀ i : Nat, icmpid = i → ∀ p, ¬ On lbl i p := by
    rintro i rfl p ⟨γ, len', hlbl, hend⟩
    obtain ⟨-, halive, -, hwaits⟩ := h.waits p γ i len' hlbl hend
    apply (hrule.receives hrec).2.1 hres p halive
    unfold receivingOn
    rw [hwaits]
    rfl
  have hnot : ∀ (i : Nat) len' v, lbl seg.who ≠ some (.ending i len' v) :=
    fun i len' v hlbl => haway i _ len' hlbl rfl
  cases hR with
  | refused hl hout hquiet =>
      apply h.quiet hstep (Or.inl hl) haway hquiet (reply_of_receives hrec)
      intro j del
      rw [deliver_of_receives hrec, delivery_of_failed hout (Or.inr rfl), List.append_nil, ite_self]
  | takes i hslot hlt hused hcount hcalm htaken hend =>
      subst hslot
      obtain ⟨halive, -, hhead⟩ := hrule.receives hrec
      have hok := h.slots i hlt
      rw [← hbefore] at hok
      have hused' : (seg.before.icmptab i).icstate ≠ .icmpFree := by
        rw [hused]
        nofun
      have hnonneg := (hok.fits hused').count_nonneg
      have hremoves : Removes i seg := by
        unfold Removes
        rw [hres]
        exact ⟨hused, hcount⟩
      apply h.received hstep hlt hrec halive (fun j _ => haway j) _
        (fun j hj => by rw [htaken.icmptab, update_of_ne hj]) htaken.packets
        (fun q hne => by rw [htaken.vars, update_of_ne hne]) (fun q => hcalm.outlives q)
        (fun q _ => mailbox_congr (congrFun hcalm.mail q))
      · exact hok.takes hused' (by omega) (hhead hremoves) (fun p _ => hvacant i rfl p) (hnot i)
          htaken hend
      · rcases hend with ⟨hout, hl, hsaved⟩ | ⟨-, hl⟩
        · exact Or.inr ⟨⟨_, hl, rfl⟩, hout, hsaved⟩
        · exact Or.inl hl
  | waits i base hslot hlt hused hcount htook hwaiting hgoes =>
      subst hslot
      obtain ⟨halive, -, -⟩ := hrule.receives hrec
      have hok := h.slots i hlt
      rw [← hbefore] at hok
      have hused' : (seg.before.icmptab i).icstate ≠ .icmpFree := by
        rw [hused]
        nofun
      have hempty : mailbox (kernelOf base) seg.who = [] := by
        rw [htook.mail, if_pos rfl]
      have hbase : ∀ q, q ≠ seg.who → mailbox (kernelOf base) q = mailbox (kernelOf seg.before) q := by
        intro q hne
        rw [htook.mail, if_neg hne]
      cases hgoes with
      | waits hout hl hsaved hquiet =>
          apply h.received hstep hlt hrec halive (fun j _ => haway j)
            (Or.inr ⟨⟨_, hl, rfl⟩, hout, hsaved⟩)
            (fun j hj => by rw [hquiet.icmptab, hwaiting.icmptab, update_of_ne hj])
            (hquiet.packets.trans hwaiting.packets)
            (fun q _ => by rw [hquiet.vars, hwaiting.vars])
            (fun q => trans_of (Outlives q) (htook.outlives q) (hquiet.calm.outlives q))
          · intro q hne
            rw [mailbox_congr (congrFun hquiet.calm.mail q), hbase q hne]
          · rw [delivery_of_switched hout, List.append_nil, hl]
            apply hok.waits hused' (hvacant i rfl)
            · rw [hquiet.icmptab, hwaiting.icmptab, update_self]
            · exact hquiet.packets.trans hwaiting.packets
            · rintro ⟨m, hmail, -⟩
              rw [mailbox_congr (congrFun hquiet.calm.mail seg.who), hempty] at hmail
              contradiction
      | fails v w s hgets hok' hcalm hout hw hl hnew =>
          apply h.received hstep hlt hrec halive (fun j _ => haway j) (Or.inl hl)
            (fun j hj => by
              rw [hnew.icmptab, update_of_ne hj, hwaiting.icmptab, update_of_ne hj])
            (hnew.packets.trans hwaiting.packets) (fun q _ => by rw [hnew.vars, hwaiting.vars])
            (fun q => trans_of (Outlives q) (htook.outlives q)
              (trans_of (Outlives q) (hgets.outlives q) (hcalm.outlives q)))
          · intro q hne
            rw [mailbox_congr (congrFun hcalm.mail q), hgets.mail hne, hbase q hne]
          · rw [delivery_of_failed hout hw, List.append_nil, hl]
            apply hok.fails hused' (fun p _ => hvacant i rfl p) (hnot i) seg.who
            · rw [hnew.icmptab, update_self, hwaiting.icmptab, update_self]
              rfl
            · exact hnew.packets.trans hwaiting.packets
      | takes v s hgets hok' hcalm htaken hend =>
          -- there is no message yet
          have hmail := Udp.promised_of_gets hgets hok'
          rw [hempty] at hmail
          contradiction

theorem reply_of_resumed (hres : seg.resumed = true) (i : Nat) (arr : List Netpacket) :
    reply i arr seg = arr := by
  unfold reply
  cases hcall : seg.call with
  | icmpIn pkt buf => simp [hres]
  | icmpRegister remip => simp [hres]
  | _ => rfl

theorem deliver_of_resumed (hres : seg.resumed = true) (hrec : receives seg.call = none) (i : Nat)
    (del : List Delivery) : deliver i del seg = del := by
  unfold deliver
  cases hcall : seg.call with
  | icmpRecv icmpid len timeout =>
      rw [hcall] at hrec
      contradiction
  | icmpRegister remip => simp [hres]
  | _ => rfl

/-- A call that is continued does what its label says. -/
theorem Served.continued (h : Served tr C lbl) (htraced : icmpMachine.TracedBy Effect C lbl)
    (hstep : icmpMachine.Step C seg C') (hrule : Orderly C seg) (hres : seg.resumed = true)
    (hR : Resumes (lbl seg.who) seg l) :
    Served (tr ++ [seg]) C' (icmpMachine.keep seg.after (update lbl seg.who l)) := by
  obtain ⟨k, hk⟩ := hstep.resumed hres
  rcases htraced seg.who with ⟨hnone, -⟩ | ⟨c, k', γ, hp, hlbl, -⟩
  · rw [hk] at hnone
    contradiction
  · rw [hlbl] at hR
    cases γ with
    | waiting i len => exact h.goesOn hstep hrule hlbl hR
    | ending i len v => exact h.ends hstep hrule hlbl hR.1 hR.2
    | idle =>
        obtain ⟨hrec, hl, hquiet⟩ := hR
        exact h.quiet hstep hl (h.away hstep (Or.inl hrec)) hquiet (reply_of_resumed hres)
          (deliver_of_resumed hres hrec)
    | lost => exact (h.known _ hlbl).elim

theorem Served.step (h : Served tr C lbl) (htraced : icmpMachine.TracedBy Effect C lbl)
    (hstep : icmpMachine.Step C seg C') (hrule : Orderly C seg)
    (hR : Effect (lbl seg.who) seg l) :
    Served (tr ++ [seg]) C' (icmpMachine.keep seg.after (update lbl seg.who l)) := by
  have hrule' := hrule
  cases hcall : seg.call with
  | kernel c =>
      unfold Effect at hR
      rw [hcall] at hR
      exact h.kernelCall hstep hrule hcall hR.1 hR.2
  | icmpRegister remip =>
      unfold Effect at hR
      rw [hcall] at hR
      cases hres : seg.resumed with
      | true =>
          rw [hres] at hR
          exact h.continued htraced hstep hrule hres hR
      | false =>
          rw [hres] at hR
          obtain ⟨hl, v, hout, hreg⟩ := hR
          exact h.register hstep hcall hres hl hout hreg
  | icmpIn pkt buf =>
      unfold Effect at hR
      unfold Orderly at hrule'
      rw [hcall] at hR hrule'
      cases hres : seg.resumed with
      | true =>
          rw [hres] at hR
          exact h.continued htraced hstep hrule hres hR
      | false =>
          rw [hres] at hR
          obtain ⟨hl, harrived⟩ := hR (hrule' hres).1
          exact h.packet hstep hrule hcall hres hl harrived
  | icmpRecv icmpid len timeout =>
      unfold Effect at hR
      rw [hcall] at hR
      cases hres : seg.resumed with
      | true =>
          rw [hres] at hR
          exact h.continued htraced hstep hrule hres hR
      | false =>
          rw [hres] at hR
          exact h.receive hstep hrule (by rw [hcall]; rfl) hres hR
  | icmpRelease icmpid =>
      unfold Effect at hR
      unfold Orderly at hrule'
      rw [hcall] at hR hrule'
      cases hres : seg.resumed with
      | true =>
          rw [hres] at hR
          exact h.continued htraced hstep hrule hres hR
      | false =>
          rw [hres] at hR
          obtain ⟨hl, hreleased⟩ := hR (hrule' hres).2.1
          exact h.release hstep hrule hcall hres hl hreleased

end Steps

/-- What the claim says of the entry of a registered endpoint. -/
structure Consistent (e : Icmpentry) : Prop where
  count_nonneg : 0 ≤ e.iccount
  count_le : e.iccount ≤ icmpQsiz
  head_nonneg : 0 ≤ e.ichead
  head_lt : e.ichead < icmpQsiz
  tail_nonneg : 0 ≤ e.ictail
  tail_lt : e.ictail < icmpQsiz
  tail_eq : e.ictail = (e.ichead + e.iccount) % icmpQsiz

theorem consistent_of_fits {e : Icmpentry} (h : Fits e) : Consistent e where
  count_nonneg := h.count_nonneg
  count_le := h.count_le
  head_nonneg := h.head_nonneg
  head_lt := h.head_lt
  tail_nonneg := h.tail_nonneg
  tail_lt := h.tail_lt
  tail_eq := h.tail_eq

/-- The receives have returned the data of the first replies, in order, each once. -/
def InOrder (arr : List Netpacket) (del : List Delivery) : Prop :=
  ∃ received rest, arr = received ++ rest ∧ List.Forall₂ Delivery.Of del received

/--
In every orderly run, the queue of every registered endpoint is consistent, and the
receives on it have returned the data of the replies that have arrived, in order of arrival
and each once.
-/
theorem icmp_queues_of_run {t₀ : State} {tr : List (Segment State IcmpCall)}
    {C : Config State IcmpCall}
    (hinit : ∀ i : Nat, i < icmpSlots → (t₀.icmptab i).icstate = .icmpFree)
    (hrun : icmpMachine.RunWhen Orderly (Machine.initial t₀) tr C) :
    ∀ i : Nat, i < icmpSlots → (C.state.icmptab i).icstate ≠ .icmpFree →
      Consistent (C.state.icmptab i) ∧ InOrder (replies i tr) (delivered i tr) := by
  have hstart : Served [] (Machine.initial t₀) fun _ => none := by
    constructor
    · exact fun p hlbl => by contradiction
    · intro i hi
      apply SlotOk.closed (hinit i hi)
      rintro p ⟨γ, len, hγ, -⟩
      contradiction
    · exact fun p γ i len hγ => by contradiction
  obtain ⟨lbl, h, -⟩ := Machine.run_traced (P := Served) icmpCall_traced hstart
    (fun tr C lbl seg C' l hP htraced hstep hrule hR => hP.step htraced hstep hrule hR) hrun
  intro i hi hused
  have hslot := h.slots i hi
  obtain ⟨held, haccount⟩ := hslot.account hused
  exact ⟨consistent_of_fits (hslot.fits hused), haccount.ledger.delivered_prefix⟩

/-! ## Nine replies -/

instance (i : Nat) (seg : Segment State IcmpCall) : Decidable (Removes i seg) :=
  inferInstanceAs (Decidable (ite _ _ _))

/-- What holds of the endpoints can be checked. -/
instance decidableForallSlots (P : Nat → Prop) [DecidablePred P] :
    Decidable (∀ i : Nat, (i : Int) < icmpSlots → P i) :=
  decidable_of_iff (∀ i, i < icmpSlots.toNat → P i) <| by
    unfold icmpSlots
    constructor
    · exact fun h i hi => h i (by omega)
    · exact fun h i hi => h i (by omega)

/-- What holds of an endpoint can be checked. -/
instance decidableForallSlot (slot : Int) (P : Nat → Prop) [DecidablePred P] :
    Decidable (∀ i : Nat, slot = i → P i) :=
  match slot with
  | .ofNat n => decidable_of_iff (P n) <| by
      constructor
      · intro h i hi
        rwa [← Int.ofNat.inj hi]
      · exact fun h => h n rfl
  | .negSucc n => .isTrue fun i hi => by cases hi

instance (C : Config State IcmpCall) (seg : Segment State IcmpCall) : Decidable (Orderly C seg) :=
  match seg with
  | ⟨who, .kernel c, resumed, before, o, after⟩ =>
      inferInstanceAs (Decidable (Discreet (fun p => receiving C p ≠ none) c
        (⟨who, IcmpCall.kernel c, resumed, before, o, after⟩ : Segment State IcmpCall)))
  | ⟨_, .icmpRegister _, _, _, _, _⟩ => instDecidableTrue
  | ⟨_, .icmpIn _ _, _, _, _, _⟩ => inferInstanceAs (Decidable (_ → _ ∧ ∀ _, _))
  | ⟨_, .icmpRecv _ _ _, _, _, _, _⟩ => inferInstanceAs (Decidable (_ ∧ (_ → ∀ _, _) ∧ ∀ _, _))
  | ⟨_, .icmpRelease _, _, _, _, _⟩ => inferInstanceAs (Decidable (_ → (∀ _, _) ∧ _ ∧ ∀ _, _))

/-- A reply to endpoint 0 from address 7, with four bytes of data. -/
def echoReply : Netpacket :=
  { Netpacket.zero with
    ictype := icmpEchoreply
    icident := 0
    ipsrc := 7
    iplen := 32
    icdata := fun i => UInt8.ofNat (i + 1) }

/-- Endpoint 0 is registered, and nine replies arrive. -/
def nineReplies : List (Option IcmpCall) :=
  some (.icmpRegister 7) :: (List.range 9).map fun n => some (.icmpIn echoReply (8 * (n + 1)))

theorem ninth_reply :
    ∃ tr C, icmpMachine.Run (fun _ _ _ => True) (Machine.initial (bootNet smallBoard)) tr C ∧
      (C.state.icmptab 0).icstate ≠ .icmpFree ∧ (C.state.icmptab 0).iccount = 9 ∧
      ¬ Consistent (C.state.icmptab 0) := by
  have hreplay : (icmpMachine.replayWhen Anyhow (forceNetConfig netEntries) nineReplies []
      (Machine.initial (bootNet smallBoard))).map (fun r =>
        decide ((r.2.state.icmptab 0).icstate = .icmpUsed ∧ (r.2.state.icmptab 0).iccount = 9)) =
          some true := by
    decide +kernel
  obtain ⟨⟨tr, C⟩, hr, hdec⟩ := Option.map_eq_some_iff.mp hreplay
  obtain ⟨hstate, hcount⟩ : (C.state.icmptab 0).icstate = .icmpUsed ∧
      (C.state.icmptab 0).iccount = 9 := of_decide_eq_true hdec
  have hrun : icmpMachine.Run (fun _ _ _ => True) (Machine.initial (bootNet smallBoard)) tr C :=
    (icmpMachine.replayWhen_run (forcedNet_eq netEntries) .start hr).run fun _ _ _ => True.intro
  refine ⟨tr, C, hrun, ?_, hcount, ?_⟩
  · rw [hstate]
    nofun
  · intro hcons
    have hle := hcons.count_le
    rw [hcount] at hle
    exact absurd hle (by decide)

/-- Process 1 waits for a reply at endpoint 0 and gets one; another is put in the queue. -/
def receiveScript : List (Option IcmpCall) :=
  [some (.kernel (.create 400 30)), some (.kernel (.resume 1)), some (.icmpRegister 7),
    some (.icmpRecv 0 100 1000), none, some (.icmpIn echoReply 8), none,
    some (.icmpIn echoReply 16)]

theorem reply_received :
    ∃ tr C, icmpMachine.RunWhen Orderly (Machine.initial (bootNet smallBoard)) tr C ∧
      delivered 0 tr = [⟨100, 4, [1, 2, 3, 4]⟩] ∧ contents (C.state.icmptab 0) = [16] ∧
      ∀ i : Nat, i < icmpSlots → (C.state.icmptab i).icstate ≠ .icmpFree →
        Consistent (C.state.icmptab i) ∧ InOrder (replies i tr) (delivered i tr) := by
  have hreplay : (icmpMachine.replayWhen Orderly (forceNetConfig netEntries) receiveScript []
      (Machine.initial (bootNet smallBoard))).map
        (fun r => (delivered 0 r.1, contents (r.2.state.icmptab 0))) =
          some ([⟨100, 4, [1, 2, 3, 4]⟩], [16]) := by
    decide +kernel
  obtain ⟨⟨tr, C⟩, hr, hboth⟩ := Option.map_eq_some_iff.mp hreplay
  rw [Prod.mk.injEq] at hboth
  have hrun := icmpMachine.replayWhen_run (forcedNet_eq netEntries) .start hr
  exact ⟨tr, C, hrun, hboth.1, hboth.2, icmp_queues_of_run (fun _ _ => rfl) hrun⟩
end Icmp
end Net
end Xinu
