import Xinu.Net.State
import Xinu.Kernel.Script

/-!
# Evaluating scripts of network calls

The tables of the network code are evaluated after each call of a script, like those
of the kernel.

Main result:

- Theorem `forcedNet_eq`: forcing changes nothing.
-/

namespace Xinu
namespace Net

open Foundations Function

variable {β : Type}

def forceUInt8 (n : UInt8) (f : UInt8 → β) : β :=
  forceNat n.toNat fun n => f (UInt8.ofNat n)

def forceUInt16 (n : UInt16) (f : UInt16 → β) : β :=
  forceNat n.toNat fun n => f (UInt16.ofNat n)

def forceUInt32 (n : UInt32) (f : UInt32 → β) : β :=
  forceNat n.toNat fun n => f (UInt32.ofNat n)

def forceMac (a : Mac) (f : Mac → β) : β :=
  forceTable forceUInt8 [0, 1, 2, 3, 4, 5] a f

def forceArState (st : ArState) (f : ArState → β) : β :=
  match st with
  | .arFree => f .arFree
  | .arPending => f .arPending
  | .arResolved => f .arResolved

def forceArpentry (e : Arpentry) (f : Arpentry → β) : β :=
  forceArState e.arstate fun arstate =>
    forceUInt32 e.arpaddr fun arpaddr =>
      forceInt e.arpid fun arpid =>
        forceMac e.arhaddr fun arhaddr => f ⟨arstate, arpaddr, arpid, arhaddr⟩

def forceUdState (st : UdState) (f : UdState → β) : β :=
  match st with
  | .udpFree => f .udpFree
  | .udpUsed => f .udpUsed
  | .udpRecv => f .udpRecv

def forceUdpentry (e : Udpentry) (f : Udpentry → β) : β :=
  forceUdState e.udstate fun udstate =>
    forceUInt32 e.udremip fun udremip =>
      forceUInt16 e.udremport fun udremport =>
        forceUInt16 e.udlocport fun udlocport =>
          forceInt e.udhead fun udhead =>
            forceInt e.udtail fun udtail =>
              forceInt e.udcount fun udcount =>
                forceInt e.udpid fun udpid =>
                  forceTable forceNat [0, 1, 2, 3, 4, 5, 6, 7] e.udqueue fun udqueue =>
                    f ⟨udstate, udremip, udremport, udlocport, udhead, udtail, udcount, udpid,
                      udqueue⟩

def forceIcState (st : IcState) (f : IcState → β) : β :=
  match st with
  | .icmpFree => f .icmpFree
  | .icmpUsed => f .icmpUsed
  | .icmpRecv => f .icmpRecv

def forceIcmpentry (e : Icmpentry) (f : Icmpentry → β) : β :=
  forceIcState e.icstate fun icstate =>
    forceUInt32 e.icremip fun icremip =>
      forceInt e.ichead fun ichead =>
        forceInt e.ictail fun ictail =>
          forceInt e.iccount fun iccount =>
            forceInt e.icpid fun icpid =>
              forceTable forceNat [0, 1, 2, 3, 4, 5, 6, 7] e.icqueue fun icqueue =>
                f ⟨icstate, icremip, ichead, ictail, iccount, icpid, icqueue⟩

/-- Evaluate the entries of the tables and the masks of the processes. -/
def forceNet (x : Touched) (t : State) (f : State → β) : β :=
  forceKernel x t.cpu.kernel fun kernel =>
    forceTable forceBool x.pids t.cpu.mask fun mask =>
      forceTable forceArpentry (List.range 16) t.arpcache fun arpcache =>
        forceTable forceUdpentry (List.range 6) t.udptab fun udptab =>
          forceTable forceIcmpentry (List.range 10) t.icmptab fun icmptab =>
            f { t with cpu := ⟨kernel, mask⟩, arpcache, udptab, icmptab }

/-- Evaluate a configuration before the next call. -/
def forceNetConfig {κ : Type} (x : Touched) (β : Type) (C : Config State κ)
    (f : Config State κ → β) : β :=
  forceNet x C.state fun state =>
    forceBool C.running fun running =>
      forceTable forcePending x.pids C.pending fun pending => f ⟨state, running, pending⟩

theorem forceUInt8_eq (n : UInt8) (f : UInt8 → β) : forceUInt8 n f = f n := by
  simp [forceUInt8]

theorem forceUInt16_eq (n : UInt16) (f : UInt16 → β) : forceUInt16 n f = f n := by
  simp [forceUInt16]

theorem forceUInt32_eq (n : UInt32) (f : UInt32 → β) : forceUInt32 n f = f n := by
  simp [forceUInt32]

theorem forceArpentry_eq (e : Arpentry) (f : Arpentry → β) : forceArpentry e f = f e := by
  obtain ⟨arstate, arpaddr, arpid, arhaddr⟩ := e
  cases arstate <;>
    simp [forceArpentry, forceArState, forceUInt32_eq, forceMac, forceTable_eq forceUInt8_eq]

theorem forceUdpentry_eq (e : Udpentry) (f : Udpentry → β) : forceUdpentry e f = f e := by
  obtain ⟨udstate, udremip, udremport, udlocport, udhead, udtail, udcount, udpid, udqueue⟩ := e
  cases udstate <;> simp [forceUdpentry, forceUdState, forceUInt32_eq, forceUInt16_eq]

theorem forceIcmpentry_eq (e : Icmpentry) (f : Icmpentry → β) : forceIcmpentry e f = f e := by
  obtain ⟨icstate, icremip, ichead, ictail, iccount, icpid, icqueue⟩ := e
  cases icstate <;> simp [forceIcmpentry, forceIcState, forceUInt32_eq]

theorem forceNet_eq (x : Touched) (t : State) (f : State → β) : forceNet x t f = f t := by
  simp [forceNet, forceKernel_eq, forceTable_eq forceArpentry_eq,
    forceTable_eq forceUdpentry_eq, forceTable_eq forceIcmpentry_eq]

/-- Forcing a configuration changes nothing. -/
theorem forcedNet_eq {κ : Type} (x : Touched) (β : Type) (C : Config State κ)
    (f : Config State κ → β) : forceNetConfig x β C f = f C := by
  simp [forceNetConfig, forceNet_eq, forceTable_eq forcePending_eq]

/-- The rule that every segment satisfies. -/
def Anyhow {κ : Type} (_ : Config State κ) (_ : Segment State κ) : Prop :=
  True

instance {κ : Type} (C : Config State κ) (seg : Segment State κ) : Decidable (Anyhow C seg) :=
  instDecidableTrue

/-- The entries of the first processes and semaphores, of the ready list and of the
sleep queue. -/
def netEntries : Touched :=
  ⟨[0, 1, 2, 3], [0, 1, 2, 3, 300, 301, 302, 303], [0, 1, 2], [.memlist, .heap 4096]⟩

end Net
end Xinu
