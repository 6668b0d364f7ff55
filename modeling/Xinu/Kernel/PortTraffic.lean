import Xinu.Kernel.Ports
import Xinu.Kernel.SemaphoreWorld

/-!
# Messages on ports

Embedding of `system/ptinit.c`, `ptcreate.c`, `ptsend.c`, `ptrecv.c`, `ptclear.c`,
`ptreset.c` and `ptdelete.c`.  A port has two semaphores, one for senders and one
for receivers, and a list of messages whose nodes come from a pool that all ports
share.

Main result:

- Theorem `kernel_semreset`: resetting a semaphore of the kernel does what it does in a
  world.
-/

namespace Xinu

open Foundations Function

/-! ## Resetting a semaphore -/

namespace World

variable {δ ε : Type}

/-- Semaphore `x` gets the count `n`, and all that wait for it are released. -/
def restart (x n : Int) (w : World δ ε) : World δ ε :=
  { w with
    sems := update w.sems x ⟨true, n, []⟩
    granted := update w.granted x (w.granted x ++ (w.sems x).queue) }

/-- Reset a semaphore's count and release waiting processes. -/
def semreset (x n : Int) : WorldM δ ε Int := do
  let w ← get
  if n < 0 ∨ (w.sems x).used = false then
    return syserr
  modify (restart x n)
  if (w.sems x).queue ≠ [] then
    resched
  return ok

end World

section KernelReset

variable {s : Kernel}

/-- The execution of `semreset` in the world of the kernel stops with the semaphores that
the events of the call leave. -/
theorem semreset_stops (x n : Int) : ∃ w, (World.semreset x n (worldOf s)).firstStop = some w ∧
    w.sems = SemEvent.applyAll i32 (semView s) (semresetEvents s x n) := by
  have hdefer : (worldOf s).ndefers = 0 := rfl
  unfold semresetEvents
  by_cases hx : Usable s x ∧ 0 ≤ n
  · have hused := used_worldOf.mpr hx.1
    have hnot : ¬ (n < 0 ∨ ((worldOf s).sems x).used = false) := by
      rw [hused]
      simp [hx.2]
    refine ⟨World.restart x n (worldOf s), ?_, ?_⟩
    · simp only [World.semreset, Coop.run_bind, Coop.run_get, Flow.bind_done, Coop.run_ite,
        if_neg hnot, Coop.run_modify]
      split
      · simp [World.resched, World.restart, hdefer, Flow.firstStop]
      · rfl
    · rw [if_pos hx]
      show update (semView s) x ⟨true, n, []⟩ =
        update (semView s) x ⟨(semView s x).used, n, []⟩
      have husedView : (semView s x).used = true := hused
      rw [husedView]
  · have hbad : n < 0 ∨ ((worldOf s).sems x).used = false := by
      by_cases hn : n < 0
      · exact Or.inl hn
      · have hunused : ¬ ((worldOf s).sems x).used = true := fun hused =>
          hx ⟨used_worldOf.mp hused, by omega⟩
        exact Or.inr (by simpa using hunused)
    refine ⟨worldOf s, ?_, ?_⟩
    · simp [World.semreset, hbad, Flow.firstStop]
    · rw [if_neg hx]
      rfl

end KernelReset

/--
In every run of ordinary calls, a segment that begins `semreset` leaves the semaphores of
the kernel as that call leaves those of a world.
-/
theorem kernel_semreset {b : Board} {tr : List (Segment Kernel KCall)} {C : Config Kernel KCall}
    (hrun : kernelMachine.Run NullRuns (Machine.initial (boot b)) tr C) :
    ∀ seg ∈ tr, ∀ sem count, seg.call = .semreset sem count → seg.resumed = false →
      ∃ w, (World.semreset sem.toInt count.toInt (worldOf seg.before)).firstStop = some w ∧
        semView seg.after = w.sems := by
  have hsegs := (kernel_run nullRuns_admits ((boot_eq b).2.inv ordinary) hrun).2
  intro seg hseg sem count hcall hfirst
  obtain ⟨w, hstop, hsems⟩ := semreset_stops (s := seg.before) sem.toInt count.toInt
  refine ⟨w, hstop, ?_⟩
  rw [(hsegs seg hseg).sems, hsems, hcall, hfirst]
  rfl

/-! ## Ports -/

/-- Node on list of messages. -/
structure Ptnode where
  ptmsg : UInt32
  /-- The address of the next node on the list. -/
  ptnext : Nat
deriving DecidableEq, Repr

/-- The port table, the nodes, by their addresses, and the list of free ones. -/
structure PortMem extends Ports where
  nodes : Nat → Ptnode
  ptfree : Nat
  /-- The argument of `ptinit`. -/
  maxmsgs : Nat

/-- What is recorded of the calls, each where it happens. -/
inductive PortEvent
  /-- `ptcreate` has set up a port with these semaphores. -/
  | created (portid count ssem rsem : Int)
  /-- `_ptclear` begins. -/
  | cleared (portid : Int)
  /-- A call goes on after its `wait`; it had begun in incarnation `started` of the port. -/
  | woken (portid : Int) (started now : Nat)
  | sent (portid : Int) (now : Nat) (msg : UInt32)
  /-- The node `head` is taken from the list. -/
  | received (portid : Int) (now : Nat) (head : Nat) (msg : UInt32)
  | disposed (portid : Int) (msg : UInt32)
deriving DecidableEq, Repr

abbrev PortM := WorldM PortMem PortEvent

/-- How often the port has been created or cleared. -/
def incarnation (portid : Int) (log : List PortEvent) : Nat :=
  log.countP fun e =>
    match e with
    | .created p _ _ _ | .cleared p => p = portid
    | _ => false

namespace PortMem

def setNode (d : PortMem) (a : Nat) (f : Ptnode → Ptnode) : PortMem :=
  { d with nodes := update d.nodes a (f (d.nodes a)) }

def setPort (d : PortMem) (portid : Int) (f : Ptentry → Ptentry) : PortMem :=
  { d with porttab := update d.porttab portid (f (d.porttab portid)) }

/-- Obtain a node from the free list, and link it into the queue of the port. -/
def link (portid : Int) (msg : UInt32) (d : PortMem) : PortMem :=
  let msgnode := d.ptfree
  let d := { d with ptfree := (d.nodes msgnode).ptnext }
  let d := d.setNode msgnode fun _ => ⟨msg, Memory.null⟩
  let tailnode := (d.porttab portid).pttail
  if tailnode = Memory.null then
    d.setPort portid fun e => { e with pttail := msgnode, pthead := msgnode }
  else
    (d.setNode tailnode fun n => { n with ptnext := msgnode }).setPort portid
      fun e => { e with pttail := msgnode }

/-- Dequeue the first message that is waiting in the port. -/
def unlink (portid : Int) (d : PortMem) : PortMem :=
  let msgnode := (d.porttab portid).pthead
  let d :=
    if (d.porttab portid).pthead = (d.porttab portid).pttail then
      d.setPort portid fun e => { e with pthead := Memory.null, pttail := Memory.null }
    else
      d.setPort portid fun e => { e with pthead := (d.nodes msgnode).ptnext }
  let d := d.setNode msgnode fun n => { n with ptnext := d.ptfree }
  { d with ptfree := msgnode }

/-- Link the entire message list of the port into the free list. -/
def freeList (portid : Int) (d : PortMem) : PortMem :=
  let e := d.porttab portid
  { d.setNode e.pttail fun n => { n with ptnext := d.ptfree } with ptfree := e.pthead }

/-- The loop of `ptinit` that links the nodes, with `n` turns left. -/
def linkLoop : Nat → Nat → (Nat → Ptnode) → Nat → Ptnode
  | 0, curr, nodes => update nodes curr { nodes curr with ptnext := Memory.null }
  | n + 1, curr, nodes =>
      linkLoop n (curr + 8) (update nodes curr { nodes curr with ptnext := curr + 8 })

/-- Initialize all ports; `getmem` has returned `base`, the address of `maxmsgs` nodes of
eight bytes. -/
def ptinit (base maxmsgs : Nat) (d : PortMem) : PortMem where
  porttab := fun i =>
    if 0 ≤ i ∧ i < nports then { d.porttab i with ptstate := .ptFree, ptseq := 0 }
    else d.porttab i
  ptnextid := 0
  nodes := linkLoop (maxmsgs - 1) base d.nodes
  ptfree := base
  maxmsgs := maxmsgs

end PortMem

namespace Port

def isbadport (portid : Int) : Prop :=
  portid < 0 ∨ portid ≥ nports

instance (portid : Int) : Decidable (isbadport portid) :=
  inferInstanceAs (Decidable (_ ∨ _))

/-- The loop of `ptcreate`, with `i` entries left to try. -/
def ptcreateLoop (count : Int) : Nat → PortM Int
  | 0 => return syserr
  | i + 1 => do
      let ptnum := (← get).shared.ptnextid
      modify (·.setShared fun d => { d with ptnextid := d.ptnextid + 1 })
      if (← get).shared.ptnextid ≥ nports then
        modify (·.setShared fun d => { d with ptnextid := 0 })
      -- check table entry that corresponds to ID ptnum
      if ((← get).shared.porttab ptnum).ptstate = .ptFree then
        modify (·.setShared (·.setPort ptnum fun e => { e with ptstate := .ptAlloc }))
        let ssem ← World.semcreate count
        modify (·.setShared (·.setPort ptnum fun e => { e with ptssem := ssem }))
        let rsem ← World.semcreate 0
        modify (·.setShared (·.setPort ptnum fun e =>
          { e with
            ptrsem := rsem
            pthead := Memory.null
            pttail := Memory.null
            ptseq := i32 (e.ptseq + 1)
            ptmaxcnt := .ofNat count.toNat }))
        modify (·.note (.created ptnum count ssem rsem))
        return ptnum
      else
        ptcreateLoop count i

/-- Create a port that allows `count` outstanding messages. -/
def ptcreate (count : Int) : PortM Int := do
  if count < 0 then
    return syserr
  ptcreateLoop count nports.toNat

/-- Process `me` waits on a semaphore of a port, and verifies that the port has not been
reset. -/
def waitPort (me portid : Int) (sem : Ptentry → Int) : PortM Bool := do
  let w ← get
  let seq := (w.shared.porttab portid).ptseq
  let started := incarnation portid w.log
  let waited ← World.wait me (sem (w.shared.porttab portid))
  modify fun w => w.note (.woken portid started (incarnation portid w.log))
  let ptptr := (← get).shared.porttab portid
  return waited ≠ syserr ∧ ptptr.ptstate = .ptAlloc ∧ ptptr.ptseq = seq

/-- What `ptsend` does when there is space. -/
def sendTail (portid : Int) (msg : UInt32) : PortM Int := do
  -- the port system ran out of message nodes
  if (← get).shared.ptfree = Memory.null then
    Coop.halt
  modify (·.setShared (·.link portid msg))
  modify fun w => w.note (.sent portid (incarnation portid w.log) msg)
  let _ ← World.signal ((← get).shared.porttab portid).ptrsem
  return ok

/-- Send a message to a port by adding it to the queue. -/
def ptsend (me portid : Int) (msg : UInt32) : PortM Int := do
  if isbadport portid ∨ ((← get).shared.porttab portid).ptstate ≠ .ptAlloc then
    return syserr
  if (← waitPort me portid Ptentry.ptssem) = false then
    return syserr
  sendTail portid msg

/-- `(uint32)SYSERR` -/
def syserrWord : Int := 4294967295

/-- What `ptrecv` does when there is a message. -/
def recvTail (portid : Int) : PortM Int := do
  let d := (← get).shared
  let msgnode := (d.porttab portid).pthead
  let msg := (d.nodes msgnode).ptmsg
  modify (·.setShared (·.unlink portid))
  modify fun w => w.note (.received portid (incarnation portid w.log) msgnode msg)
  let _ ← World.signal ((← get).shared.porttab portid).ptssem
  return msg.toNat

/-- Receive a message from a port, blocking if port empty. -/
def ptrecv (me portid : Int) : PortM Int := do
  if isbadport portid ∨ ((← get).shared.porttab portid).ptstate ≠ .ptAlloc then
    return syserrWord
  if (← waitPort me portid Ptentry.ptrsem) = false then
    return syserrWord
  recvTail portid

/-- The walk of `_ptclear`, which calls the disposal function for each message; `n` nodes
are left.  A longer list has a cycle. -/
def disposeLoop (portid : Int) : Nat → Nat → PortM Unit
  | 0, walk => do
      if walk ≠ Memory.null then
        Coop.diverge
  | n + 1, walk => do
      if walk ≠ Memory.null then
        let node := (← get).shared.nodes walk
        modify (·.note (.disposed portid node.ptmsg))
        disposeLoop portid n node.ptnext

/-- The second half of `_ptclear`: the waiting processes are freed. -/
def clearTail (portid : Int) (newstate : PtState) : PortM Unit := do
  if newstate = .ptAlloc then
    modify (·.setShared (·.setPort portid fun e =>
      { e with pttail := Memory.null, pthead := Memory.null }))
    let e := (← get).shared.porttab portid
    let _ ← World.semreset e.ptssem e.ptmaxcnt.toNat
    let e := (← get).shared.porttab portid
    let _ ← World.semreset e.ptrsem 0
  else
    let _ ← World.semdelete ((← get).shared.porttab portid).ptssem
    let _ ← World.semdelete ((← get).shared.porttab portid).ptrsem
  modify (·.setShared (·.setPort portid fun e => { e with ptstate := newstate }))

/-- Used by `ptdelete` and `ptreset` to clear or reset a port. -/
def ptclear (portid : Int) (newstate : PtState) : PortM Unit := do
  -- place port in limbo state while waiting processes are freed
  modify (·.setShared (·.setPort portid fun e =>
    { e with ptstate := .ptLimbo, ptseq := i32 (e.ptseq + 1) }))
  modify (·.note (.cleared portid))
  let d := (← get).shared
  let walk := (d.porttab portid).pthead
  if walk ≠ Memory.null then
    disposeLoop portid d.maxmsgs walk
    modify (·.setShared (·.freeList portid))
  clearTail portid newstate

/-- Reset a port, freeing waiting processes and messages and leaving the port ready for
further use. -/
def ptreset (portid : Int) : PortM Int := do
  if isbadport portid ∨ ((← get).shared.porttab portid).ptstate ≠ .ptAlloc then
    return syserr
  ptclear portid .ptAlloc
  return ok

/-- Delete a port, freeing waiting processes and messages. -/
def ptdelete (portid : Int) : PortM Int := do
  if isbadport portid ∨ ((← get).shared.porttab portid).ptstate ≠ .ptAlloc then
    return syserr
  ptclear portid .ptFree
  modify (·.setShared fun d => { d with ptnextid := portid })
  return ok

end Port

/-! ## Processes -/

/-- The calls, with the arguments that their callers choose. -/
inductive PortCall
  | create (count : Int32)
  | send (portid : Int32) (msg : UInt32)
  | recv (portid : Int32)
  | reset (portid : Int32)
  | delete (portid : Int32)
deriving DecidableEq, Repr

def PortCall.exec (me : Int) : PortCall → PortM Int
  | create count => Port.ptcreate count.toInt
  | send portid msg => Port.ptsend me portid.toInt msg
  | recv portid => Port.ptrecv me portid.toInt
  | reset portid => Port.ptreset portid.toInt
  | delete portid => Port.ptdelete portid.toInt

/-- The processes that use ports; one that waits for a semaphore does not run. -/
def portCrew : Crew (World PortMem PortEvent) PortCall where
  exec := PortCall.exec
  ready := World.Ready

end Xinu
