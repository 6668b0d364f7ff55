import Xinu.Kernel.State

/-!
# Process queues

Embedding of `system/queue.c`, `system/getitem.c`, `system/insert.c`,
`system/insertd.c`, `system/newqueue.c` and of the inline functions of
`include/queue.h`.  Queues are doubly linked lists threaded through one table:
the entries below `nproc` are the processes, and each queue owns a head entry
and the tail entry after it.
-/

namespace Xinu

open Foundations Function

namespace QueueTab

/-- `queuetab[i].qnext = v` -/
def setQnext (t : QueueTab) (i v : Int) : QueueTab :=
  update t i { t i with qnext := v }

/-- `queuetab[i].qprev = v` -/
def setQprev (t : QueueTab) (i v : Int) : QueueTab :=
  update t i { t i with qprev := v }

/-- `queuetab[i].qkey = v` -/
def setQkey (t : QueueTab) (i v : Int) : QueueTab :=
  update t i { t i with qkey := v }

def qnext (t : QueueTab) (i : Int) : Int := (t i).qnext
def qprev (t : QueueTab) (i : Int) : Int := (t i).qprev
def qkey (t : QueueTab) (i : Int) : Int := (t i).qkey

end QueueTab

/-! ## Inline functions -/

def queuehead (q : Int) : Int := q
def queuetail (q : Int) : Int := q + 1
def firstid (t : QueueTab) (q : Int) : Int := t.qnext (queuehead q)
def lastid (t : QueueTab) (q : Int) : Int := t.qprev (queuetail q)
def isempty (t : QueueTab) (q : Int) : Prop := firstid t q ≥ nproc
def nonempty (t : QueueTab) (q : Int) : Prop := firstid t q < nproc
def firstkey (t : QueueTab) (q : Int) : Int := t.qkey (firstid t q)
def lastkey (t : QueueTab) (q : Int) : Int := t.qkey (lastid t q)

instance (t : QueueTab) (q : Int) : Decidable (isempty t q) :=
  inferInstanceAs (Decidable (_ ≥ _))

instance (t : QueueTab) (q : Int) : Decidable (nonempty t q) :=
  inferInstanceAs (Decidable (_ < _))

/-- Change the queue table. -/
def onQueues (f : QueueTab → QueueTab) : KernelM Unit :=
  modify fun s => { s with queuetab := f s.queuetab }

/-! ## queue.c and getitem.c -/

/-- Insert a process at the tail of a queue. -/
def enqueue (pid q : Int) : KernelM Int := do
  let s ← get
  if isbadqid q ∨ isbadpid s pid then
    return syserr
  let tail := queuetail q
  let prev := s.queuetab.qprev tail
  onQueues (·.setQnext pid tail)
  onQueues (·.setQprev pid prev)
  onQueues (·.setQnext prev pid)
  onQueues (·.setQprev tail pid)
  return pid

/-- Remove a process from an arbitrary point in a queue. -/
def getitem (pid : Int) : KernelM Int := do
  let s ← get
  let next := s.queuetab.qnext pid
  let prev := s.queuetab.qprev pid
  onQueues (·.setQnext prev next)
  onQueues (·.setQprev next prev)
  return pid

/-- Remove a process from the front of a queue. -/
def getfirst (q : Int) : KernelM Int := do
  let s ← get
  if isempty s.queuetab q then
    return empty
  getitem (s.queuetab.qnext (queuehead q))

/-- Remove a process from the end of a queue. -/
def getlast (q : Int) : KernelM Int := do
  let s ← get
  if isempty s.queuetab q then
    return empty
  getitem (s.queuetab.qprev (queuetail q))

/-- Remove and return the first process on a list. -/
def dequeue (q : Int) : KernelM Int := do
  let s ← get
  if isbadqid q then
    return syserr
  if isempty s.queuetab q then
    return empty
  let pid ← getfirst q
  onQueues (·.setQprev pid empty)
  onQueues (·.setQnext pid empty)
  return pid

/-! ## insert.c -/

/-- More nodes than a queue has, sentinels included. -/
def queueFuel : Nat := nqent.toNat

/-- The loop of `insert`: the first node, from `curr` on, whose key is less than `key`. -/
def insertLoop (t : QueueTab) (key : Int) : Nat → Int → Option Int
  | 0, _ => none
  | fuel + 1, curr =>
      if t.qkey curr ≥ key then insertLoop t key fuel (t.qnext curr) else some curr

/-- Insert a process into a queue in descending key order. -/
def insert (pid q key : Int) : KernelM Int := do
  let s ← get
  if isbadqid q ∨ isbadpid s pid then
    return syserr
  match insertLoop s.queuetab key queueFuel (firstid s.queuetab q) with
  | none => Coop.diverge
  | some curr =>
      -- insert process between curr node and previous node
      let prev := s.queuetab.qprev curr
      onQueues (·.setQnext pid curr)
      onQueues (·.setQprev pid prev)
      onQueues (·.setQkey pid key)
      onQueues (·.setQnext prev pid)
      onQueues (·.setQprev curr pid)
      return ok

/-! ## insertd.c -/

/-- The loop of `insertd`: what is left of the delay `key` when the next node is
`next`, with the two nodes between which the process belongs. -/
def insertdLoop (t : QueueTab) (q : Int) : Nat → Int → Int → Int → Option (Int × Int × Int)
  | 0, _, _, _ => none
  | fuel + 1, key, prev, next =>
      if next ≠ queuetail q ∧ t.qkey next ≤ key then
        insertdLoop t q fuel (i32 (key - t.qkey next)) next (t.qnext next)
      else
        some (key, prev, next)

/-- Insert a process in a delta list using delay as the key. -/
def insertd (pid q key : Int) : KernelM Int := do
  let s ← get
  if isbadqid q ∨ isbadpid s pid then
    return syserr
  match insertdLoop s.queuetab q queueFuel key (queuehead q)
      (s.queuetab.qnext (queuehead q)) with
  | none => Coop.diverge
  | some (key, prev, next) =>
      -- insert new node between prev and next nodes
      onQueues (·.setQnext pid next)
      onQueues (·.setQprev pid prev)
      onQueues (·.setQkey pid key)
      onQueues (·.setQnext prev pid)
      onQueues (·.setQprev next pid)
      if next ≠ queuetail q then
        onQueues fun t => t.setQkey next (i32 (t.qkey next - key))
      return ok

/-! ## newqueue.c -/

/-- Allocate and initialize a queue in the global queue table. -/
def newqueue : KernelM Int := do
  let s ← get
  let q := s.nextqid
  if q > nqent then
    return syserr
  modify fun s => { s with nextqid := s.nextqid + 2 }
  -- initialize head and tail nodes to form an empty queue
  onQueues (·.setQnext (queuehead q) (queuetail q))
  onQueues (·.setQprev (queuehead q) empty)
  onQueues (·.setQkey (queuehead q) maxkey)
  onQueues (·.setQnext (queuetail q) empty)
  onQueues (·.setQprev (queuetail q) (queuehead q))
  onQueues (·.setQkey (queuetail q) minkey)
  return q

end Xinu
