import Xinu.Memory.Requests
import Xinu.Kernel.BufferPool
import Xinu.Kernel.Ports
import Xinu.Kernel.ProcessSpec
import Xinu.Kernel.QueueInvariant

/-!
# Creations that fail

`create`, `mkbufpool` and `ptcreate` take several resources one after the other.  When a
later one is missing, what was taken before is not given back.

Main results:

- Theorem `creations_iff`: when a creation that fails leaves everything as it was.
- Theorem `creations_leak`: for each of the three, a failure that does not.
-/

namespace Xinu

open Foundations Function

/-- The kernel with its tables of buffer pools and ports. -/
structure Resources where
  cpu : Cpu
  pools : Pools
  ports : Ports

namespace Resources

instance : HasCpu Resources where
  cpu := Resources.cpu
  setCpu t s := { t with cpu := s }
  cpu_setCpu _ _ := rfl

instance : HasPools Resources where
  pools := Resources.pools
  setPools t s := { t with pools := s }

instance : HasPorts Resources where
  ports := Resources.ports
  setPorts t s := { t with ports := s }

def kernel (t : Resources) : Kernel :=
  t.cpu.kernel

@[simp]
theorem ports_eq (t : Resources) : HasPorts.ports t = t.ports :=
  rfl

@[simp]
theorem setPorts_eq (t : Resources) (p : Ports) : HasPorts.setPorts t p = { t with ports := p } :=
  rfl

end Resources

/-! ## What a creation is to leave -/

/-- Where `create` fails, the free list, the states of the processes and their number are
those of before. -/
def CreateLeaves (s : Kernel) (l : List Span) (ssize : Nat) (priority : Int16) : Prop :=
  ∀ s', create ssize priority s = .done syserr s' →
    Memory.FreeList s'.heap l ∧ (∀ p, s'.state p = s.state p) ∧ s'.prcount = s.prcount

/-- Where `mkbufpool` fails, the free list, the number of pools and the semaphores are those
of before. -/
def MkbufpoolLeaves (t : Resources) (l : List Span) (bufsiz numbufs : Int) : Prop :=
  ∀ t', mkbufpool bufsiz numbufs t = .done syserr t' →
    Memory.FreeList t'.kernel.heap l ∧ t'.pools.nbpools = t.pools.nbpools ∧
      t'.kernel.semtab = t.kernel.semtab

/-- There are two semaphores to be had. -/
def TwoSems (s : Kernel) : Prop :=
  ∃ x y, x ≠ y ∧ FreeSem s x ∧ FreeSem s y

/-- Where there are not two semaphores to be had, `ptcreate` fails, and the ports and the
semaphores are those of before. -/
def PtcreateLeaves (t : Resources) (count : Int) : Prop :=
  ¬ TwoSems t.kernel → ∃ t', ptcreate count t = .done syserr t' ∧
    t'.ports.porttab = t.ports.porttab ∧ t'.kernel.semtab = t.kernel.semtab

/-! ## Processes -/

section Create

variable {s : Kernel} {l : List Span} {ssize : Nat} {priority : Int16}

/-- There is a free slot for a process. -/
def FreeSlot (s : Kernel) : Prop :=
  ∃ p, IsPid p ∧ s.state p = .prFree

/-- `create`, once it has a stack. -/
theorem create_after {m : Memory.Heap} {a : Nat}
    (hstk : Memory.getstk (stackSize ssize) s.heap = .done (some a) m) :
    (¬ (FreeSlot s ∧ 1 ≤ priority.toInt) ∧
      ∃ k, create ssize priority s = .done syserr { s with heap := m, nextpid := k }) ∨
    (FreeSlot s ∧ 1 ≤ priority.toInt) ∧
      ∃ pid s', pid ≠ syserr ∧ create ssize priority s = .done pid s' := by
  obtain ⟨k, hnew⟩ := newpidLoop_rotate nproc.toNat { s with heap := m }
  have hrun := create_some priority hstk hnew
  cases hr : rotate (fun p => decide (({ s with heap := m } : Kernel).state p = .prFree)) nproc
      nproc.toNat s.nextpid with
  | none =>
      have hnone : rotate (fun p => decide (({ s with heap := m } : Kernel).state p = .prFree)) nproc
        nproc.toNat ({ s with heap := m } : Kernel).nextpid = none := hr
      rw [hnone, Option.getD_none, if_pos (Or.inl rfl)] at hrun
      left
      refine ⟨?_, k, hrun⟩
      rintro ⟨⟨p, hp, hfree⟩, -⟩
      have hfalse := (rotate_eq_none_iff (by decide)).mp hr p hp.1 hp.2
      exact of_decide_eq_false hfalse hfree
  | some pid =>
      have hsome : rotate (fun p => decide (({ s with heap := m } : Kernel).state p = .prFree)) nproc
        nproc.toNat ({ s with heap := m } : Kernel).nextpid = some pid := hr
      obtain ⟨hlow, hhigh, hfree⟩ := rotate_some (by decide) hr
      have hpid : pid ≠ syserr := by
        unfold syserr
        omega
      rw [hsome, Option.getD_some] at hrun
      by_cases hprio : priority.toInt < 1
      · rw [if_pos (Or.inr hprio)] at hrun
        exact Or.inl ⟨fun hand => by omega, k, hrun⟩
      · rw [if_neg (not_or.mpr ⟨hpid, hprio⟩)] at hrun
        exact Or.inr ⟨⟨⟨pid, ⟨hlow, hhigh⟩, of_decide_eq_true hfree⟩, by omega⟩, pid, _, hpid, hrun⟩

theorem createLeaves_iff (h : Memory.FreeList s.heap l) :
    CreateLeaves s l ssize priority ↔
      (Memory.Fits l (stackSize ssize) → FreeSlot s ∧ 1 ≤ priority.toInt) := by
  rcases h.getstk_cases (stackSize ssize) with
    ⟨hnot, r, m, hstk, hsame⟩ | ⟨hfits, a, m, l', hstk, -, hchanged⟩
  · refine ⟨fun _ hfits => (hnot hfits).elim, fun _ s' hrun => ?_⟩
    cases r with
    | none =>
        rw [create_none priority hstk] at hrun
        cases hrun
        exact ⟨hsame, fun _ => rfl, rfl⟩
    | some a =>
        rcases create_after hstk with
          ⟨-, k, hfail⟩ | ⟨-, pid, s'', hpid, hdone⟩
        · rw [hfail] at hrun
          cases hrun
          exact ⟨hsame, fun _ => rfl, rfl⟩
        · rw [hdone] at hrun
          cases hrun
          exact (hpid rfl).elim
  · rcases create_after hstk with
      ⟨hno, k, hfail⟩ | ⟨hyes, pid, s'', hpid, hdone⟩
    · constructor
      · exact fun hleaves => (hchanged (hleaves _ hfail).1).elim
      · exact fun hcond => (hno (hcond hfits)).elim
    · refine ⟨fun _ _ => hyes, fun _ s' hrun => ?_⟩
      rw [hdone] at hrun
      cases hrun
      exact (hpid rfl).elim

end Create

/-! ## Buffer pools -/

section Pools

variable {t : Resources} {l : List Span} {bufsiz numbufs : Int}

/-- A procedure of the kernel that returns. -/
theorem onKernel_done {α : Type} {x : KernelM α} {a : α} {s : Kernel}
    (h : x t.kernel = .done a s) : (onKernel x : Coop Resources α) t = .done a (withKernel t s) := by
  have hx : x (kernelOf t) = .done a s := h
  rw [run_onKernel, hx]
  rfl

/-- `mkbufpool` gets as far as to ask for memory. -/
def PoolArgs (t : Resources) (bufsiz numbufs : Int) : Prop :=
  ¬ (bufsiz < bpMinb ∨ bufsiz > bpMaxb ∨ numbufs < 1 ∨ numbufs > bpMaxn ∨
    t.pools.nbpools ≥ nbpoolsMax)

instance (t : Resources) (bufsiz numbufs : Int) : Decidable (PoolArgs t bufsiz numbufs) :=
  inferInstanceAs (Decidable (¬ _))

/-- The number of bytes it asks for. -/
def poolSize (bufsiz numbufs : Int) : Nat :=
  (numbufs * ((bufsiz + 3) / 4 * 4 + sizeofBpid)).toNat

theorem mkbufpoolLoop_done (b n buf : Nat) (t : Resources) :
    ∃ t', (mkbufpoolLoop b n buf : Coop Resources Unit) t = .done () t' := by
  induction n generalizing buf t with
  | zero => exact ⟨_, rfl⟩
  | succ n ih =>
      obtain ⟨t', hrun⟩ := ih (buf + b)
        (HasPools.setPools t { t.pools with word := update t.pools.word buf (buf + b : Nat) })
      exact ⟨t', hrun⟩

/-- The state after `mkbufpool` has taken a buffer area and an entry of the table. -/
def withPool (t : Resources) (m : Memory.Heap) (buf : Nat) (bufsiz : Int) : Resources :=
  let u := withKernel (withMask t false) { t.kernel with heap := m }
  { u with pools := { u.pools with
      nbpools := u.pools.nbpools + 1
      buftab := update u.pools.buftab u.pools.nbpools
        { u.pools.buftab u.pools.nbpools with bpnext := buf, bpsize := bufsiz } } }

/-- `mkbufpool`, once it has a buffer area. -/
theorem mkbufpool_some {m : Memory.Heap} {buf : Nat} (hargs : PoolArgs t bufsiz numbufs)
    (hmem : Memory.getmem (poolSize bufsiz numbufs) t.kernel.heap = .done (some buf) m) :
    mkbufpool bufsiz numbufs t =
      (onKernel (semcreate numbufs) (withPool t m buf ((bufsiz + 3) / 4 * 4))).bind fun sem =>
        (do
          setBpentry t.pools.nbpools fun e => { e with bpsem := sem }
          if sem = syserr then
            onPools fun s => { s with nbpools := s.nbpools - 1 }
            restore (maskOf t t.kernel.currpid)
            return syserr
          mkbufpoolLoop (((bufsiz + 3) / 4 * 4).toNat + sizeofBpid) (numbufs.toNat - 1) buf
          restore (maskOf t t.kernel.currpid)
          return t.pools.nbpools : Coop Resources Int) := by
  have hheap : (onHeap (Memory.getmem (poolSize bufsiz numbufs)) : KernelM _)
      (withMask t false).kernel = .done (some buf) { t.kernel with heap := m } :=
    onHeap_done hmem
  have hargs' : ¬ (bufsiz < bpMinb ∨ bufsiz > bpMaxb ∨ numbufs < 1 ∨ numbufs > bpMaxn ∨
      (HasPools.pools (withMask t false)).nbpools ≥ nbpoolsMax) := hargs
  unfold mkbufpool
  rw [Coop.run_bind, run_disable, Flow.bind_done, Coop.run_bind, Coop.run_get, Flow.bind_done,
    Coop.run_ite, if_neg hargs']
  dsimp only
  rw [Coop.run_bind]
  have hmem' := onKernel_done (t := withMask t false) hheap
  unfold poolSize at hmem'
  rw [hmem', Flow.bind_done]
  rfl

theorem mkbufpool_none {m : Memory.Heap} (hargs : PoolArgs t bufsiz numbufs)
    (hmem : Memory.getmem (poolSize bufsiz numbufs) t.kernel.heap = .done none m) :
    mkbufpool bufsiz numbufs t = .done syserr
      (withMask (withKernel (withMask t false) { t.kernel with heap := m })
        (maskOf t t.kernel.currpid)) := by
  have hheap : (onHeap (Memory.getmem (poolSize bufsiz numbufs)) : KernelM _)
      (withMask t false).kernel = .done none { t.kernel with heap := m } :=
    onHeap_done hmem
  have hargs' : ¬ (bufsiz < bpMinb ∨ bufsiz > bpMaxb ∨ numbufs < 1 ∨ numbufs > bpMaxn ∨
      (HasPools.pools (withMask t false)).nbpools ≥ nbpoolsMax) := hargs
  unfold mkbufpool
  rw [Coop.run_bind, run_disable, Flow.bind_done, Coop.run_bind, Coop.run_get, Flow.bind_done,
    Coop.run_ite, if_neg hargs']
  dsimp only
  rw [Coop.run_bind]
  have hmem' := onKernel_done (t := withMask t false) hheap
  unfold poolSize at hmem'
  rw [hmem', Flow.bind_done]
  rfl

theorem mkbufpool_refused (hargs : ¬ PoolArgs t bufsiz numbufs) :
    mkbufpool bufsiz numbufs t = .done syserr
      (withMask (withMask t false) (maskOf t t.kernel.currpid)) := by
  have hargs' : bufsiz < bpMinb ∨ bufsiz > bpMaxb ∨ numbufs < 1 ∨ numbufs > bpMaxn ∨
      (HasPools.pools (withMask t false)).nbpools ≥ nbpoolsMax := not_not.mp hargs
  unfold mkbufpool
  rw [Coop.run_bind, run_disable, Flow.bind_done, Coop.run_bind, Coop.run_get, Flow.bind_done,
    Coop.run_ite, if_pos hargs']
  rfl

/-- The kernel while a pool is made. -/
theorem kernel_withPool (m : Memory.Heap) (buf : Nat) (b : Int) :
    (withPool t m buf b).kernel = { t.kernel with heap := m } :=
  rfl

/-- `mkbufpool`, once it has a buffer area, fails if and only if no semaphore is free. -/
theorem mkbufpool_after {m : Memory.Heap} {buf : Nat} (hargs : PoolArgs t bufsiz numbufs)
    (hmem : Memory.getmem (poolSize bufsiz numbufs) t.kernel.heap = .done (some buf) m)
    (hlow : 0 ≤ t.kernel.nextsem) (hhigh : t.kernel.nextsem < nsem) :
    ((∀ x, ¬ FreeSem t.kernel x) ∧ ∃ t', mkbufpool bufsiz numbufs t = .done syserr t' ∧
      t'.kernel.heap = m ∧ t'.pools.nbpools = t.pools.nbpools ∧
      t'.kernel.semtab = t.kernel.semtab) ∨
    (∃ x, FreeSem t.kernel x) ∧ ∃ t', mkbufpool bufsiz numbufs t = .done t.pools.nbpools t' := by
  have hrun := mkbufpool_some hargs hmem
  have hnum : 0 ≤ numbufs := by
    unfold PoolArgs at hargs
    omega
  generalize hu : withPool t m buf ((bufsiz + 3) / 4 * 4) = u at hrun
  have hkernel : u.kernel = { t.kernel with heap := m } := by
    rw [← hu]
    exact kernel_withPool m buf _
  have hnb : u.pools.nbpools = t.pools.nbpools + 1 := by
    rw [← hu]
    rfl
  rcases semcreate_cases (s := { t.kernel with heap := m }) hnum hlow hhigh with
    ⟨hnone, k, hsem⟩ | ⟨x, s', hfree, hsem, -⟩
  · left
    rw [← hkernel] at hsem
    rw [onKernel_done hsem, Flow.bind_done, Coop.run_bind] at hrun
    refine ⟨hnone, _, hrun, ?_, ?_, ?_⟩
    · show u.kernel.heap = m
      rw [hkernel]
    · show u.pools.nbpools - 1 = t.pools.nbpools
      omega
    · show u.kernel.semtab = t.kernel.semtab
      rw [hkernel]
  · right
    have hne : x ≠ syserr := by
      rintro rfl
      exact hfree.1 (by decide)
    rw [← hkernel] at hsem
    rw [onKernel_done hsem, Flow.bind_done, Coop.run_bind] at hrun
    refine ⟨⟨x, hfree⟩, ?_⟩
    rw [hrun]
    show ∃ t', (if x = syserr then _ else _ : Coop Resources Int) _ = .done _ t'
    rw [if_neg hne, Coop.run_bind]
    obtain ⟨t', hloop⟩ := mkbufpoolLoop_done (((bufsiz + 3) / 4 * 4).toNat + sizeofBpid)
      (numbufs.toNat - 1) buf _
    rw [hloop]
    exact ⟨_, rfl⟩

theorem mkbufpoolLeaves_iff (h : Memory.FreeList t.kernel.heap l) (hlow : 0 ≤ t.kernel.nextsem)
    (hhigh : t.kernel.nextsem < nsem) (hpools : 0 ≤ t.pools.nbpools) :
    MkbufpoolLeaves t l bufsiz numbufs ↔
      (PoolArgs t bufsiz numbufs → Memory.Fits l (poolSize bufsiz numbufs) →
        ∃ x, FreeSem t.kernel x) := by
  have hid : t.pools.nbpools ≠ syserr := by
    unfold syserr
    omega
  by_cases hargs : PoolArgs t bufsiz numbufs
  · rcases h.getmem_cases (poolSize bufsiz numbufs) with
      ⟨hnot, r, m, hmem, hsame⟩ | ⟨hfits, buf, m, l', hmem, -, hchanged⟩
    · refine ⟨fun _ _ hfits => (hnot hfits).elim, fun _ t' hrun => ?_⟩
      cases r with
      | none =>
          rw [mkbufpool_none hargs hmem] at hrun
          cases hrun
          exact ⟨hsame, rfl, rfl⟩
      | some buf =>
          rcases mkbufpool_after hargs hmem hlow hhigh with
            ⟨-, u, hfail, hheap, hnb, hsems⟩ | ⟨-, u, hdone⟩
          · rw [hfail] at hrun
            cases hrun
            exact ⟨hheap ▸ hsame, hnb, hsems⟩
          · rw [hdone] at hrun
            exact (hid (Flow.done.inj hrun).1).elim
    · rcases mkbufpool_after hargs hmem hlow hhigh with
        ⟨hnone, u, hfail, hheap, -⟩ | ⟨hsem, u, hdone⟩
      · constructor
        · intro hleaves
          have hsame := (hleaves u hfail).1
          rw [hheap] at hsame
          exact (hchanged hsame).elim
        · intro hcond
          obtain ⟨x, hx⟩ := hcond hargs hfits
          exact (hnone x hx).elim
      · refine ⟨fun _ _ _ => hsem, fun _ t' hrun => ?_⟩
        rw [hdone] at hrun
        exact (hid (Flow.done.inj hrun).1).elim
  · refine ⟨fun _ hyes => (hargs hyes).elim, fun _ t' hrun => ?_⟩
    rw [mkbufpool_refused hargs] at hrun
    cases hrun
    exact ⟨h, rfl, rfl⟩

end Pools

/-! ## Ports -/

section Ports

variable {t : Resources} {count : Int}

/-- There is a free port. -/
def FreePort (t : Resources) : Prop :=
  ∃ x, 0 ≤ x ∧ x < nports ∧ (t.ports.porttab x).ptstate = .ptFree

/-- The state after the cursor of `ptcreate` has moved on. -/
def withNextid (t : Resources) (k : Int) : Resources :=
  { t with ports := { t.ports with ptnextid := k } }

/-- A port that is found free is taken, whatever becomes of its semaphores. -/
theorem ptcreate_takes (x : Int) (t : Resources) :
    ∃ t', (do
      setPtentry x fun e => { e with ptstate := .ptAlloc }
      let ssem ← onKernel (semcreate count)
      setPtentry x fun e => { e with ptssem := ssem }
      let rsem ← onKernel (semcreate 0)
      setPtentry x fun e => { e with ptrsem := rsem }
      setPtentry x fun e => { e with pthead := Memory.null, pttail := Memory.null }
      setPtentry x fun e => { e with ptseq := i32 (e.ptseq + 1) }
      setPtentry x fun e => { e with ptmaxcnt := .ofNat count.toNat }
      return x : Coop Resources Int) t = .done x t' := by
  have hset : ∀ (f : Ptentry → Ptentry) (u : Resources), ∃ u',
      (setPtentry x f : Coop Resources Unit) u = .done () u' := fun f u => ⟨_, rfl⟩
  have hsem : ∀ (n : Int) (u : Resources), ∃ v u',
      (onKernel (semcreate n) : Coop Resources Int) u = .done v u' := by
    intro n u
    obtain ⟨v, s', hrun⟩ := semcreate_done n u.kernel
    exact ⟨v, _, onKernel_done hrun⟩
  obtain ⟨t₁, h₁⟩ := hset (fun e => { e with ptstate := .ptAlloc }) t
  obtain ⟨ssem, t₂, h₂⟩ := hsem count t₁
  obtain ⟨t₃, h₃⟩ := hset (fun e => { e with ptssem := ssem }) t₂
  obtain ⟨rsem, t₄, h₄⟩ := hsem 0 t₃
  rw [Coop.run_bind, h₁, Flow.bind_done, Coop.run_bind, h₂, Flow.bind_done, Coop.run_bind, h₃,
    Flow.bind_done, Coop.run_bind, h₄]
  exact ⟨_, rfl⟩

/-- One round of the loop of `ptcreate`. -/
theorem ptcreateLoop_succ (i : Nat) {k : Int}
    (hk : (if t.ports.ptnextid + 1 ≥ nports then 0 else t.ports.ptnextid + 1) = k) :
    ptcreateLoop count (i + 1) t =
      (if (t.ports.porttab t.ports.ptnextid).ptstate = .ptFree then (do
        setPtentry t.ports.ptnextid fun e => { e with ptstate := .ptAlloc }
        let ssem ← onKernel (semcreate count)
        setPtentry t.ports.ptnextid fun e => { e with ptssem := ssem }
        let rsem ← onKernel (semcreate 0)
        setPtentry t.ports.ptnextid fun e => { e with ptrsem := rsem }
        setPtentry t.ports.ptnextid fun e => { e with pthead := Memory.null, pttail := Memory.null }
        setPtentry t.ports.ptnextid fun e => { e with ptseq := i32 (e.ptseq + 1) }
        setPtentry t.ports.ptnextid fun e => { e with ptmaxcnt := .ofNat count.toNat }
        return t.ports.ptnextid : Coop Resources Int) (withNextid t k)
      else ptcreateLoop count i (withNextid t k)) := by
  rw [ptcreateLoop, Coop.run_bind, Coop.run_get, Flow.bind_done, Coop.run_bind]
  by_cases hwrap : t.ports.ptnextid + 1 ≥ nports
  · rw [if_pos hwrap] at hk
    subst hk
    by_cases hfree : (t.ports.porttab t.ports.ptnextid).ptstate = .ptFree
    · simp [onPorts, withNextid, hwrap, hfree]
    · simp [onPorts, withNextid, hwrap, hfree]
  · rw [if_neg hwrap] at hk
    subst hk
    by_cases hfree : (t.ports.porttab t.ports.ptnextid).ptstate = .ptFree
    · simp [onPorts, withNextid, hwrap, hfree]
    · simp [onPorts, withNextid, hwrap, hfree]

/-- The search of `ptcreate` goes through the table from its cursor on. -/
theorem ptcreateLoop_rotate (i : Nat) (hlow : 0 ≤ t.ports.ptnextid)
    (hhigh : t.ports.ptnextid < nports) :
    match rotate (fun x => decide ((t.ports.porttab x).ptstate = .ptFree)) nports i
      t.ports.ptnextid with
    | none => ∃ k, ptcreateLoop count i t = .done syserr (withNextid t k)
    | some x => ∃ t', ptcreateLoop count i t = .done x t' := by
  induction i generalizing t with
  | zero => exact ⟨t.ports.ptnextid, rfl⟩
  | succ i ih =>
      obtain ⟨k, hk⟩ : ∃ k, (if t.ports.ptnextid + 1 ≥ nports then 0 else t.ports.ptnextid + 1) = k :=
        ⟨_, rfl⟩
      have hnext : 0 ≤ k ∧ k < nports := by
        rw [← hk]
        split
        · exact ⟨Int.le_refl 0, by decide⟩
        · omega
      rw [rotate_wrap hlow hhigh, ptcreateLoop_succ i hk, hk]
      by_cases hfree : (t.ports.porttab t.ports.ptnextid).ptstate = .ptFree
      · rw [if_pos hfree, if_pos (decide_eq_true hfree)]
        exact ptcreate_takes _ _
      · rw [if_neg hfree, if_neg (by simpa using hfree)]
        exact ih (t := withNextid t k) hnext.1 hnext.2

theorem ptcreate_negative (hneg : count < 0) : ptcreate count t =
    .done syserr (withMask (withMask t false) (maskOf t t.kernel.currpid)) := by
  unfold ptcreate
  rw [Coop.run_bind, run_disable, Flow.bind_done, Coop.run_ite, if_pos hneg]
  rfl

theorem ptcreate_done {v : Int} {t' : Resources} (hcount : ¬ count < 0)
    (hloop : ptcreateLoop count nports.toNat (withMask t false) = .done v t') :
    ptcreate count t = .done v (withMask t' (maskOf t t.kernel.currpid)) := by
  unfold ptcreate
  rw [Coop.run_bind, run_disable, Flow.bind_done, Coop.run_ite, if_neg hcount, Coop.run_bind, hloop]
  rfl

theorem ptcreateLeaves_iff (hlow : 0 ≤ t.ports.ptnextid) (hhigh : t.ports.ptnextid < nports) :
    PtcreateLeaves t count ↔ TwoSems t.kernel ∨ count < 0 ∨ ¬ FreePort t := by
  by_cases hneg : count < 0
  · exact ⟨fun _ => Or.inr (Or.inl hneg), fun _ _ => ⟨_, ptcreate_negative hneg, rfl, rfl⟩⟩
  have hloop := @ptcreateLoop_rotate (withMask t false) count nports.toNat hlow hhigh
  cases hr : rotate (fun x => decide ((t.ports.porttab x).ptstate = .ptFree)) nports nports.toNat
      t.ports.ptnextid with
  | none =>
      have hr' : rotate (fun x => decide (((withMask t false).ports.porttab x).ptstate = .ptFree))
        nports nports.toNat (withMask t false).ports.ptnextid = none := hr
      rw [hr'] at hloop
      obtain ⟨k, hrun⟩ := hloop
      have hfull : ¬ FreePort t := by
        rintro ⟨x, hxlow, hxhigh, hfree⟩
        have hfalse := (rotate_eq_none_iff (by decide)).mp hr x hxlow hxhigh
        exact of_decide_eq_false hfalse hfree
      exact ⟨fun _ => Or.inr (Or.inr hfull), fun _ _ => ⟨_, ptcreate_done hneg hrun, rfl, rfl⟩⟩
  | some x =>
      have hr' : rotate (fun x => decide (((withMask t false).ports.porttab x).ptstate = .ptFree))
        nports nports.toNat (withMask t false).ports.ptnextid = some x := hr
      rw [hr'] at hloop
      obtain ⟨u, hrun⟩ := hloop
      obtain ⟨hxlow, hxhigh, hfree⟩ := rotate_some (by decide) hr
      have hport : FreePort t := ⟨x, hxlow, hxhigh, of_decide_eq_true hfree⟩
      constructor
      · intro hleaves
        by_contra hcon
        obtain ⟨t', hfail, -⟩ := hleaves fun htwo => hcon (Or.inl htwo)
        rw [ptcreate_done hneg hrun] at hfail
        have hx := (Flow.done.inj hfail).1
        unfold syserr at hx
        omega
      · rintro (htwo | hcount | hno)
        · exact fun hnot => (hnot htwo).elim
        · exact (hneg hcount).elim
        · exact (hno hport).elim

end Ports

/-! ## All three -/

/-- The free list is `l`, and the cursors and the number of pools are in range. -/
structure Steady (t : Resources) (l : List Span) : Prop where
  free : Memory.FreeList t.kernel.heap l
  nextsem_nonneg : 0 ≤ t.kernel.nextsem
  nextsem_lt : t.kernel.nextsem < nsem
  ptnextid_nonneg : 0 ≤ t.ports.ptnextid
  ptnextid_lt : t.ports.ptnextid < nports
  nbpools_nonneg : 0 ≤ t.pools.nbpools

/--
A `create` that fails leaves things as they were if and only if no stack is to be had or
there is a slot and the priority is positive; `mkbufpool`, if and only if it does not get a
buffer area or a semaphore is free; and `ptcreate` fails without two free semaphores if and
only if the count is negative or no port is free.
-/
theorem creations_iff {t : Resources} {l : List Span} (h : Steady t l) :
    (∀ ssize priority, CreateLeaves t.kernel l ssize priority ↔
      (Memory.Fits l (stackSize ssize) → FreeSlot t.kernel ∧ 1 ≤ priority.toInt)) ∧
    (∀ bufsiz numbufs, MkbufpoolLeaves t l bufsiz numbufs ↔
      (PoolArgs t bufsiz numbufs → Memory.Fits l (poolSize bufsiz numbufs) →
        ∃ x, FreeSem t.kernel x)) ∧
    ∀ count, PtcreateLeaves t count ↔ TwoSems t.kernel ∨ count < 0 ∨ ¬ FreePort t := by
  refine ⟨fun _ _ => createLeaves_iff h.free, fun _ _ => ?_, fun _ => ?_⟩
  · exact mkbufpoolLeaves_iff h.free h.nextsem_nonneg h.nextsem_lt h.nbpools_nonneg
  · exact ptcreateLeaves_iff h.ptnextid_nonneg h.ptnextid_lt

/-- A system in which all semaphores are used. -/
def usedUp : Resources where
  cpu := ⟨{ boot smallBoard with
    semtab := fun _ => ⟨.sUsed, 0, 0⟩
    heap := Memory.meminit 8 65544 0 fun _ => ⟨0, 0⟩
    nextsem := 0 }, fun _ => true⟩
  pools := ⟨fun _ => ⟨0, 0, 0⟩, 0, fun _ => 0⟩
  ports := ⟨fun _ => ⟨0, 0, .ptFree, 0, 0, 0, 0⟩, 0⟩

theorem steady_usedUp : Steady usedUp [⟨8, 65536⟩] := by
  refine ⟨⟨by decide, by decide, ⟨⟨rfl, rfl⟩, rfl⟩, Separated.singleton (by decide), ?_, ?_⟩,
    by decide, by decide, by decide, by decide, by decide⟩
  · intro b hb
    rw [List.mem_singleton.mp hb]
    decide
  · intro b hb
    rw [List.mem_singleton.mp hb]
    decide

theorem creations_usedUp :
    (∀ ssize priority, CreateLeaves usedUp.kernel [⟨8, 65536⟩] ssize priority ↔
      (Memory.Fits [⟨8, 65536⟩] (stackSize ssize) →
        FreeSlot usedUp.kernel ∧ 1 ≤ priority.toInt)) ∧
    (∀ bufsiz numbufs, MkbufpoolLeaves usedUp [⟨8, 65536⟩] bufsiz numbufs ↔
      (PoolArgs usedUp bufsiz numbufs → Memory.Fits [⟨8, 65536⟩] (poolSize bufsiz numbufs) →
        ∃ x, FreeSem usedUp.kernel x)) ∧
    ∀ count, PtcreateLeaves usedUp count ↔
      TwoSems usedUp.kernel ∨ count < 0 ∨ ¬ FreePort usedUp :=
  creations_iff steady_usedUp

/-- A priority of zero costs a stack, a pool without a semaphore costs its buffers, and a
port without semaphores is handed out. -/
theorem creations_leak : ¬ CreateLeaves usedUp.kernel [⟨8, 65536⟩] 1024 0 ∧
    ¬ MkbufpoolLeaves usedUp [⟨8, 65536⟩] 64 4 ∧ ¬ PtcreateLeaves usedUp 5 := by
  have hused : ∀ x, ¬ FreeSem usedUp.kernel x := by
    rintro x ⟨-, hfree⟩
    have hst : SState.sUsed = .sFree := hfree
    contradiction
  have h := steady_usedUp
  refine ⟨?_, ?_, ?_⟩
  · rw [createLeaves_iff h.free]
    intro hcond
    exact absurd (hcond (by decide)).2 (by decide)
  · rw [mkbufpoolLeaves_iff h.free h.nextsem_nonneg h.nextsem_lt h.nbpools_nonneg]
    intro hcond
    obtain ⟨x, hx⟩ := hcond (by decide) (by decide)
    exact hused x hx
  · rw [ptcreateLeaves_iff h.ptnextid_nonneg h.ptnextid_lt]
    rintro (⟨x, -, -, hx, -⟩ | hneg | hno)
    · exact hused x hx
    · exact absurd hneg (by decide)
    · exact hno ⟨0, by decide, by decide, rfl⟩

end Xinu
