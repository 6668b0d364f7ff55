import Xinu.Kernel.Creation

/-!
# Allocators that go around

`newpid`, `newsem` and the search of `ptcreate` look for a free entry from where the last
search stopped.  The sizes of the tables are set by the configuration, so the three are
given here for tables of any size, with a record of the entries that they examine; at the
sizes of the kernel they are its own.

Main results:

- Theorem `Rotating.allocators_find`: each finds a free entry whenever there is one, examines
  every entry once before it gives up, and leaves its cursor in range.
- Theorems `Rotating.newpid_kernel`, `Rotating.newsem_kernel` and
  `Rotating.ptcreate_ports`: the kernel's own searches.
-/

namespace Xinu

open Foundations Function

/-- The number of entries of a table whose indices are words. -/
structure TableSize where
  size : Int
  pos : 0 < size
  lt : size < 0x80000000

/-- A table and the static cursor of its search.  `examined` lists the entries that have
been looked at; it is kept for the specification. -/
structure CursorTable (ε : Type) where
  entry : Int → ε
  cursor : Int
  examined : List Int

namespace Rotating

variable {ε : Type}

/-- An entry is looked at. -/
def examine (x : Int) (t : CursorTable ε) : CursorTable ε :=
  { t with examined := t.examined ++ [x] }

/-! ## create.c -/

/-- The loop of `newpid` in a table of `n` processes, with so many left to check. -/
def newpidLoop (n : Int) : Nat → CursorTable Procent → Int × CursorTable Procent
  | 0, t => (syserr, t)
  | i + 1, t =>
      -- wrap around to beginning
      let t := { t with cursor := t.cursor.tmod n }
      let x := t.cursor
      let t : CursorTable Procent := { examine x t with cursor := i32 (x + 1) }
      if (t.entry x).prstate = .prFree then (x, t) else newpidLoop n i t

/-- Obtain a new (free) process ID. -/
def newpid (n : Int) (t : CursorTable Procent) : Int × CursorTable Procent :=
  newpidLoop n n.toNat t

/-! ## semcreate.c and ptcreate.c -/

/-- The loop of `newsem` and `ptcreate`: an entry that is free is taken. -/
def takeLoop (free : ε → Bool) (take : ε → ε) (n : Int) :
    Nat → CursorTable ε → Int × CursorTable ε
  | 0, t => (syserr, t)
  | i + 1, t =>
      let x := t.cursor
      let t := { t with cursor := i32 (x + 1) }
      let t := if t.cursor ≥ n then { t with cursor := 0 } else t
      let t := examine x t
      if free (t.entry x) then (x, { t with entry := update t.entry x (take (t.entry x)) })
      else takeLoop free take n i t

/-- Allocate an unused semaphore and return its index. -/
def newsem (n : Int) (t : CursorTable Sentry) : Int × CursorTable Sentry :=
  takeLoop (fun e => decide (e.sstate = .sFree)) (fun e => { e with sstate := .sUsed }) n n.toNat t

/-- The search of `ptcreate`, up to the port that it allocates. -/
def ptcreate (n : Int) (t : CursorTable Ptentry) : Int × CursorTable Ptentry :=
  takeLoop (fun e => decide (e.ptstate = .ptFree)) (fun e => { e with ptstate := .ptAlloc }) n
    n.toNat t

/-! ## The cursors -/

/-- The values that `nextpid` takes, whatever becomes of the table between the calls. -/
inductive NextPid (n : TableSize) : Int → Prop
  | start : NextPid n 1
  | call {c : Int} (tab : Int → Procent) (h : NextPid n c) :
      NextPid n (newpid n.size ⟨tab, c, []⟩).2.cursor

/-- The values that `nextsem` takes. -/
inductive NextSem (n : TableSize) : Int → Prop
  | start : NextSem n 0
  | call {c : Int} (tab : Int → Sentry) (h : NextSem n c) :
      NextSem n (newsem n.size ⟨tab, c, []⟩).2.cursor

/-- The values that `ptnextid` takes: `ptdelete` sets it to the port that it deletes, which
is not a bad one. -/
inductive PtNextId (n : TableSize) : Int → Prop
  | ptinit : PtNextId n 0
  | call {c : Int} (tab : Int → Ptentry) (h : PtNextId n c) :
      PtNextId n (ptcreate n.size ⟨tab, c, []⟩).2.cursor
  | ptdelete {portid : Int} (h : ¬ (portid < 0 ∨ portid ≥ n.size)) : PtNextId n portid

/-! ## What a search does -/

section

variable {n : Int} {i : Nat} {t : CursorTable ε}

theorem i32_succ {x : Int} (hlow : 0 ≤ x) (hhigh : x < n) (hn : n < 0x80000000) :
    i32 (x + 1) = x + 1 :=
  i32_eq (by omega) (by omega)

/-- The search of `newpid` is that of the table from its cursor on. -/
theorem newpidLoop_spec {t : CursorTable Procent} (hn : 0 < n) (hlt : n < 0x80000000)
    (hcursor : 0 ≤ t.cursor) (hle : t.cursor ≤ n) :
    ∃ k, 0 ≤ k ∧ k ≤ n ∧ newpidLoop n i t =
      ((rotate (fun p => decide ((t.entry p).prstate = .prFree)) n i t.cursor).getD syserr,
        ⟨t.entry, k, t.examined ++
          looked (fun p => decide ((t.entry p).prstate = .prFree)) n i t.cursor⟩) := by
  induction i generalizing t with
  | zero => exact ⟨t.cursor, hcursor, hle, by simp [newpidLoop, rotate, looked]⟩
  | succ i ih =>
      have hlow := Int.emod_nonneg t.cursor (by omega : n ≠ 0)
      have hhigh := Int.emod_lt_of_pos t.cursor hn
      have hmod : t.cursor.tmod n = t.cursor % n := Int.tmod_eq_emod_of_nonneg hcursor
      have hnext := i32_succ hlow hhigh hlt
      rw [rotate, looked]
      by_cases hfree : (t.entry (t.cursor % n)).prstate = .prFree
      · refine ⟨t.cursor % n + 1, by omega, by omega, ?_⟩
        simp [newpidLoop, examine, hmod, hnext, hfree]
      · obtain ⟨k, hk₀, hk, hrun⟩ := ih
          (t := ⟨t.entry, t.cursor % n + 1, t.examined ++ [t.cursor % n]⟩)
          (show 0 ≤ t.cursor % n + 1 by omega) (show t.cursor % n + 1 ≤ n by omega)
        refine ⟨k, hk₀, hk, ?_⟩
        have hstep : newpidLoop n (i + 1) t =
            newpidLoop n i ⟨t.entry, t.cursor % n + 1, t.examined ++ [t.cursor % n]⟩ := by
          simp [newpidLoop, examine, hmod, hnext, hfree]
        rw [hstep, hrun, if_neg (by simpa using hfree), if_neg (by simpa using hfree),
          List.append_assoc]
        rfl

/-- One round of the loop of `newsem` and `ptcreate`. -/
theorem takeLoop_succ {free : ε → Bool} {take : ε → ε} {k : Int} (hlt : n < 0x80000000)
    (hlow : 0 ≤ t.cursor) (hhigh : t.cursor < n)
    (hk : (if t.cursor + 1 ≥ n then 0 else t.cursor + 1) = k) :
    takeLoop free take n (i + 1) t =
      if free (t.entry t.cursor) then
        (t.cursor, ⟨update t.entry t.cursor (take (t.entry t.cursor)), k,
          t.examined ++ [t.cursor]⟩)
      else takeLoop free take n i ⟨t.entry, k, t.examined ++ [t.cursor]⟩ := by
  have hnext := i32_succ hlow hhigh hlt
  rw [← hk]
  by_cases hwrap : t.cursor + 1 ≥ n
  · simp [takeLoop, examine, hnext, hwrap]
  · simp [takeLoop, examine, hnext, hwrap]

/-- The search of `newsem` and `ptcreate` is that of the table from its cursor on. -/
theorem takeLoop_spec (free : ε → Bool) (take : ε → ε) (hlt : n < 0x80000000)
    (hlow : 0 ≤ t.cursor) (hhigh : t.cursor < n) :
    ∃ k tab, 0 ≤ k ∧ k < n ∧ takeLoop free take n i t =
      ((rotate (fun x => free (t.entry x)) n i t.cursor).getD syserr,
        ⟨tab, k, t.examined ++ looked (fun x => free (t.entry x)) n i t.cursor⟩) := by
  induction i generalizing t with
  | zero => exact ⟨t.cursor, t.entry, hlow, hhigh, by simp [takeLoop, rotate, looked]⟩
  | succ i ih =>
      obtain ⟨k, hk⟩ : ∃ k, (if t.cursor + 1 ≥ n then 0 else t.cursor + 1) = k := ⟨_, rfl⟩
      have hrange := wrap_range hlow hhigh
      rw [hk] at hrange
      rw [takeLoop_succ hlt hlow hhigh hk, rotate_wrap hlow hhigh, looked_wrap hlow hhigh, hk]
      by_cases hfree : free (t.entry t.cursor) = true
      · refine ⟨k, update t.entry t.cursor (take (t.entry t.cursor)), hrange.1, hrange.2, ?_⟩
        simp [hfree]
      · obtain ⟨k', tab, hk₀, hk', hrun⟩ := ih (t := ⟨t.entry, k, t.examined ++ [t.cursor]⟩)
          hrange.1 hrange.2
        refine ⟨k', tab, hk₀, hk', ?_⟩
        rw [if_neg hfree, if_neg hfree, if_neg hfree, hrun, List.append_assoc]
        rfl

end

/-! ## What an allocator is to do -/

/-- A search of a table of `n` entries that returned `v`: it found a free entry if there was
one, and it examined every entry once before it gave up. -/
structure Finds (n : Int) (free : Int → Prop) (v : Int) (examined : List Int) : Prop where
  found : v ≠ syserr → 0 ≤ v ∧ v < n ∧ free v
  fails_iff : v = syserr ↔ ∀ x, 0 ≤ x → x < n → ¬ free x
  once : v = syserr → ∀ x, 0 ≤ x → x < n → examined.count x = 1
  inside : ∀ x ∈ examined, 0 ≤ x ∧ x < n
  nodup : examined.Nodup

/-- Wherever the cursor has come to, the allocator does what it should and leaves the cursor
in range for the next call. -/
def Allocates {ε : Type} (n : Int) (free : ε → Prop)
    (alloc : CursorTable ε → Int × CursorTable ε) (reached inRange : Int → Prop) : Prop :=
  ∀ (tab : Int → ε) (c : Int), reached c →
    Finds n (fun x => free (tab x)) (alloc ⟨tab, c, []⟩).1 (alloc ⟨tab, c, []⟩).2.examined ∧
      inRange (alloc ⟨tab, c, []⟩).2.cursor

theorem Finds.of_rotate (free : Int → Bool) {n c : Int} (hn : 0 < n) :
    Finds n (fun x => free x = true) ((rotate free n n.toNat c).getD syserr)
      (looked free n n.toNat c) := by
  have hlen : (n.toNat : Int) ≤ n := by omega
  constructor
  · cases hr : rotate free n n.toNat c with
    | none => exact fun h => absurd rfl h
    | some x => exact fun _ => rotate_some hn hr
  · cases hr : rotate free n n.toNat c with
    | none =>
        have hnone := (rotate_eq_none_iff hn).mp hr
        constructor
        · intro _ x hlow hhigh
          simp [hnone x hlow hhigh]
        · exact fun _ => rfl
    | some x =>
        obtain ⟨hlow, hhigh, hfree⟩ := rotate_some hn hr
        constructor
        · intro h
          have hx : x = syserr := h
          unfold syserr at hx
          omega
        · exact fun h => absurd hfree (h x hlow hhigh)
  · intro h x hlow hhigh
    cases hr : rotate free n n.toNat c with
    | none => exact count_looked hr hlow hhigh
    | some y =>
        rw [hr] at h
        have hy : y = syserr := h
        have hylow := (rotate_some hn hr).1
        unfold syserr at hy
        omega
  · exact fun x hx => looked_range hn hx
  · exact looked_nodup free c hlen

section

variable {n : TableSize} {c : Int}

theorem newpid_allocates : Allocates n.size (fun e => e.prstate = .prFree) (newpid n.size)
    (fun c => 0 ≤ c ∧ c ≤ n.size) (fun c => 0 ≤ c ∧ c ≤ n.size) := by
  rintro tab c ⟨hlow, hle⟩
  obtain ⟨k, hk₀, hk, hrun⟩ :=
    newpidLoop_spec (i := n.size.toNat) (t := ⟨tab, c, []⟩) n.pos n.lt hlow hle
  have hfinds := Finds.of_rotate (fun p => decide ((tab p).prstate = .prFree)) (c := c) n.pos
  simp only [decide_eq_true_eq] at hfinds
  rw [newpid, hrun]
  exact ⟨hfinds, hk₀, hk⟩

theorem takeLoop_allocates {ε : Type} (free : ε → Bool) (take : ε → ε) :
    Allocates n.size (fun e => free e = true) (takeLoop free take n.size n.size.toNat)
      (fun c => 0 ≤ c ∧ c < n.size) (fun c => 0 ≤ c ∧ c < n.size) := by
  rintro tab c ⟨hlow, hlt⟩
  obtain ⟨k, tab', hk₀, hk, hrun⟩ :=
    takeLoop_spec (i := n.size.toNat) (t := ⟨tab, c, []⟩) free take n.lt hlow hlt
  rw [hrun]
  exact ⟨Finds.of_rotate _ n.pos, hk₀, hk⟩

theorem newsem_allocates : Allocates n.size (fun e => e.sstate = .sFree) (newsem n.size)
    (fun c => 0 ≤ c ∧ c < n.size) (fun c => 0 ≤ c ∧ c < n.size) := by
  have h := takeLoop_allocates (n := n) (fun e : Sentry => decide (e.sstate = .sFree))
    (fun e => { e with sstate := .sUsed })
  simp only [decide_eq_true_eq] at h
  exact h

theorem ptcreate_allocates : Allocates n.size (fun e => e.ptstate = .ptFree) (ptcreate n.size)
    (fun c => 0 ≤ c ∧ c < n.size) (fun c => 0 ≤ c ∧ c < n.size) := by
  have h := takeLoop_allocates (n := n) (fun e : Ptentry => decide (e.ptstate = .ptFree))
    (fun e => { e with ptstate := .ptAlloc })
  simp only [decide_eq_true_eq] at h
  exact h

/-- `nextpid` is a position of the table or one beyond its end. -/
theorem NextPid.range (h : NextPid n c) : 0 ≤ c ∧ c ≤ n.size := by
  induction h with
  | start =>
      have hpos := n.pos
      omega
  | call tab _ ih => exact (newpid_allocates tab _ ih).2

theorem NextSem.range (h : NextSem n c) : 0 ≤ c ∧ c < n.size := by
  induction h with
  | start => exact ⟨Int.le_refl 0, n.pos⟩
  | call tab _ ih => exact (newsem_allocates tab _ ih).2

theorem PtNextId.range (h : PtNextId n c) : 0 ≤ c ∧ c < n.size := by
  induction h with
  | ptinit => exact ⟨Int.le_refl 0, n.pos⟩
  | call tab _ ih => exact (ptcreate_allocates tab _ ih).2
  | ptdelete hgood =>
      rw [not_or] at hgood
      omega

end

/-! ## The searches of the kernel -/

section

variable {i : Nat} {s : Kernel} {t : Resources} {count : Int}

/-- The process table and the cursor of its search. -/
def procs (s : Kernel) : CursorTable Procent :=
  ⟨s.proctab, s.nextpid, []⟩

/-- The semaphore table and the cursor of its search. -/
def sems (s : Kernel) : CursorTable Sentry :=
  ⟨s.semtab, s.nextsem, []⟩

/-- The port table and the cursor of its search. -/
def portsOf (p : Ports) : CursorTable Ptentry :=
  ⟨p.porttab, p.ptnextid, []⟩

theorem newpidLoop_kernel (hlow : 0 ≤ s.nextpid) (l : List Int) :
    Xinu.newpidLoop i s = .done (newpidLoop nproc i ⟨s.proctab, s.nextpid, l⟩).1
      { s with nextpid := (newpidLoop nproc i ⟨s.proctab, s.nextpid, l⟩).2.cursor } := by
  induction i generalizing s l with
  | zero => rfl
  | succ i ih =>
      have hmin := Int.emod_nonneg s.nextpid (by decide : nproc ≠ 0)
      have hmax := Int.emod_lt_of_pos s.nextpid (by decide : 0 < nproc)
      have hmod : s.nextpid.tmod nproc = s.nextpid % nproc := Int.tmod_eq_emod_of_nonneg hlow
      have hnext := i32_succ hmin hmax (by decide)
      by_cases hfree : s.state (s.nextpid % nproc) = .prFree
      · have hfree₁ : ({ s with nextpid := s.nextpid % nproc } : Kernel).state
            (s.nextpid % nproc) = .prFree := hfree
        have hfree₂ : (s.proctab (s.nextpid % nproc)).prstate = .prFree := hfree
        simp [Xinu.newpidLoop, newpidLoop, examine, hmod, hnext, hfree₁, hfree₂]
      · have hfree₁ : ¬ ({ s with nextpid := s.nextpid % nproc } : Kernel).state
            (s.nextpid % nproc) = .prFree := hfree
        have hfree₂ : ¬ (s.proctab (s.nextpid % nproc)).prstate = .prFree := hfree
        have hstep : Xinu.newpidLoop (i + 1) s =
            Xinu.newpidLoop i { s with nextpid := s.nextpid % nproc + 1 } := by
          simp [Xinu.newpidLoop, hfree₁]
        have hloop : newpidLoop nproc (i + 1) ⟨s.proctab, s.nextpid, l⟩ =
            newpidLoop nproc i ⟨s.proctab, s.nextpid % nproc + 1, l ++ [s.nextpid % nproc]⟩ := by
          simp [newpidLoop, examine, hmod, hnext, hfree₂]
        rw [hstep, hloop]
        exact ih (s := { s with nextpid := s.nextpid % nproc + 1 })
          (show 0 ≤ s.nextpid % nproc + 1 by omega) (l ++ [s.nextpid % nproc])

/-- The search of the kernel's process table. -/
theorem newpid_kernel (hlow : 0 ≤ s.nextpid) :
    Xinu.newpid s = .done (newpid nproc (procs s)).1
      { s with nextpid := (newpid nproc (procs s)).2.cursor } :=
  newpidLoop_kernel hlow []

theorem newsemLoop_kernel (hlow : 0 ≤ s.nextsem) (hhigh : s.nextsem < nsem) (l : List Int) :
    ∃ r, takeLoop (fun e : Sentry => decide (e.sstate = .sFree))
        (fun e => { e with sstate := .sUsed }) nsem i ⟨s.semtab, s.nextsem, l⟩ = r ∧
      Xinu.newsemLoop i s = .done r.1 { s with semtab := r.2.entry, nextsem := r.2.cursor } := by
  induction i generalizing s l with
  | zero => exact ⟨_, rfl, rfl⟩
  | succ i ih =>
      obtain ⟨k, hk⟩ : ∃ k, (if s.nextsem + 1 ≥ nsem then 0 else s.nextsem + 1) = k := ⟨_, rfl⟩
      have hrange := wrap_range hlow hhigh
      rw [hk] at hrange
      rw [takeLoop_succ (t := ⟨s.semtab, s.nextsem, l⟩) (by decide) hlow hhigh hk]
      by_cases hfree : (s.semtab s.nextsem).sstate = .sFree
      · refine ⟨_, if_pos (decide_eq_true hfree), ?_⟩
        by_cases hwrap : s.nextsem + 1 ≥ nsem
        · simp [newsemLoop, Kernel.setSem, hwrap, hfree, ← hk]
        · simp [newsemLoop, Kernel.setSem, hwrap, hfree, ← hk]
      · have hstep : newsemLoop (i + 1) s = newsemLoop i { s with nextsem := k } := by
          by_cases hwrap : s.nextsem + 1 ≥ nsem
          · simp [newsemLoop, hwrap, hfree, ← hk]
          · simp [newsemLoop, hwrap, hfree, ← hk]
        rw [hstep, if_neg (by simpa using hfree)]
        exact ih (s := { s with nextsem := k }) hrange.1 hrange.2 _

/-- The search of the kernel's semaphore table. -/
theorem newsem_kernel (hlow : 0 ≤ s.nextsem) (hhigh : s.nextsem < nsem) :
    Xinu.newsem s = .done (newsem nsem (sems s)).1
      { s with
        semtab := (newsem nsem (sems s)).2.entry
        nextsem := (newsem nsem (sems s)).2.cursor } := by
  obtain ⟨r, hr, hrun⟩ := newsemLoop_kernel (i := nsem.toNat) hlow hhigh []
  have hnew : newsem nsem (sems s) = r := hr
  rw [hnew]
  exact hrun

/-- What `ptcreate` does with the port that it has allocated. -/
def ptcreateFill (count ptnum : Int) : Coop Resources Int := do
  let ssem ← onKernel (semcreate count)
  setPtentry ptnum fun e => { e with ptssem := ssem }
  let rsem ← onKernel (semcreate 0)
  setPtentry ptnum fun e => { e with ptrsem := rsem }
  setPtentry ptnum fun e => { e with pthead := Memory.null, pttail := Memory.null }
  setPtentry ptnum fun e => { e with ptseq := i32 (e.ptseq + 1) }
  setPtentry ptnum fun e => { e with ptmaxcnt := .ofNat count.toNat }
  return ptnum

/-- The port table after a search. -/
def withPorts (t : Resources) (r : CursorTable Ptentry) : Resources :=
  { t with ports := ⟨r.entry, r.cursor⟩ }

theorem ptcreateLoop_ports (hlow : 0 ≤ t.ports.ptnextid) (hhigh : t.ports.ptnextid < nports)
    (l : List Int) :
    ∃ r, takeLoop (fun e : Ptentry => decide (e.ptstate = .ptFree))
        (fun e => { e with ptstate := .ptAlloc }) nports i
        ⟨t.ports.porttab, t.ports.ptnextid, l⟩ = r ∧
      ptcreateLoop count i t =
        if r.1 = syserr then .done syserr (withPorts t r.2)
        else ptcreateFill count r.1 (withPorts t r.2) := by
  induction i generalizing t l with
  | zero => exact ⟨_, rfl, rfl⟩
  | succ i ih =>
      obtain ⟨k, hk⟩ :
          ∃ k, (if t.ports.ptnextid + 1 ≥ nports then 0 else t.ports.ptnextid + 1) = k := ⟨_, rfl⟩
      have hrange := wrap_range hlow hhigh
      rw [hk] at hrange
      rw [takeLoop_succ (t := ⟨t.ports.porttab, t.ports.ptnextid, l⟩) (by decide) hlow hhigh hk,
        ptcreateLoop_succ i hk]
      by_cases hfree : (t.ports.porttab t.ports.ptnextid).ptstate = .ptFree
      · refine ⟨_, if_pos (decide_eq_true hfree), ?_⟩
        have hfound : t.ports.ptnextid ≠ syserr := by
          unfold syserr
          omega
        rw [if_pos hfree, if_neg hfound]
        rfl
      · rw [if_neg hfree, if_neg (by simpa using hfree)]
        exact ih (t := withNextid t k) hrange.1 hrange.2 _

/-- The search of the port table. -/
theorem ptcreate_ports (hlow : 0 ≤ t.ports.ptnextid) (hhigh : t.ports.ptnextid < nports) :
    ptcreateLoop count nports.toNat t =
      if (ptcreate nports (portsOf t.ports)).1 = syserr then
        .done syserr (withPorts t (ptcreate nports (portsOf t.ports)).2)
      else ptcreateFill count (ptcreate nports (portsOf t.ports)).1
        (withPorts t (ptcreate nports (portsOf t.ports)).2) := by
  obtain ⟨r, hr, hrun⟩ := ptcreateLoop_ports (i := nports.toNat) hlow hhigh []
  have hnew : ptcreate nports (portsOf t.ports) = r := hr
  rw [hnew]
  exact hrun

end

/-- The allocators of processes, semaphores and ports find a free entry whenever there is
one, in tables of any size and in any state, wherever their cursors have come to. -/
theorem allocators_find (procs sems ports : TableSize) :
    Allocates procs.size (fun e => e.prstate = .prFree) (newpid procs.size)
        (NextPid procs) (fun c => 0 ≤ c ∧ c ≤ procs.size) ∧
      Allocates sems.size (fun e => e.sstate = .sFree) (newsem sems.size)
        (NextSem sems) (fun c => 0 ≤ c ∧ c < sems.size) ∧
      Allocates ports.size (fun e => e.ptstate = .ptFree) (ptcreate ports.size)
        (PtNextId ports) (fun c => 0 ≤ c ∧ c < ports.size) :=
  ⟨fun tab c h => newpid_allocates tab c h.range, fun tab c h => newsem_allocates tab c h.range,
    fun tab c h => ptcreate_allocates tab c h.range⟩

/-- Three processes, of which only the first slot is free. -/
def threeProcs : Int → Procent := fun p =>
  ⟨if p = 0 then .prFree else .prSusp, 20, .saved, 0, 0, 0, 0, 0, false, fun _ => 0⟩

/-- Three semaphores, all in use. -/
def threeSems : Int → Sentry := fun _ =>
  ⟨.sUsed, 0, 0⟩

def threeEntries : TableSize :=
  ⟨3, by decide, by decide⟩

/-- From the cursor 1 the search of the processes goes around to the slot 0; that of the
semaphores gives up. -/
theorem allocators_find_three :
    ((newpid 3 ⟨threeProcs, 1, []⟩).1 = 0 ∧
      Finds 3 (fun p => (threeProcs p).prstate = .prFree)
        (newpid 3 ⟨threeProcs, 1, []⟩).1
        (newpid 3 ⟨threeProcs, 1, []⟩).2.examined) ∧
    ((newsem 3 ⟨threeSems, 0, []⟩).1 = syserr ∧
      Finds 3 (fun x => (threeSems x).sstate = .sFree)
        (newsem 3 ⟨threeSems, 0, []⟩).1
        (newsem 3 ⟨threeSems, 0, []⟩).2.examined) := by
  have h := allocators_find threeEntries threeEntries threeEntries
  exact ⟨⟨by decide, (h.1 threeProcs 1 .start).1⟩, ⟨by decide, (h.2.1 threeSems 0 .start).1⟩⟩

end Rotating

end Xinu
