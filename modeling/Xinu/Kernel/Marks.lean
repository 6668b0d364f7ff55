import Mathlib.Logic.Function.Basic

/-!
# Memory marks

Embedding of `system/mark.c` and of the macro `notmarked` of `include/mark.h`.  The calls of
all processes are interleaved between any two accesses to memory that they share.  The
locations that are marked are of any type; nobody else stores to them.

Main results:

- Theorem `MarksInv.access`: what each access keeps, while the tests of `mark` still hold
  when it takes an index.
- Theorem `marks_ok`: in every state that such runs reach, marked locations and no others
  are reported as marked, and the table is not overrun.
-/

namespace Xinu

open Function

/-! ## mark.c and mark.h -/

/-- `MAXMARK` -/
def maxmark : Int := 20

/-- Who asks whether a location is marked: `mark`, or `notmarked`.  Of the latter we note
whether a call of `mark` had returned `OK` for the location when it began. -/
inductive Asks where
  | mark
  | report (was : Bool)
deriving DecidableEq

/-- The next access of a process. -/
inductive MarkPc (α : Type) where
  | idle
  /-- `*loc`, of `*loc>=0` -/
  | sign (a : Asks) (loc : α)
  /-- `*loc`, of `*loc<nmarks` -/
  | bound (a : Asks) (loc : α)
  /-- `nmarks`, of `*loc<nmarks`, when `*loc` was `v` -/
  | below (a : Asks) (loc : α) (v : Int)
  /-- `*loc`, of `marks[*loc]==loc` -/
  | index (a : Asks) (loc : α)
  /-- `marks[v]`, of `marks[*loc]==loc` -/
  | entry (a : Asks) (loc : α) (v : Int)
  /-- `nmarks >= MAXMARK` -/
  | limit (loc : α)
  /-- `wait(mkmutex)` -/
  | waiting (loc : α)
  /-- `nmarks++`, by the process that holds the mutex, the only one that changes it -/
  | counting (loc : α)
  /-- `(*loc) = i` -/
  | storing (loc : α) (i : Int)
  /-- `marks[i] = loc` -/
  | linking (loc : α) (i : Int)
  /-- `signal(mkmutex)` -/
  | leaving (loc : α)

/-- What a call of `notmarked` has reported. -/
structure Report (α : Type) where
  loc : α
  /-- A call of `mark` for the location had returned `OK` before. -/
  was : Bool
  marked : Bool

/-- The variables of `mark.c`, the locations, and where each process is. -/
structure Marks (α : Type) where
  nmarks : Int
  marks : Int → α
  /-- `*loc` -/
  value : α → Int
  /-- The process that has taken `mkmutex`. -/
  mkmutex : Option Nat
  pc : Nat → MarkPc α
  /-- The locations for which an index has been taken. -/
  begun : List α
  /-- The locations for which `mark` has returned `OK`. -/
  oks : List α
  /-- The indexes of `marks` that were written. -/
  written : List Int
  reports : List (Report α)

namespace Marks

variable {α : Type} [DecidableEq α]

/-- `markinit`, when no process is in a call yet. -/
def markinit (marks : Int → α) (value : α → Int) : Marks α where
  nmarks := 0
  marks := marks
  value := value
  mkmutex := none
  pc := fun _ => .idle
  begun := []
  oks := []
  written := []
  reports := []

/-- Process `p` goes on with `c`. -/
def goto (w : Marks α) (p : Nat) (c : MarkPc α) : Marks α :=
  { w with pc := update w.pc p c }

/-- The location was found marked: `mark` returns `OK`. -/
def found (w : Marks α) (p : Nat) (loc : α) : Asks → Marks α
  | .mark => { w.goto p .idle with oks := loc :: w.oks }
  | .report was => { w.goto p .idle with reports := ⟨loc, was, true⟩ :: w.reports }

/-- The location was not found marked: `mark` goes on. -/
def missed (w : Marks α) (p : Nat) (loc : α) : Asks → Marks α
  | .mark => w.goto p (.limit loc)
  | .report was => { w.goto p .idle with reports := ⟨loc, was, false⟩ :: w.reports }

/-- The next access of process `p`, unless it is in no call or has to wait. -/
def access (w : Marks α) (p : Nat) : Option (Marks α) :=
  match w.pc p with
  | .idle => none
  | .sign a loc => some (if 0 ≤ w.value loc then w.goto p (.bound a loc) else w.missed p loc a)
  | .bound a loc => some (w.goto p (.below a loc (w.value loc)))
  | .below a loc v => some (if v < w.nmarks then w.goto p (.index a loc) else w.missed p loc a)
  | .index a loc => some (w.goto p (.entry a loc (w.value loc)))
  | .entry a loc v => some (if w.marks v = loc then w.found p loc a else w.missed p loc a)
  | .limit loc =>
      some (if w.nmarks ≥ maxmark then w.goto p .idle else w.goto p (.waiting loc))
  | .waiting loc =>
      if w.mkmutex = none then some { w.goto p (.counting loc) with mkmutex := some p } else none
  | .counting loc =>
      some { w.goto p (.storing loc w.nmarks) with
        nmarks := w.nmarks + 1, begun := loc :: w.begun }
  | .storing loc i => some { w.goto p (.linking loc i) with value := update w.value loc i }
  | .linking loc i =>
      some { w.goto p (.leaving loc) with
        marks := update w.marks i loc, written := i :: w.written }
  | .leaving loc => some { w.goto p .idle with mkmutex := none, oks := loc :: w.oks }

/-- One step of process `p`: it calls `mark` or `notmarked`, or makes its next access. -/
inductive Step (w : Marks α) (p : Nat) : Marks α → Prop
  | mark (loc : α) (hidle : w.pc p = .idle) : Step w p (w.goto p (.sign .mark loc))
  | notmarked (loc : α) (hidle : w.pc p = .idle) :
      Step w p (w.goto p (.sign (.report (decide (loc ∈ w.oks))) loc))
  | access {w' : Marks α} (h : w.access p = some w') : Step w p w'

/-- The runs in which every step satisfies the rule. -/
inductive Run (rule : Marks α → Nat → Prop) (w₀ : Marks α) : Marks α → Prop
  | start : Run rule w₀ w₀
  | step {w w' : Marks α} {p : Nat} (h : Run rule w₀ w) (hrule : rule w p)
      (hstep : Step w p w') : Run rule w₀ w'

/-- `notmarked(L)` -/
def Notmarked (w : Marks α) (loc : α) : Prop :=
  w.value loc < 0 ∨ w.nmarks ≤ w.value loc ∨ w.marks (w.value loc) ≠ loc

instance (w : Marks α) (loc : α) : Decidable (w.Notmarked loc) :=
  inferInstanceAs (Decidable (_ ∨ _))

/-- The steps that a process can make. -/
inductive Move (α : Type) where
  | mark (loc : α)
  | notmarked (loc : α)
  | access

/-- The step, if it is possible. -/
def move (w : Marks α) (p : Nat) : Move α → Option (Marks α)
  | .access => w.access p
  | .mark loc =>
      match w.pc p with
      | .idle => some (w.goto p (.sign .mark loc))
      | _ => none
  | .notmarked loc =>
      match w.pc p with
      | .idle => some (w.goto p (.sign (.report (decide (loc ∈ w.oks))) loc))
      | _ => none

/-- The steps of a script, if each is possible and satisfies the rule. -/
def plays (rule : Marks α → Nat → Prop) [∀ w p, Decidable (rule w p)] (w : Marks α) :
    List (Nat × Move α) → Option (Marks α)
  | [] => some w
  | (p, m) :: rest =>
      if rule w p then (w.move p m).bind fun w' => plays rule w' rest else none

/-- What is claimed of a state. -/
structure Ok (w : Marks α) : Prop where
  limit : w.nmarks ≤ maxmark
  written : ∀ i ∈ w.written, 0 ≤ i ∧ i < maxmark
  /-- A location for which `mark` has returned `OK` is marked … -/
  marked : ∀ loc ∈ w.oks, ¬ w.Notmarked loc
  /-- … and one that has never been marked is not. -/
  fresh : ∀ loc, loc ∉ w.begun → w.Notmarked loc
  /-- So the calls of `notmarked` have reported. -/
  reports : ∀ r ∈ w.reports, (r.was = true → r.marked = true) ∧
    (r.marked = true → r.loc ∈ w.begun)

/-- The tests that `mark` has made before it waited still hold when it takes an index, and
what the entry with that index holds is not a location that has this index as its value. -/
def Ready (w : Marks α) (p : Nat) : Prop :=
  ∀ loc, w.pc p = .counting loc → w.nmarks < maxmark ∧ w.Notmarked loc ∧
    (w.marks w.nmarks = loc ∨ w.value (w.marks w.nmarks) ≠ w.nmarks)

instance (w : Marks α) (p : Nat) : Decidable (w.Ready p) :=
  match hpc : w.pc p with
  | .counting loc =>
      decidable_of_iff (w.nmarks < maxmark ∧ w.Notmarked loc ∧
        (w.marks w.nmarks = loc ∨ w.value (w.marks w.nmarks) ≠ w.nmarks))
        ⟨fun h _ hloc => MarkPc.counting.inj (hpc.symm.trans hloc) ▸ h, fun h => h loc hpc⟩
  | .idle | .sign .. | .bound .. | .below .. | .index .. | .entry .. | .limit _ | .waiting _
  | .storing .. | .linking .. | .leaving _ =>
      isTrue fun _ hloc => nomatch hpc.symm.trans hloc

/-! ## The invariant -/

/-- The location and the first `n` entries of the table agree. -/
def Settled (w : Marks α) (n : Int) (loc : α) : Prop :=
  0 ≤ w.value loc ∧ w.value loc < n ∧ w.marks (w.value loc) = loc

end Marks

/-- The process holds the mutex. -/
def MarkPc.Inside {α : Type} : MarkPc α → Prop
  | counting _ | storing _ _ | linking _ _ | leaving _ => True
  | _ => False

/-- An index has been taken that is not in the table yet. -/
def MarkPc.Open {α : Type} : MarkPc α → Prop
  | storing _ _ | linking _ _ => True
  | _ => False

namespace Marks

variable {α : Type} [DecidableEq α]

/-- Who has reason to find the location marked. -/
def Rightly (w : Marks α) (a : Asks) (loc : α) : Prop :=
  a = .report true → loc ∈ w.oks

/-- What a process knows that asks whether a location is marked. -/
def Asking (w : Marks α) : MarkPc α → Prop
  | .sign a loc => w.Rightly a loc
  | .bound a loc => w.Rightly a loc ∧ 0 ≤ w.value loc
  | .below a loc v => w.Rightly a loc ∧ 0 ≤ w.value loc ∧
      (v = w.value loc ∨ w.value loc < w.nmarks) ∧ (a = .report true → v = w.value loc)
  | .index a loc => w.Rightly a loc ∧ 0 ≤ w.value loc ∧ w.value loc < w.nmarks
  | .entry a loc v => w.Rightly a loc ∧ 0 ≤ v ∧ v < w.nmarks ∧
      (w.marks v = loc → w.value loc = v) ∧ (a = .report true → v = w.value loc)
  | _ => True

/-- What the process that holds the mutex knows: the entries before its own are settled. -/
def Holding (w : Marks α) : MarkPc α → Prop
  | .storing loc i => 0 ≤ i ∧ w.nmarks = i + 1 ∧ loc ∈ w.begun ∧ ¬ w.Settled i loc ∧
      ∀ x ∈ w.begun, x ≠ loc → w.Settled i x
  | .linking loc i => 0 ≤ i ∧ w.nmarks = i + 1 ∧ loc ∈ w.begun ∧ w.value loc = i ∧
      ∀ x ∈ w.begun, x ≠ loc → w.Settled i x
  | .leaving loc => loc ∈ w.begun
  | _ => True

/-- What the processes that ask may rely on. -/
structure Grows (w w' : Marks α) : Prop where
  nmarks : w.nmarks ≤ w'.nmarks
  oks : ∀ x ∈ w.oks, x ∈ w'.oks
  nonneg : ∀ x, 0 ≤ w.value x → 0 ≤ w'.value x
  change : ∀ x, w'.value x = w.value x ∨ w'.value x < w'.nmarks
  kept : ∀ x ∈ w.oks, w'.value x = w.value x
  entry : ∀ x v, 0 ≤ v → v < w.nmarks → (w.marks v = x → w.value x = v) →
    w'.marks v = x → w'.value x = v

/-- A report that is right. -/
def Right (w : Marks α) (r : Report α) : Prop :=
  (r.was = true → r.marked = true) ∧ (r.marked = true → r.loc ∈ w.begun)

end Marks

open Marks

variable {α : Type}

/-- What holds between any two accesses. -/
structure MarksInv (w : Marks α) : Prop where
  nonneg : 0 ≤ w.nmarks
  limit : w.nmarks ≤ maxmark
  written : ∀ i ∈ w.written, 0 ≤ i ∧ i < maxmark
  mutex : ∀ p, (w.pc p).Inside → w.mkmutex = some p
  asking : ∀ p, w.Asking (w.pc p)
  holding : ∀ p, w.Holding (w.pc p)
  settled : (∀ p, ¬ (w.pc p).Open) → ∀ x ∈ w.begun, w.Settled w.nmarks x
  fresh : ∀ x, w.Settled w.nmarks x → x ∈ w.begun
  oks : ∀ x ∈ w.oks, w.Settled w.nmarks x
  reports : ∀ r ∈ w.reports, w.Right r

theorem MarkPc.Open.inside {c : MarkPc α} (h : c.Open) : c.Inside := by
  cases c <;> trivial

theorem Marks.not_notmarked_iff {w : Marks α} {loc : α} :
    ¬ w.Notmarked loc ↔ w.Settled w.nmarks loc := by
  simp [Notmarked, Settled]

/-- A location that is settled, but not among the first `i` entries, is in the entry `i`. -/
theorem Marks.Settled.last {w : Marks α} {i : Int} {loc : α} (h : w.Settled (i + 1) loc)
    (hi : ¬ w.Settled i loc) : w.value loc = i := by
  obtain ⟨hnonneg, hlt, hmarks⟩ := h
  by_contra hne
  exact hi ⟨hnonneg, by omega, hmarks⟩

/-- To look at all processes after one went on is to look at that one and at the others. -/
theorem Marks.goto_all {w : Marks α} {p : Nat} {c : MarkPc α} {P : Nat → MarkPc α → Prop}
    (hp : P p c) (hothers : ∀ q, q ≠ p → P q (w.pc q)) (q : Nat) :
    P q ((w.goto p c).pc q) := by
  by_cases hqp : q = p
  · subst hqp
    simp only [goto, update_self]
    exact hp
  · simp only [goto, update_of_ne hqp]
    exact hothers q hqp

/-- While nobody stores to the locations or to the table, it grows. -/
theorem Marks.Grows.of_same {w w' : Marks α} (hvalue : w'.value = w.value)
    (hmarks : w'.marks = w.marks) (hnmarks : w.nmarks ≤ w'.nmarks)
    (hoks : ∀ x ∈ w.oks, x ∈ w'.oks) : w.Grows w' where
  nmarks := hnmarks
  oks := hoks
  nonneg x h := by rwa [hvalue]
  change x := Or.inl (congrFun hvalue x)
  kept x _ := congrFun hvalue x
  entry x v _ _ h hv := by
    rw [hvalue]
    exact h (congrFun hmarks v ▸ hv)

namespace MarksInv

variable {w w' : Marks α} {p : Nat}

theorem ok (hw : MarksInv w) : w.Ok where
  limit := hw.limit
  written := hw.written
  marked loc hloc := not_notmarked_iff.mpr (hw.oks loc hloc)
  fresh loc hloc := by
    by_contra hmarked
    exact hloc (hw.fresh loc (not_notmarked_iff.mp hmarked))
  reports := hw.reports

theorem markinit (marks : Int → α) (value : α → Int) :
    MarksInv (Marks.markinit marks value) where
  nonneg := Int.le_refl 0
  limit := (by decide : (0 : Int) ≤ maxmark)
  written := by simp [Marks.markinit]
  mutex p hp := hp.elim
  asking _ := trivial
  holding _ := trivial
  settled := by simp [Marks.markinit]
  fresh x hx := by
    have hlt : value x < 0 := hx.2.1
    have hnonneg : 0 ≤ value x := hx.1
    omega
  oks := by simp [Marks.markinit]
  reports := by simp [Marks.markinit]

/-- Only the process that has the mutex is inside. -/
theorem alone (hw : MarksInv w) (hp : (w.pc p).Inside) {q : Nat} (hq : (w.pc q).Inside) :
    q = p := by
  have hsame : some q = some p := (hw.mutex q hq).symm.trans (hw.mutex p hp)
  exact Option.some_inj.mp hsame

/-- A location that is not settled is not one for which `mark` has returned `OK`. -/
theorem not_was (hw : MarksInv w) {a : Asks} {loc : α} (hr : w.Rightly a loc)
    (hnot : ¬ w.Settled w.nmarks loc) : a ≠ .report true :=
  fun ha => hnot (hw.oks loc (hr ha))

/-! ### Outside the mutex -/

/-- What a process knows stays true while the table grows. -/
theorem asking_mono {c : MarkPc α} (h : w.Asking c) (hgrows : w.Grows w') : w'.Asking c := by
  have hrightly : ∀ a loc, w.Rightly a loc → w'.Rightly a loc := by
    intro a loc hold ha
    exact hgrows.oks loc (hold ha)
  have hwas : ∀ a loc v, w.Rightly a loc → (a = .report true → v = w.value loc) →
      a = .report true → v = w'.value loc := by
    intro a loc v hr hold ha
    exact (hold ha).trans (hgrows.kept loc (hr ha)).symm
  cases c with
  | sign a loc => exact hrightly a loc h
  | bound a loc => exact ⟨hrightly a loc h.1, hgrows.nonneg loc h.2⟩
  | below a loc v =>
      obtain ⟨hr, hnonneg, hbound, hold⟩ := h
      refine ⟨hrightly a loc hr, hgrows.nonneg loc hnonneg, ?_, hwas a loc v hr hold⟩
      have hcount : w.nmarks ≤ w'.nmarks := hgrows.nmarks
      have hchange := hgrows.change loc
      omega
  | index a loc =>
      obtain ⟨hr, hnonneg, hbound⟩ := h
      refine ⟨hrightly a loc hr, hgrows.nonneg loc hnonneg, ?_⟩
      have hcount : w.nmarks ≤ w'.nmarks := hgrows.nmarks
      have hchange := hgrows.change loc
      omega
  | entry a loc v =>
      obtain ⟨hr, hnonneg, hbound, hentry, hold⟩ := h
      exact ⟨hrightly a loc hr, hnonneg, Int.lt_of_lt_of_le hbound hgrows.nmarks,
        hgrows.entry loc v hnonneg hbound hentry, hwas a loc v hr hold⟩
  | idle | limit | waiting | counting | storing | linking | leaving => trivial

/-- A process that is not inside goes on, and perhaps says what it has found. -/
theorem walk (hw : MarksInv w) {c : MarkPc α} (o : List α) (r : List (Report α))
    (hopen : ¬ (w.pc p).Open) (hinside : ¬ c.Inside) (hc : w.Asking c)
    (hmore : ∀ x ∈ w.oks, x ∈ o) (ho : ∀ x ∈ o, w.Settled w.nmarks x)
    (hr : ∀ x ∈ r, w.Right x) :
    MarksInv { w.goto p c with oks := o, reports := r } where
  nonneg := hw.nonneg
  limit := hw.limit
  written := hw.written
  mutex := goto_all (P := fun q c => c.Inside → w.mkmutex = some q)
    (fun h => absurd h hinside) fun q _ => hw.mutex q
  asking := goto_all (P := fun _ c => Asking _ c)
    (asking_mono hc (.of_same rfl rfl (Int.le_refl _) hmore))
    fun q _ => asking_mono (hw.asking q) (.of_same rfl rfl (Int.le_refl _) hmore)
  holding := by
    refine goto_all (P := fun _ c => Holding _ c) ?_ fun q _ => hw.holding q
    cases c <;> trivial
  settled hnone := by
    refine hw.settled fun q => ?_
    by_cases hqp : q = p
    · exact hqp ▸ hopen
    · have hq := hnone q
      simp only [goto, update_of_ne hqp] at hq
      exact hq
  fresh := hw.fresh
  oks := ho
  reports := hr

/-- `walk`, for a process that says nothing. -/
theorem goes (hw : MarksInv w) {c : MarkPc α} (hopen : ¬ (w.pc p).Open)
    (hinside : ¬ c.Inside) (hc : w.Asking c) : MarksInv (w.goto p c) :=
  hw.walk w.oks w.reports hopen hinside hc (fun _ hx => hx) hw.oks hw.reports

/-- The location was found in the table. -/
theorem found (hw : MarksInv w) {loc : α} {a : Asks} (hopen : ¬ (w.pc p).Open)
    (hloc : w.Settled w.nmarks loc) : MarksInv (w.found p loc a) := by
  cases a with
  | mark =>
      refine hw.walk (loc :: w.oks) w.reports hopen id trivial
        (fun _ => List.mem_cons_of_mem loc) (fun x hx => ?_) hw.reports
      rcases List.mem_cons.mp hx with rfl | hx
      · exact hloc
      · exact hw.oks x hx
  | report was =>
      refine hw.walk w.oks (⟨loc, was, true⟩ :: w.reports) hopen id trivial (fun _ hx => hx)
        hw.oks (fun x hx => ?_)
      rcases List.mem_cons.mp hx with rfl | hx
      · exact ⟨fun _ => rfl, fun _ => hw.fresh loc hloc⟩
      · exact hw.reports x hx

/-- The location was not found, so `mark` has not returned `OK` for it before. -/
theorem missed (hw : MarksInv w) {loc : α} {a : Asks} (hopen : ¬ (w.pc p).Open)
    (hloc : a ≠ .report true) : MarksInv (w.missed p loc a) := by
  cases a with
  | mark => exact hw.goes hopen id trivial
  | report was =>
      refine hw.walk w.oks (⟨loc, was, false⟩ :: w.reports) hopen id trivial (fun _ hx => hx)
        hw.oks (fun x hx => ?_)
      rcases List.mem_cons.mp hx with rfl | hx
      · refine ⟨fun hwas => ?_, fun hmarked => absurd hmarked (by simp)⟩
        exact absurd (congrArg Asks.report hwas) hloc
      · exact hw.reports x hx

/-! ### With the mutex -/

/-- `wait(mkmutex)` returns. -/
theorem enters (hw : MarksInv w) {loc : α} (hpc : w.pc p = .waiting loc)
    (hfree : w.mkmutex = none) :
    MarksInv { w.goto p (.counting loc) with mkmutex := some p } where
  nonneg := hw.nonneg
  limit := hw.limit
  written := hw.written
  mutex := by
    refine goto_all (P := fun q c => c.Inside → some p = some q) (fun _ => rfl) ?_
    intro q _ hq
    have hholder : none = some q := hfree.symm.trans (hw.mutex q hq)
    exact nomatch hholder
  asking := goto_all (P := fun _ c => Asking _ c) trivial
    fun q _ => asking_mono (hw.asking q) (.of_same rfl rfl (Int.le_refl _) fun _ hx => hx)
  holding := goto_all (P := fun _ c => Holding _ c) trivial fun q _ => hw.holding q
  settled hnone := by
    refine hw.settled fun q => ?_
    by_cases hqp : q = p
    · subst hqp
      simp only [hpc]
      exact id
    · have hq := hnone q
      simp only [goto, update_of_ne hqp] at hq
      exact hq
  fresh := hw.fresh
  oks := hw.oks
  reports := hw.reports

/-- While a process is inside, what the others hold is nothing. -/
theorem holding_other (hw : MarksInv w) (hp : (w.pc p).Inside) {q : Nat} (hqp : q ≠ p)
    (v : Marks α) : v.Holding (w.pc q) := by
  have hq : ¬ (w.pc q).Inside := fun hq => hqp (hw.alone hp hq)
  cases hpc : w.pc q <;> simp only [hpc] at hq <;>
    first | trivial | exact absurd trivial hq

/-- No index is open but the one of the process that is inside. -/
theorem settled_of_inside (hw : MarksInv w) (hp : (w.pc p).Inside)
    (hopen : ¬ (w.pc p).Open) : ∀ x ∈ w.begun, w.Settled w.nmarks x := by
  refine hw.settled fun q hq => ?_
  have hqp : q = p := hw.alone hp hq.inside
  exact hopen (hqp ▸ hq)

/-- `nmarks++`, while the tests still hold. -/
theorem counts (hw : MarksInv w) {loc : α} (hpc : w.pc p = .counting loc)
    (hready : w.Ready p) :
    MarksInv { w.goto p (.storing loc w.nmarks) with
      nmarks := w.nmarks + 1, begun := loc :: w.begun } := by
  have hp : (w.pc p).Inside := by rw [hpc]; trivial
  have hclosed : ¬ (w.pc p).Open := by rw [hpc]; exact id
  obtain ⟨hlimit, hnot, hentry⟩ := hready loc hpc
  have hall : ∀ x ∈ w.begun, w.Settled w.nmarks x := hw.settled_of_inside hp hclosed
  have hnew : ¬ w.Settled w.nmarks loc := fun h => not_notmarked_iff.mpr h hnot
  have hgrow : ∀ x, w.Settled w.nmarks x → w.Settled (w.nmarks + 1) x := by
    rintro x ⟨hnonneg, hlt, hmarks⟩
    exact ⟨hnonneg, by omega, hmarks⟩
  have hfresh : ∀ x, w.Settled (w.nmarks + 1) x → x ∈ loc :: w.begun := by
    intro x hx
    by_cases hold : w.Settled w.nmarks x
    · exact List.mem_cons_of_mem loc (hw.fresh x hold)
    · -- the entry that has just been counted happens to hold `x`
      have hvalue : w.value x = w.nmarks := hx.last hold
      have hmarks : w.marks w.nmarks = x := hvalue ▸ hx.2.2
      rcases hentry with heq | hne
      · exact List.mem_cons.mpr (Or.inl (hmarks.symm.trans heq))
      · exact absurd (hmarks ▸ hvalue) hne
  refine
    { nonneg := ?_, limit := ?_, written := hw.written, mutex := ?_, asking := ?_
      holding := ?_, settled := ?_, fresh := hfresh
      oks := fun x hx => hgrow x (hw.oks x hx), reports := ?_ }
  · have hnonneg : 0 ≤ w.nmarks := hw.nonneg
    show 0 ≤ w.nmarks + 1
    omega
  · show w.nmarks + 1 ≤ maxmark
    omega
  · exact goto_all (P := fun q c => c.Inside → w.mkmutex = some q) (fun _ => hw.mutex p hp)
      fun q _ => hw.mutex q
  · refine goto_all (P := fun _ c => Asking _ c) trivial fun q _ => ?_
    refine asking_mono (hw.asking q) (.of_same rfl rfl ?_ fun _ hx => hx)
    show w.nmarks ≤ w.nmarks + 1
    omega
  · refine goto_all (P := fun _ c => Holding _ c) ?_ fun q hqp => hw.holding_other hp hqp _
    refine ⟨hw.nonneg, rfl, List.mem_cons_self, hnew, fun x hx hne => ?_⟩
    exact hall x (List.mem_of_ne_of_mem hne hx)
  · intro hnone
    have hopen := hnone p
    simp only [goto, update_self] at hopen
    exact absurd trivial hopen
  · intro r hr
    obtain ⟨hwas, hmarked⟩ := hw.reports r hr
    exact ⟨hwas, fun h => List.mem_cons_of_mem loc (hmarked h)⟩

/-- `signal(mkmutex)`, and `mark` returns `OK`. -/
theorem leaves (hw : MarksInv w) {loc : α} (hpc : w.pc p = .leaving loc) :
    MarksInv { w.goto p .idle with mkmutex := none, oks := loc :: w.oks } := by
  have hp : (w.pc p).Inside := by rw [hpc]; trivial
  have hclosed : ¬ (w.pc p).Open := by rw [hpc]; exact id
  have hbegun := hw.holding p
  rw [hpc] at hbegun
  have hall : ∀ x ∈ w.begun, w.Settled w.nmarks x := hw.settled_of_inside hp hclosed
  refine
    { nonneg := hw.nonneg, limit := hw.limit, written := hw.written, mutex := ?_
      asking := ?_, holding := ?_, settled := fun _ => hall, fresh := hw.fresh
      oks := fun x hx => ?_, reports := hw.reports }
  · refine goto_all (P := fun q c => c.Inside → none = some q) (fun h => h.elim) ?_
    intro q hqp hq
    exact absurd (hw.alone hp hq) hqp
  · refine goto_all (P := fun _ c => Asking _ c) trivial fun q _ => ?_
    exact asking_mono (hw.asking q)
      (.of_same rfl rfl (Int.le_refl _) fun _ => List.mem_cons_of_mem loc)
  · exact goto_all (P := fun _ c => Holding _ c) trivial fun q hqp =>
      hw.holding_other hp hqp _
  · rcases List.mem_cons.mp hx with rfl | hx
    · exact hall x hbegun
    · exact hw.oks x hx

variable [DecidableEq α]

/-- `(*loc) = i` -/
theorem stores (hw : MarksInv w) {loc : α} {i : Int} (hpc : w.pc p = .storing loc i) :
    MarksInv { w.goto p (.linking loc i) with value := update w.value loc i } := by
  have hp : (w.pc p).Inside := by rw [hpc]; trivial
  have hholds := hw.holding p
  rw [hpc] at hholds
  obtain ⟨hi, hcount, hbegun, hnew, hbefore⟩ := hholds
  -- a location that is already found has the value that it is given now
  have hfound : w.Settled (i + 1) loc → w.value loc = i := fun h => h.last hnew
  have hother : ∀ x, x ≠ loc → ∀ n, Settled { w.goto p (.linking loc i) with
      value := update w.value loc i } n x ↔ w.Settled n x := by
    intro x hx n
    simp [Settled, goto, update_of_ne hx]
  have hkept : ∀ x ∈ w.oks, update w.value loc i x = w.value x := by
    intro x hx
    by_cases hloc : x = loc
    · subst hloc
      have hsame : w.value x = i := hfound (hcount ▸ hw.oks x hx)
      exact (update_self x i w.value).trans hsame.symm
    · exact update_of_ne hloc i w.value
  have hgrows : w.Grows { w.goto p (.linking loc i) with value := update w.value loc i } := by
    refine
      { nmarks := Int.le_refl _, oks := fun _ hx => hx, nonneg := fun x hx => ?_
        change := fun x => ?_, kept := hkept, entry := fun x v hv hlt hold hmarks => ?_ }
    all_goals by_cases hloc : x = loc
    · subst hloc
      simpa using hi
    · simpa [update_of_ne hloc] using hx
    · subst hloc
      refine Or.inr ?_
      simp only [goto, update_self]
      omega
    · exact Or.inl (update_of_ne hloc i w.value)
    · subst hloc
      have hvalue : w.value x = v := hold hmarks
      have hsame : w.value x = i := hfound ⟨by omega, by omega, by rw [hvalue]; exact hmarks⟩
      simp only [update_self]
      omega
    · simpa [update_of_ne hloc] using hold hmarks
  refine
    { nonneg := hw.nonneg, limit := hw.limit, written := hw.written, mutex := ?_
      asking := ?_, holding := ?_, settled := ?_, fresh := fun x hx => ?_
      oks := fun x hx => ?_, reports := hw.reports }
  · exact goto_all (P := fun q c => c.Inside → w.mkmutex = some q) (fun _ => hw.mutex p hp)
      fun q _ => hw.mutex q
  · exact goto_all (P := fun _ c => Asking _ c) trivial fun q _ =>
      asking_mono (hw.asking q) hgrows
  · refine goto_all (P := fun _ c => Holding _ c) ?_ fun q hqp => hw.holding_other hp hqp _
    refine ⟨hi, hcount, hbegun, update_self loc i w.value, fun x hx hne => ?_⟩
    exact (hother x hne i).mpr (hbefore x hx hne)
  · intro hnone
    have hopen := hnone p
    simp only [goto, update_self] at hopen
    exact absurd trivial hopen
  · by_cases hloc : x = loc
    · exact hloc ▸ hbegun
    · exact hw.fresh x ((hother x hloc w.nmarks).mp hx)
  · simp only [Settled, goto, hkept x hx]
    exact hw.oks x hx

/-- `marks[i] = loc` -/
theorem links (hw : MarksInv w) {loc : α} {i : Int} (hpc : w.pc p = .linking loc i) :
    MarksInv { w.goto p (.leaving loc) with
      marks := update w.marks i loc, written := i :: w.written } := by
  have hp : (w.pc p).Inside := by rw [hpc]; trivial
  have hholds := hw.holding p
  rw [hpc] at hholds
  obtain ⟨hi, hcount, hbegun, hvalue, hbefore⟩ := hholds
  -- the entry is overwritten by the location itself, if another has its index as value
  have hwrite : ∀ x, w.value x ≠ i → update w.marks i loc (w.value x) = w.marks (w.value x) :=
    fun x hx => update_of_ne hx loc w.marks
  have hwritten : update w.marks i loc (w.value loc) = loc := by rw [hvalue, update_self]
  have hgrows : w.Grows { w.goto p (.leaving loc) with
      marks := update w.marks i loc, written := i :: w.written } := by
    refine
      { nmarks := Int.le_refl _, oks := fun _ hx => hx, nonneg := fun _ hx => hx
        change := fun _ => Or.inl rfl, kept := fun _ _ => rfl
        entry := fun x v _ _ hold hmarks => ?_ }
    by_cases hv : v = i
    · subst hv
      simp only [update_self] at hmarks
      exact hmarks ▸ hvalue
    · simp only [update_of_ne hv] at hmarks
      exact hold hmarks
  have hsettled : ∀ x ∈ w.begun, 0 ≤ w.value x ∧ w.value x < w.nmarks ∧
      update w.marks i loc (w.value x) = x := by
    intro x hx
    by_cases hloc : x = loc
    · subst hloc
      exact ⟨by omega, by omega, hwritten⟩
    · obtain ⟨hnonneg, hlt, hmarks⟩ := hbefore x hx hloc
      exact ⟨hnonneg, by omega, (hwrite x (by omega)).trans hmarks⟩
  refine
    { nonneg := hw.nonneg, limit := hw.limit, written := fun x hx => ?_, mutex := ?_
      asking := ?_, holding := ?_, settled := fun _ => hsettled, fresh := fun x hx => ?_
      oks := fun x hx => hsettled x (hw.fresh x (hw.oks x hx)), reports := hw.reports }
  · rcases List.mem_cons.mp hx with rfl | hx
    · have hlimit : w.nmarks ≤ maxmark := hw.limit
      exact ⟨hi, by omega⟩
    · exact hw.written x hx
  · exact goto_all (P := fun q c => c.Inside → w.mkmutex = some q) (fun _ => hw.mutex p hp)
      fun q _ => hw.mutex q
  · exact goto_all (P := fun _ c => Asking _ c) trivial fun q _ =>
      asking_mono (hw.asking q) hgrows
  · exact goto_all (P := fun _ c => Holding _ c) hbegun fun q hqp => hw.holding_other hp hqp _
  · obtain ⟨hnonneg, hlt, hmarks⟩ := hx
    by_cases hv : w.value x = i
    · have hloc : loc = x := by simpa [goto, hv] using hmarks
      exact hloc ▸ hbegun
    · exact hw.fresh x ⟨hnonneg, hlt, (hwrite x hv).symm.trans hmarks⟩

/-! ## Every access -/

theorem access (hw : MarksInv w) (hready : w.Ready p) (h : w.access p = some w') :
    MarksInv w' := by
  have hasking := hw.asking p
  have hclosed : ∀ c, w.pc p = c → ¬ c.Open → ¬ (w.pc p).Open := fun c hc hnot => hc ▸ hnot
  cases hpc : w.pc p with
  | idle => simp [Marks.access, hpc] at h
  | sign a loc =>
      simp only [Marks.access, hpc, Option.some.injEq] at h
      rw [hpc] at hasking
      split at h <;> subst h
      case isTrue hnonneg => exact hw.goes (hclosed _ hpc id) id ⟨hasking, hnonneg⟩
      case isFalse hneg =>
        exact hw.missed (hclosed _ hpc id) (hw.not_was hasking fun hs => hneg hs.1)
  | bound a loc =>
      simp only [Marks.access, hpc, Option.some.injEq] at h
      rw [hpc] at hasking
      subst h
      exact hw.goes (hclosed _ hpc id) id ⟨hasking.1, hasking.2, Or.inl rfl, fun _ => rfl⟩
  | below a loc v =>
      simp only [Marks.access, hpc, Option.some.injEq] at h
      rw [hpc] at hasking
      obtain ⟨hr, hnonneg, hvalue, hwas⟩ := hasking
      split at h <;> subst h
      case isTrue hlt => exact hw.goes (hclosed _ hpc id) id ⟨hr, hnonneg, by omega⟩
      case isFalse hge =>
        refine hw.missed (hclosed _ hpc id) fun ha => ?_
        have hlt : w.value loc < w.nmarks := (hw.oks loc (hr ha)).2.1
        have hv : v = w.value loc := hwas ha
        omega
  | index a loc =>
      simp only [Marks.access, hpc, Option.some.injEq] at h
      rw [hpc] at hasking
      obtain ⟨hr, hnonneg, hlt⟩ := hasking
      subst h
      exact hw.goes (hclosed _ hpc id) id ⟨hr, hnonneg, hlt, fun _ => rfl, fun _ => rfl⟩
  | entry a loc v =>
      simp only [Marks.access, hpc, Option.some.injEq] at h
      rw [hpc] at hasking
      obtain ⟨hr, hnonneg, hlt, hentry, hwas⟩ := hasking
      split at h <;> subst h
      case isTrue hmarks =>
        have hvalue : w.value loc = v := hentry hmarks
        exact hw.found (hclosed _ hpc id) ⟨by omega, by omega, by rw [hvalue]; exact hmarks⟩
      case isFalse hmarks =>
        refine hw.missed (hclosed _ hpc id) fun ha => hmarks ?_
        rw [hwas ha]
        exact (hw.oks loc (hr ha)).2.2
  | limit loc =>
      simp only [Marks.access, hpc, Option.some.injEq] at h
      split at h <;> subst h <;> exact hw.goes (hclosed _ hpc id) id trivial
  | waiting loc =>
      simp only [Marks.access, hpc] at h
      split at h
      case isTrue hfree => exact Option.some_inj.mp h ▸ hw.enters hpc hfree
      case isFalse => exact nomatch h
  | counting loc =>
      simp only [Marks.access, hpc, Option.some.injEq] at h
      exact h ▸ hw.counts hpc hready
  | storing loc i =>
      simp only [Marks.access, hpc, Option.some.injEq] at h
      exact h ▸ hw.stores hpc
  | linking loc i =>
      simp only [Marks.access, hpc, Option.some.injEq] at h
      exact h ▸ hw.links hpc
  | leaving loc =>
      simp only [Marks.access, hpc, Option.some.injEq] at h
      exact h ▸ hw.leaves hpc

theorem step (hw : MarksInv w) (hready : w.Ready p) (h : w.Step p w') : MarksInv w' := by
  cases h with
  | mark loc hidle =>
      refine hw.goes (by rw [hidle]; exact id) id fun ha => ?_
      exact nomatch ha
  | notmarked loc hidle =>
      refine hw.goes (by rw [hidle]; exact id) id fun ha => ?_
      exact of_decide_eq_true (Asks.report.inj ha)
  | access h => exact hw.access hready h

theorem run {w₀ : Marks α} (hw₀ : MarksInv w₀) (h : Run Ready w₀ w) : MarksInv w := by
  induction h with
  | start => exact hw₀
  | step _ hready hstep ih => exact ih.step hready hstep

end MarksInv

/-- In every state of a run in which the tests still hold when an index is taken, the marked
locations and no others are reported as marked, and the table is not overrun. -/
theorem marks_ok [DecidableEq α] (marks : Int → α) (value : α → Int) (w : Marks α)
    (h : Run Ready (Marks.markinit marks value) w) : w.Ok :=
  ((MarksInv.markinit marks value).run h).ok

theorem Marks.step_of_move [DecidableEq α] {w w' : Marks α} {p : Nat} {m : Move α}
    (h : w.move p m = some w') : w.Step p w' := by
  cases m with
  | access => exact .access h
  | mark loc =>
      simp only [move] at h
      split at h
      · exact Option.some_inj.mp h ▸ .mark loc ‹_›
      · exact nomatch h
  | notmarked loc =>
      simp only [move] at h
      split at h
      · exact Option.some_inj.mp h ▸ .notmarked loc ‹_›
      · exact nomatch h

theorem Marks.run_of_plays [DecidableEq α] {rule : Marks α → Nat → Prop}
    [∀ w p, Decidable (rule w p)] {w₀ w w' : Marks α} (script : List (Nat × Move α))
    (h : Run rule w₀ w) (hplays : w.plays rule script = some w') : Run rule w₀ w' := by
  induction script generalizing w with
  | nil => exact Option.some_inj.mp hplays ▸ h
  | cons head rest ih =>
      simp only [plays] at hplays
      split at hplays
      case isTrue hrule =>
        obtain ⟨w₁, hmove, hrest⟩ := Option.bind_eq_some_iff.mp hplays
        exact ih (h.step hrule (step_of_move hmove)) hrest
      case isFalse => exact nomatch hplays

/-- The accesses of a call of `mark` up to `wait(mkmutex)`, when the value is too large. -/
def Marks.tests (p loc : Nat) : List (Nat × Move Nat) :=
  (p, .mark loc) :: List.replicate 4 (p, .access)

/-- A location is marked, and `notmarked` asks for it and for another. -/
theorem marks_ok_three : ∃ w : Marks Nat,
    Run Ready (Marks.markinit (fun _ => 0) (fun _ => 7)) w ∧ w.oks = [5] ∧ w.Ok := by
  let script : List (Nat × Move Nat) := tests 1 5 ++ List.replicate 5 (1, .access) ++
    [(2, .notmarked 5), (2, .access), (3, .notmarked 6), (3, .access)]
  have hsome : ((Marks.markinit (fun _ => 0) (fun _ => 7)).plays Ready script).map
      Marks.oks = some [5] := by decide
  obtain ⟨w, hplays, hoks⟩ := Option.map_eq_some_iff.mp hsome
  have hrun := run_of_plays script .start hplays
  exact ⟨w, hrun, hoks, marks_ok _ _ w hrun⟩

/-- Two processes mark the same location, and both make the tests before the first has the
mutex: the second one gives the location an index whose entry is not written yet. -/
theorem marked_twice : ¬ ∀ (marks : Int → Nat) (value : Nat → Int) (w : Marks Nat),
    Run (fun _ _ => True) (Marks.markinit marks value) w → w.Ok := by
  intro hclaim
  let script : List (Nat × Move Nat) := tests 1 5 ++ tests 2 5 ++
    List.replicate 5 (1, .access) ++ List.replicate 3 (2, .access)
  have hsome : ((Marks.markinit (fun _ => 0) (fun _ => 7)).plays (fun _ _ => True) script).map
      (fun w => (w.oks, decide (w.Notmarked 5))) = some ([5], true) := by decide
  obtain ⟨w, hplays, hlast⟩ := Option.map_eq_some_iff.mp hsome
  have hok : w.Ok := hclaim _ _ w (run_of_plays script .start hplays)
  have hoks : w.oks = [5] := congrArg Prod.fst hlast
  have hnot : w.Notmarked 5 := of_decide_eq_true (congrArg Prod.snd hlast)
  exact hok.marked 5 (by rw [hoks]; exact List.mem_singleton_self 5) hnot

end Xinu
