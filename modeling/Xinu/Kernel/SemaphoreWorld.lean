import Xinu.Foundations.AnyScheduler
import Xinu.Kernel.SemaphoreCounts

/-!
# Semaphores as drivers see them

A driver blocks in `wait` and releases others with `signal`; which process runs next
is no concern of it.  Here the semaphores are counts and queues, and a process that
gives the processor away may be followed by any other that does not wait.

Main results:

- Theorems `Turns.block`, `Turns.pass`, `Turns.signal` and `Turns.leave`: which processes
  are inside a call of `wait`.
- Theorem `holds_wait`: the rule for `wait`.
- Theorems `Supply.block`, `Supply.pass`, `Supply.leave` and `Supply.signals`: the units
  of a resource.
- Theorem `kernel_world`: the semaphores of the kernel change as those of a world do,
  and no process runs that waits there.
-/

namespace Xinu

open Foundations Function

/-- The semaphores, and what else the processes share.  `granted` holds the processes
that have been released and have not run since; it and `log` are kept for the
specification, and no procedure reads them. -/
structure World (δ ε : Type) where
  sems : Int → Sem Int
  nextsem : Int
  ndefers : Nat
  attempt : Bool
  shared : δ
  granted : Int → List Int
  log : List ε

abbrev WorldM (δ ε : Type) := Coop (World δ ε)

namespace World

variable {δ ε : Type}

/-- Change semaphore `x`. -/
def setSem (w : World δ ε) (x : Int) (f : Sem Int → Sem Int) : World δ ε :=
  { w with sems := update w.sems x (f (w.sems x)) }

/-- Change what is shared. -/
def setShared (w : World δ ε) (f : δ → δ) : World δ ε :=
  { w with shared := f w.shared }

/-- The same semaphores beside something else. -/
def map {δ' : Type} (f : δ → δ') (w : World δ ε) : World δ' ε :=
  ⟨w.sems, w.nextsem, w.ndefers, w.attempt, f w.shared, w.granted, w.log⟩

/-- Add an event to the log. -/
def note (w : World δ ε) (e : ε) : World δ ε :=
  { w with log := w.log ++ [e] }

/-- One signal to semaphore `x`. -/
def release (x : Int) (w : World δ ε) : World δ ε :=
  { w with
    sems := update w.sems x ((w.sems x).signal i32)
    granted := update w.granted x
      (w.granted x ++ if (w.sems x).count < 0 then (w.sems x).queue.take 1 else []) }

/-- Semaphore `x` is no longer in use, and all that wait for it are released. -/
def discard (x : Int) (w : World δ ε) : World δ ε :=
  { w with
    sems := update w.sems x (w.sems x).delete
    granted := update w.granted x (w.granted x ++ (w.sems x).queue) }

/-- Process `p` goes on after it has been released. -/
def leave (x p : Int) (w : World δ ε) : World δ ε :=
  { w with granted := update w.granted x ((w.granted x).erase p) }

def resched : WorldM δ ε Unit := do
  if (← get).ndefers > 0 then
    modify fun w => { w with attempt := true }
  else
    Coop.giveAway

/-- Control whether rescheduling is deferred or allowed. -/
def reschedCntl (defer : Int) : WorldM δ ε Int := do
  if defer = deferStart then
    let w ← get
    modify fun w => { w with ndefers := w.ndefers + 1 }
    if w.ndefers = 0 then
      modify fun w => { w with attempt := false }
    return ok
  else if defer = deferStop then
    let w ← get
    if w.ndefers = 0 then
      return syserr
    modify fun w => { w with ndefers := w.ndefers - 1 }
    let w ← get
    if w.ndefers = 0 ∧ w.attempt = true then
      resched
    return ok
  else
    return syserr

/-- Return the count of a semaphore. -/
def semcount (w : World δ ε) (x : Int) : Int :=
  if (w.sems x).used = true then (w.sems x).count else syserr

/-- Cause process `me` to wait on a semaphore. -/
def wait (me x : Int) : WorldM δ ε Int := do
  if ((← get).sems x).used = false then
    return syserr
  modify (·.setSem x (Sem.wait i32 me))
  if ((← get).sems x).count < 0 then
    resched
    modify (leave x me)
  return ok

/-- Signal a semaphore, releasing a process if one is waiting. -/
def signal (x : Int) : WorldM δ ε Int := do
  let w ← get
  if (w.sems x).used = false then
    return syserr
  modify (release x)
  if (w.sems x).count < 0 then
    resched
  return ok

/-- Signal a semaphore `n` times, releasing that many waiting processes. -/
def signaln (x n : Int) : WorldM δ ε Int := do
  let w ← get
  if n < 0 ∨ (w.sems x).used = false then
    return syserr
  modify (release x)^[n.toNat]
  if (w.sems x).count < 0 ∧ 0 < n then
    resched
  return ok

/-- `newsem`, with `i` entries left to try. -/
def newsemLoop : Nat → WorldM δ ε Int
  | 0 => return syserr
  | i + 1 => do
      let sem := (← get).nextsem
      modify fun w => { w with nextsem := w.nextsem + 1 }
      if (← get).nextsem ≥ nsem then
        modify fun w => { w with nextsem := 0 }
      if ((← get).sems sem).used = false then
        modify (·.setSem sem fun v => { v with used := true })
        return sem
      else
        newsemLoop i

/-- Create a new semaphore and return the ID to the caller. -/
def semcreate (count : Int) : WorldM δ ε Int := do
  if count < 0 then
    return syserr
  let sem ← newsemLoop nsem.toNat
  if sem = syserr then
    return syserr
  modify (·.setSem sem fun v => { v with count := count })
  return sem

/-- Delete a semaphore and release all processes that wait for it. -/
def semdelete (x : Int) : WorldM δ ε Int := do
  let w ← get
  if (w.sems x).used = false then
    return syserr
  modify (discard x)
  if (w.sems x).count < 0 then
    resched
  return ok

/-- Process `p` does not wait for a semaphore. -/
def Ready (w : World δ ε) (p : Int) : Prop :=
  IsPid p ∧ ∀ x, ¬ isbadsem x → p ∉ (w.sems x).queue

instance (w : World δ ε) (p : Int) : Decidable (w.Ready p) :=
  decidable_of_iff (IsPid p ∧ ∀ i ∈ List.range nsem.toNat, p ∉ (w.sems (i : Int)).queue) <| by
    apply and_congr_right
    intro _
    constructor
    · intro h x hx
      have hnonneg : 0 ≤ x := by
        by_contra hneg
        exact hx (Or.inl (by omega))
      have hlt : x < nsem := by
        by_contra hbig
        exact hx (Or.inr (by omega))
      have hmem : x.toNat ∈ List.range nsem.toNat := by
        rw [List.mem_range]
        omega
      have hq := h _ hmem
      rwa [Int.toNat_of_nonneg hnonneg] at hq
    · intro h i hi
      rw [List.mem_range] at hi
      apply h
      rintro (hneg | hbig)
      · omega
      · omega

/-! ## Inside `wait` -/

/-- The count and the queue of semaphore `x` agree, and the processes that are inside a
call of `wait` for it are those that wait and those that have been released. -/
structure Turns (w : World δ ε) (x : Int) (inside : Int → Prop) : Prop where
  used : (w.sems x).used = true
  agrees : (w.sems x).Agrees
  nodup : ((w.sems x).queue ++ w.granted x).Nodup
  pids : ∀ p, inside p → IsPid p
  inside : ∀ p, inside p ↔ p ∈ (w.sems x).queue ∨ p ∈ w.granted x

section Turns

variable {w w' : World δ ε} {x y me : Int} {inside inside' : Int → Prop}

theorem Turns.congr (h : w.Turns x inside) (hsem : w'.sems x = w.sems x)
    (hgranted : w'.granted x = w.granted x) (hinside : ∀ p, inside' p ↔ inside p) :
    w'.Turns x inside' := by
  refine ⟨?_, ?_, ?_, fun p hp => h.pids p ((hinside p).mp hp), ?_⟩
  · rw [hsem]
    exact h.used
  · rw [hsem]
    exact h.agrees
  · rw [hsem, hgranted]
    exact h.nodup
  · intro p
    rw [hinside, hsem, hgranted]
    exact h.inside p

@[simp]
theorem sems_setSem (f : Sem Int → Sem Int) : (w.setSem x f).sems x = f (w.sems x) :=
  update_self _ _ _

@[simp]
theorem sems_release : (release x w).sems x = (w.sems x).signal i32 :=
  update_self _ _ _

@[simp]
theorem granted_release : (release x w).granted x =
    w.granted x ++ if (w.sems x).count < 0 then (w.sems x).queue.take 1 else [] :=
  update_self _ _ _

@[simp]
theorem granted_leave : (leave x me w).granted x = (w.granted x).erase me :=
  update_self _ _ _

@[simp]
theorem shared_release : (release x w).shared = w.shared :=
  rfl

@[simp]
theorem log_release : (release x w).log = w.log :=
  rfl

/-- There are not more waiters than processes. -/
theorem Turns.count_ge (h : w.Turns x inside) : -nproc ≤ (w.sems x).count := by
  have hlen : (w.sems x).queue.length = (-(w.sems x).count).toNat := h.agrees
  have hle := length_le_nproc (l := (w.sems x).queue)
    (fun p hp => h.pids p ((h.inside p).mpr (Or.inl hp))) (List.nodup_append.mp h.nodup).1
  unfold nproc at *
  omega

/-- The process takes a unit at once. -/
theorem Turns.pass (h : w.Turns x inside) (hpos : 0 < (w.sems x).count)
    (hlt : (w.sems x).count < 0x80000000) :
    (w.setSem x (Sem.wait i32 me)).Turns x inside ∧
      ((w.setSem x (Sem.wait i32 me)).sems x).count = (w.sems x).count - 1 := by
  have hwrap : i32 ((w.sems x).count - 1) = (w.sems x).count - 1 := i32_eq (by omega) (by omega)
  have hqueue : ((w.sems x).wait i32 me).queue = (w.sems x).queue := by
    unfold Sem.wait
    rw [hwrap]
    exact if_neg (by omega)
  refine ⟨⟨?_, ?_, ?_, h.pids, ?_⟩, ?_⟩
  · rw [sems_setSem]
    exact h.used
  · rw [sems_setSem]
    exact h.agrees.wait hwrap
  · rw [sems_setSem, hqueue]
    exact h.nodup
  · rw [sems_setSem, hqueue]
    exact h.inside
  · rw [sems_setSem]
    exact hwrap

/-- The process joins the queue. -/
theorem Turns.block (h : w.Turns x inside) (hpid : IsPid me) (hnew : ¬ inside me)
    (hneg : (w.sems x).count ≤ 0) :
    (w.setSem x (Sem.wait i32 me)).Turns x (fun p => inside p ∨ p = me) ∧
      ((w.setSem x (Sem.wait i32 me)).sems x).count = (w.sems x).count - 1 := by
  have hge := h.count_ge
  have hwrap : i32 ((w.sems x).count - 1) = (w.sems x).count - 1 := by
    unfold nproc at hge
    exact i32_eq (by omega) (by omega)
  have hqueue : ((w.sems x).wait i32 me).queue = (w.sems x).queue ++ [me] := by
    unfold Sem.wait
    rw [hwrap]
    exact if_pos (by omega)
  have hout : me ∉ (w.sems x).queue ∧ me ∉ w.granted x := by
    rw [h.inside, not_or] at hnew
    exact hnew
  refine ⟨⟨?_, ?_, ?_, ?_, ?_⟩, ?_⟩
  · rw [sems_setSem]
    exact h.used
  · rw [sems_setSem]
    exact h.agrees.wait hwrap
  · rw [sems_setSem, hqueue]
    have hperm : ((w.sems x).queue ++ [me] ++ w.granted x).Perm
        (me :: ((w.sems x).queue ++ w.granted x)) := by
      rw [List.append_assoc]
      exact List.perm_middle
    apply hperm.nodup_iff.mpr
    rw [List.nodup_cons, List.mem_append, not_or]
    exact ⟨hout, h.nodup⟩
  · rintro p (hp | rfl)
    · exact h.pids p hp
    · exact hpid
  · intro p
    rw [sems_setSem, hqueue, List.mem_append, List.mem_singleton, h.inside]
    constructor
    · rintro ((hq | hg) | rfl)
      · exact Or.inl (Or.inl hq)
      · exact Or.inr hg
      · exact Or.inl (Or.inr rfl)
    · rintro ((hq | rfl) | hg)
      · exact Or.inl (Or.inl hq)
      · exact Or.inr rfl
      · exact Or.inl (Or.inr hg)
  · rw [sems_setSem]
    exact hwrap

/-- One signal: the first process that waits is released. -/
theorem Turns.signal (h : w.Turns x inside) (hlt : (w.sems x).count + 1 < 0x80000000) :
    (release x w).Turns x inside ∧
      ((release x w).sems x).count = (w.sems x).count + 1 ∧
        ((release x w).granted x).length =
          (w.granted x).length + if (w.sems x).count < 0 then 1 else 0 := by
  have hwrap : i32 ((w.sems x).count + 1) = (w.sems x).count + 1 := by
    have hge := h.count_ge
    unfold nproc at hge
    exact i32_eq (by omega) hlt
  have hagrees := h.agrees.signal hwrap
  refine ⟨⟨?_, ?_, ?_, h.pids, ?_⟩, ?_, ?_⟩
  · rw [sems_release]
    exact h.used
  · rw [sems_release]
    exact hagrees
  · rw [sems_release, granted_release]
    unfold Sem.signal
    split
    · cases hq : (w.sems x).queue with
      | nil => simpa [hq] using h.nodup
      | cons p q =>
          have hnodup := h.nodup
          rw [hq] at hnodup
          have hperm : (q ++ (w.granted x ++ [p])).Perm (p :: q ++ w.granted x) := by
            rw [← List.append_assoc]
            exact List.perm_append_singleton p (q ++ w.granted x)
          exact hperm.nodup_iff.mpr hnodup
    · rw [List.append_nil]
      exact h.nodup
  · intro p
    rw [h.inside, sems_release, granted_release]
    unfold Sem.signal
    split
    · cases hq : (w.sems x).queue with
      | nil => simp
      | cons r q =>
          simp only [List.tail_cons, List.take_succ_cons, List.take_zero, List.mem_cons,
            List.mem_append, List.not_mem_nil, or_false]
          constructor
          · rintro ((rfl | hq) | hg)
            · exact Or.inr (Or.inr rfl)
            · exact Or.inl hq
            · exact Or.inr (Or.inl hg)
          · rintro (hq | hg | rfl)
            · exact Or.inl (Or.inr hq)
            · exact Or.inr hg
            · exact Or.inl (Or.inl rfl)
    · rw [List.append_nil]
  · rw [sems_release]
    exact hwrap
  · rw [granted_release, List.length_append]
    congr 1
    split
    · have hagree : (w.sems x).queue.length = (-(w.sems x).count).toNat := h.agrees
      rw [List.length_take]
      omega
    · rfl

/-- A process that does not wait has been released, and goes on. -/
theorem Turns.leave (h : w.Turns x inside) (hx : ¬ isbadsem x) (hready : w.Ready me)
    (hme : inside me) :
    (World.leave x me w).Turns x (fun p => inside p ∧ p ≠ me) ∧
      (w.granted x).length = ((World.leave x me w).granted x).length + 1 := by
  have hgranted : me ∈ w.granted x := ((h.inside me).mp hme).resolve_left (hready.2 x hx)
  have hnodup := List.nodup_append.mp h.nodup
  have hsems : (World.leave x me w).sems x = w.sems x := rfl
  refine ⟨⟨?_, ?_, ?_, fun p hp => h.pids p hp.1, ?_⟩, ?_⟩
  · rw [hsems]
    exact h.used
  · rw [hsems]
    exact h.agrees
  · rw [hsems, granted_leave]
    exact h.nodup.sublist (List.Sublist.append_left List.erase_sublist _)
  · intro p
    rw [hsems, granted_leave, h.inside, hnodup.2.1.mem_erase_iff]
    constructor
    · rintro ⟨hq | hg, hne⟩
      · exact Or.inl hq
      · exact Or.inr ⟨hne, hg⟩
    · rintro (hq | ⟨hne, hg⟩)
      · refine ⟨Or.inl hq, ?_⟩
        rintro rfl
        exact hready.2 x hx hq
      · exact ⟨Or.inr hg, hne⟩
  · rw [granted_leave, List.length_erase_of_mem hgranted]
    have hpos := List.length_pos_of_mem hgranted
    omega

/-! ## Units -/

/-- The units of semaphore `x` that nobody has used yet: those that are left, and those
of the processes that have been released. -/
def units (w : World δ ε) (x : Int) : Int :=
  max (w.sems x).count 0 + (w.granted x).length

theorem count_le_units (w : World δ ε) (x : Int) : (w.sems x).count ≤ w.units x := by
  unfold units
  omega

theorem units_nonneg (w : World δ ε) (x : Int) : 0 ≤ w.units x := by
  unfold units
  omega

theorem units_congr (hsem : w'.sems x = w.sems x) (hgranted : w'.granted x = w.granted x) :
    w'.units x = w.units x := by
  unfold units
  rw [hsem, hgranted]

theorem granted_setSem (f : Sem Int → Sem Int) : (w.setSem x f).granted = w.granted :=
  rfl

theorem Turns.pass_units (h : w.Turns x inside) (hpos : 0 < (w.sems x).count)
    (hlt : (w.sems x).count < 0x80000000) :
    (w.setSem x (Sem.wait i32 me)).units x = w.units x - 1 := by
  have hcount : ((w.setSem x (Sem.wait i32 me)).sems x).count = (w.sems x).count - 1 :=
    (h.pass hpos hlt).2
  unfold units
  rw [hcount, granted_setSem]
  omega

theorem Turns.block_units (h : w.Turns x inside) (hpid : IsPid me) (hnew : ¬ inside me)
    (hneg : (w.sems x).count ≤ 0) : (w.setSem x (Sem.wait i32 me)).units x = w.units x := by
  have hcount := (h.block hpid hnew hneg).2
  unfold units
  rw [hcount, granted_setSem]
  omega

theorem Turns.leave_units (h : w.Turns x inside) (hx : ¬ isbadsem x) (hready : w.Ready me)
    (hme : inside me) : (World.leave x me w).units x = w.units x - 1 := by
  have hlen := (h.leave hx hready hme).2
  have hsems : (World.leave x me w).sems x = w.sems x := rfl
  unfold units
  rw [hsems, hlen]
  push_cast
  omega

theorem Turns.signal_units (h : w.Turns x inside) (hlt : w.units x + 1 < 0x80000000) :
    (release x w).Turns x inside ∧ (release x w).units x = w.units x + 1 := by
  have hle := w.count_le_units x
  obtain ⟨hturns, hcount, hgranted⟩ := h.signal (by omega)
  refine ⟨hturns, ?_⟩
  unfold units
  rw [hcount, hgranted]
  push_cast
  split
  · omega
  · omega

theorem Turns.signals_units (h : w.Turns x inside) (n : Nat)
    (hlt : w.units x + n < 0x80000000) :
    ((release x)^[n] w).Turns x inside ∧ ((release x)^[n] w).units x = w.units x + n := by
  induction n with
  | zero => exact ⟨h, (Int.add_zero _).symm⟩
  | succ n ih =>
      push_cast at hlt
      obtain ⟨hturns, hunits⟩ := ih (by omega)
      rw [Function.iterate_succ_apply']
      obtain ⟨hturns', hunits'⟩ := hturns.signal_units (by omega)
      refine ⟨hturns', ?_⟩
      rw [hunits', hunits]
      push_cast
      omega

/-! ## What signals leave alone -/

theorem release_frame (w : World δ ε) (x : Int) (n : Nat) :
    ((release x)^[n] w).shared = w.shared ∧ ((release x)^[n] w).log = w.log ∧
      ((release x)^[n] w).ndefers = w.ndefers ∧ ((release x)^[n] w).attempt = w.attempt := by
  induction n with
  | zero => exact ⟨rfl, rfl, rfl, rfl⟩
  | succ n ih =>
      rw [Function.iterate_succ_apply']
      exact ih

/-- Rescheduling is no longer deferred. -/
def settle (b : Bool) (w : World δ ε) : World δ ε :=
  { w with ndefers := 0, attempt := b }

theorem settle_release (b : Bool) (x : Int) (n : Nat) (w : World δ ε) :
    settle b ((release x)^[n] w) = (release x)^[n] (settle b w) := by
  have hcomm : Function.Commute (settle b : World δ ε → World δ ε) (release x) := fun _ => rfl
  exact (hcomm.iterate_right n) w

theorem release_other (hy : y ≠ x) (n : Nat) :
    ((release x)^[n] w).sems y = w.sems y ∧ ((release x)^[n] w).granted y = w.granted y := by
  induction n with
  | zero => exact ⟨rfl, rfl⟩
  | succ n ih =>
      rw [Function.iterate_succ_apply']
      constructor
      · rw [← ih.1]
        exact update_of_ne hy _ _
      · rw [← ih.2]
        exact update_of_ne hy _ _

end Turns

/-! ## Rules -/

section Rules

variable {κ Γ : Type} {M : Crew (World δ ε) κ} {I : World δ ε → (Int → Option Γ) → Prop}
variable {G : World δ ε → Prop} {me x : Int} {w : World δ ε} {L : Int → Option Γ}

/-- The processor is given away, with label `γ`. -/
theorem holds_resched {Q : Unit → World δ ε → (Int → Option Γ) → Prop} (γ : Γ)
    (hdefer : w.ndefers = 0) (hI : G w → I w (update L me (some γ)))
    (hgo : ∀ s L', I s L' → L' me = some γ → M.ready s me → Q () s L') :
    M.Holds I G me Q (resched w) L := by
  have hrun : resched w = .suspended w fun s => .done () s := by
    simp [resched, hdefer]
  rw [hrun]
  exact fun hG => ⟨γ, hI hG, hgo⟩

theorem wait_pass (hused : (w.sems x).used = true) (hpos : 0 < (w.sems x).count)
    (hlt : (w.sems x).count < 0x80000000) :
    wait me x w = .done ok (w.setSem x (Sem.wait i32 me)) := by
  have hwrap : i32 ((w.sems x).count - 1) = (w.sems x).count - 1 := i32_eq (by omega) (by omega)
  have hcount : ((w.setSem x (Sem.wait i32 me)).sems x).count = (w.sems x).count - 1 := by
    rw [sems_setSem]
    exact hwrap
  have hnot : ¬ (w.sems x).count - 1 < 0 := by omega
  simp only [wait, Coop.run_bind, Coop.run_get, Flow.bind_done, hused, Coop.run_modify, hcount,
    hnot, Bool.true_eq_false, if_false]
  rfl

theorem wait_block (hused : (w.sems x).used = true) (hneg : (w.sems x).count ≤ 0)
    (hge : -0x80000000 < (w.sems x).count) :
    wait me x w = (resched (w.setSem x (Sem.wait i32 me))).bind fun _ =>
      (modify (leave x me) >>= fun _ => pure ok) := by
  have hwrap : i32 ((w.sems x).count - 1) = (w.sems x).count - 1 := i32_eq (by omega) (by omega)
  have hcount : ((w.setSem x (Sem.wait i32 me)).sems x).count = (w.sems x).count - 1 := by
    rw [sems_setSem]
    exact hwrap
  have hlt : (w.sems x).count - 1 < 0 := by omega
  simp only [wait, Coop.run_bind, Coop.run_get, Flow.bind_done, hused, Coop.run_modify, hcount,
    hlt, if_true, Bool.true_eq_false, if_false]

/-- A process that waits takes a unit, or joins the queue with label `γ` and goes on
when it has been released. -/
theorem holds_wait {Q : Int → World δ ε → (Int → Option Γ) → Prop} (γ : Γ)
    (hused : (w.sems x).used = true) (hdefer : w.ndefers = 0)
    (hlt : (w.sems x).count < 0x80000000) (hge : -0x80000000 < (w.sems x).count)
    (hpass : 0 < (w.sems x).count → Q ok (w.setSem x (Sem.wait i32 me)) L)
    (hblock : (w.sems x).count ≤ 0 → G (w.setSem x (Sem.wait i32 me)) →
      I (w.setSem x (Sem.wait i32 me)) (update L me (some γ)))
    (hgo : ∀ s L', I s L' → L' me = some γ → M.ready s me → Q ok (leave x me s) L') :
    M.Holds I G me Q (wait me x w) L := by
  by_cases hneg : (w.sems x).count ≤ 0
  · rw [wait_block hused hneg hge]
    apply Crew.Holds.bind (Q := fun _ s L' => Q ok (leave x me s) L')
    · exact holds_resched γ hdefer (hblock hneg) hgo
    · exact fun _ s L' hQ => hQ
  · rw [wait_pass hused (by omega) hlt]
    exact hpass (by omega)

theorem wait_unused (hused : (w.sems x).used = false) : wait me x w = .done syserr w := by
  simp [wait, hused]

theorem signal_unused (hused : (w.sems x).used = false) : signal x w = .done syserr w := by
  simp [signal, hused]

/-- Nobody waits. -/
theorem signal_pass (hused : (w.sems x).used = true) (hpos : 0 ≤ (w.sems x).count) :
    signal x w = .done ok (release x w) := by
  have hnot : ¬ (w.sems x).count < 0 := by omega
  simp [signal, hused, hnot]

theorem reschedCntl_start (hdefer : w.ndefers = 0) :
    reschedCntl deferStart w = .done ok { w with ndefers := 1, attempt := false } := by
  simp [reschedCntl, hdefer]

/-- Signals are noted for later while rescheduling is deferred. -/
theorem signaln_deferred {n : Int} (hused : (w.sems x).used = true) (hn : 0 ≤ n)
    (hdefer : 0 < w.ndefers) : signaln x n w =
      .done ok { (release x)^[n.toNat] w with
        attempt := if (w.sems x).count < 0 ∧ 0 < n then true else w.attempt } := by
  have hnot : ¬ (n < 0 ∨ (w.sems x).used = false) := by
    rw [hused]
    simp [hn]
  obtain ⟨-, -, hsame, hattempt⟩ := release_frame w x n.toNat
  simp only [signaln, Coop.run_bind, Coop.run_get, Flow.bind_done, hnot, if_false, Coop.run_modify]
  split
  · have hrun : resched ((release x)^[n.toNat] w) =
        .done () { (release x)^[n.toNat] w with attempt := true } := by
      simp [resched, hsame, hdefer]
    rw [Coop.run_bind, hrun]
    rfl
  · rw [← hattempt]
    rfl

/-- Units are signaled, and the processor may be given away, with label `γ`. -/
theorem holds_signaln {Q : Int → World δ ε → (Int → Option Γ) → Prop} {n : Int} (γ : Γ)
    (hused : (w.sems x).used = true) (hn : 0 ≤ n) (hdefer : w.ndefers = 0)
    (hI : G ((release x)^[n.toNat] w) →
      I ((release x)^[n.toNat] w) (update L me (some γ)))
    (hgo : ∀ s L', I s L' → L' me = some γ → M.ready s me → Q ok s L')
    (hdone : Q ok ((release x)^[n.toNat] w) L) : M.Holds I G me Q (signaln x n w) L := by
  have hnot : ¬ (n < 0 ∨ (w.sems x).used = false) := by
    rw [hused]
    simp [hn]
  have hstill : ((release x)^[n.toNat] w).ndefers = 0 :=
    (w.release_frame x n.toNat).2.2.1.trans hdefer
  unfold signaln
  rw [Coop.run_bind, Coop.run_get, Flow.bind_done, Coop.run_ite, if_neg hnot, Coop.run_bind,
    Coop.run_modify, Flow.bind_done, Coop.run_ite]
  split
  · rw [Coop.run_bind]
    apply Crew.Holds.bind (Q := fun _ s L' => Q ok s L')
    · exact holds_resched γ hstill hI hgo
    · exact fun _ s L' hQ => hQ
  · exact hdone

/-- A signal is one unit. -/
theorem signal_eq_signaln (w : World δ ε) (x : Int) : signal x w = signaln x 1 w := by
  have hnot : ¬ (1 : Int) < 0 := by decide
  simp [signal, signaln, hnot]

/-- Rescheduling that was deferred takes place, with label `γ`. -/
theorem holds_stop {Q : Int → World δ ε → (Int → Option Γ) → Prop} (γ : Γ)
    (hdefer : w.ndefers = 1)
    (hI : G { w with ndefers := 0 } → I { w with ndefers := 0 } (update L me (some γ)))
    (hgo : ∀ s L', I s L' → L' me = some γ → M.ready s me → Q ok s L')
    (hdone : Q ok { w with ndefers := 0 } L) :
    M.Holds I G me Q (reschedCntl deferStop w) L := by
  by_cases hattempt : w.attempt = true
  · have hrun : reschedCntl deferStop w =
        (resched { w with ndefers := 0 }).bind fun _ => pure ok := by
      have hne : deferStop ≠ deferStart := by decide
      simp [reschedCntl, hne, hdefer, hattempt]
    rw [hrun]
    apply Crew.Holds.bind (Q := fun _ s L' => Q ok s L')
    · exact holds_resched γ rfl hI hgo
    · exact fun _ s L' hQ => hQ
  · have hrun : reschedCntl deferStop w = .done ok { w with ndefers := 0 } := by
      have hne : deferStop ≠ deferStart := by decide
      simp [reschedCntl, hne, hdefer, hattempt]
    rw [hrun]
    exact hdone

/-- Nobody waits. -/
theorem semdelete_pass (hused : (w.sems x).used = true) (hpos : 0 ≤ (w.sems x).count) :
    semdelete x w = .done ok (discard x w) := by
  have hnot : ¬ (w.sems x).count < 0 := by omega
  simp [semdelete, hused, hnot]

end Rules

/-! ## Semaphores that are not in use -/

/-- Nobody waits for a semaphore that is not in use, and the next semaphore to try is
one of the table. -/
structure Tidy (w : World δ ε) : Prop where
  nextsem_nonneg : 0 ≤ w.nextsem
  nextsem_lt : w.nextsem < nsem
  ndefers : w.ndefers = 0
  good : ∀ x, (w.sems x).used = true → ¬ isbadsem x
  queue : ∀ x, (w.sems x).used = false → (w.sems x).queue = []
  granted : ∀ x, (w.sems x).used = false → w.granted x = []

section Creation

variable {w w' : World δ ε} {x n : Int}

theorem Tidy.congr (h : w.Tidy) (hnext : w'.nextsem = w.nextsem) (hdefer : w'.ndefers = w.ndefers)
    (hsems : w'.sems = w.sems) (hgranted : w'.granted = w.granted) : w'.Tidy := by
  refine ⟨?_, ?_, ?_, ?_, ?_, ?_⟩
  · rw [hnext]
    exact h.nextsem_nonneg
  · rw [hnext]
    exact h.nextsem_lt
  · rw [hdefer]
    exact h.ndefers
  · rw [hsems]
    exact h.good
  · rw [hsems]
    exact h.queue
  · rw [hsems, hgranted]
    exact h.granted

/-- A semaphore changes that stays in use. -/
theorem Tidy.setSem {f : Sem Int → Sem Int} (h : w.Tidy) (hx : (w.sems x).used = true)
    (hf : (f (w.sems x)).used = true) : (w.setSem x f).Tidy := by
  have hother : ∀ y, ((w.setSem x f).sems y).used = (w.sems y).used ∧
      (((w.setSem x f).sems y).used = false → (w.setSem x f).sems y = w.sems y) := by
    intro y
    by_cases hy : y = x
    · subst hy
      constructor
      · rw [sems_setSem, hx, hf]
      · intro hfalse
        rw [sems_setSem, hf] at hfalse
        contradiction
    · have hsame : (w.setSem x f).sems y = w.sems y := update_of_ne hy _ _
      rw [hsame]
      exact ⟨rfl, fun _ => rfl⟩
  refine ⟨h.nextsem_nonneg, h.nextsem_lt, h.ndefers, ?_, ?_, ?_⟩
  · intro y hy
    rw [(hother y).1] at hy
    exact h.good y hy
  · intro y hy
    rw [(hother y).2 hy]
    rw [(hother y).1] at hy
    exact h.queue y hy
  · intro y hy
    rw [(hother y).1] at hy
    exact h.granted y hy

/-- A semaphore is deleted for which nobody waits. -/
theorem Tidy.discard (h : w.Tidy) (hqueue : (w.sems x).queue = []) (hgranted : w.granted x = []) :
    (World.discard x w).Tidy := by
  have hsems : (World.discard x w).sems = update w.sems x ⟨false, 0, []⟩ := by
    unfold World.discard Sem.delete
    rw [hqueue, List.drop_nil]
  have hgr : (World.discard x w).granted = w.granted := by
    unfold World.discard
    simp [hqueue, hgranted]
  refine ⟨h.nextsem_nonneg, h.nextsem_lt, h.ndefers, ?_, ?_, ?_⟩
  · intro y hy
    rw [hsems] at hy
    by_cases heq : y = x
    · simp [heq] at hy
    · rw [update_of_ne heq] at hy
      exact h.good y hy
  · intro y hy
    rw [hsems] at hy ⊢
    by_cases heq : y = x
    · simp [heq]
    · rw [update_of_ne heq] at hy ⊢
      exact h.queue y hy
  · intro y hy
    rw [hsems] at hy
    rw [hgr]
    by_cases heq : y = x
    · rw [heq]
      exact hgranted
    · rw [update_of_ne heq] at hy
      exact h.granted y hy

theorem Tidy.release (h : w.Tidy) (hx : (w.sems x).used = true) : (World.release x w).Tidy := by
  have hset : (w.setSem x (Sem.signal i32)).Tidy := h.setSem hx hx
  refine ⟨h.nextsem_nonneg, h.nextsem_lt, h.ndefers, hset.good, hset.queue, ?_⟩
  intro y hy
  have hne : y ≠ x := by
    rintro rfl
    rw [sems_release] at hy
    have hused : ((w.sems y).signal i32).used = true := hx
    rw [hused] at hy
    contradiction
  have hsame : (World.release x w).granted y = w.granted y := update_of_ne hne _ _
  rw [hsame]
  exact hset.granted y hy

theorem newsemLoop_done (i : Nat) (h₀ : 0 ≤ w.nextsem) (h : w.nextsem < nsem) :
    ∃ n, 0 ≤ n ∧ n < nsem ∧ (newsemLoop i w = .done syserr { w with nextsem := n } ∨
      ∃ x, ¬ isbadsem x ∧ (w.sems x).used = false ∧ newsemLoop i w =
        .done x ({ w with nextsem := n }.setSem x fun v => { v with used := true })) := by
  induction i generalizing w with
  | zero => exact ⟨w.nextsem, h₀, h, Or.inl rfl⟩
  | succ i ih =>
      have hgood : ¬ isbadsem w.nextsem := by
        unfold isbadsem
        omega
      let next := if w.nextsem + 1 ≥ nsem then 0 else w.nextsem + 1
      have hnext : 0 ≤ next ∧ next < nsem := by
        unfold next
        split
        · exact ⟨Int.le_refl 0, by decide⟩
        · omega
      have hrun : newsemLoop (i + 1) w =
          if (w.sems w.nextsem).used = false then
            .done w.nextsem
              ({ w with nextsem := next }.setSem w.nextsem fun v => { v with used := true })
          else newsemLoop i { w with nextsem := next } := by
        unfold next
        by_cases hwrap : w.nextsem + 1 ≥ nsem
        · simp only [newsemLoop, Coop.run_bind, Coop.run_get, Flow.bind_done, Coop.run_modify,
            if_pos hwrap]
          split <;> rfl
        · simp only [newsemLoop, Coop.run_bind, Coop.run_get, Flow.bind_done, Coop.run_modify,
            if_neg hwrap]
          split <;> rfl
      rw [hrun]
      by_cases hused : (w.sems w.nextsem).used = false
      · rw [if_pos hused]
        exact ⟨next, hnext.1, hnext.2, Or.inr ⟨w.nextsem, hgood, hused, rfl⟩⟩
      · rw [if_neg hused]
        exact ih (w := { w with nextsem := next }) hnext.1 hnext.2

theorem Tidy.created (h : w.Tidy) (hx : ¬ isbadsem x) {next : Int} (h₀ : 0 ≤ next)
    (hlt : next < nsem) (n : Int) :
    ({ w with nextsem := next }.setSem x fun _ => ⟨true, n, []⟩).Tidy := by
  have hsems : ({ w with nextsem := next }.setSem x fun _ => ⟨true, n, []⟩).sems =
      update w.sems x ⟨true, n, []⟩ :=
    rfl
  refine ⟨h₀, hlt, h.ndefers, ?_, ?_, ?_⟩
  · intro y hy
    rw [hsems] at hy
    by_cases heq : y = x
    · rw [heq]
      exact hx
    · rw [update_of_ne heq] at hy
      exact h.good y hy
  · intro y hy
    rw [hsems] at hy ⊢
    by_cases heq : y = x
    · simp [heq]
    · rw [update_of_ne heq] at hy ⊢
      exact h.queue y hy
  · intro y hy
    rw [hsems] at hy
    by_cases heq : y = x
    · simp [heq] at hy
    · rw [update_of_ne heq] at hy
      exact h.granted y hy

/-- A semaphore is created, or there is none left. -/
theorem semcreate_done (h : w.Tidy) (hn : 0 ≤ n) :
    ∃ next, 0 ≤ next ∧ next < nsem ∧
      (semcreate n w = .done syserr { w with nextsem := next } ∨
        ∃ x, ¬ isbadsem x ∧ (w.sems x).used = false ∧ semcreate n w =
          .done x ({ w with nextsem := next }.setSem x fun _ => ⟨true, n, []⟩)) := by
  have hnot : ¬ n < 0 := by omega
  obtain ⟨next, h₀, hlt, hfail | ⟨x, hx, hunused, hdone⟩⟩ :=
    newsemLoop_done nsem.toNat h.nextsem_nonneg h.nextsem_lt
  · refine ⟨next, h₀, hlt, Or.inl ?_⟩
    simp [semcreate, hnot, hfail]
  · refine ⟨next, h₀, hlt, Or.inr ⟨x, hx, hunused, ?_⟩⟩
    have hne : x ≠ syserr := by
      rintro rfl
      exact hx (Or.inl (by decide))
    simp only [semcreate, hnot, if_false, Coop.run_bind, hdone, Flow.bind_done, Coop.run_ite, hne,
      Coop.run_modify, Coop.run_pure]
    simp [setSem, h.queue x hunused]

theorem Tidy.signals (h : w.Tidy) (hx : (w.sems x).used = true) (n : Nat) :
    ((World.release x)^[n] w).Tidy := by
  have hboth : ((World.release x)^[n] w).Tidy ∧
      (((World.release x)^[n] w).sems x).used = true := by
    induction n with
    | zero => exact ⟨h, hx⟩
    | succ n ih =>
        rw [Function.iterate_succ_apply']
        refine ⟨ih.1.release ih.2, ?_⟩
        rw [sems_release]
        exact ih.2
  exact hboth.1

theorem Tidy.leave (h : w.Tidy) (hx : (w.sems x).used = true) (p : Int) :
    (World.leave x p w).Tidy := by
  refine ⟨h.nextsem_nonneg, h.nextsem_lt, h.ndefers, h.good, h.queue, ?_⟩
  intro y hy
  have hne : y ≠ x := by
    rintro rfl
    have hy' : (w.sems y).used = false := hy
    rw [hx] at hy'
    contradiction
  have hsame : (World.leave x p w).granted y = w.granted y := update_of_ne hne _ _
  rw [hsame]
  exact h.granted y hy

end Creation

/-! ## The units of a resource -/

/-- There are `n` units of what semaphore `x` counts: those that nobody has used, and `k`
that the running process holds.  The label of a process inside `wait` is `γ`. -/
structure Supply {Γ : Type} (x k n : Int) (γ : Γ) (w : World δ ε) (L : Int → Option Γ) :
    Prop where
  tidy : w.Tidy
  turns : w.Turns x fun p => L p = some γ
  units : w.units x + k = n

section Supply

variable {Γ : Type} {w w' : World δ ε} {L L' : Int → Option Γ} {me x k n : Int} {γ γ' : Γ}

theorem Supply.congr (h : Supply x k n γ w L) (htidy : w'.Tidy) (hsem : w'.sems x = w.sems x)
    (hgranted : w'.granted x = w.granted x) : Supply x k n γ w' L :=
  ⟨htidy, h.turns.congr hsem hgranted fun _ => Iff.rfl,
    (congrArg (· + k) (units_congr hsem hgranted)).trans h.units⟩

/-- What is shared beside the semaphores makes no difference. -/
theorem Supply.map {δ' : Type} (h : Supply x k n γ w L) (f : δ → δ') :
    Supply x k n γ (w.map f) L where
  tidy := ⟨h.tidy.nextsem_nonneg, h.tidy.nextsem_lt, h.tidy.ndefers, h.tidy.good, h.tidy.queue,
    h.tidy.granted⟩
  turns := ⟨h.turns.used, h.turns.agrees, h.turns.nodup, h.turns.pids, h.turns.inside⟩
  units := h.units

/-- The process stops at another place. -/
theorem Supply.pause (h : Supply x k n γ w (update L me none)) (hne : γ' ≠ γ) :
    Supply x k n γ w (update L me (some γ')) := by
  refine ⟨h.tidy, h.turns.congr rfl rfl fun p => ?_, h.units⟩
  by_cases hp : p = me
  · simp [hp, hne]
  · simp [hp]

/-- The process goes on from another place. -/
theorem Supply.unpause (h : Supply x k n γ w L) (hme : L me = some γ') (hne : γ' ≠ γ) :
    Supply x k n γ w (update L me none) := by
  refine ⟨h.tidy, h.turns.congr rfl rfl fun p => ?_, h.units⟩
  by_cases hp : p = me
  · simp [hp, hme, hne]
  · simp [hp]

theorem Supply.units_le (h : Supply x k n γ w L) (hk : 0 ≤ k) : w.units x ≤ n := by
  have hunits := h.units
  omega

theorem Supply.count_lt (h : Supply x k n γ w L) (hk : 0 ≤ k) (hn : n < 0x80000000) :
    (w.sems x).count < 0x80000000 := by
  have hle := w.count_le_units x
  have hunits := h.units_le hk
  omega

theorem Supply.count_gt (h : Supply x k n γ w L) : -0x80000000 < (w.sems x).count := by
  have hge := h.turns.count_ge
  unfold nproc at hge
  omega

theorem Supply.pass (h : Supply x 0 n γ w L) (hn : n < 0x80000000)
    (hpos : 0 < (w.sems x).count) : Supply x 1 n γ (w.setSem x (Sem.wait i32 me)) L := by
  have hlt := h.count_lt (Int.le_refl 0) hn
  have hunits := h.units
  refine ⟨h.tidy.setSem h.turns.used h.turns.used, (h.turns.pass hpos hlt).1, ?_⟩
  rw [h.turns.pass_units hpos hlt]
  omega

theorem Supply.block (h : Supply x 0 n γ w (update L me none)) (hpid : IsPid me)
    (hneg : (w.sems x).count ≤ 0) :
    Supply x 0 n γ (w.setSem x (Sem.wait i32 me)) (update L me (some γ)) := by
  have hnew : ¬ update L me none me = some γ := by simp
  refine ⟨h.tidy.setSem h.turns.used h.turns.used, ?_, ?_⟩
  · apply (h.turns.block hpid hnew hneg).1.congr rfl rfl
    intro p
    by_cases hp : p = me
    · simp [hp]
    · simp [hp]
  · rw [h.turns.block_units hpid hnew hneg]
    exact h.units

/-- A process that was released goes on. -/
theorem Supply.leave (h : Supply x 0 n γ w L) (hready : w.Ready me) (hme : L me = some γ) :
    Supply x 1 n γ (World.leave x me w) (update L me none) := by
  have hgood := h.tidy.good x h.turns.used
  have hunits := h.units
  refine ⟨h.tidy.leave h.turns.used me, ?_, ?_⟩
  · apply (h.turns.leave hgood hready hme).1.congr rfl rfl
    intro p
    by_cases hp : p = me
    · simp [hp]
    · simp [hp]
  · rw [h.turns.leave_units hgood hready hme]
    omega

/-- The units that the running process holds are signaled. -/
theorem Supply.signals (h : Supply x k n γ w L) (hk : 0 ≤ k) (hn : n < 0x80000000) :
    Supply x 0 n γ ((release x)^[k.toNat] w) L := by
  have hunits := h.units
  obtain ⟨hturns, hmore⟩ := h.turns.signals_units k.toNat (by omega)
  refine ⟨h.tidy.signals h.turns.used _, hturns, ?_⟩
  rw [hmore]
  omega

end Supply

/-! ## The log -/

/-- Events are only added. -/
def Logged (w w' : World δ ε) : Prop :=
  w.log <+: w'.log

instance : IsPreorder (World δ ε) Logged where
  refl _ := List.prefix_rfl
  trans _ _ _ h h' := List.IsPrefix.trans h h'

/-- What the processes share, and the log. -/
def seen (w : World δ ε) : δ × List ε :=
  (w.shared, w.log)

/-- Every event satisfies `ok`. -/
def AllEvents (ok : ε → Prop) (w : World δ ε) : Prop :=
  ∀ e ∈ w.log, ok e

instance (ok : ε → Prop) [DecidablePred ok] (w : World δ ε) : Decidable (AllEvents ok w) :=
  inferInstanceAs (Decidable (∀ e ∈ w.log, ok e))

section Log

variable {ok : ε → Prop} {w w' : World δ ε} {e : ε}

theorem Logged.of_eq (h : w'.log = w.log) : Logged w w' := by
  unfold Logged
  rw [h]

theorem Logged.note (w : World δ ε) (e : ε) : Logged w (w.note e) :=
  List.prefix_append _ _

theorem AllEvents.of_logged (h : AllEvents ok w') (hlog : Logged w w') : AllEvents ok w :=
  fun e he => h e (hlog.subset he)

theorem AllEvents.of_note (h : AllEvents ok (w.note e)) : ok e :=
  h e (List.mem_append_right _ (List.mem_singleton_self e))

theorem resched_seen : (resched : WorldM δ ε Unit).Within (SameView seen) := by
  apply Coop.Within.read
  intro w
  apply Coop.Within.ite
  · exact .modify fun _ => rfl
  · exact .giveAway

theorem wait_seen (me x : Int) : (wait me x : WorldM δ ε Int).Within (SameView seen) := by
  apply Coop.Within.read
  intro w
  apply Coop.Within.ite
  · exact .pure _
  · apply Coop.Within.bind
    · exact .modify fun _ => rfl
    · intro _
      apply Coop.Within.read
      intro w
      apply Coop.Within.ite
      · apply resched_seen.bind
        intro _
        apply Coop.Within.bind
        · exact .modify fun _ => rfl
        · exact fun _ => .pure _
      · exact .pure _

theorem signal_seen (x : Int) : (signal x : WorldM δ ε Int).Within (SameView seen) := by
  apply Coop.Within.read
  intro w
  apply Coop.Within.ite
  · exact .pure _
  · apply Coop.Within.bind
    · exact .modify fun _ => rfl
    · intro _
      apply Coop.Within.ite
      · exact resched_seen.bind fun _ => .pure _
      · exact .pure _

theorem signaln_seen (x n : Int) : (signaln x n : WorldM δ ε Int).Within (SameView seen) := by
  apply Coop.Within.read
  intro w
  apply Coop.Within.ite
  · exact .pure _
  · apply Coop.Within.bind
    · apply Coop.Within.modify
      intro w
      obtain ⟨hshared, hlog, -⟩ := w.release_frame x n.toNat
      exact Prod.ext hshared hlog
    · intro _
      apply Coop.Within.ite
      · exact resched_seen.bind fun _ => .pure _
      · exact .pure _

theorem semdelete_seen (x : Int) : (semdelete x : WorldM δ ε Int).Within (SameView seen) := by
  apply Coop.Within.read
  intro w
  apply Coop.Within.ite
  · exact .pure _
  · apply Coop.Within.bind
    · exact .modify fun _ => rfl
    · intro _
      apply Coop.Within.ite
      · exact resched_seen.bind fun _ => .pure _
      · exact .pure _

theorem reschedCntl_seen (defer : Int) :
    (reschedCntl defer : WorldM δ ε Int).Within (SameView seen) := by
  have hpause : (do
      let w ← get
      if w.ndefers = 0 ∧ w.attempt = true then
        resched
      return ok : WorldM δ ε Int).Within (SameView seen) :=
    .read fun w => .when resched_seen fun _ => .pure _
  unfold reschedCntl
  apply Coop.Within.ite
  · apply Coop.Within.read
    intro w
    apply Coop.Within.bind
    · exact .modify fun _ => rfl
    · exact fun _ => .when (.modify fun _ => rfl) fun _ => .pure _
  apply Coop.Within.ite
  · apply Coop.Within.read
    intro w
    apply Coop.Within.ite
    · exact .pure _
    · apply Coop.Within.bind
      · exact .modify fun _ => rfl
      · exact fun _ => hpause
  · exact .pure _

/-- A procedure that leaves the log alone adds no event. -/
theorem within_logged {α : Type} {x : WorldM δ ε α} (hx : x.Within (SameView seen)) :
    x.Within Logged :=
  fun w => (hx w).mono fun _ _ h => .of_eq (congrArg Prod.snd h)

theorem wait_within (me x : Int) : (wait me x : WorldM δ ε Int).Within Logged :=
  within_logged (wait_seen me x)

theorem signal_within (x : Int) : (signal x : WorldM δ ε Int).Within Logged :=
  within_logged (signal_seen x)

theorem signaln_within (x n : Int) : (signaln x n : WorldM δ ε Int).Within Logged :=
  within_logged (signaln_seen x n)

theorem semdelete_within (x : Int) : (semdelete x : WorldM δ ε Int).Within Logged :=
  within_logged (semdelete_seen x)

end Log

section Rest

variable {κ Γ α β : Type} {M : Crew (World δ ε) κ} {I : World δ ε → (Int → Option Γ) → Prop}
variable {ok : ε → Prop} {me : Int} {w : World δ ε} {L : Int → Option Γ} {e : ε}

/-- An event that is not allowed has been noted. -/
theorem holds_of_bad {Q : α → World δ ε → (Int → Option Γ) → Prop} {x : WorldM δ ε α}
    (hx : x.Within Logged) (he : ¬ ok e) :
    M.Holds I (AllEvents ok) me (fun a s L => AllEvents ok s → Q a s L) (x (w.note e)) L := by
  apply Crew.Holds.of_within (hx (w.note e))
  intro s hlog hall
  exact he (hall.of_logged hlog).of_note

/-- A part of the execution after which the invariant holds, and the rest. -/
theorem holds_andThen {x : Flow (World δ ε) α} {f : α → WorldM δ ε β}
    (hx : M.Holds I (AllEvents ok) me (Crew.Ends I (AllEvents ok) me) x L)
    (hf : ∀ a s L, I s (update L me none) →
      M.Holds I (AllEvents ok) me (Crew.Ends I (AllEvents ok) me) (f a s) L)
    (hlog : ∀ a, (f a).Within Logged) :
    M.Holds I (AllEvents ok) me (Crew.Ends I (AllEvents ok) me) (x.bind f) L := by
  apply hx.bind
  intro a s L hends
  by_cases hs : AllEvents ok s
  · exact hf a s L (hends hs)
  · apply Crew.Holds.of_within (hlog a s)
    exact fun s' hlog hall => hs (hall.of_logged hlog)

/-- The process may be interrupted, with label `γ`, before it goes on. -/
theorem holds_giveAway {f : Unit → WorldM δ ε α} {Q : α → World δ ε → (Int → Option Γ) → Prop}
    {G : World δ ε → Prop} (γ : Γ) (hI : I w (update L me (some γ)))
    (hf : ∀ s L', I s L' → L' me = some γ → M.ready s me → M.Holds I G me Q (f () s) L') :
    M.Holds I G me Q ((Coop.giveAway >>= f) w) L :=
  fun _ => ⟨γ, hI, hf⟩

end Rest

end World

/-! ## The kernel -/

/-- The semaphores of the kernel. -/
def worldOf (s : Kernel) : World Unit Unit where
  sems := semView s
  nextsem := s.nextsem
  ndefers := 0
  attempt := false
  shared := ()
  granted := fun _ => []
  log := []

/-- What a call of process `p` does in a world. -/
def KCall.inWorld (p : Int) : KCall → Option (WorldM Unit Unit Int)
  | .wait sem => some (World.wait p sem.toInt)
  | .signal sem => some (World.signal sem.toInt)
  | .signaln sem count => some (World.signaln sem.toInt count.toInt)
  | .semdelete sem => some (World.semdelete sem.toInt)
  | _ => none

/-- The state in which an execution stops for the first time. -/
def Foundations.Flow.firstStop {σ α : Type} : Flow σ α → Option σ
  | .done _ s | .suspended s _ | .halted s => some s
  | .stuck => none

section KernelWorld

variable {s : Kernel} {x p : Int}

theorem used_worldOf : ((worldOf s).sems x).used = true ↔ Usable s x := by
  show (semView s x).used = true ↔ _
  unfold semView Usable
  by_cases hbad : isbadsem x
  · simp [hbad]
  · cases hst : (s.semtab x).sstate <;> simp [hbad]

theorem sems_release_iterate {δ ε : Type} (w : World δ ε) (n : Nat) :
    ((World.release x)^[n] w).sems =
      SemEvent.applyAll i32 w.sems (List.replicate n (.signal x)) := by
  induction n generalizing w with
  | zero => rfl
  | succ n ih =>
      rw [Function.iterate_succ_apply, ih, List.replicate_succ, SemEvent.applyAll_cons]
      rfl

/-- The execution of a call in the world of the kernel stops with the semaphores that
the events of the call leave. -/
theorem inWorld_stops {c : KCall} {y : WorldM Unit Unit Int} (hy : c.inWorld s.currpid = some y)
    (out : Outcome) : ∃ w, (y (worldOf s)).firstStop = some w ∧
      w.sems = SemEvent.applyAll i32 (semView s) (c.events false s out) := by
  have hdefer : (worldOf s).ndefers = 0 := rfl
  have hunused : ∀ x, ¬ Usable s x → ((worldOf s).sems x).used = false := by
    intro x hx
    rw [← used_worldOf] at hx
    simpa using hx
  cases c with
  | wait sem =>
      obtain rfl := Option.some.inj hy
      by_cases hx : Usable s sem.toInt
      · have hused := used_worldOf.mpr hx
        refine ⟨(worldOf s).setSem sem.toInt (Sem.wait i32 s.currpid), ?_, ?_⟩
        · simp only [World.wait, Coop.run_bind, Coop.run_get, Flow.bind_done, hused,
            Coop.run_modify, Bool.true_eq_false, if_false]
          split
          · simp [World.resched, World.setSem, hdefer, Flow.firstStop]
          · rfl
        · simp only [KCall.events, waitEvents, if_pos hx, Bool.false_eq_true, if_false]
          rfl
      · rw [World.wait_unused (hunused _ hx)]
        refine ⟨worldOf s, rfl, ?_⟩
        simp only [KCall.events, waitEvents, if_neg hx, Bool.false_eq_true, if_false]
        rfl
  | signal sem =>
      obtain rfl := Option.some.inj hy
      by_cases hx : Usable s sem.toInt
      · have hused := used_worldOf.mpr hx
        refine ⟨World.release sem.toInt (worldOf s), ?_, ?_⟩
        · simp only [World.signal, Coop.run_bind, Coop.run_get, Flow.bind_done, hused,
            Coop.run_modify, Bool.true_eq_false, if_false]
          split
          · simp [World.resched, World.release, hdefer, Flow.firstStop]
          · rfl
        · simp only [KCall.events, signalEvents, if_pos hx, Bool.false_eq_true, if_false]
          rfl
      · rw [World.signal_unused (hunused _ hx)]
        refine ⟨worldOf s, rfl, ?_⟩
        simp only [KCall.events, signalEvents, if_neg hx, Bool.false_eq_true, if_false]
        rfl
  | signaln sem count =>
      obtain rfl := Option.some.inj hy
      have hevents : KCall.events false s out (.signaln sem count) =
          signalnEvents s sem.toInt count.toInt := rfl
      rw [hevents]
      unfold signalnEvents
      by_cases hx : Usable s sem.toInt ∧ 0 ≤ count.toInt
      · have hused := used_worldOf.mpr hx.1
        have hnot : ¬ count.toInt < 0 := by omega
        refine ⟨(World.release sem.toInt)^[count.toInt.toNat] (worldOf s), ?_, ?_⟩
        · simp only [World.signaln, Coop.run_bind, Coop.run_get, Flow.bind_done, hused, hnot,
            Coop.run_modify, Bool.true_eq_false, false_or, if_false]
          split
          · have hstill : ∀ n, ((World.release sem.toInt)^[n] (worldOf s)).ndefers = 0 := by
              intro n
              induction n with
              | zero => rfl
              | succ n ih =>
                  rw [Function.iterate_succ_apply']
                  exact ih
            simp [World.resched, hstill, Flow.firstStop]
          · rfl
        · rw [if_pos hx.1, sems_release_iterate]
          rfl
      · have hrun : World.signaln sem.toInt count.toInt (worldOf s) = .done syserr (worldOf s) := by
          have hbad : count.toInt < 0 ∨ ((worldOf s).sems sem.toInt).used = false := by
            by_cases hneg : count.toInt < 0
            · exact Or.inl hneg
            · exact Or.inr (hunused _ fun hu => hx ⟨hu, by omega⟩)
          simp [World.signaln, hbad]
        rw [hrun]
        refine ⟨worldOf s, rfl, ?_⟩
        split
        · next hu =>
            have hzero : count.toInt.toNat = 0 := by
              have hneg : ¬ 0 ≤ count.toInt := fun hpos => hx ⟨hu, hpos⟩
              omega
            rw [hzero]
            rfl
        · rfl
  | semdelete sem =>
      obtain rfl := Option.some.inj hy
      by_cases hx : Usable s sem.toInt
      · have hused := used_worldOf.mpr hx
        refine ⟨World.discard sem.toInt (worldOf s), ?_, ?_⟩
        · simp only [World.semdelete, Coop.run_bind, Coop.run_get, Flow.bind_done, hused,
            Coop.run_modify, Bool.true_eq_false, if_false]
          split
          · simp [World.resched, World.discard, hdefer, Flow.firstStop]
          · rfl
        · simp only [KCall.events, semdeleteEvents, if_pos hx, Bool.false_eq_true, if_false]
          rfl
      · have hrun : World.semdelete sem.toInt (worldOf s) = .done syserr (worldOf s) := by
          simp [World.semdelete, hunused _ hx]
        rw [hrun]
        refine ⟨worldOf s, rfl, ?_⟩
        simp only [KCall.events, semdeleteEvents, if_neg hx, Bool.false_eq_true, if_false]
        rfl
  | _ => cases hy

/-- No process runs that waits for a semaphore. -/
theorem ready_of_running (h : Inv ordinary s) : (worldOf s).Ready s.currpid := by
  refine ⟨h.kernelOk.consistent.pid, ?_⟩
  intro x hx hmem
  have hq := h.queueInvariant.wait x hx s.currpid h.kernelOk.consistent.pid
  have hin : s.currpid ∈ members s.queuetab (s.squeue x) := by
    rw [← queue_semView hx]
    exact hmem
  have hpos := List.count_pos_iff.mpr hin
  rw [hq, h.running] at hpos
  simp at hpos

end KernelWorld

/--
In every run of ordinary calls, a segment that begins a semaphore call leaves the
semaphores of the kernel as that call leaves those of a world, and the process that
runs a segment does not wait in the world.
-/
theorem kernel_world {b : Board} {tr : List (Segment Kernel KCall)} {C : Config Kernel KCall}
    (hrun : kernelMachine.Run NullRuns (Machine.initial (boot b)) tr C) :
    ∀ seg ∈ tr, (worldOf seg.before).Ready seg.who ∧
      (seg.resumed = false → ∀ y, seg.call.inWorld seg.who = some y →
        ∃ w, (y (worldOf seg.before)).firstStop = some w ∧ semView seg.after = w.sems) := by
  have hI := (boot_eq b).2.inv ordinary
  induction hrun with
  | start => simp
  | @step tr C C' seg hrun hstep hok ih =>
      intro seg' hmem
      rcases List.mem_append.mp hmem with hmem | hmem
      · exact ih seg' hmem
      obtain rfl := List.mem_singleton.mp hmem
      obtain ⟨hbefore, -, hwho⟩ := hstep.segment
      have hinv := (kernel_run nullRuns_admits hI hrun).1
      have hseg := (kernel_run nullRuns_admits hI (.step hrun hstep hok)).2 seg' (by simp)
      have hcur : seg'.who = seg'.before.currpid := by
        rw [hwho, hbefore]
        rfl
      rw [hcur]
      refine ⟨?_, ?_⟩
      · rw [hbefore]
        exact ready_of_running hinv
      · intro hfirst y hy
        obtain ⟨w, hstop, hsems⟩ := inWorld_stops hy seg'.outcome
        refine ⟨w, hstop, ?_⟩
        rw [hseg.sems, hfirst, hsems]

end Xinu
