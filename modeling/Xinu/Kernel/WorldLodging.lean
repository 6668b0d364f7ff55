import Xinu.Kernel.PortTraffic

/-!
# Semaphores that are reset and deleted

A semaphore that is deleted or reset releases all that wait, and may be given to
somebody else before they run again.  A process that was released has a label, which
tells what it waited for; the tokens of the semaphore's present owner are those that
are left, and those of released processes whose labels are live.

Main results:

- Theorem `Lodged.change`: a step that concerns one semaphore keeps the processes that
  are inside a call of `wait` where their labels say.
- Theorems `tokens_pass`, `tokens_leave` and `tokens_release`: the live tokens.
-/

namespace Xinu
namespace World

open Foundations Function

variable {δ ε Γ : Type}

/-- The label of process `q` places it at semaphore `x`. -/
def At (place : Γ → Option Int) (L : Int → Option Γ) (x q : Int) : Prop :=
  ∃ γ, L q = some γ ∧ place γ = some x

/-- The processes whose labels place them at a semaphore wait there or have been
released. -/
structure Lodged (place : Γ → Option Int) (w : World δ ε) (L : Int → Option Γ) : Prop where
  nextsem_nonneg : 0 ≤ w.nextsem
  nextsem_lt : w.nextsem < nsem
  ndefers : w.ndefers = 0
  good : ∀ x, (w.sems x).used = true → ¬ isbadsem x
  idle : ∀ x, (w.sems x).used = false → (w.sems x).queue = []
  nodup : ∀ x, ((w.sems x).queue ++ w.granted x).Nodup
  pids : ∀ q γ, L q = some γ → IsPid q
  placed : ∀ x q, At place L x q → q ∈ (w.sems x).queue ∨ q ∈ w.granted x
  released : ∀ x, ∀ q ∈ w.granted x, At place L x q

/-- Semaphore `x` is in use, and all that wait for it have a label there. -/
structure Manned (place : Γ → Option Int) (w : World δ ε) (L : Int → Option Γ) (x : Int) :
    Prop where
  used : (w.sems x).used = true
  agrees : (w.sems x).Agrees
  queue : ∀ q ∈ (w.sems x).queue, At place L x q

section Labels

variable {place : Γ → Option Int} {L : Int → Option Γ} {x me q : Int} {γ : Γ} {o : Option Γ}

/-- The label of process `me` places it nowhere. -/
def Nowhere (place : Γ → Option Int) (L : Int → Option Γ) (me : Int) : Prop :=
  ∀ γ, L me = some γ → place γ = none

theorem nowhere_of_none (h : L me = none) : Nowhere place L me := by
  intro γ hγ
  rw [h] at hγ
  contradiction

theorem nowhere_update_none : Nowhere place (update L me none) me :=
  nowhere_of_none (update_self me none L)

theorem Nowhere.not_at (h : Nowhere place L me) : ¬ At place L x me := by
  rintro ⟨γ, hγ, hplace⟩
  rw [h γ hγ] at hplace
  contradiction

theorem at_update_of_ne (hq : q ≠ me) : At place (update L me o) x q ↔ At place L x q := by
  unfold At
  rw [update_of_ne hq]

/-- A process that is nowhere is still nowhere. -/
theorem at_update_nowhere (h : Nowhere place L me) (ho : ∀ γ, o = some γ → place γ = none) :
    At place (update L me o) x q ↔ At place L x q := by
  by_cases hq : q = me
  · subst hq
    have hnew : Nowhere place (update L q o) q := fun γ hγ => ho γ (by rwa [update_self] at hγ)
    exact iff_of_false hnew.not_at h.not_at
  · exact at_update_of_ne hq

theorem at_self (hplace : place γ = some x) : At place (update L me (some γ)) x me :=
  ⟨γ, update_self _ _ _, hplace⟩

end Labels

section Lodged

variable {place : Γ → Option Int} {w w' : World δ ε} {L L' : Int → Option Γ} {x y me : Int} {γ : Γ}

/-- What is shared and recorded makes no difference, nor do labels that place nobody. -/
theorem Lodged.congr (h : Lodged place w L) (hnext : w'.nextsem = w.nextsem)
    (hdefer : w'.ndefers = w.ndefers) (hsems : w'.sems = w.sems)
    (hgranted : w'.granted = w.granted) (hpids : ∀ q γ, L' q = some γ → IsPid q)
    (hat : ∀ x q, At place L' x q ↔ At place L x q) : Lodged place w' L' := by
  refine ⟨?_, ?_, ?_, ?_, ?_, ?_, hpids, ?_, ?_⟩
  · rw [hnext]
    exact h.nextsem_nonneg
  · rw [hnext]
    exact h.nextsem_lt
  · rw [hdefer]
    exact h.ndefers
  · rw [hsems]
    exact h.good
  · rw [hsems]
    exact h.idle
  · rw [hsems, hgranted]
    exact h.nodup
  · intro x q hq
    rw [hsems, hgranted]
    exact h.placed x q ((hat x q).mp hq)
  · intro x q hq
    rw [hgranted] at hq
    exact (hat x q).mpr (h.released x q hq)

theorem Manned.congr (h : Manned place w L x) (hsem : w'.sems x = w.sems x)
    (hat : ∀ q, At place L' x q ↔ At place L x q) : Manned place w' L' x := by
  refine ⟨?_, ?_, ?_⟩
  · rw [hsem]
    exact h.used
  · rw [hsem]
    exact h.agrees
  · intro q hq
    rw [hsem] at hq
    exact (hat q).mpr (h.queue q hq)

/-- A step concerns semaphore `x` only: it leaves the semaphore `v`, and `g` are the
processes that it has released. -/
structure Changes (x : Int) (v : Sem Int) (g : List Int) (w w' : World δ ε) : Prop where
  sems : w'.sems = update w.sems x v
  granted : w'.granted = update w.granted x g
  ndefers : w'.ndefers = w.ndefers

theorem Changes.sem {v : Sem Int} {g : List Int} (h : Changes x v g w w') : w'.sems x = v := by
  rw [h.sems, update_self]

theorem Changes.grant {v : Sem Int} {g : List Int} (h : Changes x v g w w') :
    w'.granted x = g := by
  rw [h.granted, update_self]

theorem Changes.sem_other {v : Sem Int} {g : List Int} (h : Changes x v g w w') (hy : y ≠ x) :
    w'.sems y = w.sems y := by
  rw [h.sems, update_of_ne hy]

theorem Changes.grant_other {v : Sem Int} {g : List Int} (h : Changes x v g w w') (hy : y ≠ x) :
    w'.granted y = w.granted y := by
  rw [h.granted, update_of_ne hy]

theorem Lodged.change {v : Sem Int} {g : List Int} (h : Lodged place w L)
    (hchange : Changes x v g w w') (hnext₀ : 0 ≤ w'.nextsem) (hnext : w'.nextsem < nsem)
    (hgood : v.used = true → ¬ isbadsem x) (hidle : v.used = false → v.queue = [])
    (hnodup : (v.queue ++ g).Nodup) (hpids : ∀ q γ, L' q = some γ → IsPid q)
    (hplaced : ∀ q, At place L' x q → q ∈ v.queue ∨ q ∈ g)
    (hreleased : ∀ q ∈ g, At place L' x q)
    (hother : ∀ y q, y ≠ x → (At place L' y q ↔ At place L y q)) : Lodged place w' L' := by
  refine ⟨hnext₀, hnext, hchange.ndefers.trans h.ndefers, ?_, ?_, ?_, hpids, ?_, ?_⟩
  · intro y hy
    by_cases heq : y = x
    · subst heq
      exact hgood (hchange.sem ▸ hy)
    · rw [hchange.sem_other heq] at hy
      exact h.good y hy
  · intro y hy
    by_cases heq : y = x
    · subst heq
      rw [hchange.sem] at hy ⊢
      exact hidle hy
    · rw [hchange.sem_other heq] at hy ⊢
      exact h.idle y hy
  · intro y
    by_cases heq : y = x
    · subst heq
      rw [hchange.sem, hchange.grant]
      exact hnodup
    · rw [hchange.sem_other heq, hchange.grant_other heq]
      exact h.nodup y
  · intro y q hq
    by_cases heq : y = x
    · subst heq
      rw [hchange.sem, hchange.grant]
      exact hplaced q hq
    · rw [hchange.sem_other heq, hchange.grant_other heq]
      exact h.placed y q ((hother y q heq).mp hq)
  · intro y q hq
    by_cases heq : y = x
    · subst heq
      rw [hchange.grant] at hq
      exact hreleased q hq
    · rw [hchange.grant_other heq] at hq
      exact (hother y q heq).mpr (h.released y q hq)

theorem Manned.other {v : Sem Int} {g : List Int} (h : Manned place w L y)
    (hchange : Changes x v g w w') (hy : y ≠ x)
    (hother : ∀ y q, y ≠ x → (At place L' y q ↔ At place L y q)) : Manned place w' L' y :=
  h.congr (hchange.sem_other hy) fun q => hother y q hy

/-- There are not more waiters than processes. -/
theorem Lodged.count_ge (h : Lodged place w L) (hx : Manned place w L x) :
    -nproc ≤ (w.sems x).count := by
  have hagrees : (w.sems x).queue.length = (-(w.sems x).count).toNat := hx.agrees
  have hpids : ∀ q ∈ (w.sems x).queue, IsPid q := by
    intro q hq
    obtain ⟨γ, hγ, -⟩ := hx.queue q hq
    exact h.pids q γ hγ
  have hle := length_le_nproc hpids (List.nodup_append.mp (h.nodup x)).1
  unfold nproc at *
  omega

theorem Nowhere.not_mem (hme : Nowhere place L me) (h : Lodged place w L)
    (hx : Manned place w L x) : me ∉ (w.sems x).queue ∧ me ∉ w.granted x :=
  ⟨fun hq => hme.not_at (hx.queue me hq), fun hg => hme.not_at (h.released x me hg)⟩

end Lodged

/-! ## Tokens -/

/-- The tokens of semaphore `x`: those that are left, and those of the processes that have
been released and whose labels are live. -/
def tokens (live : Γ → Bool) (w : World δ ε) (L : Int → Option Γ) (x : Int) : Int :=
  max (w.sems x).count 0 + ((w.granted x).countP fun q => (L q).any live : Nat)

section Tokens

variable {place : Γ → Option Int} {live live' : Γ → Bool} {w w' : World δ ε}
variable {L L' : Int → Option Γ} {x y me : Int} {γ : Γ}

theorem count_le_tokens (live : Γ → Bool) (w : World δ ε) (L : Int → Option Γ) (x : Int) :
    (w.sems x).count ≤ tokens live w L x := by
  unfold tokens
  omega

theorem tokens_nonneg (live : Γ → Bool) (w : World δ ε) (L : Int → Option Γ) (x : Int) :
    0 ≤ tokens live w L x := by
  unfold tokens
  omega

theorem tokens_congr (hcount : (w'.sems x).count = (w.sems x).count)
    (hgranted : w'.granted x = w.granted x)
    (hlive : ∀ q ∈ w.granted x, (L' q).any live' = (L q).any live) :
    tokens live' w' L' x = tokens live w L x := by
  unfold tokens
  rw [hcount, hgranted, List.countP_congr fun q hq => by rw [hlive q hq]]

/-- A process takes a token that is left. -/
theorem Lodged.pass (h : Lodged place w L) (hx : Manned place w L x)
    (hpos : 0 < (w.sems x).count) (hlt : (w.sems x).count < 0x80000000) :
    Lodged place (w.setSem x (Sem.wait i32 me)) L ∧
      Manned place (w.setSem x (Sem.wait i32 me)) L x ∧
        tokens live (w.setSem x (Sem.wait i32 me)) L x = tokens live w L x - 1 := by
  have hwrap : i32 ((w.sems x).count - 1) = (w.sems x).count - 1 := i32_eq (by omega) (by omega)
  have hqueue : ((w.sems x).wait i32 me).queue = (w.sems x).queue := by
    unfold Sem.wait
    rw [hwrap]
    exact if_neg (by omega)
  have hused : ((w.sems x).wait i32 me).used = true := hx.used
  have hchange : Changes x ((w.sems x).wait i32 me) (w.granted x) w
      (w.setSem x (Sem.wait i32 me)) := ⟨rfl, (update_eq_self x w.granted).symm, rfl⟩
  refine ⟨?_, ⟨?_, ?_, ?_⟩, ?_⟩
  · refine h.change hchange h.nextsem_nonneg h.nextsem_lt (fun _ => h.good x hx.used) ?_ ?_
      h.pids ?_ (h.released x) fun _ _ _ => Iff.rfl
    · rw [hused]
      exact fun hfalse => by contradiction
    · rw [hqueue]
      exact h.nodup x
    · rw [hqueue]
      exact h.placed x
  · rw [hchange.sem]
    exact hx.used
  · rw [hchange.sem]
    exact hx.agrees.wait hwrap
  · rw [hchange.sem, hqueue]
    exact hx.queue
  · have hcount : ((w.setSem x (Sem.wait i32 me)).sems x).count = (w.sems x).count - 1 := by
      rw [hchange.sem]
      exact hwrap
    unfold tokens
    rw [hcount, hchange.grant]
    omega

/-- A process joins the queue. -/
theorem Lodged.block (h : Lodged place w L) (hx : Manned place w L x) (hme : Nowhere place L me)
    (hpid : IsPid me) (hplace : place γ = some x) (hneg : (w.sems x).count ≤ 0) :
    Lodged place (w.setSem x (Sem.wait i32 me)) (update L me (some γ)) ∧
      Manned place (w.setSem x (Sem.wait i32 me)) (update L me (some γ)) x ∧
        tokens live (w.setSem x (Sem.wait i32 me)) (update L me (some γ)) x =
          tokens live w L x := by
  have hge := h.count_ge hx
  have hwrap : i32 ((w.sems x).count - 1) = (w.sems x).count - 1 := by
    unfold nproc at hge
    exact i32_eq (by omega) (by omega)
  have hqueue : ((w.sems x).wait i32 me).queue = (w.sems x).queue ++ [me] := by
    unfold Sem.wait
    rw [hwrap]
    exact if_pos (by omega)
  obtain ⟨hout, hungranted⟩ := hme.not_mem h hx
  have hused : ((w.sems x).wait i32 me).used = true := hx.used
  have hchange : Changes x ((w.sems x).wait i32 me) (w.granted x) w
      (w.setSem x (Sem.wait i32 me)) := ⟨rfl, (update_eq_self x w.granted).symm, rfl⟩
  have hkeep : ∀ y q, At place L y q → At place (update L me (some γ)) y q := by
    intro y q hq
    have hne : q ≠ me := fun heq => hme.not_at (heq ▸ hq)
    exact (at_update_of_ne hne).mpr hq
  refine ⟨?_, ⟨?_, ?_, ?_⟩, ?_⟩
  · refine h.change hchange h.nextsem_nonneg h.nextsem_lt (fun _ => h.good x hx.used) ?_ ?_ ?_ ?_
      ?_ ?_
    · rw [hused]
      exact fun hfalse => by contradiction
    · have hperm : ((w.sems x).queue ++ [me] ++ w.granted x).Perm
          (me :: ((w.sems x).queue ++ w.granted x)) := by
        rw [List.append_assoc]
        exact List.perm_middle
      rw [hqueue, hperm.nodup_iff, List.nodup_cons, List.mem_append, not_or]
      exact ⟨⟨hout, hungranted⟩, h.nodup x⟩
    · intro q γ' hq
      by_cases heq : q = me
      · exact heq ▸ hpid
      · rw [update_of_ne heq] at hq
        exact h.pids q γ' hq
    · intro q hq
      rw [hqueue, List.mem_append, List.mem_singleton]
      by_cases heq : q = me
      · exact Or.inl (Or.inr heq)
      · rcases h.placed x q ((at_update_of_ne heq).mp hq) with hq | hg
        · exact Or.inl (Or.inl hq)
        · exact Or.inr hg
    · exact fun q hq => hkeep x q (h.released x q hq)
    · intro y q hy
      constructor
      · rintro ⟨γ', hγ', hplace'⟩
        have hne : q ≠ me := by
          rintro rfl
          rw [update_self, Option.some.injEq] at hγ'
          rw [← hγ', hplace, Option.some.injEq] at hplace'
          exact hy hplace'.symm
        exact (at_update_of_ne hne).mp ⟨γ', hγ', hplace'⟩
      · exact hkeep y q
  · rw [hchange.sem]
    exact hx.used
  · rw [hchange.sem]
    exact hx.agrees.wait hwrap
  · intro q hq
    rw [hchange.sem, hqueue, List.mem_append, List.mem_singleton] at hq
    rcases hq with hq | rfl
    · exact hkeep x q (hx.queue q hq)
    · exact at_self hplace
  · have hcount : ((w.setSem x (Sem.wait i32 me)).sems x).count = (w.sems x).count - 1 := by
      rw [hchange.sem]
      exact hwrap
    have hlive : ∀ q ∈ w.granted x, (update L me (some γ) q).any live = (L q).any live := by
      intro q hq
      rw [update_of_ne (ne_of_mem_of_not_mem hq hungranted)]
    unfold tokens
    rw [hcount, hchange.grant, List.countP_congr fun q hq => by rw [hlive q hq]]
    omega

/-- A process that was released goes on. -/
theorem Lodged.leave (h : Lodged place w L) (hready : w.Ready me) (hme : L me = some γ)
    (hplace : place γ = some x) (hbad : ¬ isbadsem x) :
    me ∈ w.granted x ∧ Lodged place (World.leave x me w) (update L me none) := by
  have hgranted : me ∈ w.granted x :=
    (h.placed x me ⟨γ, hme, hplace⟩).resolve_left (hready.2 x hbad)
  have hnodup := List.nodup_append.mp (h.nodup x)
  have hchange : Changes x (w.sems x) ((w.granted x).erase me) w (World.leave x me w) :=
    ⟨(update_eq_self x w.sems).symm, rfl, rfl⟩
  have hat : ∀ y q, At place (update L me none) y q ↔ At place L y q ∧ q ≠ me := by
    intro y q
    by_cases heq : q = me
    · subst heq
      exact iff_of_false nowhere_update_none.not_at fun hand => hand.2 rfl
    · rw [at_update_of_ne heq]
      exact (and_iff_left heq).symm
  refine ⟨hgranted, h.change hchange h.nextsem_nonneg h.nextsem_lt (h.good x) (h.idle x) ?_ ?_ ?_
    ?_ ?_⟩
  · exact (h.nodup x).sublist (List.Sublist.append_left List.erase_sublist _)
  · intro q γ' hq
    by_cases heq : q = me
    · rw [heq, update_self] at hq
      contradiction
    · rw [update_of_ne heq] at hq
      exact h.pids q γ' hq
  · intro q hq
    obtain ⟨hq, hne⟩ := (hat x q).mp hq
    exact (h.placed x q hq).imp id fun hg => (hnodup.2.1.mem_erase_iff).mpr ⟨hne, hg⟩
  · intro q hq
    obtain ⟨hne, hg⟩ := (hnodup.2.1.mem_erase_iff).mp hq
    exact (hat x q).mpr ⟨h.released x q hg, hne⟩
  · intro y q hy
    rw [hat y q]
    refine and_iff_left_of_imp fun hq heq => ?_
    obtain ⟨γ', hγ', hplace'⟩ := hq
    rw [heq, hme, Option.some.injEq] at hγ'
    rw [← hγ', hplace, Option.some.injEq] at hplace'
    exact hy hplace'.symm

theorem Manned.leave (h : Manned place w L y) (hready : w.Ready me) (hbad : ¬ isbadsem y)
    (x : Int) : Manned place (World.leave x me w) (update L me none) y := by
  refine ⟨h.used, h.agrees, fun q hq => ?_⟩
  have hne : q ≠ me := by
    rintro rfl
    exact hready.2 y hbad hq
  exact (at_update_of_ne hne).mpr (h.queue q hq)

/-- The process that goes on has used a token if its label is live. -/
theorem tokens_leave (h : Lodged place w L) (hready : w.Ready me) (hme : L me = some γ)
    (hplace : place γ = some x) (hbad : ¬ isbadsem x) :
    tokens live (World.leave x me w) (update L me none) x =
      tokens live w L x - if live γ then 1 else 0 := by
  obtain ⟨hgranted, -⟩ := h.leave hready hme hplace hbad
  have hnodup := (List.nodup_append.mp (h.nodup x)).2.1
  have hlive : ∀ q ∈ (w.granted x).erase me, (update L me none q).any live = (L q).any live := by
    intro q hq
    rw [update_of_ne ((hnodup.mem_erase_iff).mp hq).1]
  have hperm : (w.granted x).Perm (me :: (w.granted x).erase me) := List.perm_cons_erase hgranted
  have hsplit : (w.granted x).countP (fun q => (L q).any live) =
      ((w.granted x).erase me).countP (fun q => (L q).any live) + if live γ then 1 else 0 := by
    rw [hperm.countP_eq, List.countP_cons, hme, Option.any_some]
  unfold tokens
  rw [granted_leave, List.countP_congr fun q hq => by rw [hlive q hq], hsplit]
  show max (w.sems x).count 0 + _ = _
  split
  · push_cast
    omega
  · push_cast
    omega

/-- The semaphore is signaled; all that wait there have live labels. -/
theorem Lodged.release (h : Lodged place w L) (hx : Manned place w L x)
    (hlive : ∀ q ∈ (w.sems x).queue, (L q).any live = true)
    (hlt : (w.sems x).count + 1 < 0x80000000) :
    Lodged place (World.release x w) L ∧ Manned place (World.release x w) L x ∧
      tokens live (World.release x w) L x = tokens live w L x + 1 := by
  have hge := h.count_ge hx
  have hagrees : (w.sems x).queue.length = (-(w.sems x).count).toNat := hx.agrees
  have hwrap : i32 ((w.sems x).count + 1) = (w.sems x).count + 1 := by
    unfold nproc at hge
    exact i32_eq (by omega) hlt
  have hused : ((w.sems x).signal i32).used = true := hx.used
  have hchange : Changes x ((w.sems x).signal i32)
      (w.granted x ++ if (w.sems x).count < 0 then (w.sems x).queue.take 1 else []) w
      (World.release x w) := ⟨rfl, rfl, rfl⟩
  have hqueue : ((w.sems x).signal i32).queue =
      if (w.sems x).count < 0 then (w.sems x).queue.tail else (w.sems x).queue := rfl
  have hcount : ((w.sems x).signal i32).count = (w.sems x).count + 1 := hwrap
  cases hq : (w.sems x).queue with
  | nil =>
      rw [hq, List.length_nil] at hagrees
      have hnot : ¬ (w.sems x).count < 0 := by omega
      rw [if_neg hnot, List.append_nil] at hchange
      rw [if_neg hnot, hq] at hqueue
      refine ⟨?_, ⟨?_, ?_, ?_⟩, ?_⟩
      · refine h.change hchange h.nextsem_nonneg h.nextsem_lt (fun _ => h.good x hx.used) ?_ ?_
          h.pids ?_ (h.released x) fun _ _ _ => Iff.rfl
        · rw [hused]
          exact fun hfalse => by contradiction
        · have hnodup := h.nodup x
          rwa [hq, ← hqueue] at hnodup
        · intro q hat
          have hplaced := h.placed x q hat
          rwa [hq, ← hqueue] at hplaced
      · rw [hchange.sem]
        exact hx.used
      · rw [hchange.sem]
        exact hx.agrees.signal hwrap
      · rw [hchange.sem, hqueue]
        exact fun q hmem => absurd hmem List.not_mem_nil
      · unfold tokens
        rw [hchange.sem, hchange.grant, hcount]
        omega
  | cons p rest =>
      rw [hq, List.length_cons] at hagrees
      have hneg : (w.sems x).count < 0 := by omega
      rw [if_pos hneg, hq, List.take_succ_cons, List.take_zero] at hchange
      rw [if_pos hneg, hq, List.tail_cons] at hqueue
      have hsplit : ∀ q, q ∈ (w.sems x).queue ∨ q ∈ w.granted x ↔
          q ∈ rest ∨ q ∈ w.granted x ++ [p] := by
        intro q
        rw [hq, List.mem_cons, List.mem_append, List.mem_singleton]
        tauto
      refine ⟨?_, ⟨?_, ?_, ?_⟩, ?_⟩
      · refine h.change hchange h.nextsem_nonneg h.nextsem_lt (fun _ => h.good x hx.used) ?_ ?_
          h.pids ?_ ?_ fun _ _ _ => Iff.rfl
        · rw [hused]
          exact fun hfalse => by contradiction
        · have hperm : (rest ++ (w.granted x ++ [p])).Perm (p :: rest ++ w.granted x) := by
            rw [← List.append_assoc]
            exact List.perm_append_singleton p (rest ++ w.granted x)
          have hnodup := h.nodup x
          rw [hq] at hnodup
          rw [hqueue]
          exact hperm.nodup_iff.mpr hnodup
        · intro q hat
          rw [hqueue]
          exact (hsplit q).mp (h.placed x q hat)
        · intro q hmem
          rcases List.mem_append.mp hmem with hmem | hmem
          · exact h.released x q hmem
          · rw [List.mem_singleton.mp hmem]
            exact hx.queue p (by rw [hq]; exact List.mem_cons_self)
      · rw [hchange.sem]
        exact hx.used
      · rw [hchange.sem]
        exact hx.agrees.signal hwrap
      · intro q hmem
        rw [hchange.sem, hqueue] at hmem
        exact hx.queue q (by rw [hq]; exact List.mem_cons_of_mem p hmem)
      · have hp : (L p).any live = true := hlive p (by rw [hq]; exact List.mem_cons_self)
        unfold tokens
        rw [hchange.sem, hchange.grant, hcount, List.countP_append, List.countP_singleton, hp,
          if_pos rfl]
        push_cast
        omega

/-- All that wait at the semaphore are released. -/
theorem Lodged.dismiss {b : Bool} {n : Int} (h : Lodged place w L) (hx : Manned place w L x)
    (hchange : Changes x ⟨b, n, []⟩ (w.granted x ++ (w.sems x).queue) w w')
    (hnext : w'.nextsem = w.nextsem) : Lodged place w' L := by
  refine h.change hchange (hnext ▸ h.nextsem_nonneg) (hnext ▸ h.nextsem_lt)
    (fun _ => h.good x hx.used) (fun _ => rfl) ?_ h.pids ?_ ?_ fun _ _ _ => Iff.rfl
  · show (w.granted x ++ (w.sems x).queue).Nodup
    exact List.perm_append_comm.nodup_iff.mp (h.nodup x)
  · intro q hat
    rw [List.mem_append]
    exact Or.inr ((h.placed x q hat).symm)
  · intro q hq
    rcases List.mem_append.mp hq with hq | hq
    · exact h.released x q hq
    · exact hx.queue q hq

/-- A semaphore is created that was not in use. -/
theorem Lodged.create {n : Int} (h : Lodged place w L) (hbad : ¬ isbadsem x)
    (hunused : (w.sems x).used = false)
    (hchange : Changes x ⟨true, n, []⟩ (w.granted x) w w') (hnext₀ : 0 ≤ w'.nextsem)
    (hnext : w'.nextsem < nsem) : Lodged place w' L := by
  have hqueue := h.idle x hunused
  have hnodup := h.nodup x
  have hplaced := h.placed x
  rw [hqueue] at hnodup hplaced
  exact h.change hchange hnext₀ hnext (fun _ => hbad) (fun _ => rfl) hnodup h.pids hplaced
    (h.released x) fun _ _ _ => Iff.rfl

theorem manned_new {n : Int} {g : List Int} (hn : 0 ≤ n)
    (hchange : Changes x ⟨true, n, []⟩ g w w') : Manned place w' L x := by
  refine ⟨?_, ?_, ?_⟩
  · rw [hchange.sem]
  · rw [hchange.sem]
    show (0 : Nat) = (-n).toNat
    omega
  · rw [hchange.sem]
    exact fun q hq => absurd hq List.not_mem_nil

/-- The tokens of a semaphore whose count was just set, if no label is live yet. -/
theorem tokens_new {b : Bool} {n : Int} {g : List Int} (hn : 0 ≤ n)
    (hchange : Changes x ⟨b, n, []⟩ g w w') (hdead : ∀ q ∈ g, (L q).any live = false) :
    tokens live w' L x = n := by
  have hnone : g.countP (fun q => (L q).any live) = 0 := by
    rw [List.countP_eq_zero]
    intro q hq
    rw [hdead q hq]
    exact Bool.false_ne_true
  unfold tokens
  rw [hchange.sem, hchange.grant, hnone]
  show max n 0 + ((0 : Nat) : Int) = n
  omega

end Tokens

end World
end Xinu
