import Mathlib.Data.List.Basic

/-!
# Alarms in delta encoding

A list of alarms holds with each alarm its delay after the one before.  One tick
of the clock changes the first delay only, and the alarms whose delay is over are
at the front.  The arithmetic on delays goes through a function `wrap`, the
identity on the delays below a bound.

Main results:

- Theorems `due_set`, `due_cancel` and `mem_due_tick_expire`: what each operation
  does to the times at which the alarms go off.
- Theorems `Timely.set`, `Timely.cancel` and `Timely.tick_expire`: the
  operations keep the delays in range.
-/

namespace Xinu
namespace Foundations

/-- Alarms, each with its delay after the one before. -/
abbrev Alarms (ι : Type) := List (ι × Int)

/-- What can happen to a list of alarms. -/
inductive AlarmEvent (ι : Type) where
  /-- The alarm of `p` is to go off after a delay `d`. -/
  | set (p : ι) (d : Int)
  | cancel (p : ι)
  /-- One tick of the clock. -/
  | tick
  /-- The alarms that are due go off. -/
  | expire
deriving DecidableEq, Repr

namespace Alarms

variable {ι : Type} (wrap : Int → Int)

/-- Insert an alarm behind those that go off at the same time or before. -/
def set (p : ι) : Int → Alarms ι → Alarms ι
  | d, [] => [(p, d)]
  | d, (q, k) :: l => if k ≤ d then (q, k) :: set p (wrap (d - k)) l else (p, d) :: (q, wrap (k - d)) :: l

/-- Add a delay to that of the first alarm. -/
def postpone (k : Int) : Alarms ι → Alarms ι
  | [] => []
  | (q, j) :: l => (q, wrap (j + k)) :: l

/-- Remove an alarm; its delay passes to the next one. -/
def cancel [DecidableEq ι] (p : ι) : Alarms ι → Alarms ι
  | [] => []
  | (q, k) :: l => if q = p then postpone wrap k l else (q, k) :: cancel p l

/-- Count the first delay down. -/
def tick : Alarms ι → Alarms ι
  | [] => []
  | (q, k) :: l => (q, wrap (k - 1)) :: l

/-- Remove the alarms that are due. -/
def expire (l : Alarms ι) : Alarms ι :=
  l.dropWhile fun x => decide (x.2 ≤ 0)

end Alarms

namespace AlarmEvent

variable {ι : Type} [DecidableEq ι] (wrap : Int → Int)

def apply (l : Alarms ι) : AlarmEvent ι → Alarms ι
  | set p d => l.set wrap p d
  | cancel p => l.cancel wrap p
  | tick => l.tick wrap
  | expire => l.expire

/-- The effect of several events, in order. -/
def applyAll (l : Alarms ι) (evs : List (AlarmEvent ι)) : Alarms ι :=
  evs.foldl (apply wrap) l

@[simp]
theorem applyAll_nil (l : Alarms ι) : applyAll wrap l [] = l :=
  rfl

theorem applyAll_append (l : Alarms ι) (evs evs' : List (AlarmEvent ι)) :
    applyAll wrap l (evs ++ evs') = applyAll wrap (applyAll wrap l evs) evs' :=
  List.foldl_append

end AlarmEvent

/-! ## When the alarms go off -/

variable {ι : Type} {wrap : Int → Int} {bound : Int}

/-- The alarms with the times at which they go off, counted from `t` before the first delay. -/
def due (t : Int) : Alarms ι → List (ι × Int)
  | [] => []
  | (q, k) :: l => (q, t + k) :: due (t + k) l

/-- No delay is negative, and every alarm goes off after `t` and before the bound. -/
def Timely (bound t : Int) (l : Alarms ι) : Prop :=
  (∀ x ∈ l, 0 ≤ x.2) ∧ ∀ x ∈ due t l, t < x.2 ∧ x.2 < bound

/-- The function `wrap` changes no delay in range. -/
def Wraps (wrap : Int → Int) (bound : Int) : Prop :=
  ∀ x, 0 ≤ x → x < bound → wrap x = x

section Due

variable {p q : ι} {t d k : Int} {l : Alarms ι} {x : ι × Int}

theorem fst_mem_of_mem_due (h : x ∈ due t l) : x.1 ∈ l.map Prod.fst := by
  induction l generalizing t with
  | nil => simp [due] at h
  | cons y l ih =>
      rcases List.mem_cons.mp h with rfl | h
      · simp
      · exact List.mem_cons_of_mem _ (ih h)

theorem exists_mem_due (h : p ∈ l.map Prod.fst) : ∃ r, (p, r) ∈ due t l := by
  induction l generalizing t with
  | nil => simp at h
  | cons y l ih =>
      rcases List.mem_cons.mp h with rfl | h
      · exact ⟨t + y.2, by simp [due]⟩
      · obtain ⟨r, hr⟩ := ih h (t := t + y.2)
        exact ⟨r, List.mem_cons_of_mem _ hr⟩

/-- With non-negative delays, no alarm goes off before the time of the list. -/
theorem le_of_mem_due (hl : ∀ x ∈ l, 0 ≤ x.2) (h : x ∈ due t l) : t ≤ x.2 := by
  induction l generalizing t with
  | nil => simp [due] at h
  | cons y l ih =>
      have hy := hl y (by simp)
      rcases List.mem_cons.mp h with rfl | h
      · show t ≤ t + y.2
        omega
      · have := ih (fun x hx => hl x (List.mem_cons_of_mem _ hx)) h
        omega

/-- An alarm goes off at one time. -/
theorem due_unique {r r' : Int} (hnd : (l.map Prod.fst).Nodup) (h : (p, r) ∈ due t l)
    (h' : (p, r') ∈ due t l) : r = r' := by
  induction l generalizing t with
  | nil => simp [due] at h
  | cons y l ih =>
      obtain ⟨hy, hnd'⟩ := List.nodup_cons.mp hnd
      rcases List.mem_cons.mp h with heq | hmem
      · rcases List.mem_cons.mp h' with heq' | hmem'
        · rw [Prod.mk.injEq] at heq heq'
          exact heq.2.trans heq'.2.symm
        · rw [Prod.mk.injEq] at heq
          exact absurd (heq.1 ▸ fst_mem_of_mem_due hmem') hy
      · rcases List.mem_cons.mp h' with heq' | hmem'
        · rw [Prod.mk.injEq] at heq'
          exact absurd (heq'.1 ▸ fst_mem_of_mem_due hmem) hy
        · exact ih hnd' hmem hmem'

/-! ### Insertion -/

/-- The new alarm goes off behind those that go off at the same time or before, and no other
one moves. -/
theorem due_set (hw : Wraps wrap bound) (hl : ∀ x ∈ l, 0 ≤ x.2 ∧ x.2 < bound) (hd : 0 ≤ d)
    (hlt : d < bound) :
    ∃ early late, due t l = early ++ late ∧ due t (l.set wrap p d) = early ++ (p, t + d) :: late ∧
      (∀ x ∈ early, x.2 ≤ t + d) ∧ ∀ x ∈ late, t + d < x.2 := by
  induction l generalizing t d with
  | nil => exact ⟨[], [], rfl, rfl, by simp, by simp⟩
  | cons y l ih =>
      obtain ⟨q, k⟩ := y
      have hk : 0 ≤ k ∧ k < bound := hl (q, k) (by simp)
      have hl' : ∀ x ∈ l, 0 ≤ x.2 ∧ x.2 < bound := fun x hx => hl x (List.mem_cons_of_mem _ hx)
      by_cases hle : k ≤ d
      · obtain ⟨early, late, hold, hnew, hearly, hlate⟩ :=
          ih hl' (d := d - k) (t := t + k) (by omega) (by omega)
        have hsum : t + k + (d - k) = t + d := by omega
        rw [hsum] at hnew hearly hlate
        refine ⟨(q, t + k) :: early, late, ?_, ?_, ?_, hlate⟩
        · rw [due, hold, List.cons_append]
        · rw [Alarms.set, if_pos hle, hw _ (by omega) (by omega), due, hnew, List.cons_append]
        · intro x hx
          rcases List.mem_cons.mp hx with rfl | hx
          · show t + k ≤ t + d
            omega
          · exact hearly x hx
      · have hsum : t + d + (k - d) = t + k := by omega
        refine ⟨[], due t ((q, k) :: l), rfl, ?_, by simp, ?_⟩
        · rw [Alarms.set, if_neg hle, hw _ (by omega) (by omega)]
          simp only [due, hsum, List.nil_append]
        · intro x hx
          rcases List.mem_cons.mp hx with rfl | hx
          · show t + d < t + k
            omega
          · have hge := le_of_mem_due (fun x hx => (hl' x hx).1) hx
            omega

theorem mem_due_set (hw : Wraps wrap bound) (hl : ∀ x ∈ l, 0 ≤ x.2 ∧ x.2 < bound) (hd : 0 ≤ d)
    (hlt : d < bound) : x ∈ due t (l.set wrap p d) ↔ x = (p, t + d) ∨ x ∈ due t l := by
  obtain ⟨early, late, hold, hnew, -, -⟩ := due_set (p := p) (t := t) hw hl hd hlt
  rw [hold, hnew, List.mem_append, List.mem_cons, List.mem_append]
  exact or_left_comm

theorem nonneg_set (hw : Wraps wrap bound) (hl : ∀ x ∈ l, 0 ≤ x.2 ∧ x.2 < bound) (hd : 0 ≤ d)
    (hlt : d < bound) : ∀ x ∈ l.set wrap p d, 0 ≤ x.2 := by
  induction l generalizing d with
  | nil => simpa [Alarms.set] using hd
  | cons y l ih =>
      obtain ⟨q, k⟩ := y
      have hk : 0 ≤ k ∧ k < bound := hl (q, k) (by simp)
      have hl' : ∀ x ∈ l, 0 ≤ x.2 ∧ x.2 < bound := fun x hx => hl x (List.mem_cons_of_mem _ hx)
      by_cases hle : k ≤ d
      · rw [Alarms.set, if_pos hle, hw _ (by omega) (by omega)]
        intro x hx
        rcases List.mem_cons.mp hx with rfl | hx
        · exact hk.1
        · exact ih hl' (by omega) (by omega) x hx
      · rw [Alarms.set, if_neg hle, hw _ (by omega) (by omega)]
        intro x hx
        rcases List.mem_cons.mp hx with rfl | hx
        · exact hd
        · rcases List.mem_cons.mp hx with rfl | hx
          · show 0 ≤ k - d
            omega
          · exact (hl' x hx).1

/-- Delays whose sums are below the bound are below it. -/
theorem lt_bound_of_due (ht : 0 ≤ t) (hl : ∀ x ∈ l, 0 ≤ x.2) (hdue : ∀ x ∈ due t l, x.2 < bound) :
    ∀ x ∈ l, 0 ≤ x.2 ∧ x.2 < bound := by
  induction l generalizing t with
  | nil => simp
  | cons y l ih =>
      have hy := hl y (by simp)
      have hfirst : t + y.2 < bound := hdue (y.1, t + y.2) (by simp [due])
      intro x hx
      rcases List.mem_cons.mp hx with rfl | hx
      · exact ⟨hy, by omega⟩
      · exact ih (t := t + y.2) (by omega) (fun x hx => hl x (List.mem_cons_of_mem _ hx))
          (fun x hx => hdue x (List.mem_cons_of_mem _ hx)) x hx

/-- The delays of timely alarms are in range. -/
theorem Timely.lt_bound (h : Timely bound 0 l) : ∀ x ∈ l, 0 ≤ x.2 ∧ x.2 < bound :=
  lt_bound_of_due (Int.le_refl 0) h.1 fun x hx => (h.2 x hx).2

theorem Timely.set (hw : Wraps wrap bound) (h : Timely bound 0 l) (hd : 0 < d) (hlt : d < bound) :
    Timely bound 0 (l.set wrap p d) := by
  refine ⟨nonneg_set hw h.lt_bound (by omega) hlt, ?_⟩
  intro x hx
  rcases (mem_due_set hw h.lt_bound (by omega) hlt).mp hx with rfl | hx
  · show 0 < 0 + d ∧ 0 + d < bound
    omega
  · exact h.2 x hx

/-! ### Removal -/

/-- A removal leaves the other alarms, with their times. -/
theorem due_cancel [DecidableEq ι] (hw : Wraps wrap bound) (ht : 0 ≤ t) (hl : ∀ x ∈ l, 0 ≤ x.2)
    (hlt : ∀ x ∈ due t l, x.2 < bound) (hnd : (l.map Prod.fst).Nodup) :
    due t (l.cancel wrap p) = (due t l).filter fun x => decide (x.1 ≠ p) := by
  induction l generalizing t with
  | nil => rfl
  | cons y l ih =>
      obtain ⟨q, k⟩ := y
      have hk : 0 ≤ k := hl (q, k) (by simp)
      have hl' : ∀ x ∈ l, 0 ≤ x.2 := fun x hx => hl x (List.mem_cons_of_mem _ hx)
      have hlt' : ∀ x ∈ due (t + k) l, x.2 < bound := fun x hx => hlt x (List.mem_cons_of_mem _ hx)
      obtain ⟨hq, hnd'⟩ := List.nodup_cons.mp hnd
      by_cases hqp : q = p
      · subst q
        have hne : ∀ x ∈ due (t + k) l, decide (x.1 ≠ p) = true := by
          intro x hx
          apply decide_eq_true
          rintro rfl
          exact hq (fst_mem_of_mem_due (x := x) hx)
        have hsame : due t (Alarms.postpone wrap k l) = due (t + k) l := by
          cases l with
          | nil => rfl
          | cons z l =>
              obtain ⟨r, j⟩ := z
              have hj : 0 ≤ j := hl' (r, j) (by simp)
              have hjlt : t + k + j < bound := hlt' (r, t + k + j) (by simp [due])
              rw [Alarms.postpone, hw _ (by omega) (by omega)]
              have hsum : t + (j + k) = t + k + j := by omega
              simp only [due, hsum]
        rw [Alarms.cancel, if_pos rfl, hsame, due, List.filter_cons_of_neg (by simp),
          List.filter_eq_self.mpr hne]
      · rw [Alarms.cancel, if_neg hqp, due, due, ih (by omega) hl' hlt' hnd',
          List.filter_cons_of_pos (by simpa using hqp)]

theorem mem_due_cancel [DecidableEq ι] (hw : Wraps wrap bound) (ht : 0 ≤ t) (hl : ∀ x ∈ l, 0 ≤ x.2)
    (hlt : ∀ x ∈ due t l, x.2 < bound) (hnd : (l.map Prod.fst).Nodup) :
    x ∈ due t (l.cancel wrap p) ↔ x ∈ due t l ∧ x.1 ≠ p := by
  rw [due_cancel hw ht hl hlt hnd, List.mem_filter, decide_eq_true_iff]

theorem nonneg_cancel [DecidableEq ι] (hw : Wraps wrap bound) (ht : 0 ≤ t) (hl : ∀ x ∈ l, 0 ≤ x.2)
    (hlt : ∀ x ∈ due t l, x.2 < bound) : ∀ x ∈ l.cancel wrap p, 0 ≤ x.2 := by
  induction l generalizing t with
  | nil => simp [Alarms.cancel]
  | cons y l ih =>
      obtain ⟨q, k⟩ := y
      have hk : 0 ≤ k := hl (q, k) (by simp)
      have hl' : ∀ x ∈ l, 0 ≤ x.2 := fun x hx => hl x (List.mem_cons_of_mem _ hx)
      have hlt' : ∀ x ∈ due (t + k) l, x.2 < bound := fun x hx => hlt x (List.mem_cons_of_mem _ hx)
      by_cases hqp : q = p
      · rw [Alarms.cancel, if_pos hqp]
        cases l with
        | nil => simp [Alarms.postpone]
        | cons z l =>
            obtain ⟨r, j⟩ := z
            have hj : 0 ≤ j := hl' (r, j) (by simp)
            have hjlt : t + k + j < bound := hlt' (r, t + k + j) (by simp [due])
            rw [Alarms.postpone, hw _ (by omega) (by omega)]
            intro x hx
            rcases List.mem_cons.mp hx with rfl | hx
            · show 0 ≤ j + k
              omega
            · exact hl' x (List.mem_cons_of_mem _ hx)
      · rw [Alarms.cancel, if_neg hqp]
        intro x hx
        rcases List.mem_cons.mp hx with rfl | hx
        · exact hk
        · exact ih (t := t + k) (by omega) hl' hlt' x hx

theorem Timely.cancel [DecidableEq ι] (hw : Wraps wrap bound) (h : Timely bound 0 l)
    (hnd : (l.map Prod.fst).Nodup) : Timely bound 0 (l.cancel wrap p) := by
  have hlt : ∀ x ∈ due 0 l, x.2 < bound := fun x hx => (h.2 x hx).2
  refine ⟨nonneg_cancel hw (Int.le_refl 0) h.1 hlt, ?_⟩
  intro x hx
  exact h.2 x ((mem_due_cancel hw (Int.le_refl 0) h.1 hlt hnd).mp hx).1

theorem map_fst_postpone : (Alarms.postpone wrap k l).map Prod.fst = l.map Prod.fst := by
  cases l <;> rfl

/-- A removal leaves the other alarms in their order. -/
theorem map_fst_cancel [DecidableEq ι] :
    ((l.cancel wrap p).map Prod.fst).Sublist (l.map Prod.fst) := by
  induction l with
  | nil => simp [Alarms.cancel]
  | cons y l ih =>
      obtain ⟨q, k⟩ := y
      by_cases hqp : q = p
      · rw [Alarms.cancel, if_pos hqp, map_fst_postpone, List.map_cons]
        exact List.sublist_cons_self _ _
      · rw [Alarms.cancel, if_neg hqp, List.map_cons, List.map_cons]
        exact ih.cons_cons q

/-- Removals of other alarms do not move an alarm. -/
theorem Timely.cancels [DecidableEq ι] (hw : Wraps wrap bound) {zs : List (AlarmEvent ι)}
    (hzs : ∀ z ∈ zs, ∃ q, z = .cancel q) (h : Timely bound 0 l) (hnd : (l.map Prod.fst).Nodup) :
    Timely bound 0 (AlarmEvent.applyAll wrap l zs) ∧
      ∀ p r, .cancel p ∉ zs → (p, r) ∈ due 0 l →
        (p, r) ∈ due 0 (AlarmEvent.applyAll wrap l zs) := by
  induction zs generalizing l with
  | nil => exact ⟨h, fun _ _ _ hmem => hmem⟩
  | cons z zs ih =>
      obtain ⟨q, rfl⟩ := hzs z (by simp)
      have hlt : ∀ x ∈ due 0 l, x.2 < bound := fun x hx => (h.2 x hx).2
      obtain ⟨htimely, hkeep⟩ := ih (fun z hz => hzs z (List.mem_cons_of_mem _ hz))
        (h.cancel hw hnd (p := q)) (hnd.sublist map_fst_cancel)
      refine ⟨htimely, ?_⟩
      intro p r hp hmem
      obtain ⟨hpq, hp'⟩ : p ≠ q ∧ .cancel p ∉ zs := by simpa using hp
      exact hkeep p r hp' ((mem_due_cancel hw (Int.le_refl 0) h.1 hlt hnd).mpr ⟨hmem, hpq⟩)

theorem cancel_append [DecidableEq ι] {a b : Alarms ι} (hp : p ∉ a.map Prod.fst) :
    Alarms.cancel wrap p (a ++ (p, k) :: b) = a ++ Alarms.postpone wrap k b := by
  induction a with
  | nil => simp [Alarms.cancel]
  | cons y a ih =>
      obtain ⟨hne, hp'⟩ : p ≠ y.1 ∧ p ∉ a.map Prod.fst := by simpa using hp
      rw [List.cons_append, Alarms.cancel, if_neg (Ne.symm hne), ih hp', List.cons_append]

/-! ### The clock -/

/-- Dropping delays that are over does not move the other alarms. -/
theorem mem_due_expire (hl : ∀ x ∈ l, 0 ≤ x.2) : x ∈ due t l.expire ↔ x ∈ due t l ∧ t < x.2 := by
  induction l generalizing t with
  | nil => simp [Alarms.expire, due]
  | cons y l ih =>
      obtain ⟨q, k⟩ := y
      have hk : 0 ≤ k := hl (q, k) (by simp)
      have hl' : ∀ x ∈ l, 0 ≤ x.2 := fun x hx => hl x (List.mem_cons_of_mem _ hx)
      by_cases hle : k ≤ 0
      · have hzero : k = 0 := by omega
        subst k
        have hdrop : Alarms.expire ((q, 0) :: l) = Alarms.expire l := by simp [Alarms.expire]
        rw [hdrop, ih hl']
        simp only [due, Int.add_zero, List.mem_cons]
        constructor
        · exact fun hx => ⟨Or.inr hx.1, hx.2⟩
        · rintro ⟨rfl | hx, hlt⟩
          · exact absurd hlt (Int.lt_irrefl t)
          · exact ⟨hx, hlt⟩
      · have hdrop : Alarms.expire ((q, k) :: l) = (q, k) :: l := by simp [Alarms.expire, hle]
        rw [hdrop]
        refine ⟨fun hx => ⟨hx, ?_⟩, fun hx => hx.1⟩
        rcases List.mem_cons.mp hx with rfl | hx
        · show t < t + k
          omega
        · have := le_of_mem_due hl' hx
          omega

/-- One tick brings every alarm closer by one, and lets the due ones go off. -/
theorem mem_due_tick_expire (hw : Wraps wrap bound) (h : Timely bound 0 l) :
    x ∈ due 0 (l.tick wrap).expire ↔ (x.1, x.2 + 1) ∈ due 0 l ∧ 0 < x.2 := by
  cases l with
  | nil => simp [Alarms.tick, Alarms.expire, due]
  | cons y l =>
      obtain ⟨q, k⟩ := y
      have hrange := h.lt_bound (q, k) (by simp)
      have hpos := (h.2 (q, 0 + k) (by simp [due])).1
      have hk : 0 < k := by omega
      have htick : Alarms.tick wrap ((q, k) :: l) = (q, k - 1) :: l := by
        rw [Alarms.tick, hw _ (by omega) (by omega)]
      have hl : ∀ x ∈ (q, k - 1) :: l, 0 ≤ x.2 := by
        intro x hx
        rcases List.mem_cons.mp hx with rfl | hx
        · show 0 ≤ k - 1
          omega
        · exact h.1 x (List.mem_cons_of_mem _ hx)
      have hshift : ∀ {t : Int} {l : Alarms ι}, x ∈ due (t - 1) l ↔ (x.1, x.2 + 1) ∈ due t l := by
        intro t l
        induction l generalizing t with
        | nil => simp [due]
        | cons z l ih =>
            have hsum : t - 1 + z.2 = t + z.2 - 1 := by omega
            simp only [due, List.mem_cons, hsum, ih, Prod.ext_iff]
            constructor
            · rintro (⟨hfst, hsnd⟩ | hx)
              · exact Or.inl ⟨hfst, by omega⟩
              · exact Or.inr hx
            · rintro (⟨hfst, hsnd⟩ | hx)
              · exact Or.inl ⟨hfst, by omega⟩
              · exact Or.inr hx
      rw [htick, mem_due_expire hl]
      have hdue : due 0 ((q, k - 1) :: l) = due (0 - 1) ((q, k) :: l) := by
        have hsum : 0 + (k - 1) = 0 - 1 + k := by omega
        simp only [due, hsum]
      rw [hdue, hshift]

theorem mem_of_mem_expire (h : x ∈ l.expire) : x ∈ l :=
  (List.dropWhile_sublist _).mem h

theorem Timely.tick_expire (hw : Wraps wrap bound) (h : Timely bound 0 l) :
    Timely bound 0 (l.tick wrap).expire := by
  constructor
  · intro x hx
    have hmem := mem_of_mem_expire hx
    cases l with
    | nil => simp [Alarms.tick] at hmem
    | cons y l =>
        obtain ⟨q, k⟩ := y
        have hrange := h.lt_bound (q, k) (by simp)
        have hpos := (h.2 (q, 0 + k) (by simp [due])).1
        rw [Alarms.tick, hw _ (by omega) (by omega)] at hmem
        rcases List.mem_cons.mp hmem with rfl | hmem
        · show 0 ≤ k - 1
          omega
        · exact h.1 x (List.mem_cons_of_mem _ hmem)
  · intro x hx
    obtain ⟨hmem, hpos⟩ := (mem_due_tick_expire hw h).mp hx
    have hlt := (h.2 _ hmem).2
    exact ⟨hpos, by omega⟩

/-- If the first delay is not over, no alarm is due. -/
theorem expire_eq_self {y : ι × Int} (hy : ¬ y.2 ≤ 0) : Alarms.expire (y :: l) = y :: l := by
  simp [Alarms.expire, hy]

theorem expire_cons_due {y : ι × Int} (hy : y.2 ≤ 0) : Alarms.expire (y :: l) = l.expire := by
  simp [Alarms.expire, hy]

end Due

end Foundations
end Xinu
