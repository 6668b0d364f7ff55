import Mathlib.Logic.Equiv.Basic
import Mathlib.Data.List.Nodup

/-!
# Three-way partition

A range of a sequence is partitioned in place around a block of elements that are equal to
its middle one.  The block grows both ways, and moves where one side is used up.  The range
is sorted by sorting what is left of the block and what is right of it.

Main results:

- Theorem `drive_ends`: a loop with two entries ends, in a state that its invariant allows.
- Theorem `drive_sim`: a loop that follows another ends with it.
- Theorem `sort_spec`: the sort rearranges its range into an ordered one.
-/

namespace Xinu
namespace Foundations

/-! ## Loops with two entries -/

/-- Where the body of a loop is entered next: at its top, at the label `loop` inside, or no
more. -/
inductive Point where
  | top
  | loop
  | done
deriving DecidableEq

section Drive

variable {σ τ : Type} {top loop : σ → Point × σ} {fuel : Nat} {pt : Point} {s s' : σ}

/-- The loop whose body is `top` and `loop`, for so many entries. -/
def drive (top loop : σ → Point × σ) : Nat → Point → σ → Option σ
  | _, .done, s => some s
  | 0, _, _ => none
  | fuel + 1, .top, s => drive top loop fuel (top s).1 (top s).2
  | fuel + 1, .loop, s => drive top loop fuel (loop s).1 (loop s).2

@[simp]
theorem drive_done : drive top loop fuel .done s = some s := by
  cases fuel <;> rfl

/-- A loop ends whose entries decrease a measure, as far as the invariant holds. -/
theorem drive_ends {I : Point → σ → Prop} {m : Point → σ → Nat} (h : I pt s)
    (htop : ∀ s, I .top s → I (top s).1 (top s).2 ∧ m (top s).1 (top s).2 < m .top s)
    (hloop : ∀ s, I .loop s → I (loop s).1 (loop s).2 ∧ m (loop s).1 (loop s).2 < m .loop s)
    (hfuel : m pt s ≤ fuel) : ∃ s', drive top loop fuel pt s = some s' ∧ I .done s' := by
  induction fuel generalizing pt s with
  | zero =>
      cases pt with
      | done => exact ⟨s, drive_done, h⟩
      | top =>
          have hless := (htop s h).2
          omega
      | loop =>
          have hless := (hloop s h).2
          omega
  | succ fuel ih =>
      cases pt with
      | done => exact ⟨s, drive_done, h⟩
      | top =>
          obtain ⟨hnext, hless⟩ := htop s h
          exact ih hnext (by omega)
      | loop =>
          obtain ⟨hnext, hless⟩ := hloop s h
          exact ih hnext (by omega)

/-- More entries than are needed change nothing. -/
theorem drive_mono {more : Nat} (h : drive top loop fuel pt s = some s') (hle : fuel ≤ more) :
    drive top loop more pt s = some s' := by
  induction fuel generalizing pt s more with
  | zero => cases pt with
    | done => exact drive_done.trans (drive_done.symm.trans h)
    | top | loop => exact nomatch h
  | succ fuel ih =>
      obtain ⟨more, rfl⟩ : ∃ k, more = k + 1 := ⟨more - 1, by omega⟩
      cases pt with
      | done => exact h
      | top | loop =>
          rw [drive] at h ⊢
          exact ih h (by omega)

/-- A loop whose entries follow those of another one, as far as the invariant of that one
holds, ends with it. -/
theorem drive_sim {top' loop' : τ → Point × τ} {I : Point → σ → Prop} {R : σ → τ → Prop}
    {t : τ} (h : I pt s) (hst : R s t)
    (htop : ∀ s t, I .top s → R s t → I (top s).1 (top s).2 ∧ (top' t).1 = (top s).1 ∧
      R (top s).2 (top' t).2)
    (hloop : ∀ s t, I .loop s → R s t → I (loop s).1 (loop s).2 ∧ (loop' t).1 = (loop s).1 ∧
      R (loop s).2 (loop' t).2)
    (hends : drive top loop fuel pt s = some s') :
    I .done s' ∧ ∃ t', drive top' loop' fuel pt t = some t' ∧ R s' t' := by
  induction fuel generalizing pt s t with
  | zero => cases pt with
    | done => exact ⟨Option.some_inj.mp hends ▸ h, t, rfl, Option.some_inj.mp hends ▸ hst⟩
    | top | loop => exact nomatch hends
  | succ fuel ih =>
      cases pt with
      | done => exact ⟨Option.some_inj.mp hends ▸ h, t, rfl, Option.some_inj.mp hends ▸ hst⟩
      | top =>
          obtain ⟨hnext, hpoint, hrel⟩ := htop s t h hst
          obtain ⟨hlast, t', ht', hlastrel⟩ := ih hnext hrel hends
          exact ⟨hlast, t', by rw [drive, hpoint, ht'], hlastrel⟩
      | loop =>
          obtain ⟨hnext, hpoint, hrel⟩ := hloop s t h hst
          obtain ⟨hlast, t', ht', hlastrel⟩ := ih hnext hrel hends
          exact ⟨hlast, t', by rw [drive, hpoint, ht'], hlastrel⟩

end Drive

variable {α : Type}

/-! ## Comparison functions -/

/-- A comparison function that is a total preorder. -/
structure Consistent (cmp : α → α → Int) : Prop where
  flip : ∀ x y, cmp y x < 0 ↔ 0 < cmp x y
  trans : ∀ x y z, cmp x y ≤ 0 → cmp y z ≤ 0 → cmp x z ≤ 0

namespace Consistent

variable {cmp : α → α → Int} {x y p : α}

theorem refl (h : Consistent cmp) (x : α) : cmp x x = 0 := by
  have hflip := h.flip x x
  omega

/-- What is at most the pivot is at most what is at least the pivot. -/
theorem le_of_between (h : Consistent cmp) (hx : cmp x p ≤ 0) (hy : 0 ≤ cmp y p) :
    cmp x y ≤ 0 := by
  have hflip := h.flip p y
  exact h.trans x p y hx (by omega)

/-- To compare with an element that is equal to the pivot is to compare with the pivot. -/
theorem congr_right (h : Consistent cmp) (hy : cmp y p = 0) (x : α) :
    (cmp x y < 0 ↔ cmp x p < 0) ∧ (cmp x y = 0 ↔ cmp x p = 0) := by
  have hle : cmp x y ≤ 0 ↔ cmp x p ≤ 0 := by
    have hyp := h.trans x y p
    have hpy := h.trans x p y
    have hflip := h.flip p y
    omega
  have hge : cmp y x ≤ 0 ↔ cmp p x ≤ 0 := by
    have hyp := h.trans y p x
    have hpy := h.trans p y x
    have hflip := h.flip p y
    omega
  have hxy := h.flip y x
  have hyx := h.flip x y
  have hxp := h.flip p x
  have hpx := h.flip x p
  omega

/-- The same with the pivot on the left. -/
theorem congr_left (h : Consistent cmp) (hy : cmp y p = 0) (x : α) :
    (cmp y x < 0 ↔ 0 < cmp x p) ∧ (cmp y x = 0 ↔ cmp x p = 0) := by
  have hright := h.congr_right hy x
  have hxy := h.flip x y
  have hyx := h.flip y x
  omega

end Consistent

/-! ## Rearranging a range -/

/-- The elements `x` and `y` are exchanged. -/
def exchange (v : Nat → α) (x y : Nat) : Nat → α :=
  fun k => if k = x then v y else if k = y then v x else v k

/-- What is at `z` goes to `x`, what is at `x` to `y`, what is at `y` to `z`. -/
def cycle (v : Nat → α) (x y z : Nat) : Nat → α :=
  exchange (exchange v x z) z y

theorem cycle_apply {v : Nat → α} {x y z : Nat} (hy : x ≠ y) (hz : x ≠ z) (k : Nat) :
    cycle v x y z k =
      if k = x then v z else if k = y then v x else if k = z then v y else v k := by
  simp only [cycle, exchange]
  grind

/-- The sequence `v'` has the elements that `v` has, those outside of the range in place. -/
def Rearranged (a l : Nat) (v v' : Nat → α) : Prop :=
  ∃ σ : Equiv.Perm Nat, v' = v ∘ σ ∧ ∀ k, ¬ (a ≤ k ∧ k < l) → σ k = k

namespace Rearranged

variable {a l b m x y z : Nat} {v v' w : Nat → α}

theorem refl (a l : Nat) (v : Nat → α) : Rearranged a l v v :=
  ⟨Equiv.refl Nat, rfl, fun _ _ => rfl⟩

theorem trans (h : Rearranged a l v v') (h' : Rearranged a l v' w) : Rearranged a l v w := by
  obtain ⟨σ, rfl, hσ⟩ := h
  obtain ⟨τ, rfl, hτ⟩ := h'
  refine ⟨τ.trans σ, rfl, fun k hk => ?_⟩
  show σ (τ k) = k
  rw [hτ k hk, hσ k hk]

/-- A rearrangement of a part of the range. -/
theorem widen (h : Rearranged b m v v') (hb : a ≤ b) (hm : m ≤ l) : Rearranged a l v v' := by
  obtain ⟨σ, hv, hσ⟩ := h
  exact ⟨σ, hv, fun k hk => hσ k (by omega)⟩

theorem exchange (hx : a ≤ x ∧ x < l) (hy : a ≤ y ∧ y < l) (v : Nat → α) :
    Rearranged a l v (exchange v x y) := by
  refine ⟨Equiv.swap x y, ?_, fun k hk => ?_⟩
  · funext k
    simp only [Foundations.exchange, Function.comp_apply, Equiv.swap_apply_def]
    split_ifs <;> rfl
  · exact Equiv.swap_apply_of_ne_of_ne (by rintro rfl; exact hk hx) (by rintro rfl; exact hk hy)

theorem cycle (hx : a ≤ x ∧ x < l) (hy : a ≤ y ∧ y < l) (hz : a ≤ z ∧ z < l) (v : Nat → α) :
    Rearranged a l v (cycle v x y z) :=
  (Rearranged.exchange hx hz v).trans (Rearranged.exchange hz hy _)

theorem outside (h : Rearranged a l v v') {k : Nat} (hk : ¬ (a ≤ k ∧ k < l)) : v' k = v k := by
  obtain ⟨σ, rfl, hσ⟩ := h
  exact congrArg v (hσ k hk)

/-- What holds of all elements of a range still does when it was rearranged. -/
theorem forall_range (h : Rearranged a l v v') {P : α → Prop}
    (hv : ∀ k, a ≤ k → k < l → P (v k)) : ∀ k, a ≤ k → k < l → P (v' k) := by
  obtain ⟨σ, rfl, hσ⟩ := h
  intro k ha hl
  by_cases hin : a ≤ σ k ∧ σ k < l
  · exact hv (σ k) hin.1 hin.2
  · -- `σ` fixes what is outside of the range, so that nothing else goes there
    have hfixed : σ k = k := σ.injective (hσ (σ k) hin)
    exact absurd ⟨hfixed.symm ▸ ha, hfixed.symm ▸ hl⟩ hin

end Rearranged

/-! ## The partition -/

/-- A partition under way: what is before `i` is less than the pivot, what is from `lp` to
`hp` is equal to it, what is after `j` is greater. -/
structure Split (α : Type) where
  v : Nat → α
  i : Nat
  j : Nat
  lp : Nat
  hp : Nat

namespace Split

variable (cmp : α → α → Int)

/-- From the top of the loop: the left side, if it is not used up. -/
def atTop (s : Split α) : Point × Split α :=
  if s.i < s.lp then
    if cmp (s.v s.i) (s.v s.lp) = 0 then
      (.top, { s with v := exchange s.v s.i (s.lp - 1), lp := s.lp - 1 })
    else if cmp (s.v s.i) (s.v s.lp) < 0 then (.top, { s with i := s.i + 1 })
    else (.loop, s)
  else (.loop, s)

/-- From `loop` on: the right side, if it is not used up, else the block moves to the left. -/
def atLoop (s : Split α) : Point × Split α :=
  if s.hp < s.j then
    if cmp (s.v s.hp) (s.v s.j) = 0 then
      (.loop, { s with v := exchange s.v (s.hp + 1) s.j, hp := s.hp + 1 })
    else if 0 < cmp (s.v s.hp) (s.v s.j) then
      if s.i = s.lp then
        (.loop, { s with
          v := cycle s.v s.i (s.hp + 1) s.j, hp := s.hp + 1, lp := s.lp + 1, i := s.lp + 1 })
      else (.top, { s with v := exchange s.v s.i s.j, j := s.j - 1, i := s.i + 1 })
    else (.loop, { s with j := s.j - 1 })
  else if s.i = s.lp then (.done, s)
  else
    (.top, { s with
      v := cycle s.v s.j (s.lp - 1) s.i, lp := s.lp - 1, hp := s.hp - 1, j := s.hp - 1 })

/-- The three blocks of a partition of the range, for a pivot. -/
structure Parted (p : α) (a l : Nat) (s : Split α) : Prop where
  left : a ≤ s.i
  before : s.i ≤ s.lp
  block : s.lp ≤ s.hp
  after : s.hp ≤ s.j
  right : s.j < l
  less : ∀ k, a ≤ k → k < s.i → cmp (s.v k) p < 0
  same : ∀ k, s.lp ≤ k → k ≤ s.hp → cmp (s.v k) p = 0
  more : ∀ k, s.j < k → k < l → 0 < cmp (s.v k) p

/-- What holds where the loop is entered: at `loop`, the left side is used up or waits for an
element that is less than the pivot. -/
structure Valid (p : α) (a l : Nat) (v₀ : Nat → α) (pt : Point) (s : Split α) : Prop where
  parted : Parted cmp p a l s
  rearranged : Rearranged a l v₀ s.v
  waits : pt = .loop → s.i < s.lp → 0 < cmp (s.v s.i) p
  ended : pt = .done → s.i = s.lp ∧ s.j = s.hp

/-- The entries that are left at most. -/
def measure (pt : Point) (s : Split α) : Nat :=
  match pt with
  | .top => 2 * ((s.lp - s.i) + (s.j - s.hp)) + 2
  | .loop => 2 * ((s.lp - s.i) + (s.j - s.hp)) + 1
  | .done => 0

variable {cmp} {p : α} {a l : Nat} {v₀ : Nat → α} {s : Split α}

theorem Valid.atTop (hcmp : Consistent cmp) (h : Valid cmp p a l v₀ .top s) :
    Valid cmp p a l v₀ (s.atTop cmp).1 (s.atTop cmp).2 ∧
      measure (s.atTop cmp).1 (s.atTop cmp).2 < measure .top s := by
  obtain ⟨⟨hleft, hbefore, hblock, hafter, hright, hless, hsame, hmore⟩, hperm, -, -⟩ := h
  have hpivot : cmp (s.v s.lp) p = 0 := hsame s.lp (Nat.le_refl _) hblock
  obtain ⟨hlt, heq⟩ := hcmp.congr_right hpivot (s.v s.i)
  rw [Split.atTop]
  split_ifs with hi hzero hneg
  · -- an element that is equal to the pivot joins the block from the left
    have hequal : cmp (s.v s.i) p = 0 := heq.mp hzero
    refine ⟨⟨⟨hleft, by grind, by grind, hafter, hright, ?_, ?_, ?_⟩, ?_, nofun, nofun⟩, ?_⟩
    · grind [exchange]
    · grind [exchange]
    · grind [exchange]
    · exact hperm.trans (.exchange ⟨by omega, by omega⟩ ⟨by omega, by omega⟩ s.v)
    · simp only [measure]
      omega
  · have hsmall : cmp (s.v s.i) p < 0 := hlt.mp hneg
    refine ⟨⟨⟨by grind, by grind, hblock, hafter, hright, ?_, hsame, hmore⟩, hperm, nofun,
      nofun⟩, ?_⟩
    · grind
    · simp only [measure]
      omega
  · have hlarge : 0 < cmp (s.v s.i) p := by omega
    exact ⟨⟨⟨hleft, hbefore, hblock, hafter, hright, hless, hsame, hmore⟩, hperm,
      fun _ _ => hlarge, nofun⟩, Nat.lt_succ_self _⟩
  · exact ⟨⟨⟨hleft, hbefore, hblock, hafter, hright, hless, hsame, hmore⟩, hperm,
      fun _ hlow => absurd hlow hi, nofun⟩, Nat.lt_succ_self _⟩

theorem Valid.atLoop (hcmp : Consistent cmp) (h : Valid cmp p a l v₀ .loop s) :
    Valid cmp p a l v₀ (s.atLoop cmp).1 (s.atLoop cmp).2 ∧
      measure (s.atLoop cmp).1 (s.atLoop cmp).2 < measure .loop s := by
  obtain ⟨⟨hleft, hbefore, hblock, hafter, hright, hless, hsame, hmore⟩, hperm, hwaits, -⟩ := h
  have hpivot : cmp (s.v s.hp) p = 0 := hsame s.hp hblock (Nat.le_refl _)
  have hfirst : cmp (s.v s.lp) p = 0 := hsame s.lp (Nat.le_refl _) hblock
  obtain ⟨hgt, heq⟩ := hcmp.congr_left hpivot (s.v s.j)
  have hwait := hwaits rfl
  rw [Split.atLoop]
  split_ifs with hj hzero hpos hi hi
  · -- an element that is equal to the pivot joins the block from the right
    have hequal : cmp (s.v s.j) p = 0 := heq.mp hzero
    refine ⟨⟨⟨hleft, hbefore, by grind, by grind, hright, ?_, ?_, ?_⟩, ?_, ?_, nofun⟩, ?_⟩
    · grind [exchange]
    · grind [exchange]
    · grind [exchange]
    · exact hperm.trans (.exchange ⟨by omega, by omega⟩ ⟨by omega, by omega⟩ s.v)
    · grind [exchange]
    · simp only [measure]
      omega
  · -- the left side is used up: the block moves by one to the right
    have hsmall : cmp (s.v s.j) p < 0 := by omega
    have hmoved : ∀ k, cycle s.v s.i (s.hp + 1) s.j k = _ := cycle_apply (by omega) (by omega)
    refine ⟨⟨⟨by grind, by grind, by grind, by grind, hright, ?_, ?_, ?_⟩, ?_, ?_, nofun⟩, ?_⟩
    · grind
    · grind
    · grind
    · exact hperm.trans (.cycle ⟨by omega, by omega⟩ ⟨by omega, by omega⟩
        ⟨by omega, by omega⟩ s.v)
    · grind
    · simp only [measure]
      omega
  · -- the element that waits on the left changes places with the one on the right
    have hsmall : cmp (s.v s.j) p < 0 := by omega
    have hlarge : 0 < cmp (s.v s.i) p := hwait (by omega)
    refine ⟨⟨⟨by grind, by grind, hblock, by grind, by grind, ?_, ?_, ?_⟩, ?_, nofun, nofun⟩,
      ?_⟩
    · grind [exchange]
    · grind [exchange]
    · grind [exchange]
    · exact hperm.trans (.exchange ⟨by omega, by omega⟩ ⟨by omega, by omega⟩ s.v)
    · simp only [measure]
      omega
  · have hlarge : 0 < cmp (s.v s.j) p := by omega
    refine ⟨⟨⟨hleft, hbefore, hblock, by grind, by grind, hless, hsame, ?_⟩, hperm, hwaits,
      nofun⟩, ?_⟩
    · grind
    · simp only [measure]
      omega
  · exact ⟨⟨⟨hleft, hbefore, hblock, hafter, hright, hless, hsame, hmore⟩, hperm, nofun,
      fun _ => ⟨hi, Nat.le_antisymm (Nat.le_of_not_lt hj) hafter⟩⟩, Nat.succ_pos _⟩
  · -- the right side is used up: the block moves by one to the left
    have hlarge : 0 < cmp (s.v s.i) p := hwait (by omega)
    have hlast : cmp (s.v s.j) p = 0 := hsame s.j (by omega) (by omega)
    have hmoved : ∀ k, cycle s.v s.j (s.lp - 1) s.i k = _ := cycle_apply (by omega) (by omega)
    refine ⟨⟨⟨hleft, by grind, by grind, Nat.le_refl _, by grind, ?_, ?_, ?_⟩, ?_, nofun,
      nofun⟩, ?_⟩
    · grind
    · grind
    · grind
    · exact hperm.trans (.cycle ⟨by omega, by omega⟩ ⟨by omega, by omega⟩
        ⟨by omega, by omega⟩ s.v)
    · simp only [measure]
      omega

/-- The partition of the range, with its middle element as pivot. -/
def start (v : Nat → α) (a l : Nat) : Split α :=
  ⟨v, a, l - 1, a + (l - a) / 2, a + (l - a) / 2⟩

variable (cmp) in
/-- The partition, with so many entries of its loop at most. -/
def partition (fuel : Nat) (v : Nat → α) (a l : Nat) : Option (Split α) :=
  drive (atTop cmp) (atLoop cmp) fuel .top (start v a l)

theorem valid_start (hcmp : Consistent cmp) (v : Nat → α) (h : a < l) :
    Valid cmp (v (a + (l - a) / 2)) a l v .top (start v a l) := by
  refine ⟨⟨Nat.le_refl a, Nat.le_add_right a _, Nat.le_refl _, ?_, ?_, ?_, ?_, ?_⟩,
    .refl a l v, nofun, nofun⟩
  · show a + (l - a) / 2 ≤ l - 1
    omega
  · show l - 1 < l
    omega
  · intro k ha hi
    exact absurd hi (Nat.not_lt.mpr ha)
  · intro k hlo hhi
    have hk : k = a + (l - a) / 2 := Nat.le_antisymm hhi hlo
    exact hk ▸ hcmp.refl _
  · intro k hj hl
    have hj' : l - 1 < k := hj
    omega

/-- The partition ends, within so many entries of its loop. -/
theorem partition_ends {fuel : Nat} (hcmp : Consistent cmp) (v : Nat → α) (h : a < l)
    (hfuel : 2 * (l - a) ≤ fuel) : ∃ s, partition cmp fuel v a l = some s ∧
      Valid cmp (v (a + (l - a) / 2)) a l v .done s := by
  refine drive_ends (m := measure) (valid_start hcmp v h) (fun _ hs => hs.atTop hcmp)
    (fun _ hs => hs.atLoop hcmp) ?_
  show 2 * ((a + (l - a) / 2 - a) + (l - 1 - (a + (l - a) / 2))) + 2 ≤ fuel
  omega

end Split

/-! ## The sort -/

/-- The smaller side is what is left to the loop, the larger one to the recursion. -/
def sort (cmp : α → α → Int) : Nat → (Nat → α) → Nat → Nat → Option (Nat → α)
  | 0, _, _, _ => none
  | fuel + 1, v, a, l =>
      if l - a ≤ 1 then some v
      else
        (Split.partition cmp (fuel + 1) v a l).bind fun s =>
          if l - s.hp ≤ s.lp - a then
            (sort cmp fuel s.v (s.hp + 1) l).bind fun v => sort cmp fuel v a s.lp
          else (sort cmp fuel s.v a s.lp).bind fun v => sort cmp fuel v (s.hp + 1) l

/-- The range is in order. -/
def Ordered (cmp : α → α → Int) (a l : Nat) (v : Nat → α) : Prop :=
  ∀ x y, a ≤ x → x ≤ y → y < l → cmp (v x) (v y) ≤ 0

theorem Ordered.congr {cmp : α → α → Int} {a l : Nat} {v v' : Nat → α}
    (h : Ordered cmp a l v) (hv : ∀ k, a ≤ k → k < l → v' k = v k) : Ordered cmp a l v' := by
  intro x y hax hxy hyl
  rw [hv x hax (by omega), hv y (by omega) hyl]
  exact h x y hax hxy hyl

/-- A range whose two sides are less and greater than the block from `lp` to `hp`. -/
structure Blocks (cmp : α → α → Int) (p : α) (a l lp hp : Nat) (v : Nat → α) : Prop where
  less : ∀ k, a ≤ k → k < lp → cmp (v k) p < 0
  same : ∀ k, lp ≤ k → k ≤ hp → cmp (v k) p = 0
  more : ∀ k, hp + 1 ≤ k → k < l → 0 < cmp (v k) p

namespace Blocks

variable {cmp : α → α → Int} {p : α} {a l lp hp : Nat} {v v' : Nat → α}

/-- The left side is rearranged. -/
theorem left (h : Blocks cmp p a l lp hp v) (hblock : lp ≤ hp) (hperm : Rearranged a lp v v') :
    Blocks cmp p a l lp hp v' where
  less := hperm.forall_range (P := fun x => cmp x p < 0) h.less
  same k hlo hhi := by
    rw [hperm.outside (by omega)]
    exact h.same k hlo hhi
  more k hhi hl := by
    rw [hperm.outside (by omega)]
    exact h.more k hhi hl

/-- The right side is rearranged. -/
theorem right (h : Blocks cmp p a l lp hp v) (hblock : lp ≤ hp)
    (hperm : Rearranged (hp + 1) l v v') : Blocks cmp p a l lp hp v' where
  less k ha hlo := by
    rw [hperm.outside (by omega)]
    exact h.less k ha hlo
  same k hlo hhi := by
    rw [hperm.outside (by omega)]
    exact h.same k hlo hhi
  more := hperm.forall_range (P := fun x => 0 < cmp x p) h.more

/-- The range is in order when its two sides are. -/
theorem ordered (hcmp : Consistent cmp) (h : Blocks cmp p a l lp hp v)
    (hleft : Ordered cmp a lp v) (hright : Ordered cmp (hp + 1) l v) : Ordered cmp a l v := by
  intro x y hax hxy hyl
  by_cases hy : y < lp
  · exact hleft x y hax hxy hy
  · by_cases hx : hp + 1 ≤ x
    · exact hright x y hx hxy hyl
    · have hlow : cmp (v x) p ≤ 0 := by
        by_cases hlp : x < lp
        · exact Int.le_of_lt (h.less x hax hlp)
        · exact Int.le_of_eq (h.same x (by omega) (by omega))
      have hhigh : 0 ≤ cmp (v y) p := by
        by_cases hhp : y ≤ hp
        · exact Int.le_of_eq (h.same y (by omega) hhp).symm
        · exact Int.le_of_lt (h.more y (by omega) hyl)
      exact hcmp.le_of_between hlow hhigh

end Blocks

/-- The elements of a rearranged sequence are those of the sequence. -/
theorem Rearranged.perm {n : Nat} {v v' : Nat → α} (h : Rearranged 0 n v v') :
    ((List.range n).map v').Perm ((List.range n).map v) := by
  obtain ⟨σ, rfl, hσ⟩ := h
  have hrange : ((List.range n).map σ).Perm (List.range n) := by
    rw [List.perm_ext_iff_of_nodup (List.nodup_range.map σ.injective) List.nodup_range]
    intro x
    simp only [List.mem_map, List.mem_range]
    constructor
    · rintro ⟨k, hk, rfl⟩
      by_contra hout
      have hfixed : σ k = k := σ.injective (hσ (σ k) (by omega))
      omega
    · intro hx
      have hback : σ (σ.symm x) = x := σ.apply_symm_apply x
      refine ⟨σ.symm x, ?_, hback⟩
      by_contra hout
      have hfixed : σ (σ.symm x) = σ.symm x := hσ (σ.symm x) (by omega)
      omega
  rw [← List.map_map]
  exact hrange.map v

theorem Ordered.pairwise {cmp : α → α → Int} {n : Nat} {v : Nat → α} (h : Ordered cmp 0 n v) :
    ((List.range n).map v).Pairwise fun x y => cmp x y ≤ 0 := by
  rw [List.pairwise_map]
  refine List.Pairwise.imp_of_mem ?_ (List.pairwise_lt_range)
  intro x y _ hy hxy
  exact h x y (Nat.zero_le x) (Nat.le_of_lt hxy) (List.mem_range.mp hy)

/-- With enough fuel the sort rearranges the range into an ordered one. -/
theorem sort_spec {cmp : α → α → Int} (hcmp : Consistent cmp) (fuel : Nat) (v : Nat → α)
    (a l : Nat) (hfuel : 2 * (l - a) + 1 ≤ fuel) :
    ∃ v', sort cmp fuel v a l = some v' ∧ Rearranged a l v v' ∧ Ordered cmp a l v' := by
  induction fuel generalizing v a l with
  | zero => omega
  | succ fuel ih =>
      rw [sort]
      split_ifs with hone
      · refine ⟨v, rfl, .refl a l v, fun x y hax hxy hyl => ?_⟩
        have hsame : x = y := by omega
        exact Int.le_of_eq (hsame ▸ hcmp.refl (v x))
      · obtain ⟨s, hs, hvalid⟩ : ∃ s, Split.partition cmp (fuel + 1) v a l = some s ∧
            Split.Valid cmp (v (a + (l - a) / 2)) a l v .done s :=
          Split.partition_ends hcmp v (by omega) (by omega)
        obtain ⟨⟨hleft, hbefore, hblock, hafter, hright, hless, hsame, hmore⟩, hperm, -,
          hended⟩ := hvalid
        obtain ⟨hi, hj⟩ := hended rfl
        have hblocks : Blocks cmp (v (a + (l - a) / 2)) a l s.lp s.hp s.v :=
          ⟨hi ▸ hless, hsame, fun k hk hl => hmore k (by omega) hl⟩
        rw [hs, Option.bind_some]
        split_ifs
        · obtain ⟨v₁, hv₁, hperm₁, hord₁⟩ := ih s.v (s.hp + 1) l (by omega)
          obtain ⟨v₂, hv₂, hperm₂, hord₂⟩ := ih v₁ a s.lp (by omega)
          refine ⟨v₂, by rw [hv₁, Option.bind_some, hv₂], ?_, ?_⟩
          · exact (hperm.trans (hperm₁.widen (by omega) (Nat.le_refl l))).trans
              (hperm₂.widen (Nat.le_refl a) (by omega))
          · refine ((hblocks.right hblock hperm₁).left hblock hperm₂).ordered hcmp hord₂ ?_
            exact hord₁.congr fun k hk _ => hperm₂.outside (by omega)
        · obtain ⟨v₁, hv₁, hperm₁, hord₁⟩ := ih s.v a s.lp (by omega)
          obtain ⟨v₂, hv₂, hperm₂, hord₂⟩ := ih v₁ (s.hp + 1) l (by omega)
          refine ⟨v₂, by rw [hv₁, Option.bind_some, hv₂], ?_, ?_⟩
          · exact (hperm.trans (hperm₁.widen (Nat.le_refl a) (by omega))).trans
              (hperm₂.widen (by omega) (Nat.le_refl l))
          · refine ((hblocks.left hblock hperm₁).right hblock hperm₂).ordered hcmp ?_ hord₂
            exact hord₁.congr fun k _ hk => hperm₂.outside (by omega)

end Foundations
end Xinu
