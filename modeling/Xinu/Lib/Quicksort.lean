import Xinu.Foundations.NullTerminated
import Xinu.Foundations.ThreeWayPartition

/-!
# Quicksort

Embedding of `lib/qsort.c`.  Pointers are addresses, and memory keeps note of the addresses
that were read or written.  The comparison function sees the bytes of two elements.

Main results:

- Theorem `qs1_sim`: the code on the bytes of an array follows the sort of its elements.
- Theorem `qsort_sorts`: the array is sorted, and nothing else is touched.
-/

namespace Xinu
namespace Lib

open Foundations Function

/-! ## qsort.c -/

/-- Memory, and the addresses that were read or written. -/
structure Traced where
  chars : Chars
  touched : List Nat

/-- The value of an element. -/
abbrev Element (es : Nat) : Type := Fin es → UInt8

namespace Traced

def element (s : Traced) (es x : Nat) : Element es :=
  fun b => s.chars (x + b)

/-- The comparison function has read the elements at `x` and at `y`. -/
def reads (s : Traced) (es x y : Nat) : Traced :=
  { s with touched := List.range' x es ++ List.range' y es ++ s.touched }

/-- `c = *ri; *ri = *rj; *rj = c;` -/
def exchangeByte (s : Traced) (ri rj : Nat) : Traced where
  chars := update (update s.chars ri (s.chars rj)) rj (s.chars ri)
  touched := ri :: rj :: s.touched

/-- `c = *ri; *ri = *rk; *rk = *rj; *rj = c;` -/
def cycleByte (s : Traced) (ri rj rk : Nat) : Traced where
  chars :=
    let c := s.chars ri
    let chars := update s.chars ri (s.chars rk)
    let chars := update chars rk (chars rj)
    update chars rj c
  touched := ri :: rj :: rk :: s.touched

/-- The loop of `qsexc`, with `n` turns left. -/
def exchangeBytes : Nat → Traced → Nat → Nat → Traced
  | 0, s, _, _ => s
  | n + 1, s, ri, rj => exchangeBytes n (s.exchangeByte ri rj) (ri + 1) (rj + 1)

/-- The loop of `qstexc`, with `n` turns left. -/
def cycleBytes : Nat → Traced → Nat → Nat → Nat → Traced
  | 0, s, _, _, _ => s
  | n + 1, s, ri, rj, rk => cycleBytes n (s.cycleByte ri rj rk) (ri + 1) (rj + 1) (rk + 1)

end Traced

/-- `qses` is positive, so that the loop has as many turns. -/
def qsexc (es : Nat) (s : Traced) (i j : Nat) : Traced :=
  s.exchangeBytes es i j

def qstexc (es : Nat) (s : Traced) (i j k : Nat) : Traced :=
  s.cycleBytes es i j k

/-- Memory and the pointers that the loop of `qs1` moves. -/
structure Pass where
  s : Traced
  i : Nat
  j : Nat
  lp : Nat
  hp : Nat

section

variable (es : Nat) (qscmp : Element es → Element es → Int)

/-- The body of the loop, up to `loop:`. -/
def Pass.fromTop (f : Pass) : Point × Pass :=
  if f.i < f.lp then
    let c := qscmp (f.s.element es f.i) (f.s.element es f.lp)
    let s := f.s.reads es f.i f.lp
    if c = 0 then (.top, { f with s := qsexc es s f.i (f.lp - es), lp := f.lp - es })
    else if c < 0 then (.top, { f with s := s, i := f.i + es })
    else (.loop, { f with s := s })
  else (.loop, f)

/-- The body of the loop, from `loop:` on. -/
def Pass.fromLoop (f : Pass) : Point × Pass :=
  if f.j > f.hp then
    let c := qscmp (f.s.element es f.hp) (f.s.element es f.j)
    let s := f.s.reads es f.hp f.j
    if c = 0 then (.loop, { f with s := qsexc es s (f.hp + es) f.j, hp := f.hp + es })
    else if c > 0 then
      if f.i = f.lp then
        (.loop, { f with
          s := qstexc es s f.i (f.hp + es) f.j, hp := f.hp + es, lp := f.lp + es,
          i := f.lp + es })
      else (.top, { f with s := qsexc es s f.i f.j, j := f.j - es, i := f.i + es })
    else (.loop, { f with s := s, j := f.j - es })
  else if f.i = f.lp then (.done, f)
  else
    (.top, { f with
      s := qstexc es f.s f.j (f.lp - es) f.i, lp := f.lp - es, hp := f.hp - es,
      j := f.hp - es })

/-- `n = l - a`, of type `unsigned` -/
def unsignedDiff (l a : Nat) : Nat :=
  (l + 4294967296 - a) % 4294967296

/-- The fuel bounds the entries of each loop and the depth of the recursion; `goto start`
counts as a call. -/
def qs1 : Nat → Traced → Nat → Nat → Option Traced
  | 0, _, _, _ => none
  | fuel + 1, s, a, l =>
      if unsignedDiff l a ≤ es then some s
      else
        let n := es * (unsignedDiff l a / (2 * es))
        (drive (Pass.fromTop es qscmp) (Pass.fromLoop es qscmp) (fuel + 1) .top
          ⟨s, a, l - es, a + n, a + n⟩).bind fun f =>
            if f.lp - a ≥ l - f.hp then
              (qs1 fuel f.s (f.hp + es) l).bind fun s => qs1 fuel s a f.lp
            else (qs1 fuel f.s a f.lp).bind fun s => qs1 fuel s (f.hp + es) l

def qsort (fuel : Nat) (s : Traced) (a n : Nat) : Option Traced :=
  qs1 es qscmp fuel s a (a + n * es % 4294967296)

end

/-! ## Exchanging bytes -/

namespace Traced

variable {s : Traced} {n ri rj rk x z : Nat}

theorem exchangeBytes_chars (h : ri = rj ∨ ri + n ≤ rj ∨ rj + n ≤ ri) :
    (s.exchangeBytes n ri rj).chars z =
      if ri ≤ z ∧ z < ri + n then s.chars (rj + (z - ri))
      else if rj ≤ z ∧ z < rj + n then s.chars (ri + (z - rj)) else s.chars z := by
  induction n generalizing s ri rj with
  | zero => grind [exchangeBytes]
  | succ n ih =>
      rw [exchangeBytes, ih (by omega)]
      simp only [exchangeByte, update_apply]
      grind

theorem exchangeBytes_touched (h : x ∈ (s.exchangeBytes n ri rj).touched) :
    x ∈ s.touched ∨ (ri ≤ x ∧ x < ri + n) ∨ (rj ≤ x ∧ x < rj + n) := by
  induction n generalizing s ri rj with
  | zero => exact Or.inl h
  | succ n ih =>
      rcases ih h with hmem | hmem
      · simp only [exchangeByte, List.mem_cons] at hmem
        grind
      · exact Or.inr (by omega)

theorem cycleBytes_chars (hij : ri + n ≤ rj ∨ rj + n ≤ ri) (hik : ri + n ≤ rk ∨ rk + n ≤ ri)
    (hjk : rj = rk ∨ rj + n ≤ rk ∨ rk + n ≤ rj) :
    (s.cycleBytes n ri rj rk).chars z =
      if ri ≤ z ∧ z < ri + n then s.chars (rk + (z - ri))
      else if rj ≤ z ∧ z < rj + n then s.chars (ri + (z - rj))
      else if rk ≤ z ∧ z < rk + n then s.chars (rj + (z - rk)) else s.chars z := by
  induction n generalizing s ri rj rk with
  | zero => grind [cycleBytes]
  | succ n ih =>
      rw [cycleBytes, ih (by omega) (by omega) (by omega)]
      simp only [cycleByte, update_apply]
      grind

theorem cycleBytes_touched (h : x ∈ (s.cycleBytes n ri rj rk).touched) :
    x ∈ s.touched ∨ (ri ≤ x ∧ x < ri + n) ∨ (rj ≤ x ∧ x < rj + n) ∨ (rk ≤ x ∧ x < rk + n) := by
  induction n generalizing s ri rj rk with
  | zero => exact Or.inl h
  | succ n ih =>
      rcases ih h with hmem | hmem
      · simp only [cycleByte, List.mem_cons] at hmem
        grind
      · exact Or.inr (by omega)

end Traced

/-! ## The elements of an array -/

/-- Memory has the elements `v` in the array at `base`, and nothing else was touched. -/
structure Shows (es base n : Nat) (s₀ : Traced) (v : Nat → Element es) (s : Traced) : Prop where
  elements : ∀ k < n, s.element es (base + es * k) = v k
  outside : ∀ x, ¬ (base ≤ x ∧ x < base + es * n) → s.chars x = s₀.chars x
  touched : ∀ x ∈ s.touched, x ∈ s₀.touched ∨ (base ≤ x ∧ x < base + es * n)

section Slots

variable {es base n x y z k b : Nat}

theorem slot_lt_iff (hes : 0 < es) : base + es * x < base + es * y ↔ x < y := by
  rw [Nat.add_lt_add_iff_left, Nat.mul_lt_mul_left hes]

theorem slot_eq_iff (hes : 0 < es) : base + es * x = base + es * y ↔ x = y := by
  rw [Nat.add_left_cancel_iff, Nat.mul_right_inj (Nat.pos_iff_ne_zero.mp hes)]

theorem slot_succ : base + es * x + es = base + es * (x + 1) := by
  rw [Nat.mul_succ, Nat.add_assoc]

theorem slot_pred (hx : 0 < x) : base + es * x - es = base + es * (x - 1) := by
  obtain ⟨x, rfl⟩ : ∃ k, x = k + 1 := ⟨x - 1, by omega⟩
  rw [← slot_succ, Nat.add_sub_cancel, Nat.add_sub_cancel]

/-- The bytes of different elements are apart. -/
theorem slot_apart (h : x ≠ y) :
    base + es * x + es ≤ base + es * y ∨ base + es * y + es ≤ base + es * x := by
  rw [slot_succ, slot_succ]
  rcases Nat.lt_or_gt_of_ne h with hlt | hgt
  · exact Or.inl (Nat.add_le_add_left (Nat.mul_le_mul_left es hlt) base)
  · exact Or.inr (Nat.add_le_add_left (Nat.mul_le_mul_left es hgt) base)

/-- A byte of the element `k` is one of the element `x` only if they are the same. -/
theorem slot_mem_iff (hb : b < es) :
    base + es * x ≤ base + es * k + b ∧ base + es * k + b < base + es * x + es ↔ k = x := by
  constructor
  · intro hin
    by_contra hne
    have happart : base + es * k + es ≤ base + es * x ∨ base + es * x + es ≤ base + es * k :=
      slot_apart hne
    omega
  · rintro rfl
    omega

/-- The bytes of an element are bytes of the array. -/
theorem slot_inside (hx : x < n) (hlo : base + es * x ≤ z) (hhi : z < base + es * x + es) :
    base ≤ z ∧ z < base + es * n := by
  have hle : es * (x + 1) ≤ es * n := Nat.mul_le_mul_left es hx
  rw [Nat.mul_succ] at hle
  omega

end Slots

namespace Shows

variable {es base n : Nat} {s₀ s : Traced} {v : Nat → Element es} {x y z : Nat}

theorem reads (h : Shows es base n s₀ v s) (hx : x < n) (hy : y < n) :
    Shows es base n s₀ v (s.reads es (base + es * x) (base + es * y)) where
  elements := h.elements
  outside := h.outside
  touched a ha := by
    simp only [Traced.reads, List.mem_append, List.mem_range'_1] at ha
    rcases ha with (⟨hlo, hhi⟩ | ⟨hlo, hhi⟩) | ha
    · exact Or.inr (slot_inside hx hlo hhi)
    · exact Or.inr (slot_inside hy hlo hhi)
    · exact h.touched a ha

theorem byte (h : Shows es base n s₀ v s) (hx : x < n) (b : Fin es) :
    s.chars (base + es * x + b) = v x b :=
  congrFun (h.elements x hx) b

/-- `qsexc` exchanges two elements. -/
theorem qsexc (h : Shows es base n s₀ v s) (hx : x < n) (hy : y < n) :
    Shows es base n s₀ (exchange v x y)
      (Lib.qsexc es s (base + es * x) (base + es * y)) := by
  have happart : base + es * x = base + es * y ∨ base + es * x + es ≤ base + es * y ∨
      base + es * y + es ≤ base + es * x := by
    by_cases hxy : x = y
    · exact Or.inl (by rw [hxy])
    · exact Or.inr (slot_apart hxy)
  have hbytes := fun a => Traced.exchangeBytes_chars (s := s) (z := a) happart
  refine ⟨fun k hk => ?_, fun a ha => ?_, fun a ha => ?_⟩
  · funext b
    rw [Traced.element, Lib.qsexc, hbytes]
    simp only [slot_mem_iff b.isLt, exchange]
    by_cases hkx : k = x
    · subst hkx
      simp only [if_pos, Nat.add_sub_cancel_left]
      exact h.byte hy b
    · by_cases hky : k = y
      · subst hky
        simp only [if_pos, if_neg hkx, Nat.add_sub_cancel_left]
        exact h.byte hx b
      · simp only [if_neg hkx, if_neg hky]
        exact h.byte hk b
  · have hnotx : ¬ (base + es * x ≤ a ∧ a < base + es * x + es) :=
      fun hin => ha (slot_inside hx hin.1 hin.2)
    have hnoty : ¬ (base + es * y ≤ a ∧ a < base + es * y + es) :=
      fun hin => ha (slot_inside hy hin.1 hin.2)
    rw [Lib.qsexc, hbytes, if_neg hnotx, if_neg hnoty]
    exact h.outside a ha
  · rcases Traced.exchangeBytes_touched ha with ha | ⟨hlo, hhi⟩ | ⟨hlo, hhi⟩
    · exact h.touched a ha
    · exact Or.inr (slot_inside hx hlo hhi)
    · exact Or.inr (slot_inside hy hlo hhi)

/-- `qstexc` moves three elements round, the first of which is another than the others. -/
theorem qstexc (h : Shows es base n s₀ v s) (hx : x < n) (hy : y < n) (hz : z < n)
    (hxy : x ≠ y) (hxz : x ≠ z) :
    Shows es base n s₀ (cycle v x y z)
      (Lib.qstexc es s (base + es * x) (base + es * y) (base + es * z)) := by
  have happart : base + es * y = base + es * z ∨ base + es * y + es ≤ base + es * z ∨
      base + es * z + es ≤ base + es * y := by
    by_cases hyz : y = z
    · exact Or.inl (by rw [hyz])
    · exact Or.inr (slot_apart hyz)
  have hbytes := fun a => Traced.cycleBytes_chars (s := s) (z := a) (slot_apart hxy)
    (slot_apart hxz) happart
  refine ⟨fun k hk => ?_, fun a ha => ?_, fun a ha => ?_⟩
  · funext b
    rw [Traced.element, Lib.qstexc, hbytes, cycle_apply hxy hxz]
    simp only [slot_mem_iff b.isLt]
    by_cases hkx : k = x
    · subst hkx
      simp only [if_pos, Nat.add_sub_cancel_left]
      exact h.byte hz b
    · by_cases hky : k = y
      · subst hky
        simp only [if_pos, if_neg hkx, Nat.add_sub_cancel_left]
        exact h.byte hx b
      · by_cases hkz : k = z
        · subst hkz
          simp only [if_pos, if_neg hkx, if_neg hky, Nat.add_sub_cancel_left]
          exact h.byte hy b
        · simp only [if_neg hkx, if_neg hky, if_neg hkz]
          exact h.byte hk b
  · have hnotx : ¬ (base + es * x ≤ a ∧ a < base + es * x + es) :=
      fun hin => ha (slot_inside hx hin.1 hin.2)
    have hnoty : ¬ (base + es * y ≤ a ∧ a < base + es * y + es) :=
      fun hin => ha (slot_inside hy hin.1 hin.2)
    have hnotz : ¬ (base + es * z ≤ a ∧ a < base + es * z + es) :=
      fun hin => ha (slot_inside hz hin.1 hin.2)
    rw [Lib.qstexc, hbytes, if_neg hnotx, if_neg hnoty, if_neg hnotz]
    exact h.outside a ha
  · rcases Traced.cycleBytes_touched ha with ha | ⟨hlo, hhi⟩ | ⟨hlo, hhi⟩ | ⟨hlo, hhi⟩
    · exact h.touched a ha
    · exact Or.inr (slot_inside hx hlo hhi)
    · exact Or.inr (slot_inside hy hlo hhi)
    · exact Or.inr (slot_inside hz hlo hhi)

end Shows

/-! ## One pass -/

/-- The pointers of the loop point to the elements of the partition under way. -/
structure Follows (es base n : Nat) (s₀ : Traced) (f : Split (Element es)) (g : Pass) :
    Prop where
  shows : Shows es base n s₀ f.v g.s
  i : g.i = base + es * f.i
  j : g.j = base + es * f.j
  lp : g.lp = base + es * f.lp
  hp : g.hp = base + es * f.hp

namespace Follows

variable {es base n a l : Nat} {s₀ : Traced} {f : Split (Element es)} {g : Pass}
  {qscmp : Element es → Element es → Int} {p : Element es} {v₀ : Nat → Element es}

theorem fromTop (hes : 0 < es) (hl : l ≤ n) (hf : f.Valid qscmp p a l v₀ .top)
    (h : Follows es base n s₀ f g) :
    (g.fromTop es qscmp).1 = (f.atTop qscmp).1 ∧
      Follows es base n s₀ (f.atTop qscmp).2 (g.fromTop es qscmp).2 := by
  obtain ⟨s, i, j, lp, hp⟩ := g
  obtain ⟨hs, rfl, rfl, rfl, rfl⟩ := h
  obtain ⟨-, hbefore, hblock, hafter, hright, -, -, -⟩ := hf.parted
  have hread := hs.reads (x := f.i) (y := f.lp) (by omega) (by omega)
  simp only [Pass.fromTop, Split.atTop, slot_lt_iff hes, hs.elements f.i (by omega),
    hs.elements f.lp (by omega)]
  split_ifs with hi hzero hneg
  · rw [slot_pred (by omega)]
    exact ⟨rfl, hread.qsexc (by omega) (by omega), rfl, rfl, rfl, rfl⟩
  · exact ⟨rfl, hread, slot_succ, rfl, rfl, rfl⟩
  · exact ⟨rfl, hread, rfl, rfl, rfl, rfl⟩
  · exact ⟨rfl, hs, rfl, rfl, rfl, rfl⟩

theorem fromLoop (hes : 0 < es) (hl : l ≤ n) (hf : f.Valid qscmp p a l v₀ .loop)
    (h : Follows es base n s₀ f g) :
    (g.fromLoop es qscmp).1 = (f.atLoop qscmp).1 ∧
      Follows es base n s₀ (f.atLoop qscmp).2 (g.fromLoop es qscmp).2 := by
  obtain ⟨s, i, j, lp, hp⟩ := g
  obtain ⟨hs, rfl, rfl, rfl, rfl⟩ := h
  obtain ⟨-, hbefore, hblock, hafter, hright, -, -, -⟩ := hf.parted
  have hread := hs.reads (x := f.hp) (y := f.j) (by omega) (by omega)
  simp only [Pass.fromLoop, Split.atLoop, gt_iff_lt, slot_lt_iff hes, slot_eq_iff hes,
    hs.elements f.hp (by omega), hs.elements f.j (by omega)]
  split_ifs with hj hzero hpos hi hi
  · rw [slot_succ]
    exact ⟨rfl, hread.qsexc (by omega) (by omega), rfl, rfl, rfl, rfl⟩
  · rw [slot_succ]
    exact ⟨rfl, hread.qstexc (by omega) (by omega) (by omega) (by omega) (by omega),
      slot_succ, rfl, slot_succ, rfl⟩
  · exact ⟨rfl, hread.qsexc (by omega) (by omega), slot_succ, slot_pred (by omega), rfl, rfl⟩
  · exact ⟨rfl, hread, rfl, slot_pred (by omega), rfl, rfl⟩
  · exact ⟨rfl, hs, rfl, rfl, rfl, rfl⟩
  · rw [slot_pred (by omega), slot_pred (by omega)]
    exact ⟨rfl, hs.qstexc (by omega) (by omega) (by omega) (by omega) (by omega), rfl, rfl,
      rfl, rfl⟩

end Follows

/-! ## The sort -/

section

variable {es base n : Nat} {s₀ : Traced} {qscmp : Element es → Element es → Int}

theorem unsignedDiff_slots {x y : Nat} (hxy : y ≤ x) (hx : x ≤ n) (hsize : es * n < 2147483648) :
    unsignedDiff (base + es * x) (base + es * y) = es * (x - y) := by
  have hle : es * x ≤ es * n := Nat.mul_le_mul_left es hx
  have hmono : es * y ≤ es * x := Nat.mul_le_mul_left es hxy
  rw [unsignedDiff, Nat.mul_sub]
  omega

/-- The code on the bytes of an array follows the sort of its elements. -/
theorem qs1_sim (hes : 0 < es) (hsize : es * n < 2147483648) (hcmp : Consistent qscmp)
    (fuel : Nat) {v v' : Nat → Element es} {s : Traced} {a l : Nat} (hal : a ≤ l) (hl : l ≤ n)
    (h : Shows es base n s₀ v s) (hsort : sort qscmp fuel v a l = some v') :
    ∃ s', qs1 es qscmp fuel s (base + es * a) (base + es * l) = some s' ∧
      Shows es base n s₀ v' s' := by
  induction fuel generalizing v s a l v' with
  | zero => exact nomatch hsort
  | succ fuel ih =>
      have hone : es * (l - a) ≤ es ↔ l - a ≤ 1 := by
        conv_lhs => rhs; rw [← Nat.mul_one es]
        exact Nat.mul_le_mul_left_iff hes
      have hmid : es * (es * (l - a) / (2 * es)) = es * ((l - a) / 2) := by
        rw [Nat.mul_comm 2 es, Nat.mul_div_mul_left _ _ hes]
      simp only [qs1, unsignedDiff_slots hal hl hsize, hone, hmid]
      rw [sort] at hsort
      split_ifs at hsort ⊢ with hsmall
      · exact ⟨s, rfl, Option.some_inj.mp hsort ▸ h⟩
      · obtain ⟨f, hpart, hrest⟩ := Option.bind_eq_some_iff.mp hsort
        have hfollows : Follows es base n s₀ (Split.start v a l)
            ⟨s, base + es * a, base + es * l - es, base + es * a + es * ((l - a) / 2),
              base + es * a + es * ((l - a) / 2)⟩ := by
          have hpivot : base + es * a + es * ((l - a) / 2) = base + es * (a + (l - a) / 2) := by
            rw [Nat.mul_add, Nat.add_assoc]
          exact ⟨h, rfl, slot_pred (by omega), hpivot, hpivot⟩
        obtain ⟨hvalid, g, hg, hfg⟩ := drive_sim (Split.valid_start hcmp v (by omega)) hfollows
          (fun f g hf hfg => ⟨(hf.atTop hcmp).1, hfg.fromTop hes hl hf⟩)
          (fun f g hf hfg => ⟨(hf.atLoop hcmp).1, hfg.fromLoop hes hl hf⟩) hpart
        obtain ⟨hleft, hbefore, hblock, hafter, hright, -, -, -⟩ := hvalid.parted
        obtain ⟨s', i, j, lp, hp⟩ := g
        obtain ⟨hs', rfl, rfl, rfl, rfl⟩ := hfg
        have hsides : base + es * f.lp - (base + es * a) ≥ base + es * l - (base + es * f.hp) ↔
            l - f.hp ≤ f.lp - a := by
          rw [Nat.add_sub_add_left, Nat.add_sub_add_left, ← Nat.mul_sub, ← Nat.mul_sub]
          exact Nat.mul_le_mul_left_iff hes
        rw [hg, Option.bind_some]
        simp only [hsides, slot_succ]
        split_ifs at hrest ⊢ with hlarger
        · obtain ⟨v₁, hv₁, hv'⟩ := Option.bind_eq_some_iff.mp hrest
          obtain ⟨s₁, hs₁, hshows₁⟩ := ih (by omega) hl hs' hv₁
          obtain ⟨s₂, hs₂, hshows₂⟩ := ih (by omega) (by omega) hshows₁ hv'
          exact ⟨s₂, by rw [hs₁, Option.bind_some, hs₂], hshows₂⟩
        · obtain ⟨v₁, hv₁, hv'⟩ := Option.bind_eq_some_iff.mp hrest
          obtain ⟨s₁, hs₁, hshows₁⟩ := ih (by omega) (by omega) hs' hv₁
          obtain ⟨s₂, hs₂, hshows₂⟩ := ih (by omega) hl hshows₁ hv'
          exact ⟨s₂, by rw [hs₁, Option.bind_some, hs₂], hshows₂⟩

/-- More fuel than is needed changes nothing. -/
theorem qs1_mono {fuel more : Nat} {s s' : Traced} {a l : Nat}
    (h : qs1 es qscmp fuel s a l = some s') (hle : fuel ≤ more) :
    qs1 es qscmp more s a l = some s' := by
  induction fuel generalizing more s a l s' with
  | zero => exact nomatch h
  | succ fuel ih =>
      obtain ⟨more, rfl⟩ : ∃ k, more = k + 1 := ⟨more - 1, by omega⟩
      simp only [qs1] at h ⊢
      split_ifs at h ⊢ with hsmall
      · exact h
      · obtain ⟨f, hpass, hrest⟩ := Option.bind_eq_some_iff.mp h
        rw [drive_mono hpass hle, Option.bind_some]
        split_ifs at hrest ⊢ with hlarger
        all_goals
          obtain ⟨s₁, hs₁, hs'⟩ := Option.bind_eq_some_iff.mp hrest
          rw [ih hs₁ (by omega), Option.bind_some]
          exact ih hs' (by omega)

end

/-- The values of the elements of an array. -/
def elements (s : Traced) (es a n : Nat) : List (Element es) :=
  (List.range n).map fun k => s.element es (a + es * k)

/-- With any comparison function that is a total preorder on the values of the elements, the
sort ends and leaves the elements in order; no byte outside of the array is touched. -/
theorem qsort_sorts (s : Traced) (a n es : Nat) (fc : Element es → Element es → Int)
    (hes : 0 < es) (hsize : n * es < 2147483648) (hfc : Consistent fc) :
    ∃ s', (∀ fuel, 2 * n + 1 ≤ fuel → qsort es fc fuel s a n = some s') ∧
      (elements s' es a n).Perm (elements s es a n) ∧
      (elements s' es a n).Pairwise (fun x y => fc x y ≤ 0) ∧
      (∀ x, ¬ (a ≤ x ∧ x < a + n * es) → s'.chars x = s.chars x) ∧
      ∀ x ∈ s'.touched, x ∈ s.touched ∨ (a ≤ x ∧ x < a + n * es) := by
  have hshows : Shows es a n s (fun k => s.element es (a + es * k)) s :=
    ⟨fun _ _ => rfl, fun _ _ => rfl, fun _ hx => Or.inl hx⟩
  obtain ⟨v', hsort, hperm, hord⟩ :=
    sort_spec hfc (2 * n + 1) (fun k => s.element es (a + es * k)) 0 n (by omega)
  rw [Nat.mul_comm] at hsize
  obtain ⟨s', hs', helements, houtside, htouched⟩ :=
    qs1_sim hes hsize hfc (2 * n + 1) (Nat.zero_le n) (Nat.le_refl n) hshows hsort
  have hsame : elements s' es a n = (List.range n).map v' :=
    List.map_congr_left fun k hk => helements k (List.mem_range.mp hk)
  refine ⟨s', fun fuel hfuel => ?_, ?_, ?_, ?_, ?_⟩
  · have hwhole : n * es % 4294967296 = es * n := by
      rw [Nat.mul_comm, Nat.mod_eq_of_lt (by omega)]
    rw [qsort, hwhole]
    exact qs1_mono hs' hfuel
  · rw [hsame]
    exact hperm.perm
  · rw [hsame]
    exact hord.pairwise
  · rw [Nat.mul_comm n es]
    exact houtside
  · rw [Nat.mul_comm n es]
    exact htouched

/-- To compare elements of two bytes by the first of them. -/
def byFirst (x y : Element 2) : Int :=
  (x 0).toNat - (y 0).toNat

theorem consistent_byFirst : Consistent byFirst where
  flip x y := by
    simp only [byFirst]
    omega
  trans x y z := by
    simp only [byFirst]
    omega

/-- Three elements of two bytes. -/
def threeElements : Traced where
  chars := fun k => [9, 1, 4, 2, 4, 3].getD k 0
  touched := []

theorem qsort_sorts_three : ∃ s', qsort 2 byFirst 7 threeElements 0 3 = some s' ∧
    (elements s' 2 0 3).Perm (elements threeElements 2 0 3) ∧
    (elements s' 2 0 3).Pairwise fun x y => byFirst x y ≤ 0 := by
  obtain ⟨s', hs', hperm, hord, -⟩ :=
    qsort_sorts threeElements 0 3 2 byFirst (by decide) (by decide) consistent_byFirst
  exact ⟨s', hs' 7 (by decide), hperm, hord⟩

example : (qsort 2 byFirst 7 threeElements 0 3).map (fun s => (List.range 6).map s.chars) =
    some [4, 3, 4, 2, 9, 1] := by decide

end Lib
end Xinu
