import Xinu.Foundations.NullTerminated

/-!
# Tagged fields

A sequence of fields in memory: each has a code, behind it the length of its value, and behind that
the value.  The code 0 is a field of one byte that fills space, and the code 255 ends the sequence.
A reader that takes the byte behind every code for a length leaps over fields that fill space.

Main results:

- Theorem `leaps_run`: where no space is filled, the reader meets every field and nothing else.
- Theorem `find_leaps`: where space is filled by pairs of bytes, it finds the same fields.
-/

namespace Xinu
namespace Foundations

variable {mem : Chars} {size off mid e k : Nat} {os ps os' ps' : List Nat}

/-! ## Fields -/

/-- The fields from `off` on to `e`: those with a value are at `os`, and those that fill space at
`ps`. -/
inductive Run (mem : Chars) : Nat → List Nat → List Nat → Nat → Prop where
  | nil (e : Nat) : Run mem e [] [] e
  | pad {off e : Nat} {os ps : List Nat} (h : mem off = 0) (rest : Run mem (off + 1) os ps e) :
      Run mem off os (off :: ps) e
  | value {off e : Nat} {os ps : List Nat} (h0 : mem off ≠ 0) (h255 : mem off ≠ 255)
      (rest : Run mem (off + 1 + (mem (off + 1)).toNat + 1) os ps e) : Run mem off (off :: os) ps e

/-- The fields from `off` on to the end of the sequence at `e`. -/
structure Layout (mem : Chars) (off : Nat) (os ps : List Nat) (e : Nat) : Prop where
  run : Run mem off os ps e
  last : mem e = 255

theorem Run.le (h : Run mem off os ps e) : off ≤ e := by
  induction h with
  | nil e => exact Nat.le_refl e
  | pad h rest ih => omega
  | value h0 h255 rest ih => omega

theorem Run.code_of_mem (h : Run mem off os ps e) {o : Nat} (ho : o ∈ os) :
    mem o ≠ 0 ∧ mem o ≠ 255 := by
  induction h with
  | nil e => exact absurd ho List.not_mem_nil
  | pad h rest ih => exact ih ho
  | value h0 h255 rest ih =>
      rcases List.mem_cons.mp ho with rfl | ho
      · exact ⟨h0, h255⟩
      · exact ih ho

/-- No field with a value has the code of one without. -/
theorem Layout.find_eq_none {key : UInt8} (h : Layout mem off os ps e) (hkey : key = 0 ∨ key = 255) :
    os.find? (mem · = key) = none := by
  rw [List.find?_eq_none]
  intro o ho hcode
  obtain ⟨h0, h255⟩ := h.run.code_of_mem ho
  rw [of_decide_eq_true hcode] at h0 h255
  rcases hkey with hkey | hkey
  · exact h0 hkey
  · exact h255 hkey

/-! ## A reader that leaps -/

/-- Where a reader looks for a code that leaps over the length behind every code, from `off` on. -/
def leaps (mem : Chars) (size off : Nat) : List Nat :=
  if off + 1 < size then
    off :: leaps mem size (off + 1 + (mem (off + 1)).toNat + 1)
  else
    []
termination_by size - off

theorem leaps_of_lt (h : off + 1 < size) :
    leaps mem size off = off :: leaps mem size (off + 1 + (mem (off + 1)).toNat + 1) := by
  rw [leaps, if_pos h]

theorem leaps_of_le (h : size ≤ off + 1) : leaps mem size off = [] := by
  rw [leaps, if_neg (Nat.not_lt.mpr h)]

/-- It does not come back. -/
theorem le_of_mem_leaps (h : k ∈ leaps mem size off) : off ≤ k ∧ k + 1 < size := by
  induction off using leaps.induct mem size with
  | case1 off hlt ih =>
      rw [leaps_of_lt hlt] at h
      rcases List.mem_cons.mp h with rfl | h
      · exact ⟨Nat.le_refl k, hlt⟩
      · have := ih h
        omega
  | case2 off hlt =>
      rw [leaps_of_le (Nat.not_lt.mp hlt)] at h
      exact absurd h List.not_mem_nil

/-- The fields that it meets are those of the sequence, up to where space is filled. -/
theorem leaps_run (h : Run mem off os [] e) (he : e < size) :
    leaps mem size off = os ++ leaps mem size e := by
  obtain ⟨ps, hps⟩ : ∃ ps, ps = ([] : List Nat) := ⟨[], rfl⟩
  rw [← hps] at h
  induction h with
  | nil e => rfl
  | pad h rest ih => exact absurd hps (List.cons_ne_nil _ _)
  | value h0 h255 rest ih =>
      have hle := rest.le
      rw [leaps_of_lt (by omega), ih he hps]
      rfl

/-- It ends up at the first field that fills space. -/
theorem leaps_run_pad {p : Nat} (h : Run mem off os (p :: ps) e) (he : e < size) :
    ∃ os', leaps mem size off = os' ++ p :: leaps mem size (p + 1 + (mem (p + 1)).toNat + 1) ∧
      (∀ o ∈ os', o ∈ os) ∧ mem p = 0 := by
  obtain ⟨qs, hqs⟩ : ∃ qs, qs = p :: ps := ⟨_, rfl⟩
  rw [← hqs] at h
  induction h with
  | nil e => exact absurd hqs.symm (List.cons_ne_nil _ _)
  | pad h rest ih =>
      have hle := rest.le
      obtain ⟨rfl, rfl⟩ := List.cons_eq_cons.mp hqs
      exact ⟨[], leaps_of_lt (by omega), fun o ho => absurd ho List.not_mem_nil, h⟩
  | @value off e os qs h0 h255 rest ih =>
      have hle := rest.le
      obtain ⟨os', hleaps, hmem, hzero⟩ := ih he hqs
      refine ⟨off :: os', ?_, fun o ho => ?_, hzero⟩
      · rw [leaps_of_lt (by omega), hleaps]
        rfl
      · rcases List.mem_cons.mp ho with rfl | ho
        · exact List.mem_cons_self
        · exact List.mem_cons_of_mem _ (hmem o ho)

/-! ## Space that is filled by pairs -/

/-- Pairs of neighbours. -/
inductive Paired : List Nat → Prop where
  | nil : Paired []
  | pair (p : Nat) {ps : List Nat} (rest : Paired ps) : Paired (p :: (p + 1) :: ps)

theorem Run.le_of_mem_pads (h : Run mem off os ps e) {q : Nat} (hq : q ∈ ps) : off ≤ q := by
  induction h with
  | nil e => exact absurd hq List.not_mem_nil
  | pad h rest ih =>
      rcases List.mem_cons.mp hq with rfl | hq
      · exact Nat.le_refl q
      · have := ih hq
        omega
  | value h0 h255 rest ih =>
      have := ih hq
      omega

/-- What a search from `off` finds: the first field with the code, and otherwise what is behind the
fields. -/
def Finds (mem : Chars) (size : Nat) (key : UInt8) (os : List Nat) (e off : Nat) : Prop :=
  (leaps mem size off).find? (mem · = key) =
    (os.find? (mem · = key)).or ((leaps mem size e).find? (mem · = key))

/-- A reader of a code other than 0 takes a pair that fills space for a field without a value, and
so reaches what is behind the fields. -/
theorem find_leaps {key : UInt8} (h : Run mem off os ps e) (he : e < size) (hkey : key ≠ 0) :
    (Paired ps → Finds mem size key os e off) ∧
      ∀ p, off = p + 1 → mem p = 0 → Paired (p :: ps) → Finds mem size key os e p := by
  induction h with
  | nil e =>
      refine ⟨fun _ => rfl, fun p _ _ hpaired => ?_⟩
      cases hpaired
  | @pad off e os ps h rest ih =>
      have hle := rest.le
      refine ⟨fun hpaired => (ih he).2 off rfl h hpaired, fun p hoff hzero hpaired => ?_⟩
      subst hoff
      cases hpaired with
      | pair p hpaired =>
          have hfinds : Finds mem size key os e (p + 1 + 1) := (ih he).1 hpaired
          unfold Finds
          rw [leaps_of_lt (by omega), List.find?_cons_of_neg, h]
          · exact hfinds
          · simpa [hzero] using hkey.symm
  | @value off e os ps h0 h255 rest ih =>
      have hle := rest.le
      constructor
      · intro hpaired
        have hfinds := (ih he).1 hpaired
        unfold Finds at hfinds ⊢
        rw [leaps_of_lt (by omega), List.find?_cons, List.find?_cons, hfinds]
        split
        · rfl
        · rfl
      · intro p hoff hzero hpaired
        cases hpaired with
        | pair p hpaired =>
            have := rest.le_of_mem_pads List.mem_cons_self
            omega

end Foundations
end Xinu
