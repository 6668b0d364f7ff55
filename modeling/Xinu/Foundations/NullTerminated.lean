import Xinu.Foundations.CountedLoop
import Mathlib.Data.List.GetD
import Mathlib.Logic.Function.Basic

/-!
# Null-terminated strings

A string in memory is what a pointer leads to, up to the first null byte.

Main results:

- Theorem `Spells.unique`: memory spells at most one string.
- Theorem `spells_spelled`: memory with a null byte spells the string before it.
- Theorem `Spells.join`: what two copy loops leave in a buffer.
-/

namespace Xinu
namespace Foundations

open Function

/-- Memory, from the address on that a pointer holds. -/
abbrev Chars := Nat → UInt8

/-- The characters of `s`, followed by a null byte. -/
structure Spells (b : Chars) (s : List UInt8) : Prop where
  chars : ∀ i (h : i < s.length), b i = s[i]
  null : b s.length = 0
  nonzero : 0 ∉ s

section Spells

variable {b b' : Chars} {s t : List UInt8} {i n : Nat}

theorem Spells.ne_zero (h : Spells b s) (hi : i < s.length) : b i ≠ 0 := by
  intro hzero
  apply h.nonzero
  rw [← hzero, h.chars i hi]
  exact List.getElem_mem hi

theorem spells_nil (h : b 0 = 0) : Spells b [] :=
  ⟨fun i hi => absurd hi (Nat.not_lt_zero i), h, List.not_mem_nil⟩

/-- One more character at the front. -/
theorem spells_cons (h0 : b 0 ≠ 0) (h : Spells (fun i => b (i + 1)) s) : Spells b (b 0 :: s) := by
  constructor
  · intro i hi
    cases i with
    | zero => rfl
    | succ i => exact h.chars i (Nat.lt_of_succ_lt_succ hi)
  · exact h.null
  · intro hmem
    rcases List.mem_cons.mp hmem with hzero | hmem
    · exact h0 hzero.symm
    · exact h.nonzero hmem

/-- The rest of a string. -/
theorem Spells.drop (h : Spells b s) (hn : n ≤ s.length) :
    Spells (fun i => b (n + i)) (s.drop n) := by
  constructor
  · intro i hi
    rw [List.length_drop] at hi
    rw [List.getElem_drop]
    exact h.chars (n + i) (by omega)
  · show b (n + (s.drop n).length) = 0
    rw [List.length_drop, Nat.add_sub_cancel' hn]
    exact h.null
  · exact fun hmem => h.nonzero (List.mem_of_mem_drop hmem)

theorem Spells.unique (h : Spells b s) (h' : Spells b t) : s = t := by
  have hlen : s.length = t.length := by
    rcases Nat.lt_trichotomy s.length t.length with hlt | heq | hgt
    · exact absurd h.null (h'.ne_zero hlt)
    · exact heq
    · exact absurd h'.null (h.ne_zero hgt)
  apply List.ext_getElem hlen
  intro i hi hi'
  rw [← h.chars i hi, h'.chars i hi']

/-- Only the string and the null byte behind it matter. -/
theorem Spells.congr (h : Spells b s) (hsame : ∀ i ≤ s.length, b' i = b i) : Spells b' s := by
  constructor
  · intro i hi
    rw [hsame i (Nat.le_of_lt hi)]
    exact h.chars i hi
  · rw [hsame _ (Nat.le_refl _)]
    exact h.null
  · exact h.nonzero

/-- Memory that holds the string and then zeros. -/
def chars (s : List UInt8) : Chars :=
  fun i => s.getD i 0

theorem spells_chars (h : 0 ∉ s) : Spells (chars s) s := by
  constructor
  · intro i hi
    exact List.getD_eq_getElem s 0 hi
  · exact List.getD_eq_default s 0 (Nat.le_refl _)
  · exact h

/-- The string in memory, of which no more than `n` bytes are read. -/
def spelled (b : Chars) : Nat → List UInt8
  | 0 => []
  | n + 1 => if b 0 = 0 then [] else b 0 :: spelled (fun i => b (i + 1)) n

theorem spells_spelled (h : ∃ i < n, b i = 0) :
    Spells b (spelled b n) ∧ (spelled b n).length < n := by
  induction n generalizing b with
  | zero =>
      rcases h with ⟨i, hi, -⟩
      exact absurd hi (Nat.not_lt_zero i)
  | succ n ih =>
      unfold spelled
      by_cases h0 : b 0 = 0
      · rw [if_pos h0]
        exact ⟨spells_nil h0, Nat.succ_pos n⟩
      · rw [if_neg h0]
        have hrest : ∃ i < n, b (i + 1) = 0 := by
          rcases h with ⟨i, hi, hzero⟩
          cases i with
          | zero => exact absurd hzero h0
          | succ i => exact ⟨i, Nat.lt_of_succ_lt_succ hi, hzero⟩
        have hspells := ih hrest
        exact ⟨spells_cons h0 hspells.1, Nat.succ_lt_succ hspells.2⟩

end Spells

/-! ## Copy loops -/

/-- The loop that copies `n` bytes to the offset `start` of a buffer. -/
def copyChars (n : Nat) (src : Chars) (start : Nat) : Chars → Chars :=
  forRange 0 n fun k b => update b (start + k) (src k)

section Copy

variable {src dst : Chars} {n start i : Nat}

theorem copyChars_inside (h : i < n) : copyChars n src start dst (start + i) = src i := by
  apply forRange_at (fun b : Chars => b (start + i)) (Nat.zero_le i) h
  · intro b
    exact update_self _ _ _
  · intro k b hk
    exact update_of_ne (by omega) _ _

theorem copyChars_outside (h : i < start ∨ start + n ≤ i) :
    copyChars n src start dst i = dst i := by
  apply forRange_same (fun b : Chars => b i)
  intro k b _ hk
  exact update_of_ne (by omega) _ _

/-- A string that is copied, and another with its null byte behind it. -/
theorem Spells.join {b b' : Chars} {s t : List UInt8} (h : Spells b s) (h' : Spells b' t)
    (dst : Chars) :
    Spells (copyChars (t.length + 1) b' s.length (copyChars s.length b 0 dst)) (s ++ t) := by
  constructor
  · intro i hi
    rw [List.length_append] at hi
    by_cases hs : i < s.length
    · have hfirst := @copyChars_inside b dst s.length 0 i hs
      rw [Nat.zero_add] at hfirst
      rw [copyChars_outside (Or.inl hs), hfirst, List.getElem_append_left hs]
      exact h.chars i hs
    · obtain ⟨k, rfl⟩ : ∃ k, i = s.length + k := ⟨i - s.length, by omega⟩
      rw [copyChars_inside (by omega), List.getElem_append_right (Nat.le_add_right _ _)]
      simp only [Nat.add_sub_cancel_left]
      exact h'.chars k (by omega)
  · rw [List.length_append, copyChars_inside (Nat.lt_succ_self _)]
    exact h'.null
  · intro hmem
    rcases List.mem_append.mp hmem with hmem | hmem
    · exact h.nonzero hmem
    · exact h'.nonzero hmem

end Copy

/-! ## Strings one after another -/

/-- The bytes that the strings take, each with its null byte. -/
def packedLen : List (List UInt8) → Nat
  | [] => 0
  | s :: ss => s.length + 1 + packedLen ss

/-- Memory holds the strings one after another. -/
def Packed (b : Chars) : List (List UInt8) → Prop
  | [] => True
  | s :: ss => Spells b s ∧ Packed (fun i => b (s.length + 1 + i)) ss

section Packed

variable {b b' : Chars} {s : List UInt8} {ss ts : List (List UInt8)}

theorem packedLen_append (ss ts : List (List UInt8)) :
    packedLen (ss ++ ts) = packedLen ss + packedLen ts := by
  induction ss with
  | nil => exact (Nat.zero_add _).symm
  | cons s ss ih =>
      rw [List.cons_append, packedLen, packedLen, ih]
      omega

theorem packedLen_snoc (ss : List (List UInt8)) (s : List UInt8) :
    packedLen (ss ++ [s]) = packedLen ss + s.length + 1 := by
  rw [packedLen_append]
  rfl

theorem packedLen_take_le (ss : List (List UInt8)) (j : Nat) :
    packedLen (ss.take j) ≤ packedLen ss := by
  have hsplit := packedLen_append (ss.take j) (ss.drop j)
  rw [List.take_append_drop] at hsplit
  omega

theorem packed_append_iff :
    Packed b (ss ++ ts) ↔ Packed b ss ∧ Packed (fun i => b (packedLen ss + i)) ts := by
  induction ss generalizing b with
  | nil =>
      simp only [List.nil_append, packedLen, Nat.zero_add]
      exact ⟨fun h => ⟨trivial, h⟩, fun h => h.2⟩
  | cons s ss ih =>
      simp only [List.cons_append, Packed, ih, packedLen, Nat.add_assoc, and_assoc]

/-- Only the bytes of the strings matter. -/
theorem Packed.congr (h : Packed b ss) (hsame : ∀ i < packedLen ss, b' i = b i) :
    Packed b' ss := by
  induction ss generalizing b b' with
  | nil => trivial
  | cons s ss ih =>
      constructor
      · apply h.1.congr
        intro i hi
        apply hsame
        rw [packedLen]
        omega
      · apply ih h.2
        intro i hi
        apply hsame
        rw [packedLen]
        omega

/-- String `j` lies behind the ones before it. -/
theorem Packed.spells (h : Packed b ss) {j : Nat} (hj : j < ss.length) :
    Spells (fun i => b (packedLen (ss.take j) + i)) ss[j] := by
  have hsplit : ss = ss.take j ++ ss[j] :: ss.drop (j + 1) := by
    rw [← List.drop_eq_getElem_cons hj, List.take_append_drop]
  rw [hsplit] at h
  exact (packed_append_iff.mp h).2.1

/-- One more string behind the others. -/
theorem Packed.snoc (h : Packed b ss) (hs : Spells (fun i => b (packedLen ss + i)) s) :
    Packed b (ss ++ [s]) :=
  packed_append_iff.mpr ⟨h, hs, trivial⟩

end Packed

/-! ## Parts of a string -/

/-- A string is one part or its first part, a separator and the others. -/
theorem splitOn_cases {α : Type} [BEq α] [LawfulBEq α] (sep : α) (s : List α) :
    s.splitOn sep = [s] ∧ sep ∉ s ∨
      ∃ p t, s = p ++ sep :: t ∧ sep ∉ p ∧ s.splitOn sep = p :: t.splitOn sep := by
  by_cases h : sep ∈ s
  · obtain ⟨p, t, rfl, hp⟩ := List.eq_append_cons_of_mem h
    exact Or.inr ⟨p, t, rfl, hp, List.splitOn_append_cons_self_of_not_mem hp t⟩
  · exact Or.inl ⟨List.splitOn_eq_singleton h, h⟩

end Foundations
end Xinu
