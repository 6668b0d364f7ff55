import Mathlib.Algebra.Ring.Nat
import Mathlib.Algebra.BigOperators.Group.List.Basic

/-!
# One's-complement sums

The sum of 16-bit words in one's complement adds each carry at the other end.  A program may
add the words in a wider register instead, and add the carries afterwards; one addition need
not be enough.

Main results:

- Theorem `onesSum_mod`: the sum, up to the two zeros.
- Theorem `foldedChecksum_iff`: when one addition of the carries is enough.
-/

namespace Xinu
namespace Foundations

/-! ## Words -/

/-- Add two words, and a carry at the other end. -/
def carryAdd (a b : UInt16) : UInt16 :=
  if a.toNat + b.toNat < 65536 then a + b else a + b + 1

/-- The one's-complement sum. -/
def onesSum (ws : List UInt16) : UInt16 :=
  ws.foldl carryAdd 0

/-- The Internet checksum: the one's complement of the one's-complement sum. -/
def onesChecksum (ws : List UInt16) : UInt16 :=
  ~~~ onesSum ws

/-- The sum of the words. -/
def wordSum (ws : List UInt16) : Nat :=
  (ws.map UInt16.toNat).sum

/-- The word with the bytes `a` and `b`, the high one first. -/
def netWord (a b : UInt8) : UInt16 :=
  UInt16.ofNat (a.toNat * 256 + b.toNat)

/-- The words of a buffer; an odd byte at the end is the high one of a word. -/
def networkWords : List UInt8 → List UInt16
  | [] => []
  | [a] => [netWord a 0]
  | a :: b :: bytes => netWord a b :: networkWords bytes

/-- A word that stands for zero. -/
def IsZero (a : UInt16) : Prop :=
  a = 0 ∨ a = 0xFFFF

instance (a : UInt16) : Decidable (IsZero a) :=
  inferInstanceAs (Decidable (_ ∨ _))

/-- The words are equal up to the identification of the two zeros. -/
def SameOnes (a b : UInt16) : Prop :=
  a = b ∨ IsZero a ∧ IsZero b

instance (a b : UInt16) : Decidable (SameOnes a b) :=
  inferInstanceAs (Decidable (_ ∨ _))

section Words

variable {a b : UInt16}

theorem isZero_iff : IsZero a ↔ a.toNat % 65535 = 0 := by
  have hlt := a.toNat_lt
  unfold IsZero
  rw [← UInt16.toNat_inj, ← UInt16.toNat_inj]
  show a.toNat = 0 ∨ a.toNat = 65535 ↔ _
  omega

theorem sameOnes_iff : SameOnes a b ↔ a.toNat % 65535 = b.toNat % 65535 := by
  have ha := a.toNat_lt
  have hb := b.toNat_lt
  unfold SameOnes
  rw [isZero_iff, isZero_iff, ← UInt16.toNat_inj]
  omega

theorem toNat_not (a : UInt16) : (~~~a).toNat = 65535 - a.toNat :=
  UInt16.toNat_not a

theorem carryAdd_mod (a b : UInt16) :
    (carryAdd a b).toNat % 65535 = (a.toNat + b.toNat) % 65535 := by
  have ha := a.toNat_lt
  have hb := b.toNat_lt
  unfold carryAdd
  split
  · rw [UInt16.toNat_add]
    omega
  · rw [UInt16.toNat_add, UInt16.toNat_add]
    show ((a.toNat + b.toNat) % 65536 + 1) % 65536 % 65535 = _
    omega

theorem wordSum_nil : wordSum [] = 0 :=
  rfl

theorem wordSum_cons (w : UInt16) (ws : List UInt16) : wordSum (w :: ws) = w.toNat + wordSum ws :=
  List.sum_cons

theorem onesSum_mod (ws : List UInt16) : (onesSum ws).toNat % 65535 = wordSum ws % 65535 := by
  have hfold : ∀ a : UInt16, (ws.foldl carryAdd a).toNat % 65535 =
      (a.toNat + wordSum ws) % 65535 := by
    induction ws with
    | nil => exact fun a => rfl
    | cons w ws ih =>
        intro a
        have hw := carryAdd_mod a w
        rw [List.foldl_cons, ih, wordSum_cons]
        omega
  have hzero := hfold 0
  rwa [UInt16.toNat_zero, Nat.zero_add] at hzero

theorem netWord_toNat (a b : UInt8) : (netWord a b).toNat = a.toNat * 256 + b.toNat := by
  have ha := a.toNat_lt
  have hb := b.toNat_lt
  unfold netWord
  rw [UInt16.toNat_ofNat', Nat.mod_eq_of_lt (by omega)]

/-- The words of the first `n` bytes. -/
theorem networkWords_range (f : Nat → UInt8) (n : Nat) :
    networkWords ((List.range n).map f) =
      (List.range (n / 2)).map (fun k => netWord (f (2 * k)) (f (2 * k + 1))) ++
        if n % 2 ≠ 0 then [netWord (f (2 * (n / 2))) 0] else [] := by
  induction n using Nat.twoStepInduction generalizing f with
  | zero => rfl
  | one => rfl
  | more n ih _ =>
      have hdiv : (n + 2) / 2 = n / 2 + 1 := by omega
      have hmod : (n + 2) % 2 = n % 2 := by omega
      have hnext := ih fun i => f (i + 2)
      have hrange : (List.range (n + 2)).map f =
          f 0 :: f 1 :: (List.range n).map fun i => f (i + 2) := by
        rw [List.range_succ_eq_map, List.range_succ_eq_map]
        simp [Function.comp_def]
      rw [hrange, networkWords, hnext, hdiv, hmod, List.range_succ_eq_map]
      simp [Function.comp_def, Nat.mul_add, Nat.add_right_comm]

theorem length_networkWords_range (f : Nat → UInt8) (n : Nat) :
    (networkWords ((List.range n).map f)).length ≤ n / 2 + 1 := by
  rw [networkWords_range, List.length_append, List.length_map, List.length_range]
  split
  · exact Nat.le_refl _
  · exact Nat.le_succ _

theorem wordSum_append (ws ws' : List UInt16) : wordSum (ws ++ ws') = wordSum ws + wordSum ws' := by
  unfold wordSum
  rw [List.map_append, List.sum_append]

theorem wordSum_le (ws : List UInt16) : wordSum ws ≤ 65535 * ws.length := by
  induction ws with
  | nil => exact Nat.le_refl 0
  | cons w ws ih =>
      have hw := w.toNat_lt
      rw [wordSum_cons, List.length_cons]
      omega

end Words

/-! ## A wider register -/

/-- The low half of `s`, to which its high half has been added once. -/
def foldOnce (s : Nat) : Nat :=
  (s + s / 65536) % 65536

/-- One addition of the carries gives no further one. -/
def CarriesOnce (s : Nat) : Prop :=
  s % 65536 + s / 65536 < 65536

instance (s : Nat) : Decidable (CarriesOnce s) :=
  inferInstanceAs (Decidable (_ < _))

section Register

variable {s : Nat}

theorem foldOnce_lt (s : Nat) : foldOnce s < 65536 :=
  Nat.mod_lt _ (by decide)

theorem foldOnce_of_lt (hs : s < 65536) : foldOnce s = s := by
  unfold foldOnce
  rw [Nat.div_eq_of_lt hs, Nat.add_zero, Nat.mod_eq_of_lt hs]

/-- A short sum in a register of 32 bits. -/
theorem foldOnce_short (hs : s < 65536) : foldOnce (s % 0x100000000) = s := by
  rw [Nat.mod_eq_of_lt (by omega), foldOnce_of_lt hs]

theorem CarriesOnce.foldOnce_eq (h : CarriesOnce s) : foldOnce s = s % 65536 + s / 65536 := by
  unfold CarriesOnce at h
  unfold foldOnce
  omega

/-- A second carry is lost. -/
theorem foldOnce_of_not (hs : s < 0x100000000) (h : ¬ CarriesOnce s) :
    foldOnce s + 65536 = s % 65536 + s / 65536 := by
  unfold CarriesOnce at h
  unfold foldOnce
  omega

theorem foldOnce_eq_of_parts {low high : Nat} (hlow : low < 65536) :
    foldOnce (high * 65536 + low) = (low + high) % 65536 := by
  have hdiv : (high * 65536 + low) / 65536 = high := by omega
  unfold foldOnce
  rw [hdiv]
  omega

/-- The complement is added to the sum: the word of ones is left. -/
theorem CarriesOnce.filled (h : CarriesOnce s) : foldOnce (s + (65535 - foldOnce s)) = 65535 := by
  have hfold := h.foldOnce_eq
  have hparts : s + (65535 - foldOnce s) = s / 65536 * 65536 + (65535 - s / 65536) := by
    unfold CarriesOnce at h
    omega
  rw [hparts, foldOnce_eq_of_parts (by omega)]
  unfold CarriesOnce at h
  omega

/-- If a carry was lost, nothing is left. -/
theorem filled_of_not (hs : s < 0xFFFF0000) (h : ¬ CarriesOnce s) :
    foldOnce (s + (65535 - foldOnce s)) = 0 := by
  have hfold := foldOnce_of_not (by omega) h
  have hparts : s + (65535 - foldOnce s) = (s / 65536 + 1) * 65536 + (65535 - s / 65536) := by
    omega
  rw [hparts, foldOnce_eq_of_parts (by omega)]
  omega

/-- The checksum of words that were added in a register of 32 bits: if it is not too many of
them, it is right if and only if one addition of the carries is enough. -/
theorem foldedChecksum_iff {ws : List UInt16} {c : UInt16} (hlen : ws.length ≤ 0x40000000)
    (hc : c.toNat % 65535 = (65535 - foldOnce (wordSum ws % 0x100000000)) % 65535) :
    SameOnes c (onesChecksum ws) ↔ CarriesOnce (wordSum ws) := by
  have hle := wordSum_le ws
  have hmod := onesSum_mod ws
  have hlt := (onesSum ws).toNat_lt
  have hfold := foldOnce_lt (wordSum ws % 0x100000000)
  unfold onesChecksum
  rw [sameOnes_iff, toNat_not, hc]
  generalize wordSum ws = s at hle hmod hfold
  by_cases hs : s < 0x100000000
  · rw [Nat.mod_eq_of_lt hs] at hfold ⊢
    by_cases honce : CarriesOnce s
    · have heq := honce.foldOnce_eq
      simp only [honce, iff_true]
      omega
    · have heq := foldOnce_of_not hs honce
      simp only [honce, iff_false]
      omega
  · have hnot : ¬ CarriesOnce s := by
      unfold CarriesOnce
      omega
    simp only [hnot, iff_false]
    generalize hlow : s % 0x100000000 = low at hfold
    by_cases honce : CarriesOnce low
    · have heq := honce.foldOnce_eq
      omega
    · have heq := foldOnce_of_not (s := low) (by omega) honce
      omega

end Register

end Foundations
end Xinu
