import Mathlib.Algebra.Ring.Nat
import Xinu.Foundations.NullTerminated

/-!
# Words in memory

Memory is a function from addresses to bytes.  A word takes four of them, the least
significant first.

Main results:

- Theorems `loadWord_storeWord` and `loadWord_congr`: what is read from memory is the last
  word stored there.
- Theorems `pushAll_word` and `pushAll_outside`: words pushed on a stack that grows
  towards lower addresses.
- Theorems `setVector_word` and `setVector_outside`: a loop that fills a vector.
-/

namespace Xinu
namespace Foundations

/-- The bytes of the word `w`. -/
def wordBytes (w : Nat) : Chars :=
  fun i => UInt8.ofNat (w / 256 ^ i)

/-- `*a = w` for an address `a` of words. -/
def storeWord (m : Chars) (a w : Nat) : Chars :=
  copyChars 4 (wordBytes w) a m

/-- `*a` for an address `a` of words. -/
def loadWord (m : Chars) (a : Nat) : Nat :=
  (m a).toNat + 256 * ((m (a + 1)).toNat + 256 * ((m (a + 2)).toNat + 256 * (m (a + 3)).toNat))

section Words

variable {m m' : Chars} {a b w n : Nat}

theorem storeWord_outside {x : Nat} (h : x < a ∨ a + 4 ≤ x) : storeWord m a w x = m x :=
  copyChars_outside h

theorem storeWord_byte (m : Chars) (a w : Nat) {i : Nat} (hi : i < 4) :
    (storeWord m a w (a + i)).toNat = w / 256 ^ i % 256 := by
  unfold storeWord
  rw [copyChars_inside hi]
  exact UInt8.toNat_ofNat'

/-- A word is read as it was stored. -/
theorem loadWord_storeWord (m : Chars) (hw : w < 0x100000000) : loadWord (storeWord m a w) a = w := by
  have h0 := storeWord_byte m a w (show 0 < 4 by decide)
  have h1 := storeWord_byte m a w (show 1 < 4 by decide)
  have h2 := storeWord_byte m a w (show 2 < 4 by decide)
  have h3 := storeWord_byte m a w (show 3 < 4 by decide)
  rw [Nat.add_zero] at h0
  unfold loadWord
  omega

/-- Only the four bytes of a word matter. -/
theorem loadWord_congr (h : ∀ x, a ≤ x → x < a + 4 → m' x = m x) : loadWord m' a = loadWord m a := by
  unfold loadWord
  rw [h a (Nat.le_refl _) (by omega), h (a + 1) (by omega) (by omega),
    h (a + 2) (by omega) (by omega), h (a + 3) (by omega) (by omega)]

theorem loadWord_storeWord_of_disjoint (h : b + 4 ≤ a ∨ a + 4 ≤ b) :
    loadWord (storeWord m a w) b = loadWord m b := by
  apply loadWord_congr
  intro x hlo hhi
  apply storeWord_outside
  omega

end Words

/-! ## A stack -/

/-- `*--sp = w`. -/
def push (st : Chars × Nat) (w : Nat) : Chars × Nat :=
  (storeWord st.1 (st.2 - 4) w, st.2 - 4)

def pushAll (st : Chars × Nat) (ws : List Nat) : Chars × Nat :=
  ws.foldl push st

section Stack

variable {m : Chars} {sp x : Nat} {ws : List Nat}

theorem pushAll_cons (m : Chars) (sp w : Nat) (ws : List Nat) :
    pushAll (m, sp) (w :: ws) = pushAll (storeWord m (sp - 4) w, sp - 4) ws :=
  rfl

/-- Where the stack pointer ends. -/
theorem pushAll_sp (m : Chars) (sp : Nat) (ws : List Nat) :
    (pushAll (m, sp) ws).2 = sp - 4 * ws.length := by
  induction ws generalizing m sp with
  | nil => rfl
  | cons w ws ih =>
      rw [pushAll_cons, ih, List.length_cons]
      omega

/-- Only the bytes below the old stack pointer are written. -/
theorem pushAll_outside (hroom : 4 * ws.length ≤ sp) (h : x < sp - 4 * ws.length ∨ sp ≤ x) :
    (pushAll (m, sp) ws).1 x = m x := by
  induction ws generalizing m sp with
  | nil => rfl
  | cons w ws ih =>
      rw [List.length_cons] at hroom h
      rw [pushAll_cons, ih (by omega) (by omega)]
      apply storeWord_outside
      omega

/-- The words lie on the stack in the order of their pushes, the last one lowest. -/
theorem pushAll_word (hroom : 4 * ws.length ≤ sp) {k : Nat} (hk : k < ws.length)
    (hw : ws[k] < 0x100000000) :
    loadWord (pushAll (m, sp) ws).1 (sp - 4 * (k + 1)) = ws[k] := by
  induction ws generalizing m sp k with
  | nil => exact absurd hk (Nat.not_lt_zero k)
  | cons w ws ih =>
      rw [List.length_cons] at hroom hk
      rw [pushAll_cons]
      cases k with
      | zero =>
          rw [loadWord_congr fun x hlo hhi => pushAll_outside (by omega) (by omega)]
          exact loadWord_storeWord m hw
      | succ k =>
          have hnext := @ih (storeWord m (sp - 4) w) (sp - 4) (by omega) k (by omega) hw
          rw [show sp - 4 - 4 * (k + 1) = sp - 4 * (k + 1 + 1) by omega] at hnext
          exact hnext

end Stack

/-! ## A vector -/

/-- The loop that stores `f i` in word `i` of a vector, for the `n` words from `a` on. -/
def setVector (a n : Nat) (f : Nat → Nat) : Chars → Chars :=
  forRange 0 n fun i m => storeWord m (a + 4 * i) (f i)

section Vector

variable {m : Chars} {a n i x : Nat} {f : Nat → Nat}

theorem setVector_word (hi : i < n) (hf : f i < 0x100000000) :
    loadWord (setVector a n f m) (a + 4 * i) = f i := by
  apply forRange_at (fun m : Chars => loadWord m (a + 4 * i)) (Nat.zero_le i) hi
  · exact fun m => loadWord_storeWord m hf
  · intro k m hk
    apply loadWord_storeWord_of_disjoint
    omega

theorem setVector_outside (h : x < a ∨ a + 4 * n ≤ x) : setVector a n f m x = m x := by
  apply forRange_same (fun m : Chars => m x)
  intro k m _ hk
  apply storeWord_outside
  omega

end Vector

end Foundations
end Xinu
