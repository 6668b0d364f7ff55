import Xinu.Foundations.CountedLoop
import Mathlib.Logic.Function.Basic

/-!
# Address spaces

Embedding of `initializeMMU` of `system/mmu.c`.  There is one page table for each process,
and an entry of it maps one megabyte.  The coprocessor calls at the end of the procedure do
not read or write the tables.

Main results:

- Theorems `initializeMMU_shared` and `initializeMMU_private`: the entries that the loops
  leave in the tables.
- Theorem `separate_iff`: how many processes the tables must be built for, so that no two
  private megabytes share a frame.
-/

namespace Xinu
namespace Memory

open Foundations Function

/-! ## The tables -/

def numPageTableEntries : Nat := 4096
def cacheDisabled : UInt32 := 0x12

/-- The megabytes between these two bounds are private; the others are shared. -/
def privateStart : Nat := 264
def privateEnd : Nat := 2064

/-- `page_table`: one row for each process. -/
abbrev PageTable := Nat → Nat → UInt32

/-- `i << 20 | (3 << 10) | CACHE_DISABLED` -/
def pageEntry (i : Nat) : UInt32 :=
  UInt32.ofNat i <<< 20 ||| (3 : UInt32) <<< 10 ||| cacheDisabled

/-- `page_table[k][j] = e` -/
def PageTable.store (pt : PageTable) (k j : Nat) (e : UInt32) : PageTable :=
  update pt k (update (pt k) j e)

/-- The entries `lo` to `hi - 1` of every process map the megabyte to itself. -/
def identityMap (nproc lo hi : Nat) : PageTable → PageTable :=
  forRange lo hi fun i => forRange 0 nproc fun j pt => pt.store j i (pageEntry i)

/-- The loop that gives a frame to the megabyte `j` of each process. -/
def privateFrames (nproc j : Nat) (pt : PageTable) : PageTable :=
  (forRange 2 nproc (fun k (r : Nat × PageTable) => (r.1 + 1, r.2.store k j (pageEntry r.1)))
    (privateStart, pt)).2

/-- The number of private megabytes of one process. -/
def privateSize (nproc : Nat) : Nat :=
  (privateEnd - privateStart) / nproc

def initializeMMU (nproc : Nat) (pt : PageTable) : PageTable :=
  let pt := identityMap nproc 0 privateStart pt
  let pt := forRange privateStart (privateStart + privateSize nproc) (privateFrames nproc) pt
  identityMap nproc privateEnd numPageTableEntries pt

/-! ## What the loops leave in an entry -/

theorem store_self (pt : PageTable) (k j : Nat) (e : UInt32) : pt.store k j e k j = e := by
  unfold PageTable.store
  rw [update_self, update_self]

theorem store_ne (pt : PageTable) {k j k' j' : Nat} (e : UInt32) (h : k' ≠ k ∨ j' ≠ j) :
    pt.store k j e k' j' = pt k' j' := by
  unfold PageTable.store
  by_cases hk : k' = k
  · subst hk
    rw [update_self, update_of_ne (h.resolve_left (not_not_intro rfl))]
  · rw [update_of_ne hk]

/-- One turn of the identity map writes the entry `i` of every process. -/
theorem identityRow_self {nproc i k : Nat} (hk : k < nproc) (pt : PageTable) :
    forRange 0 nproc (fun j pt => PageTable.store pt j i (pageEntry i)) pt k i = pageEntry i := by
  apply forRange_at (fun pt : PageTable => pt k i) (Nat.zero_le k) hk
  · intro pt
    exact store_self pt k i _
  · intro j pt hj
    exact store_ne pt _ (Or.inl hj.symm)

theorem identityRow_ne {nproc i k x : Nat} (hx : x ≠ i) (pt : PageTable) :
    forRange 0 nproc (fun j pt => PageTable.store pt j i (pageEntry i)) pt k x = pt k x := by
  apply forRange_same (fun pt : PageTable => pt k x)
  intro j pt _ _
  exact store_ne pt _ (Or.inr hx)

theorem identityMap_self {nproc lo hi k x : Nat} (hk : k < nproc) (hlo : lo ≤ x) (hhi : x < hi)
    (pt : PageTable) : identityMap nproc lo hi pt k x = pageEntry x := by
  apply forRange_at (fun pt : PageTable => pt k x) hlo hhi
  · intro pt
    exact identityRow_self hk pt
  · intro i pt hi
    exact identityRow_ne hi.symm pt

theorem identityMap_ne {nproc lo hi k x : Nat} (hx : x < lo ∨ hi ≤ x) (pt : PageTable) :
    identityMap nproc lo hi pt k x = pt k x := by
  apply forRange_same (fun pt : PageTable => pt k x)
  intro i pt hlo hhi
  exact identityRow_ne (by omega) pt

/-- The counter of the frames after the loop has given one to each process before `k`. -/
theorem privateFrames_self {nproc j k : Nat} (hlo : 2 ≤ k) (hk : k < nproc) (pt : PageTable) :
    privateFrames nproc j pt k j = pageEntry (privateStart + (k - 2)) := by
  have hinv : ∀ r, forRange 2 nproc (fun k (r : Nat × PageTable) =>
      (r.1 + 1, r.2.store k j (pageEntry r.1))) (privateStart, pt) = r →
      r.1 = privateStart + (nproc - 2) ∧
        (k < nproc → r.2 k j = pageEntry (privateStart + (k - 2))) := by
    rintro _ rfl
    apply forRange_inv (I := fun i (r : Nat × PageTable) =>
      r.1 = privateStart + (i - 2) ∧ (k < i → r.2 k j = pageEntry (privateStart + (k - 2))))
      (by omega) ⟨rfl, fun h => by omega⟩
    intro i r hlo' _ ih
    constructor
    · show r.1 + 1 = _
      omega
    · intro hki
      by_cases heq : k = i
      · subst heq
        show r.2.store k j (pageEntry r.1) k j = _
        rw [store_self, ih.1]
      · show r.2.store i j (pageEntry r.1) k j = _
        rw [store_ne _ _ (Or.inl heq)]
        exact ih.2 (by omega)
  exact (hinv _ rfl).2 hk

theorem privateFrames_ne {nproc j k x : Nat} (hx : x ≠ j) (pt : PageTable) :
    privateFrames nproc j pt k x = pt k x := by
  apply forRange_same (fun r : Nat × PageTable => r.2 k x)
  intro i r _ _
  exact store_ne r.2 _ (Or.inr hx)

variable {nproc k j : Nat}

/-- The private megabytes end where the shared ones begin. -/
theorem privateSize_le (nproc : Nat) : privateStart + privateSize nproc ≤ privateEnd := by
  have hdiv : privateSize nproc ≤ 1800 := Nat.div_le_self 1800 nproc
  unfold privateStart privateEnd
  omega

/-- Every process maps the shared megabytes to themselves. -/
theorem initializeMMU_shared (hk : k < nproc)
    (hj : j < privateStart ∨ privateEnd ≤ j ∧ j < numPageTableEntries) (pt : PageTable) :
    initializeMMU nproc pt k j = pageEntry j := by
  have hsize := privateSize_le nproc
  have hstart : privateStart ≤ privateEnd := by decide
  unfold initializeMMU
  rcases hj with hlow | ⟨hhigh, hend⟩
  · rw [identityMap_ne (Or.inl (by omega))]
    rw [forRange_same (fun pt : PageTable => pt k j) fun i pt hi _ =>
      privateFrames_ne (by omega) pt]
    exact identityMap_self hk (Nat.zero_le j) hlow pt
  · exact identityMap_self hk hhigh hend _

/-- The frame of a private megabyte depends on the process alone. -/
theorem initializeMMU_private (hlo : 2 ≤ k) (hk : k < nproc) (hj : privateStart ≤ j)
    (hj' : j < privateStart + privateSize nproc) (pt : PageTable) :
    initializeMMU nproc pt k j = pageEntry (privateStart + (k - 2)) := by
  have hsize := privateSize_le nproc
  unfold initializeMMU
  rw [identityMap_ne (Or.inl (by omega))]
  apply forRange_at (fun pt : PageTable => pt k j) hj hj'
  · exact fun pt => privateFrames_self hlo hk pt
  · exact fun i pt hi => privateFrames_ne hi.symm pt

/-! ## Frames -/

/-- The physical megabyte to which an entry refers. -/
def frameOf (e : UInt32) : Nat :=
  (e >>> 20).toNat

/-- An entry keeps the number of its frame above the access bits. -/
theorem frameOf_pageEntry {i : Nat} (h : i < numPageTableEntries) : frameOf (pageEntry i) = i := by
  have hi : i < 0x1000 := h
  have hword : i % 0x100000000 = i := Nat.mod_eq_of_lt (by omega)
  have hshift : i <<< 20 % 0x100000000 = i <<< 20 := by
    apply Nat.mod_eq_of_lt
    rw [Nat.shiftLeft_eq]
    omega
  have haccess : (3 : UInt32) <<< 10 ||| cacheDisabled = 0xC12 := by decide
  unfold frameOf pageEntry
  rw [UInt32.or_assoc, haccess]
  simp only [UInt32.toNat_shiftRight, UInt32.toNat_or, UInt32.toNat_shiftLeft,
    UInt32.toNat_ofNat', UInt32.reduceToNat, Nat.reducePow, Nat.reduceMod, hword, hshift]
  rw [Nat.shiftRight_or_distrib, Nat.shiftLeft_shiftRight]
  exact Nat.or_zero i

/-- The private megabyte `j` of process `k`; the first two processes have none. -/
def PrivatePage (nproc k j : Nat) : Prop :=
  2 ≤ k ∧ k < nproc ∧ privateStart ≤ j ∧ j < privateStart + privateSize nproc

/-- Private megabytes have frames outside the shared regions, and no two have the same. -/
def Separate (nproc : Nat) (pt : PageTable) : Prop :=
  (∀ k j, PrivatePage nproc k j →
    privateStart ≤ frameOf (pt k j) ∧ frameOf (pt k j) < privateEnd) ∧
  ∀ k j k' j', PrivatePage nproc k j → PrivatePage nproc k' j' → (k, j) ≠ (k', j') →
    frameOf (pt k j) ≠ frameOf (pt k' j')

theorem frameOf_initializeMMU (hn : nproc ≤ 1800) (h : PrivatePage nproc k j) (pt : PageTable) :
    frameOf (initializeMMU nproc pt k j) = privateStart + (k - 2) := by
  obtain ⟨hlo, hk, hj, hj'⟩ := h
  rw [initializeMMU_private hlo hk hj hj' pt]
  apply frameOf_pageEntry
  unfold privateStart numPageTableEntries
  omega

/-- The frames of the private megabytes are private themselves. -/
theorem frameOf_private (hn : nproc ≤ 1800) (h : PrivatePage nproc k j) (pt : PageTable) :
    privateStart ≤ frameOf (initializeMMU nproc pt k j) ∧
      frameOf (initializeMMU nproc pt k j) < privateEnd := by
  have hk : k < nproc := h.2.1
  rw [frameOf_initializeMMU hn h]
  unfold privateStart privateEnd
  omega

/-- Processes with more than one private megabyte have the same frame for all of them. -/
theorem not_separate (hlo : 3 ≤ nproc) (hhi : nproc ≤ 900) (pt : PageTable) :
    ¬ Separate nproc (initializeMMU nproc pt) := by
  have hsize : 2 ≤ privateSize nproc := (Nat.le_div_iff_mul_le (by omega)).mpr (by
    unfold privateEnd privateStart
    omega)
  have hfirst : PrivatePage nproc 2 privateStart := ⟨by omega, by omega, by omega, by omega⟩
  have hsecond : PrivatePage nproc 2 (privateStart + 1) := ⟨by omega, by omega, by omega, by omega⟩
  intro h
  apply h.2 2 privateStart 2 (privateStart + 1) hfirst hsecond
  · intro heq
    cases heq
  · rw [frameOf_initializeMMU (by omega) hfirst, frameOf_initializeMMU (by omega) hsecond]

/-- With one private megabyte each, the processes have different frames. -/
theorem separate_of_lt (hlo : 900 < nproc) (hhi : nproc ≤ 1800) (pt : PageTable) :
    Separate nproc (initializeMMU nproc pt) := by
  have hsize : privateSize nproc < 2 := (Nat.div_lt_iff_lt_mul (by omega)).mpr (by
    unfold privateEnd privateStart
    omega)
  constructor
  · intro k j h
    exact frameOf_private hhi h pt
  · intro k j k' j' h h' hne heq
    rw [frameOf_initializeMMU hhi h, frameOf_initializeMMU hhi h'] at heq
    obtain ⟨hk, -, hj, hj₁⟩ := h
    obtain ⟨hk', -, hj', hj₁'⟩ := h'
    have hkk : k = k' := by omega
    have hjj : j = j' := by omega
    exact hne (by rw [hkk, hjj])

/-- The tables keep the processes apart if and only if a process has but one private
megabyte. -/
theorem separate_iff (nproc : Nat) (pt : PageTable) (hlo : 3 ≤ nproc) (hhi : nproc ≤ 1800) :
    Separate nproc (initializeMMU nproc pt) ↔ 900 < nproc := by
  constructor
  · intro h
    by_contra hle
    exact not_separate hlo (by omega) pt h
  · intro hlt
    exact separate_of_lt hlt hhi pt

theorem separate_iff_1000 :
    Separate 1000 (initializeMMU 1000 fun _ _ => 0) ↔ 900 < 1000 :=
  separate_iff 1000 (fun _ _ => 0) (by decide) (by decide)

/-- As the kernel is configured, private megabytes of one process have one frame. -/
theorem aliased_100 : ¬ Separate 100 (initializeMMU 100 fun _ _ => 0) :=
  not_separate (by decide) (by decide) _

end Memory
end Xinu
