import Xinu.FileSystem.Directory

/-!
# The bitmap of the blocks

There is a bit for each block of the device; the lowest-numbered block of a byte is indicated
in the high-order bit.  The bitmap stands for the set of the blocks that are used.

Main results:

- Theorems `maskSet_set` and `maskSet_clear`: what one call does to the set.
- Theorem `mask_marked`: after every sequence of calls the set consists of the blocks that were
  marked and not cleared later.
-/

namespace Xinu
namespace FileSystem

open Foundations Function

/-! ## Bits of a byte -/

/-- Bit `i` of a byte, the high-order bit first. -/
def highBit (x : UInt8) (i : Nat) : Bool :=
  x.toBitVec.getLsbD (7 - i)

section Bits

variable {i j : Nat}

theorem highBit_or (x y : UInt8) (i : Nat) :
    highBit (x ||| y) i = (highBit x i || highBit y i) := by
  unfold highBit
  rw [UInt8.toBitVec_or, BitVec.getLsbD_or]

theorem highBit_and_not (x y : UInt8) (i : Nat) :
    highBit (x &&& ~~~y) i = (highBit x i && !highBit y i) := by
  have hlt : 7 - i < 8 := by omega
  unfold highBit
  rw [UInt8.toBitVec_and, UInt8.toBitVec_not, BitVec.getLsbD_and, BitVec.getLsbD_not]
  simp [hlt]

/-- `0x80 >> j` has one bit. -/
theorem highBit_mask (hi : i < 8) (hj : j < 8) :
    highBit (0x80 >>> UInt8.ofNat j) i = decide (i = j) := by
  have hall : ∀ i j : Fin 8, highBit (0x80 >>> UInt8.ofNat j) i = decide (i.1 = j.1) := by
    decide
  exact hall ⟨i, hi⟩ ⟨j, hj⟩

theorem highBit_shiftLeft (x : UInt8) (hi : i < 8) :
    highBit (x <<< UInt8.ofNat i) 0 = highBit x i := by
  have height : (8 : BitVec 8).toNat = 8 := rfl
  have hmod : ((UInt8.ofNat i).toBitVec % 8).toNat = i := by
    rw [BitVec.toNat_umod, UInt8.toNat_toBitVec, UInt8.toNat_ofNat', height]
    omega
  have hge : ¬ 7 < i := by omega
  unfold highBit
  rw [UInt8.toBitVec_shiftLeft, BitVec.shiftLeft_eq', BitVec.getLsbD_shiftLeft, hmod]
  simp [hge]

/-- The high-order bit, moved to the other end. -/
theorem high_order (x : UInt8) : (x &&& 0x80) >>> 7 = if highBit x 0 then 1 else 0 := by
  have hone : (0x80 : UInt8).toBitVec = BitVec.twoPow 8 7 := rfl
  have hbit : x &&& 0x80 = if highBit x 0 then 0x80 else 0 := by
    rw [← UInt8.toBitVec_inj, UInt8.toBitVec_and, hone, BitVec.and_twoPow]
    unfold highBit
    split
    · rfl
    · rfl
  rw [hbit]
  split
  · rfl
  · rfl

end Bits

/-! ## The set of the marked blocks -/

section MaskSet

variable {s : Fs} {b c : Nat}

/-- Bit `b` of the bitmap. -/
def Fs.maskBit (s : Fs) (b : Nat) : Bool :=
  highBit (s.mask (b / 8)) (b % 8)

/-- The blocks that are marked as used. -/
def maskSet (s : Fs) : Set Nat :=
  {b | fsGetmaskbit b s = 1}

/-- The answer is 0 or 1. -/
theorem fsGetmaskbit_eq (b : Nat) (s : Fs) :
    fsGetmaskbit b s = if s.maskBit b then 1 else 0 := by
  unfold fsGetmaskbit Fs.maskBit
  rw [high_order, highBit_shiftLeft _ (Nat.mod_lt _ (by decide))]

theorem mem_maskSet : b ∈ maskSet s ↔ s.maskBit b = true := by
  unfold maskSet
  rw [Set.mem_ofPred_eq, fsGetmaskbit_eq]
  cases s.maskBit b with
  | true => simp
  | false => simp

theorem fsGetmaskbit_of_not_mem (h : b ∉ maskSet s) : fsGetmaskbit b s = 0 := by
  rw [mem_maskSet] at h
  rw [fsGetmaskbit_eq, if_neg h]

/-- The block is determined by its byte and its bit. -/
theorem block_eq_iff (b c : Nat) : b = c ↔ b / 8 = c / 8 ∧ b % 8 = c % 8 := by
  omega

theorem maskBit_set (b c : Nat) (s : Fs) :
    (fsSetmaskbit c s).maskBit b = (decide (b = c) || s.maskBit b) := by
  have hb := Nat.mod_lt b (show 0 < 8 by decide)
  have hc := Nat.mod_lt c (show 0 < 8 by decide)
  unfold fsSetmaskbit Fs.maskBit
  by_cases hbyte : b / 8 = c / 8
  · simp [hbyte, highBit_or, highBit_mask hb hc, block_eq_iff b c, Bool.or_comm]
  · simp [block_eq_iff b c, hbyte]

theorem maskBit_clear (b c : Nat) (s : Fs) :
    (fsClearmaskbit c s).maskBit b = (!decide (b = c) && s.maskBit b) := by
  have hb := Nat.mod_lt b (show 0 < 8 by decide)
  have hc := Nat.mod_lt c (show 0 < 8 by decide)
  unfold fsClearmaskbit Fs.maskBit
  by_cases hbyte : b / 8 = c / 8
  · simp [hbyte, highBit_and_not, highBit_mask hb hc, block_eq_iff b c, Bool.and_comm]
  · simp [block_eq_iff b c, hbyte]

theorem maskSet_set (c : Nat) (s : Fs) : maskSet (fsSetmaskbit c s) = insert c (maskSet s) := by
  ext b
  rw [Set.mem_insert_iff, mem_maskSet, mem_maskSet, maskBit_set, Bool.or_eq_true,
    decide_eq_true_iff]

theorem maskSet_clear (c : Nat) (s : Fs) : maskSet (fsClearmaskbit c s) = maskSet s \ {c} := by
  ext b
  rw [Set.mem_sdiff, Set.mem_singleton_iff, mem_maskSet, mem_maskSet, maskBit_clear,
    Bool.and_eq_true, Bool.not_eq_true', decide_eq_false_iff_not, and_comm]

theorem maskSet_congr {s' : Fs} (h : s'.mask = s.mask) : maskSet s' = maskSet s := by
  ext b
  rw [mem_maskSet, mem_maskSet]
  unfold Fs.maskBit
  rw [h]

end MaskSet

/-! ## Calls -/

/-- A call that changes the bitmap. -/
inductive MaskCall
  | setmaskbit (b : Nat)
  | clearmaskbit (b : Nat)
deriving DecidableEq

def MaskCall.block : MaskCall → Nat
  | .setmaskbit b | .clearmaskbit b => b

def MaskCall.exec : MaskCall → Fs → Int × Fs
  | .setmaskbit b, s => (ok, fsSetmaskbit b s)
  | .clearmaskbit b, s => (ok, fsClearmaskbit b s)

/-- The bitmap has a bit for the block. -/
def Fsystem.InMask (f : Fsystem) (b : Nat) : Prop :=
  (b : Int) < 8 * f.freemaskbytes

instance (f : Fsystem) (b : Nat) : Decidable (f.InMask b) :=
  inferInstanceAs (Decidable (_ < _))

/-- Block `b` was marked and not cleared later. -/
def Marked (b : Nat) (calls : List MaskCall) : Prop :=
  ∃ before after, calls = before ++ .setmaskbit b :: after ∧ .clearmaskbit b ∉ after

section Marked

variable {b : Nat} {c : MaskCall} {calls : List MaskCall}

/-- The call clears another block, or none. -/
theorem Marked.snoc (h : Marked b calls) (hc : c ≠ .clearmaskbit b) : Marked b (calls ++ [c]) := by
  obtain ⟨before, after, rfl, hnot⟩ := h
  refine ⟨before, after ++ [c], by simp, ?_⟩
  rw [List.mem_append, List.mem_singleton, not_or]
  exact ⟨hnot, hc.symm⟩

theorem marked_set (b : Nat) (calls : List MaskCall) : Marked b (calls ++ [.setmaskbit b]) :=
  ⟨calls, [], rfl, List.not_mem_nil⟩

/-- The last call is the one that marks the block, or one after it. -/
theorem Marked.of_snoc (h : Marked b (calls ++ [c])) :
    c = .setmaskbit b ∨ c ≠ .clearmaskbit b ∧ Marked b calls := by
  obtain ⟨before, after, heq, hnot⟩ := h
  rcases List.eq_nil_or_concat after with rfl | ⟨init, x, rfl⟩
  · left
    exact (List.append_inj' heq rfl).2 |> List.singleton_inj.mp
  · right
    have hsplit : calls ++ [c] = (before ++ .setmaskbit b :: init) ++ [x] := by simpa using heq
    obtain ⟨hinit, hlast⟩ := List.append_inj' hsplit rfl
    obtain rfl := List.singleton_inj.mp hlast
    rw [List.concat_eq_append, List.mem_append, List.mem_singleton, not_or] at hnot
    exact ⟨fun hclear => hnot.2 hclear.symm, before, init, hinit, hnot.1⟩

end Marked

/-- The calls that `fs_mkfs` makes. -/
def mkfsCalls : List MaskCall :=
  [.setmaskbit 0, .setmaskbit 1]

/-- The blocks of the bitmap that are marked are those that were marked and not cleared. -/
structure MaskInv (f : Fsystem) (calls : List MaskCall) (s : Fs) : Prop where
  fsd : s.fsd = f
  set : ∀ b, f.InMask b → (b ∈ maskSet s ↔ Marked b calls)

section Runs

variable {f : Fsystem} {s₀ s : Fs} {calls : List MaskCall} {dev numInodes : Int}
variable {memory : Option (Int × (Nat → UInt8))}

theorem MaskInv.call (h : MaskInv f calls s) (c : MaskCall) :
    MaskInv f (calls ++ [c]) (c.exec s).2 := by
  cases c with
  | setmaskbit a =>
      refine ⟨h.fsd, ?_⟩
      intro b hb
      show b ∈ maskSet (fsSetmaskbit a s) ↔ _
      rw [maskSet_set, Set.mem_insert_iff, h.set b hb]
      constructor
      · rintro (rfl | hmarked)
        · exact marked_set b calls
        · exact hmarked.snoc nofun
      · intro hmarked
        rcases hmarked.of_snoc with heq | ⟨-, hmarked⟩
        · left
          cases heq
          rfl
        · exact Or.inr hmarked
  | clearmaskbit a =>
      refine ⟨h.fsd, ?_⟩
      intro b hb
      show b ∈ maskSet (fsClearmaskbit a s) ↔ _
      rw [maskSet_clear, Set.mem_sdiff, Set.mem_singleton_iff, h.set b hb]
      constructor
      · rintro ⟨hmarked, hne⟩
        apply hmarked.snoc
        intro heq
        cases heq
        exact hne rfl
      · intro hmarked
        rcases hmarked.of_snoc with heq | ⟨hne, hmarked⟩
        · contradiction
        · refine ⟨hmarked, ?_⟩
          rintro rfl
          exact hne rfl

theorem MaskInv.congr {s' : Fs} (h : MaskInv f calls s) (hfsd : s'.fsd = s.fsd)
    (hmask : s'.mask = s.mask) : MaskInv f calls s' := by
  refine ⟨hfsd.trans h.fsd, ?_⟩
  rw [maskSet_congr hmask]
  exact h.set

/-- A bitmap of zeros. -/
theorem MaskInv.empty (h : ∀ i : Nat, (i : Int) < s.fsd.freemaskbytes → s.mask i = 0) :
    MaskInv s.fsd [] s := by
  refine ⟨rfl, ?_⟩
  intro b hb
  have hbyte : s.mask (b / 8) = 0 := by
    unfold Fsystem.InMask at hb
    exact h (b / 8) (by omega)
  have hnot : ¬ Marked b [] := by
    rintro ⟨before, after, heq, -⟩
    simp at heq
  rw [mem_maskSet]
  unfold Fs.maskBit
  rw [hbyte]
  simp [highBit, hnot]

/-- The new bitmap has the marks of the two blocks that `fs_mkfs` writes. -/
theorem fsMkfs_mask (h : fsMkfs dev numInodes memory s₀ = (1, s)) : MaskInv s.fsd mkfsCalls s := by
  obtain ⟨m, -, rfl⟩ := fsMkfs_some h
  let zero : Fs := { s₀ with
    fsd := { s₀.fsd with
      nblocks := s₀.store.numblocks
      blocksz := s₀.store.blocksize
      ninodes := if numInodes < 1 then defaultNumInodes else numInodes
      freemaskbytes := (s₀.store.numblocks + 7) / 8
      freemask := m.1
      inodesUsed := 0 }
    mask := fun i => if (i : Int) < (s₀.store.numblocks + 7) / 8 then 0 else m.2 i }
  have hzero : MaskInv zero.fsd [] zero := .empty fun i hi => if_pos hi
  exact ((hzero.call (.setmaskbit 0)).call (.setmaskbit 1)).congr rfl rfl

/--
After `fs_mkfs` and every sequence of calls, the answer for a block is 1 if the block was marked
and not cleared later, and 0 otherwise; and no call changes the answer for another block.
-/
theorem mask_marked {tr : List (MaskCall × Int)} {b : Nat}
    (hmkfs : fsMkfs dev numInodes memory s₀ = (1, s))
    {s' : Fs} (hcalls : Calls MaskCall.exec (fun s c => s.fsd.InMask c.block) s tr s')
    (hb : s.fsd.InMask b) :
    (Marked b (mkfsCalls ++ tr.map Prod.fst) → fsGetmaskbit b s' = 1) ∧
      (¬ Marked b (mkfsCalls ++ tr.map Prod.fst) → fsGetmaskbit b s' = 0) ∧
        ∀ c : MaskCall, c.block ≠ b → fsGetmaskbit b (c.exec s').2 = fsGetmaskbit b s' := by
  have hinv : MaskInv s.fsd (mkfsCalls ++ tr.map Prod.fst) s' := by
    apply hcalls.invariant (P := fun tr s' => MaskInv s.fsd (mkfsCalls ++ tr.map Prod.fst) s')
    · exact fsMkfs_mask hmkfs
    · intro tr s' c h _
      rw [List.map_append, ← List.append_assoc]
      exact h.call c
  refine ⟨(hinv.set b hb).mpr, ?_, ?_⟩
  · intro hnot
    exact fsGetmaskbit_of_not_mem (mt (hinv.set b hb).mp hnot)
  · intro c hc
    rw [fsGetmaskbit_eq, fsGetmaskbit_eq]
    cases c with
    | setmaskbit a =>
        have hne : b ≠ a := fun h => hc h.symm
        show (if (fsSetmaskbit a s').maskBit b then 1 else 0) = _
        rw [maskBit_set, decide_eq_false hne, Bool.false_or]
    | clearmaskbit a =>
        have hne : b ≠ a := fun h => hc h.symm
        show (if (fsClearmaskbit a s').maskBit b then 1 else 0) = _
        rw [maskBit_clear, decide_eq_false hne, Bool.not_false, Bool.true_and]

/-- Block 9 is marked and cleared, and block 10 is marked after that. -/
theorem mask_nine : ∃ s', Calls MaskCall.exec (fun s c => s.fsd.InMask c.block) (newFs 0)
    [(.setmaskbit 9, ok), (.clearmaskbit 9, ok), (.setmaskbit 10, ok)] s' ∧
      fsGetmaskbit 9 s' = 0 ∧ fsGetmaskbit 10 s' = 1 := by
  have hmkfs : fsMkfs 0 8 (some (0, fun _ => 0)) (fsBoot (deviceOf 0) fun _ => 0) =
      (1, newFs 0) := rfl
  have hcalls : Calls MaskCall.exec (fun s c => s.fsd.InMask c.block) (newFs 0)
      [(.setmaskbit 9, ok), (.clearmaskbit 9, ok), (.setmaskbit 10, ok)]
      (fsSetmaskbit 10 (fsClearmaskbit 9 (fsSetmaskbit 9 (newFs 0)))) :=
    .call (.call (.call .start (by decide)) (by decide)) (by decide)
  refine ⟨_, hcalls, (mask_marked hmkfs hcalls (by decide)).2.1 ?_,
    (mask_marked hmkfs hcalls (by decide)).1 ?_⟩
  · intro (h : Marked 9 ([.setmaskbit 0, .setmaskbit 1, .setmaskbit 9] ++ [.clearmaskbit 9] ++
      [.setmaskbit 10]))
    rcases h.of_snoc with heq | ⟨-, h⟩
    · cases heq
    · rcases h.of_snoc with heq | ⟨hne, -⟩
      · cases heq
      · exact hne rfl
  · exact marked_set 10 (mkfsCalls ++ [.setmaskbit 9, .clearmaskbit 9])

end Runs

end FileSystem
end Xinu
