import Xinu.FileSystem.Directory

/-!
# The table of the inodes

Several inodes share a block, which is read into a cache, changed and written back.

Main results:

- Theorem `inodeOnDisk_put`: what the device holds after an inode was written.
- Theorem `inode_table`: an inode is read as it was written, and the other inodes as before.
  The calls refuse a number that is none of an inode, unless it is negative or the number of
  the inodes.
-/

namespace Xinu
namespace FileSystem

open Foundations Function

/-- What `fs_mkfs` leaves on a device whose blocks hold an inode each at least and fit the
cache. -/
structure Mounted (s : Fs) : Prop extends Geometry s where
  blocksize_le : s.store.blocksize ≤ 512
  ninodes_pos : 0 < s.fsd.ninodes
  ninodes_lt : s.fsd.ninodes < 0x80000000

/-- The number of an inode. -/
def Fsystem.IsInode (f : Fsystem) (k : Int) : Prop :=
  0 ≤ k ∧ k < f.ninodes

instance (f : Fsystem) (k : Int) : Decidable (f.IsInode k) :=
  inferInstanceAs (Decidable (_ ∧ _))

/-- Two inodes with the same bytes. -/
def Inode.Same (n n' : Inode) : Prop :=
  ∀ i, i < inodeSize → n i = n' i

/-- Inode `k` is read as it was written, and each other inode as before. -/
structure RoundTrip (s : Fs) (k : Int) (inode : Inode) : Prop where
  put : (fsPutInodeByNum 0 k inode s).1 = ok
  get : ∀ out, (fsGetInodeByNum 0 k out (fsPutInodeByNum 0 k inode s).2).1 = ok
  same : ∀ out, Inode.Same (fsGetInodeByNum 0 k out (fsPutInodeByNum 0 k inode s).2).2.1 inode
  others : ∀ k', s.fsd.IsInode k' → k' ≠ k → ∀ out,
    Inode.Same (fsGetInodeByNum 0 k' out (fsPutInodeByNum 0 k inode s).2).2.1
      (fsGetInodeByNum 0 k' out s).2.1

/-- The calls refuse the number, and change nothing. -/
def RefusesInode (s : Fs) (k : Int) (inode : Inode) : Prop :=
  fsPutInodeByNum 0 k inode s = (syserr, s) ∧
    ∀ out, fsGetInodeByNum 0 k out s = (syserr, out, s)

/-- What the calls do with number `k`. -/
def TableSound (s : Fs) (k : Int) : Prop :=
  ∀ inode, (s.fsd.IsInode k → RoundTrip s k inode) ∧ (¬ s.fsd.IsInode k → RefusesInode s k inode)

section Table

variable {s : Fs} {k k' : Int}

/-- Where inode `k` lies on the device. -/
def Fs.inodeAddr (s : Fs) (k : Int) : Int :=
  (s.fsd.inodeAt k).1 * s.store.blocksize + (s.fsd.inodeAt k).2

/-- Different inodes do not overlap. -/
theorem Geometry.inodeAddr_disjoint (h : Geometry s) (hlt : unsigned k < unsigned k') :
    s.inodeAddr k + inodeSize ≤ s.inodeAddr k' := by
  have hcast := h.unsigned_blocksz
  have hfit := h.inodeAt_lt k
  have hnonneg : 0 ≤ s.store.blocksize := by omega
  unfold Fs.inodeAddr
  unfold Fsystem.inodeAt at hfit ⊢
  dsimp only at hfit ⊢
  rw [← Int.natCast_ediv, ← Int.natCast_ediv]
  generalize s.fsd.inodesPerBlock = p at hfit
  rcases Nat.lt_or_eq_of_le (Nat.div_le_div_right (c := p) hlt.le) with hblock | hblock
  · -- the end of the block of `k` is not behind the beginning of the other block
    have hstep : (firstInodeBlock + (unsigned k / p : Nat) + 1) * s.store.blocksize ≤
        (firstInodeBlock + (unsigned k' / p : Nat)) * s.store.blocksize := by
      apply Int.mul_le_mul_of_nonneg_right _ hnonneg
      omega
    rw [Int.add_mul _ 1, Int.one_mul] at hstep
    omega
  · have hmod := Nat.div_add_mod (unsigned k) p
    have hmod' := Nat.div_add_mod (unsigned k') p
    rw [hblock] at hmod
    have hplace : (unsigned k % p + 1) * inodeSize ≤ unsigned k' % p * inodeSize :=
      Nat.mul_le_mul_right _ (by omega)
    rw [Nat.succ_mul] at hplace
    rw [hblock]
    omega

/-- What the device holds after an inode was written. -/
theorem fsPutInodeByNum_blocks (h : Geometry s) (hk : k ≤ s.fsd.ninodes) (inode : Inode)
    (x : Int) : (fsPutInodeByNum 0 k inode s).2.store.blocks x =
      if s.inodeAddr k ≤ x ∧ x < s.inodeAddr k + inodeSize then inode (x - s.inodeAddr k).toNat
      else s.store.blocks x := by
  have hge := h.blocksize_ge
  have hcast := h.unsigned_blocksz
  have hfit := h.inodeAt_lt k
  have hdev : ¬ (0 : Int) ≠ 0 := fun h => h rfl
  have hoff : ¬ (0 : Int) ≥ s.store.blocksize := by
    unfold inodeSize at hge
    omega
  unfold fsPutInodeByNum Fs.inodeAddr
  rw [if_neg hdev, if_neg (by omega)]
  generalize s.fsd.inodeAt k = place at hfit
  obtain ⟨bl, off⟩ := place
  dsimp only at hfit ⊢
  unfold bsBwrite bsBread
  rw [if_neg hdev, if_neg hoff, if_neg hdev, if_neg hoff]
  dsimp only
  rw [Int.add_zero]
  generalize hbase : bl * s.store.blocksize = base
  by_cases hin : base ≤ x ∧ x < base + unsigned s.fsd.blocksz
  · obtain ⟨i, rfl⟩ : ∃ i : Nat, x = base + i := ⟨(x - base).toNat, by omega⟩
    have hi : (base + i - base).toNat = i := by omega
    rw [if_pos hin, hi]
    by_cases hinode : off ≤ i ∧ i < off + inodeSize
    · have hplace : (base + i - (base + off)).toNat = i - off := by omega
      rw [if_pos hinode, if_pos (by omega), hplace]
    · rw [if_neg hinode, if_neg (by omega)]
      unfold memcpy
      rw [if_pos (by omega)]
      rfl
  · rw [if_neg hin, if_neg (by omega)]

theorem unsigned_of_nonneg {x : Int} (h₀ : 0 ≤ x) (hlt : x < 0x100000000) :
    (unsigned x : Int) = x := by
  unfold unsigned
  rw [Int.emod_eq_of_lt h₀ hlt]
  exact Int.toNat_of_nonneg h₀

theorem inodeAddr_congr {s' : Fs} (h : SameFiles s s') (k : Int) :
    s'.inodeAddr k = s.inodeAddr k := by
  unfold Fs.inodeAddr
  rw [h.fsd, h.blocksize]

/-- What the device holds in the place of inode `k'` after inode `k` was written. -/
theorem inodeOnDisk_put (h : Mounted s) (hk : s.fsd.IsInode k) (hk' : s.fsd.IsInode k')
    (inode : Inode) {i : Nat} (hi : i < inodeSize) :
    (fsPutInodeByNum 0 k inode s).2.inodeOnDisk k' i =
      if k' = k then inode i else s.inodeOnDisk k' i := by
  have hlt := h.ninodes_lt
  have hcast := unsigned_of_nonneg hk.1 (by have := hk.2; omega)
  have hcast' := unsigned_of_nonneg hk'.1 (by have := hk'.2; omega)
  show (fsPutInodeByNum 0 k inode s).2.store.blocks
    ((fsPutInodeByNum 0 k inode s).2.inodeAddr k' + i) = _
  rw [inodeAddr_congr (fsPutInodeByNum_same 0 k inode s),
    fsPutInodeByNum_blocks h.toGeometry hk.2.le]
  by_cases heq : k' = k
  · have hplace : (s.inodeAddr k + i - s.inodeAddr k).toNat = i := by omega
    rw [heq, if_pos rfl, if_pos (by omega), hplace]
  · rw [if_neg heq]
    apply if_neg
    rcases Nat.lt_or_gt_of_ne (show unsigned k ≠ unsigned k' by omega) with hless | hless
    · have hapart := h.toGeometry.inodeAddr_disjoint hless
      omega
    · have hapart := h.toGeometry.inodeAddr_disjoint hless
      omega

/-- The calls accept every number up to that of the inodes. -/
theorem fsPutInodeByNum_ok (hk : k ≤ s.fsd.ninodes) (inode : Inode) :
    (fsPutInodeByNum 0 k inode s).1 = ok := by
  unfold fsPutInodeByNum
  rw [if_neg (fun hdev => hdev rfl), if_neg (by omega)]

theorem fsGetInodeByNum_ok (hk : k ≤ s.fsd.ninodes) (inode : Inode) :
    (fsGetInodeByNum 0 k inode s).1 = ok := by
  unfold fsGetInodeByNum
  rw [if_neg (fun hdev => hdev rfl), if_neg (by omega)]

theorem Mounted.roundTrip (h : Mounted s) (hk : s.fsd.IsInode k) (inode : Inode) :
    RoundTrip s k inode := by
  have hsame := fsPutInodeByNum_same 0 k inode s
  have hgeometry : Geometry (fsPutInodeByNum 0 k inode s).2 :=
    h.toGeometry.same (congrArg Fsystem.blocksz hsame.fsd) hsame.blocksize
  have hget : ∀ k', s.fsd.IsInode k' → ∀ out i, i < inodeSize →
      (fsGetInodeByNum 0 k' out (fsPutInodeByNum 0 k inode s).2).2.1 i =
        if k' = k then inode i else s.inodeOnDisk k' i := by
    intro k' hk' out i hi
    rw [fsGetInodeByNum_bytes hgeometry _ out hi, inodeOnDisk_put h hk hk' inode hi]
    rw [hsame.fsd]
    exact hk'.2.le
  constructor
  · exact fsPutInodeByNum_ok hk.2.le inode
  · intro out
    apply fsGetInodeByNum_ok
    rw [hsame.fsd]
    exact hk.2.le
  · intro out i hi
    rw [hget k hk out i hi, if_pos rfl]
  · intro k' hk' hne out i hi
    rw [hget k' hk' out i hi, if_neg hne, fsGetInodeByNum_bytes h.toGeometry hk'.2.le out hi]

/-- A number behind that of the inodes is refused. -/
theorem refusesInode (hk : k > s.fsd.ninodes) (inode : Inode) : RefusesInode s k inode := by
  constructor
  · unfold fsPutInodeByNum
    rw [if_neg (fun hdev => hdev rfl), if_pos hk]
  · intro out
    unfold fsGetInodeByNum
    rw [if_neg (fun hdev => hdev rfl), if_pos hk]

/--
An inode is read as it was written, and the other inodes as before; a number that is none of
an inode is refused: exactly as long as the number is not negative and is not the number of the
inodes.
-/
theorem inode_table (h : Mounted s) (k : Int) :
    TableSound s k ↔ 0 ≤ k ∧ k ≠ s.fsd.ninodes := by
  constructor
  · intro hsound
    by_contra hbad
    have hnone : ¬ s.fsd.IsInode k := by
      unfold Fsystem.IsInode
      omega
    have hpos := h.ninodes_pos
    -- the number is accepted
    have hput := congrArg Prod.fst ((hsound fun _ => 0).2 hnone).1
    rw [fsPutInodeByNum_ok (by omega)] at hput
    contradiction
  · rintro ⟨hnonneg, hne⟩ inode
    refine ⟨fun hk => h.roundTrip hk inode, ?_⟩
    intro hnone
    apply refusesInode
    unfold Fsystem.IsInode at hnone
    omega

theorem fsMkfs_mounted {dev numInodes : Int} {memory : Option (Int × (Nat → UInt8))} {s₀ : Fs}
    (hmkfs : fsMkfs dev numInodes memory s₀ = (1, s)) (hge : inodeSize ≤ s₀.store.blocksize)
    (hle : s₀.store.blocksize ≤ 512) (hlt : numInodes < 0x80000000) : Mounted s := by
  obtain ⟨m, -, rfl⟩ := fsMkfs_some hmkfs
  have hsize : (fsMkfs 0 numInodes (some m) s₀).2.store.blocksize = s₀.store.blocksize := by
    show (bsBwrite _ _ _ _ _ _).2.blocksize = _
    rw [bsBwrite_blocksize]
    exact bsBwrite_blocksize _ _ _ _ _ _
  have hninodes : (fsMkfs 0 numInodes (some m) s₀).2.fsd.ninodes =
      if numInodes < 1 then defaultNumInodes else numInodes := rfl
  refine ⟨⟨?_, ?_, ?_⟩, ?_, ?_, ?_⟩
  · exact hsize.symm
  · rw [hsize]
    exact hge
  · rw [hsize]
    omega
  · rw [hsize]
    exact hle
  · rw [hninodes]
    split
    · decide
    · omega
  · rw [hninodes]
    split
    · decide
    · exact hlt

/-- A file system with eight inodes. -/
theorem newFs_mounted (b : UInt8) : Mounted (newFs b) := by
  have hmkfs : fsMkfs 0 8 (some (0, fun _ => 0)) (fsBoot (deviceOf b) fun _ => 0) =
      (1, newFs b) := rfl
  apply fsMkfs_mounted hmkfs
  · show (inodeSize : Int) ≤ mdevBlockSize
    decide
  · exact Int.le_refl 512
  · decide

theorem inode_seven : TableSound (newFs 0) 7 :=
  (inode_table (newFs_mounted 0) 7).mpr (by decide)

/-- Number 8 is accepted, and its place is in a data block. -/
theorem inode_eight : ¬ TableSound (newFs 0) 8 ∧
    ((newFs 0).fsd.inodeAt 8).1 = (newFs 0).fsd.firstDataBlock := by
  constructor
  · intro hsound
    have hput := congrArg Prod.fst ((hsound fun _ => 0).2 (by decide)).1
    contradiction
  · decide

end Table

end FileSystem
end Xinu
