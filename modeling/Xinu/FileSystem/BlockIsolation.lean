import Xinu.FileSystem.InodeTable

/-!
# Isolation of the blocks

A call for a block is refused if its offset does not lie in a block.  Neither the number of the
block nor the end of the bytes is checked.

Main results:

- Theorem `inside_iff`: when the bytes of a call lie in its block.
- Theorem `block_isolation`: the calls that stay in their block, and the writes of the file
  system that do.
-/

namespace Xinu
namespace FileSystem

open Foundations Function

/-- The number of bytes for which `bs_mkdev` asks `getmem`. -/
def BlockStore.size (b : BlockStore) : Nat :=
  unsigned (b.numblocks * b.blocksize)

/-- The device has a block with this number. -/
def BlockStore.Existing (b : BlockStore) (block : Int) : Prop :=
  0 ≤ block ∧ block < b.numblocks ∧ (block + 1) * b.blocksize ≤ b.size

instance (b : BlockStore) (block : Int) : Decidable (b.Existing block) :=
  inferInstanceAs (Decidable (_ ∧ _ ∧ _))

/-- The byte at `x` belongs to the block. -/
def BlockStore.InBlock (b : BlockStore) (block x : Int) : Prop :=
  block * b.blocksize ≤ x ∧ x < (block + 1) * b.blocksize

/-- A call touches the byte at `x`. -/
def BlockStore.Touched (b : BlockStore) (block offset len x : Int) : Prop :=
  block * b.blocksize + offset ≤ x ∧ x < block * b.blocksize + offset + unsigned len

/-- A call that has made `b'` of the device `b` stays in its block. -/
structure Isolated (b b' : BlockStore) (block offset len : Int) : Prop where
  existing : b.Existing block
  inside : ∀ x, b.Touched block offset len x → b.InBlock block x
  others : ∀ x, ¬ b.InBlock block x → b'.blocks x = b.blocks x

/-- A write that is not refused stays in its block. -/
def WriteIsolated (b : BlockStore) (dev block offset : Int) (buf : Chars) (len : Int) : Prop :=
  (bsBwrite b dev block offset buf len).1 = ok →
    Isolated b (bsBwrite b dev block offset buf len).2 block offset len

/-- A read that is not refused stays in its block. -/
def ReadIsolated (b : BlockStore) (dev block offset : Int) (buf : Chars) (len : Int) : Prop :=
  (bsBread b dev block offset buf len).1 = ok → Isolated b b block offset len

/-- The device has the block, and the block has the bytes, if there are any. -/
def Fits (b : BlockStore) (block offset len : Int) : Prop :=
  b.Existing block ∧ (unsigned len = 0 ∨ 0 ≤ offset ∧ offset + unsigned len ≤ b.blocksize)

instance (b : BlockStore) (block offset len : Int) : Decidable (Fits b block offset len) :=
  inferInstanceAs (Decidable (_ ∧ (_ ∨ _)))

/-- If the call is not refused, its bytes fit. -/
def FitsUnlessRefused (b : BlockStore) (dev block offset len : Int) : Prop :=
  dev = 0 → offset < b.blocksize → Fits b block offset len

section Isolation

variable {b : BlockStore} {dev block offset len : Int} {buf : Chars}

theorem inside_iff : (∀ x, b.Touched block offset len x → b.InBlock block x) ↔
    unsigned len = 0 ∨ 0 ≤ offset ∧ offset + unsigned len ≤ b.blocksize := by
  have hend : (block + 1) * b.blocksize = block * b.blocksize + b.blocksize := by ring
  unfold BlockStore.Touched BlockStore.InBlock
  rw [hend]
  generalize block * b.blocksize = base
  constructor
  · intro h
    by_cases hzero : unsigned len = 0
    · exact Or.inl hzero
    · -- the first byte and the last one
      have hfirst := h (base + offset) ⟨by omega, by omega⟩
      have hlast := h (base + offset + unsigned len - 1) ⟨by omega, by omega⟩
      right
      omega
  · rintro h x ⟨hlow, hhigh⟩
    omega

theorem bsBwrite_ok_iff :
    (bsBwrite b dev block offset buf len).1 = ok ↔ dev = 0 ∧ offset < b.blocksize := by
  have hne : syserr ≠ ok := by decide
  unfold bsBwrite
  split
  · next hdev => simp [hdev, hne]
  · split
    · next hdev hoff => simp [hne, hoff]
    · next hdev hoff =>
        rw [not_not] at hdev
        simp only [true_iff]
        exact ⟨hdev, by omega⟩

theorem bsBread_ok_iff :
    (bsBread b dev block offset buf len).1 = ok ↔ dev = 0 ∧ offset < b.blocksize := by
  have hne : syserr ≠ ok := by decide
  unfold bsBread
  split
  · next hdev => simp [hdev, hne]
  · split
    · next hdev hoff => simp [hne, hoff]
    · next hdev hoff =>
        rw [not_not] at hdev
        simp only [true_iff]
        exact ⟨hdev, by omega⟩

/-- Only the touched bytes are written. -/
theorem bsBwrite_untouched {x : Int} (hx : ¬ b.Touched block offset len x) :
    (bsBwrite b dev block offset buf len).2.blocks x = b.blocks x := by
  unfold bsBwrite
  split
  · rfl
  · split
    · rfl
    · exact if_neg hx

theorem isolated_iff {b' : BlockStore}
    (hb' : ∀ x, ¬ b.Touched block offset len x → b'.blocks x = b.blocks x) :
    Isolated b b' block offset len ↔ Fits b block offset len := by
  constructor
  · intro h
    exact ⟨h.existing, inside_iff.mp h.inside⟩
  · rintro ⟨hexists, hfit⟩
    have hinside : ∀ x, b.Touched block offset len x → b.InBlock block x := inside_iff.mpr hfit
    exact ⟨hexists, hinside, fun x hx => hb' x (mt (hinside x) hx)⟩

theorem writeIsolated_iff (b : BlockStore) (dev block offset : Int) (buf : Chars) (len : Int) :
    WriteIsolated b dev block offset buf len ↔ FitsUnlessRefused b dev block offset len := by
  unfold WriteIsolated FitsUnlessRefused
  rw [bsBwrite_ok_iff, isolated_iff fun x => bsBwrite_untouched, and_imp]

theorem readIsolated_iff (b : BlockStore) (dev block offset : Int) (buf : Chars) (len : Int) :
    ReadIsolated b dev block offset buf len ↔ FitsUnlessRefused b dev block offset len := by
  unfold ReadIsolated FitsUnlessRefused
  rw [bsBread_ok_iff, isolated_iff fun _ _ => rfl, and_imp]

/-- A step of the file system has made `b'` of the device `b` by one write of `len` bytes, which
stays in its block if and only if the bytes fit. -/
def OneWrite (b b' : BlockStore) (block len : Int) : Prop :=
  ∃ buf, b' = (bsBwrite b 0 block 0 buf len).2 ∧
    (WriteIsolated b 0 block 0 buf len ↔ FitsUnlessRefused b 0 block 0 len)

theorem oneWrite (b : BlockStore) (block : Int) (buf : Chars) (len : Int) :
    OneWrite b (bsBwrite b 0 block 0 buf len).2 block len :=
  ⟨buf, rfl, writeIsolated_iff b 0 block 0 buf len⟩

/-- The superblock is written first, and the bitmap after it. -/
theorem fsMkfs_writes {numInodes : Int} {memory : Option (Int × (Nat → UInt8))} {s s' : Fs}
    (h : fsMkfs dev numInodes memory s = (1, s')) :
    ∃ b₁, OneWrite s.store b₁ sbBlk Fsystem.imageSize ∧
      OneWrite b₁ s'.store bmBlk s'.fsd.freemaskbytes := by
  obtain ⟨m, -, rfl⟩ := fsMkfs_some h
  exact ⟨_, oneWrite s.store sbBlk _ Fsystem.imageSize, oneWrite _ bmBlk _ _⟩

theorem fsPutInodeByNum_writes {k : Int} {s : Fs} (hk : k ≤ s.fsd.ninodes) (inode : Inode) :
    OneWrite s.store (fsPutInodeByNum 0 k inode s).2.store (s.fsd.inodeAt k).1 s.fsd.blocksz := by
  unfold fsPutInodeByNum
  rw [if_neg (fun hdev => hdev rfl), if_neg (by omega)]
  exact oneWrite _ _ _ _

/--
A call that is not refused stays in its block if and only if the device has the block and the
block has room for the bytes.  The same holds for the superblock and the bitmap of a new file
system, the bitmap of a file that grows, and an inode, on a device whose blocks hold an inode
and fit the cache.
-/
theorem block_isolation (b : BlockStore) (dev block offset : Int) (buf : Chars)
    (len numInodes : Int) (memory : Option (Int × (Nat → UInt8))) (s s' : Fs) (fd k : Int)
    (inode : Inode) :
    (WriteIsolated b dev block offset buf len ↔ FitsUnlessRefused b dev block offset len) ∧
    (ReadIsolated b dev block offset buf len ↔ FitsUnlessRefused b dev block offset len) ∧
    (fsMkfs dev numInodes memory s = (1, s') →
      ∃ b₁, OneWrite s.store b₁ sbBlk Fsystem.imageSize ∧
        OneWrite b₁ s'.store bmBlk s'.fsd.freemaskbytes) ∧
    OneWrite s.store (Fs.grant fd s).store bmBlk s.fsd.freemaskbytes ∧
    (k ≤ s.fsd.ninodes → inodeSize ≤ s.fsd.blocksz → s.fsd.blocksz ≤ 512 →
      OneWrite s.store (fsPutInodeByNum 0 k inode s).2.store (s.fsd.inodeAt k).1
        s.fsd.blocksz) := by
  refine ⟨writeIsolated_iff b dev block offset buf len,
    readIsolated_iff b dev block offset buf len, fsMkfs_writes, oneWrite s.store bmBlk _ _, ?_⟩
  intro hk _ _
  exact fsPutInodeByNum_writes hk inode

/-- Inode 0 of a file system that was just made is written to its block and no other. -/
theorem isolated_inode :
    OneWrite (newFs 0).store (fsPutInodeByNum 0 0 (fun _ => 0) (newFs 0)).2.store 2 512 ∧
      FitsUnlessRefused (newFs 0).store 0 2 0 512 :=
  ⟨(block_isolation (deviceOf 0) 0 0 0 (fun _ => 0) 0 0 none (newFs 0) (newFs 0) 0 0
      (fun _ => 0)).2.2.2.2 (by decide) (by decide) (by decide),
    fun _ _ => by decide⟩

/-- The superblock of a file system on a device of the default size reaches into block 1. -/
theorem superblock_overruns : ∃ image b₁,
    b₁ = (bsBwrite (deviceOf 0) 0 sbBlk 0 image Fsystem.imageSize).2 ∧
      OneWrite b₁ (newFs 0).store bmBlk 64 ∧
        ¬ WriteIsolated (deviceOf 0) 0 sbBlk 0 image Fsystem.imageSize := by
  refine ⟨_, _, rfl, oneWrite _ bmBlk _ _, ?_⟩
  rw [writeIsolated_iff]
  intro h
  exact absurd (h rfl (by decide)) (by decide)

end Isolation

end FileSystem
end Xinu
