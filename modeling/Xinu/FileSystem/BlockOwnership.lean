import Xinu.FileSystem.Bitmap

/-!
# Who owns a block

`fs_write` looks for a block that is not marked in the bitmap, marks it and gives it to the
file.  `fs_mkfs` has marked the superblock and the block of the bitmap, but not those of the
inodes.

Main results:

- Theorem `search_fresh`: the first block that is found is the first one of the inodes.
- Theorem `blocks_not_owned`: there is no state in which each block in use is marked and has
  one owner.
-/

namespace Xinu
namespace FileSystem

open Foundations Function

/-- A call on files; descriptors are those of the table. -/
inductive FileCall
  | create (filename : CString) (mode : Int)
  | openFile (filename : CString) (flags : Int)
  | close (fd : Fin 16)
  | seek (fd : Fin 16) (offset : Int)
  | read (fd : Fin 16) (buf : Chars) (nbytes : Int)
  | write (fd : Fin 16) (buf : Chars) (nbytes : Int)

def FileCall.exec : FileCall → Fs → Int × Fs
  | .create filename mode, s => fsCreate filename mode s
  | .openFile filename flags, s => fsOpen filename flags s
  | .close fd, s => fsClose (fd : Nat) s
  | .seek fd offset, s => fsSeek (fd : Nat) offset s
  | .read fd buf nbytes, s =>
      let r := fsRead (fd : Nat) buf nbytes s
      (r.1, r.2.2)
  | .write fd buf nbytes, s => fsWrite (fd : Nat) buf nbytes s

/-- The file that a call writes, as the number of its directory entry. -/
def FileCall.written (s : Fs) : FileCall → Option Nat
  | .write fd _ _ => some (s.oft (fd : Nat)).de
  | _ => none

/-- The data blocks of each file: those that were marked by a call that writes the file. -/
abbrev DataBlocks := Nat → Nat → Bool

/-- A call, and what it adds to the data blocks. -/
def FileCall.record (c : FileCall) (x : Fs × DataBlocks) : Int × (Fs × DataBlocks) :=
  let r := c.exec x.1
  (r.1, r.2, fun file b =>
    x.2 file b || (c.written x.1 = some file && r.2.maskBit b && !x.1.maskBit b))

/-- The superblock, the block of the bitmap and the blocks of the inodes. -/
def Fs.metadata (s : Fs) : Set Nat :=
  {b | b < s.fsd.firstDataBlock}

/-- Each block in use has one owner, which is a file or the file system, lies on the device
and is marked. -/
structure BlocksOwned (s : Fs) (data : DataBlocks) : Prop where
  disjoint : ∀ file file' b, data file b → data file' b → file = file'
  apart : ∀ file b, data file b → b ∉ s.metadata
  below : ∀ file b, data file b → (b : Int) < s.fsd.nblocks
  marked : ∀ b, (b ∈ s.metadata ∨ ∃ file, data file b) → b ∈ maskSet s

/-- The states that calls reach from `s`. -/
abbrev FileCalls (s : Fs) (tr : List (FileCall × Int)) (x : Fs × DataBlocks) : Prop :=
  Calls FileCall.record (fun _ _ => True) (s, fun _ _ => false) tr x

/-! ## What the procedures do to the bitmap -/

/-- The bitmap, the cursor of the search for a block and the number of inodes are the same. -/
structure SameBlocks (s s' : Fs) : Prop where
  mask : s'.mask = s.mask
  nextFreeDataBlock : s'.nextFreeDataBlock = s.nextFreeDataBlock
  firstDataBlock : s'.fsd.firstDataBlock = s.fsd.firstDataBlock

section Frame

variable {s s' s'' : Fs} {fd : Int}

theorem SameBlocks.refl (s : Fs) : SameBlocks s s :=
  ⟨rfl, rfl, rfl⟩

theorem SameBlocks.trans (h : SameBlocks s s') (h' : SameBlocks s' s'') : SameBlocks s s'' :=
  ⟨h'.mask.trans h.mask, h'.nextFreeDataBlock.trans h.nextFreeDataBlock,
    h'.firstDataBlock.trans h.firstDataBlock⟩

theorem SameBlocks.result (h : SameBlocks s s') (r : Int) : SameBlocks s (r, s').2 :=
  h

theorem readInode_blocks (fd k : Int) (s : Fs) : SameBlocks s (s.readInode fd k) := by
  unfold Fs.readInode fsGetInodeByNum
  split
  · exact ⟨rfl, rfl, rfl⟩
  · split
    · exact ⟨rfl, rfl, rfl⟩
    · exact ⟨rfl, rfl, rfl⟩

theorem writeInode_blocks (fd : Int) (s : Fs) : SameBlocks s (s.writeInode fd).2 := by
  unfold Fs.writeInode fsPutInodeByNum
  split
  · exact .refl s
  · split
    · exact .refl s
    · exact ⟨rfl, rfl, rfl⟩

theorem inodeSearch_blocks (fd : Int) (i : Nat) (s : Fs) : SameBlocks s (inodeSearch fd i s) := by
  induction i generalizing s with
  | zero => exact .refl s
  | succ i ih =>
      have hread := readInode_blocks fd s.nextFreeInode s
      rw [inodeSearch_succ]
      split
      · exact hread
      · have hmove : SameBlocks (s.readInode fd s.nextFreeInode)
            (s.readInode fd s.nextFreeInode).advance := ⟨rfl, rfl, rfl⟩
        exact (hread.trans hmove).trans (ih _)

theorem fsCreate_blocks (filename : CString) (mode : Int) (s : Fs) :
    SameBlocks s (fsCreate filename mode s).2 := by
  unfold fsCreate
  split
  · exact .refl s
  split
  · exact .refl s
  split
  · exact .refl s
  dsimp only
  split
  · exact ⟨rfl, rfl, rfl⟩
  · have hstart : SameBlocks s ((s.addEntry filename).findFd.openFd s.fsd.numentries) :=
      ⟨rfl, rfl, rfl⟩
    have hsearch := hstart.trans (inodeSearch_blocks
      ((s.addEntry filename).findFd.openFd s.fsd.numentries).nextOpenFd
      ((s.addEntry filename).findFd.openFd s.fsd.numentries).fsd.ninodes.toNat _)
    generalize inodeSearch _ _ _ = s₁ at hsearch
    have hrecord : SameBlocks s₁ (s₁.record s.fsd.numentries) := ⟨rfl, rfl, rfl⟩
    exact ((hsearch.trans hrecord).trans (writeInode_blocks _ _)).result _

theorem fsOpen_blocks (filename : CString) (flags : Int) (s : Fs) :
    SameBlocks s (fsOpen filename flags s).2 := by
  unfold fsOpen
  split
  · split
    · exact .refl s
    · next i _ =>
        dsimp only
        split
        · exact ⟨rfl, rfl, rfl⟩
        · have hopen : SameBlocks s (s.findFd.openFd i) := ⟨rfl, rfl, rfl⟩
          exact hopen.trans (readInode_blocks _ _ _)
  · exact .refl s

theorem fsClose_blocks (fd : Int) (s : Fs) : SameBlocks s (fsClose fd s).2 := by
  unfold fsClose
  split
  · exact ⟨rfl, rfl, rfl⟩
  · exact .refl s

theorem fsSeek_blocks (fd offset : Int) (s : Fs) : SameBlocks s (fsSeek fd offset s).2 := by
  unfold fsSeek
  dsimp only
  split
  · split
    · exact .refl s
    · split
      · exact .refl s
      · exact .refl s
  · exact .refl s

theorem fsReadLoop_blocks (fd : Int) (n : Nat) (nbytes transferred : Int) (buf : Chars) (s : Fs) :
    SameBlocks s (fsReadLoop fd n nbytes transferred buf s).2.2 := by
  induction n generalizing nbytes transferred buf s with
  | zero => exact .refl s
  | succ n ih =>
      unfold fsReadLoop
      dsimp only
      split
      · split
        · exact .refl s
        · split
          · exact .refl s
          · have hmove : SameBlocks s (s.setFile fd fun f =>
                { f with fileptr := f.fileptr + pieceLength nbytes 0 }) := ⟨rfl, rfl, rfl⟩
            exact hmove.trans (ih _ _ _ _)
      · exact .refl s

theorem fsRead_blocks (fd : Int) (buf : Chars) (nbytes : Int) (s : Fs) :
    SameBlocks s (fsRead fd buf nbytes s).2.2 := by
  unfold fsRead
  dsimp only
  split
  · exact .refl s
  split
  · exact .refl s
  split
  · exact .refl s
  · split
    · exact fsReadLoop_blocks _ _ _ _ _ _
    · exact fsReadLoop_blocks _ _ _ _ _ _

theorem writePiece_blocks (fd offset : Int) (buf : Chars) (length : Int) (s : Fs) :
    SameBlocks s (s.writePiece fd offset buf length).2 := by
  unfold Fs.writePiece
  dsimp only
  split
  · exact ⟨rfl, rfl, rfl⟩
  · exact ⟨rfl, rfl, rfl⟩

end Frame

/-! ## The first block that is taken -/

/-- The blocks are as `fs_mkfs` has left them: the first block of the inodes is not marked,
and the search for a block will find it. -/
structure Fresh (s : Fs) : Prop where
  marked : ∀ b, b < 2 → s.maskBit b = true
  unmarked : s.maskBit 2 = false
  cursor : s.nextFreeDataBlock ≤ 2

section Search

variable {s s' : Fs} {fd : Int}

theorem Fresh.congr (h : Fresh s) (hsame : SameBlocks s s') : Fresh s' := by
  have hbit : ∀ b, s'.maskBit b = s.maskBit b := by
    intro b
    unfold Fs.maskBit
    rw [hsame.mask]
  constructor
  · intro b hb
    rw [hbit]
    exact h.marked b hb
  · rw [hbit]
    exact h.unmarked
  · rw [hsame.nextFreeDataBlock]
    exact h.cursor

/-- Either the search stops before it has come to the first block of the inodes, or it stops
there. -/
theorem search_fresh (h : Fresh s) (i : Nat) {m : UInt8} (hm : m ≠ 0) :
    ((blockSearch i m s).2.nextFreeDataBlock = 2 ∨ (blockSearch i m s).1 ≠ 0) ∧
      (blockSearch i m s).2.mask = s.mask ∧ Fresh (blockSearch i m s).2 := by
  induction i generalizing m s with
  | zero => exact ⟨Or.inr hm, rfl, h⟩
  | succ i ih =>
      have hone : (1 : UInt8) ≠ 0 := by decide
      have hcursor := h.cursor
      unfold blockSearch
      dsimp only
      rw [fsGetmaskbit_eq]
      by_cases htwo : s.nextFreeDataBlock = 2
      · rw [htwo, h.unmarked]
        exact ⟨Or.inl htwo, rfl, h⟩
      · rw [h.marked _ (by omega), if_pos rfl, if_neg hone, if_neg (by unfold mdevNumBlocks; omega)]
        have hnext : Fresh { s with nextFreeDataBlock := s.nextFreeDataBlock + 1 } := by
          refine ⟨h.marked, h.unmarked, ?_⟩
          show s.nextFreeDataBlock + 1 ≤ 2
          omega
        exact ih hnext hone

/-- Marks are not removed. -/
theorem grant_maskBit (fd : Int) (s : Fs) (b : Nat) :
    (s.grant fd).maskBit b =
      (decide (b = 1) || (decide (b = s.nextFreeDataBlock) || s.maskBit b)) := by
  show (fsSetmaskbit 1 (fsSetmaskbit s.nextFreeDataBlock s)).maskBit b = _
  rw [maskBit_set, maskBit_set]

theorem blockSearch_mask (i : Nat) (m : UInt8) (s : Fs) : (blockSearch i m s).2.mask = s.mask := by
  induction i generalizing m s with
  | zero => rfl
  | succ i ih =>
      unfold blockSearch
      dsimp only
      split
      · rfl
      · exact ih _ _

theorem maskBit_congr (h : s'.mask = s.mask) (b : Nat) : s'.maskBit b = s.maskBit b := by
  unfold Fs.maskBit
  rw [h]

theorem fsWriteLoop_keeps (fd : Int) (n : Nat) (nbytes transferred : Int) (buf : Chars) (b : Nat)
    (hb : s.maskBit b = true) :
    (fsWriteLoop fd n nbytes transferred buf s).2.maskBit b = true := by
  induction n generalizing nbytes transferred s with
  | zero => exact hb
  | succ n ih =>
      have hmask := blockSearch_mask (s.fsd.nblocks - s.fsd.firstDataBlock).toNat 1 s
      unfold fsWriteLoop
      dsimp only
      generalize blockSearch _ 1 s = found at hmask
      have hfound : found.2.maskBit b = true := by
        rw [maskBit_congr hmask]
        exact hb
      have hgrant : (found.2.grant fd).maskBit b = true := by
        rw [grant_maskBit, hfound, Bool.or_true, Bool.or_true]
      split
      · split
        · exact hfound
        · have hpiece := writePiece_blocks fd 0 (fun i => buf (transferred.toNat + i))
            (pieceLength nbytes 0) (found.2.grant fd)
          rw [← maskBit_congr hpiece.mask] at hgrant
          split
          · exact hgrant
          · exact ih _ _ hgrant
      · exact hb

/-- The blocks are as they were, or the first block of the inodes has been taken. -/
def Took (s s' : Fs) : Prop :=
  Fresh s' ∧ s'.mask = s.mask ∨ s'.maskBit 2 = true

theorem Took.result (h : Took s s') (r : Int) : Took s (r, s').2 :=
  h

theorem Took.congr {s'' : Fs} (h : Took s s') (hsame : SameBlocks s' s'') : Took s s'' := by
  rcases h with ⟨hfresh, hmask⟩ | hbit
  · exact Or.inl ⟨hfresh.congr hsame, hsame.mask.trans hmask⟩
  · right
    rw [maskBit_congr hsame.mask]
    exact hbit

theorem fsWriteLoop_took (h : Fresh s) (fd : Int) (n : Nat) (nbytes transferred : Int)
    (buf : Chars) : Took s (fsWriteLoop fd n nbytes transferred buf s).2 := by
  cases n with
  | zero => exact Or.inl ⟨h, rfl⟩
  | succ n =>
      obtain ⟨hcursor, hmask, hfresh⟩ :=
        search_fresh h (s.fsd.nblocks - s.fsd.firstDataBlock).toNat (m := 1) (by decide)
      unfold fsWriteLoop
      dsimp only
      generalize blockSearch _ 1 s = found at hcursor hmask hfresh
      split
      · split
        · exact Or.inl ⟨hfresh, hmask⟩
        · next hzero =>
            -- the search has come to the first block of the inodes
            have htwo := hcursor.resolve_right hzero
            have hgrant : (found.2.grant fd).maskBit 2 = true := by
              rw [grant_maskBit, htwo]
              rfl
            have hpiece := writePiece_blocks fd 0 (fun i => buf (transferred.toNat + i))
              (pieceLength nbytes 0) (found.2.grant fd)
            rw [← maskBit_congr hpiece.mask] at hgrant
            split
            · exact Or.inr hgrant
            · exact Or.inr (fsWriteLoop_keeps fd n _ _ buf 2 hgrant)
      · exact Or.inl ⟨h, rfl⟩

theorem fsWrite_took (h : Fresh s) (fd : Int) (buf : Chars) (nbytes : Int) :
    Took s (fsWrite fd buf nbytes s).2 := by
  have hrefused : Took s s := Or.inl ⟨h, rfl⟩
  unfold fsWrite
  dsimp only
  split
  · exact hrefused
  split
  · exact hrefused
  split
  · exact hrefused
  have hpiece := writePiece_blocks fd ((s.oft fd).fileptr % mdevBlockSize) buf
    (pieceLength nbytes ((s.oft fd).fileptr % mdevBlockSize)) s
  have hfirst := hrefused.congr hpiece
  generalize s.writePiece fd _ buf _ = w at hpiece hfirst
  split
  · exact hfirst
  have hloop : ∀ a b, Took s (fsWriteLoop fd nbytes.toNat a b buf w.2).2 := by
    intro a b
    rcases fsWriteLoop_took (h.congr hpiece) fd nbytes.toNat a b buf with ⟨hfresh, hmask⟩ | hbit
    · exact Or.inl ⟨hfresh, hmask.trans hpiece.mask⟩
    · exact Or.inr hbit
  split
  · exact hloop _ _
  · exact ((hloop _ _).congr (writeInode_blocks fd _)).result nbytes

end Search

/-! ## Runs -/

section Runs

variable {s : Fs} {tr : List (FileCall × Int)} {x : Fs × DataBlocks}

/-- There is a block for inodes, and the device has room for all of them. -/
def Fs.HasInodes (s : Fs) : Prop :=
  2 < s.fsd.firstDataBlock ∧ (s.fsd.firstDataBlock : Int) ≤ s.fsd.nblocks

instance (s : Fs) : Decidable s.HasInodes :=
  inferInstanceAs (Decidable (_ ∧ _))

theorem FsStart.fresh (h : FsStart s) (hroom : s.HasInodes) : Fresh s := by
  obtain ⟨store, cache, numInodes, memory, hmade⟩ := h
  obtain ⟨hinode, hfits⟩ := hroom
  have hinv := fsMkfs_mask hmade
  obtain ⟨m, -, rfl⟩ := fsMkfs_some hmade
  have hinmask : ∀ b, b < 3 →
      (fsMkfs 0 numInodes (some m) (fsBoot store cache)).2.fsd.InMask b := by
    intro b hb
    have hthree : (3 : Int) ≤ store.numblocks := by
      refine Int.le_trans ?_ hfits
      exact_mod_cast hinode
    show (b : Int) < 8 * ((store.numblocks + 7) / 8)
    omega
  constructor
  · intro b hb
    rw [← mem_maskSet, hinv.set b (hinmask b (by omega))]
    have hcases : b = 0 ∨ b = 1 := by omega
    rcases hcases with rfl | rfl
    · exact (marked_set 0 []).snoc nofun
    · exact marked_set 1 [.setmaskbit 0]
  · rw [← Bool.not_eq_true, ← mem_maskSet, hinv.set 2 (hinmask 2 (by omega))]
    rintro ⟨before, after, heq, -⟩
    have hmem : MaskCall.setmaskbit 2 ∈ mkfsCalls := by
      rw [heq]
      simp
    revert hmem
    decide
  · exact Nat.zero_le 2

/-- A call that does not write leaves the bitmap and the data blocks alone. -/
theorem record_cases (c : FileCall) (x : Fs × DataBlocks) :
    SameBlocks x.1 (c.exec x.1).2 ∨ ∃ fd buf nbytes, c = .write fd buf nbytes := by
  cases c with
  | create filename mode => exact Or.inl (fsCreate_blocks filename mode x.1)
  | openFile filename flags => exact Or.inl (fsOpen_blocks filename flags x.1)
  | close fd => exact Or.inl (fsClose_blocks _ x.1)
  | seek fd offset => exact Or.inl (fsSeek_blocks _ offset x.1)
  | read fd buf nbytes => exact Or.inl (fsRead_blocks _ buf nbytes x.1)
  | write fd buf nbytes => exact Or.inr ⟨fd, buf, nbytes, rfl⟩

/-- The first block of the inodes is not marked, or it is a data block. -/
structure Disowned (first : Nat) (x : Fs × DataBlocks) : Prop where
  firstDataBlock : x.1.fsd.firstDataBlock = first
  block : Fresh x.1 ∨ ∃ file, x.2 file 2 = true

theorem Disowned.call {first : Nat} (h : Disowned first x) (c : FileCall) :
    Disowned first (c.record x).2 := by
  have hgrow : ∀ file, x.2 file 2 = true → (c.record x).2.2 file 2 = true := by
    intro file hfile
    show (x.2 file 2 || _) = true
    rw [hfile, Bool.true_or]
  rcases record_cases c x with hsame | ⟨fd, buf, nbytes, rfl⟩
  · refine ⟨hsame.firstDataBlock.trans h.firstDataBlock, ?_⟩
    rcases h.block with hfresh | ⟨file, hfile⟩
    · exact Or.inl (hfresh.congr hsame)
    · exact Or.inr ⟨file, hgrow file hfile⟩
  · have hfsd : ((FileCall.write fd buf nbytes).record x).2.1.fsd = x.1.fsd :=
      (fsWrite_same (fd : Nat) buf nbytes x.1).fsd
    refine ⟨?_, ?_⟩
    · rw [hfsd]
      exact h.firstDataBlock
    · rcases h.block with hfresh | ⟨file, hfile⟩
      · rcases fsWrite_took hfresh (fd : Nat) buf nbytes with ⟨hfresh', -⟩ | hbit
        · exact Or.inl hfresh'
        · right
          refine ⟨(x.1.oft (fd : Nat)).de, ?_⟩
          have hnew : (FileCall.exec (.write fd buf nbytes) x.1).2.maskBit 2 = true := hbit
          simp [FileCall.record, FileCall.written, hnew, hfresh.unmarked]
      · exact Or.inr ⟨file, hgrow file hfile⟩

theorem Disowned.not_owned (h : Disowned first x) (hfirst : 2 < first) :
    ¬ BlocksOwned x.1 x.2 := by
  have hmeta : 2 ∈ x.1.metadata := by
    show 2 < x.1.fsd.firstDataBlock
    rw [h.firstDataBlock]
    exact hfirst
  intro howned
  rcases h.block with hfresh | ⟨file, hfile⟩
  · have hmarked := howned.marked 2 (Or.inl hmeta)
    rw [mem_maskSet, hfresh.unmarked] at hmarked
    contradiction
  · exact howned.apart file 2 hfile hmeta

/--
From a new file system no sequence of calls leads to a state in which each block in use is
marked and has one owner.
-/
theorem blocks_not_owned (hstart : FsStart s) (hroom : s.HasInodes) (hcalls : FileCalls s tr x) :
    ¬ BlocksOwned x.1 x.2 := by
  have hinv : Disowned s.fsd.firstDataBlock x := by
    apply hcalls.invariant (P := fun _ x => Disowned s.fsd.firstDataBlock x)
    · exact ⟨rfl, Or.inl (hstart.fresh hroom)⟩
    · exact fun tr x c h _ => h.call c
  exact hinv.not_owned hroom.1

/-- The new file system itself, and the state after a file has been created. -/
theorem new_not_owned : ¬ BlocksOwned (newFs 255) (fun _ _ => false) ∧
    ¬ BlocksOwned (FileCall.record (.create (letter 0) oCreat) (newFs 255, fun _ _ => false)).2.1
      (FileCall.record (.create (letter 0) oCreat) (newFs 255, fun _ _ => false)).2.2 :=
  ⟨blocks_not_owned (newFs_start 255) (by decide) .start,
    blocks_not_owned (newFs_start 255) (by decide) (.call .start trivial)⟩

/-- A file is created and 600 bytes are written to it.  Its data block is the one of the
inodes. -/
theorem inode_block_taken : ∃ tr x, FileCalls (newFs 255) tr x ∧ x.2 0 2 = true ∧
    2 ∈ x.1.metadata ∧ ¬ BlocksOwned x.1 x.2 := by
  have hsome : (runCalls FileCall.record (fun _ _ => True)
      [.create (letter 0) oCreat, .write 0 (fun _ => 65) 600] [] (newFs 255, fun _ _ => false)).map
        (fun r => (r.2.2 0 2, decide (2 < r.2.1.fsd.firstDataBlock))) = some (true, true) := by
    decide +kernel
  rw [Option.map_eq_some_iff] at hsome
  obtain ⟨⟨tr, x⟩, heq, hvalues⟩ := hsome
  obtain ⟨htaken, hfirst⟩ := Prod.mk.inj hvalues
  have hlt : 2 < x.1.fsd.firstDataBlock := of_decide_eq_true hfirst
  have hmeta : 2 ∈ x.1.metadata := hlt
  exact ⟨tr, x, runCalls_calls .start heq, htaken, hmeta, fun h => h.apart 0 2 htaken hmeta⟩

end Runs

end FileSystem
end Xinu
