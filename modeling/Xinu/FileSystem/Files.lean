import Xinu.FileSystem.State
import Xinu.Foundations.RotatingSearch

/-!
# The in-memory file system: files

The procedures on files as the source has them.  The descriptors and the inodes are searched
by loops that keep their cursors from call to call.

Main results:

- Theorem `fsOpen_unknown`: a file that the directory does not have cannot be opened.
- Theorem `inodeSearch_next`: where the search for an inode ends.
-/

namespace Xinu
namespace FileSystem

open Foundations Function

def oCreat : Int := 11

/-- The number of inodes if none is asked for. -/
def defaultNumInodes : Int := 128

def sbBlk : Int := 0

def bmBlk : Int := 1

/-- Make a file system; `memory` is what `getmem` returns for the bitmap. -/
def fsMkfs (dev numInodes : Int) (memory : Option (Int × (Nat → UInt8))) (s : Fs) : Int × Fs :=
  if dev ≠ 0 then
    (syserr, s)
  else
    let s := { s with fsd := { s.fsd with
      nblocks := s.store.numblocks
      blocksz := s.store.blocksize
      ninodes := if numInodes < 1 then defaultNumInodes else numInodes
      freemaskbytes := (s.store.numblocks + 7) / 8 } }
    match memory with
    | none => (syserr, { s with fsd := { s.fsd with freemask := syserr } })
    | some (p, bytes) =>
        let s := { s with
          fsd := { s.fsd with freemask := p, inodesUsed := 0 }
          mask := fun i => if (i : Int) < s.fsd.freemaskbytes then 0 else bytes i }
        let s := fsSetmaskbit 0 s
        let s := { s with store :=
          (bsBwrite s.store 0 sbBlk 0 s.fsd.image Fsystem.imageSize).2 }
        let s := fsSetmaskbit 1 s
        let s := { s with store := (bsBwrite s.store 0 bmBlk 0 s.mask s.fsd.freemaskbytes).2 }
        (1, s)

theorem fsMkfs_some {dev numInodes : Int} {memory : Option (Int × (Nat → UInt8))} {s s' : Fs}
    (h : fsMkfs dev numInodes memory s = (1, s')) :
    ∃ m, memory = some m ∧ s' = (fsMkfs 0 numInodes (some m) s).2 := by
  have hsyserr : syserr ≠ 1 := by decide
  by_cases hdev : dev ≠ 0
  · unfold fsMkfs at h
    rw [if_pos hdev] at h
    exact absurd (congrArg Prod.fst h) hsyserr
  · rw [not_ne_iff] at hdev
    rw [hdev] at h
    cases memory with
    | none => exact absurd (congrArg Prod.fst h) hsyserr
    | some m => exact ⟨m, rfl, congrArg Prod.snd h.symm⟩

/-! ## The directory and the table of open files -/

/-- The first entry of the directory with this name. -/
def Fs.find (s : Fs) (filename : CString) : Option Nat :=
  (List.range directorySize).find? fun i =>
    strncmp (s.fsd.entry i).name.1 filename.1 filenamelen = 0

/-- Change an entry of the table of open files. -/
def Fs.setFile (s : Fs) (fd : Int) (f : Filetable → Filetable) : Fs :=
  { s with oft := update s.oft fd (f (s.oft fd)) }

/-- Look for a closed descriptor. -/
def Fs.findFd (s : Fs) : Fs :=
  { s with nextOpenFd := sweep (fun fd => (s.oft fd).state = .closed) numFd numFd.toNat s.nextOpenFd }

/-- The descriptor that was found belongs to entry `de`. -/
def Fs.openFd (de : Nat) (s : Fs) : Fs :=
  s.setFile s.nextOpenFd fun f => { f with state := .opened, fileptr := 0, de := de }

/-- Read an inode into descriptor `fd`. -/
def Fs.readInode (fd inodeNumber : Int) (s : Fs) : Fs :=
  let r := fsGetInodeByNum 0 inodeNumber (s.oft fd).inode s
  r.2.2.setFile fd fun f => { f with inode := r.2.1 }

def fsOpen (filename : CString) (flags : Int) (s : Fs) : Int × Fs :=
  if 0 ≤ flags ∧ flags ≤ 2 then
    match s.find filename with
    | none => (syserr, s)
    | some i =>
        let s := s.findFd
        if (s.oft s.nextOpenFd).state ≠ .closed then
          (syserr, s)
        else
          let s := (s.openFd i).readInode s.nextOpenFd (s.fsd.entry i).inodeNum
          (s.nextOpenFd, s)
  else
    (syserr, s)

/-- The directory entry does not lie in the heap, so that `freemem` refuses it. -/
def fsClose (fd : Int) (s : Fs) : Int × Fs :=
  if (s.oft fd).state = .opened then
    (ok, s.setFile fd fun f => { f with state := .closed })
  else
    (syserr, s)

/-- The inode is free: its number is none of an inode. -/
def Inode.Free (ninodes : Int) (n : Inode) : Prop :=
  n.id < 0 ∨ n.id ≥ ninodes

instance (ninodes : Int) (n : Inode) : Decidable (n.Free ninodes) :=
  inferInstanceAs (Decidable (_ ∨ _))

/-- The next inode to try. -/
def Fs.advance (s : Fs) : Fs :=
  { s with nextFreeInode :=
    if s.nextFreeInode + 1 ≥ s.fsd.ninodes then 0 else s.nextFreeInode + 1 }

/-- Look for a free inode, with `i` left to try; each is read into descriptor `fd`. -/
def inodeSearch (fd : Int) : Nat → Fs → Fs
  | 0, s => s
  | i + 1, s =>
      let s := s.readInode fd s.nextFreeInode
      if (s.oft fd).inode.Free s.fsd.ninodes then
        s
      else
        inodeSearch fd i s.advance

/-- Add an entry to the directory; its inode is not known yet. -/
def Fs.addEntry (filename : CString) (s : Fs) : Fs :=
  { s with fsd := { s.fsd with
    numentries := s.fsd.numentries + 1
    entry := update s.fsd.entry s.fsd.numentries ⟨-1, filename.take (filenamelen - 1)⟩ } }

/-- The inode of a new file; its blocks are those of the inode that was read last. -/
def Inode.fresh (id : Int) (n : Inode) : Inode :=
  ((((n.setId id).setType inodeTypeFile).setNlink 0).setDevice 0).setSize 0

/-- Write the inode of descriptor `fd`. -/
def Fs.writeInode (fd : Int) (s : Fs) : Int × Fs :=
  fsPutInodeByNum 0 (s.oft fd).inode.id (s.oft fd).inode s

/-- The inode that was found belongs to entry `de`. -/
def Fs.record (de : Nat) (s : Fs) : Fs :=
  let s := s.setFile s.nextOpenFd fun f => { f with inode := f.inode.fresh s.nextFreeInode }
  { s with fsd := { s.fsd with
    entry := update s.fsd.entry de { s.fsd.entry de with inodeNum := s.nextFreeInode }
    inodesUsed := s.fsd.inodesUsed + 1 } }

def fsCreate (filename : CString) (mode : Int) (s : Fs) : Int × Fs :=
  if mode ≠ oCreat then
    (syserr, s)
  else if filename.1.length > filenamelen then
    (syserr, s)
  else if (s.find filename).isSome then
    (syserr, s)
  else
    let de := s.fsd.numentries
    let s := (s.addEntry filename).findFd
    if (s.oft s.nextOpenFd).state ≠ .closed then
      (syserr, s)
    else
      let s := s.openFd de
      let s := (inodeSearch s.nextOpenFd s.fsd.ninodes.toNat s).record de
      (s.nextOpenFd, (s.writeInode s.nextOpenFd).2)

/-! ## The contents of files -/

/-- The source assigns the new offset to a pointer, and the position stays. -/
def fsSeek (fd offset : Int) (s : Fs) : Int × Fs :=
  let f := s.oft fd
  if f.state = .opened then
    let offset := offset + f.fileptr
    if offset < 0 then
      (syserr, s)
    else if offset ≥ f.inode.size ∨ offset ≥ mdevBlockSize * inodeDirectBlocks then
      (syserr, s)
    else
      (offset, s)
  else
    (syserr, s)

/-- The block of the file that holds its position. -/
def Filetable.position (f : Filetable) : Nat :=
  (f.fileptr / mdevBlockSize).toNat

/-- The length of the piece of a block from `offset` on that is transferred. -/
def pieceLength (nbytes offset : Int) : Int :=
  if nbytes < mdevBlockSize - offset then nbytes else mdevBlockSize - offset

/-- Read the remaining blocks, with `n` of them left at most; `buf` holds the bytes so far. -/
def fsReadLoop (fd : Int) : Nat → Int → Int → Chars → Fs → Int × Chars × Fs
  | 0, _, _, buf, s => (ok, buf, s)
  | n + 1, nbytes, transferred, buf, s =>
      if nbytes > 0 then
        let f := s.oft fd
        let blocknumber := f.inode.block f.position
        let length := pieceLength nbytes 0
        if blocknumber = -1 then
          (ok, buf, s)
        else
          let (r, piece) := bsBread s.store 0 blocknumber 0
            (fun i => buf (transferred.toNat + i)) length
          if r ≠ ok then
            (syserr, buf, s)
          else
            let buf := fun i =>
              if i < transferred.toNat then buf i else piece (i - transferred.toNat)
            let s := s.setFile fd fun f => { f with fileptr := f.fileptr + length }
            fsReadLoop fd n (nbytes - length) (transferred + length) buf s
      else
        (ok, buf, s)

/-- Read `nbytes` bytes into `buf`. -/
def fsRead (fd : Int) (buf : Chars) (nbytes : Int) (s : Fs) : Int × Chars × Fs :=
  let f := s.oft fd
  if nbytes < 0 then
    (syserr, buf, s)
  else if f.state ≠ .opened then
    (syserr, buf, s)
  else if nbytes + f.fileptr ≥ mdevBlockSize * inodeDirectBlocks then
    (syserr, buf, s)
  else
    let offset := f.fileptr % mdevBlockSize
    let (_, buf) := bsBread s.store 0 (f.inode.block f.position) offset buf
      (pieceLength nbytes offset)
    let (r, buf, s) := fsReadLoop fd nbytes.toNat nbytes 0 buf s
    if r ≠ ok then (syserr, buf, s) else (nbytes, buf, s)

/-- Look for a free data block, with `i` left to try: was the last one used?  `m` is the
answer for the one before. -/
def blockSearch : Nat → UInt8 → Fs → UInt8 × Fs
  | 0, m, s => (m, s)
  | i + 1, _, s =>
      let m := fsGetmaskbit s.nextFreeDataBlock s
      if m = 0 then
        (m, s)
      else
        let next := s.nextFreeDataBlock + 1
        blockSearch i m { s with
          nextFreeDataBlock := if (next : Int) ≥ mdevNumBlocks then s.fsd.firstDataBlock else next }

/-- Mark the block that was found as used, and give it to the file. -/
def Fs.grant (fd : Int) (s : Fs) : Fs :=
  let s := fsSetmaskbit 1 (fsSetmaskbit s.nextFreeDataBlock s)
  let s := { s with store := (bsBwrite s.store 0 bmBlk 0 s.mask s.fsd.freemaskbytes).2 }
  s.setFile fd fun f => { f with inode := f.inode.setBlock s.nextFreeDataBlock f.position }

/-- Write a piece of a block at the position of the file, which moves on. -/
def Fs.writePiece (fd offset : Int) (buf : Chars) (length : Int) (s : Fs) : Int × Fs :=
  let f := s.oft fd
  let w := bsBwrite s.store 0 (f.inode.block f.position) offset buf length
  let s := { s with store := w.2 }
  if w.1 ≠ ok then
    (syserr, s)
  else
    (ok, s.setFile fd fun f => { f with fileptr := f.fileptr + length })

/-- Write the remaining blocks, with `n` of them left at most. -/
def fsWriteLoop (fd : Int) : Nat → Int → Int → Chars → Fs → Int × Fs
  | 0, _, _, _, s => (ok, s)
  | n + 1, nbytes, transferred, buf, s =>
      if nbytes > 0 then
        -- `m` has no value yet; the search sets it, as the device has a data block
        let found := blockSearch (s.fsd.nblocks - s.fsd.firstDataBlock).toNat 1 s
        if found.1 ≠ 0 then
          (syserr, found.2)
        else
          let length := pieceLength nbytes 0
          let w := (found.2.grant fd).writePiece fd 0 (fun i => buf (transferred.toNat + i)) length
          if w.1 ≠ ok then
            (syserr, w.2)
          else
            fsWriteLoop fd n (nbytes - length) (transferred + length) buf w.2
      else
        (ok, s)

/-- Write `nbytes` bytes from `buf`. -/
def fsWrite (fd : Int) (buf : Chars) (nbytes : Int) (s : Fs) : Int × Fs :=
  let f := s.oft fd
  if nbytes < 0 then
    (syserr, s)
  else if f.state ≠ .opened then
    (syserr, s)
  else if nbytes + f.fileptr ≥ mdevBlockSize * inodeDirectBlocks then
    (syserr, s)
  else
    let offset := f.fileptr % mdevBlockSize
    let length := pieceLength nbytes offset
    let w := s.writePiece fd offset buf length
    if w.1 ≠ ok then
      (syserr, w.2)
    else
      let r := fsWriteLoop fd nbytes.toNat (nbytes - length) length buf w.2
      if r.1 ≠ ok then
        (syserr, r.2)
      else
        (nbytes, (r.2.writeInode fd).2)

/-! ## What the procedures leave alone -/

/-- The details of the file system, the geometry of the device and the cursors of the two
searches are the same. -/
structure SameFiles (s s' : Fs) : Prop where
  fsd : s'.fsd = s.fsd
  blocksize : s'.store.blocksize = s.store.blocksize
  nextOpenFd : s'.nextOpenFd = s.nextOpenFd
  nextFreeInode : s'.nextFreeInode = s.nextFreeInode

section Frame

variable {s s' s'' : Fs} {fd : Int}

theorem SameFiles.refl (s : Fs) : SameFiles s s :=
  ⟨rfl, rfl, rfl, rfl⟩

theorem SameFiles.trans (h : SameFiles s s') (h' : SameFiles s' s'') : SameFiles s s'' :=
  ⟨h'.fsd.trans h.fsd, h'.blocksize.trans h.blocksize, h'.nextOpenFd.trans h.nextOpenFd,
    h'.nextFreeInode.trans h.nextFreeInode⟩

theorem SameFiles.result (h : SameFiles s s') (r : Int) : SameFiles s (r, s').2 :=
  h

theorem bsBwrite_blocksize (b : BlockStore) (dev block offset : Int) (buf : Chars) (len : Int) :
    (bsBwrite b dev block offset buf len).2.blocksize = b.blocksize := by
  unfold bsBwrite
  split
  · rfl
  · split
    · rfl
    · rfl

theorem fsPutInodeByNum_same (dev k : Int) (inode : Inode) (s : Fs) :
    SameFiles s (fsPutInodeByNum dev k inode s).2 := by
  unfold fsPutInodeByNum
  split
  · exact .refl s
  · split
    · exact .refl s
    · exact ⟨rfl, bsBwrite_blocksize _ _ _ _ _ _, rfl, rfl⟩

theorem writeInode_same (fd : Int) (s : Fs) : SameFiles s (s.writeInode fd).2 :=
  fsPutInodeByNum_same _ _ _ _

theorem blockSearch_same (i : Nat) (m : UInt8) (s : Fs) : SameFiles s (blockSearch i m s).2 := by
  induction i generalizing m s with
  | zero => exact .refl s
  | succ i ih =>
      have hstep : ∀ (m : UInt8) (next : Nat),
          SameFiles s (blockSearch i m { s with nextFreeDataBlock := next }).2 := by
        intro m next
        have hmove : SameFiles s { s with nextFreeDataBlock := next } := ⟨rfl, rfl, rfl, rfl⟩
        exact hmove.trans (ih m _)
      unfold blockSearch
      dsimp only
      split
      · exact .refl s
      · exact hstep _ _

theorem grant_same (fd : Int) (s : Fs) : SameFiles s (s.grant fd) :=
  ⟨rfl, bsBwrite_blocksize _ _ _ _ _ _, rfl, rfl⟩

theorem writePiece_same (fd offset : Int) (buf : Chars) (length : Int) (s : Fs) :
    SameFiles s (s.writePiece fd offset buf length).2 := by
  unfold Fs.writePiece
  dsimp only
  split
  · exact ⟨rfl, bsBwrite_blocksize _ _ _ _ _ _, rfl, rfl⟩
  · exact ⟨rfl, bsBwrite_blocksize _ _ _ _ _ _, rfl, rfl⟩

theorem fsWriteLoop_same (fd : Int) (n : Nat) (nbytes transferred : Int) (buf : Chars) (s : Fs) :
    SameFiles s (fsWriteLoop fd n nbytes transferred buf s).2 := by
  induction n generalizing nbytes transferred s with
  | zero => exact .refl s
  | succ n ih =>
      have hfound := blockSearch_same (s.fsd.nblocks - s.fsd.firstDataBlock).toNat 1 s
      unfold fsWriteLoop
      dsimp only
      generalize blockSearch _ 1 s = found at hfound
      split
      · split
        · exact hfound
        · have hpiece := (hfound.trans (grant_same fd _)).trans (writePiece_same fd 0
            (fun i => buf (transferred.toNat + i)) (pieceLength nbytes 0) _)
          split
          · exact hpiece
          · exact hpiece.trans (ih _ _ _)
      · exact .refl s

theorem fsWrite_same (fd : Int) (buf : Chars) (nbytes : Int) (s : Fs) :
    SameFiles s (fsWrite fd buf nbytes s).2 := by
  unfold fsWrite
  dsimp only
  split
  · exact .refl s
  split
  · exact .refl s
  split
  · exact .refl s
  have hpiece := writePiece_same fd ((s.oft fd).fileptr % mdevBlockSize) buf
    (pieceLength nbytes ((s.oft fd).fileptr % mdevBlockSize)) s
  split
  · exact hpiece
  generalize s.writePiece fd _ buf _ = w at hpiece
  have hloop := fun a b => hpiece.trans (fsWriteLoop_same fd nbytes.toNat a b buf w.2)
  generalize hr : fsWriteLoop fd nbytes.toNat _ _ buf w.2 = r
  have hsame : SameFiles s r.2 := by
    rw [← hr]
    exact hloop _ _
  split
  · exact hsame
  · exact (hsame.trans (writeInode_same fd r.2)).result nbytes

theorem fsClose_same (fd : Int) (s : Fs) : SameFiles s (fsClose fd s).2 := by
  unfold fsClose
  split
  · exact ⟨rfl, rfl, rfl, rfl⟩
  · exact .refl s

end Frame

/-! ## Searching -/

section Search

variable {s : Fs} {filename : CString} {fd : Int}

/-- What the device holds where an inode belongs. -/
def Fs.inodeOnDisk (s : Fs) (k : Int) : Inode :=
  s.store.memoryAt ((s.fsd.inodeAt k).1 * s.store.blocksize + (s.fsd.inodeAt k).2)

/-- The file system knows the size of the blocks, which hold an inode each at least. -/
structure Geometry (s : Fs) : Prop where
  blocksz : s.fsd.blocksz = s.store.blocksize
  blocksize_ge : inodeSize ≤ s.store.blocksize
  blocksize_lt : s.store.blocksize < 0x80000000

theorem Geometry.same {s' : Fs} (h : Geometry s) (hfsd : s'.fsd.blocksz = s.fsd.blocksz)
    (hsize : s'.store.blocksize = s.store.blocksize) : Geometry s' := by
  constructor
  · rw [hfsd, hsize]
    exact h.blocksz
  · rw [hsize]
    exact h.blocksize_ge
  · rw [hsize]
    exact h.blocksize_lt

theorem Geometry.unsigned_blocksz (h : Geometry s) :
    (unsigned s.fsd.blocksz : Int) = s.store.blocksize := by
  have hge := h.blocksize_ge
  have hlt := h.blocksize_lt
  unfold unsigned
  rw [h.blocksz, Int.toNat_of_nonneg (by omega), Int.emod_eq_of_lt (by omega) (by omega)]

/-- An inode lies in its block. -/
theorem Geometry.inodeAt_lt (h : Geometry s) (k : Int) :
    (s.fsd.inodeAt k).2 + inodeSize ≤ unsigned s.fsd.blocksz := by
  have hge := h.blocksize_ge
  have hcast := h.unsigned_blocksz
  have hpos : 0 < s.fsd.inodesPerBlock := by
    unfold Fsystem.inodesPerBlock
    exact Nat.div_pos (by omega) (by decide)
  have hlt := Nat.mod_lt (unsigned k) hpos
  have hfit : s.fsd.inodesPerBlock * inodeSize ≤ unsigned s.fsd.blocksz := Nat.div_mul_le_self _ _
  calc unsigned k % s.fsd.inodesPerBlock * inodeSize + inodeSize
      = (unsigned k % s.fsd.inodesPerBlock + 1) * inodeSize := (Nat.succ_mul _ _).symm
    _ ≤ s.fsd.inodesPerBlock * inodeSize := Nat.mul_le_mul_right _ hlt
    _ ≤ unsigned s.fsd.blocksz := hfit

/-- An inode is read from where it belongs. -/
theorem fsGetInodeByNum_bytes (h : Geometry s) {k : Int} (hk : k ≤ s.fsd.ninodes) (inode : Inode)
    {i : Nat} (hi : i < inodeSize) :
    (fsGetInodeByNum 0 k inode s).2.1 i = s.inodeOnDisk k i := by
  have hge := h.blocksize_ge
  have hfit := h.inodeAt_lt k
  have hdev : ¬ (0 : Int) ≠ 0 := fun h => h rfl
  have hoff : ¬ (0 : Int) ≥ s.store.blocksize := by
    unfold inodeSize at hge
    omega
  unfold fsGetInodeByNum
  rw [if_neg hdev, if_neg (by omega)]
  dsimp only
  unfold bsBread
  rw [if_neg hdev, if_neg hoff]
  unfold memcpy
  dsimp only
  rw [if_pos hi, if_pos (by omega)]
  unfold Fs.inodeOnDisk BlockStore.memoryAt
  congr 1
  push_cast
  ring

theorem fsGetInodeByNum_id (h : Geometry s) {k : Int} (hk : k ≤ s.fsd.ninodes) (inode : Inode) :
    (fsGetInodeByNum 0 k inode s).2.1.id = (s.inodeOnDisk k).id := by
  unfold Inode.id
  rw [loadWord_congr fun x _ hx => fsGetInodeByNum_bytes h hk inode (by unfold inodeSize; omega)]

theorem readInode_frame (fd k : Int) (s : Fs) :
    (s.readInode fd k).fsd = s.fsd ∧ (s.readInode fd k).store = s.store ∧
      (s.readInode fd k).nextOpenFd = s.nextOpenFd ∧
        (s.readInode fd k).nextFreeInode = s.nextFreeInode := by
  unfold Fs.readInode fsGetInodeByNum
  dsimp only
  split
  · exact ⟨rfl, rfl, rfl, rfl⟩
  · split
    · exact ⟨rfl, rfl, rfl, rfl⟩
    · exact ⟨rfl, rfl, rfl, rfl⟩

theorem readInode_inode (fd k : Int) (s : Fs) :
    ((s.readInode fd k).oft fd).inode = (fsGetInodeByNum 0 k (s.oft fd).inode s).2.1 := by
  unfold Fs.readInode Fs.setFile
  dsimp only
  rw [update_self]

theorem inodeSearch_succ (fd : Int) (i : Nat) (s : Fs) :
    inodeSearch fd (i + 1) s =
      if ((s.readInode fd s.nextFreeInode).oft fd).inode.Free
          (s.readInode fd s.nextFreeInode).fsd.ninodes then
        s.readInode fd s.nextFreeInode
      else
        inodeSearch fd i (s.readInode fd s.nextFreeInode).advance :=
  rfl

theorem inodeSearch_frame (fd : Int) (i : Nat) (s : Fs) :
    (inodeSearch fd i s).fsd = s.fsd ∧ (inodeSearch fd i s).store = s.store ∧
      (inodeSearch fd i s).nextOpenFd = s.nextOpenFd := by
  induction i generalizing s with
  | zero => exact ⟨rfl, rfl, rfl⟩
  | succ i ih =>
      obtain ⟨hfsd, hstore, hfd, -⟩ := readInode_frame fd s.nextFreeInode s
      rw [inodeSearch_succ]
      generalize s.readInode fd s.nextFreeInode = s₁ at hfsd hstore hfd
      split
      · exact ⟨hfsd, hstore, hfd⟩
      · obtain ⟨hfsd', hstore', hfd'⟩ := ih s₁.advance
        exact ⟨hfsd'.trans hfsd, hstore'.trans hstore, hfd'.trans hfd⟩

/-- Inode `k` is free on the device. -/
def Fs.freeInode (s : Fs) (k : Int) : Bool :=
  (s.inodeOnDisk k).Free s.fsd.ninodes

theorem freeInode_congr {s' : Fs} (hblocksz : s'.fsd.blocksz = s.fsd.blocksz)
    (hninodes : s'.fsd.ninodes = s.fsd.ninodes) (hstore : s'.store = s.store) :
    s'.freeInode = s.freeInode := by
  funext k
  unfold Fs.freeInode Fs.inodeOnDisk Fsystem.inodeAt Fsystem.inodesPerBlock
  rw [hblocksz, hninodes, hstore]

/-- The cursor stops at a free inode, if there is one. -/
theorem inodeSearch_next (h : Geometry s) (fd : Int) (i : Nat) (hlow : 0 ≤ s.nextFreeInode)
    (hhigh : s.nextFreeInode < s.fsd.ninodes) :
    (inodeSearch fd i s).nextFreeInode =
      sweep s.freeInode s.fsd.ninodes i s.nextFreeInode := by
  induction i generalizing s with
  | zero => rfl
  | succ i ih =>
      obtain ⟨hfsd, hstore, -, hnext⟩ := readInode_frame fd s.nextFreeInode s
      have hid : ((s.readInode fd s.nextFreeInode).oft fd).inode.Free
          (s.readInode fd s.nextFreeInode).fsd.ninodes ↔ s.freeInode s.nextFreeInode = true := by
        unfold Fs.freeInode
        rw [decide_eq_true_iff, readInode_inode, hfsd]
        unfold Inode.Free
        rw [fsGetInodeByNum_id h (Int.le_of_lt hhigh)]
      rw [inodeSearch_succ, sweep]
      generalize s.readInode fd s.nextFreeInode = s₁ at hfsd hstore hnext hid
      by_cases hfree : s.freeInode s.nextFreeInode = true
      · rw [if_pos (hid.mpr hfree), if_pos hfree, hnext]
      · have hblocksz : s₁.advance.fsd.blocksz = s.fsd.blocksz := congrArg Fsystem.blocksz hfsd
        have hninodes : s₁.advance.fsd.ninodes = s.fsd.ninodes := congrArg Fsystem.ninodes hfsd
        have hfree' : s₁.advance.freeInode = s.freeInode :=
          freeInode_congr hblocksz hninodes hstore
        have hcursor : s₁.advance.nextFreeInode =
            if s.nextFreeInode + 1 ≥ s.fsd.ninodes then 0 else s.nextFreeInode + 1 := by
          unfold Fs.advance
          dsimp only
          rw [hnext, hfsd]
        rw [if_neg (mt hid.mp hfree), if_neg hfree, ih, hfree', hninodes, hcursor]
        · exact h.same hblocksz (congrArg BlockStore.blocksize hstore)
        · rw [hcursor]
          exact (wrap_range hlow hhigh).1
        · rw [hcursor, hninodes]
          exact (wrap_range hlow hhigh).2

/-- A file that the directory does not have cannot be opened. -/
theorem fsOpen_unknown {flags : Int} (h : s.find filename = none) :
    fsOpen filename flags s = (syserr, s) := by
  unfold fsOpen
  rw [h]
  split
  · rfl
  · rfl

end Search

end FileSystem
end Xinu
