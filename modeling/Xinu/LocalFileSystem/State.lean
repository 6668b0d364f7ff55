import Xinu.FileSystem.State

/-!
# The local file system: the disk

The disk is an array of sectors.  Sector 0 holds the directory, the sectors behind it hold
the index blocks, seven to a sector, and the other sectors hold one data block each.  The
structures are the bytes that lie on the disk.

Main results:

- Theorem `lfibget_lfibput`: an index block is read as it was written.
- Theorem `lfibget_lfibput_of_ne`: the other index blocks of a sector keep their bytes.
-/

namespace Xinu

open Foundations Function

namespace Lfs

open FileSystem (unsigned memcpy)

/-! ## The disk -/

def lfBlksiz : Nat := 512

/-- A disk that transfers whole sectors and reports no errors, such as the ram disk. -/
abbrev Disk := Int → Chars

/-- Read sector `blk` into `buff`. -/
def ramread (disk : Disk) (buff : Chars) (blk : Int) : Int × Chars :=
  (ok, memcpy buff (disk blk) lfBlksiz)

/-- Write `buff` to sector `blk`. -/
def ramwrite (disk : Disk) (buff : Chars) (blk : Int) : Int × Disk :=
  (ok, update disk blk (memcpy (disk blk) buff lfBlksiz))

section Disk

variable {disk : Disk} {buff : Chars} {b blk : Int} {i : Nat}

theorem ramwrite_self (hi : i < lfBlksiz) : (ramwrite disk buff blk).2 blk i = buff i := by
  unfold ramwrite memcpy
  dsimp only
  rw [update_self, if_pos hi]

theorem ramwrite_of_ne (h : b ≠ blk) : (ramwrite disk buff blk).2 b = disk b :=
  update_of_ne h _ _

/-- A word of the sector that was written. -/
theorem loadWord_ramwrite (hi : i + 4 ≤ lfBlksiz) :
    loadWord ((ramwrite disk buff blk).2 blk) i = loadWord buff i := by
  apply loadWord_congr
  intro x _ hx
  exact ramwrite_self (by omega)

end Disk

/-! ## Index blocks -/

/-- An index block: the words `next` and `offset`, and the sixteen words `dba`. -/
abbrev Lfiblk := Chars

/-- `sizeof(struct lfiblk)` -/
def lfiblkSize : Nat := 72

def lfInull : Int := -1

def lfDnull : Int := -1

def lfIblen : Nat := 16

def lfAreaIb : Int := 1

def lfAreaDir : Int := 0

namespace Lfiblk

variable (b : Lfiblk) (x : Int)

def next : Int := i32 (loadWord b 0)

def setNext : Lfiblk := storeWord b 0 (unsigned x)

def setOffset : Lfiblk := storeWord b 4 (unsigned x)

def setDba (i : Nat) : Lfiblk := storeWord b (8 + 4 * i) (unsigned x)

@[simp]
theorem next_setNext : (setNext b x).next = i32 x :=
  FileSystem.i32_loadWord_storeWord b 0 x

end Lfiblk

/-- The sector of index block `ib`. -/
def ib2sect (ib : Int) : Int :=
  ib.tdiv 7 + lfAreaIb

/-- The place of index block `ib` in its sector. -/
def ib2disp (ib : Int) : Nat :=
  unsigned (ib.tmod 7 * lfiblkSize)

/-- Clear an index block. -/
def lfibclear (ibptr : Lfiblk) (offset : Int) : Lfiblk :=
  let ibptr := ibptr.setOffset offset
  let ibptr := forRange 0 lfIblen (fun i b => Lfiblk.setDba b lfDnull i) ibptr
  ibptr.setNext lfInull

/-- Read index block `inum` into `ibuff`. -/
def lfibget (disk : Disk) (inum : Int) (ibuff : Lfiblk) : Lfiblk :=
  memcpy ibuff (fun i => disk (ib2sect inum) (ib2disp inum + i)) lfiblkSize

/-- Write index block `inum`; `dbuff` is the sector in memory. -/
def lfibput (disk : Disk) (inum : Int) (ibuff : Lfiblk) : Int × Disk :=
  let diskblock := ib2sect inum
  let r := ramread disk (fun _ => 0) diskblock
  if r.1 = syserr then
    (syserr, disk)
  else
    (ok, (ramwrite disk (copyChars lfiblkSize ibuff (ib2disp inum) r.2) diskblock).2)

section IndexBlocks

variable {disk : Disk} {ib inum : Int} {ibuff out : Lfiblk} {b : Int} {i : Nat}

theorem ib2sect_of_nonneg (h : 0 ≤ ib) : ib2sect ib = ib / 7 + 1 := by
  unfold ib2sect lfAreaIb
  rw [Int.tdiv_eq_ediv_of_nonneg h]

theorem ib2disp_of_nonneg (h : 0 ≤ ib) : (ib2disp ib : Int) = ib % 7 * 72 := by
  unfold ib2disp unsigned lfiblkSize
  rw [Int.tmod_eq_emod_of_nonneg h]
  omega

/-- An index block lies within its sector. -/
theorem ib2disp_le (h : 0 ≤ ib) : ib2disp ib + lfiblkSize ≤ lfBlksiz := by
  have hdisp := ib2disp_of_nonneg h
  unfold lfiblkSize lfBlksiz
  omega

/-- Different index blocks of a sector do not overlap. -/
theorem ib2disp_disjoint (h : 0 ≤ ib) (h' : 0 ≤ inum) (hne : ib ≠ inum)
    (hsect : ib2sect ib = ib2sect inum) :
    ib2disp ib + lfiblkSize ≤ ib2disp inum ∨ ib2disp inum + lfiblkSize ≤ ib2disp ib := by
  have hdisp := ib2disp_of_nonneg h
  have hdisp' := ib2disp_of_nonneg h'
  rw [ib2sect_of_nonneg h, ib2sect_of_nonneg h'] at hsect
  unfold lfiblkSize
  omega

theorem lfibput_eq (disk : Disk) (inum : Int) (ibuff : Lfiblk) :
    (lfibput disk inum ibuff).2 = (ramwrite disk (copyChars lfiblkSize ibuff (ib2disp inum)
      (memcpy (fun _ => 0) (disk (ib2sect inum)) lfBlksiz)) (ib2sect inum)).2 :=
  rfl

theorem lfibput_of_ne (h : b ≠ ib2sect inum) : (lfibput disk inum ibuff).2 b = disk b := by
  rw [lfibput_eq]
  exact ramwrite_of_ne h

/-- An index block is read as it was written. -/
theorem lfibget_lfibput (h : 0 ≤ inum) (hi : i < lfiblkSize) :
    lfibget (lfibput disk inum ibuff).2 inum out i = ibuff i := by
  have hfit := ib2disp_le h
  unfold lfibget memcpy
  rw [if_pos hi, lfibput_eq]
  dsimp only
  rw [ramwrite_self (by omega)]
  exact copyChars_inside hi

/-- The other index blocks keep their bytes. -/
theorem lfibget_lfibput_of_ne (h : 0 ≤ ib) (h' : 0 ≤ inum) (hne : ib ≠ inum) :
    lfibget (lfibput disk inum ibuff).2 ib out = lfibget disk ib out := by
  have hfit := ib2disp_le h
  funext i
  unfold lfibget memcpy
  by_cases hi : i < lfiblkSize
  · rw [if_pos hi, if_pos hi]
    by_cases hsect : ib2sect ib = ib2sect inum
    · have hdisjoint := ib2disp_disjoint h h' hne hsect
      rw [hsect, lfibput_eq]
      dsimp only
      rw [ramwrite_self (by omega), copyChars_outside (by omega)]
      unfold memcpy
      exact if_pos (by omega)
    · rw [lfibput_of_ne hsect]
  · rw [if_neg hi, if_neg hi]

/-- Only the sector of an index block matters. -/
theorem lfibget_congr {disk' : Disk} (h : disk' (ib2sect ib) = disk (ib2sect ib)) :
    lfibget disk' ib out = lfibget disk ib out := by
  unfold lfibget
  rw [h]

end IndexBlocks

/-! ## The directory -/

/-- The directory: the words `dfree`, `ifree` and `nfiles`, and the entries. -/
abbrev Lfdir := Chars

namespace Lfdir

variable (d : Lfdir) (x : Int)

def dfree : Int := i32 (loadWord d 0)

def ifree : Int := i32 (loadWord d 4)

def nfiles : Int := i32 (loadWord d 8)

def setDfree : Lfdir := storeWord d 0 (unsigned x)

def setNfiles : Lfdir := storeWord d 8 (unsigned x)

end Lfdir

/-! ## Free data blocks -/

/-- A data block on the free list: the word `nextdb`. -/
abbrev Lfdbfree := Chars

def Lfdbfree.nextdb (d : Lfdbfree) : Int := i32 (loadWord d 0)

def Lfdbfree.setNextdb (d : Lfdbfree) (x : Int) : Lfdbfree := storeWord d 0 (unsigned x)

@[simp]
theorem Lfdbfree.nextdb_setNextdb (d : Lfdbfree) (x : Int) : (d.setNextdb x).nextdb = i32 x :=
  FileSystem.i32_loadWord_storeWord d 0 x

end Lfs
end Xinu
