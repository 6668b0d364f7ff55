import Mathlib.Order.CompletePartialOrder
import Xinu.Foundations.SingleLink
import Xinu.Kernel.SchedulerSpec
import Xinu.LocalFileSystem.State

/-!
# Formatting a local file system

`lfscreate` writes the directory and links the free blocks.  The loop counters have 32 bits,
so that each loop ends, but a bound that is negative is taken for a large one.

Main results:

- Theorem `linkIblocks_lists`: the list of the free index blocks.
- Theorem `linkDblocks_lists`: the list of the free data blocks.
- Theorem `lfscreate_formats`: which disks are formatted or refused.
-/

namespace Xinu
namespace Lfs

open Foundations Function
open FileSystem (unsigned)

/-- The number of index blocks in a sector. -/
def ibpersector : Nat :=
  lfBlksiz / lfiblkSize

/-- The disk and the block that the loop over the index blocks has. -/
structure IndexLoop where
  disk : Disk
  iblock : Lfiblk

/-- Link index block `i` to the next one. -/
def IndexLoop.turn (i : Nat) (s : IndexLoop) : IndexLoop :=
  let iblock := s.iblock.setNext (i + 1)
  ⟨(lfibput s.disk i iblock).2, iblock⟩

/-- Create the list of the free index blocks. -/
def linkIblocks (lfiblks : Int) (disk : Disk) : Disk :=
  let n := (lfiblks - 1).toNat
  let s := forRange 0 n IndexLoop.turn ⟨disk, lfibclear (fun _ => 0) 0⟩
  (lfibput s.disk n (s.iblock.setNext lfInull)).2

/-- The disk, the block and the index that the loop over the data blocks has. -/
structure DataLoop where
  disk : Disk
  dblock : Lfdbfree
  dbindex : Int

/-- Link data block `dbindex` to the next one. -/
def DataLoop.turn (s : DataLoop) : DataLoop :=
  let dblock := s.dblock.setNextdb (s.dbindex + 1)
  ⟨(ramwrite s.disk dblock s.dbindex).2, dblock, i32 (s.dbindex + 1)⟩

/-- Create the list of the free data blocks.  The bound of the loop is unsigned. -/
def linkDblocks (dblks : Nat) (dbindex : Int) (disk : Disk) : Disk :=
  let s := forRange 0 (unsigned (dblks - 1)) (fun _ => DataLoop.turn) ⟨disk, fun _ => 0, dbindex⟩
  (ramwrite s.disk (s.dblock.setNextdb lfDnull) s.dbindex).2

/-- Create an empty file system on a disk of `dsiz` bytes. -/
def lfscreate (disk : Disk) (lfiblks : Int) (dsiz : Nat) : Int × Disk :=
  let sectors := dsiz / lfBlksiz
  let ibsectors := unsigned (lfiblks + (ibpersector - 1)) / ibpersector
  let lfiblks := i32 (ibsectors * ibpersector)
  if ibsectors > sectors / 2 then
    (syserr, disk)
  else
    let dir := Lfdir.setNfiles (fun _ => 0) 0
    let dbindex := i32 (ibsectors + 1)
    let dir := dir.setDfree dbindex
    let dblks := unsigned (sectors - ibsectors - 1)
    let r := ramwrite disk dir lfAreaDir
    if r.1 = syserr then
      (syserr, r.2)
    else
      (ok, linkDblocks dblks dbindex (linkIblocks lfiblks r.2))

/-! ## A formatted disk -/

/-- The number of the sectors that `lfiblks` index blocks take. -/
def ibsectors (lfiblks : Int) : Int :=
  (lfiblks + 6) / 7

/-- The index block that index block `k` is linked to. -/
def nextIblock (disk : Disk) (k : Int) : Int :=
  (lfibget disk k fun _ => 0).next

/-- The data block that data block `b` is linked to. -/
def nextDblock (disk : Disk) (b : Int) : Int :=
  Lfdbfree.nextdb (disk b)

def directory (disk : Disk) : Lfdir :=
  disk lfAreaDir

def directoryArea : Set Int :=
  {lfAreaDir}

/-- The sectors of the index blocks `0`, …, `n - 1`. -/
def indexArea (n : Int) : Set Int :=
  ib2sect '' Set.Ico 0 n

/-- The sectors behind the `k` sectors of the index blocks. -/
def dataArea (k sectors : Int) : Set Int :=
  Set.Ico (k + 1) sectors

/-- The areas lie inside the disk and have no sector in common. -/
structure AreasApart (k sectors : Int) : Prop where
  directory : directoryArea ⊆ Set.Ico 0 sectors
  index : indexArea (7 * k) ⊆ Set.Ico 0 sectors
  data : dataArea k sectors ⊆ Set.Ico 0 sectors
  directory_index : Disjoint directoryArea (indexArea (7 * k))
  directory_data : Disjoint directoryArea (dataArea k sectors)
  index_data : Disjoint (indexArea (7 * k)) (dataArea k sectors)

/-- The disk has an empty directory and lists of all its blocks, where `k` sectors hold index
blocks.  Nothing outside was written. -/
structure Formatted (before disk : Disk) (k sectors : Int) : Prop where
  nfiles : (directory disk).nfiles = 0
  iblocks : Lists (nextIblock disk) lfInull (directory disk).ifree (Set.Ico 0 (7 * k))
  dblocks : Lists (nextDblock disk) lfDnull (directory disk).dfree (dataArea k sectors)
  apart : AreasApart k sectors
  outside : ∀ b, b ∉ Set.Ico 0 sectors → disk b = before b

/-- The procedure refuses to format the disk, or formats it. -/
def RefusesOrFormats (disk : Disk) (lfiblks : Int) (dsiz : Nat) : Prop :=
  (lfscreate disk lfiblks dsiz).1 = syserr ∨
    (lfscreate disk lfiblks dsiz).1 = ok ∧
      Formatted disk (lfscreate disk lfiblks dsiz).2 (ibsectors lfiblks) (dsiz / 512)

section Format

variable {disk before : Disk} {lfiblks k sectors b dbindex : Int} {n j dblks : Nat}

/-! ## The areas -/

theorem mem_indexArea (h : b ∈ indexArea (7 * k)) : 1 ≤ b ∧ b ≤ k := by
  obtain ⟨ib, hib, rfl⟩ := h
  rw [Set.mem_Ico] at hib
  rw [ib2sect_of_nonneg hib.1]
  omega

theorem areasApart (h₀ : 0 ≤ k) (hlt : k < sectors) : AreasApart k sectors where
  directory := by
    intro b hb
    rw [Set.mem_singleton_iff.mp hb, Set.mem_Ico]
    unfold lfAreaDir
    omega
  index := by
    intro b hb
    have hrange := mem_indexArea hb
    rw [Set.mem_Ico]
    omega
  data := by
    intro b hb
    have hrange := Set.mem_Ico.mp hb
    rw [Set.mem_Ico]
    omega
  directory_index := by
    rw [Set.disjoint_left]
    intro b hb hb'
    have hrange := mem_indexArea hb'
    rw [Set.mem_singleton_iff.mp hb] at hrange
    unfold lfAreaDir at hrange
    omega
  directory_data := by
    rw [Set.disjoint_left]
    intro b hb hb'
    have hrange := Set.mem_Ico.mp hb'
    rw [Set.mem_singleton_iff.mp hb] at hrange
    unfold lfAreaDir at hrange
    omega
  index_data := by
    rw [Set.disjoint_left]
    intro b hb hb'
    have hrange := mem_indexArea hb
    have hrange' := Set.mem_Ico.mp hb'
    omega

/-! ## The index blocks -/

theorem nextIblock_lfibput {ibuff : Lfiblk} {x : Int} (h : 0 ≤ b) :
    nextIblock (lfibput disk b (ibuff.setNext x)).2 b = i32 x := by
  have hword : loadWord (lfibget (lfibput disk b (ibuff.setNext x)).2 b fun _ => 0) 0 =
      loadWord (ibuff.setNext x) 0 := by
    apply loadWord_congr
    intro i _ hi
    exact lfibget_lfibput h (show i < 72 by omega)
  unfold nextIblock Lfiblk.next
  rw [hword]
  exact Lfiblk.next_setNext ibuff x

theorem nextIblock_lfibput_of_ne {ibuff : Lfiblk} {ib : Int} (h : 0 ≤ ib) (h' : 0 ≤ b)
    (hne : ib ≠ b) : nextIblock (lfibput disk b ibuff).2 ib = nextIblock disk ib := by
  unfold nextIblock
  rw [lfibget_lfibput_of_ne h h' hne]

/-- The first `n` turns link the first `n` index blocks. -/
theorem indexLoop_links (hn : n < 0x7fffffff) (s : IndexLoop) :
    (∀ j : Nat, j < n → nextIblock (forRange 0 n IndexLoop.turn s).disk j = j + 1) ∧
      ∀ b, b ∉ indexArea n → (forRange 0 n IndexLoop.turn s).disk b = s.disk b := by
  apply forRange_inv (I := fun i (t : IndexLoop) =>
    (∀ j : Nat, j < i → nextIblock t.disk j = j + 1) ∧
      ∀ b, b ∉ indexArea n → t.disk b = s.disk b) (Nat.zero_le n)
  · exact ⟨fun j hj => absurd hj (Nat.not_lt_zero j), fun b _ => rfl⟩
  · rintro i t - hi ⟨hlinks, hsame⟩
    constructor
    · intro j hj
      by_cases hji : j = i
      · rw [hji]
        unfold IndexLoop.turn
        dsimp only
        rw [nextIblock_lfibput (by omega), i32_eq (by omega) (by omega)]
      · unfold IndexLoop.turn
        dsimp only
        rw [nextIblock_lfibput_of_ne (by omega) (by omega) (by omega)]
        exact hlinks j (by omega)
    · intro b hb
      have hne : b ≠ ib2sect i := by
        rintro rfl
        apply hb
        exact ⟨i, Set.mem_Ico.mpr (by omega), rfl⟩
      unfold IndexLoop.turn
      dsimp only
      rw [lfibput_of_ne hne]
      exact hsame b hb

theorem linkIblocks_of_not_mem (hn : lfiblks < 0x7fffffff) (hb : b ∉ indexArea lfiblks)
    (hfirst : b ≠ 1) : linkIblocks lfiblks disk b = disk b := by
  obtain ⟨n, hcount⟩ : ∃ n, (lfiblks - 1).toNat = n := ⟨_, rfl⟩
  have hloop : b ∉ indexArea n := by
    rintro ⟨ib, hib, rfl⟩
    apply hb
    rw [Set.mem_Ico] at hib
    exact ⟨ib, Set.mem_Ico.mpr (by omega), rfl⟩
  have hend : b ≠ ib2sect n := by
    rintro rfl
    by_cases hpos : 0 < lfiblks
    · apply hb
      exact ⟨n, Set.mem_Ico.mpr (by omega), rfl⟩
    · apply hfirst
      rw [ib2sect_of_nonneg (by omega)]
      omega
  unfold linkIblocks
  rw [hcount, lfibput_of_ne hend]
  exact (indexLoop_links (by omega) ⟨disk, _⟩).2 b hloop

/-- The list of the free index blocks. -/
theorem linkIblocks_lists (hpos : 0 < lfiblks) (hlt : lfiblks < 0x7fffffff) :
    Lists (nextIblock (linkIblocks lfiblks disk)) lfInull 0 (Set.Ico 0 lfiblks) := by
  obtain ⟨n, rfl⟩ : ∃ n : Nat, lfiblks = n + 1 := ⟨(lfiblks - 1).toNat, by omega⟩
  have hcount : ((n + 1 : Int) - 1).toNat = n := by omega
  have hend : (0 : Int) + (n + 1 : Nat) - 1 = n := by omega
  have hinterval : Set.Ico 0 (n + 1 : Int) = Set.Ico (0 : Int) (0 + (n + 1 : Nat)) := by
    rw [Int.zero_add]
    rfl
  rw [hinterval]
  apply lists_interval (Nat.succ_pos n) (by decide)
  · intro j hj
    unfold linkIblocks
    rw [hcount, Int.zero_add, nextIblock_lfibput_of_ne (by omega) (by omega) (by omega)]
    exact (indexLoop_links (by omega) ⟨disk, _⟩).1 j (by omega)
  · rw [hend]
    unfold linkIblocks
    rw [hcount]
    dsimp only
    rw [nextIblock_lfibput (by omega)]
    decide

/-! ## The data blocks -/

/-- The first `n` turns link `n` data blocks, which the index has passed. -/
theorem dataLoop_links (hnonneg : 0 ≤ dbindex) (hlt : dbindex + n < 0x7fffffff)
    (block : Lfdbfree) :
    (forRange 0 n (fun _ => DataLoop.turn) ⟨disk, block, dbindex⟩).dbindex = dbindex + n ∧
      (∀ j : Nat, j < n →
        nextDblock (forRange 0 n (fun _ => DataLoop.turn) ⟨disk, block, dbindex⟩).disk
          (dbindex + j) = dbindex + j + 1) ∧
      ∀ b, b ∉ Set.Ico dbindex (dbindex + n) →
        (forRange 0 n (fun _ => DataLoop.turn) ⟨disk, block, dbindex⟩).disk b = disk b := by
  apply forRange_inv (I := fun i (t : DataLoop) => t.dbindex = dbindex + i ∧
    (∀ j : Nat, j < i → nextDblock t.disk (dbindex + j) = dbindex + j + 1) ∧
      ∀ b, b ∉ Set.Ico dbindex (dbindex + n) → t.disk b = disk b) (Nat.zero_le n)
  · exact ⟨(Int.add_zero _).symm, fun j hj => absurd hj (Nat.not_lt_zero j), fun b _ => rfl⟩
  · rintro i t - hi ⟨hindex, hlinks, hsame⟩
    unfold DataLoop.turn
    dsimp only
    refine ⟨?_, ?_, ?_⟩
    · rw [hindex, i32_eq (by omega) (by omega)]
      omega
    · intro j hj
      unfold nextDblock
      by_cases hji : j = i
      · have hhere : dbindex + j = t.dbindex := by omega
        rw [hhere]
        unfold Lfdbfree.nextdb
        rw [loadWord_ramwrite (by decide)]
        exact (Lfdbfree.nextdb_setNextdb _ _).trans (i32_eq (by omega) (by omega))
      · rw [ramwrite_of_ne (by omega)]
        exact hlinks j (by omega)
    · intro b hb
      have hne : b ≠ t.dbindex := by
        rintro rfl
        apply hb
        rw [Set.mem_Ico]
        omega
      rw [ramwrite_of_ne hne]
      exact hsame b hb

theorem linkDblocks_of_not_mem (hnonneg : 0 ≤ dbindex) (hpos : 0 < dblks)
    (hlt : dbindex + dblks < 0x7fffffff) (hb : b ∉ Set.Ico dbindex (dbindex + dblks)) :
    linkDblocks dblks dbindex disk b = disk b := by
  obtain ⟨n, rfl⟩ : ∃ n, dblks = n + 1 := ⟨dblks - 1, by omega⟩
  have hcount : unsigned ((n + 1 : Nat) - 1) = n := by
    unfold unsigned
    omega
  obtain ⟨hindex, -, hsame⟩ := @dataLoop_links disk _ n hnonneg (by omega) fun _ => 0
  rw [Set.mem_Ico] at hb
  unfold linkDblocks
  rw [hcount, hindex, ramwrite_of_ne (by omega)]
  apply hsame
  rw [Set.mem_Ico]
  omega

/-- The list of the free data blocks. -/
theorem linkDblocks_lists (hnonneg : 0 ≤ dbindex) (hpos : 0 < dblks)
    (hlt : dbindex + dblks < 0x7fffffff) :
    Lists (nextDblock (linkDblocks dblks dbindex disk)) lfDnull dbindex
      (Set.Ico dbindex (dbindex + dblks)) := by
  obtain ⟨n, rfl⟩ : ∃ n, dblks = n + 1 := ⟨dblks - 1, by omega⟩
  have hcount : unsigned ((n + 1 : Nat) - 1) = n := by
    unfold unsigned
    omega
  have hend : dbindex + (n + 1 : Nat) - 1 = dbindex + n := by omega
  obtain ⟨hindex, hlinks, -⟩ := @dataLoop_links disk _ n hnonneg (by omega) fun _ => 0
  apply lists_interval hpos (by unfold lfDnull; omega)
  · intro j hj
    unfold linkDblocks nextDblock
    rw [hcount]
    dsimp only
    rw [hindex, ramwrite_of_ne (by omega)]
    exact hlinks j (by omega)
  · rw [hend]
    unfold linkDblocks nextDblock
    rw [hcount]
    dsimp only
    rw [hindex]
    unfold Lfdbfree.nextdb
    rw [loadWord_ramwrite (by decide)]
    exact Lfdbfree.nextdb_setNextdb _ _

/-! ## Any bound of the loops -/

/-- Whatever is written to the sector of the directory, the list of the free index blocks is
said to begin with index block 0. -/
theorem linkDblocks_ifree (h : (directory disk).ifree = 0) :
    (directory (linkDblocks dblks dbindex disk)).ifree = 0 := by
  have hwrite : ∀ (d : Disk) (dblock : Lfdbfree) b x, (directory d).ifree = 0 →
      Lfdir.ifree dblock = 0 →
      (directory (ramwrite d (dblock.setNextdb x) b).2).ifree = 0 ∧
        Lfdir.ifree (dblock.setNextdb x) = 0 := by
    intro d dblock b x hdisk hblock
    have hset : Lfdir.ifree (dblock.setNextdb x) = 0 := by
      unfold Lfdir.ifree at hblock ⊢
      unfold Lfdbfree.setNextdb
      rw [loadWord_storeWord_of_disjoint (by omega)]
      exact hblock
    refine ⟨?_, hset⟩
    unfold directory
    by_cases hb : lfAreaDir = b
    · rw [← hb]
      unfold Lfdir.ifree at hset ⊢
      rw [loadWord_ramwrite (by decide)]
      exact hset
    · rw [ramwrite_of_ne hb]
      exact hdisk
  have hzero : Lfdir.ifree (fun _ => 0) = 0 := by decide
  have hloop : (directory (forRange 0 (unsigned (dblks - 1)) (fun _ => DataLoop.turn)
      ⟨disk, fun _ => 0, dbindex⟩).disk).ifree = 0 ∧
        Lfdir.ifree (forRange 0 (unsigned (dblks - 1)) (fun _ => DataLoop.turn)
          ⟨disk, fun _ => 0, dbindex⟩).dblock = 0 := by
    apply forRange_inv (I := fun _ (t : DataLoop) =>
      (directory t.disk).ifree = 0 ∧ Lfdir.ifree t.dblock = 0) (Nat.zero_le _)
    · exact ⟨h, hzero⟩
    · rintro i t - - ⟨hdisk, hblock⟩
      exact hwrite _ _ _ _ hdisk hblock
  exact (hwrite _ _ _ _ hloop.1 hloop.2).1

/-- If the last index is not that of the directory, the list of the free data blocks is not
empty. -/
theorem linkDblocks_dfree (h : 0 < (directory disk).dfree)
    (hlast : lfAreaDir ≠ i32 (dbindex + unsigned (dblks - 1))) (hindex : i32 dbindex = dbindex) :
    0 < (directory (linkDblocks dblks dbindex disk)).dfree := by
  have hloop : (forRange 0 (unsigned (dblks - 1)) (fun _ => DataLoop.turn)
      ⟨disk, fun _ => 0, dbindex⟩).dbindex = i32 (dbindex + unsigned (dblks - 1)) ∧
        0 < (directory (forRange 0 (unsigned (dblks - 1)) (fun _ => DataLoop.turn)
          ⟨disk, fun _ => 0, dbindex⟩).disk).dfree := by
    apply forRange_inv (I := fun i (t : DataLoop) =>
      t.dbindex = i32 (dbindex + i) ∧ 0 < (directory t.disk).dfree) (Nat.zero_le _)
    · exact ⟨by rw [Int.natCast_zero, Int.add_zero, hindex], h⟩
    · rintro i t - - ⟨hat, hdfree⟩
      unfold DataLoop.turn
      dsimp only
      constructor
      · have hsucc : dbindex + (i + 1 : Nat) = dbindex + i + 1 := by omega
        rw [hat, hsucc]
        exact Int.bmod_add_bmod
      · unfold directory
        by_cases hb : lfAreaDir = t.dbindex
        · -- the index has come round to the sector of the directory
          rw [← hb]
          unfold Lfdir.dfree
          rw [loadWord_ramwrite (by decide)]
          have hnext := Lfdbfree.nextdb_setNextdb t.dblock (lfAreaDir + 1)
          exact lt_of_lt_of_eq (show 0 < i32 (lfAreaDir + 1) by decide) hnext.symm
        · rw [ramwrite_of_ne hb]
          exact hdfree
  unfold linkDblocks directory
  dsimp only
  rw [hloop.1, ramwrite_of_ne hlast]
  exact hloop.2

/-! ## The whole procedure -/

/-- The directory that is written. -/
def emptyDirectory (dbindex : Int) : Lfdir :=
  (Lfdir.setNfiles (fun _ => 0) 0).setDfree dbindex

theorem emptyDirectory_fields (dbindex : Int) :
    (emptyDirectory dbindex).dfree = i32 dbindex ∧ (emptyDirectory dbindex).ifree = 0 ∧
      (emptyDirectory dbindex).nfiles = 0 := by
  have hnfiles : Lfdir.nfiles (Lfdir.setNfiles (fun _ => 0) 0) = 0 := by decide
  have hifree : Lfdir.ifree (Lfdir.setNfiles (fun _ => 0) 0) = 0 := by decide
  unfold emptyDirectory Lfdir.setDfree
  refine ⟨FileSystem.i32_loadWord_storeWord _ _ _, ?_, ?_⟩
  · unfold Lfdir.ifree at hifree ⊢
    rw [loadWord_storeWord_of_disjoint (by omega)]
    exact hifree
  · unfold Lfdir.nfiles at hnfiles ⊢
    rw [loadWord_storeWord_of_disjoint (by omega)]
    exact hnfiles

theorem directory_congr {disk' : Disk} {d : Lfdir} (h : disk' lfAreaDir = disk lfAreaDir)
    (hd : ∀ i, i < lfBlksiz → directory disk i = d i) :
    (directory disk').dfree = d.dfree ∧ (directory disk').ifree = d.ifree ∧
      (directory disk').nfiles = d.nfiles := by
  have hword : ∀ a, a + 4 ≤ lfBlksiz → loadWord (directory disk') a = loadWord d a := by
    intro a ha
    apply loadWord_congr
    intro x _ hx
    exact (congrFun h x).trans (hd x (by omega))
  unfold Lfdir.dfree Lfdir.ifree Lfdir.nfiles
  rw [hword 0 (by decide), hword 4 (by decide), hword 8 (by decide)]
  exact ⟨rfl, rfl, rfl⟩

/-- What the procedure does. -/
theorem lfscreate_eq (disk : Disk) (hlo : -0x80000000 ≤ lfiblks) (hhi : lfiblks < 0x80000000)
    {dsiz : Nat} (hdsiz : dsiz < 0x100000000) :
    (-6 ≤ lfiblks ∧ ibsectors lfiblks ≤ dsiz / 512 / 2 →
        lfscreate disk lfiblks dsiz = (ok,
          linkDblocks (unsigned (dsiz / 512 - ibsectors lfiblks - 1)) (ibsectors lfiblks + 1)
            (linkIblocks (7 * ibsectors lfiblks)
              (ramwrite disk (emptyDirectory (ibsectors lfiblks + 1)) lfAreaDir).2))) ∧
      (¬ (-6 ≤ lfiblks ∧ ibsectors lfiblks ≤ dsiz / 512 / 2) →
        lfscreate disk lfiblks dsiz = (syserr, disk)) := by
  obtain ⟨k, hk⟩ : ∃ k, unsigned (lfiblks + ((ibpersector : Nat) - 1)) / ibpersector = k :=
    ⟨_, rfl⟩
  have hper : ibpersector = 7 := by decide
  have hsize : lfBlksiz = 512 := rfl
  have hvalue : k = ((lfiblks + 6) % 0x100000000).toNat / 7 := by
    rw [← hk, hper]
    unfold unsigned
    congr 3
  have hwrite : ∀ d : Lfdir, ¬ (ramwrite disk d lfAreaDir).1 = syserr := by
    intro d
    exact show ¬ ok = syserr by decide
  unfold lfscreate
  rw [hk, hper, hsize]
  clear hk hper hsize
  dsimp only
  constructor
  · rintro ⟨hlow, haccept⟩
    have hsectors : ibsectors lfiblks = k := by
      unfold ibsectors
      omega
    rw [hsectors] at haccept ⊢
    have hindex : i32 (k + 1 : Int) = k + 1 := i32_eq (by omega) (by omega)
    have hblocks : i32 ((k : Int) * (7 : Nat)) = 7 * k := by
      rw [i32_eq (by omega) (by omega)]
      omega
    rw [if_neg (by omega), if_neg (hwrite _), hindex, hblocks]
    rfl
  · intro hrefuse
    unfold ibsectors at hrefuse
    rw [if_pos (by omega)]

/-- The directory keeps its sector. -/
theorem linkIblocks_directory (hlt : 7 * k < 0x7fffffff) :
    linkIblocks (7 * k) disk lfAreaDir = disk lfAreaDir := by
  apply linkIblocks_of_not_mem hlt _ (by decide)
  intro h
  exact absurd (mem_indexArea h).1 (by decide)

/-- The disk is formatted if there is an index block and a data block. -/
theorem formatted (hk : 0 < k) (hlt : k + 1 < sectors) (hsectors : sectors ≤ 0x800000) :
    Formatted disk (linkDblocks (unsigned (sectors - k - 1)) (k + 1)
      (linkIblocks (7 * k) (ramwrite disk (emptyDirectory (k + 1)) lfAreaDir).2)) k sectors := by
  obtain ⟨n, hn⟩ : ∃ n : Nat, sectors - k - 1 = n := ⟨(sectors - k - 1).toNat, by omega⟩
  have hcount : unsigned (n : Int) = n := by
    unfold unsigned
    omega
  have hinterval : dataArea k sectors = Set.Ico (k + 1) (k + 1 + n) := by
    unfold dataArea
    congr 1
    omega
  rw [hn, hcount]
  generalize hfirst : (ramwrite disk (emptyDirectory (k + 1)) lfAreaDir).2 = first
  have hsame : ∀ d b, b ∉ dataArea k sectors → linkDblocks n (k + 1) d b = d b := by
    intro d b hb
    rw [hinterval] at hb
    exact linkDblocks_of_not_mem (by omega) (by omega) (by omega) hb
  have hdirectory : ∀ i, i < lfBlksiz → directory first i = emptyDirectory (k + 1) i := by
    intro i hi
    rw [← hfirst]
    exact ramwrite_self hi
  have harea : lfAreaDir ∉ dataArea k sectors := by
    intro h
    have hrange := Set.mem_Ico.mp h
    unfold lfAreaDir at hrange
    omega
  have hzero : linkDblocks n (k + 1) (linkIblocks (7 * k) first) lfAreaDir = first lfAreaDir := by
    rw [hsame _ _ harea]
    exact linkIblocks_directory (by omega)
  obtain ⟨hdfree, hifree, hnfiles⟩ := directory_congr hzero hdirectory
  obtain ⟨hfields, hfields', hfields''⟩ := emptyDirectory_fields (k + 1)
  constructor
  · rw [hnfiles, hfields'']
  · rw [hifree, hfields']
    apply (@linkIblocks_lists first _ (by omega) (by omega)).congr
    intro ib hib
    rw [Set.mem_Ico] at hib
    unfold nextIblock
    rw [lfibget_congr]
    apply hsame
    intro h
    have hrange := Set.mem_Ico.mp h
    rw [ib2sect_of_nonneg hib.1] at hrange
    omega
  · rw [hdfree, hfields, i32_eq (by omega) (by omega), hinterval]
    exact linkDblocks_lists (by omega) (by omega) (by omega)
  · exact areasApart (by omega) (by omega)
  · intro b hb
    rw [Set.mem_Ico] at hb
    have hdata : b ∉ dataArea k sectors := by
      intro h
      have hrange := Set.mem_Ico.mp h
      omega
    have hindex : b ∉ indexArea (7 * k) := by
      intro h
      have hrange := mem_indexArea h
      omega
    rw [hsame _ _ hdata, linkIblocks_of_not_mem (by omega) hindex (by omega), ← hfirst]
    apply ramwrite_of_ne
    unfold lfAreaDir
    omega

/-- The fields of the directory after the index blocks were linked. -/
theorem directory_linkIblocks (hlt : 7 * k < 0x7fffffff) (dbindex : Int) :
    (directory (linkIblocks (7 * k)
        (ramwrite disk (emptyDirectory dbindex) lfAreaDir).2)).dfree = i32 dbindex ∧
      (directory (linkIblocks (7 * k)
        (ramwrite disk (emptyDirectory dbindex) lfAreaDir).2)).ifree = 0 := by
  have hdirectory : ∀ i, i < lfBlksiz →
      directory (ramwrite disk (emptyDirectory dbindex) lfAreaDir).2 i =
        emptyDirectory dbindex i := by
    intro i hi
    exact ramwrite_self hi
  obtain ⟨hdfree, hifree, -⟩ := directory_congr (linkIblocks_directory hlt) hdirectory
  obtain ⟨hfields, hfields', -⟩ := emptyDirectory_fields dbindex
  rw [hdfree, hifree]
  exact ⟨hfields, hfields'⟩

/-- Without index blocks, the list of the free ones has block 0. -/
theorem not_formatted_zero :
    ¬ Formatted before (linkDblocks dblks dbindex (linkIblocks (7 * 0)
      (ramwrite disk (emptyDirectory dbindex) lfAreaDir).2)) 0 sectors := by
  intro h
  have hempty : Set.Ico 0 (7 * (0 : Int)) = ∅ := Set.Ico_self 0
  have hifree := @linkDblocks_ifree _ dbindex dblks
    (@directory_linkIblocks disk 0 (by decide) dbindex).2
  have hlist := h.iblocks
  rw [hempty, Lists.null_iff, hifree] at hlist
  exact absurd hlist (by decide)

/-- Without data blocks, the list of the free ones has others. -/
theorem not_formatted_two :
    ¬ Formatted before (linkDblocks (unsigned (2 - 1 - 1)) (1 + 1) (linkIblocks (7 * 1)
      (ramwrite disk (emptyDirectory (1 + 1)) lfAreaDir).2)) 1 2 := by
  intro h
  have hempty : dataArea 1 2 = ∅ := Set.Ico_self 2
  have hdfree := (@directory_linkIblocks disk 1 (by decide) (1 + 1)).1
  have hpos : 0 < (directory (linkIblocks (7 * 1)
      (ramwrite disk (emptyDirectory (1 + 1)) lfAreaDir).2)).dfree := by
    rw [hdfree]
    decide
  have hlist := h.dblocks
  rw [hempty, Lists.null_iff] at hlist
  have hstays := @linkDblocks_dfree _ (1 + 1) (unsigned (2 - 1 - 1)) hpos (by decide) (by decide)
  rw [hlist] at hstays
  exact absurd hstays (by decide)

section Whole

variable {dsiz : Nat} (hdsiz : dsiz < 0x100000000)
include hdsiz

/-- A number of index blocks that is rounded up to none. -/
theorem no_index_blocks (hlo : -6 ≤ lfiblks) (hhi : lfiblks ≤ 0) :
    ¬ RefusesOrFormats disk lfiblks dsiz := by
  have hk : ibsectors lfiblks = 0 := by
    unfold ibsectors
    omega
  obtain ⟨haccept, -⟩ := lfscreate_eq disk (show -0x80000000 ≤ lfiblks by omega) (by omega) hdsiz
  have hok : ¬ ok = syserr := by decide
  unfold RefusesOrFormats
  rw [haccept (by omega), hk]
  simp only [hok, false_or, true_and]
  exact not_formatted_zero

/-- A disk on which no sector is left for data. -/
theorem no_data_blocks (hlo : 1 ≤ lfiblks) (hhi : lfiblks ≤ 7) (hsectors : dsiz / 512 = 2) :
    ¬ RefusesOrFormats disk lfiblks dsiz := by
  have hk : ibsectors lfiblks = 1 := by
    unfold ibsectors
    omega
  have hcast : (dsiz : Int) / 512 = 2 := by omega
  obtain ⟨haccept, -⟩ := lfscreate_eq disk (show -0x80000000 ≤ lfiblks by omega) (by omega) hdsiz
  have hok : ¬ ok = syserr := by decide
  unfold RefusesOrFormats
  rw [haccept (by omega), hk, hcast]
  simp only [hok, false_or, true_and]
  exact not_formatted_two

/-- A disk is refused or formatted, unless no index block or no data block is left: the list
of the index blocks always begins with block 0, and the count of the data blocks wraps. -/
theorem lfscreate_formats (disk : Disk) (hlo : -0x80000000 ≤ lfiblks)
    (hhi : lfiblks < 0x80000000) :
    RefusesOrFormats disk lfiblks dsiz ↔
      lfiblks ≤ -7 ∨ 1 ≤ lfiblks ∧ ¬ (dsiz / 512 = 2 ∧ lfiblks ≤ 7) := by
  constructor
  · intro h
    by_contra hcondition
    by_cases hnone : lfiblks ≤ 0
    · exact no_index_blocks hdsiz (by omega) hnone h
    · exact no_data_blocks hdsiz (by omega) (by omega) (by omega) h
  · intro hcondition
    obtain ⟨haccept, hrefuse⟩ := lfscreate_eq disk hlo hhi hdsiz
    unfold RefusesOrFormats
    by_cases h : -6 ≤ lfiblks ∧ ibsectors lfiblks ≤ dsiz / 512 / 2
    · right
      rw [haccept h]
      refine ⟨rfl, ?_⟩
      unfold ibsectors at h ⊢
      apply formatted <;> omega
    · left
      rw [hrefuse h]

end Whole

/-- Twenty index blocks on the ram disk. -/
theorem formats_ramdisk : RefusesOrFormats (fun _ _ => 0) 20 102400 :=
  (lfscreate_formats (by decide) _ (by decide) (by decide)).mpr (by decide)

/-- A disk without index blocks, and one without data blocks. -/
theorem nothing_left : ¬ RefusesOrFormats (fun _ _ => 0) 0 102400 ∧
    ¬ RefusesOrFormats (fun _ _ => 0) 1 1024 :=
  ⟨no_index_blocks (by decide) (by decide) (by decide),
    no_data_blocks (by decide) (by decide) (by decide) (by decide)⟩

end Format

end Lfs
end Xinu
