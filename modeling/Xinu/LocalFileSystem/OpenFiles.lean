import Xinu.Foundations.Endings
import Xinu.LocalFileSystem.State

/-!
# The local file system: open files

The directory and a control block for each open file are kept in memory.  A control block has
a copy of one index block and of one data block of its file; a copy that has been changed is
written to the disk before another block takes its place.

Main results:

- Theorem `Lf.writeDir_directory`: the directory is on the disk as it was written.
-/

namespace Xinu
namespace Lfs

open Foundations Function
open FileSystem (CString unsigned memcpy)

def lfNameLen : Nat := 16

def lfNumDirEnt : Int := 20

def lfIdata : Nat := 8192

def lfImask : Nat := 0x1fff

def lfDmask : Nat := 0x1ff

def eof : Int := -2

/-! ## Fields of the structures -/

namespace Lfiblk

variable (b : Lfiblk)

def offset : Nat := loadWord b 4

def dba (i : Nat) : Int := i32 (loadWord b (8 + 4 * i))

end Lfiblk

namespace Lfdir

variable (d : Lfdir) (i : Nat)

/-- Where entry `i` begins: the words `ld_size` and `ld_ilist`, and the name. -/
def entry : Nat := 12 + 24 * i

def ldSize : Nat := loadWord d (entry i)

def ldIlist : Int := i32 (loadWord d (entry i + 4))

def ldName : Chars := fun k => d (entry i + 8 + k)

def setIfree (x : Int) : Lfdir := storeWord d 4 (unsigned x)

def setLdSize (x : Nat) : Lfdir := storeWord d (entry i) x

def setLdIlist (x : Int) : Lfdir := storeWord d (entry i + 4) (unsigned x)

/-- Copy a name with its null byte. -/
def setLdName (name : CString) : Lfdir :=
  copyChars (name.1.length + 1) (chars name.1) (entry i + 8) d

end Lfdir

/-! ## The state -/

inductive LfStatus
  | free
  | used
deriving DecidableEq, Repr

/-- Control block of a local file; `lfdirptr` is the number of the directory entry, and
`lfbyte` is the place in `lfdblock`. -/
structure Lflcblk where
  lfstate : LfStatus
  lfdev : Int
  lfdirptr : Nat
  lfmode : Nat
  lfpos : Nat
  lfname : Chars
  lfinum : Int
  lfiblock : Lfiblk
  lfdnum : Int
  lfdblock : Chars
  lfbyte : Nat
  lfibdirty : Bool
  lfdbdirty : Bool

/-- The disk, `Lf_data` and the table of the control blocks.  `stack` is what the calls of
`lfdbfree` find in their local variable. -/
structure Lf (nlfl : Nat) where
  disk : Disk
  lfDir : Lfdir
  lfDirpresent : Bool
  lfDirdirty : Bool
  lfltab : Fin nlfl → Lflcblk
  stack : Nat → Chars

variable {nlfl : Nat}

namespace Lf

/-- Change a control block. -/
def setCblk (fd : Fin nlfl) (f : Lflcblk → Lflcblk) (s : Lf nlfl) : Lf nlfl :=
  { s with lfltab := update s.lfltab fd (f (s.lfltab fd)) }

/-- Write the directory, which is clean then. -/
def writeDir (s : Lf nlfl) : Lf nlfl :=
  { s with disk := (ramwrite s.disk s.lfDir lfAreaDir).2, lfDirdirty := false }

/-- Write the data block of a control block, which is clean then. -/
def writeDblock (fd : Fin nlfl) (s : Lf nlfl) : Lf nlfl :=
  let c := s.lfltab fd
  ({ s with disk := (ramwrite s.disk c.lfdblock c.lfdnum).2 }).setCblk fd fun c =>
    { c with lfdbdirty := false }

/-- Write the index block of a control block, which is clean then. -/
def writeIblock (fd : Fin nlfl) (s : Lf nlfl) : Lf nlfl :=
  let c := s.lfltab fd
  ({ s with disk := (lfibput s.disk c.lfinum c.lfiblock).2 }).setCblk fd fun c =>
    { c with lfibdirty := false }

section Fields

variable {fd fd' : Fin nlfl} {f : Lflcblk → Lflcblk} {s : Lf nlfl}

@[simp]
theorem setCblk_self : (s.setCblk fd f).lfltab fd = f (s.lfltab fd) :=
  update_self _ _ _

theorem setCblk_of_ne (h : fd' ≠ fd) : (s.setCblk fd f).lfltab fd' = s.lfltab fd' :=
  update_of_ne h _ _

@[simp]
theorem setCblk_disk : (s.setCblk fd f).disk = s.disk :=
  rfl

@[simp]
theorem setCblk_lfDir : (s.setCblk fd f).lfDir = s.lfDir :=
  rfl

@[simp]
theorem setCblk_lfDirpresent : (s.setCblk fd f).lfDirpresent = s.lfDirpresent :=
  rfl

@[simp]
theorem setCblk_lfDirdirty : (s.setCblk fd f).lfDirdirty = s.lfDirdirty :=
  rfl

@[simp]
theorem writeDir_lfltab : s.writeDir.lfltab = s.lfltab :=
  rfl

@[simp]
theorem writeDir_lfDir : s.writeDir.lfDir = s.lfDir :=
  rfl

@[simp]
theorem writeDir_lfDirpresent : s.writeDir.lfDirpresent = s.lfDirpresent :=
  rfl

@[simp]
theorem writeDir_lfDirdirty : s.writeDir.lfDirdirty = false :=
  rfl

theorem writeDir_disk_of_ne {b : Int} (h : b ≠ lfAreaDir) : s.writeDir.disk b = s.disk b :=
  ramwrite_of_ne h

/-- The directory on the disk is the one that was written. -/
theorem writeDir_directory {a : Nat} (h : a < lfBlksiz) :
    s.writeDir.disk lfAreaDir a = s.lfDir a :=
  @ramwrite_self s.disk s.lfDir lfAreaDir a h

end Fields

end Lf

/-! ## Blocks -/

/-- Take an index block from the list of the free ones. -/
def lfiballoc (s : Lf nlfl) : Ending (Int × Lf nlfl) :=
  let ibnum := s.lfDir.ifree
  if ibnum = lfInull then
    .panics "out of index blocks"
  else
    let iblock := lfibget s.disk ibnum fun _ => 0
    .returns (ibnum, ({ s with lfDir := s.lfDir.setIfree iblock.next }).writeDir)

/-- `DFILL` -/
def dfill : UInt8 := '+'.toUInt8

/-- `memset(b, ch, n)` -/
def memset (b : Chars) (ch : UInt8) (n : Nat) : Chars :=
  memcpy b (fun _ => ch) n

/-- Take a data block from the list of the free ones, and fill `dbuff`. -/
def lfdballoc (dbuff : Lfdbfree) (s : Lf nlfl) : Ending (Int × Chars × Lf nlfl) :=
  let dnum := s.lfDir.dfree
  if dnum = lfDnull then
    .panics "out of data blocks"
  else
    let r := ramread s.disk dbuff dnum
    if r.1 = syserr then
      .panics "lfdballoc cannot read disk block\n\x0d"
    else
      .returns (dnum, memset r.2 dfill lfBlksiz,
        ({ s with lfDir := s.lfDir.setDfree (Lfdbfree.nextdb r.2) }).writeDir)

/-- Put a data block on the list of the free ones. -/
def lfdbfree (dnum : Int) (s : Lf nlfl) : Lf nlfl :=
  let buf := Lfdbfree.setNextdb (s.stack 0) s.lfDir.dfree
  let s := { s with lfDir := s.lfDir.setDfree dnum, stack := fun k => s.stack (k + 1) }
  let s := { s with disk := (ramwrite s.disk buf dnum).2 }
  { s with disk := (ramwrite s.disk s.lfDir lfAreaDir).2 }

/-- Write what has changed to the disk. -/
def lfflush (fd : Fin nlfl) (s : Lf nlfl) : Int × Lf nlfl :=
  if (s.lfltab fd).lfstate = .free then
    (syserr, s)
  else
    let s := if s.lfDirdirty then s.writeDir else s
    let s := if (s.lfltab fd).lfdbdirty then s.writeDblock fd else s
    let s := if (s.lfltab fd).lfibdirty then s.writeIblock fd else s
    (ok, s)

/-! ## Setting up the blocks for a position -/

/-- Bring the index block into memory from which the search starts. -/
def firstIblock (fd : Fin nlfl) (s : Lf nlfl) : Ending (Lf nlfl) := do
  let c := s.lfltab fd
  let ilist := s.lfDir.ldIlist c.lfdirptr
  if c.lfinum = lfInull then
    if ilist = lfInull then
      let (ibnum, s) ← lfiballoc s
      let s := { s with lfDir := s.lfDir.setLdIlist c.lfdirptr ibnum }
      pure (s.setCblk fd fun c =>
        { c with lfiblock := lfibclear c.lfiblock 0, lfibdirty := true, lfinum := ibnum })
    else
      pure (s.setCblk fd fun c =>
        { c with lfiblock := lfibget s.disk ilist c.lfiblock, lfinum := ilist })
  else if c.lfpos < c.lfiblock.offset then
    pure (s.setCblk fd fun c =>
      { c with lfiblock := lfibget s.disk ilist c.lfiblock, lfinum := ilist })
  else
    pure s

/-- Does the index block lie before the position? -/
def isBehind (fd : Fin nlfl) (s : Lf nlfl) : Bool :=
  let c := s.lfltab fd
  -- `lfpos & ~LF_IMASK`
  c.lfiblock.offset < c.lfpos - (c.lfpos &&& lfImask)

/-- Link the index block to a new one, which takes its place in memory. -/
def extendIblock (fd : Fin nlfl) (ibnum : Int) (s : Lf nlfl) : Lf nlfl :=
  let s := s.setCblk fd fun c => { c with lfiblock := c.lfiblock.setNext ibnum }
  let c := s.lfltab fd
  let s := { s with disk := (lfibput s.disk c.lfinum c.lfiblock).2 }
  let newoffset := c.lfiblock.offset + lfIdata
  s.setCblk fd fun c =>
    { c with
      lfinum := ibnum
      lfiblock := lfibclear c.lfiblock newoffset
      lfibdirty := true
      lfdnum := lfDnull }

/-- Go on to the next index block, which is added where the list ends. -/
def followIblock (fd : Fin nlfl) (s : Lf nlfl) : Ending (Lf nlfl) := do
  let ibnum := (s.lfltab fd).lfiblock.next
  if ibnum = lfInull then
    let (ibnum, s) ← lfiballoc s
    pure (extendIblock fd ibnum s)
  else
    pure (s.setCblk fd fun c =>
      { c with
        lfiblock := lfibget s.disk ibnum c.lfiblock
        lfinum := ibnum
        lfdnum := lfDnull })

/-- Bring the data block for the position into memory. -/
def loadDblock (fd : Fin nlfl) (s : Lf nlfl) : Ending (Lf nlfl) := do
  let c := s.lfltab fd
  let dindex := (c.lfpos &&& lfImask) >>> 9
  let dnum := c.lfiblock.dba dindex
  if dnum = lfDnull then
    let (dnum, dblock, s) ← lfdballoc c.lfdblock s
    pure (s.setCblk fd fun c =>
      { c with
        lfdblock := dblock
        lfiblock := c.lfiblock.setDba dnum dindex
        lfibdirty := true
        lfdnum := dnum })
  else if dnum ≠ c.lfdnum then
    pure (s.setCblk fd fun c =>
      { c with
        lfdblock := (ramread s.disk c.lfdblock dnum).2
        lfdbdirty := false
        lfdnum := dnum })
  else
    pure s

/-- Bring the blocks for the position into memory; a loop makes fewer than `n` turns. -/
def lfsetup (n : Nat) (fd : Fin nlfl) (s : Lf nlfl) : Ending (Lf nlfl) := do
  let c := s.lfltab fd
  let s := if c.lfibdirty || c.lfdbdirty then (lfflush fd s).2 else s
  let s ← firstIblock fd s
  let s ← whileDo (isBehind fd) (followIblock fd) n s
  let s ← loadDblock fd s
  pure (s.setCblk fd fun c => { c with lfbyte := c.lfpos &&& lfDmask })

/-! ## Reading and writing -/

/-- Write a byte. -/
def lflputc (n : Nat) (fd : Fin nlfl) (ch : UInt8) (s : Lf nlfl) : Ending (Int × Lf nlfl) := do
  let c := s.lfltab fd
  if c.lfstate ≠ .used then
    pure (syserr, s)
  else if c.lfpos > s.lfDir.ldSize c.lfdirptr then
    pure (syserr, s)
  else
    let s ← (if c.lfbyte ≥ lfBlksiz then lfsetup n fd s else pure s)
    let s :=
      if c.lfpos ≥ s.lfDir.ldSize c.lfdirptr then
        { s with
          lfDir := s.lfDir.setLdSize c.lfdirptr (s.lfDir.ldSize c.lfdirptr + 1)
          lfDirdirty := true }
      else s
    pure (ok, s.setCblk fd fun c =>
      { c with
        lfdblock := update c.lfdblock c.lfbyte ch
        lfbyte := c.lfbyte + 1
        lfpos := (c.lfpos + 1) % 0x100000000
        lfdbdirty := true })

/-- Read a byte. -/
def lflgetc (n : Nat) (fd : Fin nlfl) (s : Lf nlfl) : Ending (Int × Lf nlfl) := do
  let c := s.lfltab fd
  if c.lfstate ≠ .used then
    pure (syserr, s)
  else if c.lfpos ≥ s.lfDir.ldSize c.lfdirptr then
    pure (eof, s)
  else
    let s ← (if c.lfbyte ≥ lfBlksiz then lfsetup n fd s else pure s)
    let c := s.lfltab fd
    let onebyte := (c.lfdblock c.lfbyte).toNat
    pure (onebyte, s.setCblk fd fun c =>
      { c with lfbyte := c.lfbyte + 1, lfpos := (c.lfpos + 1) % 0x100000000 })

/-- Move to a position. -/
def lflseek (fd : Fin nlfl) (offset : Nat) (s : Lf nlfl) : Int × Lf nlfl :=
  let c := s.lfltab fd
  if c.lfstate ≠ .used then
    (syserr, s)
  else if offset > s.lfDir.ldSize c.lfdirptr then
    (syserr, s)
  else
    (ok, s.setCblk fd fun c => { c with lfpos := offset, lfbyte := lfBlksiz })

/-- The loop of `lflread`, with `left` bytes to go; `buff` is what was read. -/
def lflreadLoop (n : Nat) (fd : Fin nlfl) :
    Nat → List UInt8 → Lf nlfl → Ending (Int × List UInt8 × Lf nlfl)
  | 0, buff, s => pure (buff.length, buff, s)
  | left + 1, buff, s => do
      let (nxtbyte, s) ← lflgetc n fd s
      if nxtbyte = syserr then
        pure (syserr, buff, s)
      else if nxtbyte = eof then
        if buff.length = 0 then pure (eof, buff, s) else pure (buff.length, buff, s)
      else
        lflreadLoop n fd left (buff ++ [UInt8.ofNat nxtbyte.toNat]) s

/-- Read up to `count` bytes. -/
def lflread (n : Nat) (fd : Fin nlfl) (count : Int) (s : Lf nlfl) :
    Ending (Int × List UInt8 × Lf nlfl) :=
  if count < 0 then pure (syserr, [], s) else lflreadLoop n fd count.toNat [] s

/-- The loop of `lflwrite`. -/
def lflwriteLoop (n : Nat) (fd : Fin nlfl) (count : Int) :
    List UInt8 → Lf nlfl → Ending (Int × Lf nlfl)
  | [], s => pure (count, s)
  | ch :: buff, s => do
      let (r, s) ← lflputc n fd ch s
      if r = syserr then pure (syserr, s) else lflwriteLoop n fd count buff s

/-- Write the first `count` bytes of `buff`. -/
def lflwrite (n : Nat) (fd : Fin nlfl) (buff : Chars) (count : Int) (s : Lf nlfl) :
    Ending (Int × Lf nlfl) :=
  if count < 0 then
    pure (syserr, s)
  else
    lflwriteLoop n fd count ((List.range count.toNat).map buff) s

/-! ## Truncation -/

/-- Free one data block of an index block, and clear its entry. -/
def freeDblock (i : Nat) (t : Lfiblk × Lf nlfl) : Lfiblk × Lf nlfl :=
  let nextdb := t.1.dba i
  let s := if nextdb ≠ lfDnull then lfdbfree nextdb t.2 else t.2
  (t.1.setDba lfDnull i, s)

/-- Free the data blocks of index block `nextib`. -/
def freeDblocks (nextib : Int) (s : Lf nlfl) : Lfiblk × Lf nlfl :=
  forRange 0 lfIblen freeDblock (lfibget s.disk nextib fun _ => 0, s)

/-- Write the cleared index block `nextib`; the last one is linked to the free list. -/
def writeCleared (ifree nextib : Int) (r : Lfiblk × Lf nlfl) : Int × Lf nlfl :=
  let iblock := r.1.setOffset 0
  let iblock := if iblock.next = lfInull then iblock.setNext ifree else iblock
  (iblock.next, { r.2 with disk := (lfibput r.2.disk nextib iblock).2 })

/-- A turn of the loop over the index blocks. -/
def freeIblock (ifree : Int) (t : Int × Lf nlfl) : Int × Lf nlfl :=
  writeCleared ifree t.1 (freeDblocks t.1 t.2)

/-- Free the blocks of a file. -/
def lftruncate (n : Nat) (fd : Fin nlfl) (s : Lf nlfl) : Ending (Int × Lf nlfl) := do
  let i := (s.lfltab fd).lfdirptr
  if s.lfDir.ldSize i = 0 then
    pure (ok, s)
  else
    let c := s.lfltab fd
    let s := if c.lfibdirty || c.lfdbdirty then (lfflush fd s).2 else s
    let s := s.setCblk fd fun c =>
      { c with lfpos := 0, lfinum := lfInull, lfdnum := lfDnull, lfbyte := lfBlksiz }
    let ifree := s.lfDir.ifree
    let firstib := s.lfDir.ldIlist i
    let s := { s with
      lfDir := (s.lfDir.setLdIlist i lfInull).setLdSize i 0
      lfDirdirty := true }
    let (_, s) ← whileDo (fun t : Int × Lf nlfl => decide (t.1 ≠ ifree))
      (fun t => pure (freeIblock ifree t)) n (firstib, s)
    pure (ok, { s with lfDir := s.lfDir.setIfree firstib, lfDirdirty := true })

def lfCtlTrunc : Int := 2

/-- Control functions. -/
def lflcontrol (n : Nat) (fd : Fin nlfl) (func : Int) (s : Lf nlfl) : Ending (Int × Lf nlfl) :=
  if (s.lfltab fd).lfstate ≠ .used then
    pure (syserr, s)
  else if func = lfCtlTrunc then
    lftruncate n fd s
  else
    -- the function is reported on the console
    pure (syserr, s)

/-! ## Opening and closing -/

def lfModeR : Nat := 0x01

def lfModeW : Nat := 0x02

def lfModeRw : Nat := 0x03

def lfModeN : Nat := 0x04

def lfModeO : Nat := 0x08

def chR : UInt8 := 'r'.toUInt8

def chW : UInt8 := 'w'.toUInt8

def chO : UInt8 := 'o'.toUInt8

def chN : UInt8 := 'n'.toUInt8

/-- The loop of `lfgetmode`; there is no result for `SYSERR`. -/
def lfgetmodeLoop : List UInt8 → Nat → Option Nat
  | [], mbits => some mbits
  | ch :: mode, mbits =>
      if ch = chR then
        if mbits &&& lfModeR ≠ 0 then none else lfgetmodeLoop mode (mbits ||| lfModeR)
      else if ch = chW then
        if mbits &&& lfModeW ≠ 0 then none else lfgetmodeLoop mode (mbits ||| lfModeW)
      else if ch = chO then
        if mbits &&& lfModeO ≠ 0 ∨ mbits &&& lfModeN ≠ 0 then none
        else lfgetmodeLoop mode (mbits ||| lfModeO)
      else if ch = chN then
        if mbits &&& lfModeO ≠ 0 ∨ mbits &&& lfModeN ≠ 0 then none
        else lfgetmodeLoop mode (mbits ||| lfModeN)
      else none

/-- The bits of a mode string. -/
def lfgetmode (mode : CString) : Option Nat :=
  (lfgetmodeLoop mode.1 0).map fun mbits =>
    if mbits &&& lfModeRw = 0 then mbits ||| lfModeRw else mbits

/-- Compare a name to the one at `cmp`. -/
def sameName : List UInt8 → Chars → Bool
  | [], cmp => cmp 0 = 0
  | c :: nam, cmp => if c ≠ cmp 0 then false else sameName nam fun i => cmp (i + 1)

/-- Search the control blocks for a free one; there is no result if the file is open. -/
def searchLfltab (name : CString) (s : Lf nlfl) :
    List (Fin nlfl) → Option (Fin nlfl) → Option (Option (Fin nlfl))
  | [], lfnext => some lfnext
  | i :: rest, lfnext =>
      if (s.lfltab i).lfstate = .free then
        searchLfltab name s rest (if lfnext = none then some i else lfnext)
      else if sameName name.1 (s.lfltab i).lfname then none
      else searchLfltab name s rest lfnext

/-- Search the directory for a name. -/
def findEntry (name : CString) (dir : Lfdir) : Option Nat :=
  (List.range dir.nfiles.toNat).find? fun i => sameName name.1 (dir.ldName i)

/-- Add an empty file to the directory. -/
def addEntry (name : CString) (dir : Lfdir) : Lfdir :=
  let i := dir.nfiles.toNat
  let dir := dir.setNfiles (dir.nfiles + 1)
  let dir := dir.setLdSize i 0
  let dir := dir.setLdName i name
  dir.setLdIlist i lfInull

/-- Initialise a control block for the file with directory entry `i`. -/
def openCblk (i mbits : Nat) (name : CString) (c : Lflcblk) : Lflcblk :=
  { c with
    lfstate := .used
    lfdirptr := i
    lfmode := mbits &&& lfModeRw
    lfpos := 0
    lfname := copyChars (name.1.length + 1) (chars name.1) 0 c.lfname
    lfinum := lfInull
    lfdnum := lfDnull
    lfbyte := lfBlksiz
    lfibdirty := false
    lfdbdirty := false }

/-- Open the entry that was found; if there is none, a new file is added to the directory. -/
def openEntry (name : CString) (mbits : Nat) (lfnext : Fin nlfl) (s : Lf nlfl) :
    Option Nat → Int × Lf nlfl
  | none =>
      if mbits &&& lfModeO ≠ 0 then
        (syserr, s)
      else if s.lfDir.nfiles ≥ lfNumDirEnt then
        (syserr, s)
      else
        let i := s.lfDir.nfiles.toNat
        let s := { s with lfDir := addEntry name s.lfDir }
        ((s.lfltab lfnext).lfdev, s.setCblk lfnext (openCblk i mbits name))
  | some i =>
      if mbits &&& lfModeN ≠ 0 then
        (syserr, s)
      else
        ((s.lfltab lfnext).lfdev, s.setCblk lfnext (openCblk i mbits name))

/-- Open a file. -/
def lfsopen (name mode : CString) (s : Lf nlfl) : Int × Lf nlfl :=
  if lfNameLen ≤ name.1.length then
    (syserr, s)
  else
    match lfgetmode mode with
    | none => (syserr, s)
    | some mbits =>
        match searchLfltab name s (List.finRange nlfl) none with
        | none => (syserr, s)
        | some none => (syserr, s)
        | some (some lfnext) =>
            let r := if s.lfDirpresent then (ok, s.lfDir) else ramread s.disk s.lfDir lfAreaDir
            if r.1 = syserr then
              (syserr, s)
            else
              let s := { s with lfDir := r.2, lfDirpresent := true }
              openEntry name mbits lfnext s (findEntry name s.lfDir)

/-- Close a file. -/
def lflclose (fd : Fin nlfl) (s : Lf nlfl) : Int × Lf nlfl :=
  let c := s.lfltab fd
  if c.lfstate ≠ .used then
    (syserr, s)
  else
    let s := if s.lfDirdirty || c.lfdbdirty || c.lfibdirty then (lfflush fd s).2 else s
    (ok, s.setCblk fd fun c => { c with lfstate := .free })

/-! ## Initialisation -/

/-- Initialise the directory, which is not read yet. -/
def lfsinit (s : Lf nlfl) : Lf nlfl :=
  { s with lfDir := memset s.lfDir 0 lfBlksiz, lfDirpresent := false, lfDirdirty := false }

/-- Initialise the control block of device `dvnum`. -/
def lflinit (dvnum : Int) (fd : Fin nlfl) (s : Lf nlfl) : Lf nlfl :=
  s.setCblk fd fun c =>
    { c with
      lfstate := .free
      lfdev := dvnum
      lfdirptr := 0
      lfpos := 0
      lfname := memset c.lfname 0 lfNameLen
      lfinum := lfInull
      lfiblock := memset c.lfiblock 0 lfiblkSize
      lfdnum := 0
      lfdblock := memset c.lfdblock 0 lfBlksiz
      lfbyte := lfBlksiz
      lfibdirty := false
      lfdbdirty := false }

/-- Start the system: the master device comes before the others, whose numbers are `dvnum`. -/
def lfstart (dvnum : Fin nlfl → Int) (s : Lf nlfl) : Lf nlfl :=
  (List.finRange nlfl).foldl (fun s fd => lflinit (dvnum fd) fd s) (lfsinit s)

end Lfs
end Xinu
