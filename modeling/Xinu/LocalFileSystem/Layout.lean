import Xinu.Foundations.SharedBlocks
import Xinu.LocalFileSystem.Format
import Xinu.LocalFileSystem.OpenFiles

/-!
# The local file system: where files lie

A file has a list of index blocks and a list of data blocks.  The blocks lie on the disk,
except that the control block of an open file may have newer copies of one index block and of
one data block.  No block belongs to two files, or to a file and to a list of free blocks.

Main results:

- Theorem `Laid.set`: a step that changes one file and takes or frees blocks.
- Theorem `Laid.setCblk`: a step that only changes the control block of a file.
-/

namespace Xinu
namespace Lfs

open Foundations Function
open FileSystem (CString unsigned memcpy i32_loadWord_storeWord)

variable {nlfl : Nat}

/-! ## Fields -/

section Fields

variable {d d' : Lfdir} {b b' : Lfiblk} {i j n : Nat} {x : Int} {name : CString}

theorem unsigned_natCast (h : n < 0x100000000) : unsigned (n : Int) = n := by
  unfold unsigned
  omega

/-- The words of the directory before the entries. -/
theorem Lfdir.congr (h : ∀ a, a < 12 → d' a = d a) :
    d'.dfree = d.dfree ∧ d'.ifree = d.ifree ∧ d'.nfiles = d.nfiles := by
  have hword : ∀ a, a + 4 ≤ 12 → loadWord d' a = loadWord d a := by
    intro a ha
    apply loadWord_congr
    intro c _ hc
    exact h c (by omega)
  unfold Lfdir.dfree Lfdir.ifree Lfdir.nfiles
  rw [hword 0 (by omega), hword 4 (by omega), hword 8 (by omega)]
  exact ⟨rfl, rfl, rfl⟩

@[simp]
theorem Lfdir.ifree_setIfree : (d.setIfree x).ifree = i32 x :=
  i32_loadWord_storeWord d 4 x

@[simp]
theorem Lfdir.dfree_setDfree : (d.setDfree x).dfree = i32 x :=
  i32_loadWord_storeWord d 0 x

@[simp]
theorem Lfdir.nfiles_setNfiles : (d.setNfiles x).nfiles = i32 x :=
  i32_loadWord_storeWord d 8 x

@[simp]
theorem Lfdir.dfree_setIfree : (d.setIfree x).dfree = d.dfree :=
  congrArg (fun w : Nat => i32 w) (loadWord_storeWord_of_disjoint (by omega))

@[simp]
theorem Lfdir.nfiles_setIfree : (d.setIfree x).nfiles = d.nfiles :=
  congrArg (fun w : Nat => i32 w) (loadWord_storeWord_of_disjoint (by omega))

@[simp]
theorem Lfdir.ifree_setDfree : (d.setDfree x).ifree = d.ifree :=
  congrArg (fun w : Nat => i32 w) (loadWord_storeWord_of_disjoint (by omega))

@[simp]
theorem Lfdir.nfiles_setDfree : (d.setDfree x).nfiles = d.nfiles :=
  congrArg (fun w : Nat => i32 w) (loadWord_storeWord_of_disjoint (by omega))

@[simp]
theorem Lfdir.dfree_setNfiles : (d.setNfiles x).dfree = d.dfree :=
  congrArg (fun w : Nat => i32 w) (loadWord_storeWord_of_disjoint (by omega))

@[simp]
theorem Lfdir.ifree_setNfiles : (d.setNfiles x).ifree = d.ifree :=
  congrArg (fun w : Nat => i32 w) (loadWord_storeWord_of_disjoint (by omega))

/-- The entries lie behind the words. -/
theorem Lfdir.setIfree_outside {a : Nat} (h : 12 ≤ a) : d.setIfree x a = d a :=
  storeWord_outside (by omega)

theorem Lfdir.setDfree_outside {a : Nat} (h : 12 ≤ a) : d.setDfree x a = d a :=
  storeWord_outside (by omega)

theorem Lfdir.setNfiles_outside {a : Nat} (h : 12 ≤ a) : d.setNfiles x a = d a :=
  storeWord_outside (by omega)

theorem Lfdir.setLdIlist_outside {a : Nat} (h : a < entry i + 4 ∨ entry i + 8 ≤ a) :
    d.setLdIlist i x a = d a :=
  storeWord_outside h

theorem Lfdir.setLdSize_outside {a : Nat} (h : a < entry i ∨ entry i + 4 ≤ a) :
    d.setLdSize i n a = d a :=
  storeWord_outside h

@[simp]
theorem Lfdir.ldIlist_setLdIlist : (d.setLdIlist i x).ldIlist i = i32 x :=
  i32_loadWord_storeWord d _ x

@[simp]
theorem Lfdir.ldSize_setLdIlist : (d.setLdIlist i x).ldSize i = d.ldSize i :=
  loadWord_storeWord_of_disjoint (by omega)

theorem Lfdir.ldName_setLdIlist : (d.setLdIlist i x).ldName i = d.ldName i := by
  funext a
  exact setLdIlist_outside (by omega)

theorem Lfdir.ldSize_setLdSize (h : n < 0x100000000) : (d.setLdSize i n).ldSize i = n :=
  loadWord_storeWord d h

@[simp]
theorem Lfdir.ldIlist_setLdSize : (d.setLdSize i n).ldIlist i = d.ldIlist i :=
  congrArg (fun w : Nat => i32 w) (loadWord_storeWord_of_disjoint (by omega))

theorem Lfdir.ldName_setLdSize : (d.setLdSize i n).ldName i = d.ldName i := by
  funext a
  exact setLdSize_outside (by omega)

/-- The name is copied to the end of the entry. -/
theorem Lfdir.setLdName_outside {a : Nat}
    (h : a < entry i + 8 ∨ entry i + 8 + (name.1.length + 1) ≤ a) : d.setLdName i name a = d a :=
  copyChars_outside h

theorem Lfdir.ldName_setLdName : Spells ((d.setLdName i name).ldName i) name.1 := by
  apply (spells_chars name.2).congr
  intro a ha
  exact copyChars_inside (Nat.lt_succ_of_le ha)

/-- The entries lie behind the words of the directory. -/
theorem Lfdir.le_entry (i : Nat) : 12 ≤ entry i := by
  unfold entry
  omega

/-- Different entries do not overlap. -/
theorem Lfdir.entry_disjoint (h : j ≠ i) : entry j + 24 ≤ entry i ∨ entry i + 24 ≤ entry j := by
  unfold entry
  omega

/-- An index block is read from its bytes. -/
theorem Lfiblk.congr (h : ∀ a, a < lfiblkSize → b' a = b a) :
    b'.next = b.next ∧ b'.offset = b.offset ∧ ∀ t, t < 16 → b'.dba t = b.dba t := by
  have hword : ∀ a, a + 4 ≤ 72 → loadWord b' a = loadWord b a := by
    intro a ha
    apply loadWord_congr
    intro c _ hc
    exact h c (show c < 72 by omega)
  unfold Lfiblk.next Lfiblk.offset Lfiblk.dba
  refine ⟨?_, hword 4 (by omega), ?_⟩
  · rw [hword 0 (by omega)]
  · intro t ht
    rw [hword _ (by omega)]

@[simp]
theorem Lfiblk.dba_setDba : (b.setDba x i).dba i = i32 x :=
  i32_loadWord_storeWord b _ x

theorem Lfiblk.dba_setDba_of_ne (h : j ≠ i) : (b.setDba x i).dba j = b.dba j :=
  congrArg (fun w : Nat => i32 w) (loadWord_storeWord_of_disjoint (by omega))

@[simp]
theorem Lfiblk.next_setDba : (b.setDba x i).next = b.next :=
  congrArg (fun w : Nat => i32 w) (loadWord_storeWord_of_disjoint (by omega))

@[simp]
theorem Lfiblk.offset_setDba : (b.setDba x i).offset = b.offset :=
  loadWord_storeWord_of_disjoint (by omega)

@[simp]
theorem Lfiblk.offset_setNext : (b.setNext x).offset = b.offset :=
  loadWord_storeWord_of_disjoint (by omega)

@[simp]
theorem Lfiblk.dba_setNext : (b.setNext x).dba i = b.dba i :=
  congrArg (fun w : Nat => i32 w) (loadWord_storeWord_of_disjoint (by omega))

@[simp]
theorem Lfiblk.next_setOffset : (b.setOffset x).next = b.next :=
  congrArg (fun w : Nat => i32 w) (loadWord_storeWord_of_disjoint (by omega))

@[simp]
theorem Lfiblk.dba_setOffset : (b.setOffset x).dba i = b.dba i :=
  congrArg (fun w : Nat => i32 w) (loadWord_storeWord_of_disjoint (by omega))

theorem Lfiblk.offset_setOffset (h : n < 0x100000000) : (b.setOffset n).offset = n := by
  unfold Lfiblk.setOffset Lfiblk.offset
  rw [unsigned_natCast h]
  exact loadWord_storeWord b h

/-- The fields of an index block that was cleared. -/
theorem lfibclear_fields (b : Lfiblk) (h : n < 0x100000000) :
    (lfibclear b n).next = lfInull ∧ (lfibclear b n).offset = n ∧
      ∀ t, t < 16 → (lfibclear b n).dba t = lfDnull := by
  have hdba : ∀ t, t < 16 →
      Lfiblk.dba (forRange 0 lfIblen (fun i b => Lfiblk.setDba b lfDnull i) (b.setOffset n)) t =
        lfDnull := by
    intro t ht
    apply forRange_at (fun b : Lfiblk => b.dba t) (Nat.zero_le t) (show t < lfIblen from ht)
    · intro b
      exact Lfiblk.dba_setDba
    · intro k b hk
      exact Lfiblk.dba_setDba_of_ne hk.symm
  have hoffset :
      Lfiblk.offset (forRange 0 lfIblen (fun i b => Lfiblk.setDba b lfDnull i) (b.setOffset n)) =
        n := by
    rw [forRange_same Lfiblk.offset fun k b _ _ => Lfiblk.offset_setDba]
    exact Lfiblk.offset_setOffset h
  unfold lfibclear
  dsimp only
  refine ⟨(Lfiblk.next_setNext _ _).trans (by decide), ?_, ?_⟩
  · rw [Lfiblk.offset_setNext]
    exact hoffset
  · intro t ht
    rw [Lfiblk.dba_setNext]
    exact hdba t ht

end Fields

/-! ## Files on the disk -/

/-- Where the areas of the disk lie: `k` sectors hold index blocks. -/
structure Geometry (k sectors : Int) : Prop where
  index_nonneg : 0 ≤ k
  index_lt : k < sectors
  sectors_le : sectors ≤ 0x800000

/-- A file, with the index blocks and data blocks that it has, and the control block and the
position if it is open. -/
structure Extent (nlfl : Nat) where
  name : CString
  bytes : List UInt8
  iblocks : List Int
  dblocks : List Int
  opener : Option (Fin nlfl × Nat)

/-- The files of the directory, the free blocks and the device numbers of the control
blocks. -/
structure Layout (nlfl : Nat) where
  files : List (Extent nlfl)
  freeIblocks : List Int
  freeDblocks : List Int
  dev : Fin nlfl → Int

/-- Change a file and the lists of free blocks. -/
def Layout.set (L : Layout nlfl) (i : Nat) (f : Extent nlfl) (freeIblocks freeDblocks : List Int) :
    Layout nlfl :=
  ⟨L.files.set i f, freeIblocks, freeDblocks, L.dev⟩

/-- Index block number `j` of a file. -/
structure Describes (iblocks dblocks : List Int) (j : Nat) (b : Lfiblk) : Prop where
  next : b.next = iblocks[j + 1]?.getD lfInull
  offset : b.offset = 8192 * j
  dba : ∀ t, t < 16 → b.dba t = dblocks[16 * j + t]?.getD lfDnull

/-- Data block number `m` of a file. -/
def Stores (bytes : List UInt8) (m : Nat) (b : Chars) : Prop :=
  ∀ i, i < 512 → ∀ x, bytes[512 * m + i]? = some x → b i = x

/-- The entry of a file in the directory. -/
structure EntryOf (d : Lfdir) (i : Nat) (f : Extent nlfl) : Prop where
  name : Spells (d.ldName i) f.name.1
  size : d.ldSize i = f.bytes.length
  ilist : d.ldIlist i = f.iblocks.headD lfInull

/-- The control block of an open file. -/
structure Session (f : Extent nlfl) (i pos : Nat) (c : Lflcblk) : Prop where
  used : c.lfstate = .used
  dirptr : c.lfdirptr = i
  name : Spells c.lfname f.name.1
  pos_eq : c.lfpos = pos
  pos_le : pos ≤ f.bytes.length
  iblock : c.lfinum = lfInull ∧ c.lfibdirty = false ∨
    ∃ j, f.iblocks[j]? = some c.lfinum ∧ Describes f.iblocks f.dblocks j c.lfiblock
  dblock : c.lfdnum = lfDnull ∧ c.lfdbdirty = false ∨
    ∃ m, f.dblocks[m]? = some c.lfdnum ∧ Stores f.bytes m c.lfdblock
  byte : c.lfbyte = lfBlksiz ∨
    f.dblocks[pos / 512]? = some c.lfdnum ∧ c.lfbyte = pos % 512

/-- The control block has a newer copy of index block `b`. -/
def Lf.NewerIblock (s : Lf nlfl) (f : Extent nlfl) (b : Int) : Prop :=
  ∃ fd pos, f.opener = some (fd, pos) ∧ (s.lfltab fd).lfibdirty = true ∧ (s.lfltab fd).lfinum = b

/-- The control block has a newer copy of data block `b`. -/
def Lf.NewerDblock (s : Lf nlfl) (f : Extent nlfl) (b : Int) : Prop :=
  ∃ fd pos, f.opener = some (fd, pos) ∧ (s.lfltab fd).lfdbdirty = true ∧ (s.lfltab fd).lfdnum = b

/-- File number `i` lies on the disk and in memory. -/
structure FileLaid (s : Lf nlfl) (i : Nat) (f : Extent nlfl) : Prop where
  entry : EntryOf s.lfDir i f
  short : f.name.1.length < lfNameLen
  depth : f.dblocks.length ≤ 16 * f.iblocks.length
  iblock : ∀ j b, f.iblocks[j]? = some b →
    s.NewerIblock f b ∨ Describes f.iblocks f.dblocks j (lfibget s.disk b fun _ => 0)
  dblock : ∀ m b, f.dblocks[m]? = some b → s.NewerDblock f b ∨ Stores f.bytes m (s.disk b)
  session : ∀ fd pos, f.opener = some (fd, pos) → Session f i pos (s.lfltab fd)

/-- The files and the free blocks lie as the layout says. -/
structure Laid (k sectors : Int) (s : Lf nlfl) (L : Layout nlfl) : Prop where
  present : s.lfDirpresent = true
  dev : ∀ fd, (s.lfltab fd).lfdev = L.dev fd
  nfiles : s.lfDir.nfiles = L.files.length
  length_le : L.files.length ≤ 20
  ifree : Chained (nextIblock s.disk) lfInull s.lfDir.ifree L.freeIblocks
  dfree : Chained (nextDblock s.disk) lfDnull s.lfDir.dfree L.freeDblocks
  iblocks : SharedOut (Finset.Ico 0 (7 * k)) L.freeIblocks (L.files.map Extent.iblocks)
  dblocks : SharedOut (Finset.Ico (k + 1) sectors) L.freeDblocks (L.files.map Extent.dblocks)
  file : ∀ i f, L.files[i]? = some f → FileLaid s i f
  used : ∀ fd, (s.lfltab fd).lfstate = .used →
    ∃ (i : Nat) (f : Extent nlfl) (pos : Nat), L.files[i]? = some f ∧ f.opener = some (fd, pos)

section Laid

variable {k sectors : Int} {s s' : Lf nlfl} {L : Layout nlfl} {f f' : Extent nlfl} {i j pos : Nat}
  {fd : Fin nlfl} {b : Int} {d : Disk}

theorem EntryOf.congr {dir dir' : Lfdir} (h : EntryOf dir i f)
    (hshort : f.name.1.length < lfNameLen)
    (hsame : ∀ a, Lfdir.entry i ≤ a → a < Lfdir.entry i + 24 → dir' a = dir a) :
    EntryOf dir' i f := by
  have hlen : f.name.1.length < 16 := hshort
  constructor
  · apply h.name.congr
    intro x hx
    exact hsame _ (by omega) (by omega)
  · rw [← h.size]
    exact loadWord_congr fun a hlo hhi => hsame a hlo (by omega)
  · rw [← h.ilist]
    unfold Lfdir.ldIlist
    rw [loadWord_congr fun a hlo hhi => hsame a (by omega) (by omega)]

/-- The first index block of a file is recorded. -/
theorem EntryOf.setLdIlist {dir : Lfdir} (h : EntryOf dir i f) {x : Int}
    (hname : f'.name = f.name) (hbytes : f'.bytes = f.bytes)
    (hx : i32 x = f'.iblocks.headD lfInull) : EntryOf (dir.setLdIlist i x) i f' := by
  constructor
  · rw [Lfdir.ldName_setLdIlist, hname]
    exact h.name
  · rw [Lfdir.ldSize_setLdIlist, hbytes]
    exact h.size
  · rw [Lfdir.ldIlist_setLdIlist]
    exact hx

/-- The size of a file is recorded. -/
theorem EntryOf.setLdSize {dir : Lfdir} (h : EntryOf dir i f) {n : Nat}
    (hname : f'.name = f.name) (hiblocks : f'.iblocks = f.iblocks)
    (hn : n = f'.bytes.length) (hlt : n < 0x100000000) : EntryOf (dir.setLdSize i n) i f' := by
  constructor
  · rw [Lfdir.ldName_setLdSize, hname]
    exact h.name
  · rw [Lfdir.ldSize_setLdSize hlt]
    exact hn
  · rw [Lfdir.ldIlist_setLdSize, hiblocks]
    exact h.ilist

/-- Only the parts of the state that belong to a file matter. -/
theorem FileLaid.congr (h : FileLaid s i f)
    (hdir : ∀ a, Lfdir.entry i ≤ a → a < Lfdir.entry i + 24 → s'.lfDir a = s.lfDir a)
    (hiblock : ∀ b ∈ f.iblocks, lfibget s'.disk b (fun _ => 0) = lfibget s.disk b fun _ => 0)
    (hdblock : ∀ b ∈ f.dblocks, s'.disk b = s.disk b)
    (htab : ∀ fd pos, f.opener = some (fd, pos) → s'.lfltab fd = s.lfltab fd) :
    FileLaid s' i f where
  entry := h.entry.congr h.short hdir
  short := h.short
  depth := h.depth
  iblock := by
    intro j b hb
    rw [hiblock b (List.mem_of_getElem? hb)]
    apply (h.iblock j b hb).imp_left
    rintro ⟨fd, pos, hopen, hnewer⟩
    refine ⟨fd, pos, hopen, ?_⟩
    rw [htab fd pos hopen]
    exact hnewer
  dblock := by
    intro m b hb
    rw [hdblock b (List.mem_of_getElem? hb)]
    apply (h.dblock m b hb).imp_left
    rintro ⟨fd, pos, hopen, hnewer⟩
    refine ⟨fd, pos, hopen, ?_⟩
    rw [htab fd pos hopen]
    exact hnewer
  session := by
    intro fd pos hopen
    rw [htab fd pos hopen]
    exact h.session fd pos hopen

theorem Layout.iblocks_getElem? (hi : L.files[i]? = some f) :
    (L.files.map Extent.iblocks)[i]? = some f.iblocks := by
  rw [List.getElem?_map, hi]
  rfl

theorem Layout.dblocks_getElem? (hi : L.files[i]? = some f) :
    (L.files.map Extent.dblocks)[i]? = some f.dblocks := by
  rw [List.getElem?_map, hi]
  rfl

theorem Laid.iblock_mem (h : Laid k sectors s L) (hi : L.files[i]? = some f)
    (hb : b ∈ f.iblocks) : 0 ≤ b ∧ b < 7 * k := by
  have hmem := h.iblocks.mem_area (Layout.iblocks_getElem? hi) hb
  rwa [Finset.mem_Ico] at hmem

theorem Laid.dblock_mem (h : Laid k sectors s L) (hi : L.files[i]? = some f)
    (hb : b ∈ f.dblocks) : k + 1 ≤ b ∧ b < sectors := by
  have hmem := h.dblocks.mem_area (Layout.dblocks_getElem? hi) hb
  rwa [Finset.mem_Ico] at hmem

/-- A block is at one place of its file. -/
theorem Laid.iblock_eq (h : Laid k sectors s L) (hi : L.files[i]? = some f) {j j' : Nat}
    (hj : f.iblocks[j]? = some b) (hj' : f.iblocks[j']? = some b) : j = j' :=
  (List.getElem?_inj (List.getElem?_eq_some_iff.mp hj).1
    (h.iblocks.nodup_owned (Layout.iblocks_getElem? hi))).mp (hj.trans hj'.symm)

theorem Laid.dblock_eq (h : Laid k sectors s L) (hi : L.files[i]? = some f) {m m' : Nat}
    (hm : f.dblocks[m]? = some b) (hm' : f.dblocks[m']? = some b) : m = m' :=
  (List.getElem?_inj (List.getElem?_eq_some_iff.mp hm).1
    (h.dblocks.nodup_owned (Layout.dblocks_getElem? hi))).mp (hm.trans hm'.symm)

/-- A control block serves one file. -/
theorem Laid.opener_eq (h : Laid k sectors s L) (hi : L.files[i]? = some f)
    (hj : L.files[j]? = some f') (hopen : f.opener = some (fd, pos)) {pos' : Nat}
    (hopen' : f'.opener = some (fd, pos')) : i = j :=
  ((h.file i f hi).session fd pos hopen).dirptr.symm.trans
    ((h.file j f' hj).session fd pos' hopen').dirptr

theorem Layout.set_self (hi : L.files[i]? = some f) :
    L.set i f L.freeIblocks L.freeDblocks = L := by
  obtain ⟨hlt, rfl⟩ := List.getElem?_eq_some_iff.mp hi
  unfold Layout.set
  rw [List.set_getElem_self]

theorem Layout.set_set (L : Layout nlfl) (f : Extent nlfl) (freeI freeD : List Int)
    {freeI' freeD' : List Int} :
    (L.set i f freeI freeD).set i f' freeI' freeD' = L.set i f' freeI' freeD' := by
  unfold Layout.set
  dsimp only
  rw [List.set_set]

theorem Layout.set_getElem? (hi : L.files[i]? = some f) {freeI freeD : List Int} :
    (L.set i f' freeI freeD).files[i]? = some f' :=
  List.getElem?_set_self (List.getElem?_eq_some_iff.mp hi).1

/-- A file is the new one, or it is as it was. -/
theorem Layout.set_cases {j : Nat} {g : Extent nlfl} (hi : L.files[i]? = some f)
    {freeI freeD : List Int} (hj : (L.set i f' freeI freeD).files[j]? = some g) :
    i = j ∧ g = f' ∨ i ≠ j ∧ L.files[j]? = some g := by
  by_cases hij : i = j
  · subst hij
    rw [Layout.set_getElem? hi] at hj
    exact .inl ⟨rfl, (Option.some.inj hj).symm⟩
  · unfold Layout.set at hj
    rw [List.getElem?_set_ne hij] at hj
    exact .inr ⟨hij, hj⟩

/-- A step changes nothing but file number `i`, the lists of free blocks and the control
block `fd`. -/
structure Elsewhere (k sectors : Int) (s s' : Lf nlfl) (i : Nat) (f : Extent nlfl) (fd : Fin nlfl) :
    Prop where
  present : s'.lfDirpresent = s.lfDirpresent
  nfiles : s'.lfDir.nfiles = s.lfDir.nfiles
  entry : ∀ j, j ≠ i → ∀ a, Lfdir.entry j ≤ a → a < Lfdir.entry j + 24 → s'.lfDir a = s.lfDir a
  iblock : ∀ b, 0 ≤ b → b < 7 * k → b ∉ f.iblocks →
    lfibget s'.disk b (fun _ => 0) = lfibget s.disk b fun _ => 0
  dblock : ∀ b, k + 1 ≤ b → b < sectors → b ∉ f.dblocks → s'.disk b = s.disk b
  cblk : ∀ fd', fd' ≠ fd → s'.lfltab fd' = s.lfltab fd'
  dev : (s'.lfltab fd).lfdev = (s.lfltab fd).lfdev

/-- The links of the free blocks stay. -/
theorem Elsewhere.free (he : Elsewhere k sectors s s' i f fd) (h : Laid k sectors s L)
    (hi : L.files[i]? = some f) :
    (∀ b ∈ L.freeIblocks, nextIblock s'.disk b = nextIblock s.disk b) ∧
      ∀ b ∈ L.freeDblocks, nextDblock s'.disk b = nextDblock s.disk b := by
  constructor
  · intro b hb
    have hmem := h.iblocks.free_mem_area hb
    rw [Finset.mem_Ico] at hmem
    unfold nextIblock
    rw [he.iblock b hmem.1 hmem.2]
    exact fun hfile => h.iblocks.not_free (Layout.iblocks_getElem? hi) hfile hb
  · intro b hb
    have hmem := h.dblocks.free_mem_area hb
    rw [Finset.mem_Ico] at hmem
    unfold nextDblock
    rw [he.dblock b hmem.1 hmem.2]
    exact fun hfile => h.dblocks.not_free (Layout.dblocks_getElem? hi) hfile hb

/-- A step that changes one file and the lists of free blocks. -/
theorem Laid.set (h : Laid k sectors s L) (hi : L.files[i]? = some f) {freeI freeD : List Int}
    (he : Elsewhere k sectors s s' i f fd) (hfile : FileLaid s' i f')
    (hifree : Chained (nextIblock s'.disk) lfInull s'.lfDir.ifree freeI)
    (hdfree : Chained (nextDblock s'.disk) lfDnull s'.lfDir.dfree freeD)
    (hiblocks : (freeI ++ f'.iblocks).Perm (L.freeIblocks ++ f.iblocks))
    (hdblocks : (freeD ++ f'.dblocks).Perm (L.freeDblocks ++ f.dblocks))
    (hold : ∀ fd' pos, f.opener = some (fd', pos) → fd' = fd)
    (hothers : ∀ j g pos, j ≠ i → L.files[j]? = some g → g.opener ≠ some (fd, pos))
    (hused : (s'.lfltab fd).lfstate = .used → ∃ pos, f'.opener = some (fd, pos)) :
    Laid k sectors s' (L.set i f' freeI freeD) where
  present := he.present.trans h.present
  dev := by
    intro fd'
    by_cases hfd : fd' = fd
    · rw [hfd, he.dev]
      exact h.dev fd
    · rw [he.cblk fd' hfd]
      exact h.dev fd'
  nfiles := by
    rw [he.nfiles, h.nfiles]
    unfold Layout.set
    rw [List.length_set]
  length_le := by
    unfold Layout.set
    rw [List.length_set]
    exact h.length_le
  ifree := hifree
  dfree := hdfree
  iblocks := by
    unfold Layout.set
    rw [List.map_set]
    exact h.iblocks.exchange (Layout.iblocks_getElem? hi) hiblocks
  dblocks := by
    unfold Layout.set
    rw [List.map_set]
    exact h.dblocks.exchange (Layout.dblocks_getElem? hi) hdblocks
  file := by
    intro j g hj
    by_cases hji : j = i
    · subst hji
      rw [Layout.set_getElem? hi] at hj
      cases hj
      exact hfile
    · unfold Layout.set at hj
      rw [List.getElem?_set_ne (Ne.symm hji)] at hj
      have hiblocks' := Layout.iblocks_getElem? hj
      have hdblocks' := Layout.dblocks_getElem? hj
      apply (h.file j g hj).congr (he.entry j hji)
      · intro b hb
        have hmem := h.iblock_mem hj hb
        apply he.iblock b hmem.1 hmem.2
        exact fun hb' => hji (h.iblocks.owner_eq hiblocks' (Layout.iblocks_getElem? hi) hb hb')
      · intro b hb
        have hmem := h.dblock_mem hj hb
        apply he.dblock b hmem.1 hmem.2
        exact fun hb' => hji (h.dblocks.owner_eq hdblocks' (Layout.dblocks_getElem? hi) hb hb')
      · intro fd' pos hopen
        apply he.cblk
        rintro rfl
        exact hothers j g pos hji hj hopen
  used := by
    intro fd' hstate
    by_cases hfd : fd' = fd
    · subst hfd
      obtain ⟨pos, hopen⟩ := hused hstate
      exact ⟨i, f', pos, Layout.set_getElem? hi, hopen⟩
    · rw [he.cblk fd' hfd] at hstate
      obtain ⟨j, g, pos, hj, hopen⟩ := h.used fd' hstate
      refine ⟨j, g, pos, ?_, hopen⟩
      unfold Layout.set
      rw [List.getElem?_set_ne, hj]
      rintro rfl
      rw [hi] at hj
      cases hj
      exact hfd (hold fd' pos hopen)

section Opened

variable (h : Laid k sectors s L) (hi : L.files[i]? = some f) (hopen : f.opener = some (fd, pos))
include h hi hopen

/-- A step of an open file, to which it may add free blocks. -/
theorem Laid.step {freeI freeD : List Int} (he : Elsewhere k sectors s s' i f fd)
    (hfile : FileLaid s' i f')
    (hifree : Chained (nextIblock s.disk) lfInull s'.lfDir.ifree freeI)
    (hdfree : Chained (nextDblock s.disk) lfDnull s'.lfDir.dfree freeD)
    (hsubI : freeI ⊆ L.freeIblocks) (hsubD : freeD ⊆ L.freeDblocks)
    (hiblocks : (freeI ++ f'.iblocks).Perm (L.freeIblocks ++ f.iblocks))
    (hdblocks : (freeD ++ f'.dblocks).Perm (L.freeDblocks ++ f.dblocks))
    (hused : (s'.lfltab fd).lfstate = .used → ∃ pos, f'.opener = some (fd, pos)) :
    Laid k sectors s' (L.set i f' freeI freeD) := by
  obtain ⟨hlinksI, hlinksD⟩ := he.free h hi
  apply h.set hi he hfile _ _ hiblocks hdblocks _ _ hused
  · exact hifree.congr fun b hb => hlinksI b (hsubI hb)
  · exact hdfree.congr fun b hb => hlinksD b (hsubD hb)
  · intro fd' pos' hopen'
    rw [hopen] at hopen'
    cases hopen'
    rfl
  · intro j g pos' hji hj hopen'
    exact hji (h.opener_eq hj hi hopen' hopen)

/-- A step of an open file that takes no free block. -/
theorem Laid.keep (he : Elsewhere k sectors s s' i f fd) (hfile : FileLaid s' i f')
    (hifree : s'.lfDir.ifree = s.lfDir.ifree) (hdfree : s'.lfDir.dfree = s.lfDir.dfree)
    (hiblocks : f'.iblocks = f.iblocks) (hdblocks : f'.dblocks = f.dblocks)
    (hused : (s'.lfltab fd).lfstate = .used → ∃ pos, f'.opener = some (fd, pos)) :
    Laid k sectors s' (L.set i f' L.freeIblocks L.freeDblocks) := by
  apply h.step hi hopen he hfile _ _ (List.Subset.refl _) (List.Subset.refl _) _ _ hused
  · rw [hifree]
    exact h.ifree
  · rw [hdfree]
    exact h.dfree
  · rw [hiblocks]
  · rw [hdblocks]

/-- A step that only changes the control block of an open file. -/
theorem Laid.setCblk {g : Lflcblk → Lflcblk} (hfile : FileLaid (s.setCblk fd g) i f')
    (hiblocks : f'.iblocks = f.iblocks) (hdblocks : f'.dblocks = f.dblocks)
    (hused : (g (s.lfltab fd)).lfstate = .used → ∃ pos, f'.opener = some (fd, pos))
    (hdev : (g (s.lfltab fd)).lfdev = (s.lfltab fd).lfdev) :
    Laid k sectors (s.setCblk fd g) (L.set i f' L.freeIblocks L.freeDblocks) := by
  apply h.keep hi hopen _ hfile rfl rfl hiblocks hdblocks
  · intro hstate
    apply hused
    rwa [Lf.setCblk_self] at hstate
  · refine ⟨rfl, rfl, fun _ _ _ _ _ => rfl, fun _ _ _ _ => rfl, fun _ _ _ _ => rfl,
      fun _ hne => Lf.setCblk_of_ne hne, ?_⟩
    rw [Lf.setCblk_self]
    exact hdev

end Opened

/-- The directory is written. -/
theorem Laid.writeDir (h : Laid k sectors s L) (hk : 0 ≤ k) : Laid k sectors s.writeDir L where
  present := h.present
  dev := h.dev
  nfiles := h.nfiles
  length_le := h.length_le
  ifree := by
    apply h.ifree.congr
    intro b hb
    have hmem := h.iblocks.free_mem_area hb
    rw [Finset.mem_Ico] at hmem
    unfold nextIblock
    rw [lfibget_congr]
    apply Lf.writeDir_disk_of_ne
    rw [ib2sect_of_nonneg hmem.1]
    unfold lfAreaDir
    omega
  dfree := by
    apply h.dfree.congr
    intro b hb
    have hmem := h.dblocks.free_mem_area hb
    rw [Finset.mem_Ico] at hmem
    unfold nextDblock
    rw [Lf.writeDir_disk_of_ne]
    unfold lfAreaDir
    omega
  iblocks := h.iblocks
  dblocks := h.dblocks
  file := by
    intro i f hi
    apply (h.file i f hi).congr
    · exact fun a _ _ => rfl
    · intro b hb
      have hmem := h.iblock_mem hi hb
      apply lfibget_congr
      apply Lf.writeDir_disk_of_ne
      rw [ib2sect_of_nonneg hmem.1]
      unfold lfAreaDir
      omega
    · intro b hb
      have hmem := h.dblock_mem hi hb
      apply Lf.writeDir_disk_of_ne
      unfold lfAreaDir
      omega
    · exact fun fd pos _ => rfl
  used := h.used

end Laid

end Lfs
end Xinu
