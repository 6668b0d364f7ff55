import Xinu.LocalFileSystem.ByteFiles
import Xinu.LocalFileSystem.Setup

/-!
# The local file system: bytes in blocks

The files of bytes are compared with the blocks.  Every call does to the blocks what it means
for the bytes, and it stops the system when no block is free for a byte, never before.

Main results:

- Theorem `room_eq`: the lists of free blocks are empty if the files take all blocks.
- Theorems `lflputc_matches` and `lflgetc_matches`: bytes are written and read.
-/

namespace Xinu
namespace Lfs

open Foundations Function
open FileSystem (CString unsigned memcpy)

variable {nlfl : Nat}

/-- Read the directory, unless it has been read. -/
def Lf.load (s : Lf nlfl) : Lf nlfl :=
  if s.lfDirpresent then s
  else { s with lfDir := (ramread s.disk s.lfDir lfAreaDir).2, lfDirpresent := true }

/-- The files of bytes that a layout has. -/
structure Shows (L : Layout nlfl) (a : ByteFiles nlfl) : Prop where
  files : a.files = L.files.map fun f => ⟨f.name, f.bytes⟩
  opened : ∀ fd h, a.opened fd = some h ↔
    ∃ f, L.files[h.file]? = some f ∧ f.opener = some (fd, h.pos)

/-- The directory on the disk has the first `m` files; the others are empty. -/
structure Saved (s : Lf nlfl) (L : Layout nlfl) (m : Nat) : Prop where
  le : m ≤ L.files.length
  nfiles : (directory s.disk).nfiles = m
  ifree : (directory s.disk).ifree = s.lfDir.ifree
  dfree : (directory s.disk).dfree = s.lfDir.dfree
  entry : ∀ (i : Nat) (f : Extent nlfl), i < m → L.files[i]? = some f →
    EntryOf (directory s.disk) i f
  empty : ∀ (i : Nat) (f : Extent nlfl), m ≤ i → L.files[i]? = some f → f.bytes = []

/-- The blocks hold the files of bytes. -/
structure Represents (k sectors : Int) (dev : Fin nlfl → Int) (s : Lf nlfl) (a : ByteFiles nlfl)
    (L : Layout nlfl) : Prop where
  laid : Laid k sectors s.load L
  shown : Shows L a
  sized : ∀ (i : Nat) (f : Extent nlfl), L.files[i]? = some f → Sized f
  dev : L.dev = dev
  unread : s.lfDirpresent = false →
    (∀ fd, (s.lfltab fd).lfstate = .free) ∧ s.lfDirdirty = false
  saved : s.lfDirdirty = false → ∃ m, Saved s.load L m
  dirty : s.lfDirdirty = true → ∃ fd, (s.lfltab fd).lfstate = .used

/-- The number of blocks on the disk. -/
def capacity (k sectors : Int) : Capacity :=
  ⟨(7 * k).toNat, (sectors - k - 1).toNat⟩

section Represents

variable {k sectors : Int} {dev : Fin nlfl → Int} {s s' : Lf nlfl} {a : ByteFiles nlfl}
  {L L' : Layout nlfl} {f f' : Extent nlfl} {i m n pos pos' : Nat} {fd : Fin nlfl}

theorem Lf.load_of_present (h : s.lfDirpresent = true) : s.load = s := by
  unfold load
  rw [if_pos h]

@[simp]
theorem Lf.load_lfltab : s.load.lfltab = s.lfltab := by
  unfold load
  split <;> rfl

@[simp]
theorem Lf.load_lfDirdirty : s.load.lfDirdirty = s.lfDirdirty := by
  unfold load
  split <;> rfl

/-! ## The view of the bytes -/

theorem Shows.bytes_eq (h : Shows L a) (hi : L.files[i]? = some f) : a.bytes i = f.bytes := by
  unfold ByteFiles.bytes
  rw [h.files, List.getElem?_map, hi]
  rfl

theorem Shows.length_eq (h : Shows L a) : a.files.length = L.files.length := by
  rw [h.files, List.length_map]

/-- One file of the layout is changed. -/
theorem Shows.store_files (h : Shows L a) (hi : L.files[i]? = some f) (hname : f'.name = f.name)
    {freeI freeD : List Int} : (a.store i f'.bytes).files =
      (L.set i f' freeI freeD).files.map fun f => ⟨f.name, f.bytes⟩ := by
  unfold ByteFiles.store Layout.set
  dsimp only
  rw [h.files]
  apply List.ext_getElem?
  intro j
  rw [List.getElem?_modify, List.getElem?_map, List.getElem?_map, List.getElem?_set]
  by_cases hij : i = j
  · subst hij
    rw [if_pos rfl, if_pos (List.getElem?_eq_some_iff.mp hi).1, hi, Option.map_some,
      Option.map_some, hname]
    simp only [if_true, Option.map_eq_map, Option.map_some]
  · simp [hij]

theorem Shows.store_self (h : Shows L a) (hi : L.files[i]? = some f) :
    a.store i f.bytes = a := by
  have hfiles : (a.store i f.bytes).files =
      (L.set i f L.freeIblocks L.freeDblocks).files.map fun f => ⟨f.name, f.bytes⟩ :=
    h.store_files hi rfl
  rw [Layout.set_self hi, ← h.files] at hfiles
  unfold ByteFiles.store at hfiles ⊢
  dsimp only at hfiles
  rw [hfiles]

/-- An open file is changed or gets another position. -/
theorem Shows.set (h : Shows L a) (hi : L.files[i]? = some f) (hopen : f.opener = some (fd, pos))
    (hname : f'.name = f.name) (hopen' : f'.opener = some (fd, pos')) {freeI freeD : List Int} :
    Shows (L.set i f' freeI freeD) ((a.store i f'.bytes).move fd ⟨i, pos'⟩) where
  files := h.store_files hi hname
  opened := by
    intro fd' x
    have hset : (L.set i f' freeI freeD).files[i]? = some f' := Layout.set_getElem? hi
    have hmine := (h.opened fd ⟨i, pos⟩).mpr ⟨f, hi, hopen⟩
    unfold ByteFiles.move ByteFiles.store
    dsimp only
    by_cases hfd : fd' = fd
    · subst hfd
      rw [update_self]
      constructor
      · rintro ⟨⟩
        exact ⟨f', hset, hopen'⟩
      · rintro ⟨g, hg, hgopen⟩
        by_cases hx : x.file = i
        · rw [hx, hset] at hg
          cases hg
          rw [hopen'] at hgopen
          cases x
          cases hgopen
          cases hx
          rfl
        · unfold Layout.set at hg
          rw [List.getElem?_set_ne (Ne.symm hx)] at hg
          rw [(h.opened fd' x).mpr ⟨g, hg, hgopen⟩] at hmine
          cases hmine
          exact absurd rfl hx
    · rw [update_of_ne hfd, h.opened]
      by_cases hx : x.file = i
      · rw [hx, hi, hset]
        constructor
        · rintro ⟨g, ⟨⟩, hgopen⟩
          rw [hopen] at hgopen
          cases hgopen
          exact absurd rfl hfd
        · rintro ⟨g, ⟨⟩, hgopen⟩
          rw [hopen'] at hgopen
          cases hgopen
          exact absurd rfl hfd
      · unfold Layout.set
        rw [List.getElem?_set_ne (Ne.symm hx)]

/-- Is there room for one more byte? -/
theorem Represents.room_eq (h : Represents k sectors dev s a L) (hi : L.files[i]? = some f)
    (hpos : pos ≤ f.bytes.length) : L.room f pos =
      if pos = (a.bytes i).length then a.room (capacity k sectors) pos else .returns () := by
  have hsized := h.sized i f hi
  have hfiles := h.shown.files
  have hcardI := h.laid.iblocks.length_eq
  have hcardD := h.laid.dblocks.length_eq
  have hiblocks := hsized.iblocks
  have hdblocks := hsized.dblocks
  have husedI : (L.files.map Extent.iblocks).map List.length =
      a.files.map fun f => (f.bytes.length + 8191) / 8192 := by
    rw [hfiles, List.map_map, List.map_map]
    apply List.map_congr_left
    intro g hg
    obtain ⟨j, hj⟩ := List.mem_iff_getElem?.mp hg
    exact (h.sized j g hj).iblocks
  have husedD : (L.files.map Extent.dblocks).map List.length =
      a.files.map fun f => (f.bytes.length + 511) / 512 := by
    rw [hfiles, List.map_map, List.map_map]
    apply List.map_congr_left
    intro g hg
    obtain ⟨j, hj⟩ := List.mem_iff_getElem?.mp hg
    exact (h.sized j g hj).dblocks
  rw [List.length_flatten, husedI, Int.card_Ico] at hcardI
  rw [List.length_flatten, husedD, Int.card_Ico] at hcardD
  rw [h.shown.bytes_eq hi]
  unfold Layout.room
  by_cases hend : pos = f.bytes.length
  · have hfullI : L.freeIblocks = [] ↔ a.used 8192 = (capacity k sectors).iblocks := by
      rw [← List.length_eq_zero_iff]
      unfold ByteFiles.used capacity
      dsimp only
      rw [show 8192 - 1 = 8191 from rfl]
      omega
    have hfullD : L.freeDblocks = [] ↔ a.used 512 = (capacity k sectors).dblocks := by
      rw [← List.length_eq_zero_iff]
      unfold ByteFiles.used capacity
      dsimp only
      rw [show 512 - 1 = 511 from rfl]
      omega
    have hlastI : f.iblocks.length = pos / 8192 ↔ pos % 8192 = 0 := by omega
    have hlastD : f.dblocks.length = pos / 512 ↔ pos % 512 = 0 := by omega
    rw [if_pos hend]
    unfold ByteFiles.room
    simp only [hlastI, hlastD, hfullI, hfullD]
  · rw [if_neg hend, if_neg (by omega), if_neg (by omega)]

/-! ## Open files -/

/-- The file that is open. -/
theorem Represents.opened (h : Represents k sectors dev s a L)
    (hfd : a.opened fd = some ⟨i, pos⟩) : s.load = s ∧
      ∃ f, L.files[i]? = some f ∧ f.opener = some (fd, pos) ∧ Session f i pos (s.lfltab fd) := by
  obtain ⟨f, hi, hopen⟩ := (h.shown.opened fd ⟨i, pos⟩).mp hfd
  have hsession := (h.laid.file i f hi).session fd pos hopen
  rw [Lf.load_lfltab] at hsession
  refine ⟨?_, f, hi, hopen, hsession⟩
  apply Lf.load_of_present
  by_contra habsent
  have hfree := (h.unread (Bool.eq_false_iff.mpr habsent)).1 fd
  rw [hsession.used] at hfree
  cases hfree

theorem Represents.closed (h : Represents k sectors dev s a L) (hfd : a.opened fd = none) :
    (s.lfltab fd).lfstate ≠ .used := by
  intro hused
  rw [← Lf.load_lfltab] at hused
  obtain ⟨i, f, pos, hi, hopen⟩ := h.laid.used fd hused
  rw [(h.shown.opened fd ⟨i, pos⟩).mpr ⟨f, hi, hopen⟩] at hfd
  cases hfd

/-! ## The directory on the disk -/

theorem saved_of_synced (h : Laid k sectors s L) (hsynced : s.Synced) :
    Saved s L L.files.length := by
  have hsame : ∀ a, a < lfBlksiz → directory s.disk a = s.lfDir a := hsynced.2
  have hsize : lfBlksiz = 512 := rfl
  obtain ⟨hdfree, hifree, hnfiles⟩ := Lfdir.congr fun a ha => hsame a (by omega)
  refine ⟨Nat.le_refl _, hnfiles.trans h.nfiles, hifree, hdfree, ?_, ?_⟩
  · intro i f hi hf
    have hfile := h.file i f hf
    apply hfile.entry.congr hfile.short
    intro a _ ha
    have hle := h.length_le
    unfold Lfdir.entry at ha
    exact hsame a (by omega)
  · intro i f hi hf
    exact absurd (List.getElem?_eq_some_iff.mp hf).1 (Nat.not_lt.mpr hi)

theorem DirKept.saved (h : DirKept s s') (hlaid : Laid k sectors s' L)
    (hsaved : s.lfDirdirty = false → ∃ m, Saved s L m) :
    s'.lfDirdirty = false → ∃ m, Saved s' L m := by
  intro hclean
  rcases h.2 with hsynced | ⟨hdirty, hsector⟩
  · exact ⟨_, saved_of_synced hlaid hsynced⟩
  · obtain ⟨m, hm⟩ := hsaved (hdirty.symm.trans hclean)
    have hdirectory : directory s'.disk = directory s.disk := hsector
    refine ⟨m, hm.le, ?_, ?_, ?_, ?_, hm.empty⟩
    · rw [hdirectory, hm.nfiles]
    · rw [hdirectory, h.1, hm.ifree]
    · rw [hdirectory, h.1, hm.dfree]
    · rw [hdirectory]
      exact hm.entry

/-- The entry of one file need not be written again. -/
theorem Saved.set (h : Saved s L m) (hi : L.files[i]? = some f)
    (hsector : s'.disk lfAreaDir = s.disk lfAreaDir) (hdir : s'.lfDir = s.lfDir)
    (hname : f'.name = f.name) (hlength : f'.bytes.length = f.bytes.length)
    (hiblocks : f'.iblocks = f.iblocks) {freeI freeD : List Int} :
    Saved s' (L.set i f' freeI freeD) m := by
  have hdirectory : directory s'.disk = directory s.disk := hsector
  have hfile : ∀ (j : Nat) (g : Extent nlfl), (L.set i f' freeI freeD).files[j]? = some g →
      ∃ g', L.files[j]? = some g' ∧ g.name = g'.name ∧ g.bytes.length = g'.bytes.length ∧
        g.iblocks = g'.iblocks := by
    intro j g hj
    obtain ⟨rfl, rfl⟩ | ⟨-, hold⟩ := Layout.set_cases hi hj
    · exact ⟨f, hi, hname, hlength, hiblocks⟩
    · exact ⟨g, hold, rfl, rfl, rfl⟩
  refine ⟨?_, ?_, ?_, ?_, ?_, ?_⟩
  · unfold Layout.set
    rw [List.length_set]
    exact h.le
  · rw [hdirectory, h.nfiles]
  · rw [hdirectory, hdir, h.ifree]
  · rw [hdirectory, hdir, h.dfree]
  · intro j g hj hg
    obtain ⟨g', hg', hname', hlength', hiblocks'⟩ := hfile j g hg
    have hentry := h.entry j g' hj hg'
    rw [hdirectory]
    constructor
    · rw [hname']
      exact hentry.name
    · rw [hlength']
      exact hentry.size
    · rw [hiblocks']
      exact hentry.ilist
  · intro j g hj hg
    obtain ⟨g', hg', -, hlength', -⟩ := hfile j g hg
    rw [← List.length_eq_zero_iff, hlength', List.length_eq_zero_iff]
    exact h.empty j g' hj hg'

theorem Settled.saved (h : Settled k sectors i fd pos f f' L L' s s')
    (hsaved : s.lfDirdirty = false → ∃ m, Saved s L m) :
    s'.lfDirdirty = false → ∃ m, Saved s' L' m := by
  intro hclean
  rcases h.dir with hsynced | ⟨-, hL, hkept⟩
  · exact ⟨_, saved_of_synced h.laid hsynced⟩
  · have hlaid := h.laid
    rw [hL] at hlaid ⊢
    exact hkept.saved hlaid hsaved hclean

theorem Sized.reopen (h : Sized f) (opener : Option (Fin nlfl × Nat)) : Sized { f with opener } :=
  ⟨h.iblocks, h.dblocks⟩

/-- The directory is in memory. -/
theorem Represents.of_laid (hlaid : Laid k sectors s L) (hshown : Shows L a)
    (hsized : ∀ (i : Nat) (f : Extent nlfl), L.files[i]? = some f → Sized f) (hdev : L.dev = dev)
    (hsaved : s.lfDirdirty = false → ∃ m, Saved s L m)
    (hdirty : s.lfDirdirty = true → ∃ fd, (s.lfltab fd).lfstate = .used) :
    Represents k sectors dev s a L := by
  have hload := Lf.load_of_present hlaid.present
  refine ⟨?_, hshown, hsized, hdev, ?_, ?_, hdirty⟩
  · rw [hload]
    exact hlaid
  · intro habsent
    rw [hlaid.present] at habsent
    cases habsent
  · rw [hload]
    exact hsaved

/-- One file changes, and its blocks are as many as its bytes need. -/
theorem Represents.sized_set (h : Represents k sectors dev s a L) (hi : L.files[i]? = some f)
    (hsized : Sized f') {freeI freeD : List Int} (j : Nat) (g : Extent nlfl)
    (hj : (L.set i f' freeI freeD).files[j]? = some g) : Sized g := by
  obtain ⟨-, rfl⟩ | ⟨-, hold⟩ := Layout.set_cases hi hj
  · exact hsized
  · exact h.sized j g hold

/-- A call gives an open file other bytes or another position. -/
theorem Represents.step (h : Represents k sectors dev s a L) (hi : L.files[i]? = some f)
    (hopen : f.opener = some (fd, pos)) {freeI freeD : List Int}
    (hlaid : Laid k sectors s' (L.set i f' freeI freeD)) (hname : f'.name = f.name)
    (hopen' : f'.opener = some (fd, pos')) (hsized : Sized f')
    (hsaved : s'.lfDirdirty = false → ∃ m, Saved s' (L.set i f' freeI freeD) m) :
    Represents k sectors dev s' ((a.store i f'.bytes).move fd ⟨i, pos'⟩)
      (L.set i f' freeI freeD) := by
  have hsession := (hlaid.file i f' (Layout.set_getElem? hi)).session fd pos' hopen'
  exact .of_laid hlaid (h.shown.set hi hopen hname hopen') (h.sized_set hi hsized) h.dev hsaved
    fun _ => ⟨fd, hsession.used⟩

end Represents

end Lfs
end Xinu
