import Xinu.LocalFileSystem.Contents
import Xinu.LocalFileSystem.Opening

/-!
# The local file system: runs

The calls of the devices are made one after another, beginning with a formatted disk.

Main results:

- Theorem `lfs_refines_byteFiles`: the calls return what they return for files of bytes, and the
  system is stopped when the disk is full, never before.
- Theorem `blocks_in_one_place`: every block is free or belongs to one file.
- Theorem `written_is_read`: what is written to a file is read from it.
- Theorem `closed_files_survive`: when all files are closed, the disk alone has the files.
-/

namespace Xinu
namespace Lfs

open Foundations Function

variable {nlfl : Nat}

/-! ## Calls -/

section Calls

variable {k sectors : Int} {dev : Fin nlfl → Int} {s : Lf nlfl} {a : ByteFiles nlfl}
  {L : Layout nlfl} {n : Nat}

/-- Two systems are in states that belong together. -/
def Related (k sectors : Int) (dev : Fin nlfl → Int) (s : Lf nlfl) (a : ByteFiles nlfl) : Prop :=
  ∃ L, Represents k sectors dev s a L

theorem Agrees.answer {r : Int × Lf nlfl} {r' : Int × ByteFiles nlfl}
    (h : Agrees k sectors dev r r') : (answer r).1 = (answer r').1 ∧
      Related k sectors dev (answer r).2 (answer r').2 := by
  refine ⟨?_, h.2⟩
  unfold Lfs.answer
  rw [h.1]

/-- Each call does what it means. -/
theorem execCall_matches (hgeometry : Geometry k sectors) (hn : 7 * k < n)
    (h : Related k sectors dev s a) (c : LfCall nlfl) : (execCall n c s).Matches
      (fun r r' => r.1 = r'.1 ∧ Related k sectors dev r.2 r'.2)
      (specCall (capacity k sectors) dev c a) := by
  obtain ⟨L, h⟩ := h
  cases c with
  | lfsopen name mode => exact .returns (lfsopen_agrees h name mode).answer
  | lflclose fd => exact .returns (lflclose_agrees hgeometry h).answer
  | lflseek fd offset => exact .returns (lflseek_agrees h offset).answer
  | lflputc fd ch =>
      exact (lflputc_matches hgeometry hn h ch).bind fun _ _ hr => .returns hr.answer
  | lflgetc fd =>
      exact (lflgetc_matches hgeometry hn h fd).bind (g := fun r => pure (answer r))
        fun _ _ hr => .returns hr.answer
  | lflread fd count =>
      apply (lflread_matches hgeometry hn h count).bind (g := fun r => pure ((r.1, r.2.1), r.2.2))
      rintro r r' ⟨hreturned, hbytes, hrelated⟩
      exact .returns ⟨Prod.ext hreturned hbytes, hrelated⟩
  | lflwrite fd buff count =>
      exact (lflwrite_matches hgeometry hn h buff count).bind fun _ _ hr => .returns hr.answer
  | lflcontrol fd func =>
      exact (lflcontrol_matches hgeometry hn h func).bind (g := fun r => pure (answer r))
        fun _ _ hr => .returns hr.answer

end Calls

/-! ## The start -/

section Start

variable {k sectors : Int} {dev dvnum : Fin nlfl → Int} {s t : Lf nlfl} {a : ByteFiles nlfl}
  {L : Layout nlfl} {before disk : Disk}

/-- What the initialisation of the control blocks leaves. -/
theorem lflinit_fields (dvnum : Fin nlfl → Int) (fds : List (Fin nlfl)) (s : Lf nlfl) :
    (fds.foldl (fun s fd => lflinit (dvnum fd) fd s) s).disk = s.disk ∧
      (fds.foldl (fun s fd => lflinit (dvnum fd) fd s) s).lfDirpresent = s.lfDirpresent ∧
      (fds.foldl (fun s fd => lflinit (dvnum fd) fd s) s).lfDirdirty = s.lfDirdirty ∧
      ∀ fd, (fd ∈ fds ∨ (s.lfltab fd).lfstate = .free ∧ (s.lfltab fd).lfdev = dvnum fd) →
        ((fds.foldl (fun s fd => lflinit (dvnum fd) fd s) s).lfltab fd).lfstate = .free ∧
        ((fds.foldl (fun s fd => lflinit (dvnum fd) fd s) s).lfltab fd).lfdev = dvnum fd := by
  induction fds generalizing s with
  | nil =>
      refine ⟨rfl, rfl, rfl, ?_⟩
      rintro fd (hmem | hfree)
      · exact absurd hmem List.not_mem_nil
      · exact hfree
  | cons x fds ih =>
      obtain ⟨hdisk, hpresent, hdirty, hcblk⟩ := ih (lflinit (dvnum x) x s)
      refine ⟨hdisk, hpresent, hdirty, ?_⟩
      intro fd hfd
      apply hcblk
      by_cases hx : fd = x
      · right
        rw [hx]
        unfold lflinit
        rw [Lf.setCblk_self]
        exact ⟨rfl, rfl⟩
      · rcases hfd with hmem | hfree
        · exact .inl ((List.mem_cons.mp hmem).resolve_left hx)
        · right
          unfold lflinit
          rw [Lf.setCblk_of_ne hx]
          exact hfree

/-- The state in which the system starts; the directory is read when a file is opened. -/
structure Started (dvnum : Fin nlfl → Int) (disk : Disk) (s : Lf nlfl) : Prop where
  disk : s.disk = disk
  present : s.lfDirpresent = false
  dirty : s.lfDirdirty = false
  free : ∀ fd, (s.lfltab fd).lfstate = .free
  dev : ∀ fd, (s.lfltab fd).lfdev = dvnum fd

theorem lfstart_started (dvnum : Fin nlfl → Int) (s : Lf nlfl) :
    Started dvnum s.disk (lfstart dvnum s) := by
  obtain ⟨hdisk, hpresent, hdirty, hcblk⟩ :=
    lflinit_fields dvnum (List.finRange nlfl) (lfsinit s)
  exact ⟨hdisk, hpresent, hdirty, fun fd => (hcblk fd (.inl (List.mem_finRange fd))).1,
    fun fd => (hcblk fd (.inl (List.mem_finRange fd))).2⟩

/-- The directory is read from the disk. -/
theorem Started.load (h : Started dvnum disk s) : s.load.disk = disk ∧ s.load.lfDirpresent = true ∧
    ∀ x, x < lfBlksiz → s.load.lfDir x = directory disk x := by
  unfold Lf.load
  rw [if_neg (by rw [h.present]; decide)]
  refine ⟨h.disk, rfl, ?_⟩
  intro x hx
  rw [← h.disk]
  exact if_pos hx

/-- The files that lie on the disk when no file is open. -/
structure OnDisk (k sectors : Int) (disk : Disk) (files : List (Extent nlfl))
    (freeIblocks freeDblocks : List Int) : Prop where
  nfiles : (directory disk).nfiles = files.length
  length_le : files.length ≤ 20
  ifree : Chained (nextIblock disk) lfInull (directory disk).ifree freeIblocks
  dfree : Chained (nextDblock disk) lfDnull (directory disk).dfree freeDblocks
  iblocks : SharedOut (Finset.Ico 0 (7 * k)) freeIblocks (files.map Extent.iblocks)
  dblocks : SharedOut (Finset.Ico (k + 1) sectors) freeDblocks (files.map Extent.dblocks)
  entry : ∀ (i : Nat) (f : Extent nlfl), files[i]? = some f → EntryOf (directory disk) i f
  short : ∀ (i : Nat) (f : Extent nlfl), files[i]? = some f → f.name.1.length < lfNameLen
  depth : ∀ (i : Nat) (f : Extent nlfl), files[i]? = some f →
    f.dblocks.length ≤ 16 * f.iblocks.length
  iblock : ∀ (i : Nat) (f : Extent nlfl), files[i]? = some f → ∀ j b, f.iblocks[j]? = some b →
    Describes f.iblocks f.dblocks j (lfibget disk b fun _ => 0)
  dblock : ∀ (i : Nat) (f : Extent nlfl), files[i]? = some f → ∀ m b, f.dblocks[m]? = some b →
    Stores f.bytes m (disk b)
  sized : ∀ (i : Nat) (f : Extent nlfl), files[i]? = some f → Sized f
  closed : ∀ (i : Nat) (f : Extent nlfl), files[i]? = some f → f.opener = none

/-- The system starts with the files on the disk. -/
theorem Started.represents {files : List (Extent nlfl)} {freeI freeD : List Int}
    (hstart : Started dvnum disk s) (h : OnDisk k sectors disk files freeI freeD) :
    Represents k sectors dvnum s ⟨files.map fun f => ⟨f.name, f.bytes⟩, fun _ => none⟩
      ⟨files, freeI, freeD, dvnum⟩ := by
  obtain ⟨hdisk, hpresent, hdir⟩ := hstart.load
  have hsize : lfBlksiz = 512 := rfl
  obtain ⟨hdfree, hifree, hnfiles⟩ := Lfdir.congr fun x hx => hdir x (by omega)
  have hclean : s.load.lfDirdirty = false := by
    rw [Lf.load_lfDirdirty]
    exact hstart.dirty
  constructor
  · constructor
    · exact hpresent
    · intro fd
      rw [Lf.load_lfltab]
      exact hstart.dev fd
    · exact hnfiles.trans h.nfiles
    · exact h.length_le
    · rw [hdisk, hifree]
      exact h.ifree
    · rw [hdisk, hdfree]
      exact h.dfree
    · exact h.iblocks
    · exact h.dblocks
    · intro i f hi
      have hlt := (List.getElem?_eq_some_iff.mp hi).1
      have hle := h.length_le
      dsimp only at hlt
      refine ⟨?_, h.short i f hi, h.depth i f hi, ?_, ?_, ?_⟩
      · apply (h.entry i f hi).congr (h.short i f hi)
        intro x _ hx
        unfold Lfdir.entry at hx
        exact hdir x (by omega)
      · intro j b hb
        rw [hdisk]
        exact .inr (h.iblock i f hi j b hb)
      · intro m b hb
        rw [hdisk]
        exact .inr (h.dblock i f hi m b hb)
      · intro fd pos hopen
        rw [h.closed i f hi] at hopen
        cases hopen
    · intro fd hused
      rw [Lf.load_lfltab, hstart.free fd] at hused
      cases hused
  · refine ⟨rfl, ?_⟩
    intro fd x
    constructor
    · intro hnone
      cases hnone
    · rintro ⟨f, hf, hopen⟩
      rw [h.closed x.file f hf] at hopen
      cases hopen
  · exact h.sized
  · rfl
  · exact fun _ => ⟨hstart.free, hstart.dirty⟩
  · intro _
    refine ⟨files.length, Nat.le_refl _, ?_, ?_, ?_, ?_, ?_⟩
    · rw [hdisk]
      exact h.nfiles
    · rw [hdisk, hifree]
    · rw [hdisk, hdfree]
    · intro i f _ hi
      rw [hdisk]
      exact h.entry i f hi
    · intro i f hle hi
      exact absurd (List.getElem?_eq_some_iff.mp hi).1 (Nat.not_lt.mpr hle)
  · intro hdirty
    rw [hstart.dirty] at hdirty
    cases hdirty

/-- A formatted disk has no files. -/
theorem Formatted.onDisk (h : Formatted before disk k sectors) :
    ∃ freeI freeD, OnDisk k sectors disk ([] : List (Extent nlfl)) freeI freeD := by
  obtain ⟨freeI, hchainI, hndI, hmemI⟩ := h.iblocks
  obtain ⟨freeD, hchainD, hndD, hmemD⟩ := h.dblocks
  have hnone : ∀ (i : Nat) (f : Extent nlfl), ([] : List (Extent nlfl))[i]? ≠ some f := by
    intro i f hi
    cases hi
  refine ⟨freeI, freeD, h.nfiles, Nat.zero_le _, hchainI, hchainD, ?_, ?_,
    fun i f hi => absurd hi (hnone i f), fun i f hi => absurd hi (hnone i f),
    fun i f hi => absurd hi (hnone i f), fun i f hi => absurd hi (hnone i f),
    fun i f hi => absurd hi (hnone i f), fun i f hi => absurd hi (hnone i f),
    fun i f hi => absurd hi (hnone i f)⟩
  · apply SharedOut.all_free hndI
    intro b
    rw [hmemI, Finset.mem_Ico, Set.mem_Ico]
  · apply SharedOut.all_free hndD
    intro b
    rw [hmemD, Finset.mem_Ico]
    exact Set.mem_Ico

end Start

section Runs

variable {k sectors : Int} {dev : Fin nlfl → Int} {s : Lf nlfl} {a : ByteFiles nlfl}
  {L : Layout nlfl} {lfiblks : Int} {dsiz n : Nat} {before disk : Disk}

/-! ## Runs -/

/-- No files. -/
def ByteFiles.none : ByteFiles nlfl :=
  ⟨[], fun _ => Option.none⟩

/-- A disk that `lfscreate` has formatted, with an index block and a data block at least. -/
structure Created (before : Disk) (lfiblks : Int) (dsiz : Nat) (disk : Disk) : Prop where
  pos : 1 ≤ lfiblks
  lt : lfiblks < 0x80000000
  dsiz_lt : dsiz < 0x100000000
  data : ¬ (dsiz / 512 = 2 ∧ lfiblks ≤ 7)
  accepted : (lfscreate before lfiblks dsiz).1 = ok
  disk : disk = (lfscreate before lfiblks dsiz).2

theorem Created.formatted (h : Created before lfiblks dsiz disk) :
    Formatted before disk (ibsectors lfiblks) (dsiz / 512) ∧
      Geometry (ibsectors lfiblks) (dsiz / 512) := by
  have hpos := h.pos
  have hlt := h.dsiz_lt
  have hdata := h.data
  obtain ⟨haccept, hrefuse⟩ :=
    lfscreate_eq before (show -0x80000000 ≤ lfiblks by omega) h.lt h.dsiz_lt
  by_cases hcond : -6 ≤ lfiblks ∧ ibsectors lfiblks ≤ dsiz / 512 / 2
  · rw [h.disk, haccept hcond]
    unfold ibsectors at hcond ⊢
    refine ⟨?_, by omega, by omega, by omega⟩
    apply Lfs.formatted <;> omega
  · have haccepted := h.accepted
    rw [hrefuse hcond] at haccepted
    exact absurd haccepted (show ¬ syserr = ok by decide)

theorem Created.related (h : Created before lfiblks dsiz s.disk) (dvnum : Fin nlfl → Int) :
    Related (ibsectors lfiblks) (dsiz / 512) dvnum (lfstart dvnum s) ByteFiles.none := by
  obtain ⟨freeI, freeD, hdisk⟩ : ∃ freeI freeD, OnDisk (ibsectors lfiblks) (dsiz / 512) s.disk
      ([] : List (Extent nlfl)) freeI freeD := h.formatted.1.onDisk
  exact ⟨_, (lfstart_started dvnum s).represents hdisk⟩

/-- Runs from states that belong together. -/
theorem run_matches (hgeometry : Geometry k sectors) (hn : 7 * k < n)
    (h : Related k sectors dev s a) (cs : List (LfCall nlfl)) :
    (runAll (execCall n) cs s).Matches
      (fun r r' => r.1 = r'.1 ∧ Related k sectors dev r.2 r'.2)
      (runAll (specCall (capacity k sectors) dev) cs a) :=
  runAll_matches (R := Related k sectors dev)
    (fun c _ _ hr => execCall_matches hgeometry hn hr c) cs h

/-- The calls return what they return for files of bytes, and the system is stopped when the
disk is full, never before. -/
theorem lfs_refines_byteFiles (h : Created before lfiblks dsiz s.disk)
    (hn : 7 * ibsectors lfiblks < n) (dvnum : Fin nlfl → Int) (cs : List (LfCall nlfl)) :
    Prod.fst <$> runAll (execCall n) cs (lfstart dvnum s) =
      Prod.fst <$> runAll (specCall (capacity (ibsectors lfiblks) (dsiz / 512)) dvnum) cs
        ByteFiles.none :=
  (run_matches h.formatted.2 hn (h.related dvnum) cs).map_eq fun _ _ hr => hr.1

/-- The ram disk with twenty index blocks, and a device for one open file. -/
def ramdisk : Lf 1 where
  disk := (lfscreate (fun _ _ => 0) 20 102400).2
  lfDir := fun _ => 0
  lfDirpresent := false
  lfDirdirty := false
  lfltab := fun _ => ⟨.free, 0, 0, 0, 0, fun _ => 0, 0, fun _ => 0, 0, fun _ => 0, 0, false, false⟩
  stack := fun _ _ => 0

theorem created_ramdisk : Created (fun _ _ => 0) 20 102400 ramdisk.disk where
  pos := by decide
  lt := by decide
  dsiz_lt := by decide
  data := by decide
  accepted := by
    rw [(lfscreate_eq _ (by decide) (by decide) (by decide)).1 (by decide)]
  disk := rfl

theorem zero_not_mem_name : (0 : UInt8) ∉ [102] := by
  decide

theorem zero_not_mem_mode : (0 : UInt8) ∉ ([] : List UInt8) :=
  List.not_mem_nil

/-- Four bytes are written to a new file, three are read, and the file is emptied. -/
def ramdiskCalls : List (LfCall 1) :=
  [.lfsopen ⟨[102], zero_not_mem_name⟩ ⟨[], zero_not_mem_mode⟩, .lflputc (Fin.last 0) 65,
    .lflwrite (Fin.last 0) (fun i => UInt8.ofNat (66 + i)) 3, .lflseek (Fin.last 0) 1,
    .lflread (Fin.last 0) 10, .lflcontrol (Fin.last 0) lfCtlTrunc, .lflclose (Fin.last 0)]

/-- Four bytes on the ram disk. -/
theorem ramdisk_answers : Prod.fst <$> runAll (execCall 22) ramdiskCalls
    (lfstart (fun _ => 7) ramdisk) = .returns [(7, []), (ok, []), (3, []), (ok, []),
      (3, [66, 67, 68]), (ok, []), (ok, [])] :=
  (lfs_refines_byteFiles created_ramdisk (by decide) (fun _ => 7) ramdiskCalls).trans
    (by decide +kernel)

/-! ## Blocks -/

/-- Every block is free or belongs to one file, and a file has as many blocks as its bytes
need. -/
def InOnePlace (k sectors : Int) (s : Lf nlfl) : Prop :=
  ∃ L, Laid k sectors s.load L ∧ ∀ (i : Nat) (f : Extent nlfl), L.files[i]? = some f → Sized f

/-- Every run ends, in a state that belongs to files of bytes. -/
theorem run_meets (h : Created before lfiblks dsiz s.disk) (hn : 7 * ibsectors lfiblks < n)
    (dvnum : Fin nlfl → Int) (cs : List (LfCall nlfl)) :
    (runAll (execCall n) cs (lfstart dvnum s)).Meets
      (fun r => ∃ a, Related (ibsectors lfiblks) (dsiz / 512) dvnum r.2 a) IsFull := by
  have hspec := runAll_meets (specCall_meets (capacity (ibsectors lfiblks) (dsiz / 512)) dvnum)
    cs ByteFiles.none
  apply ((run_matches h.formatted.2 hn (h.related dvnum) cs).meets hspec).mono
  · rintro r ⟨r', ⟨-, hrelated⟩, -⟩
    exact ⟨r'.2, hrelated⟩
  · exact fun _ hm => hm

/-- Every run ends, and then every block is free or belongs to one file. -/
theorem blocks_in_one_place (h : Created before lfiblks dsiz s.disk)
    (hn : 7 * ibsectors lfiblks < n) (dvnum : Fin nlfl → Int) (cs : List (LfCall nlfl)) :
    (runAll (execCall n) cs (lfstart dvnum s)).Meets
      (fun r => InOnePlace (ibsectors lfiblks) (dsiz / 512) r.2) IsFull := by
  apply (run_meets h hn dvnum cs).mono
  · rintro r ⟨a, L, hL⟩
    exact ⟨L, hL.laid, hL.sized⟩
  · exact fun _ hm => hm

/-- The blocks of the ram disk. -/
theorem ramdisk_blocks : (runAll (execCall 22) ramdiskCalls (lfstart (fun _ => 7) ramdisk)).Meets
    (fun r => InOnePlace (ibsectors 20) ((102400 : Nat) / 512) r.2) IsFull :=
  blocks_in_one_place created_ramdisk (by decide) (fun _ => 7) ramdiskCalls

/-! ## Written bytes -/

/-- Whatever is written to a file next, it is read. -/
def ReadsBack (n : Nat) (s : Lf nlfl) : Prop :=
  ∀ (fd : Fin nlfl) (offset : Nat) (buff : Chars) (count : Nat),
    (runAll (execCall n) (readBack fd offset buff count) s).Meets
      (fun r => IsReadBack buff count r.1) IsFull

theorem Related.readsBack (hgeometry : Geometry k sectors) (hn : 7 * k < n)
    (h : Related k sectors dev s a) : ReadsBack n s := by
  intro fd offset buff count
  have hvalid : ∀ x, a.opened fd = some x → x.file < a.files.length := by
    obtain ⟨L, h⟩ := h
    rintro ⟨i, pos⟩ hfd
    obtain ⟨-, f, hi, -⟩ := h.opened hfd
    rw [h.shown.length_eq]
    exact (List.getElem?_eq_some_iff.mp hi).1
  have hspec := readBack_meets hvalid (capacity k sectors) dev offset buff count
  apply ((run_matches hgeometry hn h (readBack fd offset buff count)).meets hspec).mono
  · rintro r ⟨r', ⟨hanswers, -⟩, hread⟩
    rw [hanswers]
    exact hread
  · exact fun _ hm => hm

/-- After every run, what is written to a file is read from it. -/
theorem written_is_read (h : Created before lfiblks dsiz s.disk)
    (hn : 7 * ibsectors lfiblks < n) (dvnum : Fin nlfl → Int) (cs : List (LfCall nlfl)) :
    (runAll (execCall n) cs (lfstart dvnum s)).Meets (fun r => ReadsBack n r.2) IsFull := by
  apply (run_meets h hn dvnum cs).mono
  · rintro r ⟨a, hrelated⟩
    exact hrelated.readsBack h.formatted.2 hn
  · exact fun _ hm => hm

/-- Bytes that are written to the ram disk. -/
theorem ramdisk_reads_back :
    (runAll (execCall 22) ramdiskCalls (lfstart (fun _ => 7) ramdisk)).Meets
      (fun r => ReadsBack 22 r.2) IsFull :=
  written_is_read created_ramdisk (by decide) (fun _ => 7) ramdiskCalls

/-! ## Restarts -/

@[simp]
theorem Lf.load_disk : s.load.disk = s.disk := by
  unfold load
  split <;> rfl

/-- When all files are closed, they lie on the disk, except for empty ones that were created
after the directory was written. -/
theorem Represents.onDisk (h : Represents k sectors dev s a L)
    (hclosed : ∀ fd, a.opened fd = none) :
    ∃ m, OnDisk k sectors s.disk (L.files.take m) L.freeIblocks L.freeDblocks ∧
      ∀ f ∈ L.files.drop m, f.bytes = [] := by
  have hclean : s.lfDirdirty = false := by
    by_contra hdirty
    obtain ⟨fd, hused⟩ := h.dirty ((Bool.not_eq_false _).mp hdirty)
    rw [h.free_iff.mpr (hclosed fd)] at hused
    cases hused
  obtain ⟨m, hm⟩ := h.saved hclean
  have hopener : ∀ (i : Nat) (f : Extent nlfl), L.files[i]? = some f → f.opener = none := by
    intro i f hi
    cases hopen : f.opener with
    | none => rfl
    | some x =>
        have hfd := (h.shown.opened x.1 ⟨i, x.2⟩).mpr ⟨f, hi, hopen⟩
        rw [hclosed] at hfd
        cases hfd
  have hempty : ∀ f ∈ L.files.drop m, f.bytes = [] := by
    intro f hf
    obtain ⟨i, hi⟩ := List.mem_iff_getElem?.mp hf
    rw [List.getElem?_drop] at hi
    exact hm.empty (m + i) f (Nat.le_add_right m i) hi
  have hsized : ∀ f ∈ L.files.drop m, f.iblocks = [] ∧ f.dblocks = [] := by
    intro f hf
    obtain ⟨i, hi⟩ := List.mem_iff_getElem?.mp (List.mem_of_mem_drop hf)
    have hlen : f.bytes.length = 0 := List.length_eq_zero_iff.mpr (hempty f hf)
    have hiblocks := (h.sized i f hi).iblocks
    have hdblocks := (h.sized i f hi).dblocks
    exact ⟨List.length_eq_zero_iff.mp (by omega), List.length_eq_zero_iff.mp (by omega)⟩
  have htake : ∀ (i : Nat) (f : Extent nlfl), (L.files.take m)[i]? = some f →
      i < m ∧ L.files[i]? = some f := by
    intro i f hi
    rw [List.getElem?_take] at hi
    split at hi
    · next hlt => exact ⟨hlt, hi⟩
    · cases hi
  have hlaid := h.laid
  have hfile := hlaid.file
  have hnfiles := hm.nfiles
  have hifree := hm.ifree
  have hdfree := hm.dfree
  have hentry := hm.entry
  have hchainI := hlaid.ifree
  have hchainD := hlaid.dfree
  rw [← hifree, Lf.load_disk] at hchainI
  rw [← hdfree, Lf.load_disk] at hchainD
  rw [Lf.load_disk] at hnfiles
  have hlength : (L.files.take m).length = m := List.length_take_of_le hm.le
  refine ⟨m, ⟨?_, ?_, hchainI, hchainD, ?_, ?_, ?_, ?_, ?_, ?_, ?_, ?_, ?_⟩, hempty⟩
  · rw [hnfiles, hlength]
  · rw [hlength]
    exact Nat.le_trans hm.le hlaid.length_le
  · rw [List.map_take]
    apply hlaid.iblocks.take
    intro l hl
    rw [← List.map_drop, List.mem_map] at hl
    obtain ⟨f, hf, rfl⟩ := hl
    exact (hsized f hf).1
  · rw [List.map_take]
    apply hlaid.dblocks.take
    intro l hl
    rw [← List.map_drop, List.mem_map] at hl
    obtain ⟨f, hf, rfl⟩ := hl
    exact (hsized f hf).2
  · intro i f hi
    obtain ⟨hlt, hi'⟩ := htake i f hi
    have hsaved := hentry i f hlt hi'
    rwa [Lf.load_disk] at hsaved
  · exact fun i f hi => (hfile i f (htake i f hi).2).short
  · exact fun i f hi => (hfile i f (htake i f hi).2).depth
  · intro i f hi j b hb
    have hi' := (htake i f hi).2
    rcases (hfile i f hi').iblock j b hb with ⟨fd, pos, hopen, -⟩ | hdescribes
    · rw [hopener i f hi'] at hopen
      cases hopen
    · rwa [Lf.load_disk] at hdescribes
  · intro i f hi x b hb
    have hi' := (htake i f hi).2
    rcases (hfile i f hi').dblock x b hb with ⟨fd, pos, hopen, -⟩ | hstores
    · rw [hopener i f hi'] at hopen
      cases hopen
    · rwa [Lf.load_disk] at hstores
  · exact fun i f hi => h.sized i f (htake i f hi).2
  · exact fun i f hi => hopener i f (htake i f hi).2

/-- When all files are closed, the disk alone has the files: after a restart, the calls return
what they return for these files.  Only files behind the last write of the directory are lost,
and they are empty. -/
def Survives (cap : Capacity) (n : Nat) (s : Lf nlfl) (a : ByteFiles nlfl) : Prop :=
  (∀ fd, a.opened fd = none) → ∃ m, (∀ f ∈ a.files.drop m, f.bytes = []) ∧
    ∀ (dvnum : Fin nlfl → Int) (t : Lf nlfl) (cs : List (LfCall nlfl)), t.disk = s.disk →
      Prod.fst <$> runAll (execCall n) cs (lfstart dvnum t) =
        Prod.fst <$> runAll (specCall cap dvnum) cs ⟨a.files.take m, fun _ => none⟩

/-- After every run, the disk has the files if they are all closed. -/
theorem closed_files_survive (h : Created before lfiblks dsiz s.disk)
    (hn : 7 * ibsectors lfiblks < n) (dvnum : Fin nlfl → Int) (cs : List (LfCall nlfl)) :
    (runAll (execCall n) cs (lfstart dvnum s)).Matches
      (fun r r' => Survives (capacity (ibsectors lfiblks) (dsiz / 512)) n r.2 r'.2)
      (runAll (specCall (capacity (ibsectors lfiblks) (dsiz / 512)) dvnum) cs
        ByteFiles.none) := by
  have hgeometry := h.formatted.2
  apply (run_matches hgeometry hn (h.related dvnum) cs).mono
  rintro r r' ⟨-, L, hL⟩ hclosed
  obtain ⟨m, hdisk, hempty⟩ := hL.onDisk hclosed
  refine ⟨m, ?_, ?_⟩
  · intro f hf
    rw [hL.shown.files, ← List.map_drop, List.mem_map] at hf
    obtain ⟨g, hg, rfl⟩ := hf
    exact hempty g hg
  · intro dvnum' t cs' ht
    rw [← ht] at hdisk
    have hrep := (lfstart_started dvnum' t).represents hdisk
    rw [List.map_take, ← hL.shown.files] at hrep
    exact (run_matches hgeometry hn ⟨_, hrep⟩ cs').map_eq fun _ _ hr => hr.1

/-- A restart from the ram disk. -/
theorem ramdisk_survives :
    (runAll (execCall 22) ramdiskCalls (lfstart (fun _ => 7) ramdisk)).Matches
      (fun r r' => Survives (capacity (ibsectors 20) ((102400 : Nat) / 512)) 22 r.2 r'.2)
      (runAll (specCall (capacity (ibsectors 20) ((102400 : Nat) / 512)) fun _ => 7) ramdiskCalls
        ByteFiles.none) :=
  closed_files_survive created_ramdisk (by decide) (fun _ => 7) ramdiskCalls

end Runs

end Lfs
end Xinu
