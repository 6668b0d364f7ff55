import Xinu.FileSystem.Files
import Xinu.Foundations.CallSequence

/-!
# The directory of the in-memory file system

Files are created while others are closed and written.  A file takes a directory entry
before it is known whether there is a descriptor for it, and an inode whether it is free or
not.

Main results:

- Theorem `directory_sound`: as long as there is room for the files that are created, the
  directory has an entry with an inode of its own for each; but the empty name is found
  before anything has been created.
- Theorem `directory_overflows`: the entries may be more than the directory has room for.
-/

namespace Xinu
namespace FileSystem

open Foundations Function

/-- A call; descriptors are those of the table. -/
inductive FsCall
  | create (filename : CString) (mode : Int)
  | close (fd : Fin 16)
  | write (fd : Fin 16) (buf : Chars) (nbytes : Int)

def FsCall.exec : FsCall → Fs → Int × Fs
  | .create filename mode, s => fsCreate filename mode s
  | .close fd, s => fsClose (fd : Nat) s
  | .write fd buf nbytes, s => fsWrite (fd : Nat) buf nbytes s

/-- The name of the file that a call has created. -/
def createdBy : FsCall × Int → Option CString
  | (.create filename _, r) => if r = syserr then none else some filename
  | _ => none

/-- The names of the files that were created. -/
def created (tr : List (FsCall × Int)) : List CString :=
  tr.filterMap createdBy

theorem created_snoc (tr : List (FsCall × Int)) (x : FsCall × Int) :
    created (tr ++ [x]) = created tr ++ (createdBy x).toList := by
  have hlast : [x].filterMap createdBy = (createdBy x).toList := by
    cases hx : createdBy x with
    | none => rw [List.filterMap_cons_none hx, List.filterMap_nil, Option.toList_none]
    | some name => rw [List.filterMap_cons_some hx, List.filterMap_nil, Option.toList_some]
  unfold created
  rw [List.filterMap_append, hlast]

/-- The entries of the directory. -/
def Fs.entries (s : Fs) : List Dirent :=
  (List.range s.fsd.numentries).map s.fsd.entry

/-- The directory has room for its entries, of which there is one for each file that was
created; their names and inodes are different; and of the names that satisfy `p` exactly
those of the files are found. -/
structure SoundFor (p : CString → Prop) (files : List CString) (s : Fs) : Prop where
  count : s.fsd.numentries ≤ directorySize
  counted : s.fsd.numentries = files.length
  names : (s.entries.map Dirent.name).Nodup
  inodes : (s.entries.map Dirent.inodeNum).Nodup
  inode_range : ∀ d ∈ s.entries, 0 ≤ d.inodeNum ∧ d.inodeNum < s.fsd.ninodes
  found : ∀ name, p name → ((s.find name).isSome ↔ name ∈ files)

/-- A call that fails to create a file leaves the directory, the open files and the inodes as
they were. -/
def Refuses (filename : CString) (mode : Int) (s : Fs) : Prop :=
  (fsCreate filename mode s).1 = syserr →
    (fsCreate filename mode s).2.fsd = s.fsd ∧ (fsCreate filename mode s).2.oft = s.oft ∧
      (fsCreate filename mode s).2.store = s.store

/-- After every sequence of calls the directory is sound, and no call that fails to create a
file changes it. -/
def DirectorySound (s₀ : Fs) : Prop :=
  ∀ tr s, Calls FsCall.exec (fun _ _ => True) s₀ tr s →
    SoundFor (fun _ => True) (created tr) s ∧ ∀ filename mode, Refuses filename mode s

/-- There is room for a new file: its name fits, there are an entry and a descriptor for it,
the inodes of the other files are not free on the device, and there is a free inode, or at
least the next one does not belong to a file. -/
structure Room (filename : CString) (s : Fs) : Prop where
  name : filename.1.length < filenamelen
  entry : s.fsd.numentries < directorySize
  descriptor : ∃ fd : Nat, fd < numFd.toNat ∧ (s.oft fd).state = .closed
  kept : ∀ i : Nat, i < s.fsd.numentries → s.freeInode (s.fsd.entry i).inodeNum = false
  inode : (∃ k : Nat, k < s.fsd.ninodes.toNat ∧ s.freeInode k = true) ∨
    ∀ i : Nat, i < s.fsd.numentries → (s.fsd.entry i).inodeNum ≠ s.nextFreeInode

/-- A file is created only where there is room for it. -/
def Orderly (s : Fs) : FsCall → Prop
  | .create filename mode =>
      mode = oCreat → filename.1.length ≤ filenamelen → s.find filename = none → Room filename s
  | _ => True

/-- Memory after the system has started: the static variables are zero. -/
def fsBoot (store : BlockStore) (cache : Chars) : Fs where
  store := store
  fsd := ⟨0, 0, 0, 0, 0, 0, 0, fun _ => ⟨0, ⟨[], List.not_mem_nil⟩⟩⟩
  mask := fun _ => 0
  oft := fun _ => ⟨.closed, 0, 0, fun _ => 0⟩
  nextOpenFd := 0
  nextFreeDataBlock := 0
  nextFreeInode := 0
  blockCache := cache

/-- What `fs_mkfs` leaves on a device. -/
def FsStart (s : Fs) : Prop :=
  ∃ store cache numInodes memory, fsMkfs 0 numInodes memory (fsBoot store cache) = (1, s)

/-! ## A new file system -/

section Start

variable {s : Fs}

/-- The directory is empty, and the cursors are at the beginning. -/
structure NoFiles (s : Fs) : Prop where
  numentries : s.fsd.numentries = 0
  entry : ∀ i, (s.fsd.entry i).name.1 = []
  ninodes : 0 < s.fsd.ninodes
  nextOpenFd : s.nextOpenFd = 0
  nextFreeInode : s.nextFreeInode = 0
  blocksz : s.fsd.blocksz = s.store.blocksize

theorem FsStart.noFiles (h : FsStart s) : NoFiles s := by
  obtain ⟨store, cache, numInodes, memory, hmade⟩ := h
  cases memory with
  | none =>
      have hfail : (1 : Int) = syserr := congrArg Prod.fst hmade.symm
      cases hfail
  | some m =>
      obtain rfl : _ = s := congrArg Prod.snd hmade
      constructor
      · rfl
      · exact fun i => rfl
      · show 0 < if numInodes < 1 then defaultNumInodes else numInodes
        split
        · decide
        · omega
      · rfl
      · rfl
      · show store.blocksize = (bsBwrite _ _ _ _ _ _).2.blocksize
        rw [bsBwrite_blocksize]
        exact (bsBwrite_blocksize _ _ _ _ _ _).symm

end Start

/-! ## Finding names -/

section Find

variable {s : Fs} {name filename : CString} {i n : Nat} {e : Dirent}

theorem CString.take_of_short (h : name.1.length ≤ n) : name.take n = name :=
  Subtype.ext (List.take_of_length_le h)

/-- Short names are found if they are those of entries. -/
theorem find_isSome_iff
    (hshort : ∀ i, i < directorySize → (s.fsd.entry i).name.1.length < filenamelen) :
    (s.find name).isSome ↔ ∃ i, i < directorySize ∧ (s.fsd.entry i).name = name := by
  unfold Fs.find
  rw [List.find?_isSome]
  have hiff : ∀ i, i < directorySize →
      (strncmp (s.fsd.entry i).name.1 name.1 filenamelen = 0 ↔ (s.fsd.entry i).name = name) := by
    intro i hi
    have hlt := hshort i hi
    rw [strncmp_eq_zero_iff (s.fsd.entry i).name.2 name.2,
      List.take_of_length_le (Nat.le_of_lt hlt), Subtype.ext_iff]
    constructor
    · intro heq
      have hlen : (name.1.take filenamelen).length < filenamelen := by
        rw [← heq]
        exact hlt
      rw [List.length_take] at hlen
      rw [heq]
      exact List.take_of_length_le (by omega)
    · intro heq
      rw [heq] at hlt ⊢
      exact (List.take_of_length_le (Nat.le_of_lt hlt)).symm
  constructor
  · rintro ⟨i, hi, hcmp⟩
    rw [List.mem_range] at hi
    exact ⟨i, hi, (hiff i hi).mp (decide_eq_true_iff.mp hcmp)⟩
  · rintro ⟨i, hi, heq⟩
    exact ⟨i, List.mem_range.mpr hi, decide_eq_true_iff.mpr ((hiff i hi).mpr heq)⟩

theorem nodup_snoc {α : Type} {l : List α} {a : α} (h : l.Nodup) (ha : a ∉ l) :
    (l ++ [a]).Nodup :=
  (List.perm_append_singleton a l).nodup_iff.mpr (List.nodup_cons.mpr ⟨ha, h⟩)

/-- The entries with one more behind them. -/
theorem map_range_update {α : Type} (f : Nat → α) (n : Nat) (a : α) :
    (List.range (n + 1)).map (update f n a) = (List.range n).map f ++ [a] := by
  rw [List.range_succ, List.map_append, List.map_singleton, update_self]
  congr 1
  apply List.map_congr_left
  intro i hi
  exact update_of_ne (Nat.ne_of_lt (List.mem_range.mp hi)) a f

end Find

/-! ## Creating a file -/

section Create

variable {s : Fs} {filename : CString}

/-- The state in which an inode is looked for. -/
def Fs.prepared (filename : CString) (s : Fs) : Fs :=
  (s.addEntry filename).findFd.openFd s.fsd.numentries

/-- The state in which the inode is written. -/
def Fs.complete (filename : CString) (s : Fs) : Fs :=
  let s₁ := s.prepared filename
  (inodeSearch s₁.nextOpenFd s₁.fsd.ninodes.toNat s₁).record s.fsd.numentries

/-- The file can be created. -/
theorem fsCreate_done (hlen : filename.1.length ≤ filenamelen) (hnew : s.find filename = none)
    (hfd : ((s.addEntry filename).findFd.oft (s.addEntry filename).findFd.nextOpenFd).state =
      .closed) :
    fsCreate filename oCreat s = ((s.complete filename).nextOpenFd,
      ((s.complete filename).writeInode (s.complete filename).nextOpenFd).2) := by
  have hfd' : ¬ ((s.addEntry filename).findFd.oft
      (s.addEntry filename).findFd.nextOpenFd).state ≠ .closed := fun h => h hfd
  unfold fsCreate
  rw [if_neg (fun h => h rfl), if_neg (Nat.not_lt_of_le hlen), hnew, if_neg (by decide),
    if_neg hfd']
  rfl

/-- What the new file adds to the directory. -/
structure Creates (filename : CString) (s s' : Fs) : Prop where
  numentries : s'.fsd.numentries = s.fsd.numentries + 1
  entry : s'.fsd.entry = update s.fsd.entry s.fsd.numentries
    ⟨s'.nextFreeInode, filename.take (filenamelen - 1)⟩
  ninodes : s'.fsd.ninodes = s.fsd.ninodes
  blocksz : s'.fsd.blocksz = s.fsd.blocksz
  blocksize : s'.store.blocksize = s.store.blocksize
  nextOpenFd : s'.nextOpenFd = s.findFd.nextOpenFd
  nextFreeInode : s'.nextFreeInode =
    sweep s.freeInode s.fsd.ninodes s.fsd.ninodes.toNat s.nextFreeInode

theorem Creates.same {s' s'' : Fs} (h : Creates filename s s') (hsame : SameFiles s' s'') :
    Creates filename s s'' := by
  constructor
  · rw [hsame.fsd]
    exact h.numentries
  · rw [hsame.fsd, hsame.nextFreeInode]
    exact h.entry
  · rw [hsame.fsd]
    exact h.ninodes
  · rw [hsame.fsd]
    exact h.blocksz
  · exact hsame.blocksize.trans h.blocksize
  · exact hsame.nextOpenFd.trans h.nextOpenFd
  · exact hsame.nextFreeInode.trans h.nextFreeInode

theorem complete_creates (filename : CString) (h : Geometry s) (hlow : 0 ≤ s.nextFreeInode)
    (hhigh : s.nextFreeInode < s.fsd.ninodes) : Creates filename s (s.complete filename) := by
  obtain ⟨hfsd, hstore, hfd⟩ := inodeSearch_frame (s.prepared filename).nextOpenFd
    (s.prepared filename).fsd.ninodes.toNat (s.prepared filename)
  have hgeometry : Geometry (s.prepared filename) := h.same rfl rfl
  have hnext := inodeSearch_next hgeometry (s.prepared filename).nextOpenFd
    (s.prepared filename).fsd.ninodes.toNat hlow hhigh
  have hfree : (s.prepared filename).freeInode = s.freeInode := freeInode_congr rfl rfl rfl
  rw [hfree] at hnext
  unfold Fs.complete
  dsimp only
  generalize inodeSearch _ _ (s.prepared filename) = s₂ at hfsd hstore hfd hnext
  have hentry : s₂.fsd.entry = update s.fsd.entry s.fsd.numentries
      ⟨-1, filename.take (filenamelen - 1)⟩ := congrArg Fsystem.entry hfsd
  constructor
  · exact congrArg Fsystem.numentries hfsd
  · show update s₂.fsd.entry s.fsd.numentries
      { s₂.fsd.entry s.fsd.numentries with inodeNum := s₂.nextFreeInode } = _
    rw [hentry, update_self, update_idem]
    rfl
  · show s₂.fsd.ninodes = s.fsd.ninodes
    rw [hfsd]
    rfl
  · show s₂.fsd.blocksz = s.fsd.blocksz
    rw [hfsd]
    rfl
  · exact congrArg BlockStore.blocksize hstore
  · exact hfd
  · exact hnext

/-- There is a closed descriptor, and the search finds one. -/
theorem findFd_closed (hlow : 0 ≤ s.nextOpenFd) (hhigh : s.nextOpenFd < numFd)
    (hclosed : ∃ fd : Nat, fd < numFd.toNat ∧ (s.oft fd).state = .closed) :
    (s.oft s.findFd.nextOpenFd).state = .closed := by
  obtain ⟨fd, hfd, hstate⟩ := hclosed
  have hlt : (fd : Int) < numFd := by
    unfold numFd at hfd ⊢
    omega
  rcases sweep_whole (fun fd => (s.oft fd).state = .closed) hlow hhigh with
    hfound | ⟨-, hnone⟩
  · exact decide_eq_true_iff.mp hfound
  · have hopen := hnone fd (Int.natCast_nonneg fd) hlt
    rw [decide_eq_false_iff_not] at hopen
    exact absurd hstate hopen

theorem findFd_range (hlow : 0 ≤ s.nextOpenFd) (hhigh : s.nextOpenFd < numFd) :
    0 ≤ s.findFd.nextOpenFd ∧ s.findFd.nextOpenFd < numFd :=
  sweep_range _ hlow hhigh

end Create

/-! ## The invariant -/

section Invariant

variable {s s' : Fs} {files : List CString} {filename name : CString}

/-- The entries in use are those of the files, the others have no names, and the cursors are
in their ranges. -/
structure DirInv (files : List CString) (s : Fs) : Prop where
  geometry : Geometry s
  fd_nonneg : 0 ≤ s.nextOpenFd
  fd_lt : s.nextOpenFd < numFd
  cursor_nonneg : 0 ≤ s.nextFreeInode
  cursor_lt : s.nextFreeInode < s.fsd.ninodes
  count : s.fsd.numentries ≤ directorySize
  listed : s.entries.map Dirent.name = files
  unused : ∀ i, s.fsd.numentries ≤ i → (s.fsd.entry i).name.1 = []
  named : ∀ name ∈ files, name.1 ≠ [] ∧ name.1.length < filenamelen
  nodup : files.Nodup
  inodes : (s.entries.map Dirent.inodeNum).Nodup
  inode_range : ∀ d ∈ s.entries, 0 ≤ d.inodeNum ∧ d.inodeNum < s.fsd.ninodes

theorem DirInv.same (h : DirInv files s) (hsame : SameFiles s s') : DirInv files s' := by
  have hentries : s'.entries = s.entries := by
    unfold Fs.entries
    rw [hsame.fsd]
  constructor
  · exact h.geometry.same (congrArg Fsystem.blocksz hsame.fsd) hsame.blocksize
  · rw [hsame.nextOpenFd]
    exact h.fd_nonneg
  · rw [hsame.nextOpenFd]
    exact h.fd_lt
  · rw [hsame.nextFreeInode]
    exact h.cursor_nonneg
  · rw [hsame.nextFreeInode, hsame.fsd]
    exact h.cursor_lt
  · rw [hsame.fsd]
    exact h.count
  · rw [hentries]
    exact h.listed
  · rw [hsame.fsd]
    exact h.unused
  · exact h.named
  · exact h.nodup
  · rw [hentries]
    exact h.inodes
  · rw [hentries, hsame.fsd]
    exact h.inode_range

theorem DirInv.mem_files (h : DirInv files s) {i : Nat} (hi : i < s.fsd.numentries) :
    (s.fsd.entry i).name ∈ files := by
  rw [← h.listed]
  apply List.mem_map_of_mem
  exact List.mem_map_of_mem (List.mem_range.mpr hi)

theorem DirInv.short (h : DirInv files s) (i : Nat) :
    (s.fsd.entry i).name.1.length < filenamelen := by
  rcases Nat.lt_or_ge i s.fsd.numentries with hi | hi
  · exact (h.named _ (h.mem_files hi)).2
  · rw [h.unused i hi]
    decide

/-- Exactly the names of the files are found, but for the empty name. -/
theorem DirInv.found (h : DirInv files s) (hname : name.1 ≠ []) :
    (s.find name).isSome ↔ name ∈ files := by
  rw [find_isSome_iff fun i _ => h.short i]
  constructor
  · rintro ⟨i, -, rfl⟩
    rcases Nat.lt_or_ge i s.fsd.numentries with hi | hi
    · exact h.mem_files hi
    · exact absurd (h.unused i hi) hname
  · intro hmem
    rw [← h.listed] at hmem
    obtain ⟨d, hd, rfl⟩ := List.mem_map.mp hmem
    obtain ⟨i, hi, rfl⟩ := List.mem_map.mp hd
    exact ⟨i, Nat.lt_of_lt_of_le (List.mem_range.mp hi) h.count, rfl⟩

theorem DirInv.soundFor (h : DirInv files s) : SoundFor (fun name => name.1 ≠ []) files s := by
  constructor
  · exact h.count
  · rw [← h.listed]
    simp [Fs.entries]
  · rw [h.listed]
    exact h.nodup
  · exact h.inodes
  · exact h.inode_range
  · exact fun name hname => h.found hname

/-- An inode is found that belongs to no other file. -/
theorem DirInv.new_inode (h : DirInv files s) (hroom : Room filename s) :
    ∀ d ∈ s.entries,
      d.inodeNum ≠ sweep s.freeInode s.fsd.ninodes s.fsd.ninodes.toNat s.nextFreeInode := by
  intro d hd heq
  obtain ⟨i, hi, rfl⟩ := List.mem_map.mp hd
  have hi' := List.mem_range.mp hi
  rcases sweep_whole s.freeInode h.cursor_nonneg h.cursor_lt with hfree | ⟨hback, hnone⟩
  · rw [← heq, hroom.kept i hi'] at hfree
    contradiction
  · rcases hroom.inode with ⟨k, hk, hfree⟩ | hother
    · rw [hnone k (Int.natCast_nonneg k) (by omega)] at hfree
      contradiction
    · exact hother i hi' (heq.trans hback)

/-- A file that is created where there is room for it. -/
theorem DirInv.create (h : DirInv files s) (hroom : Room filename s)
    (hnew : s.find filename = none) (hcreates : Creates filename s s') :
    DirInv (files ++ [filename]) s' := by
  have hnonempty : filename.1 ≠ [] := by
    intro hempty
    have hfound : (s.find filename).isSome := by
      rw [find_isSome_iff fun i _ => h.short i]
      exact ⟨_, hroom.entry, Subtype.ext ((h.unused _ (Nat.le_refl _)).trans hempty.symm)⟩
    rw [hnew] at hfound
    contradiction
  have hnotmem : filename ∉ files := by
    rw [← h.found hnonempty, hnew]
    exact Bool.false_ne_true
  have hname : filename.take (filenamelen - 1) = filename :=
    CString.take_of_short (Nat.le_sub_one_of_lt hroom.name)
  have hentries : s'.entries = s.entries ++ [⟨s'.nextFreeInode, filename⟩] := by
    unfold Fs.entries
    rw [hcreates.numentries, hcreates.entry, hname, map_range_update]
  have hrange : 0 ≤ s'.nextFreeInode ∧ s'.nextFreeInode < s.fsd.ninodes := by
    rw [hcreates.nextFreeInode]
    exact sweep_range s.freeInode h.cursor_nonneg h.cursor_lt
  have hfd := findFd_range h.fd_nonneg h.fd_lt
  constructor
  · exact h.geometry.same hcreates.blocksz hcreates.blocksize
  · rw [hcreates.nextOpenFd]
    exact hfd.1
  · rw [hcreates.nextOpenFd]
    exact hfd.2
  · exact hrange.1
  · rw [hcreates.ninodes]
    exact hrange.2
  · rw [hcreates.numentries]
    exact hroom.entry
  · rw [hentries, List.map_append, h.listed]
    rfl
  · intro i hi
    rw [hcreates.numentries] at hi
    rw [hcreates.entry, update_of_ne (by omega)]
    exact h.unused i (by omega)
  · intro name hmem
    rcases List.mem_append.mp hmem with hold | hlast
    · exact h.named name hold
    · rw [List.mem_singleton.mp hlast]
      exact ⟨hnonempty, hroom.name⟩
  · exact nodup_snoc h.nodup hnotmem
  · rw [hentries, List.map_append, List.map_singleton]
    apply nodup_snoc h.inodes
    intro hmem
    obtain ⟨d, hd, heq⟩ := List.mem_map.mp hmem
    rw [hcreates.nextFreeInode] at heq
    exact h.new_inode hroom d hd heq
  · intro d hd
    rw [hcreates.ninodes]
    rw [hentries] at hd
    rcases List.mem_append.mp hd with hold | hlast
    · exact h.inode_range d hold
    · rw [List.mem_singleton.mp hlast]
      exact hrange

/-- The call is refused at once, or it goes on to create the file. -/
theorem fsCreate_cases (filename : CString) (mode : Int) (s : Fs) :
    fsCreate filename mode s = (syserr, s) ∨
      mode = oCreat ∧ filename.1.length ≤ filenamelen ∧ s.find filename = none := by
  by_cases hmode : mode ≠ oCreat
  · left
    rw [fsCreate, if_pos hmode]
  by_cases hlen : filename.1.length > filenamelen
  · left
    rw [fsCreate, if_neg hmode, if_pos hlen]
  by_cases hfound : (s.find filename).isSome
  · left
    rw [fsCreate, if_neg hmode, if_neg hlen, if_pos hfound]
  right
  exact ⟨not_ne_iff.mp hmode, Nat.le_of_not_lt hlen, Option.not_isSome_iff_eq_none.mp hfound⟩

/-- Where there is room the file is created. -/
theorem DirInv.creates (h : DirInv files s) (hroom : Room filename s) {mode : Int}
    (hmode : mode = oCreat) (hlen : filename.1.length ≤ filenamelen)
    (hnew : s.find filename = none) :
    ∃ r s', fsCreate filename mode s = (r, s') ∧ r ≠ syserr ∧
      Creates filename s s' := by
  have hcreates := complete_creates filename h.geometry h.cursor_nonneg h.cursor_lt
  have hclosed := findFd_closed h.fd_nonneg h.fd_lt hroom.descriptor
  have hfd := (findFd_range h.fd_nonneg h.fd_lt).1
  rw [hmode, fsCreate_done hlen hnew hclosed]
  refine ⟨_, _, rfl, ?_, hcreates.same (writeInode_same _ _)⟩
  rw [hcreates.nextOpenFd]
  unfold syserr
  omega

/-- A call that is orderly. -/
theorem DirInv.call (h : DirInv files s) {c : FsCall} (horderly : Orderly s c) :
    DirInv (files ++ (createdBy (c, (c.exec s).1)).toList) (c.exec s).2 := by
  have hkeep : ∀ r s', SameFiles s s' → createdBy (c, r) = none →
      DirInv (files ++ (createdBy (c, r)).toList) s' := by
    intro r s' hsame hnone
    rw [hnone, Option.toList_none, List.append_nil]
    exact h.same hsame
  cases c with
  | close fd => exact hkeep _ _ (fsClose_same _ s) rfl
  | write fd buf nbytes => exact hkeep _ _ (fsWrite_same _ buf nbytes s) rfl
  | create filename mode =>
      rcases fsCreate_cases filename mode s with
        hrefused | ⟨hmode, hlen, hnew⟩
      · show DirInv (files ++ (createdBy (_, (fsCreate filename mode s).1)).toList)
          (fsCreate filename mode s).2
        rw [hrefused]
        exact hkeep syserr s (.refl s) rfl
      · have hroom := horderly hmode hlen hnew
        obtain ⟨r, s', hdone, hr, hcreates⟩ := h.creates hroom hmode hlen hnew
        show DirInv (files ++ (createdBy (_, (fsCreate filename mode s).1)).toList)
          (fsCreate filename mode s).2
        rw [hdone]
        have hcreated : createdBy (FsCall.create filename mode, r) = some filename := if_neg hr
        rw [hcreated]
        exact h.create hroom hnew hcreates

theorem NoFiles.inv (h : NoFiles s) (hge : inodeSize ≤ s.store.blocksize)
    (hle : s.store.blocksize ≤ 512) : DirInv [] s := by
  have hentries : s.entries = [] := by
    unfold Fs.entries
    rw [h.numentries]
    rfl
  constructor
  · exact ⟨h.blocksz, hge, by omega⟩
  · rw [h.nextOpenFd]
  · rw [h.nextOpenFd]
    decide
  · rw [h.nextFreeInode]
  · rw [h.nextFreeInode]
    exact h.ninodes
  · rw [h.numentries]
    decide
  · rw [hentries]
    rfl
  · exact fun i _ => h.entry i
  · exact fun name hname => absurd hname List.not_mem_nil
  · exact List.nodup_nil
  · rw [hentries]
    exact List.nodup_nil
  · rw [hentries]
    exact fun d hd => absurd hd List.not_mem_nil

/-- After orderly calls the invariant holds of the files that were created. -/
theorem DirInv.run {s₀ : Fs} {tr : List (FsCall × Int)} (h : DirInv [] s₀)
    (hcalls : Calls FsCall.exec Orderly s₀ tr s) : DirInv (created tr) s := by
  apply hcalls.invariant (P := fun tr s => DirInv (created tr) s) h
  intro tr s c hinv horderly
  rw [created_snoc]
  exact hinv.call horderly

/-- A call that fails to create a file where there is room has been refused at once. -/
theorem DirInv.refuses (h : DirInv files s) {mode : Int}
    (horderly : Orderly s (.create filename mode)) : Refuses filename mode s := by
  intro hfail
  rcases fsCreate_cases filename mode s with
    hrefused | ⟨hmode, hlen, hnew⟩
  · rw [hrefused]
    exact ⟨rfl, rfl, rfl⟩
  · obtain ⟨r, s', hdone, hr, -⟩ := h.creates (horderly hmode hlen hnew) hmode hlen hnew
    rw [hdone] at hfail
    exact absurd hfail hr

end Invariant

/-! ## Runs -/

section Runs

variable {s : Fs}

/-- The empty name is found in an empty directory. -/
theorem NoFiles.not_sound (h : NoFiles s) : ¬ DirectorySound s := by
  intro hsound
  have hfound := (hsound [] s .start).1.found ⟨[], List.not_mem_nil⟩ trivial
  have hshort : ∀ i, i < directorySize → (s.fsd.entry i).name.1.length < filenamelen := by
    intro i _
    rw [h.entry i]
    decide
  rw [find_isSome_iff hshort] at hfound
  have hmem := hfound.mp ⟨0, by decide, Subtype.ext (h.entry 0)⟩
  exact List.not_mem_nil hmem

/--
The directory of a new file system is not sound, as the empty name is found in it.  For the
other names it is sound after every sequence of calls in which files are created only where
there is room for them, on a device whose blocks hold an inode and fit the cache.
-/
theorem directory_sound (h : FsStart s) : ¬ DirectorySound s ∧
    (inodeSize ≤ s.store.blocksize → s.store.blocksize ≤ 512 →
      ∀ tr s', Calls FsCall.exec Orderly s tr s' →
        SoundFor (fun name => name.1 ≠ []) (created tr) s' ∧
          ∀ filename mode, Orderly s' (.create filename mode) → Refuses filename mode s') := by
  have hno := h.noFiles
  refine ⟨hno.not_sound, ?_⟩
  intro hge hle tr s' hcalls
  have hinv := (hno.inv hge hle).run hcalls
  exact ⟨hinv.soundFor, fun filename mode horderly => hinv.refuses horderly⟩

instance (filename : CString) (s : Fs) : Decidable (Room filename s) :=
  decidable_of_iff (filename.1.length < filenamelen ∧ s.fsd.numentries < directorySize ∧
      (∃ fd : Nat, fd < numFd.toNat ∧ (s.oft fd).state = .closed) ∧
      (∀ i : Nat, i < s.fsd.numentries → s.freeInode (s.fsd.entry i).inodeNum = false) ∧
      ((∃ k : Nat, k < s.fsd.ninodes.toNat ∧ s.freeInode k = true) ∨
        ∀ i : Nat, i < s.fsd.numentries → (s.fsd.entry i).inodeNum ≠ s.nextFreeInode))
    ⟨fun ⟨hname, hentry, hfd, hkept, hinode⟩ => ⟨hname, hentry, hfd, hkept, hinode⟩,
      fun h => ⟨h.name, h.entry, h.descriptor, h.kept, h.inode⟩⟩

instance (s : Fs) (c : FsCall) : Decidable (Orderly s c) :=
  match c with
  | .create filename _ => inferInstanceAs (Decidable (_ → _ → _ → Room filename s))
  | .close _ => instDecidableTrue
  | .write _ _ _ => instDecidableTrue

/-- A device with this byte wherever an inode has its number, and zeros elsewhere. -/
def deviceOf (b : UInt8) : BlockStore :=
  ⟨mdevBlockSize, mdevNumBlocks, fun x => if x % 64 < 4 then b else 0⟩

/-- A new file system with eight inodes. -/
def newFs (b : UInt8) : Fs :=
  (fsMkfs 0 8 (some (0, fun _ => 0)) (fsBoot (deviceOf b) fun _ => 0)).2

theorem newFs_start (b : UInt8) : FsStart (newFs b) :=
  ⟨deviceOf b, fun _ => 0, 8, some (0, fun _ => 0), rfl⟩

/-- A name with one letter. -/
def letter (i : Nat) : CString :=
  ⟨[UInt8.ofNat (i % 26 + 97)], by
    rw [List.mem_singleton]
    intro h
    have hnat := congrArg UInt8.toNat h
    rw [UInt8.toNat_ofNat'] at hnat
    have hzero : (0 : UInt8).toNat = 0 := rfl
    omega⟩

/-- Two files are created, of which the first has been closed. -/
theorem directory_two : ∃ tr s, Calls FsCall.exec Orderly (newFs 255) tr s ∧
    created tr = [letter 0, letter 1] ∧ SoundFor (fun name => name.1 ≠ []) (created tr) s := by
  have hsome : (runCalls FsCall.exec Orderly
      [.create (letter 0) oCreat, .close 0, .create (letter 1) oCreat] [] (newFs 255)).map
        (fun r => created r.1) = some [letter 0, letter 1] := by
    decide +kernel
  rw [Option.map_eq_some_iff] at hsome
  obtain ⟨⟨tr, s⟩, heq, hcreated⟩ := hsome
  have hcalls := runCalls_calls .start heq
  have hsound := (directory_sound (newFs_start 255)).2 (by decide) (by decide) tr s hcalls
  exact ⟨tr, s, hcalls, hcreated, hsound.1⟩

/-- Seventeen files are asked for while none is closed.  The last call finds no descriptor, but
leaves an entry behind the end of the directory. -/
theorem directory_overflows : ∃ tr s, Calls FsCall.exec (fun _ _ => True) (newFs 0) tr s ∧
    (created tr).length = 16 ∧ s.fsd.numentries = 17 ∧
      ¬ SoundFor (fun _ => True) (created tr) s := by
  have hsome : (runCalls FsCall.exec (fun _ _ => True)
      ((List.range 17).map fun i => .create (letter i) oCreat) [] (newFs 0)).map
        (fun r => ((created r.1).length, r.2.fsd.numentries)) = some (16, 17) := by
    decide +kernel
  rw [Option.map_eq_some_iff] at hsome
  obtain ⟨⟨tr, s⟩, heq, hcounts⟩ := hsome
  obtain ⟨hlen, hentries⟩ := Prod.mk.inj hcounts
  refine ⟨tr, s, runCalls_calls .start heq, hlen, hentries, ?_⟩
  intro hsound
  have hcounted := hsound.counted
  rw [hlen, hentries] at hcounted
  contradiction

end Runs

end FileSystem
end Xinu
