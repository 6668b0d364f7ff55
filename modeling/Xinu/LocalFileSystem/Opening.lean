import Xinu.LocalFileSystem.Truncation

/-!
# The local file system: opening and closing

A name is searched among the open files and in the directory, to which a new file is added.
When a file is closed, what has changed is written to the disk.

Main results:

- Theorem `lfsopen_agrees`: a file is opened, or the request is refused.
- Theorem `lflclose_agrees`: a file is closed.
-/

namespace Xinu
namespace Lfs

open Foundations Function
open FileSystem (CString)

variable {nlfl : Nat}

/-! ## Names -/

section Names

variable {l : List UInt8} {cmp : Chars} {name : CString} {s : Lf nlfl} {fds : List (Fin nlfl)}

theorem sameName_iff (h : 0 ∉ l) : sameName l cmp = true ↔ Spells cmp l := by
  induction l generalizing cmp with
  | nil =>
      unfold sameName
      rw [decide_eq_true_iff]
      exact ⟨spells_nil, fun h => h.null⟩
  | cons c l ih =>
      rw [List.mem_cons, not_or] at h
      unfold sameName
      by_cases hc : c = cmp 0
      · subst hc
        rw [if_neg (fun hne => hne rfl), ih h.2]
        constructor
        · exact fun hspells => spells_cons (Ne.symm h.1) hspells
        · intro hspells
          apply (hspells.drop (show 1 ≤ (cmp 0 :: l).length by simp)).congr
          intro i _
          rw [Nat.add_comm]
      · rw [if_pos hc]
        constructor
        · intro hfalse
          cases hfalse
        · exact fun hspells => absurd (hspells.chars 0 (Nat.zero_lt_succ _)).symm hc

/-- A name is compared with a string in memory. -/
theorem sameName_eq (name : CString) {m : CString} (h : Spells cmp m.1) :
    sameName name.1 cmp = decide (m = name) := by
  rw [Bool.eq_iff_iff, decide_eq_true_iff, sameName_iff name.2]
  constructor
  · exact fun hspells => Subtype.ext (h.unique hspells)
  · rintro rfl
    exact h

/-- Does the control block belong to an open file with this name? -/
def busy (name : CString) (s : Lf nlfl) (fd : Fin nlfl) : Bool :=
  (s.lfltab fd).lfstate ≠ .free && sameName name.1 (s.lfltab fd).lfname

/-- The search among the open files. -/
theorem searchLfltab_eq (name : CString) (s : Lf nlfl) (fds : List (Fin nlfl))
    (lfnext : Option (Fin nlfl)) : searchLfltab name s fds lfnext =
      if fds.any (busy name s) then none
      else some (lfnext.or (fds.find? fun fd => (s.lfltab fd).lfstate = .free)) := by
  induction fds generalizing lfnext with
  | nil =>
      unfold searchLfltab
      rw [List.any_nil, List.find?_nil, Option.or_none]
      rfl
  | cons fd fds ih =>
      unfold searchLfltab
      rw [List.any_cons, List.find?_cons]
      by_cases hfree : (s.lfltab fd).lfstate = .free
      · have hbusy : busy name s fd = false := by
          unfold busy
          rw [hfree]
          rfl
        rw [if_pos hfree, ih, hbusy, Bool.false_or, decide_eq_true hfree]
        cases lfnext with
        | none => rfl
        | some x => rfl
      · rw [if_neg hfree, decide_eq_false hfree]
        by_cases hname : sameName name.1 (s.lfltab fd).lfname = true
        · have hbusy : busy name s fd = true := by
            unfold busy
            rw [hname, decide_eq_true hfree]
            rfl
          rw [if_pos hname, hbusy, Bool.true_or, if_pos rfl]
        · have hbusy : busy name s fd = false := by
            unfold busy
            rw [Bool.eq_false_iff.mpr hname, Bool.and_false]
          rw [if_neg hname, hbusy, Bool.false_or, ih]

end Names

section Search

variable {k sectors : Int} {dev : Fin nlfl → Int} {s t : Lf nlfl} {a : ByteFiles nlfl}
  {L : Layout nlfl} {f f' : Extent nlfl} {i pos mbits : Nat} {fd : Fin nlfl} {name mode : CString}

theorem Represents.free_iff (h : Represents k sectors dev s a L) :
    (s.lfltab fd).lfstate = .free ↔ a.opened fd = none := by
  cases hfd : a.opened fd with
  | none =>
      have hclosed := h.closed hfd
      cases hstate : (s.lfltab fd).lfstate with
      | free => simp
      | used => exact absurd hstate hclosed
  | some x =>
      obtain ⟨i, pos⟩ := x
      obtain ⟨-, f, -, -, hsession⟩ := h.opened hfd
      rw [hsession.used]
      simp

/-- The names of the open files. -/
theorem Represents.busy_eq (h : Represents k sectors dev s a L) (name : CString) :
    busy name s fd = (a.opened fd).any fun x => (a.files[x.file]?).any fun f => f.name = name := by
  unfold busy
  cases hfd : a.opened fd with
  | none =>
      rw [h.free_iff.mpr hfd]
      rfl
  | some x =>
      obtain ⟨i, pos⟩ := x
      obtain ⟨-, f, hi, -, hsession⟩ := h.opened hfd
      rw [hsession.used, sameName_eq name hsession.name, Option.any_some, h.shown.files,
        List.getElem?_map, hi]
      rfl

theorem Represents.isOpen_eq (h : Represents k sectors dev s a L) (name : CString) :
    (List.finRange nlfl).any (busy name s) = a.isOpen name := by
  unfold ByteFiles.isOpen
  exact List.any_congr rfl fun fd => h.busy_eq name

theorem Represents.freeFd_eq (h : Represents k sectors dev s a L) :
    ((List.finRange nlfl).find? fun fd => (s.lfltab fd).lfstate = .free) = a.freeFd := by
  unfold ByteFiles.freeFd
  congr 1
  funext fd
  rw [decide_eq_decide]
  exact h.free_iff

/-- The search in the directory. -/
theorem Represents.lookup_eq (h : Represents k sectors dev s a L) (name : CString) :
    findEntry name s.load.lfDir = a.lookup name := by
  have hnfiles : s.load.lfDir.nfiles.toNat = L.files.length := by
    rw [h.laid.nfiles]
    exact Int.toNat_natCast _
  have hname : ∀ (j : Nat) (g : Extent nlfl), L.files[j]? = some g →
      sameName name.1 (s.load.lfDir.ldName j) = decide (g.name = name) :=
    fun j g hj => sameName_eq name (h.laid.file j g hj).entry.name
  unfold findEntry ByteFiles.lookup
  rw [hnfiles, h.shown.files, List.findIdx?_map]
  apply Option.ext
  intro j
  rw [List.find?_range_eq_some, List.findIdx?_eq_some_iff_getElem]
  constructor
  · rintro ⟨hj, hrange, hbefore⟩
    have hlt := List.mem_range.mp hrange
    rw [hname j _ (List.getElem?_eq_getElem hlt)] at hj
    refine ⟨hlt, hj, ?_⟩
    intro x hx hmatch
    have hnot := hbefore x hx
    rw [hname x _ (List.getElem?_eq_getElem (Nat.lt_trans hx hlt)), Bool.not_eq_true'] at hnot
    exact absurd hmatch (Bool.eq_false_iff.mp hnot)
  · rintro ⟨hlt, hj, hbefore⟩
    refine ⟨?_, List.mem_range.mpr hlt, ?_⟩
    · rw [hname j _ (List.getElem?_eq_getElem hlt)]
      exact hj
    · intro x hx
      rw [hname x _ (List.getElem?_eq_getElem (Nat.lt_trans hx hlt)), Bool.not_eq_true']
      exact Bool.eq_false_iff.mpr (hbefore x hx)

/-! ## Opening -/

/-- The directory is read. -/
theorem Represents.load (h : Represents k sectors dev s a L) :
    Represents k sectors dev s.load a L := by
  have hload := Lf.load_of_present h.laid.present
  refine ⟨?_, h.shown, h.sized, h.dev, ?_, ?_, ?_⟩
  · rw [hload]
    exact h.laid
  · intro habsent
    rw [h.laid.present] at habsent
    cases habsent
  · rw [hload, Lf.load_lfDirdirty]
    exact h.saved
  · rw [Lf.load_lfDirdirty, Lf.load_lfltab]
    exact h.dirty

/-- The control block of a file that is opened. -/
theorem session_openCblk (f : Extent nlfl) (i mbits : Nat) (c : Lflcblk) :
    Session f i 0 (openCblk i mbits f.name c) := by
  have hspells : Spells (openCblk i mbits f.name c).lfname f.name.1 := by
    apply (spells_chars f.name.2).congr
    intro x hx
    have hcopy : copyChars (f.name.1.length + 1) (chars f.name.1) 0 c.lfname (0 + x) =
        chars f.name.1 x := copyChars_inside (Nat.lt_succ_of_le hx)
    rwa [Nat.zero_add] at hcopy
  exact ⟨rfl, rfl, hspells, rfl, Nat.zero_le _, .inl ⟨rfl, rfl⟩, .inl ⟨rfl, rfl⟩, .inl rfl⟩

theorem Laid.openFile (h : Laid k sectors s L) (hi : L.files[i]? = some f)
    (hclosed : f.opener = none) (hfree : (s.lfltab fd).lfstate = .free) (mbits : Nat) :
    Laid k sectors (s.setCblk fd (openCblk i mbits f.name))
      (L.set i { f with opener := some (fd, 0) } L.freeIblocks L.freeDblocks) := by
  have hfile := h.file i f hi
  have helse : Elsewhere k sectors s (s.setCblk fd (openCblk i mbits f.name)) i f fd := by
    refine ⟨rfl, rfl, fun _ _ _ _ _ => rfl, fun _ _ _ _ => rfl, fun _ _ _ _ => rfl,
      fun _ hne => Lf.setCblk_of_ne hne, ?_⟩
    rw [Lf.setCblk_self]
    rfl
  apply h.set hi helse
  · refine ⟨⟨hfile.entry.name, hfile.entry.size, hfile.entry.ilist⟩, hfile.short, hfile.depth,
      ?_, ?_, ?_⟩
    · intro j b hb
      rcases hfile.iblock j b hb with ⟨fd', pos', hopen', -⟩ | hdescribes
      · rw [hclosed] at hopen'
        cases hopen'
      · exact .inr hdescribes
    · intro m b hb
      rcases hfile.dblock m b hb with ⟨fd', pos', hopen', -⟩ | hstores
      · rw [hclosed] at hopen'
        cases hopen'
      · exact .inr hstores
    · intro fd' pos' hopen'
      cases hopen'
      rw [Lf.setCblk_self]
      exact session_openCblk { f with opener := some (fd, 0) } i mbits (s.lfltab fd)
  · exact h.ifree
  · exact h.dfree
  · exact .refl _
  · exact .refl _
  · intro fd' pos' hopen'
    rw [hclosed] at hopen'
    cases hopen'
  · intro j g pos' _ hj hopen'
    have hused := ((h.file j g hj).session fd pos' hopen').used
    rw [hfree] at hused
    cases hused
  · exact fun _ => ⟨0, rfl⟩

/-- A file keeps its name and its bytes. -/
theorem Shows.files_set (h : Shows L a) (hi : L.files[i]? = some f) (f' : Extent nlfl)
    (hname : f'.name = f.name) (hbytes : f'.bytes = f.bytes) {freeI freeD : List Int} :
    a.files = (L.set i f' freeI freeD).files.map fun f => ⟨f.name, f.bytes⟩ := by
  rw [← h.store_files hi hname, hbytes, h.store_self hi]

theorem Shows.openFile (h : Shows L a) (hi : L.files[i]? = some f) (hclosed : f.opener = none)
    (hfd : a.opened fd = none) : Shows
      (L.set i { f with opener := some (fd, 0) } L.freeIblocks L.freeDblocks)
      (a.move fd ⟨i, 0⟩) where
  files := h.files_set hi { f with opener := some (fd, 0) } rfl rfl
  opened := by
    rintro fd' ⟨j, p⟩
    have hset : (L.set i { f with opener := some (fd, 0) } L.freeIblocks L.freeDblocks).files[i]? =
      some { f with opener := some (fd, 0) } := Layout.set_getElem? hi
    have hothers : ∀ g : Extent nlfl, L.files[j]? = some g → g.opener ≠ some (fd, p) := by
      intro g hg hopen
      rw [(h.opened fd ⟨j, p⟩).mpr ⟨g, hg, hopen⟩] at hfd
      cases hfd
    unfold ByteFiles.move
    dsimp only
    by_cases hj : j = i
    · subst hj
      rw [hset]
      by_cases hfd' : fd' = fd
      · rw [hfd', update_self]
        constructor
        · rintro ⟨⟩
          exact ⟨_, rfl, rfl⟩
        · rintro ⟨g, ⟨⟩, hopen⟩
          cases hopen
          rfl
      · rw [update_of_ne hfd', h.opened]
        constructor
        · rintro ⟨g, hg, hopen⟩
          rw [hi] at hg
          cases hg
          rw [hclosed] at hopen
          cases hopen
        · rintro ⟨g, ⟨⟩, hopen⟩
          cases hopen
          exact absurd rfl hfd'
    · unfold Layout.set
      rw [List.getElem?_set_ne (Ne.symm hj)]
      by_cases hfd' : fd' = fd
      · rw [hfd', update_self]
        constructor
        · rintro ⟨⟩
          exact absurd rfl hj
        · rintro ⟨g, hg, hopen⟩
          exact absurd hopen (hothers g hg)
      · rw [update_of_ne hfd', h.opened]

/-- A file of the directory is opened. -/
theorem Represents.openFile (h : Represents k sectors dev s a L) (hpresent : s.load = s)
    (hi : L.files[i]? = some f) (hclosed : f.opener = none) (hfd : a.opened fd = none)
    (mbits : Nat) : Represents k sectors dev (s.setCblk fd (openCblk i mbits f.name))
      (a.move fd ⟨i, 0⟩)
      (L.set i { f with opener := some (fd, 0) } L.freeIblocks L.freeDblocks) := by
  have hlaid := h.laid
  have hsaved := h.saved
  rw [hpresent] at hlaid hsaved
  have hlaid' := hlaid.openFile hi hclosed (h.free_iff.mpr hfd) mbits
  have hsized := (h.sized i f hi).reopen (some (fd, 0))
  have hused : ((s.setCblk fd (openCblk i mbits f.name)).lfltab fd).lfstate = .used := by
    rw [Lf.setCblk_self]
    rfl
  apply Represents.of_laid hlaid' (h.shown.openFile hi hclosed hfd) (h.sized_set hi hsized) h.dev
  · intro hclean
    obtain ⟨m, hm⟩ := hsaved hclean
    refine ⟨m, ?_⟩
    apply hm.set hi <;> rfl
  · exact fun _ => ⟨fd, hused⟩

/-! ## New files -/

/-- What a new entry changes. -/
theorem addEntry_fields (o : Option (Fin nlfl × Nat)) {dir : Lfdir} {n : Nat}
    (hn : dir.nfiles = n) (hlt : n < 20)
    (hshort : name.1.length < lfNameLen) :
    ((addEntry name dir).dfree = dir.dfree ∧ (addEntry name dir).ifree = dir.ifree ∧
        (addEntry name dir).nfiles = (n + 1 : Nat)) ∧
      (∀ x, 12 ≤ x → x < Lfdir.entry n ∨ Lfdir.entry n + 24 ≤ x → addEntry name dir x = dir x) ∧
      EntryOf (addEntry name dir) n ⟨name, [], [], [], o⟩ := by
  have hlength : lfNameLen = 16 := rfl
  have hentry := Lfdir.le_entry n
  unfold addEntry
  rw [hn, Int.toNat_natCast]
  dsimp only
  obtain ⟨d, hd⟩ : ∃ d, dir.setNfiles ((n : Int) + 1) = d := ⟨_, rfl⟩
  have houtside : ∀ x, x < Lfdir.entry n ∨ Lfdir.entry n + 24 ≤ x →
      (((d.setLdSize n 0).setLdName n name).setLdIlist n lfInull) x = d x := by
    intro x hx
    rw [Lfdir.setLdIlist_outside (by omega), Lfdir.setLdName_outside (by omega),
      Lfdir.setLdSize_outside (by omega)]
  rw [hd]
  refine ⟨?_, ?_, ?_⟩
  · obtain ⟨hdfree, hifree, hnfiles⟩ := Lfdir.congr fun x hx => houtside x (.inl (by omega))
    rw [hdfree, hifree, hnfiles, ← hd, Lfdir.dfree_setNfiles, Lfdir.ifree_setNfiles,
      Lfdir.nfiles_setNfiles]
    exact ⟨rfl, rfl, i32_eq (by omega) (by omega)⟩
  · intro x hx hout
    rw [houtside x hout, ← hd, Lfdir.setNfiles_outside hx]
  · constructor
    · rw [Lfdir.ldName_setLdIlist]
      exact Lfdir.ldName_setLdName
    · have hsize : ((d.setLdSize n 0).setLdName n name).ldSize n = (d.setLdSize n 0).ldSize n :=
        loadWord_congr fun x _ hx => Lfdir.setLdName_outside (.inl (by omega))
      rw [Lfdir.ldSize_setLdIlist, hsize, Lfdir.ldSize_setLdSize (by decide)]
      rfl
    · rw [Lfdir.ldIlist_setLdIlist]
      exact show i32 lfInull = lfInull by decide

/-- An empty file is added to the directory in memory. -/
theorem Laid.addEntry (h : Laid k sectors s L) (hshort : name.1.length < lfNameLen)
    (hlt : L.files.length < 20) :
    Laid k sectors { s with lfDir := Lfs.addEntry name s.lfDir }
      { L with files := L.files ++ [⟨name, [], [], [], none⟩] } := by
  obtain ⟨⟨hdfree, hifree, hnfiles⟩, houtside, hentry⟩ :=
    addEntry_fields (none : Option (Fin nlfl × Nat)) h.nfiles hlt hshort
  constructor
  · exact h.present
  · exact h.dev
  · rw [List.length_append, List.length_singleton]
    exact hnfiles
  · rw [List.length_append, List.length_singleton]
    omega
  · rw [show ({ s with lfDir := Lfs.addEntry name s.lfDir } : Lf nlfl).lfDir.ifree = _ from hifree]
    exact h.ifree
  · rw [show ({ s with lfDir := Lfs.addEntry name s.lfDir } : Lf nlfl).lfDir.dfree = _ from hdfree]
    exact h.dfree
  · rw [List.map_append]
    exact h.iblocks.snoc
  · rw [List.map_append]
    exact h.dblocks.snoc
  · intro j g hj
    rcases Nat.lt_trichotomy j L.files.length with hold | rfl | hnew
    · rw [List.getElem?_append_left hold] at hj
      apply (h.file j g hj).congr
      · intro x hlo hhi
        have hle := Lfdir.le_entry j
        have hdisjoint := Lfdir.entry_disjoint (Nat.ne_of_lt hold)
        exact houtside x (by omega) (by omega)
      · exact fun _ _ => rfl
      · exact fun _ _ => rfl
      · exact fun _ _ _ => rfl
    · rw [List.getElem?_append_right (Nat.le_refl _), Nat.sub_self] at hj
      cases hj
      refine ⟨hentry, hshort, Nat.zero_le _, ?_, ?_, ?_⟩
      · exact fun x b hb => absurd (List.mem_of_getElem? hb) List.not_mem_nil
      · exact fun x b hb => absurd (List.mem_of_getElem? hb) List.not_mem_nil
      · intro fd' pos' hopen'
        cases hopen'
    · rw [List.getElem?_eq_none (by simp; omega)] at hj
      cases hj
  · intro fd' hused
    obtain ⟨j, g, pos', hj, hopen'⟩ := h.used fd' hused
    refine ⟨j, g, pos', ?_, hopen'⟩
    rw [List.getElem?_append_left (List.getElem?_eq_some_iff.mp hj).1]
    exact hj

/-- An empty file is added; it is written to the disk with the directory later. -/
theorem Represents.addEntry (h : Represents k sectors dev s a L) (hpresent : s.load = s)
    (hshort : name.1.length < lfNameLen) (hlt : L.files.length < 20) :
    Represents k sectors dev { s with lfDir := Lfs.addEntry name s.lfDir }
      { a with files := a.files ++ [⟨name, []⟩] }
      { L with files := L.files ++ [⟨name, [], [], [], none⟩] } := by
  have hlaid := h.laid
  have hsaved := h.saved
  rw [hpresent] at hlaid hsaved
  have hlaid' := hlaid.addEntry hshort hlt
  obtain ⟨⟨hdfree, hifree, -⟩, -⟩ :=
    addEntry_fields (none : Option (Fin nlfl × Nat)) hlaid.nfiles hlt hshort
  have hlast : ∀ (j : Nat) (g : Extent nlfl),
      (L.files ++ [⟨name, [], [], [], none⟩])[j]? = some g →
        L.files[j]? = some g ∨ g = ⟨name, [], [], [], none⟩ := by
    intro j g hj
    rw [List.getElem?_append] at hj
    split at hj
    · exact .inl hj
    · right
      obtain ⟨hzero, rfl⟩ := List.getElem?_eq_some_iff.mp hj
      exact List.mem_singleton.mp (List.getElem_mem hzero)
  refine .of_laid hlaid' ⟨?_, ?_⟩ ?_ h.dev ?_ h.dirty
  · rw [List.map_append, ← h.shown.files]
    rfl
  · intro fd x
    rw [show _ ↔ _ from h.shown.opened fd x]
    constructor
    · rintro ⟨g, hg, hopen⟩
      refine ⟨g, ?_, hopen⟩
      rw [List.getElem?_append_left (List.getElem?_eq_some_iff.mp hg).1]
      exact hg
    · rintro ⟨g, hg, hopen⟩
      rcases hlast x.file g hg with hold | rfl
      · exact ⟨g, hold, hopen⟩
      · cases hopen
  · intro j g hj
    rcases hlast j g hj with hold | rfl
    · exact h.sized j g hold
    · exact ⟨show 0 = (0 + 8191) / 8192 by decide, show 0 = (0 + 511) / 512 by decide⟩
  · intro hclean
    obtain ⟨m, hm⟩ := hsaved hclean
    refine ⟨m, ?_, hm.nfiles, hm.ifree.trans hifree.symm, hm.dfree.trans hdfree.symm, ?_, ?_⟩
    · rw [List.length_append]
      exact Nat.le_trans hm.le (Nat.le_add_right _ _)
    · intro j g hjm hj
      have hjlt := Nat.lt_of_lt_of_le hjm hm.le
      rw [List.getElem?_append_left hjlt] at hj
      exact hm.entry j g hjm hj
    · intro j g hmj hj
      rcases hlast j g hj with hold | rfl
      · exact hm.empty j g hmj hold
      · rfl

/-- A file with a name that is not open is closed. -/
theorem Represents.opener_none (h : Represents k sectors dev s a L) (hi : L.files[i]? = some f)
    (hopen : a.isOpen f.name = false) : f.opener = none := by
  cases hopener : f.opener with
  | none => rfl
  | some x =>
      obtain ⟨fd, pos⟩ := x
      have hfd := (h.shown.opened fd ⟨i, pos⟩).mpr ⟨f, hi, hopener⟩
      have hnot := List.any_eq_false.mp hopen fd (List.mem_finRange fd)
      rw [hfd, Option.any_some, h.shown.files, List.getElem?_map, hi, Option.map_some,
        Option.any_some, decide_eq_true_iff] at hnot
      exact absurd rfl hnot

/-- The search for a device that has no open file. -/
theorem Represents.freeFd_none (h : a.freeFd = some fd) : a.opened fd = none := by
  have hfound := List.find?_some h
  exact of_decide_eq_true hfound

/-- The file with the name that was found. -/
theorem Represents.lookup_some (h : Represents k sectors dev s a L)
    (hfound : a.lookup name = some i) : ∃ f, L.files[i]? = some f ∧ f.name = name := by
  unfold ByteFiles.lookup at hfound
  rw [h.shown.files, List.findIdx?_map, List.findIdx?_eq_some_iff_getElem] at hfound
  obtain ⟨hlt, hname, -⟩ := hfound
  exact ⟨L.files[i], List.getElem?_eq_getElem hlt, of_decide_eq_true hname⟩

theorem openEntry_agrees (h : Represents k sectors dev s a L) (hpresent : s.load = s)
    (hshort : name.1.length < lfNameLen) (hmode : lfgetmode mode = some mbits)
    (hclosed : a.isOpen name = false) (hfd : a.opened fd = none) :
    Agrees k sectors dev (openEntry name mbits fd s (findEntry name s.lfDir))
      (a.openOn dev name mode fd) := by
  have hkept : Agrees k sectors dev (syserr, s) (syserr, a) := ⟨rfl, L, h⟩
  obtain ⟨-, hnew, hold⟩ := lfgetmode_bits hmode
  have hdev : (s.lfltab fd).lfdev = dev fd := by
    rw [← h.dev, ← hpresent]
    exact h.laid.dev fd
  have hlookup := h.lookup_eq name
  have hnfiles := h.laid.nfiles
  have hlength := h.shown.length_eq
  have hpresent' := h.laid.present
  rw [hpresent] at hlookup hnfiles hpresent'
  rw [hlookup]
  unfold ByteFiles.openOn
  cases hfound : a.lookup name with
  | some i =>
      unfold openEntry
      dsimp only
      by_cases hn : chN ∈ mode.1
      · rw [if_pos (hnew.mpr hn), if_pos hn]
        exact hkept
      · rw [if_neg fun hbits => hn (hnew.mp hbits), if_neg hn]
        obtain ⟨f, hi, rfl⟩ := h.lookup_some hfound
        exact ⟨hdev, _, h.openFile hpresent hi (h.opener_none hi hclosed) hfd mbits⟩
  | none =>
      unfold openEntry
      dsimp only
      by_cases ho : chO ∈ mode.1
      · rw [if_pos (hold.mpr ho), if_pos (.inl ho)]
        exact hkept
      rw [if_neg fun hbits => ho (hold.mp hbits)]
      by_cases hfull : lfNumDirEnt ≤ a.files.length
      · rw [if_pos (by omega), if_pos (.inr hfull)]
        exact hkept
      · have hentries : lfNumDirEnt = 20 := rfl
        rw [if_neg (by omega), if_neg (fun hor => hor.elim ho hfull)]
        have hadd := h.addEntry hpresent hshort (show L.files.length < 20 by omega)
        have hadd' := Lf.load_of_present
          (show ({ s with lfDir := addEntry name s.lfDir } : Lf nlfl).lfDirpresent = true
            from hpresent')
        have hlast : (L.files ++ [⟨name, [], [], [], none⟩])[L.files.length]? =
            some (⟨name, [], [], [], none⟩ : Extent nlfl) := by
          rw [List.getElem?_append_right (Nat.le_refl _), Nat.sub_self]
          rfl
        rw [hnfiles, Int.toNat_natCast, hlength]
        exact ⟨hdev, _, hadd.openFile hadd' hlast rfl hfd mbits⟩

/-- A file is opened, or the request is refused. -/
theorem lfsopen_agrees (h : Represents k sectors dev s a L) (name mode : CString) :
    Agrees k sectors dev (lfsopen name mode s) (a.openFile dev name mode) := by
  have hrefused : a.openFile dev name mode = (syserr, a) →
      Agrees k sectors dev (syserr, s) (a.openFile dev name mode) := by
    intro hspec
    rw [hspec]
    exact ⟨rfl, L, h⟩
  unfold lfsopen
  by_cases hlength : lfNameLen ≤ name.1.length
  · rw [if_pos hlength]
    exact hrefused (a.openFile_refused (.inl hlength))
  rw [if_neg hlength]
  cases hmode : lfgetmode mode with
  | none =>
      have hbad : ¬ ModeOk mode.1 := by
        intro hok
        rw [lfgetmode_eq, if_pos hok] at hmode
        cases hmode
      exact hrefused (a.openFile_refused (.inr (.inl hbad)))
  | some mbits =>
      have hok := (lfgetmode_bits hmode).1
      dsimp only
      rw [searchLfltab_eq, h.isOpen_eq name, Option.none_or, h.freeFd_eq]
      by_cases hopen : a.isOpen name = true
      · rw [if_pos hopen]
        exact hrefused (a.openFile_refused (.inr (.inr hopen)))
      rw [if_neg hopen]
      have haccepted :
          ¬ (lfNameLen ≤ name.1.length ∨ ¬ ModeOk mode.1 ∨ a.isOpen name) := by
        rintro (hlong | hbad | hopen')
        · exact hlength hlong
        · exact hbad hok
        · exact hopen hopen'
      cases hfree : a.freeFd with
      | none => exact hrefused (a.openFile_full haccepted hfree)
      | some fd =>
          have hload : ({ s with
              lfDir := (if s.lfDirpresent then (ok, s.lfDir)
                else ramread s.disk s.lfDir lfAreaDir).2
              lfDirpresent := true } : Lf nlfl) = s.load := by
            unfold Lf.load
            split
            · next hpresent =>
                cases s
                cases hpresent
                rfl
            · rfl
          have hdir : (if s.lfDirpresent then (ok, s.lfDir)
              else ramread s.disk s.lfDir lfAreaDir).2 = s.load.lfDir := congrArg Lf.lfDir hload
          have hread : ¬ (if s.lfDirpresent then (ok, s.lfDir)
              else ramread s.disk s.lfDir lfAreaDir).1 = syserr := by
            split
            · exact show ¬ ok = syserr by decide
            · exact show ¬ ok = syserr by decide
          rw [a.openFile_free haccepted hfree]
          dsimp only
          rw [if_neg hread, hload, hdir]
          exact openEntry_agrees h.load (Lf.load_of_present h.laid.present) (by omega) hmode
            (Bool.eq_false_iff.mpr hopen) (Represents.freeFd_none hfree)

/-! ## Closing -/

/-- What has changed is written if anything has. -/
theorem Laid.flushAll (h : Laid k sectors s L) (hi : L.files[i]? = some f)
    (hopen : f.opener = some (fd, pos)) (hk : 0 ≤ k)
    (ht : (if s.lfDirdirty || (s.lfltab fd).lfdbdirty || (s.lfltab fd).lfibdirty then
      (Lfs.lfflush fd s).2 else s) = t) :
    Flushed k sectors L s t ∧ t.lfDirdirty = false ∧
      (t.lfltab fd).lfibdirty = false ∧ (t.lfltab fd).lfdbdirty = false := by
  rw [← ht]
  split
  · obtain ⟨hflushed, hdirty, hcblk⟩ := h.lfflush hi hopen hk
    rw [hcblk]
    exact ⟨hflushed, hdirty, rfl, rfl⟩
  · next hclean =>
      rw [Bool.or_eq_true, Bool.or_eq_true, not_or, not_or, Bool.not_eq_true, Bool.not_eq_true,
        Bool.not_eq_true] at hclean
      exact ⟨⟨h, .refl s⟩, hclean.1.1, hclean.2, hclean.1.2⟩

/-- A file whose blocks are on the disk is closed. -/
theorem Laid.closeFile (h : Laid k sectors s L) (hi : L.files[i]? = some f)
    (hopen : f.opener = some (fd, pos)) (hiblock : (s.lfltab fd).lfibdirty = false)
    (hdblock : (s.lfltab fd).lfdbdirty = false) :
    Laid k sectors (s.setCblk fd fun c => { c with lfstate := .free })
      (L.set i { f with opener := none } L.freeIblocks L.freeDblocks) := by
  have hfile := h.file i f hi
  refine h.setCblk hi hopen ⟨?_, hfile.short, hfile.depth, ?_, ?_, ?_⟩ rfl rfl ?_ rfl
  · exact ⟨hfile.entry.name, hfile.entry.size, hfile.entry.ilist⟩
  · intro j b hb
    have hold := hfile.iblock j b hb
    rw [newerIblock_iff hopen, hiblock] at hold
    exact .inr (hold.resolve_left fun hnewer => Bool.false_ne_true hnewer.1)
  · intro m b hb
    have hold := hfile.dblock m b hb
    rw [newerDblock_iff hopen, hdblock] at hold
    exact .inr (hold.resolve_left fun hnewer => Bool.false_ne_true hnewer.1)
  · intro fd' pos' hopen'
    cases hopen'
  · intro hused
    cases hused

theorem Shows.closeFile (h : Shows L a) (hi : L.files[i]? = some f)
    (hopen : f.opener = some (fd, pos)) :
    Shows (L.set i { f with opener := none } L.freeIblocks L.freeDblocks)
      { a with opened := update a.opened fd none } where
  files := h.files_set hi { f with opener := none } rfl rfl
  opened := by
    rintro fd' ⟨j, p⟩
    have hset : (L.set i { f with opener := none } L.freeIblocks L.freeDblocks).files[i]? =
      some { f with opener := none } := Layout.set_getElem? hi
    have hmine := (h.opened fd ⟨i, pos⟩).mpr ⟨f, hi, hopen⟩
    dsimp only
    by_cases hj : j = i
    · subst hj
      rw [hset]
      constructor
      · intro hfd
        by_cases hfd' : fd' = fd
        · rw [hfd', update_self] at hfd
          cases hfd
        · rw [update_of_ne hfd', h.opened] at hfd
          obtain ⟨g, hg, hgopen⟩ := hfd
          rw [hi] at hg
          cases hg
          rw [hopen] at hgopen
          cases hgopen
          exact absurd rfl hfd'
      · rintro ⟨g, ⟨⟩, hgopen⟩
        cases hgopen
    · unfold Layout.set
      rw [List.getElem?_set_ne (Ne.symm hj)]
      by_cases hfd' : fd' = fd
      · rw [hfd', update_self]
        constructor
        · intro hfd
          cases hfd
        · rintro ⟨g, hg, hgopen⟩
          rw [(h.opened fd ⟨j, p⟩).mpr ⟨g, hg, hgopen⟩] at hmine
          cases hmine
          exact absurd rfl hj
      · rw [update_of_ne hfd', h.opened]

/-- A file is closed. -/
theorem lflclose_agrees (hgeometry : Geometry k sectors) (h : Represents k sectors dev s a L) :
    Agrees k sectors dev (lflclose fd s) (a.closeFile fd) := by
  unfold lflclose ByteFiles.closeFile
  dsimp only
  cases hfd : a.opened fd with
  | none =>
      rw [if_pos (h.closed hfd)]
      exact ⟨rfl, L, h⟩
  | some x =>
      obtain ⟨i, pos⟩ := x
      obtain ⟨hload, f, hi, hopen, hsession⟩ := h.opened hfd
      have hlaid := h.laid
      have hsaved := h.saved
      rw [hload] at hlaid hsaved
      obtain ⟨t, ht⟩ : ∃ t, (if s.lfDirdirty || (s.lfltab fd).lfdbdirty ||
          (s.lfltab fd).lfibdirty then (lfflush fd s).2 else s) = t := ⟨_, rfl⟩
      obtain ⟨hflushed, hdirty, hiblock, hdblock⟩ :=
        hlaid.flushAll hi hopen hgeometry.index_nonneg ht
      rw [if_neg (fun hne => hne hsession.used), ht]
      have hclosed := hflushed.laid.closeFile hi hopen hiblock hdblock
      have hsized := (h.sized i f hi).reopen none
      refine ⟨rfl, _, .of_laid hclosed (h.shown.closeFile hi hopen) (h.sized_set hi hsized) h.dev
        ?_ ?_⟩
      · intro _
        obtain ⟨m, hm⟩ := hflushed.kept.saved hflushed.laid hsaved hdirty
        refine ⟨m, ?_⟩
        apply hm.set hi <;> rfl
      · intro hdirty'
        rw [show (t.setCblk fd fun c => { c with lfstate := .free }).lfDirdirty = t.lfDirdirty
          from rfl, hdirty] at hdirty'
        cases hdirty'

end Search

end Lfs
end Xinu
