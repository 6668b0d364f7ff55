import Xinu.LocalFileSystem.Layout

/-!
# The local file system: blocks for a position

Before a byte is read or written, the blocks for its position are brought into memory.  The
index blocks of the file are searched along their list, which is extended at its end.

Main results:

- Theorem `Laid.lfflush`: what is flushed is on the disk.
- Theorem `lfsetup_meets`: the blocks are set up, or the disk is full.
-/

namespace Xinu
namespace Lfs

open Foundations Function
open FileSystem (CString unsigned memcpy i32_loadWord_storeWord)

variable {nlfl : Nat}

section Flush

variable {k sectors : Int} {s s' : Lf nlfl} {L : Layout nlfl} {f f' : Extent nlfl} {i j pos : Nat}
  {fd : Fin nlfl} {b : Int}

/-! ## Writing what has changed -/

theorem Stores.congr {bytes : List UInt8} {m : Nat} {x y : Chars} (h : Stores bytes m x)
    (hsame : ∀ i, i < 512 → y i = x i) : Stores bytes m y := by
  intro i hi a ha
  rw [hsame i hi]
  exact h i hi a ha

theorem Describes.congr {is ds : List Int} {x y : Lfiblk} (h : Describes is ds j x)
    (hsame : ∀ a, a < lfiblkSize → y a = x a) : Describes is ds j y := by
  obtain ⟨hnext, hoffset, hdba⟩ := Lfiblk.congr hsame
  constructor
  · rw [hnext, h.next]
  · rw [hoffset, h.offset]
  · intro t ht
    rw [hdba t ht, h.dba t ht]

/-- The sector of an index block is not that of a data block. -/
theorem ib2sect_ne (hb : 0 ≤ b ∧ b < 7 * k) {x : Int} (hx : k + 1 ≤ x) : ib2sect b ≠ x := by
  rw [ib2sect_of_nonneg hb.1]
  omega

theorem newerIblock_iff (hopen : f.opener = some (fd, pos)) :
    s.NewerIblock f b ↔ (s.lfltab fd).lfibdirty = true ∧ (s.lfltab fd).lfinum = b := by
  constructor
  · rintro ⟨fd', pos', hopen', hnewer⟩
    rw [hopen] at hopen'
    cases hopen'
    exact hnewer
  · exact fun hnewer => ⟨fd, pos, hopen, hnewer⟩

theorem newerDblock_iff (hopen : f.opener = some (fd, pos)) :
    s.NewerDblock f b ↔ (s.lfltab fd).lfdbdirty = true ∧ (s.lfltab fd).lfdnum = b := by
  constructor
  · rintro ⟨fd', pos', hopen', hnewer⟩
    rw [hopen] at hopen'
    cases hopen'
    exact hnewer
  · exact fun hnewer => ⟨fd, pos, hopen, hnewer⟩

theorem writeDblock_cblk :
    (s.writeDblock fd).lfltab fd = { s.lfltab fd with lfdbdirty := false } := by
  unfold Lf.writeDblock
  rw [Lf.setCblk_self]

theorem writeIblock_cblk :
    (s.writeIblock fd).lfltab fd = { s.lfltab fd with lfibdirty := false } := by
  unfold Lf.writeIblock
  rw [Lf.setCblk_self]

/-- The data block of an open file is written. -/
theorem Laid.writeDblock (h : Laid k sectors s L) (hi : L.files[i]? = some f)
    (hopen : f.opener = some (fd, pos)) (hdirty : (s.lfltab fd).lfdbdirty = true) :
    Laid k sectors (s.writeDblock fd) L := by
  have hfile := h.file i f hi
  have hsession := hfile.session fd pos hopen
  obtain ⟨m, hm, hstores⟩ : ∃ m, f.dblocks[m]? = some (s.lfltab fd).lfdnum ∧
      Stores f.bytes m (s.lfltab fd).lfdblock := by
    rcases hsession.dblock with hnone | hsome
    · rw [hnone.2] at hdirty
      cases hdirty
    · exact hsome
  have hmem := h.dblock_mem hi (List.mem_of_getElem? hm)
  have hother : ∀ b, b ≠ (s.lfltab fd).lfdnum → (s.writeDblock fd).disk b = s.disk b :=
    fun b hb => ramwrite_of_ne hb
  have hindex : ∀ b, 0 ≤ b → b < 7 * k → lfibget (s.writeDblock fd).disk b (fun _ => 0) =
      lfibget s.disk b fun _ => 0 := by
    intro b hlo hhi
    apply lfibget_congr
    exact hother _ (ib2sect_ne ⟨hlo, hhi⟩ hmem.1)
  have helse : Elsewhere k sectors s (s.writeDblock fd) i f fd := by
    constructor
    · rfl
    · rfl
    · exact fun _ _ _ _ _ => rfl
    · exact fun b hlo hhi _ => hindex b hlo hhi
    · intro b _ _ hb
      apply hother
      rintro rfl
      exact hb (List.mem_of_getElem? hm)
    · exact fun fd' hne => update_of_ne hne _ _
    · rw [writeDblock_cblk]
  have hlaid : FileLaid (s.writeDblock fd) i f := by
    refine ⟨hfile.entry, hfile.short, hfile.depth, ?_, ?_, ?_⟩
    · intro j b hb
      have hrange := h.iblock_mem hi (List.mem_of_getElem? hb)
      rw [hindex b hrange.1 hrange.2, newerIblock_iff hopen, writeDblock_cblk]
      rw [← newerIblock_iff (s := s) hopen]
      exact hfile.iblock j b hb
    · intro m' b hb
      right
      by_cases hbm : b = (s.lfltab fd).lfdnum
      · subst hbm
        rw [← h.dblock_eq hi hm hb]
        exact hstores.congr fun x hx => ramwrite_self hx
      · rw [hother b hbm]
        rcases hfile.dblock m' b hb with hnewer | hold
        · exact absurd ((newerDblock_iff hopen).mp hnewer).2.symm hbm
        · exact hold
    · intro fd' pos' hopen'
      rw [hopen] at hopen'
      cases hopen'
      rw [writeDblock_cblk]
      exact { hsession with dblock := .inr ⟨m, hm, hstores⟩ }
  have hresult := h.keep hi hopen helse hlaid rfl rfl rfl rfl fun _ => ⟨pos, hopen⟩
  rwa [Layout.set_self hi] at hresult

/-- The index block of an open file is written. -/
theorem Laid.writeIblock (h : Laid k sectors s L) (hi : L.files[i]? = some f)
    (hopen : f.opener = some (fd, pos)) (hdirty : (s.lfltab fd).lfibdirty = true) :
    Laid k sectors (s.writeIblock fd) L := by
  have hfile := h.file i f hi
  have hsession := hfile.session fd pos hopen
  obtain ⟨j, hj, hdescribes⟩ : ∃ j, f.iblocks[j]? = some (s.lfltab fd).lfinum ∧
      Describes f.iblocks f.dblocks j (s.lfltab fd).lfiblock := by
    rcases hsession.iblock with hnone | hsome
    · rw [hnone.2] at hdirty
      cases hdirty
    · exact hsome
  have hmem := h.iblock_mem hi (List.mem_of_getElem? hj)
  have hother : ∀ b, 0 ≤ b → b ≠ (s.lfltab fd).lfinum →
      lfibget (s.writeIblock fd).disk b (fun _ => 0) = lfibget s.disk b fun _ => 0 :=
    fun b hb hne => lfibget_lfibput_of_ne hb hmem.1 hne
  have hdata : ∀ b, k + 1 ≤ b → (s.writeIblock fd).disk b = s.disk b :=
    fun b hb => lfibput_of_ne (ib2sect_ne hmem hb).symm
  have helse : Elsewhere k sectors s (s.writeIblock fd) i f fd := by
    constructor
    · rfl
    · rfl
    · exact fun _ _ _ _ _ => rfl
    · intro b hlo _ hb
      apply hother b hlo
      rintro rfl
      exact hb (List.mem_of_getElem? hj)
    · exact fun b hlo _ _ => hdata b hlo
    · exact fun fd' hne => update_of_ne hne _ _
    · rw [writeIblock_cblk]
  have hlaid : FileLaid (s.writeIblock fd) i f := by
    refine ⟨hfile.entry, hfile.short, hfile.depth, ?_, ?_, ?_⟩
    · intro j' b hb
      right
      by_cases hbj : b = (s.lfltab fd).lfinum
      · subst hbj
        rw [← h.iblock_eq hi hj hb]
        exact hdescribes.congr fun x hx => lfibget_lfibput hmem.1 hx
      · rw [hother b (h.iblock_mem hi (List.mem_of_getElem? hb)).1 hbj]
        rcases hfile.iblock j' b hb with hnewer | hold
        · exact absurd ((newerIblock_iff hopen).mp hnewer).2.symm hbj
        · exact hold
    · intro m b hb
      have hrange := h.dblock_mem hi (List.mem_of_getElem? hb)
      rw [hdata b hrange.1, newerDblock_iff hopen, writeIblock_cblk]
      rw [← newerDblock_iff (s := s) hopen]
      exact hfile.dblock m b hb
    · intro fd' pos' hopen'
      rw [hopen] at hopen'
      cases hopen'
      rw [writeIblock_cblk]
      exact { hsession with iblock := .inr ⟨j, hj, hdescribes⟩ }
  have hresult := h.keep hi hopen helse hlaid rfl rfl rfl rfl fun _ => ⟨pos, hopen⟩
  rwa [Layout.set_self hi] at hresult

/-- The directory on the disk is the one in memory. -/
def Lf.Synced (s : Lf nlfl) : Prop :=
  s.lfDirdirty = false ∧ ∀ a, a < lfBlksiz → s.disk lfAreaDir a = s.lfDir a

/-- The directory has not changed, but may have been written. -/
def DirKept (s s' : Lf nlfl) : Prop :=
  s'.lfDir = s.lfDir ∧
    (s'.Synced ∨ s'.lfDirdirty = s.lfDirdirty ∧ s'.disk lfAreaDir = s.disk lfAreaDir)

theorem DirKept.refl (s : Lf nlfl) : DirKept s s :=
  ⟨rfl, .inr ⟨rfl, rfl⟩⟩

theorem DirKept.trans {s'' : Lf nlfl} (h : DirKept s s') (h' : DirKept s' s'') : DirKept s s'' := by
  refine ⟨h'.1.trans h.1, ?_⟩
  rcases h'.2 with hsynced | ⟨hdirty, hsector⟩
  · exact .inl hsynced
  · rcases h.2 with hsynced | ⟨hdirty', hsector'⟩
    · left
      refine ⟨hdirty.trans hsynced.1, ?_⟩
      intro a ha
      rw [hsector, h'.1]
      exact hsynced.2 a ha
    · exact .inr ⟨hdirty.trans hdirty', hsector.trans hsector'⟩

theorem Lf.synced_writeDir (s : Lf nlfl) : s.writeDir.Synced :=
  ⟨rfl, fun _ ha => Lf.writeDir_directory ha⟩

/-- A step of `lfflush`: what it writes keeps the layout and the directory. -/
structure Flushed (k sectors : Int) (L : Layout nlfl) (s s' : Lf nlfl) : Prop where
  laid : Laid k sectors s' L
  kept : DirKept s s'

theorem Laid.flushDir (h : Laid k sectors s L) (hk : 0 ≤ k) :
    Flushed k sectors L s (if s.lfDirdirty then s.writeDir else s) := by
  split
  · exact ⟨h.writeDir hk, rfl, .inl s.synced_writeDir⟩
  · exact ⟨h, .refl s⟩

section Opened

variable (h : Laid k sectors s L) (hi : L.files[i]? = some f)
  (hopen : f.opener = some (fd, pos))
include h hi hopen

theorem Laid.flushDblock (hk : 0 ≤ k) :
    Flushed k sectors L s (if (s.lfltab fd).lfdbdirty then s.writeDblock fd else s) := by
  split
  · next hdirty =>
      refine ⟨h.writeDblock hi hopen hdirty, rfl, .inr ⟨rfl, ramwrite_of_ne ?_⟩⟩
      rcases ((h.file i f hi).session fd pos hopen).dblock with hnone | ⟨m, hm, -⟩
      · rw [hnone.2] at hdirty
        cases hdirty
      · have hmem := h.dblock_mem hi (List.mem_of_getElem? hm)
        unfold lfAreaDir
        omega
  · exact ⟨h, .refl s⟩

theorem Laid.flushIblock :
    Flushed k sectors L s (if (s.lfltab fd).lfibdirty then s.writeIblock fd else s) := by
  split
  · next hdirty =>
      refine ⟨h.writeIblock hi hopen hdirty, rfl, .inr ⟨rfl, lfibput_of_ne ?_⟩⟩
      rcases ((h.file i f hi).session fd pos hopen).iblock with hnone | ⟨j, hj, -⟩
      · rw [hnone.2] at hdirty
        cases hdirty
      · have hmem := h.iblock_mem hi (List.mem_of_getElem? hj)
        rw [ib2sect_of_nonneg hmem.1]
        unfold lfAreaDir
        omega
  · exact ⟨h, .refl s⟩

omit h hi hopen in
theorem flushDblock_cblk :
    (if (s.lfltab fd).lfdbdirty then s.writeDblock fd else s).lfltab fd =
      { s.lfltab fd with lfdbdirty := false } := by
  split
  · exact writeDblock_cblk
  · next hclean => rw [← Bool.eq_false_iff.mpr hclean]

omit h hi hopen in
theorem flushIblock_cblk :
    (if (s.lfltab fd).lfibdirty then s.writeIblock fd else s).lfltab fd =
      { s.lfltab fd with lfibdirty := false } := by
  split
  · exact writeIblock_cblk
  · next hclean => rw [← Bool.eq_false_iff.mpr hclean]

/-- What is flushed is on the disk. -/
theorem Laid.lfflush (hk : 0 ≤ k) : Flushed k sectors L s (lfflush fd s).2 ∧
    (lfflush fd s).2.lfDirdirty = false ∧
    (lfflush fd s).2.lfltab fd = { s.lfltab fd with lfibdirty := false, lfdbdirty := false } := by
  have hused := ((h.file i f hi).session fd pos hopen).used
  obtain ⟨s₁, hs₁⟩ : ∃ s₁, (if s.lfDirdirty then s.writeDir else s) = s₁ := ⟨_, rfl⟩
  obtain ⟨s₂, hs₂⟩ : ∃ s₂, (if (s₁.lfltab fd).lfdbdirty then s₁.writeDblock fd else s₁) = s₂ :=
    ⟨_, rfl⟩
  have hdir := h.flushDir hk
  have hclean : s₁.lfDirdirty = false ∧ s₁.lfltab = s.lfltab := by
    rw [← hs₁]
    split
    · exact ⟨rfl, rfl⟩
    · next hclean => exact ⟨Bool.eq_false_iff.mpr hclean, rfl⟩
  rw [hs₁] at hdir
  have hdblock := hdir.laid.flushDblock hi hopen hk
  have hcblk := @flushDblock_cblk _ s₁ fd
  rw [hs₂] at hdblock hcblk
  have hiblock := hdblock.laid.flushIblock hi hopen
  have hcblk' := @flushIblock_cblk _ s₂ fd
  have hclean₂ : s₂.lfDirdirty = false := by
    rcases hdblock.kept.2 with hsynced | hsame
    · exact hsynced.1
    · exact hsame.1.trans hclean.1
  unfold Lfs.lfflush
  rw [if_neg (by rw [hused]; decide)]
  dsimp only
  rw [hs₁, hs₂]
  refine ⟨⟨hiblock.laid, hdir.kept.trans (hdblock.kept.trans hiblock.kept)⟩, ?_, ?_⟩
  · rcases hiblock.kept.2 with hsynced | hsame
    · exact hsynced.1
    · exact hsame.1.trans hclean₂
  · rw [hcblk', hcblk, hclean.2]

/-- The copies in the control block are written if they have changed. -/
theorem Laid.flushChanged (hk : 0 ≤ k) {t : Lf nlfl}
    (ht : (if (s.lfltab fd).lfibdirty || (s.lfltab fd).lfdbdirty then (Lfs.lfflush fd s).2
      else s) = t) : Flushed k sectors L s t ∧
    t.lfltab fd = { s.lfltab fd with lfibdirty := false, lfdbdirty := false } := by
  rw [← ht]
  split
  · obtain ⟨hflushed, -, hcblk⟩ := h.lfflush hi hopen hk
    exact ⟨hflushed, hcblk⟩
  · next hclean =>
      rw [Bool.or_eq_true, not_or, Bool.not_eq_true, Bool.not_eq_true] at hclean
      refine ⟨⟨h, .refl s⟩, ?_⟩
      generalize s.lfltab fd = c at hclean ⊢
      cases c
      cases hclean.1
      cases hclean.2
      rfl

end Opened

/-! ## Free blocks -/

theorem i32_loaded (m : Chars) (a : Nat) : i32 (i32 (loadWord m a)) = i32 (loadWord m a) :=
  Int.bmod_bmod

theorem i32_nextIblock (d : Disk) (b : Int) : i32 (nextIblock d b) = nextIblock d b := by
  unfold nextIblock Lfiblk.next
  exact i32_loaded _ _

theorem i32_nextDblock (d : Disk) (b : Int) : i32 (nextDblock d b) = nextDblock d b := by
  unfold nextDblock Lfdbfree.nextdb
  exact i32_loaded _ _

section Allocate

variable {rest : List Int} (h : Laid k sectors s L)
include h

theorem Laid.lfiballoc_nil (hfree : L.freeIblocks = []) :
    lfiballoc s = .panics "out of index blocks" := by
  have hnull : s.lfDir.ifree = lfInull := by
    rw [h.ifree.head_eq, hfree]
    rfl
  unfold lfiballoc
  rw [hnull]
  rfl

theorem Laid.lfiballoc_cons (hfree : L.freeIblocks = b :: rest) :
    lfiballoc s =
      .returns (b, ({ s with lfDir := s.lfDir.setIfree (nextIblock s.disk b) }).writeDir) := by
  have hchain := h.ifree
  rw [hfree, chained_cons] at hchain
  unfold lfiballoc
  rw [hchain.1, if_neg hchain.2.1]
  rfl

theorem Laid.lfdballoc_nil (hfree : L.freeDblocks = []) (dbuff : Lfdbfree) :
    lfdballoc dbuff s = .panics "out of data blocks" := by
  have hnull : s.lfDir.dfree = lfDnull := by
    rw [h.dfree.head_eq, hfree]
    rfl
  unfold lfdballoc
  rw [hnull]
  rfl

theorem Laid.lfdballoc_cons (hfree : L.freeDblocks = b :: rest) (dbuff : Lfdbfree) :
    lfdballoc dbuff s =
      .returns (b, memset (memcpy dbuff (s.disk b) lfBlksiz) dfill lfBlksiz,
        ({ s with lfDir := s.lfDir.setDfree (nextDblock s.disk b) }).writeDir) := by
  have hchain := h.dfree
  rw [hfree, chained_cons] at hchain
  have hnext : Lfdbfree.nextdb (memcpy dbuff (s.disk b) lfBlksiz) = nextDblock s.disk b := by
    unfold nextDblock Lfdbfree.nextdb
    rw [loadWord_congr]
    intro x _ hx
    exact if_pos (show x < 512 by omega)
  unfold lfdballoc ramread
  dsimp only
  rw [hchain.1, if_neg hchain.2.1, if_neg (by decide), hnext]

end Allocate

end Flush

/-! ## Index blocks -/

section Describes

variable {is ds : List Int} {j n : Nat} {b : Int} {x : Lfiblk}

/-- A block behind the one that is described. -/
theorem Describes.snoc_iblock (h : Describes is ds j x) (hj : j + 1 < is.length) :
    Describes (is ++ [b]) ds j x := by
  refine ⟨?_, h.offset, h.dba⟩
  rw [h.next, List.getElem?_append_left hj]

/-- The last block is linked to a new one. -/
theorem Describes.link (h : Describes is ds j x) (hj : j + 1 = is.length) (hb : i32 b = b) :
    Describes (is ++ [b]) ds j (x.setNext b) := by
  constructor
  · rw [Lfiblk.next_setNext, hj, List.getElem?_concat_length, hb]
    rfl
  · rw [Lfiblk.offset_setNext, h.offset]
  · intro t ht
    rw [Lfiblk.dba_setNext, h.dba t ht]

/-- A data block that another index block lists. -/
theorem Describes.snoc_dblock (h : Describes is ds j x) (hj : ds.length / 16 ≠ j) :
    Describes is (ds ++ [b]) j x := by
  refine ⟨h.next, h.offset, ?_⟩
  intro t ht
  rw [h.dba t ht]
  rcases Nat.lt_or_ge (16 * j + t) ds.length with hlt | hge
  · rw [List.getElem?_append_left hlt]
  · rw [List.getElem?_eq_none hge, List.getElem?_eq_none]
    rw [List.length_append, List.length_singleton]
    omega

/-- The index block lists a new data block. -/
theorem Describes.setDba (h : Describes is ds j x) (hj : ds.length = 16 * j + n)
    (hb : i32 b = b) : Describes is (ds ++ [b]) j (x.setDba b n) := by
  constructor
  · rw [Lfiblk.next_setDba, h.next]
  · rw [Lfiblk.offset_setDba, h.offset]
  · intro t ht
    by_cases htn : t = n
    · rw [htn, Lfiblk.dba_setDba, ← hj, List.getElem?_concat_length, hb]
      rfl
    · rw [Lfiblk.dba_setDba_of_ne htn, h.dba t ht]
      rcases Nat.lt_or_ge (16 * j + t) ds.length with hlt | hge
      · rw [List.getElem?_append_left hlt]
      · rw [List.getElem?_eq_none hge, List.getElem?_eq_none]
        rw [List.length_append, List.length_singleton]
        omega

/-- A new index block lists no data block. -/
theorem describes_lfibclear (x : Lfiblk) (hlen : is.length = j + 1) (hds : ds.length ≤ 16 * j)
    (hj : 8192 * j < 0x100000000) : Describes is ds j (lfibclear x (8192 * j : Nat)) := by
  obtain ⟨hnext, hoffset, hdba⟩ := lfibclear_fields x hj
  refine ⟨?_, hoffset, ?_⟩
  · rw [hnext, List.getElem?_eq_none (by omega)]
    rfl
  · intro t ht
    rw [hdba t ht, List.getElem?_eq_none (by omega)]
    rfl

end Describes

section Walk

variable {k sectors : Int} {s s' : Lf nlfl} {L : Layout nlfl} {f f' : Extent nlfl} {i j pos : Nat}
  {fd : Fin nlfl} {b dnum : Int} {rest : List Int}

/-- The control block has index block number `j`, and its data block need not be written. -/
structure AtIblock (k sectors : Int) (i : Nat) (fd : Fin nlfl) (pos j : Nat) (f : Extent nlfl)
    (L : Layout nlfl) (s : Lf nlfl) : Prop where
  laid : Laid k sectors s L
  getElem? : L.files[i]? = some f
  opener : f.opener = some (fd, pos)
  iblock : f.iblocks[j]? = some (s.lfltab fd).lfinum
  describes : Describes f.iblocks f.dblocks j (s.lfltab fd).lfiblock
  clean : (s.lfltab fd).lfdbdirty = false
  byte : (s.lfltab fd).lfbyte = lfBlksiz

/-- A file with one more index block. -/
def Extent.addIblock (f : Extent nlfl) (b : Int) : Extent nlfl :=
  { f with iblocks := f.iblocks ++ [b] }

/-- The state after `lfiballoc`. -/
def Lf.iballoc (b : Int) (s : Lf nlfl) : Lf nlfl :=
  ({ s with lfDir := s.lfDir.setIfree (nextIblock s.disk b) }).writeDir

@[simp]
theorem Lf.iballoc_lfltab : (s.iballoc b).lfltab = s.lfltab :=
  rfl

theorem extendIblock_disk : (extendIblock fd b s).disk =
    (lfibput s.disk (s.lfltab fd).lfinum ((s.lfltab fd).lfiblock.setNext b)).2 := by
  unfold extendIblock
  dsimp only
  rw [Lf.setCblk_disk, Lf.setCblk_self]
  rfl

theorem extendIblock_cblk : (extendIblock fd b s).lfltab fd = { s.lfltab fd with
    lfinum := b
    lfiblock := lfibclear ((s.lfltab fd).lfiblock.setNext b)
      ((s.lfltab fd).lfiblock.offset + lfIdata : Nat)
    lfibdirty := true
    lfdnum := lfDnull } := by
  unfold extendIblock
  dsimp only
  rw [Lf.setCblk_self, Lf.setCblk_self, Lfiblk.offset_setNext]

theorem extendIblock_of_ne {fd' : Fin nlfl} (h : fd' ≠ fd) :
    (extendIblock fd b s).lfltab fd' = s.lfltab fd' := by
  unfold extendIblock
  dsimp only
  rw [Lf.setCblk_of_ne h]
  exact update_of_ne h _ _

theorem Lf.iballoc_iblock {x : Int} (hx : 0 ≤ x) :
    lfibget (s.iballoc b).disk x (fun _ => 0) = lfibget s.disk x fun _ => 0 := by
  apply lfibget_congr
  apply Lf.writeDir_disk_of_ne
  rw [ib2sect_of_nonneg hx]
  unfold lfAreaDir
  omega

theorem Lf.iballoc_dblock (hk : 0 ≤ k) {x : Int} (hx : k + 1 ≤ x) :
    (s.iballoc b).disk x = s.disk x := by
  apply Lf.writeDir_disk_of_ne
  unfold lfAreaDir
  omega

/-- The number of a block is a number of 32 bits. -/
theorem Laid.i32_free (h : Laid k sectors s L) (hgeometry : Geometry k sectors)
    (hb : b ∈ L.freeIblocks) : i32 b = b := by
  have hmem := h.iblocks.free_mem_area hb
  have hlt := hgeometry.index_lt
  have hle := hgeometry.sectors_le
  rw [Finset.mem_Ico] at hmem
  exact i32_eq (by omega) (by omega)

section Opened

variable (h : Laid k sectors s L) (hi : L.files[i]? = some f) (hopen : f.opener = some (fd, pos))
  (hclean : (s.lfltab fd).lfdbdirty = false)
  (hdnum : dnum = (s.lfltab fd).lfdnum ∨ dnum = lfDnull)
include h hi hopen hclean hdnum

theorem Laid.dblock_kept : dnum = lfDnull ∧ (s.lfltab fd).lfdbdirty = false ∨
    ∃ m, f.dblocks[m]? = some dnum ∧ Stores f.bytes m (s.lfltab fd).lfdblock := by
  rcases hdnum with rfl | rfl
  · exact ((h.file i f hi).session fd pos hopen).dblock
  · exact .inl ⟨rfl, hclean⟩

variable (hbyte : (s.lfltab fd).lfbyte = lfBlksiz)
include hbyte

/-- An index block is read. -/
theorem Laid.loadIblock (hclean' : (s.lfltab fd).lfibdirty = false) (hb : f.iblocks[j]? = some b) :
    AtIblock k sectors i fd pos j f L (s.setCblk fd fun c =>
      { c with lfiblock := lfibget s.disk b c.lfiblock, lfinum := b, lfdnum := dnum }) := by
  have hfile := h.file i f hi
  have hsession := hfile.session fd pos hopen
  have hkept := h.dblock_kept hi hopen hclean hdnum
  have hdisk : Describes f.iblocks f.dblocks j (lfibget s.disk b (s.lfltab fd).lfiblock) := by
    rcases hfile.iblock j b hb with hnewer | hold
    · rw [newerIblock_iff hopen, hclean'] at hnewer
      cases hnewer.1
    · apply hold.congr
      intro a ha
      unfold lfibget memcpy
      rw [if_pos ha, if_pos ha]
  have hlaid : FileLaid (s.setCblk fd fun c =>
      { c with lfiblock := lfibget s.disk b c.lfiblock, lfinum := b, lfdnum := dnum }) i f := by
    refine ⟨hfile.entry, hfile.short, hfile.depth, ?_, ?_, ?_⟩
    · intro j' b' hb'
      rw [newerIblock_iff hopen, Lf.setCblk_self]
      right
      rcases hfile.iblock j' b' hb' with hnewer | hold
      · rw [newerIblock_iff hopen, hclean'] at hnewer
        cases hnewer.1
      · exact hold
    · intro m b' hb'
      right
      rcases hfile.dblock m b' hb' with hnewer | hold
      · rw [newerDblock_iff hopen, hclean] at hnewer
        cases hnewer.1
      · exact hold
    · intro fd' pos' hopen'
      rw [hopen] at hopen'
      cases hopen'
      rw [Lf.setCblk_self]
      exact { hsession with
        iblock := .inr ⟨j, hb, hdisk⟩
        dblock := hkept
        byte := .inl hbyte }
  have hresult := h.setCblk hi hopen hlaid rfl rfl (fun _ => ⟨pos, hopen⟩) rfl
  rw [Layout.set_self hi] at hresult
  refine ⟨hresult, hi, hopen, ?_, ?_, ?_, ?_⟩
  · rw [Lf.setCblk_self]
    exact hb
  · rw [Lf.setCblk_self]
    exact hdisk
  · rw [Lf.setCblk_self]
    exact hclean
  · rw [Lf.setCblk_self]
    exact hbyte

/-- An index block is added. -/
theorem Laid.addIblock (hfree : L.freeIblocks = b :: rest)
    (he : Elsewhere k sectors s s' i f fd) (hifree : s'.lfDir.ifree = nextIblock s.disk b)
    (hdfree : s'.lfDir.dfree = s.lfDir.dfree) (hentry : EntryOf s'.lfDir i (f.addIblock b))
    (hprevious : ∀ j b', f.iblocks[j]? = some b' →
      Describes (f.iblocks ++ [b]) f.dblocks j (lfibget s'.disk b' fun _ => 0))
    (hdata : ∀ b ∈ f.dblocks, s'.disk b = s.disk b) (hlen : 8192 * f.iblocks.length < 0x100000000)
    {x : Lfiblk} (hcblk : s'.lfltab fd = { s.lfltab fd with
      lfinum := b
      lfiblock := lfibclear x (8192 * f.iblocks.length : Nat)
      lfibdirty := true
      lfdnum := dnum }) :
    AtIblock k sectors i fd pos f.iblocks.length (f.addIblock b)
      (L.set i (f.addIblock b) rest L.freeDblocks) s' := by
  have hfile := h.file i f hi
  have hsession := hfile.session fd pos hopen
  have hkept := h.dblock_kept hi hopen hclean hdnum
  have hchain := h.ifree
  rw [hfree, chained_cons] at hchain
  have hnew : (f.iblocks ++ [b])[f.iblocks.length]? = some b := List.getElem?_concat_length
  have hclear : Describes (f.iblocks ++ [b]) f.dblocks f.iblocks.length
      (lfibclear x (8192 * f.iblocks.length : Nat)) := by
    apply describes_lfibclear x _ hfile.depth hlen
    rw [List.length_append]
    rfl
  have hlaid : FileLaid s' i (f.addIblock b) := by
    refine ⟨hentry, hfile.short, ?_, ?_, ?_, ?_⟩
    · have hdepth := hfile.depth
      unfold Extent.addIblock
      dsimp only
      rw [List.length_append]
      omega
    · intro j b' hb'
      rcases Nat.lt_or_ge j f.iblocks.length with hlt | hge
      · right
        apply hprevious j b'
        rwa [Extent.addIblock, List.getElem?_append_left hlt] at hb'
      · left
        have hlast : b' = b := by
          have hj := (List.getElem?_eq_some_iff.mp hb').1
          rw [Extent.addIblock, List.length_append, List.length_singleton] at hj
          obtain rfl : j = f.iblocks.length := by omega
          exact Option.some.inj (hb'.symm.trans hnew)
        rw [newerIblock_iff (show (f.addIblock b).opener = some (fd, pos) from hopen), hcblk, hlast]
        exact ⟨rfl, rfl⟩
    · intro m b' hb'
      right
      rw [hdata b' (List.mem_of_getElem? hb')]
      rcases hfile.dblock m b' hb' with hnewer | hold
      · rw [newerDblock_iff hopen, hclean] at hnewer
        cases hnewer.1
      · exact hold
    · intro fd' pos' hopen'
      rw [show (f.addIblock b).opener = some (fd, pos) from hopen] at hopen'
      cases hopen'
      rw [hcblk]
      exact { hsession with
        iblock := .inr ⟨f.iblocks.length, hnew, hclear⟩
        dblock := hkept
        byte := .inl hbyte }
  constructor
  · apply h.step hi hopen he hlaid
    · rw [hifree]
      exact hchain.2.2
    · rw [hdfree]
      exact h.dfree
    · rw [hfree]
      exact List.subset_cons_self b rest
    · exact List.Subset.refl _
    · rw [hfree]
      show (rest ++ (f.iblocks ++ [b])).Perm (b :: rest ++ f.iblocks)
      rw [← List.append_assoc]
      exact List.perm_append_comm
    · exact List.Perm.refl _
    · exact fun _ => ⟨pos, hopen⟩
  · exact Layout.set_getElem? hi
  · exact hopen
  · rw [hcblk]
    exact hnew
  · rw [hcblk]
    exact hclear
  · rw [hcblk]
    exact hclean
  · rw [hcblk]
    exact hbyte

end Opened

/-- The file has as many blocks as its bytes need. -/
structure Sized (f : Extent nlfl) : Prop where
  iblocks : f.iblocks.length = (f.bytes.length + 8191) / 8192
  dblocks : f.dblocks.length = (f.bytes.length + 511) / 512

/-- Are there blocks for the position? -/
def Layout.room (L : Layout nlfl) (f : Extent nlfl) (pos : Nat) : Ending Unit :=
  if f.iblocks.length = pos / 8192 ∧ L.freeIblocks = [] then
    .panics "out of index blocks"
  else if f.dblocks.length = pos / 512 ∧ L.freeDblocks = [] then
    .panics "out of data blocks"
  else
    .returns ()

/-- An open file whose blocks must be set up, after what has changed was written. -/
structure Unset (k sectors : Int) (i : Nat) (fd : Fin nlfl) (pos : Nat) (f : Extent nlfl)
    (L : Layout nlfl) (s : Lf nlfl) : Prop where
  geometry : Geometry k sectors
  laid : Laid k sectors s L
  getElem? : L.files[i]? = some f
  opener : f.opener = some (fd, pos)
  sized : Sized f
  clean : (s.lfltab fd).lfibdirty = false
  clean' : (s.lfltab fd).lfdbdirty = false
  byte : (s.lfltab fd).lfbyte = lfBlksiz

/-- On the way to the index block for the position; `s` is the state before. -/
def Walking (k sectors : Int) (i : Nat) (fd : Fin nlfl) (pos : Nat) (f : Extent nlfl)
    (L : Layout nlfl) (s t : Lf nlfl) : Prop :=
  (∃ j, j ≤ pos / 8192 ∧ AtIblock k sectors i fd pos j f L t ∧ (t.lfltab fd).lfibdirty = false ∧
    t.lfDir = s.lfDir ∧ t.lfDirdirty = s.lfDirdirty ∧ t.disk lfAreaDir = s.disk lfAreaDir) ∨
  ∃ b rest, L.freeIblocks = b :: rest ∧ f.iblocks.length = pos / 8192 ∧
    AtIblock k sectors i fd pos (pos / 8192) (f.addIblock b)
      (L.set i (f.addIblock b) rest L.freeDblocks) t

section Unset

variable (h : Unset k sectors i fd pos f L s)
include h

theorem Unset.pos_le : (s.lfltab fd).lfpos = pos ∧ pos ≤ f.bytes.length := by
  have hsession := (h.laid.file i f h.getElem?).session fd pos h.opener
  exact ⟨hsession.pos_eq, hsession.pos_le⟩

/-- There are fewer than 4 GiB. -/
theorem Unset.length_lt : f.bytes.length < 0x100000000 := by
  have hgeometry := h.geometry
  have hcard := h.laid.dblocks.owned_length_le (Layout.dblocks_getElem? h.getElem?)
  have hsized := h.sized.dblocks
  have hnonneg := hgeometry.index_nonneg
  have hle := hgeometry.sectors_le
  rw [Int.card_Ico] at hcard
  omega

/-- An empty file gets its first index block. -/
theorem Unset.first (hblocks : f.iblocks = []) (hfree : L.freeIblocks = b :: rest) :
    AtIblock k sectors i fd pos 0 (f.addIblock b) (L.set i (f.addIblock b) rest L.freeDblocks)
      (({ s.iballoc b with lfDir := (s.iballoc b).lfDir.setLdIlist i b }).setCblk fd fun c =>
        { c with lfiblock := lfibclear c.lfiblock 0, lfibdirty := true, lfinum := b }) := by
  have hlen : f.iblocks.length = 0 := by
    rw [hblocks]
    rfl
  have hfile := h.laid.file i f h.getElem?
  have hentry := Lfdir.le_entry i
  have hindex := h.geometry.index_nonneg
  have hb : i32 b = b := h.laid.i32_free h.geometry (hfree ▸ List.mem_cons_self)
  obtain ⟨d, hd⟩ : ∃ d, s.lfDir.setIfree (nextIblock s.disk b) = d := ⟨_, rfl⟩
  obtain ⟨t, ht⟩ : ∃ t, (({ s.iballoc b with lfDir := (s.iballoc b).lfDir.setLdIlist i b }).setCblk
      fd fun c => { c with lfiblock := lfibclear c.lfiblock 0, lfibdirty := true, lfinum := b }) =
        t :=
    ⟨_, rfl⟩
  have hdir : t.lfDir = d.setLdIlist i b := by
    rw [← ht, ← hd]
    rfl
  have hdisk : t.disk = (s.iballoc b).disk := by
    rw [← ht]
    rfl
  have hwords : ∀ a, a < 12 → d.setLdIlist i b a = d a :=
    fun a ha => Lfdir.setLdIlist_outside (by omega)
  obtain ⟨hdfree, hifree, hnfiles⟩ := Lfdir.congr hwords
  rw [ht, ← hlen]
  apply h.laid.addIblock h.getElem? h.opener h.clean' (.inl rfl) h.byte hfree
    (x := (s.lfltab fd).lfiblock)
  · constructor
    · rw [← ht]
      rfl
    · rw [hdir, hnfiles, ← hd, Lfdir.nfiles_setIfree]
    · intro j hji a hlo hhi
      have hdisjoint := Lfdir.entry_disjoint hji
      have hentry' := Lfdir.le_entry j
      rw [hdir, Lfdir.setLdIlist_outside (by omega), ← hd, Lfdir.setIfree_outside (by omega)]
    · intro x hx _ _
      rw [hdisk]
      exact Lf.iballoc_iblock hx
    · intro x hx _ _
      rw [hdisk]
      exact Lf.iballoc_dblock hindex hx
    · intro fd' hne
      rw [← ht]
      exact Lf.setCblk_of_ne hne
    · rw [← ht, Lf.setCblk_self]
      rfl
  · rw [hdir, hifree, ← hd, Lfdir.ifree_setIfree]
    exact i32_nextIblock _ _
  · rw [hdir, hdfree, ← hd, Lfdir.dfree_setIfree]
  · have hsame : EntryOf d i f := by
      apply hfile.entry.congr hfile.short
      intro a hlo _
      rw [← hd]
      exact Lfdir.setIfree_outside (by omega)
    rw [hdir]
    apply hsame.setLdIlist
    · rfl
    · rfl
    · rw [Extent.addIblock, hblocks]
      exact hb
  · intro j b' hb'
    rw [hblocks] at hb'
    cases hb'
  · intro x hx
    rw [hdisk]
    exact Lf.iballoc_dblock hindex (h.laid.dblock_mem h.getElem? hx).1
  · rw [hlen]
    decide
  · rw [← ht, Lf.setCblk_self, hlen]
    rfl

theorem firstIblock_meets : (firstIblock fd s).Meets (Walking k sectors i fd pos f L s)
    fun m => L.room f pos = .panics m := by
  have hfile := h.laid.file i f h.getElem?
  have hsession := hfile.session fd pos h.opener
  have hilist := hfile.entry.ilist
  have hsized := h.sized.iblocks
  have hpos := h.pos_le
  have hnonneg : ∀ b ∈ f.iblocks, b ≠ lfInull := by
    intro b hb
    have hmem := h.laid.iblock_mem h.getElem? hb
    unfold lfInull
    omega
  unfold firstIblock
  dsimp only
  rw [hsession.dirptr, hilist]
  rcases hsession.iblock with ⟨hnull, -⟩ | ⟨j, hj, hdescribes⟩
  · rw [if_pos hnull]
    cases hblocks : f.iblocks with
    | nil =>
        -- the file is empty and gets its first index block
        have hzero : f.iblocks.length = pos / 8192 := by
          rw [hblocks, List.length_nil] at hsized ⊢
          omega
        rw [List.headD_nil, if_pos rfl]
        cases hfree : L.freeIblocks with
        | nil =>
            rw [h.laid.lfiballoc_nil hfree]
            exact .panics (if_pos ⟨hzero, hfree⟩)
        | cons b rest =>
            rw [h.laid.lfiballoc_cons hfree]
            refine .returns (.inr ⟨b, rest, hfree, hzero, ?_⟩)
            rw [← hzero, hblocks]
            exact h.first hblocks hfree
    | cons b rest =>
        have hb : f.iblocks[0]? = some b := by
          rw [hblocks]
          rfl
        rw [List.headD_cons, if_neg (hnonneg b (List.mem_of_getElem? hb))]
        refine .returns (.inl ⟨0, Nat.zero_le _, ?_, ?_, rfl, rfl, rfl⟩)
        · exact h.laid.loadIblock h.getElem? h.opener h.clean' (.inl rfl) h.byte h.clean hb
        · rw [Lf.setCblk_self]
          exact h.clean
  · rw [if_neg (hnonneg _ (List.mem_of_getElem? hj)), hdescribes.offset, hpos.1]
    split
    · next hbefore =>
        -- the search begins again
        have hlt := (List.getElem?_eq_some_iff.mp hj).1
        obtain ⟨b, hb⟩ : ∃ b, f.iblocks[0]? = some b := ⟨_, List.getElem?_eq_getElem (by omega)⟩
        have hhead : f.iblocks.headD lfInull = b := by
          rw [List.headD_eq_head?_getD, List.head?_eq_getElem?, hb]
          rfl
        rw [hhead]
        refine .returns (.inl ⟨0, Nat.zero_le _, ?_, ?_, rfl, rfl, rfl⟩)
        · exact h.laid.loadIblock h.getElem? h.opener h.clean' (.inl rfl) h.byte h.clean hb
        · rw [Lf.setCblk_self]
          exact h.clean
    · next hbehind =>
        refine .returns (.inl ⟨j, by omega, ?_, h.clean, rfl, rfl, rfl⟩)
        exact ⟨h.laid, h.getElem?, h.opener, hj, hdescribes, h.clean', h.byte⟩

/-- The last index block is linked to a new one. -/
theorem Unset.extend (hat : AtIblock k sectors i fd pos j f L s) (hlast : j + 1 = f.iblocks.length)
    (hfree : L.freeIblocks = b :: rest) (hlen : 8192 * f.iblocks.length < 0x100000000) :
    AtIblock k sectors i fd pos (j + 1) (f.addIblock b)
      (L.set i (f.addIblock b) rest L.freeDblocks) (extendIblock fd b (s.iballoc b)) := by
  obtain ⟨s', hs'⟩ : ∃ s', extendIblock fd b (s.iballoc b) = s' := ⟨_, rfl⟩
  rw [hs']
  have hfile := h.laid.file i f h.getElem?
  have hentry := Lfdir.le_entry i
  have hindex := h.geometry.index_nonneg
  have hb : i32 b = b := h.laid.i32_free h.geometry (hfree ▸ List.mem_cons_self)
  have hinum := h.laid.iblock_mem h.getElem? (List.mem_of_getElem? hat.iblock)
  have hdir : s'.lfDir = s.lfDir.setIfree (nextIblock s.disk b) := by
    rw [← hs']
    rfl
  have hdisk : s'.disk = (lfibput (s.iballoc b).disk (s.lfltab fd).lfinum
      ((s.lfltab fd).lfiblock.setNext b)).2 := by
    rw [← hs', extendIblock_disk]
    rfl
  have hdata : ∀ x, k + 1 ≤ x → s'.disk x = s.disk x := by
    intro x hx
    rw [hdisk, lfibput_of_ne (ib2sect_ne hinum hx).symm]
    exact Lf.iballoc_dblock hindex hx
  have hother : ∀ x, 0 ≤ x → x ≠ (s.lfltab fd).lfinum →
      lfibget s'.disk x (fun _ => 0) = lfibget s.disk x fun _ => 0 := by
    intro x hx hne
    rw [hdisk, lfibget_lfibput_of_ne hx hinum.1 hne]
    exact Lf.iballoc_iblock hx
  rw [hlast]
  apply h.laid.addIblock h.getElem? h.opener h.clean' (.inr rfl) h.byte hfree
    (x := (s.lfltab fd).lfiblock.setNext b)
  · constructor
    · rw [← hs']
      rfl
    · rw [hdir, Lfdir.nfiles_setIfree]
    · intro j' _ a hlo _
      have hentry' := Lfdir.le_entry j'
      rw [hdir, Lfdir.setIfree_outside (by omega)]
    · intro x hx _ hmem
      apply hother x hx
      rintro rfl
      exact hmem (List.mem_of_getElem? hat.iblock)
    · exact fun x hx _ _ => hdata x hx
    · intro fd' hne
      rw [← hs']
      exact extendIblock_of_ne hne
    · rw [← hs', extendIblock_cblk]
      rfl
  · rw [hdir, Lfdir.ifree_setIfree]
    exact i32_nextIblock _ _
  · rw [hdir, Lfdir.dfree_setIfree]
  · have hsame : EntryOf s'.lfDir i f := by
      apply hfile.entry.congr hfile.short
      intro a hlo _
      rw [hdir]
      exact Lfdir.setIfree_outside (by omega)
    refine ⟨hsame.name, hsame.size, ?_⟩
    rw [hsame.ilist, Extent.addIblock]
    cases hblocks : f.iblocks with
    | nil =>
        rw [hblocks, List.length_nil] at hlast
        omega
    | cons x xs => rfl
  · intro j' b' hb'
    have hlt := (List.getElem?_eq_some_iff.mp hb').1
    by_cases hjj : j' = j
    · subst hjj
      obtain rfl : (s.lfltab fd).lfinum = b' := Option.some.inj (hat.iblock.symm.trans hb')
      apply (hat.describes.link hlast hb).congr
      intro a ha
      rw [hdisk]
      exact lfibget_lfibput hinum.1 ha
    · have hne : b' ≠ (s.lfltab fd).lfinum := by
        rintro rfl
        exact hjj (h.laid.iblock_eq h.getElem? hb' hat.iblock)
      rw [hother b' (h.laid.iblock_mem h.getElem? (List.mem_of_getElem? hb')).1 hne]
      rcases hfile.iblock j' b' hb' with hnewer | hold
      · rw [newerIblock_iff h.opener, h.clean] at hnewer
        cases hnewer.1
      · exact hold.snoc_iblock (by omega)
  · exact fun x hx => hdata x (h.laid.dblock_mem h.getElem? hx).1
  · exact hlen
  · have hoffset : (s.lfltab fd).lfiblock.offset + lfIdata = 8192 * f.iblocks.length := by
      rw [hat.describes.offset, ← hlast]
      rfl
    rw [← hs', extendIblock_cblk, Lf.iballoc_lfltab, hoffset]

/-- One turn of the loop. -/
theorem followIblock_meets (hat : AtIblock k sectors i fd pos j f L s) (hj : j < pos / 8192) :
    (followIblock fd s).Meets
      (fun t => Walking k sectors i fd pos f L s t ∧ (t.lfltab fd).lfiblock.offset = 8192 * (j + 1))
      fun m => L.room f pos = .panics m := by
  have hfile := h.laid.file i f h.getElem?
  have hsized := h.sized.iblocks
  have hpos := h.pos_le
  have hlength := h.length_lt
  have hlt := (List.getElem?_eq_some_iff.mp hat.iblock).1
  unfold followIblock
  dsimp only
  rw [hat.describes.next]
  cases hnext : f.iblocks[j + 1]? with
  | some b =>
      have hmem := h.laid.iblock_mem h.getElem? (List.mem_of_getElem? hnext)
      have hne : (some b).getD lfInull ≠ lfInull := by
        rw [Option.getD_some]
        unfold lfInull
        omega
      rw [if_neg hne, Option.getD_some]
      have hload := h.laid.loadIblock h.getElem? h.opener h.clean' (.inr rfl) h.byte h.clean hnext
      refine .returns ⟨.inl ⟨j + 1, by omega, hload, ?_, rfl, rfl, rfl⟩, hload.describes.offset⟩
      rw [Lf.setCblk_self]
      exact h.clean
  | none =>
      have hge := List.getElem?_eq_none_iff.mp hnext
      have hlast : j + 1 = f.iblocks.length := by omega
      have hzero : f.iblocks.length = pos / 8192 := by omega
      rw [Option.getD_none, if_pos rfl]
      cases hfree : L.freeIblocks with
      | nil =>
          rw [h.laid.lfiballoc_nil hfree]
          exact .panics (if_pos ⟨hzero, hfree⟩)
      | cons b rest =>
          rw [h.laid.lfiballoc_cons hfree]
          have hext := h.extend hat hlast hfree (by omega)
          have hj' : j + 1 = pos / 8192 := by omega
          refine .returns ⟨.inr ⟨b, rest, hfree, hzero, ?_⟩, hext.describes.offset⟩
          rw [← hj']
          exact hext

end Unset

theorem and_lfImask (n : Nat) : n &&& lfImask = n % 8192 :=
  Nat.and_two_pow_sub_one_eq_mod n 13

theorem and_lfDmask (n : Nat) : n &&& lfDmask = n % 512 :=
  Nat.and_two_pow_sub_one_eq_mod n 9

/-- The search goes on as long as the index block lies before that of the position. -/
theorem AtIblock.isBehind_iff (hat : AtIblock k sectors i fd pos j f L s) :
    isBehind fd s = true ↔ j < pos / 8192 := by
  have hpos := ((hat.laid.file i f hat.getElem?).session fd pos hat.opener).pos_eq
  unfold isBehind
  dsimp only
  rw [hat.describes.offset, hpos, and_lfImask, decide_eq_true_iff]
  omega

theorem Walking.of_same {t : Lf nlfl} (h : Walking k sectors i fd pos f L s' t)
    (hdir : s'.lfDir = s.lfDir) (hdirty : s'.lfDirdirty = s.lfDirdirty)
    (hsector : s'.disk lfAreaDir = s.disk lfAreaDir) : Walking k sectors i fd pos f L s t := by
  rcases h with ⟨j, hj, hat, hclean, hdir', hdirty', hsector'⟩ | hnew
  · exact .inl ⟨j, hj, hat, hclean, hdir'.trans hdir, hdirty'.trans hdirty, hsector'.trans hsector⟩
  · exact .inr hnew

/-- The loop finds the index block for the position. -/
theorem Unset.walk_meets {t : Lf nlfl} (h : Unset k sectors i fd pos f L s)
    (hwalk : Walking k sectors i fd pos f L s t) {n : Nat} (hn : pos / 8192 < n) :
    (whileDo (isBehind fd) (followIblock fd) n t).Meets
      (fun t => Walking k sectors i fd pos f L s t ∧ isBehind fd t = false)
      fun m => L.room f pos = .panics m := by
  apply whileDo_meets (I := Walking k sectors i fd pos f L s)
    (fun t => pos / 8192 - (t.lfltab fd).lfiblock.offset / 8192) _ hwalk (by omega)
  rintro t (⟨j, _, hat, hclean, hdir, hdirty, hsector⟩ | ⟨b, rest, -, -, hat⟩) hbehind
  · have hj := hat.isBehind_iff.mp hbehind
    have ht : Unset k sectors i fd pos f L t :=
      ⟨h.geometry, hat.laid, hat.getElem?, hat.opener, h.sized, hclean, hat.clean, hat.byte⟩
    have hturn := followIblock_meets ht hat hj
    apply hturn.mono
    · rintro u ⟨hu, hoffset⟩
      refine ⟨hu.of_same hdir hdirty hsector, ?_⟩
      rw [hoffset, hat.describes.offset]
      omega
    · exact fun m hm => hm
  · have hj := hat.isBehind_iff.mp hbehind
    omega

/-- A file with one more data block. -/
def Extent.addDblock (f : Extent nlfl) (b : Int) : Extent nlfl :=
  { f with dblocks := f.dblocks ++ [b] }

/-- The state after `lfdballoc`. -/
def Lf.dballoc (b : Int) (s : Lf nlfl) : Lf nlfl :=
  ({ s with lfDir := s.lfDir.setDfree (nextDblock s.disk b) }).writeDir

/-- The control block has the data block for the position. -/
structure AtDblock (k sectors : Int) (i : Nat) (fd : Fin nlfl) (pos : Nat) (f : Extent nlfl)
    (L : Layout nlfl) (s : Lf nlfl) : Prop where
  laid : Laid k sectors s L
  getElem? : L.files[i]? = some f
  opener : f.opener = some (fd, pos)
  dblock : f.dblocks[pos / 512]? = some (s.lfltab fd).lfdnum

section DataBlock

variable (h : AtIblock k sectors i fd pos (pos / 8192) f L s)
include h

/-- The data block of a position is read. -/
theorem AtIblock.readDblock (hb : f.dblocks[pos / 512]? = some b) :
    AtDblock k sectors i fd pos f L (s.setCblk fd fun c =>
      { c with lfdblock := (ramread s.disk c.lfdblock b).2, lfdbdirty := false, lfdnum := b }) := by
  have hfile := h.laid.file i f h.getElem?
  have hsession := hfile.session fd pos h.opener
  have hstores : Stores f.bytes (pos / 512) (ramread s.disk (s.lfltab fd).lfdblock b).2 := by
    rcases hfile.dblock _ b hb with hnewer | hold
    · rw [newerDblock_iff h.opener, h.clean] at hnewer
      cases hnewer.1
    · exact hold.congr fun a ha => if_pos ha
  have hlaid : FileLaid (s.setCblk fd fun c =>
      { c with lfdblock := (ramread s.disk c.lfdblock b).2, lfdbdirty := false, lfdnum := b })
      i f := by
    refine ⟨hfile.entry, hfile.short, hfile.depth, ?_, ?_, ?_⟩
    · intro j' b' hb'
      rw [newerIblock_iff h.opener, Lf.setCblk_self]
      rw [← newerIblock_iff (s := s) h.opener]
      exact hfile.iblock j' b' hb'
    · intro m b' hb'
      right
      rcases hfile.dblock m b' hb' with hnewer | hold
      · rw [newerDblock_iff h.opener, h.clean] at hnewer
        cases hnewer.1
      · exact hold
    · intro fd' pos' hopen'
      rw [h.opener] at hopen'
      cases hopen'
      rw [Lf.setCblk_self]
      exact { hsession with
        dblock := .inr ⟨_, hb, hstores⟩
        byte := .inl h.byte }
  have hresult := h.laid.setCblk h.getElem? h.opener hlaid rfl rfl (fun _ => ⟨pos, h.opener⟩) rfl
  rw [Layout.set_self h.getElem?] at hresult
  refine ⟨hresult, h.getElem?, h.opener, ?_⟩
  rw [Lf.setCblk_self]
  exact hb

/-- A data block is added. -/
theorem AtIblock.addDblock (hgeometry : Geometry k sectors) (hlen : f.dblocks.length = pos / 512)
    (hbytes : f.bytes.length ≤ 512 * (pos / 512)) (hfree : L.freeDblocks = b :: rest)
    (block : Chars) :
    AtDblock k sectors i fd pos (f.addDblock b) (L.set i (f.addDblock b) L.freeIblocks rest)
      ((s.dballoc b).setCblk fd fun c =>
        { c with
          lfdblock := block
          lfiblock := c.lfiblock.setDba b (pos % 8192 / 512)
          lfibdirty := true
          lfdnum := b }) := by
  obtain ⟨s', hs'⟩ : ∃ s', ((s.dballoc b).setCblk fd fun c =>
      { c with
        lfdblock := block
        lfiblock := c.lfiblock.setDba b (pos % 8192 / 512)
        lfibdirty := true
        lfdnum := b }) = s' := ⟨_, rfl⟩
  have hfile := h.laid.file i f h.getElem?
  have hsession := hfile.session fd pos h.opener
  have hindex := hgeometry.index_nonneg
  have hchain := h.laid.dfree
  rw [hfree, chained_cons] at hchain
  have hb : i32 b = b := by
    have hmem := h.laid.dblocks.free_mem_area (b := b) (by rw [hfree]; exact List.mem_cons_self)
    have hle := hgeometry.sectors_le
    rw [Finset.mem_Ico] at hmem
    exact i32_eq (by omega) (by omega)
  have hdir : s'.lfDir = s.lfDir.setDfree (nextDblock s.disk b) := by
    rw [← hs']
    rfl
  have hother : ∀ x, x ≠ lfAreaDir → s'.disk x = s.disk x := by
    intro x hx
    rw [← hs']
    exact Lf.writeDir_disk_of_ne hx
  have hiblock : ∀ x, 0 ≤ x → lfibget s'.disk x (fun _ => 0) = lfibget s.disk x fun _ => 0 := by
    intro x hx
    apply lfibget_congr
    apply hother
    rw [ib2sect_of_nonneg hx]
    unfold lfAreaDir
    omega
  have hdblock : ∀ x, k + 1 ≤ x → s'.disk x = s.disk x := by
    intro x hx
    apply hother
    unfold lfAreaDir
    omega
  have hcblk : s'.lfltab fd = { s.lfltab fd with
      lfdblock := block
      lfiblock := (s.lfltab fd).lfiblock.setDba b (pos % 8192 / 512)
      lfibdirty := true
      lfdnum := b } := by
    rw [← hs', Lf.setCblk_self]
    rfl
  have hopener : (f.addDblock b).opener = some (fd, pos) := h.opener
  have hnew : (f.dblocks ++ [b])[pos / 512]? = some b := by
    rw [← hlen]
    exact List.getElem?_concat_length
  have hdescribes : Describes f.iblocks (f.dblocks ++ [b]) (pos / 8192)
      ((s.lfltab fd).lfiblock.setDba b (pos % 8192 / 512)) :=
    h.describes.setDba (by omega) hb
  have hstores : ∀ m, f.dblocks.length ≤ m → ∀ x, Stores f.bytes m x := by
    intro m hm x y hy a ha
    rw [List.getElem?_eq_none (by omega)] at ha
    cases ha
  have hlaid : FileLaid s' i (f.addDblock b) := by
    refine ⟨?_, hfile.short, ?_, ?_, ?_, ?_⟩
    · have hsame : EntryOf s'.lfDir i f := by
        apply hfile.entry.congr hfile.short
        intro a hlo _
        have hentry := Lfdir.le_entry i
        rw [hdir]
        exact Lfdir.setDfree_outside (by omega)
      exact ⟨hsame.name, hsame.size, hsame.ilist⟩
    · have hlt := (List.getElem?_eq_some_iff.mp h.iblock).1
      unfold Extent.addDblock
      dsimp only
      rw [List.length_append, List.length_singleton]
      omega
    · intro j b' hb'
      rw [newerIblock_iff hopener, hcblk,
        hiblock b' (h.laid.iblock_mem h.getElem? (List.mem_of_getElem? hb')).1]
      by_cases hj : j = pos / 8192
      · left
        rw [hj] at hb'
        exact ⟨rfl, Option.some.inj (h.iblock.symm.trans hb')⟩
      · right
        rcases hfile.iblock j b' hb' with hnewer | hold
        · rw [newerIblock_iff h.opener] at hnewer
          rw [← hnewer.2] at hb'
          exact absurd (h.laid.iblock_eq h.getElem? hb' h.iblock) hj
        · exact hold.snoc_dblock (by omega)
    · intro m b' hb'
      right
      rcases Nat.lt_or_ge m f.dblocks.length with hlt | hge
      · rw [Extent.addDblock, List.getElem?_append_left hlt] at hb'
        rw [hdblock b' (h.laid.dblock_mem h.getElem? (List.mem_of_getElem? hb')).1]
        rcases hfile.dblock m b' hb' with hnewer | hold
        · rw [newerDblock_iff h.opener, h.clean] at hnewer
          cases hnewer.1
        · exact hold
      · exact hstores m hge _
    · intro fd' pos' hopen'
      rw [hopener] at hopen'
      cases hopen'
      rw [hcblk]
      exact { hsession with
        iblock := .inr ⟨_, h.iblock, hdescribes⟩
        dblock := .inr ⟨_, hnew, hstores _ (by omega) _⟩
        byte := .inl h.byte }
  rw [hs']
  constructor
  · apply h.laid.step h.getElem? h.opener _ hlaid
    · rw [hdir, Lfdir.ifree_setDfree]
      exact h.laid.ifree
    · rw [hdir, Lfdir.dfree_setDfree, i32_nextDblock]
      exact hchain.2.2
    · exact List.Subset.refl _
    · rw [hfree]
      exact List.subset_cons_self b rest
    · exact List.Perm.refl _
    · rw [hfree]
      show (rest ++ (f.dblocks ++ [b])).Perm (b :: rest ++ f.dblocks)
      rw [← List.append_assoc]
      exact List.perm_append_comm
    · exact fun _ => ⟨pos, hopener⟩
    · constructor
      · rw [← hs']
        rfl
      · rw [hdir, Lfdir.nfiles_setDfree]
      · intro j _ a hlo _
        have hentry := Lfdir.le_entry j
        rw [hdir]
        exact Lfdir.setDfree_outside (by omega)
      · exact fun x hx _ _ => hiblock x hx
      · exact fun x hx _ _ => hdblock x hx
      · intro fd' hne
        rw [← hs']
        exact Lf.setCblk_of_ne hne
      · rw [hcblk]
  · exact Layout.set_getElem? h.getElem?
  · exact hopener
  · rw [hcblk]
    exact hnew

/-- What `loadDblock` does: the file has the data block, or gets one. -/
inductive Loaded (k sectors : Int) (i : Nat) (fd : Fin nlfl) (pos : Nat) (f : Extent nlfl)
    (L : Layout nlfl) (s u : Lf nlfl) : Extent nlfl → Layout nlfl → Prop
  | old (hlt : pos / 512 < f.dblocks.length) (hdir : u.lfDir = s.lfDir)
      (hdirty : u.lfDirdirty = s.lfDirdirty) (hsector : u.disk lfAreaDir = s.disk lfAreaDir) :
      Loaded k sectors i fd pos f L s u f L
  | new {b : Int} {rest : List Int} (hlen : f.dblocks.length = pos / 512)
      (hfree : L.freeDblocks = b :: rest) (hsynced : u.Synced) :
      Loaded k sectors i fd pos f L s u (f.addDblock b)
        (L.set i (f.addDblock b) L.freeIblocks rest)

theorem AtIblock.loadDblock_meets (hgeometry : Geometry k sectors)
    (hle : pos / 512 ≤ f.dblocks.length)
    (hbytes : f.dblocks.length = pos / 512 → f.bytes.length ≤ 512 * (pos / 512)) :
    (loadDblock fd s).Meets
      (fun u => ∃ f' L', AtDblock k sectors i fd pos f' L' u ∧
        Loaded k sectors i fd pos f L s u f' L')
      fun m => m = "out of data blocks" ∧ f.dblocks.length = pos / 512 ∧ L.freeDblocks = [] := by
  have hpos := ((h.laid.file i f h.getElem?).session fd pos h.opener).pos_eq
  have hdindex : (pos &&& lfImask) >>> 9 = pos % 8192 / 512 := by
    rw [and_lfImask, Nat.shiftRight_eq_div_pow]
  have hplace : 16 * (pos / 8192) + pos % 8192 / 512 = pos / 512 := by omega
  unfold loadDblock
  dsimp only
  rw [hpos, hdindex, h.describes.dba _ (by omega), hplace]
  cases hblock : f.dblocks[pos / 512]? with
  | some b =>
      have hmem := h.laid.dblock_mem h.getElem? (List.mem_of_getElem? hblock)
      have hlt := (List.getElem?_eq_some_iff.mp hblock).1
      have hne : (some b).getD lfDnull ≠ lfDnull := by
        have hindex := hgeometry.index_nonneg
        rw [Option.getD_some]
        unfold lfDnull
        omega
      rw [if_neg hne, Option.getD_some]
      split
      · exact .returns ⟨f, L, h.readDblock hblock, .old hlt rfl rfl rfl⟩
      · next hsame =>
          rw [not_ne_iff] at hsame
          refine .returns ⟨f, L, ⟨h.laid, h.getElem?, h.opener, ?_⟩, .old hlt rfl rfl rfl⟩
          rw [← hsame]
          exact hblock
  | none =>
      have hge := List.getElem?_eq_none_iff.mp hblock
      have hlen : f.dblocks.length = pos / 512 := by omega
      rw [Option.getD_none, if_pos rfl]
      cases hfree : L.freeDblocks with
      | nil =>
          rw [h.laid.lfdballoc_nil hfree]
          exact .panics ⟨rfl, hlen, rfl⟩
      | cons b rest =>
          rw [h.laid.lfdballoc_cons hfree]
          have hadd := h.addDblock hgeometry hlen (hbytes hlen) hfree
            (memset (memcpy (s.lfltab fd).lfdblock (s.disk b) lfBlksiz) dfill lfBlksiz)
          exact .returns ⟨_, _, hadd, .new hlen hfree (Lf.synced_writeDir _)⟩

end DataBlock

/-- The blocks for the position are in memory; a file at its end has got more blocks. -/
structure Settled (k sectors : Int) (i : Nat) (fd : Fin nlfl) (pos : Nat) (f f' : Extent nlfl)
    (L L' : Layout nlfl) (s u : Lf nlfl) : Prop extends AtDblock k sectors i fd pos f' L' u where
  name : f'.name = f.name
  bytes : f'.bytes = f.bytes
  iblocks : f'.iblocks.length = max f.iblocks.length (pos / 8192 + 1)
  dblocks : f'.dblocks.length = max f.dblocks.length (pos / 512 + 1)
  layout : ∃ freeI freeD, L' = L.set i f' freeI freeD
  byte : (u.lfltab fd).lfbyte = pos % 512
  dir : u.Synced ∨ f' = f ∧ L' = L ∧ DirKept s u

/-- The place in the data block is set. -/
theorem AtDblock.setByte (h : AtDblock k sectors i fd pos f L s) :
    AtDblock k sectors i fd pos f L (s.setCblk fd fun c => { c with lfbyte := pos % 512 }) := by
  have hfile := h.laid.file i f h.getElem?
  have hsession := hfile.session fd pos h.opener
  have hlaid : FileLaid (s.setCblk fd fun c => { c with lfbyte := pos % 512 }) i f := by
    refine ⟨hfile.entry, hfile.short, hfile.depth, ?_, ?_, ?_⟩
    · intro j b hb
      rw [newerIblock_iff h.opener, Lf.setCblk_self]
      rw [← newerIblock_iff (s := s) h.opener]
      exact hfile.iblock j b hb
    · intro m b hb
      rw [newerDblock_iff h.opener, Lf.setCblk_self]
      rw [← newerDblock_iff (s := s) h.opener]
      exact hfile.dblock m b hb
    · intro fd' pos' hopen'
      rw [h.opener] at hopen'
      cases hopen'
      rw [Lf.setCblk_self]
      exact { hsession with byte := .inr ⟨h.dblock, rfl⟩ }
  have hresult := h.laid.setCblk h.getElem? h.opener hlaid rfl rfl (fun _ => ⟨pos, h.opener⟩) rfl
  rw [Layout.set_self h.getElem?] at hresult
  refine ⟨hresult, h.getElem?, h.opener, ?_⟩
  rw [Lf.setCblk_self]
  exact h.dblock

/-- The data block and the place in it, at the index block for the position. -/
theorem AtIblock.settle_meets (h : AtIblock k sectors i fd pos (pos / 8192) f L s)
    (hgeometry : Geometry k sectors) (hle : pos / 512 ≤ f.dblocks.length)
    (hbytes : f.dblocks.length = pos / 512 → f.bytes.length ≤ 512 * (pos / 512)) :
    (loadDblock fd s >>= fun s =>
        pure (s.setCblk fd fun c => { c with lfbyte := c.lfpos &&& lfDmask })).Meets
      (fun u => ∃ f' L', AtDblock k sectors i fd pos f' L' u ∧
        (u.lfltab fd).lfbyte = pos % 512 ∧ Loaded k sectors i fd pos f L s u f' L')
      fun m => m = "out of data blocks" ∧ f.dblocks.length = pos / 512 ∧ L.freeDblocks = [] := by
  apply (h.loadDblock_meets hgeometry hle hbytes).bind
  rintro u ⟨f', L', hat, hloaded⟩
  have hpos := ((hat.laid.file i f' hat.getElem?).session fd pos hat.opener).pos_eq
  have hbyte : (u.setCblk fd fun c => { c with lfbyte := c.lfpos &&& lfDmask }) =
      u.setCblk fd fun c => { c with lfbyte := pos % 512 } := by
    unfold Lf.setCblk
    dsimp only
    rw [hpos, and_lfDmask]
  rw [hbyte]
  refine .returns ⟨f', L', hat.setByte, by rw [Lf.setCblk_self], ?_⟩
  cases hloaded with
  | old hlt hdir hdirty hsector => exact .old hlt hdir hdirty hsector
  | new hlen hfree hsynced => exact .new hlen hfree hsynced

end Walk

section Setup

variable {k sectors : Int} {s : Lf nlfl} {L : Layout nlfl} {f : Extent nlfl} {i pos n : Nat}
  {fd : Fin nlfl}

/-- The blocks for a position are set up, or the disk is full. -/
theorem lfsetup_meets (hgeometry : Geometry k sectors) (h : Laid k sectors s L)
    (hi : L.files[i]? = some f) (hopen : f.opener = some (fd, pos)) (hsized : Sized f)
    (hbyte : (s.lfltab fd).lfbyte = lfBlksiz) (hn : 7 * k < n) :
    (lfsetup n fd s).Meets
      (fun u => L.room f pos = .returns () ∧
        ∃ f' L', Settled k sectors i fd pos f f' L L' s u)
      fun m => L.room f pos = .panics m := by
  obtain ⟨s₁, hs₁⟩ : ∃ s₁, (if (s.lfltab fd).lfibdirty || (s.lfltab fd).lfdbdirty then
      (lfflush fd s).2 else s) = s₁ := ⟨_, rfl⟩
  -- what has changed is written first
  obtain ⟨⟨hlaid, hkept⟩, hcblk⟩ := h.flushChanged hi hopen hgeometry.index_nonneg hs₁
  have hunset : Unset k sectors i fd pos f L s₁ := by
    refine ⟨hgeometry, hlaid, hi, hopen, hsized, ?_, ?_, ?_⟩
    · rw [hcblk]
    · rw [hcblk]
    · rw [hcblk]
      exact hbyte
  have hpos := hunset.pos_le.2
  have hiblocks := hsized.iblocks
  have hdblocks := hsized.dblocks
  have hdepth := (h.file i f hi).depth
  have hcard := h.iblocks.owned_length_le (Layout.iblocks_getElem? hi)
  have hindex := hgeometry.index_nonneg
  rw [Int.card_Ico] at hcard
  unfold lfsetup
  dsimp only
  rw [hs₁]
  apply (firstIblock_meets hunset).bind
  intro t hwalk
  apply (hunset.walk_meets hwalk (n := n) (by omega)).bind
  rintro t ⟨⟨j, hj, hat, hclean, hdir, hdirty, hsector⟩ | ⟨b, rest, hfree, hlen, hat⟩, hbehind⟩
  · -- the file has the index block
    have hnot : ¬ j < pos / 8192 := by
      rw [← hat.isBehind_iff, hbehind]
      decide
    obtain rfl : j = pos / 8192 := by omega
    have hlt := (List.getElem?_eq_some_iff.mp hat.iblock).1
    have hroom : ¬ (f.iblocks.length = pos / 8192 ∧ L.freeIblocks = []) := by omega
    apply (hat.settle_meets hgeometry (by omega) (by omega)).mono
    · rintro u ⟨f', L', hat', hbyte', hloaded⟩
      cases hloaded with
      | old hltd hdir' hdirty' hsector' =>
          refine ⟨?_, f, L, hat', rfl, rfl, by omega, by omega, ?_, hbyte', .inr ⟨rfl, rfl, ?_⟩⟩
          · unfold Layout.room
            rw [if_neg hroom, if_neg (by omega)]
          · exact ⟨_, _, (Layout.set_self hi).symm⟩
          · exact hkept.trans
              ⟨hdir'.trans hdir, .inr ⟨hdirty'.trans hdirty, hsector'.trans hsector⟩⟩
      | @new b rest hlend hfree hsynced =>
          refine ⟨?_, _, _, hat', rfl, rfl, ?_, ?_, ⟨_, _, rfl⟩, hbyte', .inl hsynced⟩
          · unfold Layout.room
            rw [if_neg hroom, if_neg]
            rw [hfree]
            simp
          · show f.iblocks.length = _
            omega
          · show (f.dblocks ++ [b]).length = _
            rw [List.length_append, List.length_singleton]
            omega
    · rintro m ⟨rfl, hfull⟩
      unfold Layout.room
      rw [if_neg hroom, if_pos hfull]
  · -- the file has got the index block
    have hroom : ¬ (f.iblocks.length = pos / 8192 ∧ L.freeIblocks = []) := by
      rw [hfree]
      simp
    have hle : f.dblocks.length ≤ pos / 512 := by omega
    have hlength : (f.addIblock b).iblocks.length = f.iblocks.length + 1 := List.length_append
    apply (hat.settle_meets hgeometry (show pos / 512 ≤ f.dblocks.length by omega)
      (show f.dblocks.length = pos / 512 → f.bytes.length ≤ 512 * (pos / 512) by omega)).mono
    · rintro u ⟨f', L', hat', hbyte', hloaded⟩
      cases hloaded with
      | old hltd _ _ _ => exact absurd hltd (Nat.not_lt.mpr hle)
      | @new d rest' hlend hfree' hsynced =>
          refine ⟨?_, _, _, hat', rfl, rfl, ?_, ?_, ⟨rest, rest', L.set_set _ _ _⟩, hbyte',
            .inl hsynced⟩
          · unfold Layout.room
            rw [if_neg hroom, if_neg]
            rw [show L.freeDblocks = d :: rest' from hfree']
            simp
          · show (f.iblocks ++ [b]).length = _
            rw [List.length_append, List.length_singleton]
            omega
          · show (f.dblocks ++ [d]).length = _
            rw [List.length_append, List.length_singleton]
            omega
    · rintro m ⟨rfl, hfull⟩
      unfold Layout.room
      rw [if_neg hroom]
      exact if_pos hfull

end Setup

end Lfs
end Xinu
