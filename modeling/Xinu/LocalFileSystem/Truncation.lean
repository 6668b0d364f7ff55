import Xinu.LocalFileSystem.Transfer

/-!
# The local file system: truncation

A file is emptied: its data blocks are put on the free list one after another, and its list of
index blocks is put in front of the list of the free ones.

Main results:

- Theorem `Freeing.freeIblock`: the data blocks of an index block are freed.
- Theorem `lflcontrol_matches`: a file is emptied, and its blocks are free.
-/

namespace Xinu
namespace Lfs

open Foundations Function

variable {nlfl : Nat}

/-- The first `p` data blocks of the file have been freed since state `s`. -/
structure FreedDblocks (k sectors : Int) (f : Extent nlfl) (L : Layout nlfl) (s : Lf nlfl) (p : Nat)
    (t : Lf nlfl) : Prop where
  present : t.lfDirpresent = s.lfDirpresent
  dirty : t.lfDirdirty = s.lfDirdirty
  nfiles : t.lfDir.nfiles = s.lfDir.nfiles
  ifree : t.lfDir.ifree = s.lfDir.ifree
  entry : ∀ x, 12 ≤ x → t.lfDir x = s.lfDir x
  lfltab : t.lfltab = s.lfltab
  dblock : ∀ b, k + 1 ≤ b → b < sectors → b ∉ f.dblocks → t.disk b = s.disk b
  dfree : Chained (nextDblock t.disk) lfDnull t.lfDir.dfree
    ((f.dblocks.take p).reverse ++ L.freeDblocks)

/-- The first `j` index blocks of the file have been cleared since state `s`. -/
structure Freeing (k sectors : Int) (f : Extent nlfl) (L : Layout nlfl) (s : Lf nlfl) (j : Nat)
    (t : Lf nlfl) : Prop extends FreedDblocks k sectors f L s (16 * j) t where
  iblock : ∀ b, 0 ≤ b → b < 7 * k → b ∉ f.iblocks →
    lfibget t.disk b (fun _ => 0) = lfibget s.disk b fun _ => 0
  old : ∀ x b, j ≤ x → f.iblocks[x]? = some b →
    Describes f.iblocks f.dblocks x (lfibget t.disk b fun _ => 0)
  linked : ∀ x b, x < j → f.iblocks[x]? = some b →
    nextIblock t.disk b = f.iblocks[x + 1]?.getD s.lfDir.ifree

section Truncation

variable {k sectors : Int} {dev : Fin nlfl → Int} {s t : Lf nlfl} {a : ByteFiles nlfl}
  {L : Layout nlfl} {f f' : Extent nlfl} {i j n p pos : Nat} {fd : Fin nlfl} {b : Int}

/-! ## Data blocks -/

/-- The blocks of the file, as the layout has them. -/
structure FileBlocks (k sectors : Int) (f : Extent nlfl) (L : Layout nlfl) : Prop where
  geometry : Geometry k sectors
  iblock : ∀ b ∈ f.iblocks, 0 ≤ b ∧ b < 7 * k
  dblock : ∀ b ∈ f.dblocks, k + 1 ≤ b ∧ b < sectors
  nodup_iblocks : f.iblocks.Nodup
  nodup_dblocks : f.dblocks.Nodup
  iblock_not_free : ∀ b ∈ f.iblocks, b ∉ L.freeIblocks
  dblock_not_free : ∀ b ∈ f.dblocks, b ∉ L.freeDblocks
  free_dblock : ∀ b ∈ L.freeDblocks, k + 1 ≤ b ∧ b < sectors

theorem Laid.fileBlocks (h : Laid k sectors s L) (hgeometry : Geometry k sectors)
    (hi : L.files[i]? = some f) : FileBlocks k sectors f L where
  geometry := hgeometry
  iblock := fun _ hb => h.iblock_mem hi hb
  dblock := fun _ hb => h.dblock_mem hi hb
  nodup_iblocks := h.iblocks.nodup_owned (Layout.iblocks_getElem? hi)
  nodup_dblocks := h.dblocks.nodup_owned (Layout.dblocks_getElem? hi)
  iblock_not_free := fun _ hb => h.iblocks.not_free (Layout.iblocks_getElem? hi) hb
  dblock_not_free := fun _ hb => h.dblocks.not_free (Layout.dblocks_getElem? hi) hb
  free_dblock := by
    intro b hb
    have hmem := h.dblocks.free_mem_area hb
    rwa [Finset.mem_Ico] at hmem

theorem lfdbfree_disk : (lfdbfree b s).disk = (ramwrite (ramwrite s.disk
    (Lfdbfree.setNextdb (s.stack 0) s.lfDir.dfree) b).2 (s.lfDir.setDfree b) lfAreaDir).2 :=
  rfl

theorem lfdbfree_disk_of_ne {x : Int} (hx : x ≠ b) (hx' : x ≠ lfAreaDir) :
    (lfdbfree b s).disk x = s.disk x := by
  rw [lfdbfree_disk, ramwrite_of_ne hx', ramwrite_of_ne hx]

/-- The link of the block that was freed. -/
theorem nextDblock_lfdbfree (hb : b ≠ lfAreaDir) :
    nextDblock (lfdbfree b s).disk b = s.lfDir.dfree := by
  unfold nextDblock
  rw [lfdbfree_disk, ramwrite_of_ne hb]
  unfold Lfdbfree.nextdb
  rw [loadWord_ramwrite (by decide)]
  have hlink := Lfdbfree.nextdb_setNextdb (s.stack 0) s.lfDir.dfree
  unfold Lfdbfree.nextdb at hlink
  rw [hlink]
  exact i32_loaded _ _

/-- The data blocks lie apart from the index blocks. -/
theorem FileBlocks.iblock_lfdbfree (hblocks : FileBlocks k sectors f L) (hb : b ∈ f.dblocks)
    {x : Int} (hx : 0 ≤ x ∧ x < 7 * k) :
    lfibget (lfdbfree b s).disk x (fun _ => 0) = lfibget s.disk x fun _ => 0 := by
  have hmem := hblocks.dblock b hb
  apply lfibget_congr
  apply lfdbfree_disk_of_ne
  · exact ib2sect_ne hx hmem.1
  · rw [ib2sect_of_nonneg hx.1]
    unfold lfAreaDir
    omega

/-- One more data block is freed. -/
theorem FreedDblocks.push (h : FreedDblocks k sectors f L s p t)
    (hblocks : FileBlocks k sectors f L) (hb : f.dblocks[p]? = some b) :
    FreedDblocks k sectors f L s (p + 1) (lfdbfree b t) := by
  have hmem := List.mem_of_getElem? hb
  have hrange := hblocks.dblock b hmem
  have hindex := hblocks.geometry.index_nonneg
  have hle := hblocks.geometry.sectors_le
  have hdirsect : b ≠ lfAreaDir := by
    unfold lfAreaDir
    omega
  have hdfree : (lfdbfree b t).lfDir.dfree = b :=
    Lfdir.dfree_setDfree.trans (i32_eq (by omega) (by omega))
  refine ⟨h.present, h.dirty, ?_, ?_, ?_, h.lfltab, ?_, ?_⟩
  · exact Lfdir.nfiles_setDfree.trans h.nfiles
  · exact Lfdir.ifree_setDfree.trans h.ifree
  · intro x hx
    exact (Lfdir.setDfree_outside hx).trans (h.entry x hx)
  · intro x hlo hhi hx
    rw [lfdbfree_disk_of_ne, h.dblock x hlo hhi hx]
    · rintro rfl
      exact hx hmem
    · unfold lfAreaDir
      omega
  · rw [List.take_add_one, hb, Option.toList_some, List.reverse_append, List.reverse_singleton,
      List.append_assoc, List.singleton_append, chained_cons]
    refine ⟨hdfree, ?_, ?_⟩
    · unfold lfDnull
      omega
    · rw [nextDblock_lfdbfree hdirsect]
      apply h.dfree.congr
      intro x hx
      unfold nextDblock
      rw [lfdbfree_disk_of_ne]
      · rintro rfl
        rw [List.mem_append, List.mem_reverse] at hx
        rcases hx with htaken | hfree
        · obtain ⟨y, hy⟩ := List.mem_iff_getElem?.mp htaken
          have hylt : y < p := by
            have hlt := (List.getElem?_eq_some_iff.mp hy).1
            rw [List.length_take] at hlt
            omega
          rw [List.getElem?_take_of_lt hylt] at hy
          have hsame := (List.getElem?_inj (List.getElem?_eq_some_iff.mp hy).1
            hblocks.nodup_dblocks).mp (hy.trans hb.symm)
          omega
        · exact hblocks.dblock_not_free x hmem hfree
      · have hxrange : k + 1 ≤ x := by
          rw [List.mem_append, List.mem_reverse] at hx
          rcases hx with htaken | hfree
          · exact (hblocks.dblock x (List.mem_of_mem_take htaken)).1
          · exact (hblocks.free_dblock x hfree).1
        unfold lfAreaDir
        omega

/-- All data blocks are freed. -/
theorem FreedDblocks.of_le (h : FreedDblocks k sectors f L s p t) (hp : f.dblocks.length ≤ p)
    {q : Nat} (hq : f.dblocks.length ≤ q) : FreedDblocks k sectors f L s q t := by
  refine ⟨h.present, h.dirty, h.nfiles, h.ifree, h.entry, h.lfltab, h.dblock, ?_⟩
  rw [List.take_of_length_le hq]
  have hdfree := h.dfree
  rwa [List.take_of_length_le hp] at hdfree

/-- In the loop over an index block: `m` of its data blocks are freed. -/
structure Clearing (k sectors : Int) (f : Extent nlfl) (L : Layout nlfl) (s t : Lf nlfl)
    (j m : Nat) (r : Lfiblk × Lf nlfl) : Prop where
  freed : FreedDblocks k sectors f L s (16 * j + m) r.2
  iblock : ∀ b, 0 ≤ b ∧ b < 7 * k →
    lfibget r.2.disk b (fun _ => 0) = lfibget t.disk b fun _ => 0
  next : r.1.next = f.iblocks[j + 1]?.getD lfInull
  dba : ∀ x, m ≤ x → x < 16 → r.1.dba x = f.dblocks[16 * j + x]?.getD lfDnull

/-- One data block of an index block is freed. -/
theorem Clearing.freeDblock {r : Lfiblk × Lf nlfl} {m : Nat} (h : Clearing k sectors f L s t j m r)
    (hblocks : FileBlocks k sectors f L) (hm : m < 16) :
    Clearing k sectors f L s t j (m + 1) (freeDblock m r) := by
  have hdba := h.dba m (Nat.le_refl m) hm
  unfold Lfs.freeDblock
  dsimp only
  refine ⟨?_, ?_, ?_, ?_⟩
  · rw [← Nat.add_assoc]
    cases hb : f.dblocks[16 * j + m]? with
    | none =>
        rw [hb, Option.getD_none] at hdba
        have hlength := List.getElem?_eq_none_iff.mp hb
        rw [if_neg (fun hne => hne hdba)]
        exact h.freed.of_le hlength (by omega)
    | some b =>
        rw [hb, Option.getD_some] at hdba
        have hmem := (hblocks.dblock b (List.mem_of_getElem? hb)).1
        have hindex := hblocks.geometry.index_nonneg
        have hne : b ≠ lfDnull := by
          unfold lfDnull
          omega
        rw [hdba, if_pos hne]
        exact h.freed.push hblocks hb
  · intro x hx
    rw [← h.iblock x hx]
    split
    · next hne =>
        cases hb : f.dblocks[16 * j + m]? with
        | none =>
            rw [hb] at hdba
            exact absurd hdba hne
        | some b =>
            rw [hb, Option.getD_some] at hdba
            rw [hdba]
            exact hblocks.iblock_lfdbfree (List.mem_of_getElem? hb) hx
    · rfl
  · rw [Lfiblk.next_setDba]
    exact h.next
  · intro x hx hlt
    rw [Lfiblk.dba_setDba_of_ne (by omega)]
    exact h.dba x (by omega) hlt

/-- The loop over the data blocks of an index block. -/
theorem Freeing.clearing (h : Freeing k sectors f L s j t) (hblocks : FileBlocks k sectors f L)
    (hb : f.iblocks[j]? = some b) : Clearing k sectors f L s t j lfIblen (freeDblocks b t) := by
  have hdescribes := h.old j b (Nat.le_refl j) hb
  apply forRange_inv (I := Clearing k sectors f L s t j) (Nat.zero_le _)
  · exact ⟨h.toFreedDblocks, fun _ _ => rfl, hdescribes.next, fun x _ hx => hdescribes.dba x hx⟩
  · intro m r _ hm hr
    exact hr.freeDblock hblocks hm

/-! ## Index blocks -/

theorem Lfdir.i32_ifree (d : Lfdir) : i32 d.ifree = d.ifree :=
  i32_loaded d 4

/-- What is written to the index block number `j`. -/
theorem Clearing.next_eq {r : Lfiblk × Lf nlfl} {m : Nat} (h : Clearing k sectors f L s t j m r)
    (hblocks : FileBlocks k sectors f L) :
    (if (r.1.setOffset 0).next = lfInull then (r.1.setOffset 0).setNext s.lfDir.ifree
      else r.1.setOffset 0).next = f.iblocks[j + 1]?.getD s.lfDir.ifree := by
  rw [Lfiblk.next_setOffset, h.next]
  cases hnext : f.iblocks[j + 1]? with
  | none =>
      rw [Option.getD_none, Option.getD_none, if_pos rfl, Lfiblk.next_setNext]
      exact Lfdir.i32_ifree s.lfDir
  | some c =>
      have hmem := (hblocks.iblock c (List.mem_of_getElem? hnext)).1
      have hne : c ≠ lfInull := by
        unfold lfInull
        omega
      rw [Option.getD_some, Option.getD_some, if_neg hne, Lfiblk.next_setOffset, h.next, hnext,
        Option.getD_some]

/-- A cleared index block is written. -/
theorem Clearing.writeCleared {r : Lfiblk × Lf nlfl}
    (hloop : Clearing k sectors f L s t j lfIblen r)
    (h : Freeing k sectors f L s j t) (hblocks : FileBlocks k sectors f L)
    (hb : f.iblocks[j]? = some b) :
    (writeCleared s.lfDir.ifree b r).1 = f.iblocks[j + 1]?.getD s.lfDir.ifree ∧
      Freeing k sectors f L s (j + 1) (writeCleared s.lfDir.ifree b r).2 := by
  have hbmem := List.mem_of_getElem? hb
  have hbrange := hblocks.iblock b hbmem
  unfold Lfs.writeCleared
  dsimp only
  have hnext := hloop.next_eq hblocks
  generalize (if (r.1.setOffset 0).next = lfInull then (r.1.setOffset 0).setNext s.lfDir.ifree
    else r.1.setOffset 0) = iblock at hnext ⊢
  refine ⟨hnext, ?_⟩
  have hne : ∀ {x : Nat} {c : Int}, x ≠ j → f.iblocks[x]? = some c → c ≠ b := by
    rintro x c hx hc rfl
    exact hx ((List.getElem?_inj (List.getElem?_eq_some_iff.mp hc).1
      hblocks.nodup_iblocks).mp (hc.trans hb.symm))
  have hfreed := hloop.freed
  refine ⟨⟨hfreed.present, hfreed.dirty, hfreed.nfiles, hfreed.ifree, hfreed.entry,
    hfreed.lfltab, ?_, ?_⟩, ?_, ?_, ?_⟩
  · intro x hlo hhi hx
    have hsect : x ≠ ib2sect b := (ib2sect_ne hbrange hlo).symm
    dsimp only
    rw [lfibput_of_ne hsect]
    exact hfreed.dblock x hlo hhi hx
  · rw [Nat.mul_succ]
    apply hfreed.dfree.congr
    intro x hx
    have hlo : k + 1 ≤ x := by
      rw [List.mem_append, List.mem_reverse] at hx
      rcases hx with htaken | hfree
      · exact (hblocks.dblock x (List.mem_of_mem_take htaken)).1
      · exact (hblocks.free_dblock x hfree).1
    have hsect : x ≠ ib2sect b := (ib2sect_ne hbrange hlo).symm
    unfold nextDblock
    dsimp only
    rw [lfibput_of_ne hsect]
  · intro x hlo hhi hx
    have hxb : x ≠ b := by
      rintro rfl
      exact hx hbmem
    dsimp only
    rw [lfibget_lfibput_of_ne hlo hbrange.1 hxb, hloop.iblock x ⟨hlo, hhi⟩]
    exact h.iblock x hlo hhi hx
  · intro x c hx hc
    have hrange := hblocks.iblock c (List.mem_of_getElem? hc)
    dsimp only
    rw [lfibget_lfibput_of_ne hrange.1 hbrange.1 (hne (by omega) hc), hloop.iblock c hrange]
    exact h.old x c (by omega) hc
  · intro x c hx hc
    dsimp only
    by_cases hxj : x = j
    · subst hxj
      rw [hb] at hc
      cases hc
      have hsame : ∀ y, y < lfiblkSize →
          lfibget (lfibput r.2.disk b iblock).2 b (fun _ => 0) y = iblock y :=
        fun y hy => lfibget_lfibput hbrange.1 hy
      unfold nextIblock
      rw [(Lfiblk.congr hsame).1]
      exact hnext
    · have hrange := hblocks.iblock c (List.mem_of_getElem? hc)
      rw [nextIblock_lfibput_of_ne hrange.1 hbrange.1 (hne hxj hc)]
      unfold nextIblock
      rw [hloop.iblock c hrange]
      exact h.linked x c (by omega) hc

theorem freeIblock_eq (ifree : Int) : freeIblock ifree (b, t) =
    writeCleared ifree b (freeDblocks b t) :=
  rfl

/-- The data blocks of an index block are freed, and it is linked to the next free one. -/
theorem Freeing.freeIblock (h : Freeing k sectors f L s j t) (hblocks : FileBlocks k sectors f L)
    (hb : f.iblocks[j]? = some b) :
    (freeIblock s.lfDir.ifree (b, t)).1 = f.iblocks[j + 1]?.getD s.lfDir.ifree ∧
      Freeing k sectors f L s (j + 1) (freeIblock s.lfDir.ifree (b, t)).2 := by
  rw [freeIblock_eq]
  exact (h.clearing hblocks hb).writeCleared h hblocks hb

/-- The place of an index block in the file; behind the last one is the first free one. -/
theorem FileBlocks.idxOf_eq (hblocks : FileBlocks k sectors f L) {ifree : Int}
    (hifree : ifree ∉ f.iblocks) (hj : j ≤ f.iblocks.length) :
    f.iblocks.idxOf (f.iblocks[j]?.getD ifree) = j := by
  rcases Nat.lt_or_eq_of_le hj with hlt | rfl
  · rw [List.getElem?_eq_getElem hlt, Option.getD_some]
    exact hblocks.nodup_iblocks.idxOf_getElem j hlt
  · rw [List.getElem?_eq_none (Nat.le_refl _), Option.getD_none]
    exact List.idxOf_eq_length hifree

/-- The loop over the index blocks. -/
theorem Freeing.loop_meets (h : Freeing k sectors f L s 0 t) (hblocks : FileBlocks k sectors f L)
    (hifree : s.lfDir.ifree ∉ f.iblocks) (hn : f.iblocks.length < n) :
    (whileDo (fun r : Int × Lf nlfl => decide (r.1 ≠ s.lfDir.ifree))
      (fun r => pure (Lfs.freeIblock s.lfDir.ifree r)) n
      (f.iblocks[0]?.getD s.lfDir.ifree, t)).Meets
      (fun r => Freeing k sectors f L s f.iblocks.length r.2) fun _ => False := by
  refine (whileDo_meets (I := fun r : Int × Lf nlfl => ∃ j, j ≤ f.iblocks.length ∧
    r.1 = f.iblocks[j]?.getD s.lfDir.ifree ∧ Freeing k sectors f L s j r.2)
    (fun r => f.iblocks.length - f.iblocks.idxOf r.1) ?_ ⟨0, Nat.zero_le _, rfl, h⟩ ?_).mono ?_
    fun _ hQ => hQ
  · rintro ⟨b, u⟩ ⟨j, hj, hb, hu⟩ hcond
    dsimp only at hb hu
    have hne : b ≠ s.lfDir.ifree := of_decide_eq_true hcond
    have hlt : j < f.iblocks.length := by
      rcases Nat.lt_or_eq_of_le hj with hlt | rfl
      · exact hlt
      · rw [List.getElem?_eq_none (Nat.le_refl _), Option.getD_none] at hb
        exact absurd hb hne
    have hidx := hblocks.idxOf_eq hifree hj
    have hidx' := hblocks.idxOf_eq hifree (show j + 1 ≤ f.iblocks.length from hlt)
    have hget : f.iblocks[j]? = some b := by
      have hsome := List.getElem?_eq_getElem hlt
      rw [hsome] at hb ⊢
      exact congrArg some hb.symm
    have hturn := hu.freeIblock hblocks hget
    generalize Lfs.freeIblock s.lfDir.ifree (b, u) = r at hturn ⊢
    refine .returns ⟨⟨j + 1, hlt, hturn.1, hturn.2⟩, ?_⟩
    dsimp only
    rw [hturn.1, hidx', hb, hidx]
    omega
  · dsimp only
    omega
  · rintro ⟨b, u⟩ ⟨⟨j, hj, hb, hu⟩, hcond⟩
    have heq : b = s.lfDir.ifree := by
      by_contra hne
      rw [decide_eq_true hne] at hcond
      cases hcond
    rcases Nat.lt_or_eq_of_le hj with hlt | rfl
    · dsimp only at hb
      rw [List.getElem?_eq_getElem hlt, Option.getD_some] at hb
      rw [← heq, hb] at hifree
      exact absurd (List.getElem_mem hlt) hifree
    · exact hu

/-! ## The whole file -/

/-- The file without its bytes. -/
def Extent.emptied (f : Extent nlfl) (fd : Fin nlfl) : Extent nlfl :=
  ⟨f.name, [], [], [], some (fd, 0)⟩

/-- The state in which the loop starts: the directory has no blocks of the file. -/
structure Detached (f : Extent nlfl) (i : Nat) (fd : Fin nlfl) (s t : Lf nlfl) : Prop where
  present : t.lfDirpresent = s.lfDirpresent
  disk : t.disk = s.disk
  dir : t.lfDir = (s.lfDir.setLdIlist i lfInull).setLdSize i 0
  cblk : ∀ fd', fd' ≠ fd → t.lfltab fd' = s.lfltab fd'
  dev : (t.lfltab fd).lfdev = (s.lfltab fd).lfdev
  session : Session (f.emptied fd) i 0 (t.lfltab fd)

theorem Detached.dir_eq (h : Detached f i fd s t) {x : Nat}
    (hx : x < Lfdir.entry i ∨ Lfdir.entry i + 24 ≤ x) : t.lfDir x = s.lfDir x := by
  rw [h.dir, Lfdir.setLdSize_outside (by omega), Lfdir.setLdIlist_outside (by omega)]

theorem Detached.words (h : Detached f i fd s t) : t.lfDir.dfree = s.lfDir.dfree ∧
    t.lfDir.ifree = s.lfDir.ifree ∧ t.lfDir.nfiles = s.lfDir.nfiles :=
  Lfdir.congr fun _ hx => h.dir_eq (.inl (Nat.lt_of_lt_of_le hx (Lfdir.le_entry i)))

section Release

variable (h : Laid k sectors s L) (hi : L.files[i]? = some f)
include h hi

/-- No block is freed yet. -/
theorem Detached.freeing (hdetached : Detached f i fd s t)
    (hclean : ∀ fd' pos, f.opener = some (fd', pos) → (s.lfltab fd').lfibdirty = false) :
    Freeing k sectors f L t 0 t := by
  have hfile := h.file i f hi
  refine ⟨⟨rfl, rfl, rfl, rfl, fun _ _ => rfl, rfl, fun _ _ _ _ => rfl, ?_⟩,
    fun _ _ _ _ => rfl, ?_, fun _ _ hx => absurd hx (Nat.not_lt_zero _)⟩
  · rw [Nat.mul_zero, List.take_zero, List.reverse_nil, List.nil_append, hdetached.disk,
      hdetached.words.1]
    exact h.dfree
  · intro x b _ hb
    rw [hdetached.disk]
    rcases hfile.iblock x b hb with ⟨fd', pos, hopen, hdirty, -⟩ | hdescribes
    · rw [hclean fd' pos hopen] at hdirty
      cases hdirty
    · exact hdescribes

/-- The index blocks of the file are put in front of the free ones. -/
theorem Freeing.release {u : Lf nlfl} (hgeometry : Geometry k sectors)
    (hopen : f.opener = some (fd, pos)) (hdetached : Detached f i fd s t)
    (hfreeing : Freeing k sectors f L t f.iblocks.length u) {firstib : Int}
    (hfirstib : firstib = f.iblocks[0]?.getD s.lfDir.ifree) :
    Laid k sectors { u with lfDir := u.lfDir.setIfree firstib, lfDirdirty := true }
      (L.set i (f.emptied fd) (f.iblocks ++ L.freeIblocks)
        (f.dblocks.reverse ++ L.freeDblocks)) := by
  have hblocks := h.fileBlocks hgeometry hi
  have hfile := h.file i f hi
  have hindex := hgeometry.index_nonneg
  have hwords := hdetached.words
  have hold : ∀ fd' pos', f.opener = some (fd', pos') → fd' = fd := by
    intro fd' pos' hopen'
    rw [hopen] at hopen'
    cases hopen'
    rfl
  have hfirst : i32 firstib = firstib := by
    rw [hfirstib]
    cases hzero : f.iblocks[0]? with
    | none =>
        rw [Option.getD_none]
        exact Lfdir.i32_ifree s.lfDir
    | some b =>
        have hmem := hblocks.iblock b (List.mem_of_getElem? hzero)
        have hlt := hgeometry.index_lt
        have hle := hgeometry.sectors_le
        rw [Option.getD_some]
        exact i32_eq (by omega) (by omega)
  have hdir : ∀ x, 12 ≤ x → u.lfDir.setIfree firstib x = t.lfDir x := by
    intro x hx
    rw [Lfdir.setIfree_outside hx, hfreeing.entry x hx]
  have helse : Elsewhere k sectors s
      { u with lfDir := u.lfDir.setIfree firstib, lfDirdirty := true } i f fd := by
    refine ⟨hfreeing.present.trans hdetached.present, ?_, ?_, ?_, ?_, ?_, ?_⟩
    · exact Lfdir.nfiles_setIfree.trans (hfreeing.nfiles.trans hwords.2.2)
    · intro j hj x hlo hhi
      have hle := Lfdir.le_entry j
      dsimp only
      rw [hdir x (by omega), hdetached.dir_eq]
      rcases Lfdir.entry_disjoint hj with hbefore | hbehind
      · left
        omega
      · right
        omega
    · intro b hlo hhi hb
      dsimp only
      rw [hfreeing.iblock b hlo hhi hb, hdetached.disk]
    · intro b hlo hhi hb
      dsimp only
      rw [hfreeing.dblock b hlo hhi hb, hdetached.disk]
    · intro fd' hne
      dsimp only
      rw [hfreeing.lfltab, hdetached.cblk fd' hne]
    · dsimp only
      rw [hfreeing.lfltab, hdetached.dev]
  apply h.set hi helse
  · refine ⟨?_, hfile.short, Nat.zero_le _, ?_, ?_, ?_⟩
    · have hentry : EntryOf t.lfDir i (f.emptied fd) := by
        rw [hdetached.dir]
        have hcleared : EntryOf (s.lfDir.setLdIlist i lfInull) i { f with iblocks := [] } :=
          hfile.entry.setLdIlist rfl rfl (show i32 lfInull = lfInull by decide)
        exact hcleared.setLdSize rfl rfl rfl (by decide)
      apply hentry.congr hfile.short
      intro x hx _
      have hle := Lfdir.le_entry i
      exact hdir x (by omega)
    · exact fun j b hb => absurd (List.mem_of_getElem? hb) List.not_mem_nil
    · exact fun m b hb => absurd (List.mem_of_getElem? hb) List.not_mem_nil
    · intro fd' pos' hopen'
      cases hopen'
      rw [hfreeing.lfltab]
      exact hdetached.session
  · -- the chain of the index blocks
    have hnext : ∀ x b, f.iblocks[x]? = some b →
        nextIblock u.disk b = f.iblocks[x + 1]?.getD s.lfDir.ifree := by
      intro x b hb
      rw [hfreeing.linked x b (List.getElem?_eq_some_iff.mp hb).1 hb, hwords.2.1]
    have hfree : Chained (nextIblock u.disk) lfInull s.lfDir.ifree L.freeIblocks := by
      apply h.ifree.congr
      intro b hb
      have hmem := h.iblocks.free_mem_area hb
      rw [Finset.mem_Ico] at hmem
      unfold nextIblock
      rw [hfreeing.iblock b hmem.1 hmem.2 fun hfile => hblocks.iblock_not_free b hfile hb,
        hdetached.disk]
    have hnull : lfInull ∉ f.iblocks := by
      intro hmem
      have hrange := hblocks.iblock _ hmem
      unfold lfInull at hrange
      omega
    have hchain := hfree.append_left hnull hnext
    rw [← hfirstib] at hchain
    rw [Lfdir.ifree_setIfree, hfirst]
    exact hchain
  · rw [Lfdir.dfree_setIfree]
    have hdfree := hfreeing.dfree
    rwa [List.take_of_length_le hfile.depth] at hdfree
  · show (f.iblocks ++ L.freeIblocks ++ []).Perm _
    rw [List.append_nil]
    exact List.perm_append_comm
  · show (f.dblocks.reverse ++ L.freeDblocks ++ []).Perm _
    rw [List.append_nil]
    exact ((List.reverse_perm f.dblocks).append_right _).trans List.perm_append_comm
  · exact hold
  · intro j g pos' hji hj hopen'
    exact hji (h.opener_eq hj hi hopen' hopen)
  · exact fun _ => ⟨0, rfl⟩

end Release

section Control

variable (hgeometry : Geometry k sectors) (hn : 7 * k < n) (h : Represents k sectors dev s a L)
include hgeometry hn h

/-- An open file is emptied. -/
theorem lftruncate_matches (hfd : a.opened fd = some ⟨i, pos⟩) :
    (lftruncate n fd s).Matches (Agrees k sectors dev)
      (.returns (ok, (a.store i []).move fd ⟨i, 0⟩)) := by
  obtain ⟨hload, f, hi, hopen, hsession⟩ := h.opened hfd
  have hlaid := h.laid
  rw [hload] at hlaid
  have hfile := hlaid.file i f hi
  have hsized := h.sized i f hi
  unfold lftruncate
  dsimp only
  rw [hsession.dirptr, hfile.entry.size]
  by_cases hempty : f.bytes.length = 0
  · have hbytes : f.bytes = [] := List.length_eq_zero_iff.mp hempty
    have hstart := hsession.pos_le
    obtain rfl : pos = 0 := by omega
    rw [if_pos hempty, ← hbytes, h.shown.store_self hi, ByteFiles.move_self hfd]
    exact .returns ⟨rfl, L, h⟩
  rw [if_neg hempty]
  obtain ⟨s₁, hs₁⟩ : ∃ s₁, (if (s.lfltab fd).lfibdirty || (s.lfltab fd).lfdbdirty then
      (lfflush fd s).2 else s) = s₁ := ⟨_, rfl⟩
  obtain ⟨⟨hlaid₁, hkept⟩, hcblk⟩ := hlaid.flushChanged hi hopen hgeometry.index_nonneg hs₁
  have hblocks := hlaid₁.fileBlocks hgeometry hi
  rw [hs₁, Lf.setCblk_lfDir]
  obtain ⟨t, ht⟩ : ∃ t : Lf nlfl, ({ s₁.setCblk fd fun c =>
      { c with lfpos := 0, lfinum := lfInull, lfdnum := lfDnull, lfbyte := lfBlksiz } with
      lfDir := (s₁.lfDir.setLdIlist i lfInull).setLdSize i 0
      lfDirdirty := true }) = t := ⟨_, rfl⟩
  have hdetached : Detached f i fd s₁ t := by
    rw [← ht]
    refine ⟨rfl, rfl, rfl, ?_, ?_, ?_⟩
    · intro fd' hne
      dsimp only
      rw [Lf.setCblk_of_ne hne]
    · dsimp only
      rw [Lf.setCblk_self]
    · dsimp only
      rw [Lf.setCblk_self, hcblk]
      exact ⟨hsession.used, hsession.dirptr, hsession.name, rfl, Nat.le_refl 0, .inl ⟨rfl, rfl⟩,
        .inl ⟨rfl, rfl⟩, .inl rfl⟩
  have hfreeing := hdetached.freeing hlaid₁ hi fun fd' pos' hopen' => by
    cases hopen.symm.trans hopen'
    rw [hcblk]
  -- the file has an index block
  have hfirst : 0 < f.iblocks.length := by
    rw [hsized.iblocks]
    omega
  have hifree : s₁.lfDir.ifree ∉ f.iblocks := by
    intro hmem
    rw [hlaid₁.ifree.head_eq] at hmem
    cases hfree : L.freeIblocks with
    | nil =>
        rw [hfree] at hmem
        have hrange := hblocks.iblock _ hmem
        rw [List.headD_nil] at hrange
        unfold lfInull at hrange
        omega
    | cons b rest =>
        rw [hfree, List.headD_cons] at hmem
        apply hblocks.iblock_not_free b hmem
        rw [hfree]
        exact List.mem_cons_self
  have hfirstib : s₁.lfDir.ldIlist i = f.iblocks[0]?.getD s₁.lfDir.ifree := by
    rw [(hlaid₁.file i f hi).entry.ilist]
    obtain ⟨b, rest, hcons⟩ := List.exists_cons_of_length_pos hfirst
    rw [hcons]
    rfl
  have hcard := hlaid₁.iblocks.owned_length_le (Layout.iblocks_getElem? hi)
  rw [Int.card_Ico] at hcard
  have hloop := hfreeing.loop_meets hblocks (hdetached.words.2.1.symm ▸ hifree)
    (show f.iblocks.length < n by omega)
  rw [hdetached.words.2.1, ← hfirstib] at hloop
  rw [ht]
  apply hloop.bind_matches
  · rintro ⟨nextib, u⟩ hu
    have hrelease := Freeing.release hlaid₁ hi hgeometry hopen hdetached hu hfirstib
    have hsized' : Sized (f.emptied fd) :=
      ⟨show 0 = (0 + 8191) / 8192 by decide, show 0 = (0 + 511) / 512 by decide⟩
    refine .returns ⟨rfl, _, h.step hi hopen hrelease rfl rfl hsized' ?_⟩
    intro hclean
    cases hclean
  · exact fun m hfalse => hfalse.elim

/-- `lflcontrol` -/
theorem lflcontrol_matches (func : Int) : (lflcontrol n fd func s).Matches (Agrees k sectors dev)
    (.returns (a.control fd func)) := by
  unfold lflcontrol ByteFiles.control
  cases hfd : a.opened fd with
  | none =>
      rw [if_pos (h.closed hfd)]
      exact .returns ⟨rfl, L, h⟩
  | some x =>
      obtain ⟨i, pos⟩ := x
      obtain ⟨-, f, -, -, hsession⟩ := h.opened hfd
      dsimp only
      rw [if_neg (fun hne => hne hsession.used)]
      by_cases hfunc : func = lfCtlTrunc
      · rw [if_pos hfunc, if_pos hfunc]
        exact lftruncate_matches hgeometry hn h hfd
      · rw [if_neg hfunc, if_neg hfunc]
        exact .returns ⟨rfl, L, h⟩

end Control

end Truncation

end Lfs
end Xinu
