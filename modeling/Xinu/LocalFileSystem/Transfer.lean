import Xinu.LocalFileSystem.Refinement

/-!
# The local file system: reading and writing

The calls that move bytes do to the blocks what they mean for the bytes.  A write stops the
system if no block is left for its byte, never before.

Main results:

- Theorem `lflputc_matches`: a byte is written, or the disk is full.
- Theorem `lflgetc_matches`: a byte is read.
- Theorems `lflread_matches` and `lflwrite_matches`: the calls that move several bytes.
-/

namespace Xinu
namespace Lfs

open Foundations Function

variable {nlfl : Nat}

/-- A call returns what it means, and keeps the representation. -/
def Agrees (k sectors : Int) (dev : Fin nlfl → Int) (r : Int × Lf nlfl)
    (r' : Int × ByteFiles nlfl) : Prop :=
  r.1 = r'.1 ∧ ∃ L, Represents k sectors dev r.2 r'.2 L

section Transfer

variable {k sectors : Int} {dev : Fin nlfl → Int} {s s' : Lf nlfl} {a : ByteFiles nlfl}
  {L L' : Layout nlfl} {f f' : Extent nlfl} {i n pos pos' byte : Nat} {fd : Fin nlfl} {ch : UInt8}

theorem Lf.setCblk_congr {g g' : Lflcblk → Lflcblk}
    (h : g (s.lfltab fd) = g' (s.lfltab fd)) : s.setCblk fd g = s.setCblk fd g' := by
  unfold setCblk
  rw [h]

theorem ByteFiles.move_self (h : a.opened fd = some ⟨i, pos⟩) : a.move fd ⟨i, pos⟩ = a := by
  unfold move
  rw [← h, update_eq_self]

@[simp]
theorem ByteFiles.bytes_move {x : Handle} : (a.move fd x).bytes = a.bytes :=
  rfl

@[simp]
theorem ByteFiles.opened_move {x : Handle} : (a.move fd x).opened fd = some x :=
  update_self _ _ _

@[simp]
theorem ByteFiles.move_move {x y : Handle} : (a.move fd x).move fd y = a.move fd y := by
  unfold move
  dsimp only
  rw [update_idem]

/-! ## Positions -/

/-- An open file gets another position. -/
theorem Laid.moveTo (h : Laid k sectors s L) (hi : L.files[i]? = some f)
    (hopen : f.opener = some (fd, pos)) (hpos : pos' ≤ f.bytes.length)
    (hbyte : byte = lfBlksiz ∨
      f.dblocks[pos' / 512]? = some (s.lfltab fd).lfdnum ∧ byte = pos' % 512) :
    Laid k sectors (s.setCblk fd fun c => { c with lfpos := pos', lfbyte := byte })
      (L.set i { f with opener := some (fd, pos') } L.freeIblocks L.freeDblocks) := by
  have hfile := h.file i f hi
  have hsession := hfile.session fd pos hopen
  have hopen' : ({ f with opener := some (fd, pos') } : Extent nlfl).opener = some (fd, pos') := rfl
  refine h.setCblk hi hopen ⟨?_, hfile.short, hfile.depth, ?_, ?_, ?_⟩ rfl rfl ?_ rfl
  · exact ⟨hfile.entry.name, hfile.entry.size, hfile.entry.ilist⟩
  · intro j b hb
    rw [newerIblock_iff hopen', Lf.setCblk_self]
    rw [← newerIblock_iff (s := s) hopen]
    exact hfile.iblock j b hb
  · intro m b hb
    rw [newerDblock_iff hopen', Lf.setCblk_self]
    rw [← newerDblock_iff (s := s) hopen]
    exact hfile.dblock m b hb
  · intro fd' p hp
    cases hopen'.symm.trans hp
    rw [Lf.setCblk_self]
    exact ⟨hsession.used, hsession.dirptr, hsession.name, rfl, hpos, hsession.iblock,
      hsession.dblock, hbyte⟩
  · exact fun _ => ⟨pos', rfl⟩

/-- An open file gets another position, and nothing else changes. -/
theorem Represents.moveTo (h : Represents k sectors dev s a L) (hi : L.files[i]? = some f)
    (hopen : f.opener = some (fd, pos)) (hpresent : s.load = s) (hpos : pos' ≤ f.bytes.length)
    (hbyte : byte = lfBlksiz ∨
      f.dblocks[pos' / 512]? = some (s.lfltab fd).lfdnum ∧ byte = pos' % 512) :
    Represents k sectors dev (s.setCblk fd fun c => { c with lfpos := pos', lfbyte := byte })
      (a.move fd ⟨i, pos'⟩)
      (L.set i { f with opener := some (fd, pos') } L.freeIblocks L.freeDblocks) := by
  have hlaid := h.laid
  have hsaved := h.saved
  rw [hpresent] at hlaid hsaved
  have hsized := h.sized i f hi
  have hstep := h.step hi hopen (hlaid.moveTo hi hopen hpos hbyte) rfl rfl
    ⟨hsized.iblocks, hsized.dblocks⟩ fun hclean => by
      obtain ⟨m, hm⟩ := hsaved hclean
      refine ⟨m, ?_⟩
      apply hm.set hi <;> rfl
  rwa [h.shown.store_self hi] at hstep

/-- `lflseek` -/
theorem lflseek_agrees (h : Represents k sectors dev s a L) (offset : Nat) :
    Agrees k sectors dev (lflseek fd offset s) (a.seek fd offset) := by
  unfold lflseek ByteFiles.seek
  dsimp only
  cases hfd : a.opened fd with
  | none =>
      rw [if_pos (h.closed hfd)]
      exact ⟨rfl, L, h⟩
  | some x =>
      obtain ⟨i, pos⟩ := x
      obtain ⟨hload, f, hi, hopen, hsession⟩ := h.opened hfd
      have hsize := (h.laid.file i f hi).entry.size
      rw [hload] at hsize
      dsimp only
      rw [if_neg (fun hne => hne hsession.used), hsession.dirptr, hsize, h.shown.bytes_eq hi]
      by_cases hoffset : offset > f.bytes.length
      · rw [if_pos hoffset, if_pos hoffset]
        exact ⟨rfl, L, h⟩
      · rw [if_neg hoffset, if_neg hoffset]
        exact ⟨rfl, _, h.moveTo hi hopen hload (by omega) (.inl rfl)⟩

/-! ## One byte -/

/-- The blocks for the position are in memory before a byte is moved. -/
theorem ready_meets (hgeometry : Geometry k sectors) (h : Laid k sectors s L)
    (hi : L.files[i]? = some f) (hopen : f.opener = some (fd, pos)) (hsized : Sized f)
    (hn : 7 * k < n) :
    (if (s.lfltab fd).lfbyte ≥ lfBlksiz then lfsetup n fd s else pure s).Meets
      (fun u => L.room f pos = .returns () ∧
        ∃ f' L', Settled k sectors i fd pos f f' L L' s u)
      fun m => L.room f pos = .panics m := by
  have hfile := h.file i f hi
  have hsession := hfile.session fd pos hopen
  rcases hsession.byte with hbyte | ⟨hdnum, hbyte⟩
  · rw [if_pos (by omega)]
    exact lfsetup_meets hgeometry h hi hopen hsized hbyte hn
  · have hlt := (List.getElem?_eq_some_iff.mp hdnum).1
    have hdepth := hfile.depth
    have hsize : lfBlksiz = 512 := rfl
    rw [if_neg (by omega)]
    refine .returns ⟨?_, f, L, ⟨⟨h, hi, hopen, hdnum⟩, rfl, rfl, ?_, ?_, ?_, hbyte, ?_⟩⟩
    · unfold Layout.room
      rw [if_neg (by omega), if_neg (by omega)]
    · omega
    · omega
    · exact ⟨_, _, (Layout.set_self hi).symm⟩
    · exact .inr ⟨rfl, rfl, .refl s⟩

/-- The byte behind a byte of a data block. -/
theorem AtDblock.next (h : AtDblock k sectors i fd pos f L s)
    (hbyte : (s.lfltab fd).lfbyte = pos % 512) :
    (s.lfltab fd).lfbyte + 1 = lfBlksiz ∨
      f.dblocks[(pos + 1) / 512]? = some (s.lfltab fd).lfdnum ∧
        (s.lfltab fd).lfbyte + 1 = (pos + 1) % 512 := by
  have hsize : lfBlksiz = 512 := rfl
  by_cases hlast : pos % 512 = 511
  · left
    omega
  · right
    rw [show (pos + 1) / 512 = pos / 512 by omega]
    exact ⟨h.dblock, by omega⟩

/-- The data block in memory. -/
theorem AtDblock.stores (h : AtDblock k sectors i fd pos f L s) :
    Stores f.bytes (pos / 512) (s.lfltab fd).lfdblock := by
  have hsession := (h.laid.file i f h.getElem?).session fd pos h.opener
  rcases hsession.dblock with hnone | ⟨m, hm, hstores⟩
  · have hmem := h.laid.dblock_mem h.getElem? (List.mem_of_getElem? h.dblock)
    rw [hnone.1] at hmem
    have hpos := (List.getElem?_eq_some_iff.mp h.dblock).1
    have hdepth := (h.laid.file i f h.getElem?).depth
    have hcard := h.laid.iblocks.owned_length_le (Layout.iblocks_getElem? h.getElem?)
    rw [Int.card_Ico] at hcard
    unfold lfDnull at hmem
    omega
  · rwa [h.laid.dblock_eq h.getElem? h.dblock hm]

/-- There are fewer than 4 GiB. -/
theorem AtDblock.pos_lt (h : AtDblock k sectors i fd pos f L s) (hgeometry : Geometry k sectors) :
    pos + 1 < 0x100000000 := by
  have hlt := (List.getElem?_eq_some_iff.mp h.dblock).1
  have hcard := h.laid.dblocks.owned_length_le (Layout.dblocks_getElem? h.getElem?)
  have hindex := hgeometry.index_nonneg
  have hle := hgeometry.sectors_le
  rw [Int.card_Ico] at hcard
  omega

/-- A byte is stored in the data block; `dir` is the directory with the size of the file. -/
theorem AtDblock.putByte (h : AtDblock k sectors i fd pos f L s) (hgeometry : Geometry k sectors)
    (hbyte : (s.lfltab fd).lfbyte = pos % 512) {dir : Lfdir} (dirty : Bool)
    (hentry : EntryOf dir i { f with bytes := putAt f.bytes pos ch })
    (hdir : ∀ x, x < Lfdir.entry i ∨ Lfdir.entry i + 24 ≤ x → dir x = s.lfDir x) :
    Laid k sectors
      (({ s with lfDir := dir, lfDirdirty := dirty }).setCblk fd fun c =>
        { c with
          lfdblock := update c.lfdblock c.lfbyte ch
          lfbyte := c.lfbyte + 1
          lfpos := (c.lfpos + 1) % 0x100000000
          lfdbdirty := true })
      (L.set i { f with bytes := putAt f.bytes pos ch, opener := some (fd, pos + 1) }
        L.freeIblocks L.freeDblocks) := by
  obtain ⟨t, ht⟩ : ∃ t, (({ s with lfDir := dir, lfDirdirty := dirty }).setCblk fd fun c =>
        { c with
          lfdblock := update c.lfdblock c.lfbyte ch
          lfbyte := c.lfbyte + 1
          lfpos := (c.lfpos + 1) % 0x100000000
          lfdbdirty := true }) = t := ⟨_, rfl⟩
  obtain ⟨g, hg⟩ : ∃ g : Extent nlfl,
    ({ f with bytes := putAt f.bytes pos ch, opener := some (fd, pos + 1) } : Extent nlfl) = g :=
    ⟨_, rfl⟩
  have hlaid := h.laid
  have hfile := hlaid.file i f h.getElem?
  have hsession := hfile.session fd pos h.opener
  have hpos := hsession.pos_le
  have hlt := h.pos_lt hgeometry
  have hgopen : g.opener = some (fd, pos + 1) := by rw [← hg]
  have hgiblocks : g.iblocks = f.iblocks := by rw [← hg]
  have hgdblocks : g.dblocks = f.dblocks := by rw [← hg]
  have hgbytes : g.bytes = putAt f.bytes pos ch := by rw [← hg]
  have hlength : g.bytes.length = max f.bytes.length (pos + 1) := by
    rw [hgbytes]
    exact length_putAt hpos
  have hdisk : t.disk = s.disk := by rw [← ht]; rfl
  have htdir : t.lfDir = dir := by rw [← ht]; rfl
  have hcblk : t.lfltab fd = { s.lfltab fd with
      lfdblock := update (s.lfltab fd).lfdblock (s.lfltab fd).lfbyte ch
      lfbyte := (s.lfltab fd).lfbyte + 1
      lfpos := ((s.lfltab fd).lfpos + 1) % 0x100000000
      lfdbdirty := true } := by
    rw [← ht, Lf.setCblk_self]
  have hothers : ∀ fd', fd' ≠ fd → t.lfltab fd' = s.lfltab fd' := by
    intro fd' hne
    rw [← ht]
    exact Lf.setCblk_of_ne hne
  have hpresent : t.lfDirpresent = s.lfDirpresent := by rw [← ht]; rfl
  rw [ht, hg]
  clear ht
  obtain ⟨hdfree, hifree, hnfiles⟩ := Lfdir.congr fun x hx =>
    hdir x (.inl (Nat.lt_of_lt_of_le hx (Lfdir.le_entry i)))
  -- the byte lies in the block that is in memory
  have hstores : Stores g.bytes (pos / 512) (t.lfltab fd).lfdblock := by
    intro x hx b hb
    rw [hgbytes, getElem?_putAt hpos] at hb
    rw [hcblk]
    dsimp only
    rw [hbyte]
    by_cases hxp : x = pos % 512
    · rw [if_pos (by omega)] at hb
      cases hb
      rw [hxp, update_self]
    · rw [if_neg (by omega)] at hb
      rw [update_of_ne hxp]
      exact h.stores x hx b hb
  have hlaidfile : FileLaid t i g := by
    refine ⟨?_, ?_, ?_, ?_, ?_, ?_⟩
    · rw [htdir, ← hg]
      exact ⟨hentry.name, hentry.size, hentry.ilist⟩
    · rw [← hg]
      exact hfile.short
    · rw [hgiblocks, hgdblocks]
      exact hfile.depth
    · intro j b hb
      rw [newerIblock_iff hgopen, hcblk, hdisk, hgiblocks, hgdblocks]
      rw [hgiblocks] at hb
      have hold := hfile.iblock j b hb
      rwa [newerIblock_iff h.opener] at hold
    · intro m b hb
      rw [newerDblock_iff hgopen, hcblk, hdisk]
      rw [hgdblocks] at hb
      by_cases hm : m = pos / 512
      · left
        rw [hm, h.dblock] at hb
        cases hb
        exact ⟨rfl, rfl⟩
      · have hold := hfile.dblock m b hb
        rw [newerDblock_iff h.opener] at hold
        rcases hold with hnewer | hold
        · exact .inl ⟨rfl, hnewer.2⟩
        · right
          intro x hx y hy
          rw [hgbytes, getElem?_putAt hpos, if_neg (by omega)] at hy
          exact hold x hx y hy
    · intro fd' p hp
      rw [hgopen] at hp
      cases hp
      constructor
      · rw [hcblk]
        exact hsession.used
      · rw [hcblk]
        exact hsession.dirptr
      · rw [hcblk, ← hg]
        exact hsession.name
      · rw [hcblk]
        dsimp only
        rw [hsession.pos_eq, Nat.mod_eq_of_lt hlt]
      · omega
      · rw [hcblk, hgiblocks, hgdblocks]
        exact hsession.iblock
      · right
        refine ⟨pos / 512, ?_, hstores⟩
        rw [hcblk, hgdblocks]
        exact h.dblock
      · rw [hcblk, hgdblocks]
        exact h.next hbyte
  apply hlaid.keep h.getElem? h.opener _ hlaidfile _ _ hgiblocks hgdblocks
  · exact fun _ => ⟨pos + 1, hgopen⟩
  · refine ⟨hpresent, ?_, ?_, ?_, ?_, hothers, ?_⟩
    · rw [htdir, hnfiles]
    · intro j hj x hlo hhi
      rw [htdir]
      apply hdir
      rcases Lfdir.entry_disjoint hj with hbefore | hbehind
      · left
        omega
      · right
        omega
    · intro b _ _ _
      rw [hdisk]
    · intro b _ _ _
      rw [hdisk]
    · rw [hcblk]
  · rw [htdir, hifree]
  · rw [htdir, hdfree]

/-- The blocks for a byte of the file are set up. -/
theorem Represents.settle (h : Represents k sectors dev s a L) (hi : L.files[i]? = some f)
    (hopen : f.opener = some (fd, pos)) (hpresent : s.load = s) (hlt : pos < f.bytes.length)
    (hsettled : Settled k sectors i fd pos f f' L L' s s') :
    Represents k sectors dev s' a L' := by
  obtain ⟨freeI, freeD, rfl⟩ := hsettled.layout
  have hsaved := h.saved
  rw [hpresent] at hsaved
  have hsized := h.sized i f hi
  have hiblocks := hsized.iblocks
  have hdblocks := hsized.dblocks
  have hsized' : Sized f' := by
    constructor
    · rw [hsettled.iblocks, hsettled.bytes]
      omega
    · rw [hsettled.dblocks, hsettled.bytes]
      omega
  have hstep := h.step hi hopen hsettled.laid hsettled.name hsettled.opener hsized'
    (hsettled.saved hsaved)
  rw [hsettled.bytes, h.shown.store_self hi,
    ByteFiles.move_self ((h.shown.opened fd ⟨i, pos⟩).mpr ⟨f, hi, hopen⟩)] at hstep
  exact hstep

/-- A byte is stored in the block that was set up. -/
theorem Represents.putByte (hgeometry : Geometry k sectors) (h : Represents k sectors dev s a L)
    (hi : L.files[i]? = some f) (hopen : f.opener = some (fd, pos)) (hpresent : s.load = s)
    (hsettled : Settled k sectors i fd pos f f' L L' s s') {dir : Lfdir} {dirty : Bool}
    (hentry : EntryOf dir i { f' with bytes := putAt f'.bytes pos ch })
    (hdir : ∀ x, x < Lfdir.entry i ∨ Lfdir.entry i + 24 ≤ x → dir x = s'.lfDir x)
    (hdirty : dirty = true ∨ dir = s'.lfDir ∧ dirty = s'.lfDirdirty ∧ pos < f.bytes.length) :
    ∃ L'', Represents k sectors dev
      (({ s' with lfDir := dir, lfDirdirty := dirty }).setCblk fd fun c =>
        { c with
          lfdblock := update c.lfdblock c.lfbyte ch
          lfbyte := c.lfbyte + 1
          lfpos := (c.lfpos + 1) % 0x100000000
          lfdbdirty := true })
      ((a.store i (putAt f.bytes pos ch)).move fd ⟨i, pos + 1⟩) L'' := by
  have hlaid := hsettled.toAtDblock.putByte hgeometry hsettled.byte dirty hentry hdir
  obtain ⟨freeI, freeD, hL⟩ := hsettled.layout
  have hsaved := h.saved
  rw [hpresent] at hsaved
  have hsized := h.sized i f hi
  have hiblocks := hsized.iblocks
  have hdblocks := hsized.dblocks
  have hsession := (h.laid.file i f hi).session fd pos hopen
  have hlength : (putAt f'.bytes pos ch).length = max f.bytes.length (pos + 1) := by
    rw [hsettled.bytes]
    exact length_putAt hsession.pos_le
  have hsized' : Sized
      { f' with bytes := putAt f'.bytes pos ch, opener := some (fd, pos + 1) } := by
    constructor
    · show f'.iblocks.length = ((putAt f'.bytes pos ch).length + 8191) / 8192
      rw [hsettled.iblocks, hlength]
      omega
    · show f'.dblocks.length = ((putAt f'.bytes pos ch).length + 511) / 512
      rw [hsettled.dblocks, hlength]
      omega
  have hgetElem := hsettled.getElem?
  have hsaved' := hsettled.saved hsaved
  rw [hL] at hlaid hgetElem hsaved'
  rw [L.set_set f'] at hlaid
  rw [← hsettled.bytes]
  refine ⟨_, h.step hi hopen hlaid hsettled.name rfl hsized' ?_⟩
  intro hclean
  rcases hdirty with rfl | ⟨rfl, rfl, hlt⟩
  · cases hclean
  · obtain ⟨m, hm⟩ := hsaved' hclean
    refine ⟨m, ?_⟩
    rw [← L.set_set f' freeI freeD]
    apply hm.set hgetElem
    · rfl
    · rfl
    · rfl
    · show (putAt f'.bytes pos ch).length = f'.bytes.length
      rw [hlength, hsettled.bytes]
      omega
    · rfl

section Calls

variable (hgeometry : Geometry k sectors) (hn : 7 * k < n) (h : Represents k sectors dev s a L)
include hgeometry hn h

/-- A byte is read. -/
theorem lflgetc_matches (fd : Fin nlfl) :
    (lflgetc n fd s).Matches (Agrees k sectors dev) (.returns (a.getByte fd)) := by
  unfold lflgetc ByteFiles.getByte
  dsimp only
  cases hfd : a.opened fd with
  | none =>
      rw [if_pos (h.closed hfd)]
      exact .returns ⟨rfl, L, h⟩
  | some x =>
      obtain ⟨i, pos⟩ := x
      obtain ⟨hload, f, hi, hopen, hsession⟩ := h.opened hfd
      have hlaid := h.laid
      rw [hload] at hlaid
      have hsize := (hlaid.file i f hi).entry.size
      dsimp only
      rw [if_neg (fun hne => hne hsession.used), hsession.dirptr, hsession.pos_eq, hsize,
        h.shown.bytes_eq hi]
      by_cases hend : pos ≥ f.bytes.length
      · rw [if_pos hend, List.getElem?_eq_none hend]
        exact .returns ⟨rfl, L, h⟩
      · rw [if_neg hend]
        have hlt : pos < f.bytes.length := by omega
        have hbyte : f.bytes[pos]? = some f.bytes[pos] := List.getElem?_eq_getElem hlt
        rw [hbyte]
        apply (ready_meets hgeometry hlaid hi hopen (h.sized i f hi) hn).bind_matches
        · rintro u ⟨-, f', L', hsettled⟩
          have hrep := h.settle hi hopen hload hlt hsettled
          have hpos := hsettled.toAtDblock.pos_lt hgeometry
          have hpos' := ((hsettled.laid.file i f' hsettled.getElem?).session fd pos
            hsettled.opener).pos_eq
          refine .returns ⟨?_, ?_⟩
          · have hread := hsettled.stores (pos % 512) (Nat.mod_lt _ (by decide)) f.bytes[pos] (by
              rw [Nat.div_add_mod, hsettled.bytes, hbyte])
            dsimp only
            rw [hsettled.byte, hread]
          · have hle : pos + 1 ≤ f'.bytes.length := by
              rw [hsettled.bytes]
              omega
            have hmoved := hrep.moveTo hsettled.getElem? hsettled.opener
              (Lf.load_of_present hsettled.laid.present) hle (hsettled.next hsettled.byte)
            have hsame : (u.setCblk fd fun c =>
                { c with lfbyte := c.lfbyte + 1, lfpos := (c.lfpos + 1) % 0x100000000 }) =
                u.setCblk fd fun c =>
                  { c with lfpos := pos + 1, lfbyte := (u.lfltab fd).lfbyte + 1 } := by
              apply Lf.setCblk_congr
              rw [hpos', Nat.mod_eq_of_lt hpos]
            rw [← hsame] at hmoved
            exact ⟨_, hmoved⟩
        · intro m hm
          rw [h.room_eq hi (by omega), h.shown.bytes_eq hi, if_neg (by omega)] at hm
          cases hm

/-- A byte is written, or the disk is full. -/
theorem lflputc_matches (ch : UInt8) : (lflputc n fd ch s).Matches (Agrees k sectors dev)
    (a.putByte (capacity k sectors) fd ch) := by
  unfold lflputc ByteFiles.putByte
  dsimp only
  cases hfd : a.opened fd with
  | none =>
      rw [if_pos (h.closed hfd)]
      exact .returns ⟨rfl, L, h⟩
  | some x =>
      obtain ⟨i, pos⟩ := x
      obtain ⟨hload, f, hi, hopen, hsession⟩ := h.opened hfd
      have hlaid := h.laid
      rw [hload] at hlaid
      have hsize := (hlaid.file i f hi).entry.size
      have hpos := hsession.pos_le
      dsimp only
      rw [if_neg (fun hne => hne hsession.used), hsession.dirptr, hsession.pos_eq, hsize,
        if_neg (by omega), ← h.room_eq hi hpos, h.shown.bytes_eq hi]
      apply (ready_meets hgeometry hlaid hi hopen (h.sized i f hi) hn).bind_matches
      · rintro u ⟨hroom, f', L', hsettled⟩
        have hentry := (hsettled.laid.file i f' hsettled.getElem?).entry
        have hsize' : u.lfDir.ldSize i = f.bytes.length := by
          rw [hentry.size, hsettled.bytes]
        have hlt := hsettled.toAtDblock.pos_lt hgeometry
        have hlength : (putAt f'.bytes pos ch).length = max f.bytes.length (pos + 1) := by
          rw [hsettled.bytes]
          exact length_putAt hpos
        rw [hroom, hsize']
        refine .returns ⟨rfl, ?_⟩
        by_cases hend : pos ≥ f.bytes.length
        · -- the file becomes longer
          rw [if_pos hend]
          apply h.putByte hgeometry hi hopen hload hsettled _ _ (.inl rfl)
          · apply hentry.setLdSize
            · rfl
            · rfl
            · show f.bytes.length + 1 = (putAt f'.bytes pos ch).length
              omega
            · omega
          · intro x hx
            exact Lfdir.setLdSize_outside (by omega)
        · rw [if_neg hend]
          refine h.putByte hgeometry hi hopen hload hsettled ⟨hentry.name, ?_, hentry.ilist⟩
            (fun _ _ => rfl) (.inr ⟨rfl, rfl, by omega⟩)
          show u.lfDir.ldSize i = (putAt f'.bytes pos ch).length
          omega
      · intro m hm
        rw [hm]
        rfl

/-! ## Several bytes -/

theorem lflwriteLoop_matches (count : Int) (buff : List UInt8) :
    (lflwriteLoop n fd count buff s).Matches (Agrees k sectors dev)
      (ByteFiles.writeBytes (capacity k sectors) fd count buff a) := by
  induction buff generalizing s a L with
  | nil => exact .returns ⟨rfl, L, h⟩
  | cons ch buff ih =>
      unfold lflwriteLoop ByteFiles.writeBytes
      apply (lflputc_matches hgeometry hn h ch).bind
      rintro ⟨r, t⟩ ⟨r', b⟩ ⟨hr, L', h'⟩
      obtain rfl : r = r' := hr
      dsimp only
      by_cases herror : r = syserr
      · rw [if_pos herror, if_pos herror]
        exact .returns ⟨rfl, L', h'⟩
      · rw [if_neg herror, if_neg herror]
        exact ih h'

/-- The bytes of a buffer are written. -/
theorem lflwrite_matches (buff : Chars) (count : Int) :
    (lflwrite n fd buff count s).Matches (Agrees k sectors dev)
      (a.write (capacity k sectors) fd buff count) := by
  unfold lflwrite ByteFiles.write
  by_cases hcount : count < 0
  · rw [if_pos hcount, if_pos hcount]
    exact .returns ⟨rfl, L, h⟩
  · rw [if_neg hcount, if_neg hcount]
    exact lflwriteLoop_matches hgeometry hn h count _

/-- The loop reads the bytes behind the position, as far as there are any. -/
theorem lflreadLoop_matches (hfd : a.opened fd = some ⟨i, pos⟩) (left : Nat)
    (buff : List UInt8) : (lflreadLoop n fd left buff s).Matches
      (fun r r' => r.1 = r'.1 ∧ r.2.1 = r'.2.1 ∧ ∃ L, Represents k sectors dev r.2.2 r'.2.2 L)
      (.returns (
        if 0 < left ∧ buff ++ ((a.bytes i).drop pos).take left = [] then eof
        else (buff ++ ((a.bytes i).drop pos).take left).length,
        buff ++ ((a.bytes i).drop pos).take left,
        a.move fd ⟨i, pos + (((a.bytes i).drop pos).take left).length⟩)) := by
  induction left generalizing s a L pos buff with
  | zero =>
      rw [List.take_zero, List.append_nil, if_neg (by omega), List.length_nil,
        ByteFiles.move_self (by exact hfd)]
      exact .returns ⟨rfl, rfl, L, h⟩
  | succ left ih =>
      obtain ⟨⟨r, t⟩, hr, hans, L', h'⟩ := (lflgetc_matches hgeometry hn h fd).returns_eq
      have heof : ¬ eof = syserr := by decide
      unfold lflreadLoop
      rw [hr, Ending.returns_bind]
      unfold ByteFiles.getByte at hans h'
      rw [hfd] at hans h'
      dsimp only at hans h' ⊢
      cases hbyte : (a.bytes i)[pos]? with
      | none =>
          rw [hbyte] at hans h'
          have hnone : (a.bytes i).drop pos = [] := List.drop_eq_nil_iff.mpr
            (List.getElem?_eq_none_iff.mp hbyte)
          rw [hans, if_neg heof, if_pos rfl, hnone, List.take_nil, List.append_nil,
            List.length_nil, ByteFiles.move_self (by exact hfd)]
          by_cases hbuff : buff = []
          · rw [if_pos (by rw [hbuff]; rfl), if_pos ⟨by omega, hbuff⟩]
            exact .returns ⟨rfl, rfl, L', h'⟩
          · rw [if_neg (fun hlen => hbuff (List.length_eq_zero_iff.mp hlen)),
              if_neg (fun hempty => hbuff hempty.2)]
            exact .returns ⟨rfl, rfl, L', h'⟩
      | some b =>
          rw [hbyte] at hans h'
          dsimp only at hans h'
          have hdrop : (a.bytes i).drop pos = b :: (a.bytes i).drop (pos + 1) := by
            obtain ⟨hlt, rfl⟩ := List.getElem?_eq_some_iff.mp hbyte
            exact List.drop_eq_getElem_cons hlt
          have hchar : UInt8.ofNat r.toNat = b := by
            rw [hans, Int.toNat_natCast, UInt8.ofNat_toNat]
          have hnonneg : 0 ≤ r := by
            rw [hans]
            exact Int.natCast_nonneg _
          have hrest := ih h' ByteFiles.opened_move (buff ++ [b])
          rw [ByteFiles.bytes_move, ByteFiles.move_move, List.append_assoc, List.singleton_append,
            if_neg (by simp)] at hrest
          rw [if_neg (show r ≠ syserr by unfold syserr; omega),
            if_neg (show r ≠ eof by unfold eof; omega), hchar, hdrop, List.take_succ_cons,
            if_neg (by simp), List.length_cons, ← Nat.add_assoc, Nat.add_right_comm]
          exact hrest

/-- Bytes are read into a buffer. -/
theorem lflread_matches (count : Int) : (lflread n fd count s).Matches
    (fun r r' => r.1 = r'.1 ∧ r.2.1 = r'.2.1 ∧ ∃ L, Represents k sectors dev r.2.2 r'.2.2 L)
    (.returns (a.read fd count)) := by
  unfold lflread ByteFiles.read
  by_cases hneg : count < 0
  · rw [if_pos hneg, if_pos hneg]
    exact .returns ⟨rfl, rfl, L, h⟩
  rw [if_neg hneg, if_neg hneg]
  by_cases hzero : count = 0
  · rw [if_pos hzero, hzero]
    exact .returns ⟨rfl, rfl, L, h⟩
  rw [if_neg hzero]
  obtain ⟨left, hleft⟩ : ∃ left, count.toNat = left + 1 := ⟨count.toNat - 1, by omega⟩
  cases hfd : a.opened fd with
  | none =>
      obtain ⟨⟨r, t⟩, hr, hans, L', h'⟩ := (lflgetc_matches hgeometry hn h fd).returns_eq
      unfold ByteFiles.getByte at hans h'
      rw [hfd] at hans h'
      rw [hleft]
      unfold lflreadLoop
      rw [hr, Ending.returns_bind]
      dsimp only at hans ⊢
      rw [if_pos hans]
      exact .returns ⟨rfl, rfl, L', h'⟩
  | some x =>
      obtain ⟨i, pos⟩ := x
      have hloop := lflreadLoop_matches hgeometry hn h hfd count.toNat []
      rw [List.nil_append] at hloop
      dsimp only
      by_cases hfound : ((a.bytes i).drop pos).take count.toNat = []
      · rw [if_pos ⟨by omega, hfound⟩, hfound, List.length_nil,
          ByteFiles.move_self (by exact hfd)] at hloop
        rw [if_pos hfound]
        exact hloop
      · rw [if_neg (fun hempty => hfound hempty.2)] at hloop
        rw [if_neg hfound]
        exact hloop

end Calls

end Transfer

end Lfs
end Xinu
