import Xinu.Device.NameSpace

/-!
# What a name is mapped to

The table stands for a list of mappings from prefixes to replacements, and a name for the
string that it spells.  The purpose of `nammap` is to replace the first matching prefix
until a device other than the name space is selected.

Main results:

- Theorem `namrepl_eq`: `namrepl` replaces the prefix of the first mapping that matches.
- Theorem `replacePrefix_short` and `replacePrefix_full`: what it leaves in the buffer; the
  length of a name of 255 characters does not fit the variable that it is kept in.
- Theorem `nammap_agrees_iff`: the names that `nammap` maps as it should.
-/

namespace Xinu
namespace Nam

open Foundations Function

/-! ## Mappings -/

/-- A prefix is mapped to a replacement and a device. -/
structure Mapping where
  pfx : List UInt8
  replacement : List UInt8
  device : Int

def Nmentry.mapping (e : Nmentry) : Mapping where
  pfx := spelled e.nprefixStr nmPrelen
  replacement := spelled e.nreplace nmRepllen
  device := e.ndevice

def NameTab.mappings (t : NameTab) : List Mapping :=
  (List.range t.nnames).map fun i => (t.nametab i).mapping

/-- The first mapping, in table order, whose prefix matches. -/
def firstMatch (ms : List Mapping) (s : List UInt8) : Option Mapping :=
  ms.find? fun m => decide (m.pfx <+: s)

/-- The replacement followed by the rest of the old name. -/
def Mapping.replace (m : Mapping) (s : List UInt8) : List UInt8 :=
  m.replacement ++ s.drop m.pfx.length

/-- Replace the first matching prefix until a device other than `namdev` is selected, but
no more often than the limit says.  There is no result if no prefix matches or a name does
not fit a buffer. -/
def mapName (ms : List Mapping) (namdev : Int) : Nat → List UInt8 → Option (Int × List UInt8)
  | 0, _ => none
  | limit + 1, s =>
      match firstMatch ms s with
      | none => none
      | some m =>
          if (m.replace s).length + 1 > nmMaxlen then none
          else if m.device ≠ namdev then some (m.device, m.replace s)
          else mapName ms namdev limit (m.replace s)

/-- The result of `nammap` is the one that it should be: `SYSERR`, or a device and a buffer
that spells the name. -/
def Agrees (r : Int × Chars) : Option (Int × List UInt8) → Prop
  | none => r.1 = syserr
  | some (device, s) => r.1 = device ∧ Spells r.2 s ∧ s.length < nmMaxlen

/-! ## Strings of the table -/

variable {t : NameTab} {e : Nmentry} {name newname tmpname : Chars} {s p : List UInt8}
variable {namdev : Int} {n i : Nat}

theorem spells_pfx (e : Nmentry) :
    Spells e.nprefixStr e.mapping.pfx ∧ e.mapping.pfx.length < nmPrelen :=
  spells_spelled e.nprefix_null

theorem spells_replacement (e : Nmentry) :
    Spells e.nreplace e.mapping.replacement ∧ e.mapping.replacement.length < nmRepllen :=
  spells_spelled e.nreplace_null

theorem namlen_eq (h : Spells name s) (hlen : s.length < n) : namlen name n = s.length + 1 := by
  rcases namlen_cases name n with ⟨-, hall⟩ | ⟨k, -, hres, hnull, hbefore⟩
  · exact absurd h.null (hall _ hlen)
  · have hks : k = s.length := by
      rcases Nat.lt_trichotomy k s.length with hlt | heq | hgt
      · exact absurd hnull (h.ne_zero hlt)
      · exact heq
      · exact absurd h.null (hbefore _ hgt)
    rw [hres, hks]

/-- The prefix matches if and only if all its characters do. -/
theorem prefix_iff {pptr : Chars} (hp : Spells pptr p) (h : Spells name s) :
    p <+: s ↔ ∀ k < p.length, pptr k = name k := by
  constructor
  · intro hpre k hk
    have hks : k < s.length := Nat.lt_of_lt_of_le hk hpre.length_le
    rw [hp.chars k hk, h.chars k hks, hpre.getElem hk]
  · intro hsame
    have hle : p.length ≤ s.length := by
      by_contra hlt
      have hshort : s.length < p.length := Nat.lt_of_not_le hlt
      apply hp.ne_zero hshort
      rw [hsame s.length hshort]
      exact h.null
    rw [List.prefix_iff_eq_take]
    apply List.ext_getElem
    · rw [List.length_take_of_le hle]
    · intro k hk hk'
      rw [List.getElem_take, ← hp.chars k hk, hsame k hk]
      exact h.chars k (by omega)

theorem comparePrefix_eq {pptr : Chars} (hp : Spells pptr p) (h : Spells name s)
    (hturns : p.length < i + n) (hi : i ≤ p.length) (hsame : ∀ k < i, pptr k = name k) :
    comparePrefix pptr name n i = if p <+: s then some p.length else none := by
  induction n generalizing i with
  | zero => omega
  | succ n ih =>
      unfold comparePrefix
      by_cases hnull : pptr i = 0
      · have hend : i = p.length := by
          by_contra hne
          exact hp.ne_zero (by omega) hnull
        rw [if_pos hnull, if_pos ((prefix_iff hp h).mpr (hend ▸ hsame)), hend]
      · have hlt : i < p.length := by
          by_contra hge
          have hend : i = p.length := by omega
          rw [hend] at hnull
          exact hnull hp.null
        rw [if_neg hnull]
        by_cases hdiff : pptr i = name i
        · rw [if_neg (not_not_intro hdiff)]
          apply ih (by omega) hlt
          intro k hk
          rcases Nat.lt_succ_iff_lt_or_eq.mp hk with hk | rfl
          · exact hsame k hk
          · exact hdiff
        · rw [if_pos hdiff, if_neg]
          intro hpre
          exact hdiff ((prefix_iff hp h).mp hpre i hlt)

/-- The comparison of `namrepl`, for an entry of the table. -/
theorem comparePrefix_entry (e : Nmentry) (h : Spells name s) :
    comparePrefix e.nprefixStr name nmPrelen 0 =
      if e.mapping.pfx <+: s then some e.mapping.pfx.length else none := by
  have hpfx := spells_pfx e
  exact comparePrefix_eq hpfx.1 h (by omega) (Nat.zero_le _) fun k hk => absurd hk (Nat.not_lt_zero k)

/-! ## One substitution -/

theorem namreplLoop_eq (h : Spells name s) (newname : Chars) (n i : Nat) :
    namreplLoop t name newname n i =
      match (List.range' i n).find? fun k => decide ((t.nametab k).mapping.pfx <+: s) with
      | none => (syserr, newname)
      | some k => replacePrefix (t.nametab k) (t.nametab k).mapping.pfx.length name newname := by
  induction n generalizing i with
  | zero => rfl
  | succ n ih =>
      unfold namreplLoop
      rw [comparePrefix_entry _ h, List.range'_succ, List.find?_cons]
      by_cases hpre : (t.nametab i).mapping.pfx <+: s
      · simp only [hpre, decide_true, if_true]
      · simp only [hpre, decide_false, if_false]
        exact ih (i + 1)

/-- `namrepl` fails if no prefix matches, and otherwise works on an entry that stands for
the first mapping that does. -/
theorem namrepl_eq (h : Spells name s) (newname : Chars) :
    (firstMatch t.mappings s = none ∧ namrepl t name newname = (syserr, newname)) ∨
      ∃ e : Nmentry, firstMatch t.mappings s = some e.mapping ∧ e.mapping.pfx <+: s ∧
        namrepl t name newname = replacePrefix e e.mapping.pfx.length name newname := by
  have hfind : firstMatch t.mappings s = ((List.range' 0 t.nnames).find? fun k =>
      decide ((t.nametab k).mapping.pfx <+: s)).map fun k => (t.nametab k).mapping := by
    unfold firstMatch NameTab.mappings
    rw [List.find?_map, List.range_eq_range']
    rfl
  have hloop := namreplLoop_eq (t := t) h newname t.nnames 0
  cases hk : (List.range' 0 t.nnames).find? fun k =>
      decide ((t.nametab k).mapping.pfx <+: s) with
  | none =>
      rw [hk] at hfind hloop
      exact Or.inl ⟨hfind, hloop⟩
  | some k =>
      rw [hk] at hfind hloop
      have hpre := List.find?_some hk
      exact Or.inr ⟨t.nametab k, hfind, of_decide_eq_true hpre, hloop⟩

theorem namrepl_match {m : Mapping} (h : Spells name s) (hmatch : firstMatch t.mappings s = some m)
    (newname : Chars) : ∃ e : Nmentry, e.mapping = m ∧ e.mapping.pfx <+: s ∧
      namrepl t name newname = replacePrefix e e.mapping.pfx.length name newname := by
  rcases namrepl_eq h newname with ⟨hnone, -⟩ | ⟨e, hsome, hpre, hres⟩
  · rw [hmatch] at hnone
    contradiction
  · rw [hmatch] at hsome
    exact ⟨e, (Option.some.inj hsome).symm, hpre, hres⟩

/-- The length of the replacement, as it is computed. -/
theorem rlen_eq (e : Nmentry) :
    namlen e.nreplace nmMaxlen - 1 = e.mapping.replacement.length := by
  have hrep := spells_replacement e
  have hlen : e.mapping.replacement.length < nmMaxlen := Nat.lt_trans hrep.2 (by decide)
  rw [namlen_eq hrep.1 hlen]
  omega

/-- A name of fewer than 255 characters has its prefix replaced, if the result fits. -/
theorem replacePrefix_short (h : Spells name s) (hlen : s.length + 1 < nmMaxlen)
    (hpre : e.mapping.pfx <+: s) (newname : Chars) :
    (nmMaxlen < (e.mapping.replace s).length + 1 ∧
      replacePrefix e e.mapping.pfx.length name newname = (syserr, newname)) ∨
    ((e.mapping.replace s).length + 1 ≤ nmMaxlen ∧
      (replacePrefix e e.mapping.pfx.length name newname).1 = e.ndevice ∧
      Spells (replacePrefix e e.mapping.pfx.length name newname).2 (e.mapping.replace s)) := by
  have hle := hpre.length_le
  have holen : char (namlen name nmMaxlen) = s.length + 1 := by
    have hsmall : s.length + 1 < 0x100 := hlen
    rw [namlen_eq h (by omega)]
    unfold char
    omega
  have hnew : (e.mapping.replace s).length =
      e.mapping.replacement.length + (s.length - e.mapping.pfx.length) := by
    unfold Mapping.replace
    rw [List.length_append, List.length_drop]
  unfold replacePrefix
  rw [holen, rlen_eq]
  dsimp only
  by_cases hfits : (e.mapping.replace s).length + 1 ≤ nmMaxlen
  · rw [if_neg (by omega)]
    refine Or.inr ⟨hfits, rfl, ?_⟩
    have hjoin := (spells_replacement e).1.join (h.drop hle) newname
    rw [List.length_drop] at hjoin
    have hrest : ((s.length : Int) + 1 - e.mapping.pfx.length).toNat =
        s.length - e.mapping.pfx.length + 1 := by
      omega
    rw [hrest, Int.toNat_natCast]
    exact hjoin
  · rw [if_pos (by omega)]
    exact Or.inl ⟨by omega, rfl⟩

/-- The length of a name of 255 characters is stored as zero, so nothing but the replacement
is put into the buffer. -/
theorem replacePrefix_full (h : Spells name s) (hlen : s.length + 1 = nmMaxlen) :
    replacePrefix e e.mapping.pfx.length name newname =
      (e.ndevice, copyChars e.mapping.replacement.length e.nreplace 0 newname) := by
  have holen : char (namlen name nmMaxlen) = 0 := by
    have hfull : s.length + 1 = 0x100 := hlen
    rw [namlen_eq h (by omega)]
    unfold char
    omega
  have hrep : e.mapping.replacement.length < nmMaxlen :=
    Nat.lt_trans (spells_replacement e).2 (by decide)
  unfold replacePrefix
  rw [holen, rlen_eq]
  dsimp only
  rw [if_neg (by omega)]
  have hnone : (0 - (e.mapping.pfx.length : Int)).toNat = 0 := by omega
  rw [hnone, Int.toNat_natCast]
  rfl

/-! ## The mapping of a name -/

theorem namcpyLoop_copies (h : Spells name s) (tmpname : Chars) (hturns : s.length < i + n)
    (hi : i ≤ s.length) (hsame : ∀ k < i, tmpname k = name k) :
    (namcpyLoop name n i tmpname).1 = ok ∧
      ∀ k ≤ s.length, (namcpyLoop name n i tmpname).2 k = name k := by
  induction n generalizing i tmpname with
  | zero => omega
  | succ n ih =>
      have hnext : ∀ k < i + 1, update tmpname i (name i) k = name k := by
        intro k hk
        by_cases hki : k = i
        · rw [hki, update_self]
        · rw [update_of_ne hki]
          exact hsame k (by omega)
      unfold namcpyLoop
      dsimp only
      by_cases hnull : name i = 0
      · have hend : i = s.length := by
          by_contra hne
          exact h.ne_zero (by omega) hnull
        rw [if_pos hnull]
        exact ⟨rfl, fun k hk => hnext k (by omega)⟩
      · have hlt : i < s.length := by
          by_contra hge
          have hend : i = s.length := by omega
          rw [hend] at hnull
          exact hnull h.null
        rw [if_neg hnull]
        exact ih _ (by omega) hlt hnext

/-- A name that fits the buffer is copied. -/
theorem namcpy_copies (h : Spells name s) (hlen : s.length < nmMaxlen) (tmpname : Chars) :
    (namcpy tmpname name nmMaxlen).1 = ok ∧ Spells (namcpy tmpname name nmMaxlen).2 s := by
  have hcopy := namcpyLoop_copies h tmpname (n := nmMaxlen) (i := 0) (by omega) (Nat.zero_le _)
    fun k hk => absurd hk (Nat.not_lt_zero k)
  exact ⟨hcopy.1, h.congr hcopy.2⟩

/-- `nammap` is its loop, on a copy of the name. -/
theorem nammap_eq (t : NameTab) (namdev : Int) (h : Spells name s) (hlen : s.length < nmMaxlen)
    (newname tmpname : Chars) : ∃ copy, Spells copy s ∧
      nammap t name newname tmpname namdev = nammapLoop t copy namdev t.nnames newname := by
  have hcopy := namcpy_copies h hlen tmpname
  refine ⟨_, hcopy.2, ?_⟩
  unfold nammap
  dsimp only
  rw [if_neg]
  rw [hcopy.1]
  decide

/-- The turns of the loop all start from the same name: if the first selects the name space,
so do the others. -/
theorem nammapLoop_stays (h : ∀ newname, (namrepl t name newname).1 = namdev)
    (newname : Chars) : (nammapLoop t name namdev n newname).1 = syserr := by
  induction n generalizing newname with
  | zero => rfl
  | succ n ih =>
      unfold nammapLoop
      dsimp only
      rw [if_neg (not_not_intro (h newname))]
      exact ih _

theorem nammapLoop_leaves (h : (namrepl t name newname).1 ≠ namdev) (hn : 0 < n) :
    nammapLoop t name namdev n newname = namrepl t name newname := by
  cases n with
  | zero => omega
  | succ n =>
      unfold nammapLoop
      dsimp only
      rw [if_pos h]

/-- `nammap` can do what is asked of it: no prefix matches, or the first mapping that does
leads away from the name space and the name has fewer than 255 characters, or it leads to
the name space and the substitution has no result. -/
def MappedAtOnce (ms : List Mapping) (namdev : Int) (limit : Nat) (s : List UInt8) : Prop :=
  match firstMatch ms s with
  | none => True
  | some m =>
      if m.device = namdev then mapName ms namdev limit s = none else s.length + 1 < nmMaxlen

/-- A mapping that matches is one of the table, so the limit is not zero. -/
theorem nnames_pos {m : Mapping} (h : firstMatch t.mappings s = some m) : 0 < t.nnames := by
  have hmem := List.mem_of_find?_eq_some h
  have hlen : t.mappings.length = t.nnames := by
    unfold NameTab.mappings
    rw [List.length_map, List.length_range]
  rw [← hlen]
  exact List.length_pos_of_mem hmem

theorem device_ne_syserr (e : Nmentry) : e.ndevice ≠ syserr := by
  intro h
  apply e.ndevice_valid
  rw [h]
  exact Or.inl (by decide)

/-- A name is mapped to a valid device. -/
theorem mapName_device {d : Int} {s' : List UInt8}
    (h : mapName t.mappings namdev n s = some (d, s')) : d ≠ syserr := by
  induction n generalizing s with
  | zero => contradiction
  | succ n ih =>
      unfold mapName at h
      split at h
      · contradiction
      · next m hm =>
          split at h
          · contradiction
          · split at h
            · cases h
              obtain ⟨i, -, rfl⟩ := List.mem_map.mp (List.mem_of_find?_eq_some hm)
              exact device_ne_syserr _
            · exact ih h

/-- The outcome of the first substitution. -/
theorem mapName_first {m : Mapping} (namdev : Int) (h : firstMatch t.mappings s = some m) :
    (mapName t.mappings namdev t.nnames s = none ∧ nmMaxlen < (m.replace s).length + 1) ∨
      (m.replace s).length + 1 ≤ nmMaxlen ∧ (m.device ≠ namdev →
        mapName t.mappings namdev t.nnames s = some (m.device, m.replace s)) := by
  obtain ⟨limit, hlimit⟩ := Nat.exists_eq_succ_of_ne_zero (Nat.ne_of_gt (nnames_pos h))
  rw [hlimit]
  unfold mapName
  rw [h]
  dsimp only
  by_cases hfits : (m.replace s).length + 1 > nmMaxlen
  · rw [if_pos hfits]
    exact Or.inl ⟨rfl, hfits⟩
  · rw [if_neg hfits]
    refine Or.inr ⟨Nat.le_of_not_lt hfits, ?_⟩
    intro hdev
    rw [if_pos hdev]

/-- A name that no prefix matches is mapped to nothing. -/
theorem nammap_unmatched (hname : Spells name s) (hlen : s.length < nmMaxlen)
    (hdev : namdev ≠ syserr) (h : firstMatch t.mappings s = none) (newname tmpname : Chars) :
    Agrees (nammap t name newname tmpname namdev) (mapName t.mappings namdev t.nnames s) := by
  obtain ⟨copy, hcopy, hmap⟩ := nammap_eq t namdev hname hlen newname tmpname
  have hrepl : ∀ newname, namrepl t copy newname = (syserr, newname) := by
    intro newname
    rcases namrepl_eq hcopy newname with ⟨-, hres⟩ | ⟨e, hsome, -⟩
    · exact hres
    · rw [h] at hsome
      contradiction
  rw [hmap]
  cases hn : t.nnames with
  | zero => rfl
  | succ n =>
      have hleave : (namrepl t copy newname).1 ≠ namdev := by
        rw [hrepl]
        exact hdev.symm
      have hnone : mapName t.mappings namdev (n + 1) s = none := by
        unfold mapName
        rw [h]
      rw [nammapLoop_leaves hleave (Nat.succ_pos n), hrepl, hnone]
      rfl

section Matched

variable {m : Mapping}

/-- If the first mapping that matches leads to the name space, `nammap` fails. -/
theorem nammap_stays (hname : Spells name s) (hlen : s.length < nmMaxlen)
    (hmatch : firstMatch t.mappings s = some m) (hdev : m.device = namdev)
    (newname tmpname : Chars) : (nammap t name newname tmpname namdev).1 = syserr := by
  obtain ⟨copy, hcopy, hmap⟩ := nammap_eq t namdev hname hlen newname tmpname
  rw [hmap]
  by_cases hfits : s.length + 1 < nmMaxlen ∧ nmMaxlen < (m.replace s).length + 1
  · -- the result of the first turn does not fit, and the second turn is not reached
    have hfails : ∀ newname, namrepl t copy newname = (syserr, newname) := by
      intro newname
      obtain ⟨e, rfl, hpre, hres⟩ := namrepl_match hcopy hmatch newname
      rcases replacePrefix_short hcopy hfits.1 hpre newname with ⟨-, hbad⟩ | ⟨hle, -⟩
      · rw [hres]
        exact hbad
      · omega
    cases hn : t.nnames with
    | zero => rfl
    | succ n =>
        by_cases hns : namdev = syserr
        · apply nammapLoop_stays
          intro newname
          rw [hfails, hns]
        · have hleave : (namrepl t copy newname).1 ≠ namdev := by
            rw [hfails]
            exact fun h => hns h.symm
          rw [nammapLoop_leaves hleave (Nat.succ_pos n), hfails]
  · apply nammapLoop_stays
    intro newname
    obtain ⟨e, rfl, hpre, hres⟩ := namrepl_match hcopy hmatch newname
    rw [hres]
    by_cases hshort : s.length + 1 < nmMaxlen
    · rcases replacePrefix_short hcopy hshort hpre newname with ⟨hlong, -⟩ | ⟨-, hdevice, -⟩
      · exact absurd ⟨hshort, hlong⟩ hfits
      · exact hdevice.trans hdev
    · rw [replacePrefix_full hcopy (by omega)]
      exact hdev

/-- A name of fewer than 255 characters whose first mapping leads away. -/
theorem nammap_short (hname : Spells name s) (hlen : s.length + 1 < nmMaxlen)
    (hmatch : firstMatch t.mappings s = some m) (hdev : m.device ≠ namdev)
    (hns : namdev ≠ syserr) (newname tmpname : Chars) :
    Agrees (nammap t name newname tmpname namdev) (mapName t.mappings namdev t.nnames s) := by
  obtain ⟨copy, hcopy, hmap⟩ := nammap_eq t namdev hname (by omega) newname tmpname
  obtain ⟨e, rfl, hpre, hres⟩ := namrepl_match hcopy hmatch newname
  have hshort := replacePrefix_short hcopy hlen hpre newname
  have hleave : (namrepl t copy newname).1 ≠ namdev := by
    rw [hres]
    rcases hshort with ⟨-, hbad⟩ | ⟨-, hdevice, -⟩
    · rw [hbad]
      exact hns.symm
    · rw [hdevice]
      exact hdev
  rw [hmap, nammapLoop_leaves hleave (nnames_pos hmatch), hres]
  rcases mapName_first namdev hmatch with ⟨hnone, hlong⟩ | ⟨hfits, hsome⟩
  · rw [hnone]
    rcases hshort with ⟨-, hbad⟩ | ⟨hle, -⟩
    · rw [hbad]
      rfl
    · omega
  · rw [hsome hdev]
    rcases hshort with ⟨hlong, -⟩ | ⟨hle, hdevice, hspells⟩
    · omega
    · exact ⟨hdevice, hspells, hle⟩

/-- A name of 255 characters whose first mapping leads away. -/
theorem nammap_full (hname : Spells name s) (hlen : s.length + 1 = nmMaxlen)
    (hmatch : firstMatch t.mappings s = some m) (hdev : m.device ≠ namdev) (tmpname : Chars) :
    ¬ Agrees (nammap t name (fun _ => 0) tmpname namdev)
      (mapName t.mappings namdev t.nnames s) := by
  obtain ⟨copy, hcopy, hmap⟩ :=
    nammap_eq t namdev hname (by omega) (fun _ => 0) tmpname
  obtain ⟨e, rfl, hpre, hres⟩ := namrepl_match hcopy hmatch (fun _ => 0)
  rw [replacePrefix_full hcopy hlen] at hres
  have hleave : (namrepl t copy fun _ => 0).1 ≠ namdev := by
    rw [hres]
    exact hdev
  rw [hmap, nammapLoop_leaves hleave (nnames_pos hmatch), hres]
  rcases mapName_first namdev hmatch with ⟨hnone, -⟩ | ⟨-, hsome⟩
  · rw [hnone]
    exact device_ne_syserr e
  · rw [hsome hdev]
    rintro ⟨-, hspells, -⟩
    have hrep := spells_replacement e
    have hbuf : Spells (copyChars e.mapping.replacement.length e.nreplace 0 fun _ => 0)
        e.mapping.replacement := by
      apply hrep.1.congr
      intro i hi
      rcases Nat.lt_or_eq_of_le hi with hlt | rfl
      · have hcopied := @copyChars_inside e.nreplace (fun _ => 0) _ 0 i hlt
        rwa [Nat.zero_add] at hcopied
      · rw [copyChars_outside (Or.inr (by omega)), hrep.1.null]
    have hsame := congrArg List.length (hspells.unique hbuf)
    have hpfx := (spells_pfx e).2
    unfold Mapping.replace at hsame
    rw [List.length_append, List.length_drop] at hsame
    unfold nmMaxlen at hlen
    unfold nmPrelen at hpfx
    omega

end Matched

/-- `nammap` maps a name as it should if and only if the first substitution settles it. -/
theorem nammap_agrees_iff (t : NameTab) (name : Chars) (s : List UInt8) (namdev : Int)
    (hname : Spells name s) (hlen : s.length < nmMaxlen) (hdev : ¬ isbaddev namdev) :
    (∀ newname tmpname, Agrees (nammap t name newname tmpname namdev)
      (mapName t.mappings namdev t.nnames s)) ↔ MappedAtOnce t.mappings namdev t.nnames s := by
  have hns : namdev ≠ syserr := by
    intro h
    apply hdev
    rw [h]
    exact Or.inl (by decide)
  unfold MappedAtOnce
  cases hmatch : firstMatch t.mappings s with
  | none => exact ⟨fun _ => trivial, fun _ => nammap_unmatched hname hlen hns hmatch⟩
  | some m =>
      by_cases hstays : m.device = namdev
      · simp only [hstays, if_true]
        constructor
        · intro hagrees
          have hbad := nammap_stays hname hlen hmatch hstays name name
          cases hres : mapName t.mappings namdev t.nnames s with
          | none => rfl
          | some r =>
              have hagree := hagrees name name
              rw [hres] at hagree
              exact absurd (hagree.1.symm.trans hbad) (mapName_device hres)
        · intro hnone newname tmpname
          rw [hnone]
          exact nammap_stays hname hlen hmatch hstays newname tmpname
      · simp only [hstays, if_false]
        constructor
        · intro hagrees
          by_contra hlong
          have hfull : s.length + 1 = nmMaxlen := by omega
          exact nammap_full hname hfull hmatch hstays name (hagrees _ name)
        · intro hshort
          exact nammap_short hname hshort hmatch hstays hns

/-- The bytes of a string of ASCII characters. -/
def ascii (s : String) : List UInt8 :=
  s.toList.map fun c => UInt8.ofNat c.toNat

/-- The table of a kernel that has just started: it is zero. -/
def emptyTab : NameTab where
  nametab := fun _ =>
    { nprefixStr := fun _ => 0
      nreplace := fun _ => 0
      ndevice := 0
      nprefix_null := ⟨0, by decide, rfl⟩
      nreplace_null := ⟨0, by decide, rfl⟩
      ndevice_valid := by decide }
  nnames := 0

/-- Three of the prefixes that `naminit` mounts. -/
def bootTab : NameTab :=
  let t := (mount (chars (ascii "/dev/namespace")) (chars []) namespaceDev emptyTab).2
  let t := (mount (chars (ascii "/dev/null")) (chars []) nulldev t).2
  (mount (chars []) (chars []) lfilesys t).2

theorem nammap_agrees_iff_null :
    (∀ newname tmpname, Agrees
      (nammap bootTab (chars (ascii "/dev/null")) newname tmpname namespaceDev)
      (mapName bootTab.mappings namespaceDev 3 (ascii "/dev/null"))) ↔
      MappedAtOnce bootTab.mappings namespaceDev 3 (ascii "/dev/null") :=
  nammap_agrees_iff bootTab (chars (ascii "/dev/null")) (ascii "/dev/null") namespaceDev
    (spells_chars (by decide)) (by decide) (by decide)

/-- The name space itself is one of its devices: a name that leads to it through the table
is not mapped any further. -/
theorem unmapped_after_namespace :
    ¬ Agrees (nammap bootTab (chars (ascii "/dev/namespace/dev/null")) (fun _ => 0) (fun _ => 0)
      namespaceDev)
      (mapName bootTab.mappings namespaceDev bootTab.nnames (ascii "/dev/namespace/dev/null")) := by
  have hcode : (nammap bootTab (chars (ascii "/dev/namespace/dev/null")) (fun _ => 0)
      (fun _ => 0) namespaceDev).1 = syserr := by
    decide +kernel
  have hname : mapName bootTab.mappings namespaceDev bootTab.nnames
      (ascii "/dev/namespace/dev/null") = some (nulldev, []) := by
    decide +kernel
  rw [hname]
  intro hagrees
  have hdevice := hagrees.1.symm.trans hcode
  contradiction

end Nam
end Xinu
