import Xinu.LocalFileSystem.OpenFiles

/-!
# The local file system: files of bytes

What the local file system is for: named files, each a list of bytes, and open files with a
position.  The disk is seen only in that it may be full.

Main results:

- Theorem `getElem?_putAt`: what is read after a byte was written.
- Theorem `lfgetmode_eq`: which mode strings are accepted.
-/

namespace Xinu
namespace Lfs

open Foundations Function
open FileSystem (CString)

/-! ## Bytes -/

/-- Replace the byte at `pos`, or append one. -/
def putAt (bytes : List UInt8) (pos : Nat) (ch : UInt8) : List UInt8 :=
  bytes.take pos ++ ch :: bytes.drop (pos + 1)

section PutAt

variable {bytes : List UInt8} {pos p : Nat} {ch : UInt8}

theorem length_putAt (h : pos ≤ bytes.length) :
    (putAt bytes pos ch).length = max bytes.length (pos + 1) := by
  unfold putAt
  rw [List.length_append, List.length_take, List.length_cons, List.length_drop]
  omega

/-- What is read after a byte was written. -/
theorem getElem?_putAt (h : pos ≤ bytes.length) :
    (putAt bytes pos ch)[p]? = if p = pos then some ch else bytes[p]? := by
  have hlen : (bytes.take pos).length = pos := List.length_take_of_le h
  unfold putAt
  rcases Nat.lt_trichotomy p pos with hlt | rfl | hgt
  · rw [List.getElem?_append_left (by omega), List.getElem?_take_of_lt hlt, if_neg (by omega)]
  · rw [List.getElem?_append_right (by omega), hlen, Nat.sub_self, if_pos rfl]
    rfl
  · obtain ⟨x, rfl⟩ : ∃ x, p = pos + 1 + x := ⟨p - (pos + 1), by omega⟩
    rw [List.getElem?_append_right (by omega), hlen, if_neg (by omega),
      show pos + 1 + x - pos = x + 1 by omega, List.getElem?_cons_succ, List.getElem?_drop]

end PutAt

/-! ## Modes -/

/-- Each letter is one of four and stands once, and a file is not old and new. -/
def ModeOk (mode : List UInt8) : Prop :=
  mode.Nodup ∧ (∀ c ∈ mode, c = chR ∨ c = chW ∨ c = chO ∨ c = chN) ∧ ¬ (chO ∈ mode ∧ chN ∈ mode)

instance (mode : List UInt8) : Decidable (ModeOk mode) :=
  inferInstanceAs (Decidable (_ ∧ _ ∧ ¬ _))

/-- The bits for four letters. -/
def modeBits (r w n o : Bool) : Nat :=
  r.toNat + 2 * w.toNat + 4 * n.toNat + 8 * o.toNat

/-- The bits for the letters of a mode. -/
def bitsOf (mode : List UInt8) : Nat :=
  modeBits (chR ∈ mode) (chW ∈ mode) (chN ∈ mode) (chO ∈ mode)

section Modes

variable {r w n o : Bool} {l m : List UInt8} {c : UInt8}

theorem modeBits_and : (modeBits r w n o &&& lfModeR ≠ 0 ↔ r = true) ∧
    (modeBits r w n o &&& lfModeW ≠ 0 ↔ w = true) ∧
    (modeBits r w n o &&& lfModeN ≠ 0 ↔ n = true) ∧
    (modeBits r w n o &&& lfModeO ≠ 0 ↔ o = true) := by
  revert r w n o
  decide

theorem modeBits_or : modeBits r w n o ||| lfModeR = modeBits true w n o ∧
    modeBits r w n o ||| lfModeW = modeBits r true n o ∧
    modeBits r w n o ||| lfModeN = modeBits r w true o ∧
    modeBits r w n o ||| lfModeO = modeBits r w n true := by
  revert r w n o
  decide

theorem bitsOf_and : (bitsOf l &&& lfModeR ≠ 0 ↔ chR ∈ l) ∧ (bitsOf l &&& lfModeW ≠ 0 ↔ chW ∈ l) ∧
    (bitsOf l &&& lfModeN ≠ 0 ↔ chN ∈ l) ∧ (bitsOf l &&& lfModeO ≠ 0 ↔ chO ∈ l) := by
  unfold bitsOf
  simpa only [decide_eq_true_eq] using @modeBits_and (chR ∈ l) (chW ∈ l) (chN ∈ l) (chO ∈ l)

/-- One more letter. -/
theorem bitsOf_snoc : bitsOf l ||| lfModeR = bitsOf (l ++ [chR]) ∧
    bitsOf l ||| lfModeW = bitsOf (l ++ [chW]) ∧ bitsOf l ||| lfModeN = bitsOf (l ++ [chN]) ∧
    bitsOf l ||| lfModeO = bitsOf (l ++ [chO]) := by
  have hne : chR ≠ chW ∧ chR ≠ chN ∧ chR ≠ chO ∧ chW ≠ chN ∧ chW ≠ chO ∧ chN ≠ chO := by decide
  obtain ⟨hrw, hrn, hro, hwn, hwo, hno⟩ := hne
  unfold bitsOf
  obtain ⟨hr, hw, hn, ho⟩ := @modeBits_or (chR ∈ l) (chW ∈ l) (chN ∈ l) (chO ∈ l)
  rw [hr, hw, hn, ho]
  simp [hrw, hrn, hro, hwn, hwo, hno, hrw.symm, hrn.symm, hro.symm, hwn.symm, hwo.symm, hno.symm]

theorem modeOk_nil : ModeOk [] :=
  ⟨List.nodup_nil, fun _ hc => absurd hc List.not_mem_nil, fun h => List.not_mem_nil h.1⟩

theorem ModeOk.of_append (h : ModeOk (l ++ m)) : ModeOk l := by
  refine ⟨(List.nodup_append.mp h.1).1, fun c hc => h.2.1 c (List.mem_append_left m hc), ?_⟩
  rintro ⟨ho, hn⟩
  exact h.2.2 ⟨List.mem_append_left m ho, List.mem_append_left m hn⟩

theorem modeOk_snoc : ModeOk (l ++ [c]) ↔ ModeOk l ∧ c ∉ l ∧
    (c = chR ∨ c = chW ∨ c = chO ∨ c = chN) ∧ ¬ (c = chO ∧ chN ∈ l) ∧ ¬ (c = chN ∧ chO ∈ l) := by
  have hne : chO ≠ chN := by decide
  unfold ModeOk
  simp only [List.nodup_append, List.mem_append, List.mem_singleton]
  constructor
  · rintro ⟨⟨hnd, -, hdisj⟩, hall, hon⟩
    refine ⟨⟨hnd, fun x hx => hall x (.inl hx), fun h => hon ⟨.inl h.1, .inl h.2⟩⟩,
      fun hc => hdisj c hc c rfl rfl, hall c (.inr rfl), ?_, ?_⟩
    · exact fun h => hon ⟨.inr h.1.symm, .inl h.2⟩
    · exact fun h => hon ⟨.inl h.2, .inr h.1.symm⟩
  · rintro ⟨⟨hnd, hall, hon⟩, hc, hletter, ho, hn⟩
    refine ⟨⟨hnd, List.pairwise_singleton _ c, ?_⟩, ?_, ?_⟩
    · rintro a ha b rfl rfl
      exact hc ha
    · rintro x (hx | rfl)
      · exact hall x hx
      · exact hletter
    · rintro ⟨ho' | ho', hn' | hn'⟩
      · exact hon ⟨ho', hn'⟩
      · exact hn ⟨hn'.symm, ho'⟩
      · exact ho ⟨ho'.symm, hn'⟩
      · exact hne (ho'.trans hn'.symm)

/-- The loop accepts the rest of a mode if the whole is a mode. -/
theorem lfgetmodeLoop_eq (h : ModeOk l) (m : List UInt8) :
    lfgetmodeLoop m (bitsOf l) = if ModeOk (l ++ m) then some (bitsOf (l ++ m)) else none := by
  induction m generalizing l with
  | nil =>
      rw [List.append_nil, if_pos h]
      rfl
  | cons c m ih =>
      obtain ⟨hr, hw, hn, ho⟩ := @bitsOf_and l
      obtain ⟨hr', hw', hn', ho'⟩ := @bitsOf_snoc l
      have hsplit : l ++ c :: m = l ++ [c] ++ m := by
        rw [List.append_assoc]
        rfl
      have hturn : ∀ (p : Prop) [Decidable p], (p ↔ ¬ ModeOk (l ++ [c])) →
          (if p then none else lfgetmodeLoop m (bitsOf (l ++ [c]))) =
            if ModeOk (l ++ c :: m) then some (bitsOf (l ++ c :: m)) else none := by
        intro p _ hp
        rw [hsplit]
        by_cases hc : ModeOk (l ++ [c])
        · rw [if_neg (fun h => hp.mp h hc)]
          exact ih hc
        · rw [if_pos (hp.mpr hc), if_neg (fun hall => hc hall.of_append)]
      have hne : chR ≠ chO ∧ chR ≠ chN ∧ chW ≠ chO ∧ chW ≠ chN ∧ chO ≠ chN ∧ chN ≠ chO := by decide
      obtain ⟨hro, hrn, hwo, hwn, hon, hno⟩ := hne
      unfold lfgetmodeLoop
      by_cases hcr : c = chR
      · subst hcr
        rw [if_pos rfl, hr']
        apply hturn
        rw [hr, modeOk_snoc]
        simp [h, hro, hrn]
      rw [if_neg hcr]
      by_cases hcw : c = chW
      · subst hcw
        rw [if_pos rfl, hw']
        apply hturn
        rw [hw, modeOk_snoc]
        simp [h, hwo, hwn]
      rw [if_neg hcw]
      by_cases hco : c = chO
      · subst hco
        rw [if_pos rfl, ho']
        apply hturn
        rw [ho, hn, modeOk_snoc]
        simp [h, hon, or_iff_not_imp_left]
      rw [if_neg hco]
      by_cases hcn : c = chN
      · subst hcn
        rw [if_pos rfl, hn']
        apply hturn
        rw [ho, hn, modeOk_snoc]
        by_cases hlo : chO ∈ l
        · simp [hlo]
        · simp [h, hno, hlo]
      rw [if_neg hcn]
      have hbad : ¬ ModeOk (l ++ [c]) := by
        rw [modeOk_snoc]
        simp [hcr, hcw, hco, hcn]
      rw [hsplit, if_neg fun hall => hbad hall.of_append]

theorem modeBits_rw {b : Nat} (hb : b = modeBits r w n o) :
    ((if b &&& lfModeRw = 0 then b ||| lfModeRw else b) &&& lfModeN ≠ 0 ↔ n = true) ∧
      ((if b &&& lfModeRw = 0 then b ||| lfModeRw else b) &&& lfModeO ≠ 0 ↔ o = true) := by
  subst hb
  revert r w n o
  decide

/-- Which mode strings are accepted. -/
theorem lfgetmode_eq (mode : CString) : lfgetmode mode = if ModeOk mode.1 then
    some (if bitsOf mode.1 &&& lfModeRw = 0 then bitsOf mode.1 ||| lfModeRw else bitsOf mode.1)
    else none := by
  have hloop := lfgetmodeLoop_eq modeOk_nil mode.1
  rw [List.nil_append, show bitsOf [] = 0 from rfl] at hloop
  unfold lfgetmode
  rw [hloop]
  split <;> rfl

/-- The bits that say whether the file must be new or old. -/
theorem lfgetmode_bits {mode : CString} {mbits : Nat} (h : lfgetmode mode = some mbits) :
    ModeOk mode.1 ∧ (mbits &&& lfModeN ≠ 0 ↔ chN ∈ mode.1) ∧
      (mbits &&& lfModeO ≠ 0 ↔ chO ∈ mode.1) := by
  rw [lfgetmode_eq] at h
  split at h
  · next hok =>
      cases h
      obtain ⟨hnew, hold⟩ := modeBits_rw (show bitsOf mode.1 = modeBits _ _ _ _ from rfl)
      rw [decide_eq_true_iff] at hnew hold
      exact ⟨hok, hnew, hold⟩
  · cases h

end Modes

/-! ## Files -/

structure ByteFile where
  name : CString
  bytes : List UInt8
deriving DecidableEq

/-- An open file: its number in the directory and the position. -/
structure Handle where
  file : Nat
  pos : Nat
deriving DecidableEq, Repr

/-- The files of the directory, and those that are open. -/
structure ByteFiles (nlfl : Nat) where
  files : List ByteFile
  opened : Fin nlfl → Option Handle

/-- The number of blocks on the disk. -/
structure Capacity where
  iblocks : Nat
  dblocks : Nat

variable {nlfl : Nat}

namespace ByteFiles

variable (a : ByteFiles nlfl)

def bytes (i : Nat) : List UInt8 :=
  (a.files[i]?.map ByteFile.bytes).getD []

/-- Change the bytes of a file. -/
def store (i : Nat) (bytes : List UInt8) : ByteFiles nlfl :=
  { a with files := a.files.modify i fun f => { f with bytes } }

/-- Open a file, or change its position. -/
def move (fd : Fin nlfl) (h : Handle) : ByteFiles nlfl :=
  { a with opened := update a.opened fd (some h) }

/-- The number of blocks of `size` bytes that the files take. -/
def used (size : Nat) : Nat :=
  (a.files.map fun f => (f.bytes.length + (size - 1)) / size).sum

/-- A file of `len` bytes becomes longer: it needs an index block for every 8192 bytes and a
data block for every 512. -/
def room (cap : Capacity) (len : Nat) : Ending Unit :=
  if len % 8192 = 0 ∧ a.used 8192 = cap.iblocks then
    .panics "out of index blocks"
  else if len % 512 = 0 ∧ a.used 512 = cap.dblocks then
    .panics "out of data blocks"
  else
    .returns ()

def putByte (cap : Capacity) (fd : Fin nlfl) (ch : UInt8) : Ending (Int × ByteFiles nlfl) :=
  match a.opened fd with
  | none => .returns (syserr, a)
  | some h =>
      (if h.pos = (a.bytes h.file).length then a.room cap h.pos else .returns ()) >>= fun _ =>
        .returns (ok, (a.store h.file (putAt (a.bytes h.file) h.pos ch)).move fd
          ⟨h.file, h.pos + 1⟩)

def getByte (fd : Fin nlfl) : Int × ByteFiles nlfl :=
  match a.opened fd with
  | none => (syserr, a)
  | some h =>
      match (a.bytes h.file)[h.pos]? with
      | none => (eof, a)
      | some b => (b.toNat, a.move fd ⟨h.file, h.pos + 1⟩)

def seek (fd : Fin nlfl) (offset : Nat) : Int × ByteFiles nlfl :=
  match a.opened fd with
  | none => (syserr, a)
  | some h =>
      if offset > (a.bytes h.file).length then (syserr, a) else (ok, a.move fd ⟨h.file, offset⟩)

/-- Read up to `count` bytes. -/
def read (fd : Fin nlfl) (count : Int) : Int × List UInt8 × ByteFiles nlfl :=
  if count < 0 then
    (syserr, [], a)
  else if count = 0 then
    -- nothing is read, whether the file is open or not
    (0, [], a)
  else
    match a.opened fd with
    | none => (syserr, [], a)
    | some h =>
        let found := ((a.bytes h.file).drop h.pos).take count.toNat
        if found = [] then
          (eof, [], a)
        else
          (found.length, found, a.move fd ⟨h.file, h.pos + found.length⟩)

/-- Write bytes one after another. -/
def writeBytes (cap : Capacity) (fd : Fin nlfl) (count : Int) :
    List UInt8 → ByteFiles nlfl → Ending (Int × ByteFiles nlfl)
  | [], a => .returns (count, a)
  | ch :: buff, a =>
      a.putByte cap fd ch >>= fun r =>
        if r.1 = syserr then .returns (syserr, r.2) else writeBytes cap fd count buff r.2

def write (cap : Capacity) (fd : Fin nlfl) (buff : Chars) (count : Int) :
    Ending (Int × ByteFiles nlfl) :=
  if count < 0 then
    .returns (syserr, a)
  else
    writeBytes cap fd count ((List.range count.toNat).map buff) a

/-- A file is emptied. -/
def control (fd : Fin nlfl) (func : Int) : Int × ByteFiles nlfl :=
  match a.opened fd with
  | none => (syserr, a)
  | some h =>
      if func = lfCtlTrunc then (ok, (a.store h.file []).move fd ⟨h.file, 0⟩) else (syserr, a)

/-- The file with this name. -/
def lookup (name : CString) : Option Nat :=
  a.files.findIdx? fun f => f.name = name

def isOpen (name : CString) : Bool :=
  (List.finRange nlfl).any fun fd =>
    (a.opened fd).any fun h => (a.files[h.file]?).any fun f => f.name = name

/-- The first device that has no open file. -/
def freeFd : Option (Fin nlfl) :=
  (List.finRange nlfl).find? fun fd => a.opened fd = none

/-- Open a file on the device `fd`. -/
def openOn (dev : Fin nlfl → Int) (name mode : CString) (fd : Fin nlfl) : Int × ByteFiles nlfl :=
  match a.lookup name with
  | some i => if chN ∈ mode.1 then (syserr, a) else (dev fd, a.move fd ⟨i, 0⟩)
  | none =>
      if chO ∈ mode.1 ∨ lfNumDirEnt ≤ a.files.length then
        (syserr, a)
      else
        (dev fd, ({ a with files := a.files ++ [ByteFile.mk name []] }).move fd
          ⟨a.files.length, 0⟩)

/-- Open a file, which may be a new one. -/
def openFile (dev : Fin nlfl → Int) (name mode : CString) : Int × ByteFiles nlfl :=
  if lfNameLen ≤ name.1.length ∨ ¬ ModeOk mode.1 ∨ a.isOpen name then
    (syserr, a)
  else
    match a.freeFd with
    | none => (syserr, a)
    | some fd => a.openOn dev name mode fd

/-- A request that is refused before a device is found. -/
theorem openFile_refused {dev : Fin nlfl → Int} {name mode : CString}
    (h : lfNameLen ≤ name.1.length ∨ ¬ ModeOk mode.1 ∨ a.isOpen name) :
    a.openFile dev name mode = (syserr, a) :=
  if_pos h

theorem openFile_full {dev : Fin nlfl → Int} {name mode : CString}
    (h : ¬ (lfNameLen ≤ name.1.length ∨ ¬ ModeOk mode.1 ∨ a.isOpen name))
    (hfd : a.freeFd = none) : a.openFile dev name mode = (syserr, a) := by
  unfold openFile
  rw [if_neg h, hfd]

theorem openFile_free {dev : Fin nlfl → Int} {name mode : CString} {fd : Fin nlfl}
    (h : ¬ (lfNameLen ≤ name.1.length ∨ ¬ ModeOk mode.1 ∨ a.isOpen name))
    (hfd : a.freeFd = some fd) : a.openFile dev name mode = a.openOn dev name mode fd := by
  unfold openFile
  rw [if_neg h, hfd]

def closeFile (fd : Fin nlfl) : Int × ByteFiles nlfl :=
  match a.opened fd with
  | none => (syserr, a)
  | some _ => (ok, { a with opened := update a.opened fd none })

end ByteFiles

/-! ## Calls -/

/-- The calls of the devices. -/
inductive LfCall (nlfl : Nat)
  | lfsopen (name mode : CString)
  | lflclose (fd : Fin nlfl)
  | lflputc (fd : Fin nlfl) (ch : UInt8)
  | lflgetc (fd : Fin nlfl)
  | lflseek (fd : Fin nlfl) (offset : Nat)
  | lflread (fd : Fin nlfl) (count : Int)
  | lflwrite (fd : Fin nlfl) (buff : Chars) (count : Int)
  | lflcontrol (fd : Fin nlfl) (func : Int)

/-- What a call returns, and the bytes that it stores in a buffer. -/
abbrev Answer := Int × List UInt8

/-- A call that stores no bytes. -/
def answer {σ : Type} (r : Int × σ) : Answer × σ :=
  ((r.1, []), r.2)

/-- What a call does; a loop makes fewer than `n` turns. -/
def execCall (n : Nat) : LfCall nlfl → Lf nlfl → Ending (Answer × Lf nlfl)
  | .lfsopen name mode, s => pure (answer (lfsopen name mode s))
  | .lflclose fd, s => pure (answer (lflclose fd s))
  | .lflputc fd ch, s => lflputc n fd ch s >>= fun r => pure (answer r)
  | .lflgetc fd, s => lflgetc n fd s >>= fun r => pure (answer r)
  | .lflseek fd offset, s => pure (answer (lflseek fd offset s))
  | .lflread fd count, s => lflread n fd count s >>= fun r => pure ((r.1, r.2.1), r.2.2)
  | .lflwrite fd buff count, s => lflwrite n fd buff count s >>= fun r => pure (answer r)
  | .lflcontrol fd func, s => lflcontrol n fd func s >>= fun r => pure (answer r)

/-- What a call means. -/
def specCall (cap : Capacity) (dev : Fin nlfl → Int) :
    LfCall nlfl → ByteFiles nlfl → Ending (Answer × ByteFiles nlfl)
  | .lfsopen name mode, a => pure (answer (a.openFile dev name mode))
  | .lflclose fd, a => pure (answer (a.closeFile fd))
  | .lflputc fd ch, a => a.putByte cap fd ch >>= fun r => pure (answer r)
  | .lflgetc fd, a => pure (answer (a.getByte fd))
  | .lflseek fd offset, a => pure (answer (a.seek fd offset))
  | .lflread fd count, a =>
      pure (((a.read fd count).1, (a.read fd count).2.1), (a.read fd count).2.2)
  | .lflwrite fd buff count, a => a.write cap fd buff count >>= fun r => pure (answer r)
  | .lflcontrol fd func, a => pure (answer (a.control fd func))

end Lfs
end Xinu
