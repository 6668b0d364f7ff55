import Xinu.LocalFileSystem.Transfer

/-!
# The local file system: what the files contain

The files of bytes by themselves: when a call is stopped, and what is read after a write.

Main results:

- Theorem `specCall_meets`: a call is stopped only if the disk is full.
- Theorem `ByteFiles.writeBytes_meets`: what a whole write leaves in a file.
- Theorem `readBack_meets`: what is written is read.
-/

namespace Xinu
namespace Lfs

open Foundations Function

variable {nlfl : Nat}

/-! ## Bytes -/

/-- Replace the bytes from `pos` on, or append them. -/
def splice (bytes : List UInt8) (pos : Nat) (buff : List UInt8) : List UInt8 :=
  bytes.take pos ++ buff ++ bytes.drop (pos + buff.length)

section Splice

variable {bytes buff l m : List UInt8} {pos : Nat} {ch : UInt8}

theorem exists_append (h : pos ≤ bytes.length) : ∃ l m, bytes = l ++ m ∧ pos = l.length :=
  ⟨bytes.take pos, bytes.drop pos, (List.take_append_drop pos bytes).symm,
    (List.length_take_of_le h).symm⟩

theorem splice_append : splice (l ++ m) l.length buff = l ++ buff ++ m.drop buff.length := by
  unfold splice
  rw [List.take_left, List.drop_length_add_append]

theorem putAt_append : putAt (l ++ m) l.length ch = l ++ [ch] ++ m.drop 1 := by
  unfold putAt
  rw [List.take_left, List.drop_length_add_append, List.append_assoc]
  rfl

theorem splice_nil (h : pos ≤ bytes.length) : splice bytes pos [] = bytes := by
  obtain ⟨l, m, rfl, rfl⟩ := exists_append h
  rw [splice_append, List.append_nil]
  rfl

/-- The bytes are written one after another. -/
theorem splice_cons (h : pos ≤ bytes.length) :
    splice (putAt bytes pos ch) (pos + 1) buff = splice bytes pos (ch :: buff) := by
  obtain ⟨l, m, rfl, rfl⟩ := exists_append h
  have hlength : l.length + 1 = (l ++ [ch]).length := by
    rw [List.length_append, List.length_singleton]
  rw [putAt_append, hlength, splice_append, splice_append, List.drop_drop, List.append_assoc l,
    List.length_cons, Nat.add_comm 1]
  rfl

theorem length_splice (h : pos ≤ bytes.length) :
    (splice bytes pos buff).length = max bytes.length (pos + buff.length) := by
  obtain ⟨l, m, rfl, rfl⟩ := exists_append h
  rw [splice_append, List.length_append, List.length_append, List.length_append, List.length_drop]
  omega

/-- What is read after bytes were written. -/
theorem take_drop_splice (h : pos ≤ bytes.length) :
    ((splice bytes pos buff).drop pos).take buff.length = buff := by
  obtain ⟨l, m, rfl, rfl⟩ := exists_append h
  rw [splice_append, List.append_assoc, List.drop_left, List.take_left]

end Splice

/-! ## Full disks -/

/-- The messages when the disk is full. -/
def IsFull (message : String) : Prop :=
  message = "out of index blocks" ∨ message = "out of data blocks"

section Calls

variable {a : ByteFiles nlfl} {fd : Fin nlfl} {i pos : Nat}

theorem ByteFiles.room_meets (cap : Capacity) (len : Nat) :
    (a.room cap len).Meets (fun _ => True) IsFull := by
  unfold room
  split
  · exact .panics (.inl rfl)
  · split
    · exact .panics (.inr rfl)
    · exact .returns trivial

/-- A byte is written to an open file. -/
theorem ByteFiles.putByte_meets (h : a.opened fd = some ⟨i, pos⟩) (cap : Capacity) (ch : UInt8) :
    (a.putByte cap fd ch).Meets
      (fun r => r = (ok, (a.store i (putAt (a.bytes i) pos ch)).move fd ⟨i, pos + 1⟩)) IsFull := by
  have hroom : (if pos = (a.bytes i).length then a.room cap pos else .returns ()).Meets
      (fun _ => True) IsFull := by
    split
    · exact a.room_meets cap pos
    · exact .returns trivial
  unfold putByte
  rw [h]
  exact hroom.bind fun _ _ => .returns rfl

@[simp]
theorem ByteFiles.length_store {bytes : List UInt8} :
    (a.store i bytes).files.length = a.files.length := by
  unfold store
  exact List.length_modify _ _ _

theorem ByteFiles.bytes_store (hi : i < a.files.length) (bytes : List UInt8) :
    (a.store i bytes).bytes i = bytes := by
  unfold ByteFiles.bytes store
  rw [List.getElem?_modify_eq, List.getElem?_eq_getElem hi]
  rfl

theorem ByteFiles.store_bytes : a.store i (a.bytes i) = a := by
  unfold ByteFiles.bytes store
  congr 1
  apply List.ext_getElem?
  intro j
  by_cases hij : i = j
  · subst hij
    rw [List.getElem?_modify_eq]
    cases hi : a.files[i]? with
    | none => rfl
    | some f => rfl
  · exact List.getElem?_modify_ne _ _ hij

theorem ByteFiles.store_store (b c : List UInt8) : (a.store i b).store i c = a.store i c := by
  unfold store
  congr 1
  exact List.modify_modify_eq _ _ _ _

/-- What a whole write leaves in a file. -/
theorem ByteFiles.writeBytes_meets (h : a.opened fd = some ⟨i, pos⟩) (hi : i < a.files.length)
    (hpos : pos ≤ (a.bytes i).length) (cap : Capacity) (count : Int) (buff : List UInt8) :
    (writeBytes cap fd count buff a).Meets
      (fun r => r = (count, (a.store i (splice (a.bytes i) pos buff)).move fd
        ⟨i, pos + buff.length⟩)) IsFull := by
  induction buff generalizing a pos with
  | nil =>
      rw [splice_nil hpos, store_bytes]
      exact .returns (congrArg (Prod.mk count) (move_self h).symm)
  | cons ch buff ih =>
      unfold writeBytes
      apply (putByte_meets h cap ch).bind
      rintro r rfl
      obtain ⟨b, hb⟩ : ∃ b, (a.store i (putAt (a.bytes i) pos ch)).move fd ⟨i, pos + 1⟩ = b :=
        ⟨_, rfl⟩
      have hbytes : b.bytes i = putAt (a.bytes i) pos ch := by
        rw [← hb, bytes_move, bytes_store hi]
      have hopened : b.opened fd = some ⟨i, pos + 1⟩ := by
        rw [← hb, opened_move]
      have hfile : i < b.files.length := by
        rw [← hb]
        exact Nat.lt_of_lt_of_eq hi length_store.symm
      have hpos' : pos + 1 ≤ (b.bytes i).length := by
        rw [hbytes, length_putAt hpos]
        exact Nat.le_max_right _ _
      dsimp only
      rw [if_neg (show ¬ ok = syserr by decide), hb]
      apply (ih hopened hfile hpos').mono _ fun _ hm => hm
      rintro r rfl
      have hstore : ∀ l x, (b.store i l).move fd x = (a.store i l).move fd x := by
        intro l x
        rw [← hb]
        show ((((a.store i _).store i l).move fd _).move fd x) = _
        rw [move_move, store_store]
      rw [hbytes, splice_cons hpos, hstore, List.length_cons, Nat.add_right_comm]
      rfl

/-! ## Calls that end -/

theorem ByteFiles.putByte_ends (cap : Capacity) (fd : Fin nlfl) (ch : UInt8) :
    (a.putByte cap fd ch).Meets (fun _ => True) IsFull := by
  cases h : a.opened fd with
  | none =>
      unfold putByte
      rw [h]
      exact .returns trivial
  | some x => exact (putByte_meets (i := x.file) h cap ch).mono (fun _ _ => trivial) fun _ hm => hm

theorem ByteFiles.writeBytes_ends (cap : Capacity) (fd : Fin nlfl) (count : Int)
    (buff : List UInt8) : (writeBytes cap fd count buff a).Meets (fun _ => True) IsFull := by
  induction buff generalizing a with
  | nil => exact .returns trivial
  | cons ch buff ih =>
      unfold writeBytes
      apply (a.putByte_ends cap fd ch).bind
      intro r _
      split
      · exact .returns trivial
      · exact ih

/-- A call is stopped only if the disk is full. -/
theorem specCall_meets (cap : Capacity) (dev : Fin nlfl → Int) (c : LfCall nlfl)
    (a : ByteFiles nlfl) : (specCall cap dev c a).Meets (fun _ => True) IsFull := by
  cases c with
  | lflputc fd ch => exact (a.putByte_ends cap fd ch).bind fun _ _ => .returns trivial
  | lflwrite fd buff count =>
      have hwrite : (a.write cap fd buff count).Meets (fun _ => True) IsFull := by
        unfold ByteFiles.write
        split
        · exact .returns trivial
        · exact ByteFiles.writeBytes_ends cap fd count _
      exact hwrite.bind fun _ _ => .returns trivial
  | _ => exact .returns trivial

/-! ## Written bytes -/

theorem ByteFiles.seek_eq (h : a.opened fd = some ⟨i, pos⟩) {offset : Nat}
    (hle : offset ≤ (a.bytes i).length) : a.seek fd offset = (ok, a.move fd ⟨i, offset⟩) := by
  unfold seek
  rw [h]
  exact if_neg (Nat.not_lt.mpr hle)

/-- As many bytes are read as there are. -/
theorem ByteFiles.read_eq (h : a.opened fd = some ⟨i, pos⟩) {bytes : List UInt8} {count : Nat}
    (hfound : ((a.bytes i).drop pos).take count = bytes) (hlength : bytes.length = count) :
    ∃ b, a.read fd count = ((count : Int), bytes, b) := by
  unfold read
  rw [if_neg (by omega), h, Int.toNat_natCast]
  dsimp only
  rw [hfound]
  by_cases hzero : count = 0
  · rw [if_pos (by omega), List.length_eq_zero_iff.mp (hlength.trans hzero), hzero]
    exact ⟨a, rfl⟩
  · have hne : bytes ≠ [] := by
      rintro rfl
      exact hzero hlength.symm
    rw [if_neg (by omega), if_neg hne, hlength]
    exact ⟨_, rfl⟩

/-- A write, and a read from the position at which it began. -/
theorem write_read_meets (h : a.opened fd = some ⟨i, pos⟩) (hi : i < a.files.length)
    (hpos : pos ≤ (a.bytes i).length) (cap : Capacity) (dev : Fin nlfl → Int) (buff : Chars)
    (count : Nat) : (runAll (specCall cap dev)
      [.lflwrite fd buff count, .lflseek fd pos, .lflread fd count] a).Meets
        (fun r => r.1 = [((count : Int), []), (ok, []), ((count : Int),
          (List.range count).map buff)]) IsFull := by
  obtain ⟨bytes, hbytes⟩ : ∃ bytes, (List.range count).map buff = bytes := ⟨_, rfl⟩
  have hlength : bytes.length = count := by
    rw [← hbytes, List.length_map, List.length_range]
  obtain ⟨b, hb⟩ : ∃ b, (a.store i (splice (a.bytes i) pos bytes)).move fd
      ⟨i, pos + bytes.length⟩ = b := ⟨_, rfl⟩
  have hwritten : b.bytes i = splice (a.bytes i) pos bytes := by
    rw [← hb, ByteFiles.bytes_move, ByteFiles.bytes_store hi]
  have hopened : b.opened fd = some ⟨i, pos + bytes.length⟩ := by
    rw [← hb, ByteFiles.opened_move]
  have hwrite : (specCall cap dev (.lflwrite fd buff count) a).Meets
      (fun r => r = (((count : Int), []), b)) IsFull := by
    have hcall : a.write cap fd buff count = ByteFiles.writeBytes cap fd count bytes a := by
      unfold ByteFiles.write
      rw [if_neg (by omega), Int.toNat_natCast, hbytes]
    show (a.write cap fd buff count >>= fun r => pure (answer r)).Meets _ _
    rw [hcall]
    apply (ByteFiles.writeBytes_meets h hi hpos cap count bytes).bind
    rintro r rfl
    rw [hb]
    exact .returns rfl
  have hseek : specCall cap dev (.lflseek fd pos) b = .returns ((ok, []), b.move fd ⟨i, pos⟩) := by
    have hle : pos ≤ (b.bytes i).length := by
      rw [hwritten, length_splice hpos]
      omega
    exact congrArg (fun r => Ending.returns (answer r)) (ByteFiles.seek_eq hopened hle)
  have hfound : (((b.move fd ⟨i, pos⟩).bytes i).drop pos).take count = bytes := by
    rw [ByteFiles.bytes_move, hwritten, ← hlength]
    exact take_drop_splice hpos
  obtain ⟨c, hc⟩ := ByteFiles.read_eq ByteFiles.opened_move hfound hlength
  have hread : specCall cap dev (.lflread fd count) (b.move fd ⟨i, pos⟩) =
      .returns (((count : Int), bytes), c) :=
    congrArg (fun r : Int × List UInt8 × ByteFiles nlfl =>
      Ending.returns (((r.1, r.2.1), r.2.2) : Answer × ByteFiles nlfl)) hc
  rw [runAll_cons, hbytes]
  apply hwrite.bind
  rintro r rfl
  rw [runAll_returns hseek, runAll_returns hread]
  exact .returns rfl

/-- Write to a file from `offset` on, and read what was written. -/
def readBack (fd : Fin nlfl) (offset : Nat) (buff : Chars) (count : Nat) : List (LfCall nlfl) :=
  [.lflseek fd offset, .lflwrite fd buff count, .lflseek fd offset, .lflread fd count]

/-- The offset is refused, or the bytes that are written are read. -/
def IsReadBack (buff : Chars) (count : Nat) (answers : List Answer) : Prop :=
  answers.head? = some (syserr, []) ∨ answers =
    [(ok, []), ((count : Int), []), (ok, []), ((count : Int), (List.range count).map buff)]

/-- What is written is read. -/
theorem readBack_meets (hvalid : ∀ h, a.opened fd = some h → h.file < a.files.length)
    (cap : Capacity) (dev : Fin nlfl → Int) (offset : Nat) (buff : Chars) (count : Nat) :
    (runAll (specCall cap dev) (readBack fd offset buff count) a).Meets
      (fun r => IsReadBack buff count r.1) IsFull := by
  have hrefused : a.seek fd offset = (syserr, a) →
      (runAll (specCall cap dev) (readBack fd offset buff count) a).Meets
        (fun r => IsReadBack buff count r.1) IsFull := by
    intro h
    have hseek : specCall cap dev (.lflseek fd offset) a = .returns ((syserr, []), a) :=
      congrArg (fun r => Ending.returns (answer r)) h
    unfold readBack
    rw [runAll_returns hseek]
    apply (runAll_meets (specCall_meets cap dev) _ a).bind
    exact fun _ _ => .returns (.inl rfl)
  cases hfd : a.opened fd with
  | none =>
      apply hrefused
      unfold ByteFiles.seek
      rw [hfd]
  | some x =>
      obtain ⟨i, pos⟩ := x
      by_cases hle : offset ≤ (a.bytes i).length
      · have hseek : specCall cap dev (.lflseek fd offset) a =
            .returns ((ok, []), a.move fd ⟨i, offset⟩) :=
          congrArg (fun r => Ending.returns (answer r)) (ByteFiles.seek_eq hfd hle)
        unfold readBack
        rw [runAll_returns hseek]
        apply (write_read_meets ByteFiles.opened_move (hvalid _ hfd) hle cap dev buff count).bind
        intro r hr
        rw [hr]
        exact .returns (.inr rfl)
      · apply hrefused
        unfold ByteFiles.seek
        rw [hfd]
        exact if_pos (Nat.not_le.mp hle)

end Calls

end Lfs
end Xinu
