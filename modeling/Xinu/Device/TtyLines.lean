import Xinu.Device.TtyInput

/-!
# Lines of a terminal

In cooked mode the characters of a line may be erased until the line is finished.  The
reference is an editor that keeps the finished lines and the current one as lists; the
input handler keeps them in a ring that readers empty at its other end.

Main results:

- Theorem `ttyread_returns`: a reader returns the characters that it takes.
- Theorem `cooked_lines`: if no line is killed around the end of the ring and no end of
  file is stored in its last place, what the readers take are the lines that were finished.
-/

namespace Xinu

open Foundations Function

/-! ## The reference -/

/-- The settings of a terminal that say what a character does. -/
structure Keys where
  tyicrlf : Bool
  tyoflow : Bool
  tyostart : UInt8
  tyostop : UInt8
  tyikill : Bool
  tyikillc : UInt8
  tyierase : Bool
  tyierasec : UInt8
  tyeof : Bool
  tyeofch : UInt8
deriving DecidableEq

def Ttycblk.keys (d : Ttycblk) : Keys :=
  ⟨d.tyicrlf, d.tyoflow, d.tyostart, d.tyostop, d.tyikill, d.tyikillc, d.tyierase, d.tyierasec,
    d.tyeof, d.tyeofch⟩

/-- What was typed: the finished lines, one behind the other, and the current line. -/
structure Typed where
  lines : List UInt8
  line : List UInt8
deriving DecidableEq

namespace Keys

/-- The character starts or stops the output. -/
def Flow (k : Keys) (ch : UInt8) : Prop :=
  k.tyoflow = true ∧ (ch = k.tyostart ∨ ch = k.tyostop)

instance (k : Keys) (ch : UInt8) : Decidable (k.Flow ch) :=
  inferInstanceAs (Decidable (_ ∧ _))

/-- A return may count as a newline. -/
def mapped (k : Keys) (ch : UInt8) : UInt8 :=
  if ch = tyReturn ∧ k.tyicrlf = true then tyNewline else ch

/-- What a character does to the lines.  An end of file counts as the only character of
a line, and is ignored inside another one. -/
def edit (k : Keys) (t : Typed) (ch : UInt8) : Typed :=
  if k.Flow ch then
    t
  else if ch = k.tyikillc ∧ k.tyikill = true then
    { t with line := [] }
  else if ch = k.tyierasec ∧ k.tyierase = true then
    { t with line := t.line.dropLast }
  else if ch = tyNewline ∨ ch = tyReturn then
    ⟨t.lines ++ (t.line ++ [ch]), []⟩
  else if ch = k.tyeofch ∧ k.tyeof = true then
    if t.line = [] then { t with lines := t.lines ++ [ch] } else t
  else
    { t with line := t.line ++ [ch] }

/-- Type characters, one by one. -/
def type (k : Keys) (t : Typed) (chars : List UInt8) : Typed :=
  chars.foldl (fun t ch => k.edit t (k.mapped ch)) t

/-- The character is to be placed in the buffer, and does not finish the line. -/
def Inside (k : Keys) (ch : UInt8) : Prop :=
  ¬ k.Flow ch ∧ ¬ (ch = k.tyikillc ∧ k.tyikill = true) ∧
    ¬ (ch = k.tyierasec ∧ k.tyierase = true) ∧ ¬ (ch = tyNewline ∨ ch = tyReturn)

instance (k : Keys) (ch : UInt8) : Decidable (k.Inside ch) :=
  inferInstanceAs (Decidable (_ ∧ _ ∧ _ ∧ _))

end Keys

/-- The characters that were typed. -/
def typed (tr : List (Segment (World Ttycblk TtyEvent) TtyCall)) : List UInt8 :=
  tr.flatMap fun seg =>
    match seg.resumed, seg.call with
    | false, .interrupt (.rda chars) => chars
    | _, _ => []

/-- The characters that readers took. -/
def takenChars (log : List TtyEvent) : List UInt8 :=
  log.filterMap fun e =>
    match e with
    | .taken ch => some ch
    | _ => none

theorem takenChars_taken (log : List TtyEvent) (ch : UInt8) :
    takenChars (log ++ [.taken ch]) = takenChars log ++ [ch] := by
  simp [takenChars]

theorem takenChars_input (log : List TtyEvent) (path : InputPath) (tail cursor units : Int) :
    takenChars (log ++ [.input path tail cursor units]) = takenChars log := by
  simp [takenChars]

/-! ## The lines in the ring -/

/-- What concerns the lines in the buffer, but for the head. -/
def Ttycblk.written (d : Ttycblk) : InputMode × Keys × Int × Int × (Int → UInt8) :=
  (d.tyimode, d.keys, d.tyitail, d.tyicursor, d.tyibuff)

/-- The terminal is in cooked mode, and the buffer holds what was not taken of the finished
lines, which are `n` characters, and the current line. -/
structure Lined (k : Keys) (t : Typed) (taken : List UInt8) (n : Int) (d : Ttycblk) : Prop where
  mode : d.tyimode = .cooked
  keys : d.keys = k
  ring : InRing n d
  cursor : d.tyicursor = t.line.length
  held : ∃ rest, t.lines = taken ++ rest ∧ (rest.length : Int) = n ∧
    Ring.window tyIbuflen d.tyibuff d.tyihead (n + d.tyicursor).toNat = rest ++ t.line

section Lines

variable {k : Keys} {t : Typed} {taken : List UInt8} {n : Int} {d d' : Ttycblk} {ch : UInt8}

theorem Lined.congr (h : Lined k t taken n d) (hwritten : d'.written = d.written)
    (hhead : d'.tyihead = d.tyihead) (hring : InRing n d') : Lined k t taken n d' := by
  unfold Ttycblk.written at hwritten
  simp only [Prod.mk.injEq] at hwritten
  obtain ⟨hmode, hkeys, -, hcursor, hbuff⟩ := hwritten
  refine ⟨hmode.trans h.mode, hkeys.trans h.keys, hring, hcursor.trans h.cursor, ?_⟩
  rw [hbuff, hhead, hcursor]
  exact h.held

/-- A character is stored at the tail: the items of the buffer are one more. -/
theorem Lined.push (h : Lined k t taken n d) (hroom : n + d.tyicursor < tyIbuflen) (c : UInt8) :
    ∃ rest, t.lines = taken ++ rest ∧ (rest.length : Int) = n ∧
      Ring.window tyIbuflen (update d.tyibuff d.tyitail c) d.tyihead
        (n + d.tyicursor + 1).toNat = rest ++ (t.line ++ [c]) := by
  obtain ⟨rest, hlines, hlen, hwindow⟩ := h.held
  refine ⟨rest, hlines, hlen, ?_⟩
  rw [Ring.window_push h.ring.fits hroom, hwindow, List.append_assoc]

theorem Lined.text (h : Lined k t taken n d) (hroom : n + d.tyicursor < tyIbuflen) :
    Lined k { t with line := t.line ++ [ch] } taken n
      (Ttycblk.store ch { d with tyicursor := d.tyicursor + 1 }) := by
  obtain ⟨rest, hlines, hlen, hwindow⟩ := h.push hroom ch
  refine ⟨h.mode, h.keys, h.ring.text hroom, ?_, rest, hlines, hlen, ?_⟩
  · show d.tyicursor + 1 = ((t.line ++ [ch]).length : Int)
    rw [h.cursor, List.length_append]
    rfl
  · rw [← hwindow, Int.add_assoc]
    rfl

/-- The line is finished. -/
theorem Lined.eol (h : Lined k t taken n d) (hroom : n + d.tyicursor < tyIbuflen) :
    Lined k ⟨t.lines ++ (t.line ++ [ch]), []⟩ taken (n + (d.tyicursor + 1))
      { d.store ch with tyicursor := 0 } := by
  obtain ⟨rest, hlines, hlen, hwindow⟩ := h.push hroom ch
  refine ⟨h.mode, h.keys, h.ring.eol hroom, rfl, rest ++ (t.line ++ [ch]), ?_, ?_, ?_⟩
  · show t.lines ++ (t.line ++ [ch]) = _
    rw [hlines, List.append_assoc]
  · rw [List.length_append, List.length_append, h.cursor, ← hlen]
    rfl
  · have hcount : n + (d.tyicursor + 1) + 0 = n + d.tyicursor + 1 := by ring
    show Ring.window tyIbuflen (update d.tyibuff d.tyitail ch) d.tyihead
      (n + (d.tyicursor + 1) + 0).toNat = rest ++ (t.line ++ [ch]) ++ []
    rw [hcount, hwindow, List.append_nil]

/-- An end of file is stored. -/
theorem Lined.eof (h : Lined k t taken n d) (hline : t.line = [])
    (htail : d.tyitail + 1 < tyIbuflen) (hroom : n + d.tyicursor < tyIbuflen) :
    Lined k { t with lines := t.lines ++ [ch] } taken (n + 1) (d.storeRaw ch) := by
  obtain ⟨rest, hlines, hlen, hwindow⟩ := h.push hroom ch
  refine ⟨h.mode, h.keys, h.ring.storeRaw htail hroom, h.cursor, rest ++ [ch], ?_, ?_, ?_⟩
  · show t.lines ++ [ch] = _
    rw [hlines, List.append_assoc]
  · rw [List.length_append, ← hlen]
    rfl
  · have hcount : n + 1 + d.tyicursor = n + d.tyicursor + 1 := by ring
    show Ring.window tyIbuflen (update d.tyibuff d.tyitail ch) d.tyihead
      (n + 1 + d.tyicursor).toNat = rest ++ [ch] ++ t.line
    rw [hcount, hwindow, hline, List.append_nil, List.nil_append]

/-- The last characters of the line are removed. -/
theorem Lined.shorten (h : Lined k t taken n d) {m : Nat} (hle : m ≤ t.line.length) :
    ∃ rest, t.lines = taken ++ rest ∧ (rest.length : Int) = n ∧
      Ring.window tyIbuflen d.tyibuff d.tyihead (n + m).toNat = rest ++ t.line.take m := by
  obtain ⟨rest, hlines, hlen, hwindow⟩ := h.held
  refine ⟨rest, hlines, hlen, ?_⟩
  have hcursor := h.cursor
  have hcount : (n + m).toNat = rest.length + m := by omega
  rw [Ring.window_eq_take d.tyibuff d.tyihead (m := (n + d.tyicursor).toNat) (by omega),
    hwindow, hcount, List.take_length_add_append]

theorem Lined.killLine (h : Lined k t taken n d) (hn : 0 ≤ n) (hle : d.tyicursor ≤ d.tyitail) :
    Lined k { t with line := [] } taken n d.killLine := by
  obtain ⟨rest, hlines, hlen, hwindow⟩ := h.shorten (m := 0) (Nat.zero_le _)
  have hhead : d.killLine.tyihead = d.tyihead := if_neg (by omega)
  refine ⟨h.mode, h.keys, h.ring.killLine hn hle, rfl, rest, hlines, hlen, ?_⟩
  rw [hhead]
  exact hwindow

theorem written_echoErase : (d.echoErase ch).written = d.written :=
  Ttycblk.echoErase_view fun _ _ => rfl

theorem written_echoIf : (d.echoIf ch).written = d.written :=
  Ttycblk.echoIf_view fun _ _ => rfl

theorem head_echoIf : (d.echoIf ch).tyihead = d.tyihead :=
  @Ttycblk.echoIf_view _ Ttycblk.tyihead _ _ fun _ _ => rfl

theorem Lined.echoIf (h : Lined k t taken n d) : Lined k t taken n (d.echoIf ch) :=
  h.congr written_echoIf head_echoIf (h.ring.congr input_echoIf)

theorem cursor_echoIf (d : Ttycblk) (ch : UInt8) : (d.echoIf ch).tyicursor = d.tyicursor :=
  @Ttycblk.echoIf_view _ Ttycblk.tyicursor _ _ fun _ _ => rfl

theorem tail_echoIf (d : Ttycblk) (ch : UInt8) : (d.echoIf ch).tyitail = d.tyitail :=
  @Ttycblk.echoIf_view _ Ttycblk.tyitail _ _ fun _ _ => rfl

/-- Echoing concerns no line. -/
theorem Lined.eputc (h : Lined k t taken n d) (c : UInt8) : Lined k t taken n (d.eputc c) :=
  h.congr rfl rfl (h.ring.congr rfl)

theorem Lined.line_nil (h : Lined k t taken n d) : t.line = [] ↔ d.tyicursor = 0 := by
  rw [h.cursor, ← List.length_eq_zero_iff]
  omega

/-- There is nothing to erase. -/
theorem Typed.erase_nil (hline : t.line = []) : { t with line := t.line.dropLast } = t := by
  obtain ⟨lines, line⟩ := t
  obtain rfl : line = [] := hline
  rfl

theorem Lined.erase1 (h : Lined k t taken n d) (hn : 0 ≤ n) (hpos : 0 < d.tyicursor) :
    Lined k { t with line := t.line.dropLast } taken n
      (Ttycblk.erase1 { d with tyicursor := d.tyicursor - 1 }) := by
  have hcursor := h.cursor
  obtain ⟨rest, hlines, hlen, hwindow⟩ :=
    h.shorten (m := t.line.length - 1) (Nat.sub_le _ _)
  rw [← List.dropLast_eq_take] at hwindow
  have hring := h.ring.erase1 hn hpos
  have hback : d.tyicursor - 1 = ((t.line.length - 1 : Nat) : Int) := by omega
  let d₁ : Ttycblk := { d with tyicursor := d.tyicursor - 1 }
  have hwritten : d₁.erase1.written = d₁.retreat.written := written_echoErase
  have hhead : d₁.erase1.tyihead = d.tyihead :=
    @Ttycblk.echoErase_view _ Ttycblk.tyihead _ _ fun _ _ => rfl
  unfold Ttycblk.written at hwritten
  simp only [Prod.mk.injEq] at hwritten
  obtain ⟨hmode, hkeys, -, hcursor₁, hbuff⟩ := hwritten
  refine ⟨hmode.trans h.mode, hkeys.trans h.keys, hring, ?_, rest, hlines, hlen, ?_⟩
  · rw [hcursor₁]
    show d.tyicursor - 1 = (t.line.dropLast.length : Int)
    rw [List.length_dropLast]
    exact hback
  · rw [hcursor₁, hbuff, hhead]
    show Ring.window tyIbuflen d.tyibuff d.tyihead (n + (d.tyicursor - 1)).toNat = _
    rw [hback]
    exact hwindow

end Lines

/-! ## Readers -/

/-- `m` characters are taken from the buffer, and what else is done concerns no line. -/
structure ConsumesN (m : Nat) (w w' : World Ttycblk TtyEvent) : Prop where
  mode : w.shared.tyimode = .cooked → w'.shared.tyimode = .cooked
  written : w'.shared.written.2 = w.shared.written.2
  head : w'.shared.tyihead = (wrapped tyIbuflen)^[m] w.shared.tyihead
  taken : takenChars w'.log =
    takenChars w.log ++ Ring.window tyIbuflen w.shared.tyibuff w.shared.tyihead m
  fewer : readable w'.log = readable w.log - m

def Consumes (w w' : World Ttycblk TtyEvent) : Prop :=
  ∃ m, ConsumesN m w w'

section Consumes

variable {w w' : World Ttycblk TtyEvent} {k : Keys} {t : Typed}

theorem ConsumesN.trans {w'' : World Ttycblk TtyEvent} {m m' : Nat} (h : ConsumesN m w w')
    (h' : ConsumesN m' w' w'') : ConsumesN (m + m') w w'' := by
  have hbuff : w'.shared.tyibuff = w.shared.tyibuff := by
    have hwritten := h.written
    unfold Ttycblk.written at hwritten
    simp only [Prod.mk.injEq] at hwritten
    exact hwritten.2.2.2
  refine ⟨fun hmode => h'.mode (h.mode hmode), h'.written.trans h.written, ?_, ?_, ?_⟩
  · rw [h'.head, h.head, Nat.add_comm, Function.iterate_add_apply]
  · have hnext : wrapped tyIbuflen = Ring.next tyIbuflen := rfl
    rw [h'.taken, h.taken, hbuff, h.head, hnext, Ring.window_add, List.append_assoc]
  · rw [h'.fewer, h.fewer]
    push_cast
    ring

instance : IsPreorder (World Ttycblk TtyEvent) Consumes where
  refl _ := ⟨0, fun h => h, rfl, rfl, (List.append_nil _).symm, (Int.sub_zero _).symm⟩
  trans _ _ _ := fun ⟨m, h⟩ ⟨m', h'⟩ => ⟨m + m', h.trans h'⟩

/-- Nothing is taken. -/
theorem Consumes.of_view (hmode : w.shared.tyimode = .cooked → w'.shared.tyimode = .cooked)
    (hwritten : w'.shared.written.2 = w.shared.written.2)
    (hhead : w'.shared.tyihead = w.shared.tyihead)
    (htaken : takenChars w'.log = takenChars w.log) (hreadable : readable w'.log = readable w.log) :
    Consumes w w' := by
  refine ⟨0, hmode, hwritten, hhead, ?_, ?_⟩
  · exact htaken.trans (List.append_nil _).symm
  · exact hreadable.trans (Int.sub_zero _).symm

theorem Consumes.of_seen (h : SameView World.seen w w') : Consumes w w' := by
  obtain ⟨hshared, hlog⟩ : w'.shared = w.shared ∧ w'.log = w.log := Prod.mk.inj h
  apply Consumes.of_view
  · rw [hshared]
    exact fun hmode => hmode
  · rw [hshared]
  · rw [hshared]
  · rw [hlog]
  · rw [hlog]

/-- What readers take are the first of the characters that are left. -/
theorem ConsumesN.lined {m : Nat} (h : Lined k t (takenChars w.log) (readable w.log) w.shared)
    (htakes : ConsumesN m w w') (hring : InRing (readable w'.log) w'.shared)
    (hn : 0 ≤ readable w'.log) :
    Lined k t (takenChars w'.log) (readable w'.log) w'.shared := by
  have hwritten := htakes.written
  unfold Ttycblk.written at hwritten
  simp only [Prod.mk.injEq] at hwritten
  obtain ⟨hkeys, -, hcursor, hbuff⟩ := hwritten
  have hreadable := htakes.fewer
  obtain ⟨rest, hlines, hlen, hwindow⟩ := h.held
  have hfirst : Ring.window tyIbuflen w.shared.tyibuff w.shared.tyihead m = rest.take m := by
    have hnonneg := h.ring.cursor_nonneg
    rw [Ring.window_eq_take w.shared.tyibuff w.shared.tyihead
      (m := (readable w.log + w.shared.tyicursor).toNat) (by omega), hwindow,
      List.take_append_of_le_length (by omega)]
  refine ⟨htakes.mode h.mode, hkeys.trans h.keys, hring, hcursor.trans h.cursor, rest.drop m,
    ?_, ?_, ?_⟩
  · rw [htakes.taken, hfirst, List.append_assoc, List.take_append_drop]
    exact hlines
  · rw [List.length_drop]
    omega
  · have hnonneg := h.ring.cursor_nonneg
    have hcount : (readable w.log + w.shared.tyicursor).toNat =
        m + (readable w'.log + w'.shared.tyicursor).toNat := by
      rw [hcursor]
      omega
    have hnext : wrapped tyIbuflen = Ring.next tyIbuflen := rfl
    have hlen' := Ring.length_window (n := tyIbuflen) w.shared.tyibuff w.shared.tyihead m
    rw [hcount, Ring.window_add] at hwindow
    have hdrop := congrArg (List.drop m) hwindow
    rw [List.drop_left' hlen', List.drop_append_of_le_length (by omega)] at hdrop
    rw [htakes.head, hbuff, hnext]
    exact hdrop

end Consumes

section Calls

variable {me : Int}

theorem modify_takes {f : Ttycblk → Ttycblk}
    (hf : ∀ d, (f d).written = d.written ∧ (f d).tyihead = d.tyihead) :
    (modify fun s : World Ttycblk TtyEvent => s.setShared f : TtyM PUnit).Within Consumes := by
  apply Coop.Within.modify
  intro w
  obtain ⟨hwritten, hhead⟩ := hf w.shared
  apply Consumes.of_view
  · exact fun hmode => (congrArg Prod.fst hwritten).trans hmode
  · exact congrArg Prod.snd hwritten
  · exact hhead
  · rfl
  · rfl

/-- An event is noted that concerns no reader, and what concerns the lines stays. -/
theorem Consumes.of_event {w : World Ttycblk TtyEvent} {f : Ttycblk → Ttycblk} {e : TtyEvent}
    (hf : (f w.shared).written = w.shared.written ∧ (f w.shared).tyihead = w.shared.tyihead)
    (he : e.gain = 0) (htaken : takenChars (w.log ++ [e]) = takenChars w.log) :
    Consumes w ((w.setShared f).note e) := by
  apply Consumes.of_view
  · exact fun hmode => (congrArg Prod.fst hf.1).trans hmode
  · exact congrArg Prod.snd hf.1
  · exact hf.2
  · exact htaken
  · show readable (w.log ++ [e]) = readable w.log
    rw [readable_snoc, he, Int.add_zero]

theorem wait_takes (me x : Int) : (World.wait me x : TtyM Int).Within Consumes :=
  fun w => (World.wait_seen me x w).mono fun _ _ => Consumes.of_seen

theorem signal_takes (x : Int) : (World.signal x : TtyM Int).Within Consumes :=
  fun w => (World.signal_seen x w).mono fun _ _ => Consumes.of_seen

theorem signaln_takes (x n : Int) : (World.signaln x n : TtyM Int).Within Consumes :=
  fun w => (World.signaln_seen x n w).mono fun _ _ => Consumes.of_seen

theorem Consumes.one (w : World Ttycblk TtyEvent) :
    Consumes w ((w.setShared fun d => { d with tyihead := wrapped tyIbuflen d.tyihead }).note
      (.taken (w.shared.tyibuff w.shared.tyihead))) :=
  ⟨1, fun hmode => hmode, rfl, rfl, takenChars_taken _ _, readable_snoc _ _⟩

theorem ttygetc_takes (me : Int) : (ttygetc me).Within Consumes := by
  apply Coop.Within.read
  intro w
  apply (wait_takes _ _).bind
  intro _ w
  rw [Coop.run_bind, Coop.run_get, Flow.bind_done, Coop.run_bind, Coop.run_modify,
    Flow.bind_done, Coop.run_ite]
  split
  · exact Consumes.one w
  · exact Consumes.one w

theorem ttyreadChars_takes (count : Nat) : (ttyreadChars me count).Within Consumes := by
  induction count with
  | zero => exact .pure _
  | succ count ih => exact (ttygetc_takes me).bind fun _ => ih.bind fun _ => .pure _

theorem ttyreadLine_takes (count : Nat) (ch : UInt8) :
    (ttyreadLine me count ch).Within Consumes := by
  induction count generalizing ch with
  | zero => exact .pure _
  | succ count ih =>
      apply Coop.Within.ite
      · exact (ttygetc_takes me).bind fun _ => (ih _).bind fun _ => .pure _
      · exact .pure _

theorem ttyread_takes (count : Int) : (ttyread me count).Within Consumes := by
  apply Coop.Within.ite
  · exact .pure _
  apply Coop.Within.read
  intro w
  apply Coop.Within.ite
  · apply Coop.Within.ite
    · exact .pure _
    · exact (ttyreadChars_takes _).bind fun _ => .pure _
  · apply (ttygetc_takes me).bind
    intro firstch
    apply Coop.Within.ite
    · exact .pure _
    · exact (ttyreadLine_takes _ _).bind fun _ => .pure _

theorem ttyputOne_takes (ch : UInt8) : (ttyputOne me ch).Within Consumes := by
  apply Coop.Within.read
  intro w
  apply (wait_takes _ _).bind
  intro _
  apply Coop.Within.modify
  intro w
  exact Consumes.of_event ⟨rfl, rfl⟩ rfl (by simp [takenChars])

theorem ttyputc_takes (ch : UInt8) : (ttyputc me ch).Within Consumes := by
  apply Coop.Within.read
  intro w
  apply Coop.Within.ite
  · exact (ttyputOne_takes _).bind fun _ => (ttyputOne_takes ch).bind fun _ => .pure _
  · exact (ttyputOne_takes ch).bind fun _ => .pure _

theorem ttywrite_takes (buff : List UInt8) : (ttywrite me buff).Within Consumes := by
  induction buff with
  | nil => exact .pure _
  | cons ch buff ih => exact (ttyputc_takes ch).bind fun _ => ih

/-- The control functions, but for those that leave cooked mode. -/
theorem ttycontrol_takes {func : Int} (hraw : func ≠ tcModer) (hcbreak : func ≠ tcModek) :
    (ttycontrol me func).Within Consumes := by
  have hecho : ∀ echo : Bool, (do
      modify (·.setShared fun d => { d with tyiecho := echo })
      return ok : TtyM Int).Within Consumes := by
    intro echo
    apply Coop.Within.bind
    · exact modify_takes fun _ => ⟨rfl, rfl⟩
    · exact fun _ => .pure _
  unfold ttycontrol
  apply Coop.Within.ite
  · apply Coop.Within.read
    intro w
    apply (wait_takes _ _).bind
    intro _
    apply Coop.Within.read
    intro w
    exact (signal_takes _).bind fun _ => .pure _
  rw [if_neg hraw]
  apply Coop.Within.ite
  · apply Coop.Within.bind
    · apply Coop.Within.modify
      intro w
      exact .of_view (fun _ => rfl) rfl rfl rfl rfl
    · exact fun _ => .pure _
  rw [if_neg hcbreak]
  apply Coop.Within.ite
  · exact Coop.Within.read fun _ => .pure _
  apply Coop.Within.ite
  · exact hecho true
  apply Coop.Within.ite
  · exact hecho false
  · exact .pure _

theorem sendChars_takes (n : Nat) : (sendChars n).Within Consumes := by
  induction n with
  | zero => exact .pure _
  | succ n ih =>
      apply Coop.Within.bind
      · apply Coop.Within.modify
        intro w
        have htakes : Consumes w ((w.setShared fun d =>
            { d with tyohead := wrapped tyObuflen d.tyohead }).note
              (.sent (w.shared.tyobuff w.shared.tyohead))) :=
          .of_event ⟨rfl, rfl⟩ rfl (by simp [takenChars])
        exact htakes
      · exact fun _ => ih

theorem turnOff_takes : turnOff.Within Consumes := by
  apply Coop.Within.read
  intro w
  apply Coop.Within.ite
  · exact modify_takes fun _ => ⟨rfl, rfl⟩
  · exact .pure _

theorem sendEcho_written (n : Nat) (uspace : Int) (d : Ttycblk) :
    (d.sendEcho n uspace).1.written = d.written ∧
      (d.sendEcho n uspace).1.tyihead = d.tyihead := by
  induction n generalizing uspace d with
  | zero => exact ⟨rfl, rfl⟩
  | succ n ih =>
      unfold Ttycblk.sendEcho
      split
      · exact ih (uspace - 1) { d with tyehead := wrapped tyEbuflen d.tyehead }
      · exact ⟨rfl, rfl⟩

theorem flushOut_takes (osem ochars : Int) : (flushOut osem ochars).Within Consumes := by
  apply (sendChars_takes _).bind
  intro _
  apply Coop.Within.ite
  · exact (signaln_takes _ _).bind fun _ => turnOff_takes
  · exact turnOff_takes

theorem ttyhandleOut_takes (level : Nat) : (ttyhandleOut level).Within Consumes := by
  apply Coop.Within.read
  intro w
  apply Coop.Within.ite
  · exact .pure _
  apply Coop.Within.read
  intro w
  apply Coop.Within.ite
  · apply Coop.Within.bind
    · exact modify_takes fun _ => ⟨rfl, rfl⟩
    · exact fun _ => .pure _
  intro w
  let r := w.shared.sendEcho (uartFifoSize - level).toNat (uartFifoSize - level)
  let w₁ := w.setShared fun _ => r.1
  have hnote : Consumes w (w₁.note (.flush r.2 (w₁.semcount w₁.shared.tyosem)
      (w₁.units w₁.shared.tyosem))) :=
    .of_event (sendEcho_written _ _ _) rfl (by simp [takenChars])
  exact (flushOut_takes _ _ _).after hnote

/-- Every call but typing and leaving cooked mode. -/
def TtyCall.Reads : TtyCall → Prop
  | .control func => func ≠ tcModer ∧ func ≠ tcModek
  | .interrupt (.rda _) => False
  | _ => True

theorem exec_takes {c : TtyCall} (hc : c.Reads) : (c.exec me).Within Consumes := by
  cases c with
  | putc ch => exact ttyputc_takes ch
  | write buff => exact ttywrite_takes buff
  | getc => exact ttygetc_takes me
  | read count => exact (ttyread_takes count).bind fun _ => .pure _
  | control func => exact ttycontrol_takes hc.1 hc.2
  | interrupt cause =>
      cases cause with
      | rlsi => exact .pure _
      | rda chars => exact hc.elim
      | thre level =>
          apply Coop.Within.read
          intro w
          apply Coop.Within.ite
          · exact (ttyhandleOut_takes level).bind fun _ => .pure _
          · exact .pure _
      | msc => exact .pure _

end Calls

/-! ## Typing -/

section Typing

variable {w s : World Ttycblk TtyEvent} {k : Keys} {t : Typed} {ch : UInt8}

/-- While rescheduling is deferred, the procedure ends without giving the processor away;
and it only adds events. -/
structure Handles {α : Type} (x : TtyM α) : Prop where
  prompt : World.Prompt x
  within : x.Within World.Logged

section Handles

variable {α β : Type} {x y : TtyM α}

theorem Handles.pure (a : α) : Handles (Pure.pure a : TtyM α) :=
  ⟨.pure a, .pure a⟩

theorem Handles.bind {f : α → TtyM β} (hx : Handles x) (hf : ∀ a, Handles (f a)) :
    Handles (x >>= f) :=
  ⟨hx.prompt.bind fun a => (hf a).prompt, hx.within.bind fun a => (hf a).within⟩

theorem Handles.read {f : World Ttycblk TtyEvent → TtyM β} (hf : ∀ w, Handles (f w)) :
    Handles (get >>= f) :=
  ⟨.read fun w => (hf w).prompt, .read fun w => (hf w).within⟩

theorem Handles.ite {c : Prop} [Decidable c] (hx : Handles x) (hy : Handles y) :
    Handles (if c then x else y) :=
  ⟨.ite hx.prompt hy.prompt, .ite hx.within hy.within⟩

theorem modify_handles (f : Ttycblk → Ttycblk) :
    Handles (modify fun s : World Ttycblk TtyEvent => s.setShared f : TtyM PUnit) :=
  ⟨modify_prompt f, modify_within f⟩

theorem tracePath_handles (path : InputPath) : Handles (tracePath path) :=
  ⟨.modify fun _ => rfl, .modify fun _ => .note _ _⟩

theorem signal_handles (x : Int) : Handles (World.signal x : TtyM Int) :=
  ⟨World.signal_prompt x, World.signal_within x⟩

theorem signaln_handles (x n : Int) : Handles (World.signaln x n : TtyM Int) :=
  ⟨World.signaln_prompt x n, World.signaln_within x n⟩

end Handles

theorem ttyhandleCooked_handles (ch : UInt8) : Handles (ttyhandleCooked ch) := by
  apply Handles.read
  intro w
  apply Handles.ite
  · exact (tracePath_handles _).bind fun _ => modify_handles _
  apply Handles.ite
  · apply Handles.ite
    · exact (tracePath_handles _).bind fun _ => modify_handles _
    · exact .pure _
  apply Handles.ite
  · apply (tracePath_handles _).bind
    intro _
    apply (modify_handles _).bind
    intro _
    exact (signaln_handles _ _).bind fun _ => modify_handles _
  apply Handles.read
  intro w
  apply Handles.ite
  · exact modify_handles _
  apply Handles.ite
  · apply Handles.ite
    · exact modify_handles _
    · apply (tracePath_handles _).bind
      intro _
      apply (modify_handles _).bind
      intro _
      exact (signal_handles _).bind fun _ => .pure _
  · exact (tracePath_handles _).bind fun _ => modify_handles _

theorem ttyhandleIn_handles (ch : UInt8) : Handles (ttyhandleIn ch) := by
  apply Handles.read
  intro w
  apply Handles.ite
  · apply Handles.ite
    · exact .pure _
    · apply (tracePath_handles _).bind
      intro _
      apply (modify_handles _).bind
      intro _
      apply (modify_handles _).bind
      intro _
      exact (signal_handles _).bind fun _ => .pure _
  apply Handles.ite
  · exact modify_handles _
  apply Handles.ite
  · exact modify_handles _
  apply (modify_handles _).bind
  intro _
  apply Handles.ite
  · apply Handles.ite
    · exact modify_handles _
    · exact (tracePath_handles _).bind fun _ => modify_handles _
  · exact ttyhandleCooked_handles _

theorem ttyhandleAll_handles (chars : List UInt8) : Handles (ttyhandleAll chars) := by
  induction chars with
  | nil => exact .pure _
  | cons ch chars ih => exact (ttyhandleIn_handles ch).bind fun _ => ih

/-- Units are signaled while rescheduling is deferred. -/
theorem signaln_still {x n : Int} (hdefer : 0 < w.ndefers) :
    ∃ r s, World.signaln x n w = .done r s ∧ s.shared = w.shared ∧ s.log = w.log := by
  obtain ⟨r, s, hrun, -⟩ := World.signaln_prompt x n w hdefer
  have hseen := World.signaln_seen x n w
  rw [hrun] at hseen
  obtain ⟨hshared, hlog⟩ : s.shared = w.shared ∧ s.log = w.log := Prod.mk.inj hseen
  exact ⟨r, s, hrun, hshared, hlog⟩

/-- The lines of a terminal. -/
abbrev LinedIn (k : Keys) (t : Typed) (w : World Ttycblk TtyEvent) : Prop :=
  Lined k t (takenChars w.log) (readable w.log) w.shared

/-- The character took a path that goes right. -/
theorem LinedIn.path (path : InputPath) (hlog : s.log = w.log ++ [pathEvent path w])
    (hall : s.AllEvents TtyEvent.Orderly)
    (hlined : path.Orderly w.shared.tyitail w.shared.tyicursor (w.units w.shared.tyisem) →
      Lined k t (takenChars w.log) (readable w.log + path.gain w.shared.tyicursor) s.shared) :
    LinedIn k t s := by
  have horderly : (pathEvent path w).Orderly := by
    apply hall
    rw [hlog]
    exact List.mem_append_right _ (List.mem_singleton_self _)
  have htaken : takenChars s.log = takenChars w.log := by
    rw [hlog]
    exact takenChars_input _ _ _ _ _
  have hreadable : readable s.log = readable w.log + path.gain w.shared.tyicursor := by
    rw [hlog]
    exact readable_snoc _ _
  unfold LinedIn
  rw [htaken, hreadable]
  exact hlined horderly

/-- The character is placed in the buffer although it does not finish the line, and there
is no room for it. -/
def Refused (w : World Ttycblk TtyEvent) (ch : UInt8) : Prop :=
  w.shared.keys.Inside (w.shared.keys.mapped ch) ∧
    max (w.semcount w.shared.tyisem) 0 + w.shared.tyicursor ≥ tyIbuflen - 1

instance (w : World Ttycblk TtyEvent) (ch : UInt8) : Decidable (Refused w ch) :=
  inferInstanceAs (Decidable (_ ∧ _))

theorem tracePath_bind {α : Type} (path : InputPath) (x : Unit → TtyM α) :
    (tracePath path >>= x) w = x () (w.note (pathEvent path w)) :=
  rfl

/-- The path makes characters readable, whose units are signaled. -/
theorem loud_done {path : InputPath} {f g : Ttycblk → Ttycblk} {x n : Int}
    (hdefer : 0 < w.ndefers)
    (hrun : ((World.signaln x n ((w.note (pathEvent path w)).setShared f)).bind fun _ =>
      (modify fun s : World Ttycblk TtyEvent => s.setShared g : TtyM Unit)) = .done () s) :
    s.shared = g (f w.shared) ∧ s.log = w.log ++ [pathEvent path w] := by
  obtain ⟨r, s', hsignal, hshared, hlog⟩ := signaln_still (x := x) (n := n)
    (w := (w.note (pathEvent path w)).setShared f) hdefer
  rw [hsignal, Flow.bind_done] at hrun
  obtain ⟨-, rfl⟩ := Flow.done.inj hrun
  exact ⟨congrArg g hshared, hlog⟩

/-- A character that arrives in cooked mode does to the lines what the reference does. -/
theorem ttyhandleCooked_lined (h : LinedIn k t w) (hn : 0 ≤ readable w.log)
    (hunits : w.units w.shared.tyisem = readable w.log) (hdefer : 0 < w.ndefers)
    (hflow : ¬ k.Flow ch)
    (hroom : k.Inside ch →
      ¬ max (w.semcount w.shared.tyisem) 0 + w.shared.tyicursor ≥ tyIbuflen - 1)
    (hrun : ttyhandleCooked ch w = .done () s) (hall : s.AllEvents TtyEvent.Orderly) :
    LinedIn k (k.edit t ch) s := by
  have hkeys := h.keys
  subst hkeys
  unfold ttyhandleCooked at hrun
  unfold Keys.edit
  rw [if_neg hflow]
  rw [Coop.run_bind, Coop.run_get, Flow.bind_done, Coop.run_ite] at hrun
  by_cases hkill : ch = w.shared.tyikillc ∧ w.shared.tyikill = true
  · rw [if_pos hkill] at hrun
    rw [if_pos (show ch = w.shared.keys.tyikillc ∧ w.shared.keys.tyikill = true from hkill)]
    obtain ⟨-, rfl⟩ := Flow.done.inj hrun
    apply LinedIn.path (w := w) .kill rfl hall
    intro hle
    rw [show InputPath.kill.gain w.shared.tyicursor = 0 from rfl, Int.add_zero]
    exact ((h.killLine hn hle).eputc _).eputc _
  rw [if_neg hkill, Coop.run_ite] at hrun
  rw [if_neg (show ¬ (ch = w.shared.keys.tyikillc ∧ w.shared.keys.tyikill = true) from hkill)]
  by_cases herase : ch = w.shared.tyierasec ∧ w.shared.tyierase = true
  · rw [if_pos herase, Coop.run_ite] at hrun
    rw [if_pos (show ch = w.shared.keys.tyierasec ∧ w.shared.keys.tyierase = true from herase)]
    by_cases hpos : w.shared.tyicursor > 0
    · rw [if_pos hpos] at hrun
      obtain ⟨-, rfl⟩ := Flow.done.inj hrun
      apply LinedIn.path (w := w) .erase rfl hall
      intro _
      rw [show InputPath.erase.gain w.shared.tyicursor = 0 from rfl, Int.add_zero]
      exact h.erase1 hn hpos
    · rw [if_neg hpos] at hrun
      obtain ⟨-, rfl⟩ := Flow.done.inj hrun
      have hzero : w.shared.tyicursor = 0 := by
        have hnonneg := h.ring.cursor_nonneg
        omega
      rw [Typed.erase_nil (h.line_nil.mpr hzero)]
      exact h
  rw [if_neg herase, Coop.run_ite] at hrun
  rw [if_neg (show ¬ (ch = w.shared.keys.tyierasec ∧ w.shared.keys.tyierase = true) from herase)]
  by_cases heol : ch = tyNewline ∨ ch = tyReturn
  · rw [if_pos heol] at hrun ⊢
    obtain ⟨hshared, hlog⟩ := loud_done (f := fun d => (d.echoIf ch).store ch)
      (g := fun d => { d with tyicursor := 0 }) hdefer hrun
    apply LinedIn.path (w := w) .eol hlog hall
    intro hlt
    rw [hunits] at hlt
    rw [hshared]
    rw [← cursor_echoIf w.shared ch] at hlt ⊢
    exact h.echoIf.eol hlt
  rw [if_neg heol, Coop.run_bind, Coop.run_get, Flow.bind_done, Coop.run_ite] at hrun
  rw [if_neg heol]
  rw [if_neg (hroom ⟨hflow, hkill, herase, heol⟩), Coop.run_ite] at hrun
  by_cases heof : ch = w.shared.tyeofch ∧ w.shared.tyeof = true
  · rw [if_pos heof, Coop.run_ite] at hrun
    rw [if_pos (show ch = w.shared.keys.tyeofch ∧ w.shared.keys.tyeof = true from heof)]
    by_cases hcursor : w.shared.tyicursor ≠ 0
    · rw [if_pos hcursor] at hrun
      rw [if_neg (fun hline => hcursor (h.line_nil.mp hline))]
      obtain ⟨-, rfl⟩ := Flow.done.inj hrun
      exact h.echoIf
    · rw [if_neg hcursor] at hrun
      have hline := h.line_nil.mpr (not_not.mp hcursor)
      rw [if_pos hline]
      rw [tracePath_bind, Coop.run_bind, Coop.run_modify, Flow.bind_done, Coop.run_bind,
        World.signal_eq_signaln] at hrun
      obtain ⟨hshared, hlog⟩ := loud_done (f := fun d => (d.echoIf ch).storeRaw ch) (g := id)
        hdefer hrun
      apply LinedIn.path (w := w) .eof hlog hall
      intro horderly
      rw [hunits] at horderly
      rw [hshared]
      rw [← cursor_echoIf w.shared ch, ← tail_echoIf w.shared ch] at horderly
      exact h.echoIf.eof hline horderly.1 horderly.2
  · rw [if_neg heof] at hrun
    rw [if_neg (show ¬ (ch = w.shared.keys.tyeofch ∧ w.shared.keys.tyeof = true) from heof)]
    obtain ⟨-, rfl⟩ := Flow.done.inj hrun
    apply LinedIn.path (w := w) .text rfl hall
    intro hlt
    rw [hunits, ← cursor_echoIf w.shared ch] at hlt
    rw [show InputPath.text.gain w.shared.tyicursor = 0 from rfl, Int.add_zero]
    have htext := @Lined.text _ _ _ _ _ ch h.echoIf hlt
    rw [cursor_echoIf] at htext
    exact htext

theorem LinedIn.setShared (h : LinedIn k t w) {f : Ttycblk → Ttycblk}
    (hf : ∀ d, (f d).written = d.written ∧ (f d).input = d.input) :
    LinedIn k t (w.setShared f) := by
  obtain ⟨hwritten, hinput⟩ := hf w.shared
  have hring := h.ring.congr hinput
  unfold Ttycblk.input at hinput
  simp only [Prod.mk.injEq] at hinput
  exact Lined.congr h hwritten hinput.2.2.1 hring

theorem ttyhandleIn_lined (h : LinedIn k t w) (hn : 0 ≤ readable w.log)
    (hunits : w.units w.shared.tyisem = readable w.log) (hdefer : 0 < w.ndefers)
    (haccepted : ¬ Refused w ch) (hrun : ttyhandleIn ch w = .done () s)
    (hall : s.AllEvents TtyEvent.Orderly) : LinedIn k (k.edit t (k.mapped ch)) s := by
  have hkeys := h.keys
  subst hkeys
  have hcooked : ∀ mode, mode ≠ InputMode.cooked → ¬ w.shared.tyimode = mode := by
    intro mode hmode heq
    exact hmode (heq.symm.trans h.mode)
  unfold ttyhandleIn at hrun
  rw [Coop.run_bind, Coop.run_get, Flow.bind_done, Coop.run_ite,
    if_neg (hcooked .raw (by decide))] at hrun
  have hmapped : (if ch = tyReturn ∧ w.shared.tyicrlf = true then tyNewline else ch) =
      w.shared.keys.mapped ch := rfl
  rw [hmapped] at hrun
  generalize hc : w.shared.keys.mapped ch = c at hrun ⊢
  have hflow : w.shared.keys.Flow c → w.shared.keys.edit t c = t := fun hflow => if_pos hflow
  by_cases hstart : w.shared.tyoflow = true ∧ c = w.shared.tyostart
  · rw [Coop.run_ite, if_pos hstart] at hrun
    obtain ⟨-, rfl⟩ := Flow.done.inj hrun
    rw [hflow ⟨hstart.1, Or.inl hstart.2⟩]
    exact h.setShared fun _ => ⟨rfl, rfl⟩
  rw [Coop.run_ite, if_neg hstart] at hrun
  by_cases hstop : w.shared.tyoflow = true ∧ c = w.shared.tyostop
  · rw [Coop.run_ite, if_pos hstop] at hrun
    obtain ⟨-, rfl⟩ := Flow.done.inj hrun
    rw [hflow ⟨hstop.1, Or.inr hstop.2⟩]
    exact h.setShared fun _ => ⟨rfl, rfl⟩
  rw [Coop.run_ite, if_neg hstop, Coop.run_bind, Coop.run_modify, Flow.bind_done, Coop.run_ite,
    if_neg (hcooked .cbreak (by decide))] at hrun
  have hnoflow : ¬ w.shared.keys.Flow c := by
    rintro ⟨hon, heq | heq⟩
    · exact hstart ⟨hon, heq⟩
    · exact hstop ⟨hon, heq⟩
  have hheld : LinedIn w.shared.keys t (w.setShared fun d => { d with tyoheld := false }) :=
    h.setShared fun _ => ⟨rfl, rfl⟩
  apply ttyhandleCooked_lined hheld hn hunits hdefer hnoflow _ hrun hall
  intro hinside hfull
  apply haccepted
  rw [Refused, hc]
  exact ⟨hinside, hfull⟩

/-- No character is refused. -/
def Accepted : List UInt8 → World Ttycblk TtyEvent → Prop
  | [], _ => True
  | ch :: chars, w => ¬ Refused w ch ∧
      match ttyhandleIn ch w with
      | .done _ s => Accepted chars s
      | _ => True

instance accepted_decidable : ∀ chars w, Decidable (Accepted chars w)
  | [], _ => instDecidableTrue
  | ch :: chars, w =>
    have : Decidable (match ttyhandleIn ch w with
        | .done _ s => Accepted chars s
        | _ => True) :=
      match ttyhandleIn ch w with
      | .done _ s => accepted_decidable chars s
      | .suspended _ _ => instDecidableTrue
      | .halted _ => instDecidableTrue
      | .stuck => instDecidableTrue
    inferInstanceAs (Decidable (_ ∧ _))

theorem ttyhandleAll_lined {o : Int} {L : Int → Option InputPlace} {chars : List UInt8}
    (hserving : Serving o w L) (h : LinedIn k t w) (haccepted : Accepted chars w)
    (hrun : ttyhandleAll chars w = .done () s) (hall : s.AllEvents TtyEvent.Orderly) :
    LinedIn k (k.type t chars) s := by
  induction chars generalizing w t with
  | nil =>
      obtain ⟨-, rfl⟩ := Flow.done.inj hrun
      exact h
  | cons ch chars ih =>
      obtain ⟨u, s₁, hfirst, hserving₁⟩ := ttyhandleIn_serves hserving ch
      obtain ⟨hnot, hrest⟩ := haccepted
      rw [hfirst] at hrest
      unfold ttyhandleAll at hrun
      rw [Coop.run_bind, hfirst, Flow.bind_done] at hrun
      have hlog₁ : World.Logged w s₁ := by
        have hlog := (ttyhandleIn_handles ch).within w
        rwa [hfirst] at hlog
      have hlog : World.Logged s₁ s := by
        have hlog := (ttyhandleAll_handles chars).within s₁
        rwa [hrun] at hlog
      have hall₁ := hall.of_logged hlog
      have hinv := hserving.inv false (hall₁.of_logged hlog₁)
      have hisem : w.shared.tyisem = o := hinv.isem
      have hunits : w.units o + 0 = readable w.log := hinv.supply.units
      have hdefer := hserving.ndefers
      apply ih hserving₁ _ hrest hrun
      apply ttyhandleIn_lined h hinv.nonneg _ (by omega) hnot hfirst hall₁
      rw [hisem]
      omega

end Typing

/-! ## Segments -/

section Segments

variable {me : Int} {w : World Ttycblk TtyEvent}

/-- What a segment does: it takes characters, or it handles those that were typed. -/
structure Lining (seg : Segment (World Ttycblk TtyEvent) TtyCall) : Prop where
  reading : seg.resumed = true ∨ seg.call.Reads → Consumes seg.before seg.after
  typing : ∀ chars, seg.resumed = false → seg.call = .interrupt (.rda chars) →
    seg.before.ndefers = 0 → ∃ s,
      ttyhandleAll chars { seg.before with ndefers := 1, attempt := false } = .done () s ∧
        SameView World.seen s seg.after

theorem reschedCntl_started (w : World Ttycblk TtyEvent) :
    ∃ s, World.reschedCntl deferStart w = .done ok s ∧ 0 < s.ndefers ∧
      (w.ndefers = 0 → s = { w with ndefers := 1, attempt := false }) := by
  by_cases hdefer : w.ndefers = 0
  · exact ⟨_, World.reschedCntl_start hdefer, Nat.one_pos, fun _ => rfl⟩
  · refine ⟨{ w with ndefers := w.ndefers + 1 }, ?_, Nat.succ_pos _, fun h => (hdefer h).elim⟩
    simp [World.reschedCntl, hdefer]

/-- The calls that leave cooked mode do not wait. -/
theorem not_reads (me : Int) {c : TtyCall} (hc : ¬ c.Reads) :
    (∃ chars, c = .interrupt (.rda chars)) ∨
      ((∀ chars, c ≠ .interrupt (.rda chars)) ∧ ∃ s, c.exec me w = .done ok s) := by
  cases c with
  | control func =>
      have hfunc : func = tcModer ∨ func = tcModek := by
        by_contra hno
        exact hc (not_or.mp hno)
      refine Or.inr ⟨fun _ heq => TtyCall.noConfusion heq, ?_⟩
      rcases hfunc with rfl | rfl
      · exact ⟨_, rfl⟩
      · exact ⟨_, rfl⟩
  | interrupt cause =>
      cases cause with
      | rda chars => exact Or.inl ⟨chars, rfl⟩
      | _ => exact (hc trivial).elim
  | _ => exact (hc trivial).elim

theorem exec_lining (me : Int) (w : World Ttycblk TtyEvent) (c : TtyCall) :
    (ttyCrew.solo me).Obeys Lining c (ttyCrew.exec me c w) false w := by
  by_cases hreads : c.Reads
  · have hnot : ∀ chars, c ≠ .interrupt (.rda chars) := by
      rintro chars rfl
      exact hreads
    apply Machine.obeys_within (exec_takes hreads w)
    · exact fun s o h => ⟨fun _ => h, fun chars _ heq => (hnot chars heq).elim⟩
    · exact fun s₁ s o h => ⟨fun _ => h, fun _ hno => (Bool.false_ne_true hno.symm).elim⟩
  rcases not_reads (w := w) me hreads with ⟨chars, rfl⟩ | ⟨hnot, s, hdone⟩
  · obtain ⟨s₁, hstart, hpos, heq⟩ := reschedCntl_started w
    obtain ⟨u, s, hrun, -⟩ := (ttyhandleAll_handles chars).prompt s₁ hpos
    have hexec : ttyCrew.exec me (.interrupt (.rda chars)) w = World.reschedCntl deferStop s := by
      show ttyhandler (.rda chars) w = _
      rw [ttyhandler, Coop.run_bind, hstart, Flow.bind_done, Coop.run_bind, hrun, Flow.bind_done]
    rw [hexec]
    apply Machine.obeys_within (World.reschedCntl_seen deferStop s)
    · intro s' o h
      refine ⟨fun hno => (hno.elim Bool.false_ne_true hreads).elim, ?_⟩
      intro chars' _ hchars hzero
      obtain rfl : chars = chars' := by simpa using hchars
      rw [heq hzero] at hrun
      exact ⟨s, hrun, h⟩
    · exact fun s₂ s' o h =>
        ⟨fun _ => .of_seen h, fun _ hno => (Bool.false_ne_true hno.symm).elim⟩
  · have hexec : ttyCrew.exec me c w = .done ok s := hdone
    rw [hexec]
    refine ⟨fun hno => (hno.elim Bool.false_ne_true hreads).elim, ?_⟩
    exact fun chars _ heq => (hnot chars heq).elim

end Segments

/-! ## What readers return -/

namespace Keys

/-- The character is an end of file. -/
def IsEof (k : Keys) (ch : UInt8) : Prop :=
  k.tyeof = true ∧ ch = k.tyeofch

instance (k : Keys) (ch : UInt8) : Decidable (k.IsEof ch) :=
  inferInstanceAs (Decidable (_ ∧ _))

/-- The result of `ttygetc` for a character. -/
def result (k : Keys) (ch : UInt8) : Int :=
  if k.IsEof ch then ttyEof else ch.toNat

/-- The characters that a reader took and what it returns: an end of file if that is the
first one, and the characters otherwise. -/
def Returned (k : Keys) (count : Int) (r : Int × List UInt8) : List UInt8 → Prop
  | [] => count < 0 ∧ r = (syserr, [])
  | ch :: chars =>
      if k.IsEof ch then chars = [] ∧ r = (ttyEof, [])
      else r = ((chars.length : Int) + 1, ch :: chars.map fun c => UInt8.ofInt (k.result c))

end Keys

/-- The terminal is in cooked mode with these settings. -/
def CookedWith (k : Keys) (w : World Ttycblk TtyEvent) : Prop :=
  w.shared.tyimode = .cooked ∧ w.shared.keys = k

section Returns

variable {me : Int} {w : World Ttycblk TtyEvent} {k : Keys} {old : List UInt8}

theorem ofInt_toNat (ch : UInt8) : UInt8.ofInt ch.toNat = ch := by
  have hlt : ch.toNat < 256 := ch.toNat_lt
  unfold UInt8.ofInt
  rw [Int.emod_eq_of_lt (by omega) (by omega), Int.toNat_natCast, UInt8.ofNat_toNat]

theorem ttygetc_collects (h : CookedWith k w) :
    (ttygetc me w).Collects (CookedWith k) (fun w => takenChars w.log)
      (fun v s l => CookedWith k s ∧ ∃ ch, l = old ++ [ch] ∧ v = k.result ch) old w := by
  have hwait : (World.wait me w.shared.tyisem w).Collects (CookedWith k)
      (fun w => takenChars w.log) (fun _ s l => CookedWith k s ∧ l = old) old w := by
    apply Flow.Collects.of_within (World.wait_seen me _ w) h
    · intro s s' hs hseen
      unfold CookedWith
      rw [show s'.shared = s.shared from congrArg Prod.fst hseen]
      exact hs
    · intro s s' hseen
      rw [show s'.log = s.log from congrArg Prod.snd hseen]
  unfold ttygetc
  rw [Coop.run_bind, Coop.run_get, Flow.bind_done, Coop.run_bind]
  apply hwait.bind
  rintro _ s l ⟨⟨hmode, rfl⟩, rfl⟩
  rw [Coop.run_bind, Coop.run_get, Flow.bind_done, Coop.run_bind, Coop.run_modify,
    Flow.bind_done, Coop.run_ite]
  have htaken := takenChars_taken s.log (s.shared.tyibuff s.shared.tyihead)
  have heof : (s.shared.tyimode = .cooked ∧ s.shared.tyeof = true ∧
      s.shared.tyibuff s.shared.tyihead = s.shared.tyeofch) ↔
        s.shared.keys.IsEof (s.shared.tyibuff s.shared.tyihead) :=
    ⟨fun h => h.2, fun h => ⟨hmode, h⟩⟩
  split
  · next hyes =>
      exact ⟨_, htaken, ⟨hmode, rfl⟩, _, rfl, (if_pos (heof.mp hyes)).symm⟩
  · next hno =>
      exact ⟨_, htaken, ⟨hmode, rfl⟩, _, rfl, (if_neg fun h => hno (heof.mpr h)).symm⟩

theorem ttyreadLine_collects (count : Nat) (ch : UInt8) (h : CookedWith k w) :
    (ttyreadLine me count ch w).Collects (CookedWith k) (fun w => takenChars w.log)
      (fun r _ l => ∃ chars, l = old ++ chars ∧
        r = chars.map fun c => UInt8.ofInt (k.result c)) old w := by
  induction count generalizing ch old w with
  | zero => exact ⟨[], (List.append_nil _).symm, [], rfl, rfl⟩
  | succ count ih =>
      unfold ttyreadLine
      rw [Coop.run_ite]
      split
      · rw [Coop.run_bind]
        apply (ttygetc_collects h).bind
        rintro v s l ⟨hs, c, rfl, rfl⟩
        rw [Coop.run_bind]
        apply (ih _ hs).bind
        rintro r s' l' ⟨chars, rfl, rfl⟩
        refine ⟨[], (List.append_nil _).symm, c :: chars, ?_, rfl⟩
        rw [List.append_nil, List.append_assoc]
        rfl
      · exact ⟨[], (List.append_nil _).symm, [], rfl, rfl⟩

/-- A reader in cooked mode returns the characters that it takes itself, whatever happens
while it waits. -/
theorem ttyread_returns (count : Int) (h : CookedWith k w) :
    (ttyread me count w).Collects (CookedWith k) (fun w => takenChars w.log)
      (fun r _ chars => k.Returned count r chars) [] w := by
  unfold ttyread
  rw [Coop.run_ite]
  split
  · next hneg => exact ⟨[], (List.append_nil _).symm, hneg, rfl⟩
  rw [Coop.run_bind, Coop.run_get, Flow.bind_done, Coop.run_ite, if_neg (not_not.mpr h.1),
    Coop.run_bind]
  apply (ttygetc_collects h).bind
  rintro v s l ⟨hs, ch, rfl, rfl⟩
  rw [Coop.run_ite]
  have hbyte : ¬ k.IsEof ch → UInt8.ofInt (k.result ch) = ch := by
    intro hno
    rw [Keys.result, if_neg hno]
    exact ofInt_toNat ch
  split
  · next heof =>
      have hyes : k.IsEof ch := by
        by_contra hno
        rw [Keys.result, if_neg hno] at heof
        unfold ttyEof at heof
        omega
      refine ⟨[], (List.append_nil _).symm, ?_⟩
      show Keys.Returned k count _ [ch]
      rw [Keys.Returned, if_pos hyes]
      exact ⟨rfl, rfl⟩
  · next hnot =>
      have hno : ¬ k.IsEof ch := by
        intro hyes
        apply hnot
        rw [Keys.result, if_pos hyes]
      rw [Coop.run_bind]
      apply (ttyreadLine_collects _ _ hs).bind
      rintro r s' l ⟨chars, rfl, rfl⟩
      refine ⟨[], (List.append_nil _).symm, ?_⟩
      show Keys.Returned k count _ (ch :: chars ++ [])
      rw [List.append_nil, Keys.Returned, if_neg hno, hbyte hno, List.length_map]

end Returns

/-! ## Runs -/

/-- Cooked mode is not left, and no character is refused. -/
def TtyCall.Cooked (w : World Ttycblk TtyEvent) : TtyCall → Prop
  | .control func => func ≠ tcModer ∧ func ≠ tcModek
  | .interrupt (.rda chars) => Accepted chars { w with ndefers := 1, attempt := false }
  | _ => True

instance (w : World Ttycblk TtyEvent) : DecidablePred (TtyCall.Cooked w) := fun c =>
  match c with
  | .control _ => inferInstanceAs (Decidable (_ ∧ _))
  | .interrupt (.rda chars) => accepted_decidable chars _
  | .putc _ | .write _ | .getc | .read _ | .interrupt .rlsi | .interrupt (.thre _) |
    .interrupt .msc => instDecidableTrue

/-- The terminal stays in cooked mode, and no character is refused. -/
def CookedSegment (seg : Segment (World Ttycblk TtyEvent) TtyCall) : Prop :=
  seg.resumed = false → seg.call.Cooked seg.before

instance : DecidablePred CookedSegment := fun seg =>
  inferInstanceAs (Decidable (seg.resumed = false → seg.call.Cooked seg.before))

section Runs

variable {w : World Ttycblk TtyEvent}

variable {tr : List (Segment (World Ttycblk TtyEvent) TtyCall)}

variable {C : Config (World Ttycblk TtyEvent) TtyCall}

theorem TtyStart.linedIn (h : TtyStart w) (hmode : w.shared.tyimode = .cooked) :
    LinedIn w.shared.keys ⟨[], []⟩ w := by
  have hreadable : readable w.log = 0 := by
    rw [h.log]
    rfl
  refine ⟨hmode, rfl, h.inInv.ring, h.icursor, [], ?_, hreadable.symm, ?_⟩
  · rw [h.log]
    rfl
  · rw [hreadable, h.icursor]
    rfl

theorem typed_snoc (tr : List (Segment (World Ttycblk TtyEvent) TtyCall))
    (seg : Segment (World Ttycblk TtyEvent) TtyCall) :
    typed (tr ++ [seg]) = typed tr ++ typed [seg] :=
  List.flatMap_append

theorem Keys.type_append (k : Keys) (t : Typed) (chars more : List UInt8) :
    k.type t (chars ++ more) = k.type (k.type t chars) more :=
  List.foldl_append

theorem TtyCall.Cooked.reads_or_typed {c : TtyCall} (h : c.Cooked w) :
    c.Reads ∨ ∃ chars, c = .interrupt (.rda chars) := by
  cases c with
  | control func => exact Or.inl h
  | interrupt cause =>
      cases cause with
      | rda chars => exact Or.inr ⟨chars, rfl⟩
      | _ => exact Or.inl trivial
  | _ => exact Or.inl trivial

/-- Nothing is typed where a call is resumed or reads. -/
theorem typed_reading {seg : Segment (World Ttycblk TtyEvent) TtyCall}
    (h : seg.resumed = true ∨ seg.call.Reads) : typed [seg] = [] := by
  obtain ⟨who, call, resumed, before, outcome, after⟩ := seg
  cases resumed with
  | true => rfl
  | false =>
      have hreads : call.Reads := h.resolve_left Bool.false_ne_true
      cases call with
      | interrupt cause =>
          cases cause with
          | rda chars => exact hreads.elim
          | _ => rfl
      | _ => rfl

/-- A segment keeps the lines. -/
theorem segment_lined {seg : Segment (World Ttycblk TtyEvent) TtyCall} {k : Keys} {t : Typed}
    {o : Int} {L L' : Int → Option InputPlace} (h : LinedIn k t seg.before)
    (hI : InInv o 0 seg.before L) (hI' : InInv o 0 seg.after L') (hseg : Lining seg)
    (hcooked : CookedSegment seg) (hall : seg.after.AllEvents TtyEvent.Orderly) :
    LinedIn k (k.type t (typed [seg])) seg.after := by
  have hkind : (seg.resumed = true ∨ seg.call.Reads) ∨
      seg.resumed = false ∧ ∃ chars, seg.call = .interrupt (.rda chars) := by
    by_cases hres : seg.resumed = true
    · exact Or.inl (Or.inl hres)
    · have hfresh : seg.resumed = false := by simpa using hres
      rcases (hcooked hfresh).reads_or_typed with hreads | hchars
      · exact Or.inl (Or.inr hreads)
      · exact Or.inr ⟨hfresh, hchars⟩
  rcases hkind with hreading | ⟨hfresh, chars, hchars⟩
  · obtain ⟨m, hm⟩ := hseg.reading hreading
    rw [typed_reading hreading]
    exact hm.lined h hI'.ring hI'.nonneg
  · have htyped : typed [seg] = chars := by simp [typed, hfresh, hchars]
    have haccepted := hcooked hfresh
    rw [hchars] at haccepted
    have hdefer := hI.supply.tidy.ndefers
    obtain ⟨s, hrun, hseen⟩ := hseg.typing chars hfresh hchars hdefer
    obtain ⟨hshared, hlog⟩ : seg.after.shared = s.shared ∧ seg.after.log = s.log :=
      Prod.mk.inj hseen
    have horderly : s.AllEvents TtyEvent.Orderly := by
      unfold World.AllEvents
      rw [← hlog]
      exact hall
    have hserving : Serving o { seg.before with ndefers := 1, attempt := false } L :=
      World.Deferred.start hdefer fun b _ =>
        hI.of_supply rfl rfl (hI.supply.congr (hI.supply.tidy.congr rfl rfl rfl rfl) rfl rfl)
    rw [htyped]
    unfold LinedIn
    rw [hshared, hlog]
    exact ttyhandleAll_lined hserving h haccepted hrun horderly

/-- The lines are kept in every run. -/
theorem run_lined (hstart : TtyStart w) (hmode : w.shared.tyimode = .cooked)
    (hrun : ttyCrew.Run (fun _ seg => CookedSegment seg ∧ seg.after.AllEvents TtyEvent.Orderly)
      (Machine.initial w) tr C) :
    LinedIn w.shared.keys (w.shared.keys.type ⟨[], []⟩ (typed tr)) C.state := by
  have hlining := Crew.run_obeys exec_lining hrun
  induction hrun with
  | start => exact hstart.linedIn hmode
  | @step tr C C' seg p hrun hready hstep hrule ih =>
      have hold := ih fun seg' hmem => hlining seg' (List.mem_append_left _ hmem)
      have hseg := hlining seg (List.mem_append_right _ (List.mem_singleton_self _))
      obtain ⟨hbefore, hafter, -⟩ := hstep.segment
      have horderly := hrun.mono fun _ _ h => h.2
      obtain ⟨L, hI⟩ := run_inInv hstart horderly
      obtain ⟨L', hI'⟩ := run_inInv hstart (.step horderly hready hstep hrule.2)
      rw [← hbefore] at hold hI
      rw [← hafter] at hI' ⊢
      rw [typed_snoc, Keys.type_append]
      exact segment_lined hold hI hI' hseg hrule.1 hrule.2

end Runs

/-- A line is killed. -/
def TtyEvent.Kills : TtyEvent → Prop
  | .input .kill _ _ _ => True
  | _ => False

instance : DecidablePred TtyEvent.Kills := fun e =>
  match e with
  | .input .kill _ _ _ => instDecidableTrue
  | .input .raw _ _ _ | .input .cbreak _ _ _ | .input .erase _ _ _ | .input .eol _ _ _ |
    .input .eof _ _ _ | .input .text _ _ _ => instDecidableFalse
  | .put _ | .sent _ | .flush _ _ _ | .taken _ => instDecidableFalse

end Xinu
