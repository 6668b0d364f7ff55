import Xinu.Device.TtyOutput

/-!
# The input buffer of a terminal

A character that arrives takes one of seven paths through the input handler.  Each path
moves the pointers, the cursor and the semaphore by itself.

Main results:

- Theorem `tty_input`: if no path goes wrong, the pointers stay in the buffer, which holds
  the characters that may be read and those of the current line, and the semaphore counts
  those that may be read.
- Theorem `tty_cbreak`: a character that arrives in cbreak mode is not counted.
-/

namespace Xinu

open Foundations Function

/-- The number of characters that become readable. -/
def InputPath.gain (cursor : Int) : InputPath → Int
  | .raw | .cbreak | .eof => 1
  | .eol => cursor + 1
  | .kill | .erase | .text => 0

def TtyEvent.gain : TtyEvent → Int
  | .input path _ cursor _ => path.gain cursor
  | .taken _ => -1
  | _ => 0

/-- The number of characters that may be read: those of finished lines, and those that
arrived in raw and cbreak mode, without those that were taken. -/
def readable (log : List TtyEvent) : Int :=
  (log.map TtyEvent.gain).sum

theorem readable_snoc (log : List TtyEvent) (e : TtyEvent) :
    readable (log ++ [e]) = readable log + e.gain := by
  simp [readable]

/-- The pointers are in the buffer, and what is between them are the characters that may
be read and those of the current line. -/
structure InRing (n : Int) (d : Ttycblk) : Prop where
  cursor_nonneg : 0 ≤ d.tyicursor
  fits : Ring.Fits tyIbuflen d.tyihead d.tyitail (n + d.tyicursor)

/-- The pointers are in the buffer, the distance between them is the number of characters
in the buffer, which does not exceed its length, and the semaphore counts those that may
be read. -/
structure TtyRing (w : World Ttycblk TtyEvent) : Prop where
  head_nonneg : 0 ≤ w.shared.tyihead
  head_lt : w.shared.tyihead < tyIbuflen
  tail_nonneg : 0 ≤ w.shared.tyitail
  tail_lt : w.shared.tyitail < tyIbuflen
  readable_nonneg : 0 ≤ readable w.log
  cursor_nonneg : 0 ≤ w.shared.tyicursor
  room : readable w.log + w.shared.tyicursor ≤ tyIbuflen
  distance : w.shared.tyitail =
    (w.shared.tyihead + (readable w.log + w.shared.tyicursor)) % tyIbuflen
  counted : w.units w.shared.tyisem = readable w.log

/-- The path goes right: there is room for the character beside those that released
readers have not taken yet, the paths that do not wrap the tail do not reach the end of
the buffer, a line that is killed does not go around the end, and nothing arrives in
cbreak mode. -/
def InputPath.Orderly (tail cursor units : Int) : InputPath → Prop
  | .raw | .eof => tail + 1 < tyIbuflen ∧ units + cursor < tyIbuflen
  | .eol | .text => units + cursor < tyIbuflen
  | .kill => cursor ≤ tail
  | .erase => True
  | .cbreak => False

def TtyEvent.Orderly : TtyEvent → Prop
  | .input path tail cursor units => path.Orderly tail cursor units
  | _ => True

instance (tail cursor units : Int) : DecidablePred (InputPath.Orderly tail cursor units) :=
  fun path =>
    match path with
    | .raw | .eof => inferInstanceAs (Decidable (_ ∧ _))
    | .eol | .text => inferInstanceAs (Decidable (_ < _))
    | .kill => inferInstanceAs (Decidable (_ ≤ _))
    | .erase => instDecidableTrue
    | .cbreak => instDecidableFalse

instance : DecidablePred TtyEvent.Orderly := fun e =>
  match e with
  | .input path tail cursor units =>
    inferInstanceAs (Decidable (path.Orderly tail cursor units))
  | .put _ | .sent _ | .flush _ _ _ | .taken _ => instDecidableTrue

/-! ## What the paths do to the buffer -/

section Ring

variable {n : Int} {d d' : Ttycblk} {ch : UInt8}

/-- What concerns the input buffer. -/
def Ttycblk.input (d : Ttycblk) : Int × Int × Int × Int × Int :=
  (d.tyisem, d.tyosem, d.tyihead, d.tyitail, d.tyicursor)

theorem input_echoIf : (d.echoIf ch).input = d.input :=
  Ttycblk.echoIf_view fun _ _ => rfl

theorem InRing.congr (h : InRing n d) (hd : d'.input = d.input) : InRing n d' := by
  unfold Ttycblk.input at hd
  simp only [Prod.mk.injEq] at hd
  obtain ⟨-, -, hhead, htail, hcursor⟩ := hd
  constructor
  · rw [hcursor]
    exact h.cursor_nonneg
  · rw [hhead, htail, hcursor]
    exact h.fits

/-- The next place is free. -/
theorem InRing.push (h : InRing n d) (hroom : n + d.tyicursor < tyIbuflen) :
    Ring.Fits tyIbuflen d.tyihead (wrapped tyIbuflen d.tyitail) (n + d.tyicursor + 1) :=
  h.fits.push hroom

/-- The tail need not be wrapped. -/
theorem InRing.storeRaw (h : InRing n d) (htail : d.tyitail + 1 < tyIbuflen)
    (hroom : n + d.tyicursor < tyIbuflen) : InRing (n + 1) (d.storeRaw ch) := by
  have hfits := h.push hroom
  have hwrapped : wrapped tyIbuflen d.tyitail = d.tyitail + 1 := by
    unfold wrapped
    rw [if_neg (by omega)]
  have hcount : n + d.tyicursor + 1 = n + 1 + d.tyicursor := by ring
  rw [hwrapped, hcount] at hfits
  exact ⟨h.cursor_nonneg, hfits⟩

theorem InRing.text (h : InRing n d) (hroom : n + d.tyicursor < tyIbuflen) :
    InRing n (Ttycblk.store ch { d with tyicursor := d.tyicursor + 1 }) := by
  have hfits := h.push hroom
  have hnonneg := h.cursor_nonneg
  have hcount : n + d.tyicursor + 1 = n + (d.tyicursor + 1) := by ring
  rw [hcount] at hfits
  refine ⟨?_, hfits⟩
  show 0 ≤ d.tyicursor + 1
  omega

/-- The line is finished. -/
theorem InRing.eol (h : InRing n d) (hroom : n + d.tyicursor < tyIbuflen) :
    InRing (n + (d.tyicursor + 1)) { d.store ch with tyicursor := 0 } := by
  have hfits := h.push hroom
  have hcount : n + d.tyicursor + 1 = n + (d.tyicursor + 1) + 0 := by ring
  rw [hcount] at hfits
  exact ⟨Int.le_refl 0, hfits⟩

theorem InRing.killLine (h : InRing n d) (hn : 0 ≤ n) (hle : d.tyicursor ≤ d.tyitail) :
    InRing n d.killLine := by
  have hnonneg := h.cursor_nonneg
  have hlt := h.fits.tail_lt
  have hnot : ¬ d.tyitail - d.tyicursor < 0 := by omega
  have hfits : Ring.Fits tyIbuflen d.tyihead (d.tyitail - d.tyicursor)
      (n + d.tyicursor - d.tyicursor) :=
    h.fits.shrink hnonneg (by omega) (by omega) (by omega) rfl
  have hcount : n + d.tyicursor - d.tyicursor = n + 0 := by ring
  rw [hcount] at hfits
  refine ⟨Int.le_refl 0, ?_⟩
  unfold Ttycblk.killLine
  dsimp only
  rw [if_neg hnot]
  exact hfits

theorem InRing.erase1 (h : InRing n d) (hn : 0 ≤ n) (hpos : 0 < d.tyicursor) :
    InRing n (Ttycblk.erase1 { d with tyicursor := d.tyicursor - 1 }) := by
  have h₀ := h.fits.tail_nonneg
  have hlt := h.fits.tail_lt
  have hback : InRing n (Ttycblk.retreat { d with tyicursor := d.tyicursor - 1 }) := by
    have hshrink : ∀ tail', 0 ≤ tail' → tail' < tyIbuflen →
        tail' % tyIbuflen = (d.tyitail - 1) % tyIbuflen →
          Ring.Fits tyIbuflen d.tyihead tail' (n + (d.tyicursor - 1)) := by
      intro tail' hge hlt' hmod
      have hfits := h.fits.shrink (c := 1) (by decide) (by omega) hge hlt' hmod
      have hcount : n + d.tyicursor - 1 = n + (d.tyicursor - 1) := by ring
      rwa [hcount] at hfits
    constructor
    · show 0 ≤ d.tyicursor - 1
      omega
    · show Ring.Fits tyIbuflen d.tyihead
        (if d.tyitail - 1 < 0 then d.tyitail - 1 + tyIbuflen else d.tyitail - 1)
        (n + (d.tyicursor - 1))
      split
      · apply hshrink
        · unfold tyIbuflen
          omega
        · omega
        · exact Int.add_emod_right _ _
      · exact hshrink _ (by omega) (by omega) rfl
  exact hback.congr (Ttycblk.echoErase_view fun _ _ => rfl)

/-- A reader takes a character. -/
theorem InRing.take (h : InRing n d) (hpos : 0 < n) :
    InRing (n - 1) { d with tyihead := wrapped tyIbuflen d.tyihead } := by
  have hnonneg := h.cursor_nonneg
  have hfits := h.fits.pop (by omega)
  have hcount : n + d.tyicursor - 1 = n - 1 + d.tyicursor := by ring
  rw [hcount] at hfits
  exact ⟨hnonneg, hfits⟩

end Ring

/-! ## The invariant -/

/-- Where a call is suspended. -/
inductive InputPlace
  | reading
  | paused
deriving DecidableEq

variable {w w' : World Ttycblk TtyEvent} {L L' : Int → Option InputPlace} {me k o : Int}

/-- The invariant, where `o` is the semaphore of the input buffer and the running process
holds `k` units of the buffer. -/
structure InInv (o k : Int) (w : World Ttycblk TtyEvent) (L : Int → Option InputPlace) :
    Prop where
  isem : w.shared.tyisem = o
  apart : w.shared.tyosem ≠ o
  supply : World.Supply o k (readable w.log) .reading w L
  nonneg : 0 ≤ readable w.log
  ring : InRing (readable w.log) w.shared

theorem InInv.few (h : InInv o k w L) : readable w.log < 0x80000000 := by
  have hle := h.ring.fits.count_le
  have hnonneg := h.ring.cursor_nonneg
  unfold tyIbuflen at hle
  omega

theorem InInv.ttyRing (h : InInv o 0 w L) : TtyRing w := by
  have hunits := h.supply.units
  constructor
  · exact h.ring.fits.head_nonneg
  · exact h.ring.fits.head_lt
  · exact h.ring.fits.tail_nonneg
  · exact h.ring.fits.tail_lt
  · exact h.nonneg
  · exact h.ring.cursor_nonneg
  · exact h.ring.fits.count_le
  · exact h.ring.fits.tail_eq
  · rw [h.isem]
    omega

/-- Only the semaphores change. -/
theorem InInv.of_supply {k' : Int} (h : InInv o k w L) (hshared : w'.shared = w.shared)
    (hlog : w'.log = w.log) (hsupply : World.Supply o k' (readable w.log) .reading w' L') :
    InInv o k' w' L' := by
  constructor
  · rw [hshared]
    exact h.isem
  · rw [hshared]
    exact h.apart
  · rw [hlog]
    exact hsupply
  · rw [hlog]
    exact h.nonneg
  · rw [hlog, hshared]
    exact h.ring

theorem InInv.pause (h : InInv o k w (update L me none)) :
    InInv o k w (update L me (some .paused)) :=
  h.of_supply rfl rfl (h.supply.pause (by decide))

theorem InInv.unpause (h : InInv o k w L) (hme : L me = some .paused) :
    InInv o k w (update L me none) :=
  h.of_supply rfl rfl (h.supply.unpause hme (by decide))

/-- What concerns the input buffer, and the number of characters that may be read. -/
def inputView (x : Ttycblk × List TtyEvent) : (Int × Int × Int × Int × Int) × Int :=
  (x.1.input, readable x.2)

theorem InInv.away (h : InInv o k w L) (haway : World.Away o (SameView inputView) w w') :
    InInv o k w' L := by
  have hsupply := h.supply.away haway
  obtain ⟨hinput, hreadable⟩ : w'.shared.input = w.shared.input ∧
      readable w'.log = readable w.log := Prod.mk.inj haway.kept
  have hring := h.ring.congr hinput
  unfold Ttycblk.input at hinput
  simp only [Prod.mk.injEq] at hinput
  obtain ⟨hisem, hosem, -⟩ := hinput
  constructor
  · exact hisem.trans h.isem
  · rw [hosem]
    exact h.apart
  · rw [hreadable]
    exact hsupply
  · rw [hreadable]
    exact h.nonneg
  · rw [hreadable]
    exact hring

/-- The control block changes, but not its input half. -/
theorem InInv.modify (h : InInv o k w L) {f : Ttycblk → Ttycblk}
    (hf : (f w.shared).input = w.shared.input) : InInv o k (w.setShared f) L := by
  have hkeep : SameView inputView (w.shared, w.log) (f w.shared, w.log) := by
    unfold SameView inputView
    rw [hf]
  exact h.away (.of_same rfl rfl rfl rfl hkeep)

/-- An event is noted that does not concern the input buffer. -/
theorem InInv.note (h : InInv o k w L) {e : TtyEvent} (he : e.gain = 0) :
    InInv o k (w.note e) L := by
  have hkeep : SameView inputView (w.shared, w.log) (w.shared, w.log ++ [e]) := by
    unfold SameView inputView
    rw [readable_snoc, he, Int.add_zero]
  exact h.away (.of_same rfl rfl rfl rfl hkeep)

/-- The procedure keeps the invariant whatever happens. -/
abbrev InSpares {α : Type} (o me : Int) (x : TtyM α) : Prop :=
  World.Sparing ttyCrew (InInv o 0) (World.AllEvents TtyEvent.Orderly) me x

/-- The execution keeps the invariant as long as all events are orderly. -/
abbrev InKeeps {α : Type} (o me : Int) (x : Flow (World Ttycblk TtyEvent) α)
    (L : Int → Option InputPlace) : Prop :=
  ttyCrew.Holds (InInv o 0) (World.AllEvents TtyEvent.Orderly) me
    (Crew.Ends (InInv o 0) (World.AllEvents TtyEvent.Orderly) me) x L

theorem InSpares.of_away {α : Type} {x : TtyM α}
    (hx : x.Within (World.Away o (SameView inputView))) : InSpares o me x :=
  .of_within .paused hx (fun _ _ _ h haway => h.away haway) (fun _ _ h => h.pause)
    fun _ _ h hme => h.unpause hme

/-! ## Readers -/

theorem wait_reading (h : InInv o 0 w (update L me none)) (hpid : IsPid me) :
    ttyCrew.Holds (InInv o 0) (World.AllEvents TtyEvent.Orderly) me
      (fun _ s L => InInv o 1 s (update L me none)) (World.wait me o w) L := by
  apply World.holds_wait .reading h.supply.turns.used h.supply.tidy.ndefers
  · exact h.supply.count_lt (Int.le_refl 0) h.few
  · exact h.supply.count_gt
  · exact fun hpos => h.of_supply rfl rfl (h.supply.pass h.few hpos)
  · exact fun hneg _ => h.of_supply rfl rfl (h.supply.block hpid hneg)
  · exact fun s L' hI hL' hready => hI.of_supply rfl rfl (hI.supply.leave hready hL')

/-- The running process holds a unit, and takes a character. -/
theorem InInv.take (h : InInv o 1 w L) (ch : UInt8) :
    InInv o 0 ((w.setShared fun d => { d with tyihead := wrapped tyIbuflen d.tyihead }).note
      (.taken ch)) L := by
  have hunits := h.supply.units
  have hnonneg := w.units_nonneg o
  have hlog : readable (w.log ++ [.taken ch]) = readable w.log - 1 := readable_snoc _ _
  constructor
  · exact h.isem
  · exact h.apart
  · refine ⟨h.supply.tidy.congr rfl rfl rfl rfl, h.supply.turns.congr rfl rfl fun _ => Iff.rfl, ?_⟩
    show w.units o + 0 = readable (w.log ++ [.taken ch])
    omega
  · show 0 ≤ readable (w.log ++ [.taken ch])
    omega
  · show InRing (readable (w.log ++ [.taken ch])) _
    rw [hlog]
    exact h.ring.take (by omega)

theorem ttygetc_reads (hpid : IsPid me) : InSpares o me (ttygetc me) := by
  intro w L h
  unfold ttygetc
  rw [Coop.run_bind, Coop.run_get, Flow.bind_done, Coop.run_bind, h.isem]
  apply (wait_reading h hpid).bind
  intro _ s L hs
  rw [Coop.run_bind, Coop.run_get, Flow.bind_done, Coop.run_bind, Coop.run_modify,
    Flow.bind_done, Coop.run_ite]
  have htake := hs.take (s.shared.tyibuff s.shared.tyihead)
  split
  · exact htake
  · exact htake

/-- A process that only looks at the next character gives its unit back. -/
theorem ttyNextc_reads (hpid : IsPid me) : InSpares o me (ttycontrol me tcNextc) := by
  intro w L h
  unfold ttycontrol
  rw [if_pos rfl, Coop.run_bind, Coop.run_get, Flow.bind_done, Coop.run_bind, h.isem]
  apply (wait_reading h hpid).bind
  intro _ s L hs
  rw [Coop.run_bind, Coop.run_get, Flow.bind_done, Coop.run_bind, World.signal_eq_signaln]
  have hback : InInv o 0 ((World.release o)^[(1 : Int).toNat] s) (update L me none) := by
    obtain ⟨hshared, hlog, -, -⟩ := s.release_frame o (1 : Int).toNat
    exact hs.of_supply hshared hlog (hs.supply.signals (by decide) hs.few)
  apply Crew.Holds.bind (Q := fun _ s L => InInv o 0 s (update L me none))
  · apply World.holds_signaln .paused hs.supply.turns.used (by decide) hs.supply.tidy.ndefers
    · exact fun _ => hback.pause
    · exact fun s' L' hI hL' _ => hI.unpause hL'
    · exact hback
  · exact fun _ s L hs => hs

/-! ## Output leaves the input buffer alone -/

theorem ttyputOne_reads (ch : UInt8) : InSpares o me (ttyputOne me ch) := by
  apply World.Sparing.read
  intro w L h
  apply World.Sparing.bind
  · exact InSpares.of_away (World.wait_away h.apart me)
  · intro _
    apply World.Sparing.modify
    intro w L h
    have hstored : InInv o 0 (w.setShared fun d =>
        { d with
          tyobuff := update d.tyobuff d.tyotail ch
          tyotail := wrapped tyObuflen d.tyotail }.ttykickout) L := h.modify rfl
    exact hstored.note rfl

theorem sendChars_reads (n : Nat) : InSpares o me (sendChars n) := by
  induction n with
  | zero => exact .pure _
  | succ n ih =>
      apply World.Sparing.bind
      · apply World.Sparing.modify
        intro w L h
        exact (h.note rfl).modify rfl
      · exact fun _ => ih

theorem turnOff_reads : InSpares o me turnOff := by
  apply World.Sparing.read
  intro w L _
  apply World.Sparing.ite
  · exact .modify fun w L h => h.modify rfl
  · exact .pure _

theorem sendEcho_input (n : Nat) (uspace : Int) (d : Ttycblk) :
    (d.sendEcho n uspace).1.input = d.input := by
  induction n generalizing uspace d with
  | zero => rfl
  | succ n ih =>
      unfold Ttycblk.sendEcho
      split
      · rw [ih]
        rfl
      · rfl

theorem flushOut_reads {osem ochars : Int} (hosem : osem ≠ o) :
    InSpares o me (flushOut osem ochars) := by
  apply (sendChars_reads _).bind
  intro _
  apply World.Sparing.ite
  · apply World.Sparing.bind
    · exact InSpares.of_away (World.signaln_away hosem ochars)
    · exact fun _ => turnOff_reads
  · exact turnOff_reads

theorem ttyhandleOut_reads (level : Nat) : InSpares o me (ttyhandleOut level) := by
  apply World.Sparing.read
  intro w L _
  apply World.Sparing.ite
  · exact .pure _
  apply World.Sparing.read
  intro w L _
  apply World.Sparing.ite
  · apply World.Sparing.bind
    · exact .modify fun w L h => h.modify rfl
    · exact fun _ => .pure _
  intro w L h
  let r := w.shared.sendEcho (uartFifoSize - level).toNat (uartFifoSize - level)
  let w₁ := w.setShared fun _ => r.1
  have h₁ : InInv o 0 w₁ (update L me none) := h.modify (sendEcho_input _ _ _)
  have h₂ : InInv o 0 (w₁.note (.flush r.2 (w₁.semcount w₁.shared.tyosem)
      (w₁.units w₁.shared.tyosem))) (update L me none) := h₁.note rfl
  exact flushOut_reads h₁.apart _ _ h₂

/-! ## The input handler -/

/-- Rescheduling is deferred, and as long as all events are orderly the invariant holds but
for that. -/
abbrev Serving (o : Int) (w : World Ttycblk TtyEvent) (L : Int → Option InputPlace) : Prop :=
  World.Deferred (fun w L => w.AllEvents TtyEvent.Orderly → InInv o 0 w L) w L

/-- The handler ends, and the invariant holds as long as all events are orderly. -/
def Serves (o : Int) (x : Flow (World Ttycblk TtyEvent) Unit) (L : Int → Option InputPlace) :
    Prop :=
  ∃ u s, x = .done u s ∧ Serving o s L

theorem Serving.setShared (h : Serving o w L) {f : Ttycblk → Ttycblk}
    (hf : ∀ d, (f d).input = d.input) : Serving o (w.setShared f) L :=
  ⟨h.ndefers, fun b hall =>
    ((h.inv b hall).modify (hf _) : InInv o 0 ((w.settle b).setShared f) L)⟩

theorem Serving.changes (h : Serving o w L) {f : Ttycblk → Ttycblk}
    (hf : ∀ d, (f d).input = d.input) :
    Serves o ((modify fun s : World Ttycblk TtyEvent => s.setShared f : TtyM Unit) w) L :=
  ⟨(), _, rfl, h.setShared hf⟩

/-- The event that `tracePath` notes. -/
def pathEvent (path : InputPath) (w : World Ttycblk TtyEvent) : TtyEvent :=
  .input path w.shared.tyitail w.shared.tyicursor (w.units w.shared.tyisem)

/-- A character takes a path, which need not be considered where it goes wrong. -/
theorem Serving.path {path : InputPath} {x : TtyM Unit} (h : Serving o w L)
    (hwithin : x.Within World.Logged) (hprompt : World.Prompt x)
    (hgood : World.Deferred (InInv o 0) w L →
      path.Orderly w.shared.tyitail w.shared.tyicursor (w.units o) →
        ∃ s, x (w.note (pathEvent path w)) = .done () s ∧ World.Deferred (InInv o 0) s L) :
    Serves o ((tracePath path >>= fun _ => x) w) L := by
  have hrun : (tracePath path >>= fun _ => x) w = x (w.note (pathEvent path w)) := rfl
  rw [hrun]
  by_cases hall : (w.note (pathEvent path w)).AllEvents TtyEvent.Orderly
  · have hbefore : w.AllEvents TtyEvent.Orderly := hall.of_logged (.note _ _)
    have hinv : World.Deferred (InInv o 0) w L := ⟨h.ndefers, fun b => h.inv b hbefore⟩
    have horderly : (pathEvent path w).Orderly := hall.of_note
    have hisem : w.shared.tyisem = o := (hinv.inv false).isem
    unfold pathEvent at horderly
    rw [hisem] at horderly
    obtain ⟨s, hdone, hs⟩ := hgood hinv horderly
    exact ⟨(), s, hdone, hs.ndefers, fun b _ => hs.inv b⟩
  · have hpos : 0 < (w.note (pathEvent path w)).ndefers := by
      show 0 < w.ndefers
      rw [h.ndefers]
      exact Nat.one_pos
    obtain ⟨u, s, hdone, hs⟩ := hprompt _ hpos
    have hlog := hwithin (w.note (pathEvent path w))
    rw [hdone] at hlog
    refine ⟨u, s, hdone, hs.trans h.ndefers, fun b hafter => ?_⟩
    have hafter' : s.AllEvents TtyEvent.Orderly := hafter
    exact (hall (hafter'.of_logged hlog)).elim

/-- The units of the characters that became readable are signaled. -/
theorem signals_path {d : Ttycblk} {e : TtyEvent} (h : World.Deferred (InInv o 0) w L)
    (hn : 0 ≤ e.gain) (hfew : readable w.log + e.gain ≤ tyIbuflen) :
    ∃ s, World.signaln o e.gain ((w.note e).setShared fun _ => d) = .done ok s ∧
      s.ndefers = 1 ∧ s.shared = d ∧ s.log = w.log ++ [e] ∧
        ∀ b, World.Supply o 0 (readable (w.log ++ [e])) .reading (s.settle b) L := by
  have hreadable := readable_snoc w.log e
  have hlt : readable (w.log ++ [e]) < 0x80000000 := by
    rw [hreadable]
    unfold tyIbuflen at hfew
    omega
  have hsupply : ∀ b, World.Supply o e.gain (readable (w.log ++ [e])) .reading
      (((w.note e).setShared fun _ => d).settle b) L := by
    intro b
    have hold := (h.inv b).supply
    have hunits : w.units o + 0 = readable w.log := hold.units
    refine ⟨hold.tidy.congr rfl rfl rfl rfl, hold.turns.congr rfl rfl fun _ => Iff.rfl, ?_⟩
    show w.units o + e.gain = readable (w.log ++ [e])
    omega
  exact World.Supply.signaln h.ndefers hsupply hn hlt

/-- The semaphores of the control block. -/
def Ttycblk.sems (d : Ttycblk) : Int × Int :=
  (d.tyisem, d.tyosem)

/-- What a path makes of the pointers and the cursor, with `n` characters that may be
read. -/
def InputPath.Moves (path : InputPath) (d d' : Ttycblk) : Prop :=
  ∀ n, 0 ≤ n → path.Orderly d.tyitail d.tyicursor n → InRing n d →
    InRing (n + path.gain d.tyicursor) d'

/-- After a path, the units have been signaled. -/
theorem after_path {path : InputPath} {s : World Ttycblk TtyEvent}
    (h : World.Deferred (InInv o 0) w L)
    (horderly : path.Orderly w.shared.tyitail w.shared.tyicursor (w.units o))
    (hdefer : s.ndefers = 1) (hlog : s.log = w.log ++ [pathEvent path w])
    (hsupply : ∀ b, World.Supply o 0 (readable (w.log ++ [pathEvent path w])) .reading
      (s.settle b) L)
    (hsems : s.shared.sems = w.shared.sems) (hmoves : path.Moves w.shared s.shared) :
    World.Deferred (InInv o 0) s L := by
  have hold := h.inv false
  have hunits : w.units o + 0 = readable w.log := hold.supply.units
  have hnonneg : 0 ≤ readable w.log := hold.nonneg
  obtain ⟨hisem, hosem⟩ := Prod.mk.inj hsems
  rw [Int.add_zero] at hunits
  rw [hunits] at horderly
  have hring := hmoves _ hnonneg horderly hold.ring
  have hafter : readable s.log = readable w.log + path.gain w.shared.tyicursor := by
    rw [hlog, readable_snoc]
    rfl
  refine ⟨hdefer, fun b => ?_⟩
  constructor
  · exact hisem.trans hold.isem
  · show s.shared.tyosem ≠ o
    rw [hosem]
    exact hold.apart
  · show World.Supply o 0 (readable s.log) .reading _ L
    rw [hlog]
    exact hsupply b
  · show 0 ≤ readable s.log
    rw [hlog, ← Int.add_zero (readable _), ← (hsupply b).units]
    have hunits' := (s.settle b).units_nonneg o
    omega
  · show InRing (readable s.log) s.shared
    rw [hafter]
    exact hring

theorem modify_prompt (f : Ttycblk → Ttycblk) :
    World.Prompt (modify fun s : World Ttycblk TtyEvent => s.setShared f : TtyM PUnit) :=
  .modify fun _ => rfl

theorem modify_within (f : Ttycblk → Ttycblk) :
    (modify fun s : World Ttycblk TtyEvent => s.setShared f : TtyM PUnit).Within World.Logged :=
  .modify fun _ => .of_eq rfl

/-- A path that makes no character readable. -/
theorem Serving.quiet {path : InputPath} {f : Ttycblk → Ttycblk} (h : Serving o w L)
    (hgain : path.gain w.shared.tyicursor = 0) (hsems : (f w.shared).sems = w.shared.sems)
    (hmoves : path.Moves w.shared (f w.shared)) :
    Serves o ((tracePath path >>= fun _ =>
      modify fun s : World Ttycblk TtyEvent => s.setShared f) w) L := by
  apply h.path (modify_within f) (modify_prompt f)
  intro hinv horderly
  refine ⟨(w.note (pathEvent path w)).setShared f, rfl, ?_⟩
  have hsame : readable (w.log ++ [pathEvent path w]) = readable w.log := by
    rw [readable_snoc]
    exact (congrArg (readable w.log + ·) hgain).trans (Int.add_zero _)
  apply after_path hinv horderly
  · exact hinv.ndefers
  · rfl
  · intro b
    rw [hsame]
    have hold := (hinv.inv b).supply
    exact hold.congr (hold.tidy.congr rfl rfl rfl rfl) rfl rfl
  · exact hsems
  · exact hmoves

/-- A path that makes characters readable and signals them, and what is left to do. -/
theorem Serving.loud {path : InputPath} {x : TtyM Unit} {f g : Ttycblk → Ttycblk} {n : Int}
    (h : Serving o w L) (hwithin : x.Within World.Logged) (hprompt : World.Prompt x)
    (hx : x (w.note (pathEvent path w)) = (World.signaln w.shared.tyisem n
      ((w.note (pathEvent path w)).setShared f)).bind fun _ =>
        (modify fun s : World Ttycblk TtyEvent => s.setShared g : TtyM Unit))
    (hgain : path.gain w.shared.tyicursor = n)
    (hn : 0 ≤ w.shared.tyicursor → 0 ≤ n ∧ n ≤ w.shared.tyicursor + 1)
    (hroom : path.Orderly w.shared.tyitail w.shared.tyicursor (w.units o) →
      w.units o + w.shared.tyicursor < tyIbuflen)
    (hsems : (g (f w.shared)).sems = w.shared.sems)
    (hmoves : path.Moves w.shared (g (f w.shared))) :
    Serves o ((tracePath path >>= fun _ => x) w) L := by
  apply h.path hwithin hprompt
  intro hinv horderly
  have hold := hinv.inv false
  have hunits : w.units o + 0 = readable w.log := hold.supply.units
  have hcursor : 0 ≤ w.shared.tyicursor := hold.ring.cursor_nonneg
  have hisem : w.shared.tyisem = o := hold.isem
  have hlt := hroom horderly
  obtain ⟨hnonneg, hle⟩ := hn hcursor
  have hevent : (pathEvent path w).gain = n := hgain
  obtain ⟨s, hrun, hdefer, hshared, hlog, hsupply⟩ :=
    signals_path (d := f w.shared) (e := pathEvent path w) hinv (by omega) (by omega)
  rw [hevent] at hrun
  refine ⟨s.setShared g, ?_, ?_⟩
  · rw [hx, hisem]
    exact congrArg (fun x => x.bind fun _ =>
      (modify fun s : World Ttycblk TtyEvent => s.setShared g : TtyM Unit)) hrun
  · have hfinal : (s.setShared g).shared = g (f w.shared) := congrArg g hshared
    apply after_path hinv horderly
    · exact hdefer
    · exact hlog
    · exact fun b => (hsupply b).congr ((hsupply b).tidy.congr rfl rfl rfl rfl) rfl rfl
    · rw [hfinal]
      exact hsems
    · rw [hfinal]
      exact hmoves

/-- The cursor moves back, and the character is erased. -/
def eraseBack (d : Ttycblk) : Ttycblk :=
  { d with tyicursor := d.tyicursor - 1 }.erase1

theorem sems_eraseBack {d : Ttycblk} : (eraseBack d).sems = d.sems :=
  @Ttycblk.echoErase_view _ Ttycblk.sems _ _ fun _ _ => rfl

theorem sems_echoIf {d : Ttycblk} {ch : UInt8} : (d.echoIf ch).sems = d.sems :=
  Ttycblk.echoIf_view fun _ _ => rfl

/-- A character is stored without wrapping the tail. -/
theorem moves_raw {path : InputPath} {d d' : Ttycblk} {c : UInt8}
    (hpath : path = .raw ∨ path = .eof) (hd : d'.input = d.input) :
    path.Moves d (d'.storeRaw c) := by
  intro n hn horderly hring
  have hroom : d.tyitail + 1 < tyIbuflen ∧ n + d.tyicursor < tyIbuflen := by
    rcases hpath with rfl | rfl
    · exact horderly
    · exact horderly
  have hgain : path.gain d.tyicursor = 1 := by
    rcases hpath with rfl | rfl
    · rfl
    · rfl
  rw [hgain]
  have hring' := hring.congr hd
  unfold Ttycblk.input at hd
  simp only [Prod.mk.injEq] at hd
  obtain ⟨-, -, -, htail, hcursor⟩ := hd
  rw [← htail, ← hcursor] at hroom
  exact hring'.storeRaw hroom.1 hroom.2

theorem moves_eol {d : Ttycblk} {ch : UInt8} :
    InputPath.eol.Moves d { (d.echoIf ch).store ch with tyicursor := 0 } := by
  intro n hn horderly hring
  have hd : (d.echoIf ch).input = d.input := input_echoIf
  have hline : n + (d.echoIf ch).tyicursor < tyIbuflen →
      InRing (n + ((d.echoIf ch).tyicursor + 1)) { (d.echoIf ch).store ch with tyicursor := 0 } :=
    (hring.congr hd).eol
  unfold Ttycblk.input at hd
  simp only [Prod.mk.injEq] at hd
  obtain ⟨-, -, -, -, hcursor⟩ := hd
  rw [hcursor] at hline
  exact hline horderly

theorem moves_text {d : Ttycblk} {ch : UInt8} : InputPath.text.Moves d
    (Ttycblk.store ch { d.echoIf ch with tyicursor := d.tyicursor + 1 }) := by
  intro n hn horderly hring
  have hd : (d.echoIf ch).input = d.input := input_echoIf
  have htext : n + (d.echoIf ch).tyicursor < tyIbuflen → InRing n
      (Ttycblk.store ch { d.echoIf ch with tyicursor := (d.echoIf ch).tyicursor + 1 }) :=
    (hring.congr hd).text
  unfold Ttycblk.input at hd
  simp only [Prod.mk.injEq] at hd
  obtain ⟨-, -, -, -, hcursor⟩ := hd
  rw [hcursor] at htext
  show InRing (n + 0) _
  rw [Int.add_zero]
  exact htext horderly

/-- The line is removed, and the echo queue tells so. -/
def killEcho (d : Ttycblk) : Ttycblk :=
  (d.killLine.eputc tyReturn).eputc tyNewline

theorem moves_kill {d : Ttycblk} : InputPath.kill.Moves d (killEcho d) := by
  intro n hn horderly hring
  show InRing (n + 0) _
  rw [Int.add_zero]
  exact (hring.killLine hn horderly).congr rfl

theorem moves_erase {d : Ttycblk} (hpos : 0 < d.tyicursor) : InputPath.erase.Moves d
    (Ttycblk.erase1 { d with tyicursor := d.tyicursor - 1 }) := by
  intro n hn _ hring
  show InRing (n + 0) _
  rw [Int.add_zero]
  exact hring.erase1 hn hpos

theorem ttyhandleCooked_serves (h : Serving o w L) (ch : UInt8) :
    Serves o (ttyhandleCooked ch w) L := by
  unfold ttyhandleCooked
  rw [Coop.run_bind, Coop.run_get, Flow.bind_done, Coop.run_ite]
  split
  · exact h.quiet (f := killEcho) rfl rfl moves_kill
  rw [Coop.run_ite]
  split
  · rw [Coop.run_ite]
    split
    · next hpos =>
        exact h.quiet (f := eraseBack) rfl sems_eraseBack (moves_erase hpos)
    · exact ⟨(), w, rfl, h⟩
  rw [Coop.run_ite]
  split
  · apply h.loud (f := fun d => (d.echoIf ch).store ch) (g := fun d => { d with tyicursor := 0 })
    · apply (modify_within _).bind
      intro _
      exact (World.signaln_within _ _).bind fun _ => modify_within _
    · apply (modify_prompt _).bind
      intro _
      exact (World.signaln_prompt _ _).bind fun _ => modify_prompt _
    · rfl
    · rfl
    · intro hnonneg
      omega
    · exact fun horderly => horderly
    · exact sems_echoIf
    · exact moves_eol
  rw [Coop.run_bind, Coop.run_get, Flow.bind_done, Coop.run_ite]
  split
  · exact h.changes fun _ => rfl
  rw [Coop.run_ite]
  split
  · rw [Coop.run_ite]
    split
    · exact h.changes fun _ => input_echoIf
    · apply h.loud (f := fun d => (d.echoIf ch).storeRaw ch) (g := id)
      · apply (modify_within _).bind
        intro _
        exact (World.signal_within _).bind fun _ => .pure _
      · apply (modify_prompt _).bind
        intro _
        exact (World.signal_prompt _).bind fun _ => .pure _
      · rw [Coop.run_bind, Coop.run_modify, Flow.bind_done, Coop.run_bind,
          World.signal_eq_signaln]
        rfl
      · rfl
      · intro hnonneg
        omega
      · exact fun horderly => horderly.2
      · exact sems_echoIf
      · exact moves_raw (Or.inr rfl) input_echoIf
  · exact h.quiet rfl sems_echoIf moves_text

theorem ttyhandleIn_serves (h : Serving o w L) (ch : UInt8) : Serves o (ttyhandleIn ch w) L := by
  unfold ttyhandleIn
  rw [Coop.run_bind, Coop.run_get, Flow.bind_done, Coop.run_ite]
  split
  · rw [Coop.run_ite]
    split
    · exact ⟨(), w, rfl, h⟩
    · let wrapOutput : Ttycblk → Ttycblk := fun d =>
        { d with tyotail := if d.tyotail ≥ tyObuflen then 0 else d.tyotail }
      apply h.loud (f := fun d => wrapOutput (d.storeRaw ch)) (g := id)
      · apply (modify_within _).bind
        intro _
        apply (modify_within _).bind
        intro _
        exact (World.signal_within _).bind fun _ => .pure _
      · apply (modify_prompt _).bind
        intro _
        apply (modify_prompt _).bind
        intro _
        exact (World.signal_prompt _).bind fun _ => .pure _
      · rw [Coop.run_bind, Coop.run_modify, Flow.bind_done, Coop.run_bind, Coop.run_modify,
          Flow.bind_done, Coop.run_bind, World.signal_eq_signaln]
        rfl
      · rfl
      · intro hnonneg
        omega
      · exact fun horderly => horderly.2
      · rfl
      · intro n hn horderly hring
        exact (moves_raw (c := ch) (Or.inl rfl) rfl n hn horderly hring).congr rfl
  generalize (if ch = tyReturn ∧ w.shared.tyicrlf = true then tyNewline else ch) = c
  rw [Coop.run_ite]
  split
  · exact h.changes fun _ => rfl
  rw [Coop.run_ite]
  split
  · exact h.changes fun _ => rfl
  have hstart := h.setShared (f := fun d => { d with tyoheld := false }) fun _ => rfl
  rw [Coop.run_bind, Coop.run_modify, Flow.bind_done, Coop.run_ite]
  split
  · rw [Coop.run_ite]
    split
    · exact hstart.changes fun _ => rfl
    · apply hstart.path (modify_within _) (modify_prompt _)
      exact fun _ horderly => horderly.elim
  · exact ttyhandleCooked_serves hstart _

theorem ttyhandleAll_serves (h : Serving o w L) (chars : List UInt8) :
    Serves o (ttyhandleAll chars w) L := by
  induction chars generalizing w with
  | nil => exact ⟨(), w, rfl, h⟩
  | cons ch chars ih =>
      obtain ⟨u, s, hrun, hs⟩ := ttyhandleIn_serves h ch
      unfold ttyhandleAll
      rw [Coop.run_bind, hrun, Flow.bind_done]
      exact ih hs

theorem ttyhandler_reads (h : InInv o 0 w (update L me none)) (cause : TtyCause) :
    InKeeps o me (ttyhandler cause w) L := by
  cases cause with
  | rlsi => exact fun _ => h
  | rda chars =>
      have htidy := h.supply.tidy
      have hstart : Serving o { w with ndefers := 1, attempt := false } (update L me none) := by
        refine ⟨rfl, fun b _ => ?_⟩
        exact h.of_supply rfl rfl
          (h.supply.congr (htidy.congr rfl htidy.ndefers.symm rfl rfl) rfl rfl)
      obtain ⟨u, s, hrun, hs⟩ := ttyhandleAll_serves hstart chars
      rw [ttyhandler, Coop.run_bind, World.reschedCntl_start htidy.ndefers, Flow.bind_done,
        Coop.run_bind, hrun, Flow.bind_done]
      have hend : World.AllEvents TtyEvent.Orderly { s with ndefers := 0 } →
          InInv o 0 { s with ndefers := 0 } (update L me none) :=
        fun hall => hs.inv s.attempt hall
      apply World.holds_stop .paused hs.ndefers
      · exact fun hall => (hend hall).pause
      · exact fun s' L' hI hL' _ _ => hI.unpause hL'
      · exact hend
  | thre level =>
      rw [ttyhandler, Coop.run_bind, Coop.run_get, Flow.bind_done, Coop.run_ite]
      split
      · exact ((ttyhandleOut_reads level).bind fun _ => .pure ok).ends h
      · exact fun _ => h
  | msc => exact fun _ => h

/-! ## Runs -/

theorem ttyCall_reads (h : InInv o 0 w (update L me none)) (hpid : IsPid me) (c : TtyCall) :
    InKeeps o me (ttyCrew.exec me c w) L := by
  cases c with
  | putc ch => exact (ttyputc_spares ttyputOne_reads ch).ends h
  | write buff => exact (ttywrite_spares ttyputOne_reads buff).ends h
  | getc => exact (ttygetc_reads hpid).ends h
  | read count => exact ((ttyread_spares (ttygetc_reads hpid) count).bind fun _ => .pure _).ends h
  | control func =>
      have hmodify : ∀ {f : Ttycblk → Ttycblk}, (∀ d, (f d).input = d.input) → ∀ w L,
          InInv o 0 w L → InInv o 0 (w.setShared f) L :=
        fun hf _ _ h => h.modify (hf _)
      apply (ttycontrol_spares (ttyNextc_reads hpid) _ _ func).ends h
      · exact fun _ => hmodify fun _ => rfl
      · exact fun _ => hmodify fun _ => rfl
  | interrupt cause => exact ttyhandler_reads h cause

theorem TtyStart.inInv (h : TtyStart w) :
    InInv w.shared.tyisem 0 w fun _ => (none : Option InputPlace) := by
  have hreadable : readable w.log = 0 := by
    rw [h.log]
    rfl
  constructor
  · rfl
  · exact h.apart.symm
  · rw [hreadable]
    refine ⟨h.tidy, ?_, ?_⟩
    · constructor
      · rw [h.isem]
      · rw [h.isem]
        rfl
      · rw [h.isem, h.igranted]
        exact List.nodup_nil
      · intro p hp
        contradiction
      · intro p
        rw [h.isem, h.igranted]
        simp
    · unfold World.units
      rw [h.isem, h.igranted]
      rfl
  · rw [hreadable]
  · rw [hreadable]
    constructor
    · rw [h.icursor]
    · rw [h.ihead, h.itail, h.icursor]
      exact ⟨by decide, by decide, by decide, by decide, rfl⟩

/-- The invariant holds in every run in which no path goes wrong. -/
theorem run_inInv {w : World Ttycblk TtyEvent} {tr : List (Segment _ TtyCall)}
    {C : Config (World Ttycblk TtyEvent) TtyCall} (hstart : TtyStart w)
    (hrun : ttyCrew.Run (fun _ seg => seg.after.AllEvents TtyEvent.Orderly)
      (Machine.initial w) tr C) : ∃ L, InInv w.shared.tyisem 0 C.state L := by
  have hcall : ∀ p c s L, InInv w.shared.tyisem 0 s L → ttyCrew.ready s p → L p = none →
      InKeeps w.shared.tyisem p (ttyCrew.exec p c s) L := by
    intro p c s L hI hready hL
    apply ttyCall_reads _ hready.1
    rw [← hL, update_eq_self]
    exact hI
  obtain ⟨L, hI, -⟩ := Crew.run_holds hstart.inInv hcall hrun
  exact ⟨L, hI⟩

/--
If no path of the input handler goes wrong, then in every run the pointers stay in the
buffer, the characters that may be read and those of the current line are what is between
them and fit in the buffer, and the semaphore with the units of released readers counts
those that may be read.
-/
theorem tty_input {w : World Ttycblk TtyEvent} {tr : List (Segment _ TtyCall)}
    {C : Config (World Ttycblk TtyEvent) TtyCall} (hstart : TtyStart w)
    (hrun : ttyCrew.Run (fun _ seg => seg.after.AllEvents TtyEvent.Orderly)
      (Machine.initial w) tr C) : TtyRing C.state := by
  obtain ⟨L, hI⟩ := run_inInv hstart hrun
  exact hI.ttyRing

/-- A reader waits, a line is typed with an erased character in it, and the reader takes
the first character of the line. -/
theorem line_read : ∃ tr C, ttyCrew.Run
    (fun _ seg => seg.after.AllEvents TtyEvent.Orderly) (Machine.initial ttyBoot) tr C ∧
      readable C.state.log = 1 ∧ TtyRing C.state := by
  let script : List (Int × Option TtyCall) :=
    [(1, some .getc), (2, some (.interrupt (.rda [0x41, 0x42, tyBacksp, tyNewline]))), (1, none)]
  have hsome : (ttyCrew.replay (fun _ seg => seg.after.AllEvents TtyEvent.Orderly)
      (fun _ C f => f C) script [] (Machine.initial ttyBoot)).map
        (fun r => readable r.2.state.log) = some 1 := by
    decide +kernel
  rw [Option.map_eq_some_iff] at hsome
  obtain ⟨⟨tr, C⟩, heq, hreadable⟩ := hsome
  have hrun := ttyCrew.replay_run (fun _ _ _ => rfl) .start heq
  exact ⟨tr, C, hrun, hreadable, tty_input ttyBoot_start hrun⟩

/-- In cbreak mode a character is stored, but the semaphore is not signaled. -/
theorem tty_cbreak : ∃ tr C, ttyCrew.Run (fun _ _ => True) (Machine.initial ttyBoot) tr C ∧
    ¬ TtyRing C.state := by
  let script : List (Int × Option TtyCall) :=
    [(1, some (.control tcModek)), (1, some (.interrupt (.rda [0x41])))]
  have hsome : (ttyCrew.replay (fun _ _ => True) (fun _ C f => f C) script []
      (Machine.initial ttyBoot)).map (fun r =>
        (r.2.state.units r.2.state.shared.tyisem, readable r.2.state.log)) = some (0, 1) := by
    decide +kernel
  rw [Option.map_eq_some_iff] at hsome
  obtain ⟨⟨tr, C⟩, heq, hcounts⟩ := hsome
  have hrun := ttyCrew.replay_run (fun _ _ _ => rfl) .start heq
  refine ⟨tr, C, hrun, fun hring => ?_⟩
  obtain ⟨hunits, hreadable⟩ := Prod.mk.inj hcounts
  have hcounted := hring.counted
  dsimp only at hunits hreadable hcounted
  omega

end Xinu
