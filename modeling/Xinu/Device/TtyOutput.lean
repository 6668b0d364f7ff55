import Xinu.Device.Tty
import Xinu.Foundations.RingBuffer

/-!
# The output buffer of a terminal

The handler of the output interrupt takes the number of characters in the buffer from
the count of its semaphore.  The count also includes the writers that wait, and those that
have been released and have not stored their character.

Main results:

- Theorem `tty_output`: if the handler never finds more space in the device than there are
  characters in the buffer while writers wait or have been released, and the input stays in
  its buffer, the characters are handed to the device in the order in which they were put.
- Theorem `tty_overrun`: the handler hands out a place that no writer has filled.
-/

namespace Xinu

open Foundations Function

/-- The characters that were stored in the output buffer. -/
def putChars (log : List TtyEvent) : List UInt8 :=
  log.filterMap fun e =>
    match e with
    | .put ch => some ch
    | _ => none

/-- The characters of the output buffer that were handed to the device. -/
def sentChars (log : List TtyEvent) : List UInt8 :=
  log.filterMap fun e =>
    match e with
    | .sent ch => some ch
    | _ => none

/-- The event does not concern the output buffer. -/
def TtyEvent.Incoming : TtyEvent → Prop
  | .put _ | .sent _ => False
  | _ => True

theorem putChars_put (log : List TtyEvent) (ch : UInt8) :
    putChars (log ++ [.put ch]) = putChars log ++ [ch] := by
  simp [putChars]

theorem sentChars_put (log : List TtyEvent) (ch : UInt8) :
    sentChars (log ++ [.put ch]) = sentChars log := by
  simp [sentChars]

theorem putChars_sent (log : List TtyEvent) (ch : UInt8) :
    putChars (log ++ [.sent ch]) = putChars log := by
  simp [putChars]

theorem sentChars_sent (log : List TtyEvent) (ch : UInt8) :
    sentChars (log ++ [.sent ch]) = sentChars log ++ [ch] := by
  simp [sentChars]

theorem chars_incoming (log : List TtyEvent) {e : TtyEvent} (he : e.Incoming) :
    putChars (log ++ [e]) = putChars log ∧ sentChars (log ++ [e]) = sentChars log := by
  cases e with
  | put ch => exact he.elim
  | sent ch => exact he.elim
  | flush uspace count units => simp [putChars, sentChars]
  | input path tail cursor units => simp [putChars, sentChars]
  | taken ch => simp [putChars, sentChars]

/-- The number of characters that were put and not sent. -/
def unsent (log : List TtyEvent) : Int :=
  (putChars log).length - (sentChars log).length

/-- The characters handed to the device are those that were put first, and the others are
in the buffer, in their order. -/
structure TtyFifo (w : World Ttycblk TtyEvent) : Prop where
  order : sentChars w.log <+: putChars w.log
  kept : putChars w.log = sentChars w.log ++
    Ring.window tyObuflen w.shared.tyobuff w.shared.tyohead (unsent w.log).toNat

/-- The handler finds no more space than there are characters in the buffer, or nobody
waits or has been released; and no character is stored outside of the input buffer, where
the other fields are. -/
def TtyEvent.Covered : TtyEvent → Prop
  | .flush uspace count units => min uspace (tyObuflen - count) ≤ tyObuflen - units
  | .input .kill _ _ _ | .input .erase _ _ _ => True
  | .input _ tail _ _ => 0 ≤ tail ∧ tail < tyIbuflen
  | _ => True

instance : DecidablePred TtyEvent.Covered := fun e =>
  match e with
  | .flush _ _ _ => inferInstanceAs (Decidable (_ ≤ _))
  | .input .raw _ _ _ | .input .cbreak _ _ _ | .input .eol _ _ _ | .input .eof _ _ _ |
    .input .text _ _ _ => inferInstanceAs (Decidable (_ ∧ _))
  | .input .kill _ _ _ | .input .erase _ _ _ | .put _ | .sent _ | .taken _ =>
    instDecidableTrue

/-- Where a call is suspended. -/
inductive OutputPlace
  | storing
  | paused
deriving DecidableEq

variable {w w' : World Ttycblk TtyEvent} {L L' : Int → Option OutputPlace} {me k o : Int}

/-- The invariant, where `o` is the semaphore of the output buffer and the running process
holds `k` units of the buffer. -/
structure OutInv (o k : Int) (w : World Ttycblk TtyEvent) (L : Int → Option OutputPlace) :
    Prop where
  tidy : w.Tidy
  osem : w.shared.tyosem = o
  apart : w.shared.tyisem ≠ o
  turns : w.Turns o fun p => L p = some .storing
  units : w.units o + k + unsent w.log = tyObuflen
  fits : Ring.Fits tyObuflen w.shared.tyohead w.shared.tyotail (unsent w.log)
  kept : putChars w.log = sentChars w.log ++
    Ring.window tyObuflen w.shared.tyobuff w.shared.tyohead (unsent w.log).toNat

theorem OutInv.fifo (h : OutInv o k w L) : TtyFifo w := by
  refine ⟨?_, h.kept⟩
  rw [h.kept]
  exact List.prefix_append _ _

/-- The places of the buffer that hold no character. -/
theorem OutInv.supply (h : OutInv o k w L) :
    World.Supply o k (tyObuflen - unsent w.log) .storing w L := by
  have hunits := h.units
  exact ⟨h.tidy, h.turns, by omega⟩

theorem OutInv.room_lt (h : OutInv o k w L) : tyObuflen - unsent w.log < 0x80000000 := by
  have hnonneg := h.fits.count_nonneg
  unfold tyObuflen
  omega

/-- Only the semaphores change. -/
theorem OutInv.of_supply {k' : Int} (h : OutInv o k w L) (hshared : w'.shared = w.shared)
    (hlog : w'.log = w.log)
    (hsupply : World.Supply o k' (tyObuflen - unsent w.log) .storing w' L') :
    OutInv o k' w' L' := by
  have hunits := hsupply.units
  constructor
  · exact hsupply.tidy
  · rw [hshared]
    exact h.osem
  · rw [hshared]
    exact h.apart
  · exact hsupply.turns
  · rw [hlog]
    omega
  · rw [hshared, hlog]
    exact h.fits
  · rw [hshared, hlog]
    exact h.kept

theorem OutInv.pause (h : OutInv o k w (update L me none)) :
    OutInv o k w (update L me (some .paused)) :=
  h.of_supply rfl rfl (h.supply.pause (by decide))

theorem OutInv.unpause (h : OutInv o k w L) (hme : L me = some .paused) :
    OutInv o k w (update L me none) :=
  h.of_supply rfl rfl (h.supply.unpause hme (by decide))

/-! ## What leaves the output buffer alone -/

/-- What concerns the output buffer. -/
def Ttycblk.output (d : Ttycblk) : Int × Int × Int × Int × (Int → UInt8) :=
  (d.tyosem, d.tyisem, d.tyohead, d.tyotail, d.tyobuff)

/-- What concerns the output buffer, and the characters put and sent. -/
def outputView (x : Ttycblk × List TtyEvent) :
    (Int × Int × Int × Int × (Int → UInt8)) × List UInt8 × List UInt8 :=
  (x.1.output, putChars x.2, sentChars x.2)

theorem OutInv.away (h : OutInv o k w L) (haway : World.Away o (SameView outputView) w w') :
    OutInv o k w' L := by
  have hsupply := h.supply.away haway
  have hunits := hsupply.units
  have hkept := haway.kept
  unfold SameView outputView Ttycblk.output at hkept
  simp only [Prod.mk.injEq] at hkept
  obtain ⟨⟨hosem, hisem, hhead, htail, hbuff⟩, hput, hsent⟩ := hkept
  have hunsent : unsent w'.log = unsent w.log := by
    unfold unsent
    rw [hput, hsent]
  constructor
  · exact hsupply.tidy
  · exact hosem.trans h.osem
  · rw [hisem]
    exact h.apart
  · exact hsupply.turns
  · rw [hunsent]
    omega
  · rw [hhead, htail, hunsent]
    exact h.fits
  · rw [hput, hsent, hunsent, hhead, hbuff]
    exact h.kept

/-- The execution keeps the invariant as long as all events are covered. -/
abbrev OutKeeps {α : Type} (o me : Int) (x : Flow (World Ttycblk TtyEvent) α)
    (L : Int → Option OutputPlace) : Prop :=
  ttyCrew.Holds (OutInv o 0) (World.AllEvents TtyEvent.Covered) me
    (Crew.Ends (OutInv o 0) (World.AllEvents TtyEvent.Covered) me) x L

/-- The procedure keeps the invariant whatever happens. -/
abbrev OutSpares {α : Type} (o me : Int) (x : TtyM α) : Prop :=
  World.Sparing ttyCrew (OutInv o 0) (World.AllEvents TtyEvent.Covered) me x

theorem OutSpares.of_away {α : Type} {x : TtyM α}
    (hx : x.Within (World.Away o (SameView outputView))) : OutSpares o me x :=
  .of_within .paused hx (fun _ _ _ h haway => h.away haway) (fun _ _ h => h.pause)
    fun _ _ h hme => h.unpause hme

/-- The control block changes, but not its output half. -/
theorem OutInv.modify (h : OutInv o k w L) {f : Ttycblk → Ttycblk}
    (hf : (f w.shared).output = w.shared.output) : OutInv o k (w.setShared f) L := by
  have hkeep : SameView outputView (w.shared, w.log) (f w.shared, w.log) := by
    unfold SameView outputView
    rw [hf]
  exact h.away (.of_same rfl rfl rfl rfl hkeep)

/-- An event is noted that does not concern the output buffer. -/
theorem OutInv.note (h : OutInv o k w L) {e : TtyEvent} (he : e.Incoming) :
    OutInv o k (w.note e) L := by
  obtain ⟨hput, hsent⟩ := chars_incoming w.log he
  have hkeep : SameView outputView (w.shared, w.log) (w.shared, w.log ++ [e]) := by
    unfold SameView outputView
    rw [hput, hsent]
  exact h.away (.of_same rfl rfl rfl rfl hkeep)

/-! ## Writers -/

theorem wrapped_eq (n i : Int) : wrapped n i = Ring.next n i :=
  rfl

theorem unsent_put (log : List TtyEvent) (ch : UInt8) :
    unsent (log ++ [.put ch]) = unsent log + 1 := by
  unfold unsent
  rw [putChars_put, sentChars_put, List.length_append]
  push_cast
  rw [List.length_singleton]
  omega

theorem unsent_sent (log : List TtyEvent) (ch : UInt8) :
    unsent (log ++ [.sent ch]) = unsent log - 1 := by
  unfold unsent
  rw [putChars_sent, sentChars_sent, List.length_append]
  push_cast
  rw [List.length_singleton]
  omega

theorem OutInv.pass (h : OutInv o 0 w L) (hpos : 0 < (w.sems o).count) :
    OutInv o 1 (w.setSem o (Sem.wait i32 me)) L :=
  h.of_supply rfl rfl (h.supply.pass h.room_lt hpos)

theorem OutInv.block (h : OutInv o 0 w (update L me none)) (hpid : IsPid me)
    (hneg : (w.sems o).count ≤ 0) :
    OutInv o 0 (w.setSem o (Sem.wait i32 me)) (update L me (some .storing)) :=
  h.of_supply rfl rfl (h.supply.block hpid hneg)

/-- A writer that was released goes on. -/
theorem OutInv.leave (h : OutInv o 0 w L) (hready : w.Ready me) (hme : L me = some .storing) :
    OutInv o 1 (World.leave o me w) (update L me none) :=
  h.of_supply rfl rfl (h.supply.leave hready hme)

/-- The running process holds a unit, and stores a character. -/
theorem OutInv.put (h : OutInv o 1 w L) (ch : UInt8) :
    OutInv o 0 ((w.setShared fun d =>
      { d with
        tyobuff := update d.tyobuff d.tyotail ch
        tyotail := wrapped tyObuflen d.tyotail }.ttykickout).note (.put ch)) L := by
  have hunits := h.units
  have hnonneg := w.units_nonneg o
  have hroom : unsent w.log < tyObuflen := by omega
  have hput := putChars_put w.log ch
  have hsent := sentChars_put w.log ch
  have hunsent := unsent_put w.log ch
  refine ⟨h.tidy.congr rfl rfl rfl rfl, h.osem, h.apart, h.turns.congr rfl rfl fun _ => Iff.rfl,
    ?_, ?_, ?_⟩
  · show w.units o + 0 + unsent (w.log ++ [.put ch]) = tyObuflen
    omega
  · show Ring.Fits tyObuflen w.shared.tyohead (wrapped tyObuflen w.shared.tyotail)
      (unsent (w.log ++ [.put ch]))
    rw [hunsent, wrapped_eq]
    exact h.fits.push hroom
  · show putChars (w.log ++ [.put ch]) = sentChars (w.log ++ [.put ch]) ++
      Ring.window tyObuflen (update w.shared.tyobuff w.shared.tyotail ch) w.shared.tyohead
        (unsent (w.log ++ [.put ch])).toNat
    rw [hput, hsent, hunsent, Ring.window_push h.fits hroom, h.kept, List.append_assoc]

theorem ttyputOne_spares (hpid : IsPid me) (ch : UInt8) : OutSpares o me (ttyputOne me ch) := by
  intro w L h
  unfold ttyputOne
  rw [Coop.run_bind, Coop.run_get, Flow.bind_done, Coop.run_bind, h.osem]
  apply Crew.Holds.bind (Q := fun _ s L => OutInv o 1 s (update L me none))
  · apply World.holds_wait .storing h.turns.used h.tidy.ndefers
    · exact h.supply.count_lt (Int.le_refl 0) h.room_lt
    · exact h.supply.count_gt
    · exact h.pass
    · exact fun hneg _ => h.block hpid hneg
    · exact fun s L' hI hL' hready => hI.leave hready hL'
  · exact fun _ s L hs => hs.put ch

/-! ## The output interrupt -/

/-- Characters of the buffer are handed to the device. -/
theorem OutInv.sendChars (h : OutInv o k w L) {n : Nat} (hn : n ≤ unsent w.log) :
    ∃ s, sendChars n w = .done () s ∧ OutInv o (k + n) s L := by
  induction n generalizing w k with
  | zero =>
      refine ⟨w, rfl, ?_⟩
      simpa using h
  | succ n ih =>
      push_cast at hn
      have hpos : 0 < unsent w.log := by omega
      have hunits := h.units
      have hput := putChars_sent w.log (w.shared.tyobuff w.shared.tyohead)
      have hsent := sentChars_sent w.log (w.shared.tyobuff w.shared.tyohead)
      have hunsent := unsent_sent w.log (w.shared.tyobuff w.shared.tyohead)
      have hnext : OutInv o (k + 1)
          ((w.note (.sent (w.shared.tyobuff w.shared.tyohead))).setShared fun d =>
            { d with tyohead := wrapped tyObuflen d.tyohead }) L := by
        refine ⟨h.tidy.congr rfl rfl rfl rfl, h.osem, h.apart,
          h.turns.congr rfl rfl fun _ => Iff.rfl, ?_, ?_, ?_⟩
        · show w.units o + (k + 1) + unsent (w.log ++ [_]) = tyObuflen
          omega
        · show Ring.Fits tyObuflen (wrapped tyObuflen w.shared.tyohead) w.shared.tyotail
            (unsent (w.log ++ [_]))
          rw [hunsent, wrapped_eq]
          exact h.fits.pop hpos
        · show putChars (w.log ++ [_]) = sentChars (w.log ++ [_]) ++
            Ring.window tyObuflen w.shared.tyobuff (wrapped tyObuflen w.shared.tyohead)
              (unsent (w.log ++ [_])).toNat
          rw [hput, hsent, hunsent, h.kept, Ring.window_pop hpos, wrapped_eq, List.append_assoc,
            List.singleton_append]
      have hroom : (n : Int) ≤ unsent (w.log ++ [.sent (w.shared.tyobuff w.shared.tyohead)]) := by
        omega
      obtain ⟨s, hrun, hs⟩ := ih hnext hroom
      refine ⟨s, ?_, ?_⟩
      · rw [Xinu.sendChars, Coop.run_bind, Coop.run_modify, Flow.bind_done]
        exact hrun
      · have hk : k + ((n + 1 : Nat) : Int) = k + 1 + n := by
          push_cast
          omega
        rw [hk]
        exact hs

/-- The units that the running process holds are signaled. -/
theorem OutInv.signals (h : OutInv o k w L) (hk : 0 ≤ k) :
    OutInv o 0 ((World.release o)^[k.toNat] w) L := by
  obtain ⟨hshared, hlog, -, -⟩ := w.release_frame o k.toNat
  exact h.of_supply hshared hlog (h.supply.signals hk h.room_lt)

theorem turnOff_spares : OutSpares o me turnOff := by
  apply World.Sparing.read
  intro w L _
  apply World.Sparing.ite
  · exact .modify fun w L h => h.modify rfl
  · exact .pure _

theorem sendEcho_output (n : Nat) (uspace : Int) (d : Ttycblk) :
    (d.sendEcho n uspace).1.output = d.output := by
  induction n generalizing uspace d with
  | zero => rfl
  | succ n ih =>
      unfold Ttycblk.sendEcho
      split
      · rw [ih]
        rfl
      · rfl

theorem sendChars_within (n : Nat) : (sendChars n).Within World.Logged := by
  induction n with
  | zero => exact .pure _
  | succ n ih =>
      apply Coop.Within.bind
      · exact .modify fun w => .note w _
      · exact fun _ => ih

theorem turnOff_within : turnOff.Within World.Logged := by
  apply Coop.Within.read
  intro w
  apply Coop.Within.ite
  · exact .modify fun w => .of_eq rfl
  · exact .pure _

/-- What is left of `ttyhandleOut` when the number of characters is known. -/
def flushOut (osem ochars : Int) : TtyM Unit := do
  sendChars ochars.toNat
  if ochars > 0 then
    let _ ← World.signaln osem ochars
  turnOff

theorem flushOut_within (osem ochars : Int) : (flushOut osem ochars).Within World.Logged := by
  apply (sendChars_within _).bind
  intro _
  apply Coop.Within.ite
  · exact (World.signaln_within _ _).bind fun _ => turnOff_within
  · exact turnOff_within

theorem flushOut_keeps (h : OutInv o 0 w (update L me none)) {ochars : Int} (hn : 0 ≤ ochars)
    (hle : ochars ≤ unsent w.log) : OutKeeps o me (flushOut o ochars w) L := by
  have hcast : (ochars.toNat : Int) = ochars := Int.toNat_of_nonneg hn
  obtain ⟨s, hrun, hs⟩ := h.sendChars (n := ochars.toNat) (by omega)
  rw [hcast, Int.zero_add] at hs
  unfold flushOut
  rw [Coop.run_bind, hrun, Flow.bind_done, Coop.run_ite]
  split
  · have hsignals := hs.signals hn
    rw [Coop.run_bind]
    apply World.holds_andThen
    · apply World.holds_signaln .paused hs.turns.used hn hs.tidy.ndefers
      · exact fun _ => hsignals.pause
      · exact fun s' L' hI hL' _ _ => hI.unpause hL'
      · exact fun _ => hsignals
    · exact fun _ s' L' hs' => turnOff_spares.ends hs'
    · exact fun _ => turnOff_within
  · next hzero =>
      have hzero' : ochars = 0 := by omega
      rw [hzero'] at hs
      exact turnOff_spares.ends hs

theorem ttyhandleOut_keeps (h : OutInv o 0 w (update L me none)) (level : Nat) :
    OutKeeps o me (ttyhandleOut level w) L := by
  unfold ttyhandleOut
  rw [Coop.run_bind, Coop.run_get, Flow.bind_done, Coop.run_ite]
  split
  · exact fun _ => h
  rw [Coop.run_bind, Coop.run_get, Flow.bind_done, Coop.run_ite]
  split
  · have hoff : OutInv o 0 (w.setShared fun d => { d with etbei := false })
        (update L me none) := h.modify rfl
    exact fun _ => hoff
  let r := w.shared.sendEcho (uartFifoSize - level).toNat (uartFifoSize - level)
  let w₁ := w.setShared fun _ => r.1
  have h₁ : OutInv o 0 w₁ (update L me none) := h.modify (sendEcho_output _ _ _)
  have hcount : w₁.semcount o = (w₁.sems o).count := by
    unfold World.semcount
    rw [if_pos h₁.turns.used]
  have hrun : OutKeeps o me (flushOut w₁.shared.tyosem
      (max (min r.2 (tyObuflen - w₁.semcount w₁.shared.tyosem)) 0)
      (w₁.note (.flush r.2 (w₁.semcount w₁.shared.tyosem) (w₁.units w₁.shared.tyosem)))) L := by
    rw [h₁.osem]
    by_cases hcovered : min r.2 (tyObuflen - w₁.semcount o) ≤ tyObuflen - w₁.units o
    · have h₂ := h₁.note (e := .flush r.2 (w₁.semcount o) (w₁.units o)) trivial
      have hunits := h₁.units
      have hnonneg := h₁.fits.count_nonneg
      have hsame : unsent (w₁.note (.flush r.2 (w₁.semcount o) (w₁.units o))).log =
          unsent w₁.log := by
        obtain ⟨hput, hsent⟩ := chars_incoming w₁.log
          (e := .flush r.2 (w₁.semcount o) (w₁.units o)) trivial
        unfold unsent
        show ((putChars (w₁.log ++ _)).length : Int) - (sentChars (w₁.log ++ _)).length = _
        rw [hput, hsent]
      apply flushOut_keeps h₂ (Int.le_max_right _ _)
      rw [hsame]
      omega
    · exact World.holds_of_bad (flushOut_within o _) hcovered
  exact hrun

/-! ## Calls that leave the output buffer alone -/

theorem output_echoIf {d : Ttycblk} {ch : UInt8} : (d.echoIf ch).output = d.output :=
  Ttycblk.echoIf_view fun _ _ => rfl

theorem output_erase1 {d : Ttycblk} : d.erase1.output = d.output :=
  Ttycblk.echoErase_view fun _ _ => rfl

theorem calm_modify {f : Ttycblk → Ttycblk} (hf : ∀ d, (f d).output = d.output) :
    World.Calm (OutInv o 0) (modify (·.setShared f) : TtyM PUnit) :=
  .modify (fun _ => rfl) fun w b L h =>
    (h.modify (hf _) : OutInv o 0 ((w.settle b).setShared f) L)

theorem calm_signal {y : Int} (hy : y ≠ o) : World.Calm (OutInv o 0) (World.signal y : TtyM Int) :=
  .of_within (World.signal_away hy) (World.signal_prompt y) fun _ _ b _ h haway =>
    h.away (haway.settle b)

theorem calm_signaln {y : Int} (hy : y ≠ o) (n : Int) :
    World.Calm (OutInv o 0) (World.signaln y n : TtyM Int) :=
  .of_within (World.signaln_away hy n) (World.signaln_prompt y n) fun _ _ b _ h haway =>
    h.away (haway.settle b)

theorem tracePath_calm (path : InputPath) : World.Calm (OutInv o 0) (tracePath path) :=
  .modify (fun _ => rfl) fun w b L h =>
    (h.note trivial : OutInv o 0 ((w.settle b).note (.input path w.shared.tyitail
      w.shared.tyicursor (w.units w.shared.tyisem))) L)

theorem ttyhandleCooked_calm (ch : UInt8) : World.Calm (OutInv o 0) (ttyhandleCooked ch) := by
  apply World.Calm.read
  intro w L hw
  have hisem : w.shared.tyisem ≠ o := (hw.inv false).apart
  apply World.Calm.ite
  · apply (tracePath_calm .kill).bind
    exact fun _ => calm_modify fun _ => rfl
  apply World.Calm.ite
  · apply World.Calm.ite
    · apply (tracePath_calm .erase).bind
      exact fun _ => calm_modify fun _ => output_erase1
    · exact .pure _
  apply World.Calm.ite
  · apply (tracePath_calm .eol).bind
    intro _
    apply World.Calm.bind
    · exact calm_modify fun _ => output_echoIf
    · intro _
      exact (calm_signaln hisem _).bind fun _ => calm_modify fun _ => rfl
  apply World.Calm.read
  intro w' L' hw'
  apply World.Calm.ite
  · exact calm_modify fun _ => rfl
  apply World.Calm.ite
  · apply World.Calm.ite
    · exact calm_modify fun _ => output_echoIf
    · apply (tracePath_calm .eof).bind
      intro _
      apply World.Calm.bind
      · exact calm_modify fun _ => output_echoIf
      · exact fun _ => (calm_signal hisem).bind fun _ => .pure _
  · apply (tracePath_calm .text).bind
    exact fun _ => calm_modify fun _ => output_echoIf

/-- The tail of the output buffer is in its range, so that the raw path leaves it alone. -/
theorem wrapOutput_calm : World.Calm (OutInv o 0) (modify (·.setShared fun d =>
    { d with tyotail := if d.tyotail ≥ tyObuflen then 0 else d.tyotail }) : TtyM PUnit) := by
  apply World.Calm.modify
  · exact fun _ => rfl
  intro w b L h
  have hlt := h.fits.tail_lt
  have hnot : ¬ w.shared.tyotail ≥ tyObuflen := not_le_of_gt hlt
  have hsame : { w.shared with
      tyotail := if w.shared.tyotail ≥ tyObuflen then 0 else w.shared.tyotail } = w.shared := by
    rw [if_neg hnot]
  apply h.away
  apply World.Away.of_same
  · rfl
  · rfl
  · rfl
  · rfl
  · exact congrArg (fun d => outputView (d, w.log)) hsame

theorem ttyhandleIn_calm (ch : UInt8) : World.Calm (OutInv o 0) (ttyhandleIn ch) := by
  apply World.Calm.read
  intro w L hw
  have hisem : w.shared.tyisem ≠ o := (hw.inv false).apart
  apply World.Calm.ite
  · apply World.Calm.ite
    · exact .pure _
    · apply (tracePath_calm .raw).bind
      intro _
      apply World.Calm.bind
      · exact calm_modify fun _ => rfl
      · intro _
        apply wrapOutput_calm.bind
        exact fun _ => (calm_signal hisem).bind fun _ => .pure _
  apply World.Calm.ite
  · exact calm_modify fun _ => rfl
  apply World.Calm.ite
  · exact calm_modify fun _ => rfl
  apply World.Calm.bind
  · exact calm_modify fun _ => rfl
  intro _
  apply World.Calm.ite
  · apply World.Calm.ite
    · exact calm_modify fun _ => rfl
    · apply (tracePath_calm .cbreak).bind
      exact fun _ => calm_modify fun _ => output_echoIf
  · exact ttyhandleCooked_calm _

theorem ttyhandleAll_calm (chars : List UInt8) : World.Calm (OutInv o 0) (ttyhandleAll chars) := by
  induction chars with
  | nil => exact .pure _
  | cons ch chars ih => exact (ttyhandleIn_calm ch).bind fun _ => ih

theorem ttyhandler_keeps (h : OutInv o 0 w (update L me none)) (cause : TtyCause) :
    OutKeeps o me (ttyhandler cause w) L := by
  cases cause with
  | rlsi => exact fun _ => h
  | rda chars =>
      have hstart : World.Deferred (OutInv o 0) { w with ndefers := 1, attempt := false }
          (update L me none) := by
        apply World.Deferred.start h.tidy.ndefers
        intro b
        apply h.away
        apply World.Away.of_same
        · rfl
        · rfl
        · rfl
        · rfl
        · rfl
      obtain ⟨u, s, hrun, hs⟩ := ttyhandleAll_calm chars _ _ hstart
      rw [ttyhandler, Coop.run_bind, World.reschedCntl_start h.tidy.ndefers, Flow.bind_done, Coop.run_bind,
        hrun, Flow.bind_done]
      apply (hs.stop .paused (fun _ _ h => h.pause) fun _ _ h hme => h.unpause hme).mono
      exact fun _ _ _ h _ => h
  | thre level =>
      rw [ttyhandler, Coop.run_bind, Coop.run_get, Flow.bind_done, Coop.run_ite]
      split
      · apply World.holds_andThen (ttyhandleOut_keeps h level)
        · exact fun _ s L h _ => h
        · exact fun _ => .pure _
      · exact fun _ => h
  | msc => exact fun _ => h

/-! ## Readers -/

theorem wait_spares {y : Int} (hy : y ≠ o) : OutSpares o me (World.wait me y) :=
  .of_away (World.wait_away hy me)

theorem ttygetc_spares : OutSpares o me (ttygetc me) := by
  apply World.Sparing.read
  intro w L h
  apply (wait_spares h.apart).bind
  intro _
  apply World.Sparing.read
  intro w L h
  apply World.Sparing.bind
  · apply World.Sparing.modify
    intro w L h
    have hhead : OutInv o 0 (w.setShared fun d =>
        { d with tyihead := wrapped tyIbuflen d.tyihead }) L := h.modify rfl
    exact hhead.note trivial
  · intro _
    apply World.Sparing.ite
    · exact .pure _
    · exact .pure _

theorem ttyNextc_spares : OutSpares o me (ttycontrol me tcNextc) := by
  apply World.Sparing.read
  intro w L h
  apply (wait_spares h.apart).bind
  intro _
  apply World.Sparing.read
  intro w' L' _
  apply World.Sparing.bind
  · exact OutSpares.of_away (World.signal_away h.apart)
  · exact fun _ => .pure _

/-! ## Runs -/

theorem ttyCall_keeps (h : OutInv o 0 w (update L me none)) (hpid : IsPid me) (c : TtyCall) :
    OutKeeps o me (ttyCrew.exec me c w) L := by
  cases c with
  | putc ch => exact (ttyputc_spares (ttyputOne_spares hpid) ch).ends h
  | write buff => exact (ttywrite_spares (ttyputOne_spares hpid) buff).ends h
  | getc => exact ttygetc_spares.ends h
  | read count => exact ((ttyread_spares ttygetc_spares count).bind fun _ => .pure _).ends h
  | control func =>
      have hmodify : ∀ {f : Ttycblk → Ttycblk}, (∀ d, (f d).output = d.output) → ∀ w L,
          OutInv o 0 w L → OutInv o 0 (w.setShared f) L :=
        fun hf _ _ h => h.modify (hf _)
      apply (ttycontrol_spares ttyNextc_spares _ _ func).ends h
      · exact fun _ => hmodify fun _ => rfl
      · exact fun _ => hmodify fun _ => rfl
  | interrupt cause => exact ttyhandler_keeps h cause

theorem TtyStart.outInv (h : TtyStart w) :
    OutInv w.shared.tyosem 0 w fun _ => (none : Option OutputPlace) := by
  have hput : putChars w.log = [] := by
    rw [h.log]
    rfl
  have hsent : sentChars w.log = [] := by
    rw [h.log]
    rfl
  have hunsent : unsent w.log = 0 := by
    unfold unsent
    rw [hput, hsent]
    rfl
  constructor
  · exact h.tidy
  · rfl
  · exact h.apart
  · constructor
    · rw [h.osem]
    · rw [h.osem]
      rfl
    · rw [h.osem, h.ogranted]
      exact List.nodup_nil
    · intro p hp
      contradiction
    · intro p
      rw [h.osem, h.ogranted]
      simp
  · rw [hunsent]
    unfold World.units
    rw [h.osem, h.ogranted]
    rfl
  · rw [h.ohead, h.otail, hunsent]
    exact ⟨by decide, by decide, by decide, by decide, rfl⟩
  · rw [hput, hsent, hunsent]
    rfl

/--
If at every output interrupt the handler finds no more space than there are characters in
the buffer while writers wait or have been released, then in every run the characters are
handed to the device in the order in which they were put, each once, and no place is read
before it is written.
-/
theorem tty_output {w : World Ttycblk TtyEvent} {tr : List (Segment _ TtyCall)}
    {C : Config (World Ttycblk TtyEvent) TtyCall} (hstart : TtyStart w)
    (hrun : ttyCrew.Run (fun _ seg => seg.after.AllEvents TtyEvent.Covered)
      (Machine.initial w) tr C) : TtyFifo C.state := by
  have hcall : ∀ p c s L, OutInv w.shared.tyosem 0 s L → ttyCrew.ready s p → L p = none →
      OutKeeps w.shared.tyosem p (ttyCrew.exec p c s) L := by
    intro p c s L hI hready hL
    apply ttyCall_keeps _ hready.1
    rw [← hL, update_eq_self]
    exact hI
  obtain ⟨L, hI, -⟩ := Crew.run_holds hstart.outInv hcall hrun
  exact hI.fifo

/-- The world in which the terminal has been initialized first. -/
def ttyBoot : World Ttycblk TtyEvent where
  sems := update (update (fun _ => ⟨false, 0, []⟩) 0 ⟨true, 0, []⟩) 1 ⟨true, tyObuflen, []⟩
  nextsem := 2
  ndefers := 0
  attempt := false
  shared :=
    { tyihead := 0, tyitail := 0, tyibuff := fun _ => 0, tyisem := 0
      tyohead := 0, tyotail := 0, tyobuff := fun _ => 0, tyosem := 1
      tyehead := 0, tyetail := 0, tyebuff := fun _ => 0
      tyimode := .cooked, tyiecho := true, tyieback := true, tyevis := true
      tyecrlf := true, tyicrlf := true, tyierase := true, tyierasec := tyBacksp
      tyeof := true, tyeofch := tyEofch, tyikill := true, tyikillc := tyKillch
      tyicursor := 0, tyoflow := true, tyoheld := false
      tyostop := tyStopch, tyostart := tyStrtch, tyocrlf := true, tyifullc := tyBell
      etbei := true }
  granted := fun _ => []
  log := []

theorem ttyBoot_queue (x : Int) : (ttyBoot.sems x).queue = [] := by
  show (update (update (fun _ => (⟨false, 0, []⟩ : Sem Int)) 0 ⟨true, 0, []⟩) 1
    ⟨true, tyObuflen, []⟩ x).queue = []
  by_cases h1 : x = 1
  · rw [h1, update_self]
  · rw [update_of_ne h1]
    by_cases h0 : x = 0
    · rw [h0, update_self]
    · rw [update_of_ne h0]

theorem ttyBoot_good {x : Int} (hx : (ttyBoot.sems x).used = true) : ¬ isbadsem x := by
  by_cases h1 : x = 1
  · rw [h1]
    decide
  · by_cases h0 : x = 0
    · rw [h0]
      decide
    · have hsem : ttyBoot.sems x = ⟨false, 0, []⟩ := by
        show update (update _ 0 _) 1 _ x = _
        rw [update_of_ne h1, update_of_ne h0]
      rw [hsem] at hx
      contradiction

theorem ttyBoot_start : TtyStart ttyBoot := by
  constructor
  · constructor
    · decide
    · decide
    · rfl
    · exact fun x => ttyBoot_good
    · exact fun x _ => ttyBoot_queue x
    · exact fun _ _ => rfl
  · rfl
  · rfl
  · decide
  · rfl
  · rfl
  · rfl
  · rfl
  · rfl
  · rfl
  · rfl
  · rfl

instance (s : World Ttycblk TtyEvent) (p : Int) : Decidable (ttyCrew.ready s p) :=
  inferInstanceAs (Decidable (World.Ready s p))

/-- A line is written, with a carriage return before its newline, and goes out. -/
theorem line_sent : ∃ tr C, ttyCrew.Run
    (fun _ seg => seg.after.AllEvents TtyEvent.Covered) (Machine.initial ttyBoot) tr C ∧
      sentChars C.state.log = [0x41, tyReturn, tyNewline] ∧ TtyFifo C.state := by
  let script : List (Int × Option TtyCall) :=
    [(1, some (.write [0x41, tyNewline])), (2, some (.interrupt (.thre 0)))]
  have hsome : (ttyCrew.replay (fun _ seg => seg.after.AllEvents TtyEvent.Covered)
      (fun _ C f => f C) script [] (Machine.initial ttyBoot)).map
        (fun r => sentChars r.2.state.log) = some [0x41, tyReturn, tyNewline] := by
    decide +kernel
  rw [Option.map_eq_some_iff] at hsome
  obtain ⟨⟨tr, C⟩, heq, hsent⟩ := hsome
  have hrun := ttyCrew.replay_run (fun _ _ _ => rfl) .start heq
  exact ⟨tr, C, hrun, hsent, tty_output ttyBoot_start hrun⟩

/-- The buffer is full, and a writer waits.  The first interrupt sends all characters and
releases the writer; the second sends the place that the writer has not filled yet. -/
theorem tty_overrun : ∃ tr C, ttyCrew.Run (fun _ _ => True) (Machine.initial ttyBoot) tr C ∧
    ¬ TtyFifo C.state := by
  let script : List (Int × Option TtyCall) :=
    [(1, some (.write (List.replicate 64 0x41))), (2, some (.putc 0x42)),
      (1, some (.interrupt (.thre 0))), (3, some (.interrupt (.thre 0)))]
  have hsome : (ttyCrew.replay (fun _ _ => True) (fun _ C f => f C) script []
      (Machine.initial ttyBoot)).map (fun r =>
        ((putChars r.2.state.log).length, (sentChars r.2.state.log).length)) =
          some (64, 65) := by
    decide +kernel
  rw [Option.map_eq_some_iff] at hsome
  obtain ⟨⟨tr, C⟩, heq, hlengths⟩ := hsome
  have hrun := ttyCrew.replay_run (fun _ _ _ => rfl) .start heq
  refine ⟨tr, C, hrun, fun hfifo => ?_⟩
  obtain ⟨hput, hsent⟩ := Prod.mk.inj hlengths
  have hle := hfifo.order.length_le
  dsimp only at hput hsent hle
  omega

end Xinu
