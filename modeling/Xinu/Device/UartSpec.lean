import Xinu.Device.Uart
import Xinu.Foundations.RingBuffer

/-!
# The output of the serial device

A writer that stores its byte relies on a transmit interrupt that is still to come.  A
writer that was blocked may find that the interrupt handler has noted in the meantime that
the transmitter is idle.

Main results:

- Theorem `uart_output`: if no byte is stored while the transmitter is noted as idle, the
  bytes go out in the order in which they were accepted, and the output does not stall.
- Theorem `uart_stalls`: a writer that is released late stores its byte where no
  interrupt will find it.
-/

namespace Xinu

open Foundations Function

/-- The bytes that were accepted. -/
def accepted (log : List UartEvent) : List UInt8 :=
  log.map UartEvent.byte

theorem accepted_snoc (log : List UartEvent) (e : UartEvent) :
    accepted (log ++ [e]) = accepted log ++ [e.byte] := by
  simp [accepted]

namespace Uart

/-- The bytes in the output buffer. -/
def queued (d : Uart) : List UInt8 :=
  Ring.window uartOblen d.out d.ostart d.ocount.toNat

/-- The bytes that went out, and those that will. -/
def onWay (d : Uart) : List UInt8 :=
  d.regs.wire ++ d.regs.dr.toList ++ d.queued

/-- Bytes wait in the buffer, but no interrupt is pending, none will be raised by a byte in
the transmitter, and `oidle` is set. -/
def Stalled (d : Uart) : Prop :=
  0 < d.ocount ∧ d.oidle = true ∧ d.regs.txris = false ∧ d.regs.dr = none

instance (d : Uart) : Decidable d.Stalled :=
  inferInstanceAs (Decidable (_ ∧ _ ∧ _ ∧ _))

/-- The output half of the two entries is the same. -/
structure SameOutput (d d' : Uart) : Prop where
  csr : d'.csr = d.csr
  isema : d'.isema = d.isema
  osema : d'.osema = d.osema
  ostart : d'.ostart = d.ostart
  ocount : d'.ocount = d.ocount
  out : d'.out = d.out
  oidle : d'.oidle = d.oidle
  regs : d'.regs = d.regs

/-- The output buffer and the holding register are in use as they should be, but for the
interrupt that moves the bytes on. -/
structure Sound (d : Uart) : Prop where
  ostart_nonneg : 0 ≤ d.ostart
  ostart_lt : d.ostart < uartOblen
  ocount_nonneg : 0 ≤ d.ocount
  ocount_le : d.ocount ≤ uartOblen
  raised : d.regs.txris = true → d.regs.dr = none

/-- While the transmitter is idle nothing is left to send, and while it is not an
interrupt will be raised. -/
structure Ok (d : Uart) : Prop extends Sound d where
  idle : d.oidle = true → d.ocount = 0 ∧ d.regs.dr = none ∧ d.regs.txris = false
  busy : d.oidle = false → d.regs.txris = true ∨ d.regs.dr ≠ none

variable {d d' : Uart} {ch : UInt8}

theorem SameOutput.onWay (h : SameOutput d d') : d'.onWay = d.onWay := by
  unfold Uart.onWay queued
  rw [h.regs, h.out, h.ostart, h.ocount]

theorem SameOutput.ok (h : SameOutput d d') (hok : d.Ok) : d'.Ok := by
  refine ⟨⟨?_, ?_, ?_, ?_, ?_⟩, ?_, ?_⟩
  · rw [h.ostart]
    exact hok.ostart_nonneg
  · rw [h.ostart]
    exact hok.ostart_lt
  · rw [h.ocount]
    exact hok.ocount_nonneg
  · rw [h.ocount]
    exact hok.ocount_le
  · rw [h.regs]
    exact hok.raised
  · rw [h.oidle, h.ocount, h.regs]
    exact hok.idle
  · rw [h.oidle, h.regs]
    exact hok.busy

/-- Nothing waits that no interrupt will find. -/
theorem Ok.not_stalled (h : d.Ok) : ¬ d.Stalled := by
  rintro ⟨hpos, hidle, -, -⟩
  have hzero := (h.idle hidle).1
  omega

theorem Sound.fits (h : d.Sound) :
    Ring.Fits uartOblen d.ostart ((d.ostart + d.ocount).tmod uartOblen) d.ocount := by
  refine ⟨h.ostart_nonneg, h.ostart_lt, h.ocount_nonneg, h.ocount_le, ?_⟩
  have hstart := h.ostart_nonneg
  have hcount := h.ocount_nonneg
  exact Int.tmod_eq_emod_of_nonneg (by omega)

/-- A byte is written to the idle transmitter. -/
theorem Ok.putDirect (h : d.Ok) (hidle : d.oidle = true) :
    (d.putDirect ch).Ok ∧ (d.putDirect ch).onWay = d.onWay ++ [ch] := by
  obtain ⟨hcount, hdr, htxris⟩ := h.idle hidle
  constructor
  · refine ⟨⟨h.ostart_nonneg, h.ostart_lt, h.ocount_nonneg, h.ocount_le, ?_⟩, ?_, ?_⟩
    · intro hraised
      cases hraised
    · intro hfalse
      cases hfalse
    · exact fun _ => Or.inr (Option.some_ne_none ch)
  · have hqueued : d.queued = [] := by
      unfold queued
      rw [hcount]
      rfl
    have hqueued' : (d.putDirect ch).queued = [] := hqueued
    unfold onWay
    rw [hqueued, hqueued', hdr]
    simp [Uart.putDirect, Pl011.write]

/-- A byte is stored while the transmitter is busy. -/
theorem Ok.store (h : d.Ok) (hbusy : d.oidle = false) (hroom : d.ocount < uartOblen) :
    (d.store ch).Ok ∧ (d.store ch).onWay = d.onWay ++ [ch] := by
  have hnonneg := h.ocount_nonneg
  constructor
  · refine ⟨⟨h.ostart_nonneg, h.ostart_lt, ?_, ?_, h.raised⟩, ?_, h.busy⟩
    · show 0 ≤ d.ocount + 1
      omega
    · show d.ocount + 1 ≤ uartOblen
      omega
    · intro hidle
      have hidle' : d.oidle = true := hidle
      rw [hbusy] at hidle'
      contradiction
  · have hqueued : (d.store ch).queued = d.queued ++ [ch] :=
      Ring.window_push h.fits hroom ch
    have hregs : (d.store ch).regs = d.regs := rfl
    unfold onWay
    rw [hqueued, hregs, List.append_assoc _ d.queued]

/-- The transmitter takes a byte. -/
theorem Sound.shift (h : d.Sound) : ({ d with regs := d.regs.shift } : Uart).Sound ∧
    ({ d with regs := d.regs.shift } : Uart).onWay = d.onWay := by
  have hqueued : ({ d with regs := d.regs.shift } : Uart).queued = d.queued := rfl
  constructor
  · refine ⟨h.ostart_nonneg, h.ostart_lt, h.ocount_nonneg, h.ocount_le, ?_⟩
    show d.regs.shift.txris = true → d.regs.shift.dr = none
    unfold Pl011.shift
    cases hdr : d.regs.dr with
    | none => exact fun _ => hdr
    | some c => exact fun _ => rfl
  · unfold onWay
    rw [hqueued]
    show d.regs.shift.wire ++ d.regs.shift.dr.toList ++ d.queued = _
    unfold Pl011.shift
    cases hdr : d.regs.dr with
    | none => simp [hdr]
    | some c => simp

theorem Ok.shift (h : d.Ok) : ({ d with regs := d.regs.shift } : Uart).Ok := by
  refine ⟨h.toSound.shift.1, ?_, ?_⟩
  · intro hidle
    obtain ⟨hcount, hdr, htxris⟩ := h.idle hidle
    have hsame : d.regs.shift = d.regs := by
      unfold Pl011.shift
      rw [hdr]
    show d.ocount = 0 ∧ d.regs.shift.dr = none ∧ d.regs.shift.txris = false
    rw [hsame]
    exact ⟨hcount, hdr, htxris⟩
  · intro hbusy
    show d.regs.shift.txris = true ∨ d.regs.shift.dr ≠ none
    unfold Pl011.shift
    cases hdr : d.regs.dr with
    | none => exact (h.busy hbusy).imp id fun hne => (hne hdr).elim
    | some c => exact Or.inl rfl

/-- A byte moves from the buffer to the empty holding register. -/
theorem Sound.send (h : d.Sound) (hpos : 0 < d.ocount) (hdr : d.regs.dr = none) :
    d.send.Sound ∧ d.send.onWay = d.onWay := by
  have hle := h.ocount_le
  have hnext : (d.ostart + 1).tmod uartOblen = Ring.next uartOblen d.ostart := by
    have hstart := h.ostart_nonneg
    rw [Int.tmod_eq_emod_of_nonneg (by omega), Ring.next_eq h.ostart_nonneg h.ostart_lt]
  constructor
  · refine ⟨?_, ?_, ?_, ?_, ?_⟩
    · show 0 ≤ (d.ostart + 1).tmod uartOblen
      rw [hnext]
      exact Ring.next_nonneg h.ostart_nonneg
    · show (d.ostart + 1).tmod uartOblen < uartOblen
      rw [hnext]
      exact Ring.next_lt h.ostart_nonneg h.ostart_lt
    · show 0 ≤ d.ocount - 1
      omega
    · show d.ocount - 1 ≤ uartOblen
      omega
    · intro hraised
      cases hraised
  · have hpop : d.queued = d.out d.ostart :: d.send.queued := by
      unfold queued
      rw [Ring.window_pop hpos]
      show _ = _ :: Ring.window uartOblen d.out ((d.ostart + 1).tmod uartOblen)
        (d.ocount - 1).toNat
      rw [hnext]
    unfold onWay
    rw [hpop, hdr]
    simp [Uart.send, Pl011.write]

/-- What moving bytes to the transmitter leaves, with the number of bytes moved. -/
structure Drained (d : Uart) (r : Uart × Int) : Prop where
  sound : r.1.Sound
  onWay : r.1.onWay = d.onWay
  moved : r.1.ocount + r.2 = d.ocount
  count_pos : 0 < r.2
  busy : r.1.regs.txris = true ∨ r.1.regs.dr ≠ none
  csr : r.1.csr = d.csr
  isema : r.1.isema = d.isema
  osema : r.1.osema = d.osema
  oidle : r.1.oidle = d.oidle

theorem Sound.drain (h : d.Sound) (hpos : 0 < d.ocount) (hdr : d.regs.dr = none) {n : Nat}
    (hn : d.ocount ≤ n) (shifts : List Bool) : Drained d (d.drain n shifts) := by
  induction n generalizing d shifts with
  | zero => omega
  | succ n ih =>
      obtain ⟨hsound, hway⟩ := h.send hpos hdr
      have hsent : d.send.regs.dr ≠ none := Option.some_ne_none _
      unfold Uart.drain
      dsimp only
      have hnext : ∀ e : Uart, e.Sound → e.onWay = d.onWay → e.ocount = d.ocount - 1 →
          e.csr = d.csr → e.isema = d.isema → e.osema = d.osema → e.oidle = d.oidle →
            (e.regs.txris = true ∨ e.regs.dr ≠ none) →
              Drained d (if e.regs.dr = none ∧ e.ocount > 0 then
                ((e.drain n shifts.tail).1, (e.drain n shifts.tail).2 + 1) else (e, 1)) := by
        intro e he hway' hcount hcsr hisema hosema hoidle hbusy
        split
        · next hmore =>
            have hrest := ih he hmore.2 hmore.1 (by omega) shifts.tail
            have hmoved := hrest.moved
            have hcountpos := hrest.count_pos
            exact ⟨hrest.sound, hrest.onWay.trans hway', by dsimp only; omega,
              by dsimp only; omega, hrest.busy, hrest.csr.trans hcsr, hrest.isema.trans hisema,
              hrest.osema.trans hosema, hrest.oidle.trans hoidle⟩
        · exact ⟨he, hway', by dsimp only; omega, Int.one_pos, hbusy, hcsr, hisema, hosema, hoidle⟩
      split
      · apply hnext
        · exact hsound.shift.1
        · exact hsound.shift.2.trans hway
        · rfl
        · rfl
        · rfl
        · rfl
        · rfl
        · exact Or.inl rfl
      · exact hnext d.send hsound hway rfl rfl rfl rfl rfl (Or.inr hsent)

theorem receive_same (received : List UInt8) (d : Uart) :
    SameOutput d (d.receive received).1 ∧ 0 ≤ (d.receive received).2 := by
  induction received generalizing d with
  | nil => exact ⟨⟨rfl, rfl, rfl, rfl, rfl, rfl, rfl, rfl⟩, Int.le_refl 0⟩
  | cons c received ih =>
      unfold Uart.receive
      split
      · obtain ⟨⟨h1, h2, h3, h4, h5, h6, h7, h8⟩, hcount⟩ := ih
          { d with
            input := update d.input ((d.istart + d.icount).tmod uartIblen) c
            icount := d.icount + 1 }
        refine ⟨⟨h1, h2, h3, h4, h5, h6, h7, h8⟩, ?_⟩
        dsimp only
        omega
      · obtain ⟨⟨h1, h2, h3, h4, h5, h6, h7, h8⟩, hcount⟩ := ih { d with ovrrn := d.ovrrn + 1 }
        exact ⟨⟨h1, h2, h3, h4, h5, h6, h7, h8⟩, hcount⟩

end Uart

/-- No byte is stored while the transmitter is noted as idle. -/
def UartEvent.Proper : UartEvent → Prop
  | .direct _ => True
  | .stored oidle _ => oidle = false

instance : DecidablePred UartEvent.Proper := fun e =>
  match e with
  | .direct _ => instDecidableTrue
  | .stored _ _ => inferInstanceAs (Decidable (_ = _))

/-- The bytes on the line are those that were accepted first, the others are in the
transmitter and in the buffer, in their order, and the output does not stall. -/
structure UartFifo (w : World Uart UartEvent) : Prop where
  order : w.shared.regs.wire <+: accepted w.log
  kept : accepted w.log = w.shared.onWay
  moving : ¬ w.shared.Stalled

/-- Where a call is suspended. -/
inductive UartPlace
  | storing
  | paused

variable {w w' : World Uart UartEvent} {L L' : Int → Option UartPlace} {me k o : Int}

/-- The invariant, where `o` is the semaphore of the output buffer and the running process
holds `k` units of the buffer. -/
structure UartInv (o k : Int) (w : World Uart UartEvent) (L : Int → Option UartPlace) :
    Prop where
  tidy : w.Tidy
  csr : w.shared.csr = true
  osema : w.shared.osema = o
  isema : (w.sems w.shared.isema).used = true
  apart : w.shared.osema ≠ w.shared.isema
  turns : w.Turns w.shared.osema fun p => L p = some .storing
  units : w.units w.shared.osema + k + w.shared.ocount = uartOblen
  ok : w.shared.Ok
  kept : accepted w.log = w.shared.onWay

theorem UartInv.fifo (h : UartInv o k w L) : UartFifo w := by
  refine ⟨?_, h.kept, h.ok.not_stalled⟩
  rw [h.kept]
  unfold Uart.onWay
  rw [List.append_assoc]
  exact List.prefix_append _ _

theorem UartInv.congr (h : UartInv o k w L) (hL : ∀ p, L' p = some .storing ↔ L p = some .storing) :
    UartInv o k w L' :=
  ⟨h.tidy, h.csr, h.osema, h.isema, h.apart, h.turns.congr rfl rfl hL, h.units, h.ok, h.kept⟩

theorem UartInv.pause (h : UartInv o k w (update L me none)) :
    UartInv o k w (update L me (some .paused)) := by
  apply h.congr
  intro p
  by_cases hp : p = me
  · simp [hp]
  · simp [hp]

theorem UartInv.unpause (h : UartInv o k w L) (hme : L me = some .paused) :
    UartInv o k w (update L me none) := by
  apply h.congr
  intro p
  by_cases hp : p = me
  · simp [hp, hme]
  · simp [hp]

/-- Nothing changes that concerns the output. -/
theorem UartInv.of_same (h : UartInv o k w L) (hd : w.shared.SameOutput w'.shared)
    (htidy : w'.Tidy) (hused : (w'.sems w.shared.isema).used = true)
    (hsem : w'.sems w.shared.osema = w.sems w.shared.osema)
    (hgranted : w'.granted w.shared.osema = w.granted w.shared.osema) (hlog : w'.log = w.log) :
    UartInv o k w' L := by
  constructor
  · exact htidy
  · rw [hd.csr]
    exact h.csr
  · rw [hd.osema]
    exact h.osema
  · rw [hd.isema]
    exact hused
  · rw [hd.osema, hd.isema]
    exact h.apart
  · rw [hd.osema]
    exact h.turns.congr hsem hgranted fun _ => Iff.rfl
  · rw [hd.osema, hd.ocount, World.units_congr hsem hgranted]
    exact h.units
  · exact hd.ok h.ok
  · rw [hlog, hd.onWay]
    exact h.kept

/-! ## Writers -/

/-- The execution keeps the invariant as long as all events are proper. -/
abbrev UartKeeps {α : Type} (o me : Int) (x : Flow (World Uart UartEvent) α)
    (L : Int → Option UartPlace) : Prop :=
  uartCrew.Holds (UartInv o 0) (World.AllEvents UartEvent.Proper) me
    (Crew.Ends (UartInv o 0) (World.AllEvents UartEvent.Proper) me) x L

theorem uartWriteLoop_within (me : Int) (count : Nat) (buf : List UInt8) :
    (uartWriteLoop me count buf).Within World.Logged := by
  induction buf generalizing count with
  | nil => exact .pure _
  | cons ch buf ih =>
      apply Coop.Within.read
      intro w
      apply Coop.Within.ite
      · apply Coop.Within.bind
        · exact .modify fun w => .note _ _
        · exact fun _ => ih _
      · apply Coop.Within.ite
        · exact .pure _
        · apply (World.wait_within _ _).bind
          intro _
          apply Coop.Within.bind
          · exact .modify fun w => .note _ _
          · exact fun _ => ih _

theorem UartInv.count_lt (h : UartInv o k w L) (hk : 0 ≤ k) :
    w.units w.shared.osema ≤ uartOblen := by
  have hunits := h.units
  have hcount := h.ok.ocount_nonneg
  omega

theorem UartInv.putDirect (h : UartInv o 0 w L) (hidle : w.shared.oidle = true) (ch : UInt8) :
    UartInv o 0 ((w.setShared (Uart.putDirect ch)).note (.direct ch)) L := by
  obtain ⟨hok, hway⟩ : (w.shared.putDirect ch).Ok ∧
      (w.shared.putDirect ch).onWay = w.shared.onWay ++ [ch] := h.ok.putDirect hidle
  refine ⟨h.tidy.congr rfl rfl rfl rfl, h.csr, h.osema, h.isema, h.apart,
    h.turns.congr rfl rfl fun _ => Iff.rfl, h.units, hok, ?_⟩
  show accepted (w.log ++ [.direct ch]) = (w.shared.putDirect ch).onWay
  rw [accepted_snoc, hway, h.kept]
  rfl

/-- The running process holds a unit, and uses it. -/
theorem UartInv.store (h : UartInv o 1 w L) (hbusy : w.shared.oidle = false) (ch : UInt8) :
    UartInv o 0 ((w.setShared (Uart.store ch)).note (.stored w.shared.oidle ch)) L := by
  have hunits := h.units
  have hnonneg := w.units_nonneg w.shared.osema
  obtain ⟨hok, hway⟩ : (w.shared.store ch).Ok ∧
      (w.shared.store ch).onWay = w.shared.onWay ++ [ch] := h.ok.store hbusy (by omega)
  refine ⟨h.tidy.congr rfl rfl rfl rfl, h.csr, h.osema, h.isema, h.apart,
    h.turns.congr rfl rfl fun _ => Iff.rfl, ?_, hok, ?_⟩
  · show w.units w.shared.osema + 0 + (w.shared.ocount + 1) = uartOblen
    omega
  · show accepted (w.log ++ [.stored w.shared.oidle ch]) = (w.shared.store ch).onWay
    rw [accepted_snoc, hway, h.kept]
    rfl

theorem UartInv.pass (h : UartInv o 0 w L) (hpos : 0 < (w.sems w.shared.osema).count) :
    UartInv o 1 (w.setSem w.shared.osema (Sem.wait i32 me)) L := by
  have hle := h.count_lt (Int.le_refl 0)
  have hcount := w.count_le_units w.shared.osema
  have hlt : (w.sems w.shared.osema).count < 0x80000000 := by
    unfold uartOblen at hle
    omega
  have hunits := h.units
  refine ⟨h.tidy.setSem h.turns.used h.turns.used, h.csr, h.osema, ?_, h.apart,
    (h.turns.pass hpos hlt).1, ?_, h.ok, h.kept⟩
  · show (update w.sems w.shared.osema _ w.shared.isema).used = true
    rw [update_of_ne h.apart.symm]
    exact h.isema
  · show (w.setSem w.shared.osema (Sem.wait i32 me)).units w.shared.osema + 1 +
      w.shared.ocount = uartOblen
    rw [h.turns.pass_units hpos hlt]
    omega

theorem UartInv.block (h : UartInv o 0 w (update L me none)) (hpid : IsPid me)
    (hneg : (w.sems w.shared.osema).count ≤ 0) :
    UartInv o 0 (w.setSem w.shared.osema (Sem.wait i32 me)) (update L me (some .storing)) := by
  have hnew : ¬ update L me none me = some UartPlace.storing := by simp
  refine ⟨h.tidy.setSem h.turns.used h.turns.used, h.csr, h.osema, ?_, h.apart, ?_, ?_, h.ok, h.kept⟩
  · show (update w.sems w.shared.osema _ w.shared.isema).used = true
    rw [update_of_ne h.apart.symm]
    exact h.isema
  · apply (h.turns.block hpid hnew hneg).1.congr rfl rfl
    intro p
    by_cases hp : p = me
    · simp [hp]
    · simp [hp]
  · show (w.setSem w.shared.osema (Sem.wait i32 me)).units w.shared.osema + 0 +
      w.shared.ocount = uartOblen
    rw [h.turns.block_units hpid hnew hneg]
    exact h.units

/-- A writer that was released goes on. -/
theorem UartInv.leave (h : UartInv o 0 w L) (hready : w.Ready me) (hme : L me = some .storing) :
    UartInv o 1 (World.leave w.shared.osema me w) (update L me none) := by
  have hgood := h.tidy.good _ h.turns.used
  have hunits := h.units
  refine ⟨h.tidy.leave h.turns.used me, h.csr, h.osema, h.isema, h.apart, ?_, ?_, h.ok, h.kept⟩
  · apply (h.turns.leave hgood hready hme).1.congr rfl rfl
    intro p
    by_cases hp : p = me
    · simp [hp]
    · simp [hp]
  · show (World.leave w.shared.osema me w).units w.shared.osema + 1 + w.shared.ocount = uartOblen
    rw [h.turns.leave_units hgood hready hme]
    omega

theorem uartWriteLoop_keeps (h : UartInv o 0 w (update L me none)) (hpid : IsPid me) (count : Nat)
    (buf : List UInt8) : UartKeeps o me (uartWriteLoop me count buf w) L := by
  induction buf generalizing w L count with
  | nil => exact fun _ => h
  | cons ch buf ih =>
      unfold uartWriteLoop
      simp only [Coop.run_bind, Coop.run_get, Flow.bind_done, Coop.run_ite, Coop.run_modify,
        Coop.run_pure]
      split
      · next hidle => exact ih (h.putDirect hidle ch) _
      split
      · exact fun _ => h
      apply Crew.Holds.bind (Q := fun _ s L => UartInv o 1 s (update L me none))
      · have hle := h.count_lt (Int.le_refl 0)
        have hcount := w.count_le_units w.shared.osema
        have hge := h.turns.count_ge
        unfold uartOblen at hle
        unfold nproc at hge
        apply World.holds_wait .storing h.turns.used h.tidy.ndefers (by omega) (by omega)
        · exact h.pass
        · exact fun hneg _ => h.block hpid hneg
        · intro s L' hI hL' hready
          have hsame : w.shared.osema = s.shared.osema := h.osema.trans hI.osema.symm
          rw [hsame]
          exact hI.leave hready hL'
      · intro _ s L hs
        rw [Coop.run_bind, Coop.run_modify, Flow.bind_done]
        by_cases hbusy : s.shared.oidle = false
        · exact ih (hs.store hbusy ch) _
        · exact World.holds_of_bad (w := s.setShared (Uart.store ch))
            (uartWriteLoop_within me (count + 1) buf) hbusy

theorem uartWrite_keeps (h : UartInv o 0 w (update L me none)) (hpid : IsPid me) (buf : List UInt8) :
    UartKeeps o me (uartWrite me buf w) L := by
  unfold uartWrite
  rw [Coop.run_bind, Coop.run_get, Flow.bind_done, Coop.run_ite]
  split
  · exact fun _ => h
  · apply World.holds_andThen (uartWriteLoop_keeps h hpid 0 buf)
    · exact fun a s L h _ => h
    · exact fun _ => .pure _

/-! ## Interrupts -/

/-- The units that the running process holds are signaled. -/
theorem UartInv.signals (h : UartInv o k w L) (hk : 0 ≤ k) :
    UartInv o 0 ((World.release w.shared.osema)^[k.toNat] w) L := by
  have hunits := h.units
  have hcount := h.ok.ocount_nonneg
  obtain ⟨hshared, hlog, -, -⟩ := w.release_frame w.shared.osema k.toNat
  obtain ⟨hisema, -⟩ := World.release_other (w := w) h.apart.symm k.toNat
  obtain ⟨hturns, hmore⟩ := h.turns.signals_units k.toNat (by unfold uartOblen at hunits; omega)
  constructor
  · exact h.tidy.signals h.turns.used _
  · rw [hshared]
    exact h.csr
  · rw [hshared]
    exact h.osema
  · rw [hshared, hisema]
    exact h.isema
  · rw [hshared]
    exact h.apart
  · rw [hshared]
    exact hturns
  · rw [hshared, hmore]
    omega
  · rw [hshared]
    exact h.ok
  · rw [hshared, hlog]
    exact h.kept

/-- Readers are signaled. -/
theorem UartInv.signals_input (h : UartInv o k w L) (n : Nat) :
    UartInv o k ((World.release w.shared.isema)^[n] w) L := by
  obtain ⟨hshared, hlog, -, -⟩ := w.release_frame w.shared.isema n
  obtain ⟨hosema, hgranted⟩ := World.release_other (w := w) h.apart n
  have hused : ∀ m : Nat, (((World.release w.shared.isema)^[m] w).sems w.shared.isema).used =
      true := by
    intro m
    induction m with
    | zero => exact h.isema
    | succ m ih =>
        rw [Function.iterate_succ_apply', World.sems_release]
        exact ih
  apply h.of_same _ (h.tidy.signals h.isema n) (hused n) hosema hgranted hlog
  rw [hshared]
  exact ⟨rfl, rfl, rfl, rfl, rfl, rfl, rfl, rfl⟩

/-- Rescheduling is deferred, and the invariant holds but for that. -/
structure Deferred (o k : Int) (w : World Uart UartEvent) (L : Int → Option UartPlace) :
    Prop where
  ndefers : w.ndefers = 1
  inv : ∀ b, UartInv o k (w.settle b) L

/-- Only the hardware and the buffer change. -/
theorem Deferred.setShared {f : Uart → Uart} {k' : Int} (h : Deferred o k w L)
    (hcsr : (f w.shared).csr = w.shared.csr) (hisema : (f w.shared).isema = w.shared.isema)
    (hosema : (f w.shared).osema = w.shared.osema)
    (hunits : (f w.shared).ocount + k' = w.shared.ocount + k) (hok : (f w.shared).Ok)
    (hway : (f w.shared).onWay = w.shared.onWay) : Deferred o k' (w.setShared f) L := by
  refine ⟨h.ndefers, fun b => ?_⟩
  have hinv := h.inv b
  have hold : w.units w.shared.osema + k + w.shared.ocount = uartOblen := hinv.units
  constructor
  · exact hinv.tidy.congr rfl rfl rfl rfl
  · exact hcsr.trans hinv.csr
  · exact hosema.trans hinv.osema
  · show (w.sems (f w.shared).isema).used = true
    rw [hisema]
    exact hinv.isema
  · show (f w.shared).osema ≠ (f w.shared).isema
    rw [hisema, hosema]
    exact hinv.apart
  · show World.Turns _ (f w.shared).osema _
    rw [hosema]
    exact hinv.turns.congr rfl rfl fun _ => Iff.rfl
  · show w.units (f w.shared).osema + k' + (f w.shared).ocount = uartOblen
    rw [hosema]
    omega
  · exact hok
  · show accepted w.log = (f w.shared).onWay
    rw [hway]
    exact hinv.kept

/-- The deferred signals for the units that the handler holds. -/
theorem Deferred.signals (h : Deferred o k w L) (hk : 0 ≤ k) :
    ∃ s, World.signaln w.shared.osema k w = .done ok s ∧ Deferred o 0 s L := by
  have hused : (w.sems w.shared.osema).used = true := (h.inv false).turns.used
  refine ⟨_, World.signaln_deferred hused hk (by rw [h.ndefers]; exact Nat.one_pos), ?_, ?_⟩
  · exact (w.release_frame w.shared.osema k.toNat).2.2.1.trans h.ndefers
  · intro b
    have hsignals := (h.inv b).signals hk
    have hshared : (World.settle b w).shared = w.shared := rfl
    rw [hshared, ← World.settle_release] at hsignals
    exact hsignals

theorem Deferred.signals_input {n : Int} (h : Deferred o k w L) (hn : 0 ≤ n) :
    ∃ s, World.signaln w.shared.isema n w = .done ok s ∧ Deferred o k s L := by
  have hused : (w.sems w.shared.isema).used = true := (h.inv false).isema
  refine ⟨_, World.signaln_deferred hused hn (by rw [h.ndefers]; exact Nat.one_pos), ?_, ?_⟩
  · exact (w.release_frame w.shared.isema n.toNat).2.2.1.trans h.ndefers
  · intro b
    have hsignals := (h.inv b).signals_input n.toNat
    have hshared : (World.settle b w).shared = w.shared := rfl
    rw [hshared, ← World.settle_release] at hsignals
    exact hsignals

theorem transmitInterrupt_eq {shifts : List Bool} {r : Uart × Int}
    (hpos : 0 < w.shared.ocount)
    (hr : w.shared.acknowledge.drain w.shared.ocount.toNat shifts = r) :
    transmitInterrupt shifts w =
      (World.signaln w.shared.osema r.2 (w.setShared fun _ =>
        { r.1 with cout := r.1.cout + UInt32.ofInt r.2 })).bind fun _ => pure () := by
  have hpos' : (w.setShared Uart.acknowledge).shared.ocount > 0 := hpos
  subst hr
  unfold transmitInterrupt
  rw [Coop.run_bind, Coop.run_modify, Flow.bind_done, Coop.run_bind, Coop.run_get, Flow.bind_done,
    Coop.run_ite, if_pos hpos']
  rfl

theorem transmitInterrupt_idle {shifts : List Bool} (hzero : ¬ 0 < w.shared.ocount) :
    transmitInterrupt shifts w =
      .done () (w.setShared fun d => { d.acknowledge with oidle := true }) := by
  have hzero' : ¬ (w.setShared Uart.acknowledge).shared.ocount > 0 := hzero
  unfold transmitInterrupt
  rw [Coop.run_bind, Coop.run_modify, Flow.bind_done, Coop.run_bind, Coop.run_get, Flow.bind_done,
    Coop.run_ite, if_neg hzero']
  rfl

theorem receiveInterrupt_eq {received : List UInt8} {r : Uart × Int}
    (hr : ({ w.shared with iirq := w.shared.iirq + 1 } : Uart).receive received = r) :
    receiveInterrupt received w =
      (World.signaln w.shared.isema r.2 (w.setShared fun _ =>
        { r.1 with cin := r.1.cin + UInt32.ofInt r.2 })).bind fun _ => pure () := by
  subst hr
  rfl

/-- Bytes are moved to the transmitter, and as many writers are released. -/
theorem transmitInterrupt_done (h : Deferred o 0 w L) (htx : w.shared.regs.txris = true)
    (shifts : List Bool) :
    ∃ s, transmitInterrupt shifts w = .done () s ∧ Deferred o 0 s L := by
  have hok : w.shared.Ok := (h.inv false).ok
  have hdr := hok.raised htx
  by_cases hpos : 0 < w.shared.ocount
  · have hbusy : w.shared.oidle = false := by
      cases hidle : w.shared.oidle with
      | false => rfl
      | true =>
          have hclear := (hok.idle hidle).2.2
          rw [htx] at hclear
          contradiction
    have hsound : w.shared.acknowledge.Sound := by
      refine ⟨hok.ostart_nonneg, hok.ostart_lt, hok.ocount_nonneg, hok.ocount_le, ?_⟩
      intro hraised
      cases hraised
    have hdrained := hsound.drain hpos hdr (Int.self_le_toNat w.shared.ocount) shifts
    rw [transmitInterrupt_eq hpos rfl]
    generalize w.shared.acknowledge.drain w.shared.ocount.toNat shifts = r at hdrained
    have hmoved : r.1.ocount + r.2 = w.shared.ocount := hdrained.moved
    have hrest : Deferred o r.2
        (w.setShared fun _ => { r.1 with cout := r.1.cout + UInt32.ofInt r.2 }) L := by
      apply h.setShared
      · exact hdrained.csr
      · exact hdrained.isema
      · exact hdrained.osema
      · show r.1.ocount + r.2 = w.shared.ocount + 0
        omega
      · have hok' : r.1.Ok := by
          refine ⟨hdrained.sound, ?_, fun _ => hdrained.busy⟩
          intro hidle
          have hidle' : w.shared.oidle = true := hdrained.oidle.symm.trans hidle
          rw [hbusy] at hidle'
          contradiction
        have hsame : Uart.SameOutput r.1 { r.1 with cout := r.1.cout + UInt32.ofInt r.2 } :=
          ⟨rfl, rfl, rfl, rfl, rfl, rfl, rfl, rfl⟩
        exact hsame.ok hok'
      · exact hdrained.onWay
    obtain ⟨s, hsignal, hs⟩ := hrest.signals (Int.le_of_lt hdrained.count_pos)
    have hosema : w.shared.osema = r.1.osema := hdrained.osema.symm
    refine ⟨s, ?_, hs⟩
    rw [hosema]
    exact congrArg (fun x => x.bind fun _ => pure ()) hsignal
  · rw [transmitInterrupt_idle hpos]
    refine ⟨_, rfl, ?_⟩
    have hcount : w.shared.ocount = 0 := by
      have hnonneg := hok.ocount_nonneg
      omega
    apply h.setShared
    · rfl
    · rfl
    · rfl
    · rfl
    · refine ⟨⟨hok.ostart_nonneg, hok.ostart_lt, hok.ocount_nonneg, hok.ocount_le, ?_⟩, ?_, ?_⟩
      · intro hraised
        cases hraised
      · exact fun _ => ⟨hcount, hdr, rfl⟩
      · intro hfalse
        cases hfalse
    · rfl

theorem receiveInterrupt_done (h : Deferred o 0 w L) (received : List UInt8) :
    ∃ s, receiveInterrupt received w = .done () s ∧ Deferred o 0 s L := by
  have hok : w.shared.Ok := (h.inv false).ok
  obtain ⟨hsame, hcount⟩ := Uart.receive_same received
    { w.shared with iirq := w.shared.iirq + 1 }
  rw [receiveInterrupt_eq rfl]
  generalize Uart.receive received _ = r at hsame hcount
  obtain ⟨h1, h2, h3, h4, h5, h6, h7, h8⟩ := hsame
  have hsame' : Uart.SameOutput w.shared { r.1 with cin := r.1.cin + UInt32.ofInt r.2 } :=
    ⟨h1, h2, h3, h4, h5, h6, h7, h8⟩
  have hrest : Deferred o 0
      (w.setShared fun _ => { r.1 with cin := r.1.cin + UInt32.ofInt r.2 }) L := by
    apply h.setShared
    · exact h1
    · exact h2
    · exact h3
    · exact congrArg (· + 0) h5
    · exact hsame'.ok hok
    · exact hsame'.onWay
  obtain ⟨s, hsignal, hs⟩ := hrest.signals_input hcount
  have hisema : w.shared.isema = r.1.isema := h2.symm
  refine ⟨s, ?_, hs⟩
  rw [hisema]
  exact congrArg (fun x => x.bind fun _ => pure ()) hsignal

theorem Deferred.stop (h : Deferred o 0 w (update L me none)) :
    UartKeeps o me (World.reschedCntl deferStop w) L := by
  have hinv : UartInv o 0 { w with ndefers := 0 } (update L me none) := h.inv w.attempt
  apply World.holds_stop .paused h.ndefers
  · exact fun _ => hinv.pause
  · exact fun s L' hI hL' _ _ => hI.unpause hL'
  · exact fun _ => hinv

theorem uartInterrupt_keeps (h : UartInv o 0 w (update L me none)) (shifts : List Bool)
    (received : List UInt8) : UartKeeps o me (uartInterrupt shifts received w) L := by
  have hstart : Deferred o 0 { w with ndefers := 1, attempt := false } (update L me none) := by
    refine ⟨rfl, fun b => ?_⟩
    exact h.of_same ⟨rfl, rfl, rfl, rfl, rfl, rfl, rfl, rfl⟩
      (h.tidy.congr rfl h.tidy.ndefers.symm rfl rfl) h.isema rfl rfl rfl
  have hreceive : ∀ s, Deferred o 0 s (update L me none) →
      UartKeeps o me ((if received ≠ [] then
        receiveInterrupt received >>= fun _ => World.reschedCntl deferStop
          else World.reschedCntl deferStop : UartM Int) s) L := by
    intro s hs
    rw [Coop.run_ite]
    split
    · obtain ⟨s', hrun, hs'⟩ := receiveInterrupt_done hs received
      rw [Coop.run_bind, hrun]
      exact hs'.stop
    · exact hs.stop
  unfold uartInterrupt
  rw [Coop.run_bind, World.reschedCntl_start h.tidy.ndefers, Flow.bind_done, Coop.run_bind,
    Coop.run_get, Flow.bind_done]
  dsimp only
  rw [Coop.run_ite]
  split
  · next htx =>
      obtain ⟨s, hrun, hs⟩ := transmitInterrupt_done hstart htx shifts
      rw [Coop.run_bind, hrun]
      exact hreceive s hs
  · exact hreceive _ hstart

/-! ## The other calls -/

theorem pauseUart_keeps {α : Type} {f : Unit → UartM α} (h : UartInv o 0 w (update L me none))
    (hf : ∀ s L', UartInv o 0 s (update L' me none) → UartKeeps o me (f () s) L') :
    UartKeeps o me ((Coop.giveAway >>= f) w) L := by
  apply World.holds_giveAway .paused h.pause
  intro s L' hI hL' hready
  exact hf s L' (hI.unpause hL')

theorem changeFlags_keeps {look : Uart → UInt8} {put : UInt8 → Uart → Uart} {f : UInt8 → UInt8}
    (h : UartInv o 0 w (update L me none))
    (hput : ∀ flags d, Uart.SameOutput d (put flags d)) :
    UartKeeps o me (changeFlags look put f w) L := by
  apply pauseUart_keeps h
  intro s L' h
  rw [Coop.run_bind, Coop.run_get, Flow.bind_done]
  apply pauseUart_keeps h
  intro s' L' h _
  exact h.of_same (hput _ _) (h.tidy.congr rfl rfl rfl rfl) h.isema rfl rfl rfl

theorem uartControl_keeps (h : UartInv o 0 w (update L me none)) (func : Int) (arg1 : UInt8) :
    UartKeeps o me (uartControl func arg1 w) L := by
  have hchange : ∀ (look : Uart → UInt8) (put : UInt8 → Uart → Uart) (f : UInt8 → UInt8) (a : Int),
      (∀ flags d, Uart.SameOutput d (put flags d)) →
        UartKeeps o me ((changeFlags look put f >>= fun _ => pure a : UartM Int) w) L := by
    intro look put f a hput
    apply World.holds_andThen (changeFlags_keeps h hput)
    · exact fun _ s L h _ => h
    · exact fun _ => .pure _
  unfold uartControl
  rw [Coop.run_bind, Coop.run_get, Flow.bind_done]
  split
  · exact hchange _ _ _ _ fun _ _ => ⟨rfl, rfl, rfl, rfl, rfl, rfl, rfl, rfl⟩
  split
  · exact hchange _ _ _ _ fun _ _ => ⟨rfl, rfl, rfl, rfl, rfl, rfl, rfl, rfl⟩
  split
  · exact fun _ => h
  split
  · exact hchange _ _ _ _ fun _ _ => ⟨rfl, rfl, rfl, rfl, rfl, rfl, rfl, rfl⟩
  split
  · exact hchange _ _ _ _ fun _ _ => ⟨rfl, rfl, rfl, rfl, rfl, rfl, rfl, rfl⟩
  split
  · exact fun _ => h
  split
  · exact fun _ => h
  · exact fun _ => h

theorem shift_keeps (h : UartInv o 0 w L) :
    UartInv o 0 (w.setShared fun d => { d with regs := d.regs.shift }) L := by
  refine ⟨h.tidy.congr rfl rfl rfl rfl, h.csr, h.osema, h.isema, h.apart,
    h.turns.congr rfl rfl fun _ => Iff.rfl, h.units, h.ok.shift, ?_⟩
  have hway := h.ok.toSound.shift.2
  show accepted w.log = ({ w.shared with regs := w.shared.regs.shift } : Uart).onWay
  rw [hway]
  exact h.kept

theorem uartCall_keeps (h : UartInv o 0 w (update L me none)) (hpid : IsPid me) (c : UartCall) :
    UartKeeps o me (uartCrew.exec me c w) L := by
  cases c with
  | write buf => exact uartWrite_keeps h hpid buf
  | control func arg1 => exact uartControl_keeps h func arg1
  | interrupt shifts received => exact uartInterrupt_keeps h shifts received
  | shift => exact fun _ => shift_keeps h

/-! ## Runs -/

theorem UartStart.inv (h : UartStart w) : UartInv w.shared.osema 0 w fun _ => none := by
  have hqueued : w.shared.queued = [] := by
    unfold Uart.queued
    rw [h.ocount]
    rfl
  constructor
  · exact h.tidy
  · exact h.csr
  · rfl
  · exact h.isema
  · exact h.apart.symm
  · constructor
    · rw [h.osema]
    · rw [h.osema]
      rfl
    · rw [h.osema, h.granted]
      exact List.nodup_nil
    · intro p hp
      contradiction
    · intro p
      rw [h.osema, h.granted]
      simp
  · unfold World.units
    rw [h.osema, h.granted, h.ocount]
    rfl
  · refine ⟨⟨?_, ?_, ?_, ?_, ?_⟩, ?_, ?_⟩
    · rw [h.ostart]
    · rw [h.ostart]
      decide
    · rw [h.ocount]
    · rw [h.ocount]
      decide
    · rw [h.regs]
      exact fun _ => rfl
    · rw [h.ocount, h.regs]
      exact fun _ => ⟨rfl, rfl, rfl⟩
    · rw [h.oidle]
      intro hfalse
      cases hfalse
  · unfold Uart.onWay
    rw [h.log, h.regs, hqueued]
    rfl

/--
If no byte is stored in the buffer while `oidle` is set, then in every run the bytes go
out on the line in the order in which they were accepted, each once, and the output does
not stall.
-/
theorem uart_output {w : World Uart UartEvent} {tr : List (Segment _ UartCall)}
    {C : Config (World Uart UartEvent) UartCall} (hstart : UartStart w)
    (hrun : uartCrew.Run (fun _ seg => seg.after.AllEvents UartEvent.Proper)
      (Machine.initial w) tr C) : UartFifo C.state := by
  have hcall : ∀ p c s L, UartInv w.shared.osema 0 s L → uartCrew.ready s p → L p = none →
      UartKeeps w.shared.osema p (uartCrew.exec p c s) L := by
    intro p c s L hI hready hL
    apply uartCall_keeps _ hready.1
    rw [← hL, update_eq_self]
    exact hI
  obtain ⟨L, hI, -⟩ := Crew.run_holds hstart.inv hcall hrun
  exact hI.fifo

/-- The world in which the device has been initialized first. -/
def uartBoot : World Uart UartEvent where
  sems := update (update (fun _ => ⟨false, 0, []⟩) 0 ⟨true, 0, []⟩) 1 ⟨true, uartOblen, []⟩
  nextsem := 2
  ndefers := 0
  attempt := false
  shared :=
    { csr := true, cout := 0, cin := 0, ovrrn := 0, iirq := 0, oirq := 0
      iflags := uartIflagEcho ||| ttyIcrnl, isema := 0, istart := 0, icount := 0
      input := fun _ => 0
      oflags := 0, osema := 1, ostart := 0, ocount := 0
      out := fun _ => 0
      oidle := true, regs := ⟨none, [], false⟩ }
  granted := fun _ => []
  log := []

theorem uartBoot_queue (x : Int) : (uartBoot.sems x).queue = [] := by
  show (update (update (fun _ => (⟨false, 0, []⟩ : Sem Int)) 0 ⟨true, 0, []⟩) 1
    ⟨true, uartOblen, []⟩ x).queue = []
  by_cases h1 : x = 1
  · rw [h1, update_self]
  · rw [update_of_ne h1]
    by_cases h0 : x = 0
    · rw [h0, update_self]
    · rw [update_of_ne h0]

theorem uartBoot_good {x : Int} (hx : (uartBoot.sems x).used = true) : ¬ isbadsem x := by
  by_cases h1 : x = 1
  · rw [h1]
    decide
  · by_cases h0 : x = 0
    · rw [h0]
      decide
    · have hsem : uartBoot.sems x = ⟨false, 0, []⟩ := by
        show update (update _ 0 _) 1 _ x = _
        rw [update_of_ne h1, update_of_ne h0]
      rw [hsem] at hx
      contradiction

theorem uartBoot_start : UartStart uartBoot := by
  refine ⟨⟨by decide, by decide, rfl, ?_, ?_, ?_⟩, rfl, rfl, by decide, rfl, rfl, rfl, rfl, rfl,
    rfl, rfl⟩
  · exact fun x => uartBoot_good
  · exact fun x _ => uartBoot_queue x
  · exact fun _ _ => rfl

instance (s : World Uart UartEvent) (p : Int) : Decidable (uartCrew.ready s p) :=
  inferInstanceAs (Decidable (World.Ready s p))

/-- Two bytes are written and go out. -/
theorem bytes_sent : ∃ tr C, uartCrew.Run
    (fun _ seg => seg.after.AllEvents UartEvent.Proper) (Machine.initial uartBoot) tr C ∧
      C.state.shared.regs.wire = [1, 2] ∧ UartFifo C.state := by
  let script : List (Int × Option UartCall) :=
    [(1, some (.write [1, 2])), (2, some .shift), (2, some (.interrupt [] [])), (1, some .shift)]
  have hsome : (uartCrew.replay (fun _ seg => seg.after.AllEvents UartEvent.Proper)
      (fun _ C f => f C) script [] (Machine.initial uartBoot)).map
        (fun r => r.2.state.shared.regs.wire) = some [1, 2] := by
    decide +kernel
  rw [Option.map_eq_some_iff] at hsome
  obtain ⟨⟨tr, C⟩, heq, hwire⟩ := hsome
  have hrun := uartCrew.replay_run (fun _ _ _ => rfl) .start heq
  exact ⟨tr, C, hrun, hwire, uart_output uartBoot_start hrun⟩

/-! ## A writer that is released late -/

/-- `n` bytes are in the buffer, the semaphore of the buffer has this count and queue, and
a byte is in the holding register or an interrupt is pending. -/
structure Busy (n : Nat) (count : Int) (queue : List Int) (full : Bool)
    (w : World Uart UartEvent) : Prop where
  csr : w.shared.csr = true
  oflags : w.shared.oflags = 0
  oidle : w.shared.oidle = false
  ocount : w.shared.ocount = n
  osema : w.sems w.shared.osema = ⟨true, count, queue⟩
  others : ∀ x, x ≠ w.shared.osema → (w.sems x).queue = []
  ndefers : w.ndefers = 0
  dr : w.shared.regs.dr.isSome = full
  txris : w.shared.regs.txris = !full

/-- The world after process `me` has taken a unit and stored `ch`. -/
def stored (me : Int) (ch : UInt8) (w : World Uart UartEvent) : World Uart UartEvent :=
  ((w.setSem w.shared.osema (Sem.wait i32 me)).setShared (Uart.store ch)).note
    (.stored w.shared.oidle ch)

/-- What is left of `uartWrite` for a writer that waits with its last byte. -/
def lateStore (me x : Int) (ch : UInt8) : UartM Int := do
  modify (World.leave x me)
  modify fun w => (w.setShared (Uart.store ch)).note (.stored w.shared.oidle ch)
  return i32 1

section Late

variable {n : Nat} {count : Int} {queue : List Int} {full : Bool} {ch : UInt8}

theorem Busy.ready (h : Busy n count queue full w) (hpid : IsPid me) (hout : me ∉ queue) :
    w.Ready me := by
  refine ⟨hpid, ?_⟩
  intro x hx
  by_cases hne : x = w.shared.osema
  · rw [hne, h.osema]
    exact hout
  · rw [h.others x hne]
    exact List.not_mem_nil

/-- Only the semaphore and the buffer change. -/
theorem Busy.change {d : Uart} {v : Sem Int} {n' : Nat} {count' : Int} {queue' : List Int}
    {full' : Bool} (h : Busy n count queue full w) (hshared : w'.shared = d)
    (hsems : w'.sems = update w.sems w.shared.osema v) (hdefer : w'.ndefers = 0)
    (hcsr : d.csr = w.shared.csr) (hoflags : d.oflags = w.shared.oflags)
    (hoidle : d.oidle = false) (hosema : d.osema = w.shared.osema) (hocount : d.ocount = n')
    (hv : v = ⟨true, count', queue'⟩) (hdr : d.regs.dr.isSome = full')
    (htxris : d.regs.txris = !full') : Busy n' count' queue' full' w' := by
  subst hshared
  refine ⟨hcsr.trans h.csr, hoflags.trans h.oflags, hoidle, hocount, ?_, ?_, hdefer, hdr, htxris⟩
  · rw [hosema, hsems, Function.update_self, hv]
  · intro x hx
    rw [hosema] at hx
    rw [hsems, Function.update_of_ne hx]
    exact h.others x hx

theorem wait_eq (hge : -0x80000000 < count) (hlt : count < 0x80000000) (p : Int) :
    (⟨true, count, queue⟩ : Sem Int).wait i32 p =
      ⟨true, count - 1, if count - 1 < 0 then queue ++ [p] else queue⟩ := by
  have hwrap : i32 (count - 1) = count - 1 := i32_eq (by omega) (by omega)
  unfold Sem.wait
  rw [hwrap]

theorem signal_eq (hge : -0x80000000 ≤ count) (hlt : count + 1 < 0x80000000) :
    (⟨true, count, queue⟩ : Sem Int).signal i32 =
      ⟨true, count + 1, if count < 0 then queue.tail else queue⟩ := by
  have hwrap : i32 (count + 1) = count + 1 := i32_eq (by omega) (by omega)
  unfold Sem.signal
  rw [hwrap]

theorem Busy.not_noblock (h : Busy n count queue full w) :
    ¬ (w.shared.oflags &&& uartNoblock ≠ 0 ∧ w.shared.ocount = uartOblen) := by
  rw [h.oflags]
  rintro ⟨hne, -⟩
  exact hne (by decide)

/-- A byte is stored for which there is room. -/
theorem Busy.write (h : Busy n count [] true w) (me : Int) (ch : UInt8) (hpos : 0 < count)
    (hlt : count < 0x80000000) (k : Nat) (buf : List UInt8) :
    uartWriteLoop me k (ch :: buf) w = uartWriteLoop me (k + 1) buf (stored me ch w) ∧
      Busy (n + 1) (count - 1) [] true (stored me ch w) := by
  have hcount : (w.sems w.shared.osema).count = count := by rw [h.osema]
  have hwait : World.wait me w.shared.osema w = .done ok _ :=
    World.wait_pass (by rw [h.osema]) (by omega) (by omega)
  constructor
  · rw [uartWriteLoop, Coop.run_bind, Coop.run_get, Flow.bind_done, h.oidle, Coop.run_ite,
      if_neg (by decide), Coop.run_ite, if_neg h.not_noblock, Coop.run_bind, hwait,
      Flow.bind_done, Coop.run_bind, Coop.run_modify, Flow.bind_done]
    rfl
  · apply h.change
    · rfl
    · rfl
    · exact h.ndefers
    · rfl
    · rfl
    · exact h.oidle
    · rfl
    · show w.shared.ocount + 1 = ((n + 1 : Nat) : Int)
      rw [h.ocount]
      push_cast
      rfl
    · rw [h.osema, wait_eq (by omega) hlt, if_neg (by omega)]
    · exact h.dr
    · exact h.txris

/-- Bytes are stored for which there is room. -/
theorem Busy.fill (h : Busy n count [] true w) (hlt : count < 0x80000000) (me : Int)
    (ch : UInt8) {m : Nat} (hroom : m ≤ count) (k : Nat) :
    ∃ s, uartWriteLoop me k (List.replicate m ch) w = .done (k + m) s ∧
      Busy (n + m) (count - m) [] true s := by
  induction m generalizing n count w k with
  | zero =>
      refine ⟨w, rfl, ?_⟩
      simpa using h
  | succ m ih =>
      push_cast at hroom
      obtain ⟨hrun, hs⟩ := h.write me ch (by omega) hlt k (List.replicate m ch)
      obtain ⟨s, hrun', hs'⟩ := ih hs (by omega) (by omega) (k + 1)
      refine ⟨s, ?_, ?_⟩
      · rw [List.replicate_succ, hrun, hrun']
        congr 1
        omega
      · have hn : n + 1 + m = n + (m + 1) := by omega
        have hcount : count - 1 - m = count - ((m + 1 : Nat) : Int) := by
          push_cast
          omega
        rw [← hn, ← hcount]
        exact hs'

/-- A writer finds the buffer full. -/
theorem Busy.wait (h : Busy n 0 [] true w) (me : Int) (ch : UInt8) :
    uartWrite me [ch] w =
      .suspended (w.setSem w.shared.osema (Sem.wait i32 me)) (lateStore me w.shared.osema ch) ∧
      Busy n (-1) [me] true (w.setSem w.shared.osema (Sem.wait i32 me)) := by
  have hcount : (w.sems w.shared.osema).count = 0 := by rw [h.osema]
  have hwait : World.wait me w.shared.osema w = _ :=
    World.wait_block (by rw [h.osema]) (Int.le_of_eq hcount) (by omega)
  have hresched : World.resched (w.setSem w.shared.osema (Sem.wait i32 me)) =
      .suspended (w.setSem w.shared.osema (Sem.wait i32 me)) fun s => .done () s := by
    have hdefer : (w.setSem w.shared.osema (Sem.wait i32 me)).ndefers = 0 := h.ndefers
    simp [World.resched, hdefer]
  constructor
  · have hcsr : ¬ w.shared.csr = false := by
      rw [h.csr]
      decide
    rw [uartWrite, Coop.run_bind, Coop.run_get, Flow.bind_done, Coop.run_ite, if_neg hcsr,
      Coop.run_bind, uartWriteLoop, Coop.run_bind, Coop.run_get, Flow.bind_done, h.oidle,
      Coop.run_ite, if_neg (by decide), Coop.run_ite, if_neg h.not_noblock, Coop.run_bind, hwait,
      hresched]
    rfl
  · apply h.change
    · rfl
    · rfl
    · exact h.ndefers
    · rfl
    · rfl
    · exact h.oidle
    · rfl
    · exact h.ocount
    · rw [h.osema, wait_eq (by omega) (by omega)]
      rfl
    · exact h.dr
    · exact h.txris

/-- The transmitter takes the byte. -/
theorem Busy.shift (h : Busy n count queue true w) :
    Busy n count queue false (w.setShared fun d => { d with regs := d.regs.shift }) := by
  obtain ⟨c, hc⟩ := Option.isSome_iff_exists.mp h.dr
  have hregs : w.shared.regs.shift = ⟨none, w.shared.regs.wire ++ [c], true⟩ := by
    unfold Pl011.shift
    rw [hc]
  refine ⟨h.csr, h.oflags, h.oidle, h.ocount, h.osema, h.others, h.ndefers, ?_, ?_⟩
  · show w.shared.regs.shift.dr.isSome = false
    rw [hregs]
    rfl
  · show w.shared.regs.shift.txris = true
    rw [hregs]

theorem uartInterrupt_eq {shifts : List Bool} {s : World Uart UartEvent}
    (hdefer : w.ndefers = 0) (htx : w.shared.regs.txris = true)
    (h : transmitInterrupt shifts { w with ndefers := 1, attempt := false } = .done () s) :
    uartInterrupt shifts [] w = World.reschedCntl deferStop s := by
  have htx' : ({ w with ndefers := 1, attempt := false } : World _ _).shared.regs.txris = true :=
    htx
  rw [uartInterrupt, Coop.run_bind, World.reschedCntl_start hdefer, Flow.bind_done, Coop.run_bind,
    Coop.run_get, Flow.bind_done, Coop.run_ite, if_pos htx', Coop.run_bind, h]
  rfl

/-- An interrupt moves one byte. -/
theorem Busy.interrupt (h : Busy (n + 1) count queue false w) (hge : -0x80000000 ≤ count)
    (hlt : count + 1 < 0x80000000) :
    ∃ s, uartInterrupt [] [] w =
        (if count < 0 then .suspended s fun s => .done ok s else .done ok s) ∧
      Busy n (count + 1) (if count < 0 then queue.tail else queue) true s := by
  have hpos : 0 < w.shared.ocount := by
    rw [h.ocount]
    omega
  have hdrain : w.shared.acknowledge.drain w.shared.ocount.toNat [] =
      (w.shared.acknowledge.send, 1) := by
    rw [h.ocount, Int.toNat_natCast]
    rfl
  have hused : (w.sems w.shared.osema).used = true := by rw [h.osema]
  have hcount : (w.sems w.shared.osema).count = count := by rw [h.osema]
  let d : Uart :=
    { w.shared.acknowledge.send with cout := w.shared.acknowledge.send.cout + UInt32.ofInt 1 }
  let s₁ : World Uart UartEvent := { w with ndefers := 1, attempt := false, shared := d }
  have hsignal : World.signaln w.shared.osema 1 s₁ = .done ok _ :=
    World.signaln_deferred hused (by decide) Nat.one_pos
  have htransmit : transmitInterrupt [] { w with ndefers := 1, attempt := false } = .done () _ :=
    (transmitInterrupt_eq (w := { w with ndefers := 1, attempt := false }) hpos hdrain).trans
      (congrArg (fun x => x.bind fun _ => pure ()) hsignal)
  rw [uartInterrupt_eq h.ndefers h.txris htransmit]
  have hrelease : ∀ b, Busy n (count + 1) (if count < 0 then queue.tail else queue) true
      (World.settle b (World.release w.shared.osema s₁)) := by
    intro b
    apply h.change
    · rfl
    · rfl
    · rfl
    · rfl
    · rfl
    · exact h.oidle
    · rfl
    · show w.shared.ocount - 1 = n
      rw [h.ocount]
      push_cast
      omega
    · show (w.sems w.shared.osema).signal i32 = _
      rw [h.osema, signal_eq hge hlt]
    · rfl
    · rfl
  have hcount' : (s₁.sems w.shared.osema).count = count := hcount
  by_cases hneg : count < 0
  · refine ⟨World.settle true (World.release w.shared.osema s₁), ?_, hrelease true⟩
    rw [if_pos hneg, hcount', if_pos ⟨hneg, Int.one_pos⟩]
    rfl
  · refine ⟨World.settle false (World.release w.shared.osema s₁), ?_, hrelease false⟩
    rw [if_neg hneg, hcount', if_neg fun hboth => hneg hboth.1]
    rfl

/-- An interrupt finds the buffer empty. -/
theorem Busy.idle (h : Busy 0 count queue false w) :
    uartInterrupt [] [] w = .done ok { w with
      ndefers := 0
      attempt := false
      shared := { w.shared.acknowledge with oidle := true } } := by
  have hzero : ¬ 0 < w.shared.ocount := by
    rw [h.ocount]
    exact Int.lt_irrefl 0
  rw [uartInterrupt_eq h.ndefers h.txris (transmitInterrupt_idle hzero)]
  rfl

/-- Process 2 waits with its last byte, and process 1 does nothing. -/
structure Waiting (x : Int) (C : Config (World Uart UartEvent) UartCall) : Prop where
  running : C.running = true
  idle : C.pending 1 = none
  late : C.pending 2 = some (.write [7], lateStore 2 x 7)

variable {x : Int} {C C₀ : Config (World Uart UartEvent) UartCall}
variable {tr : List (Segment (World Uart UartEvent) UartCall)}

theorem Waiting.done (h : Waiting x C) (s : World Uart UartEvent) :
    Waiting x ⟨s, true, update C.pending 1 none⟩ := by
  constructor
  · rfl
  · show update C.pending 1 none 1 = none
    rw [update_self]
  · show update C.pending 1 none 2 = _
    rw [update_of_ne (by decide)]
    exact h.late

theorem isPid_one : IsPid 1 := ⟨by decide, by decide⟩

theorem isPid_two : IsPid 2 := ⟨by decide, by decide⟩

/-- Any run. -/
abbrev UartRun (C : Config (World Uart UartEvent) UartCall) : Prop :=
  ∃ tr, uartCrew.Run (fun _ _ => True) (Machine.initial uartBoot) tr C

/-- Process 1 makes a call while process 2 waits. -/
theorem Waiting.call {c : UartCall} {s : World Uart UartEvent} (h : Waiting x C) (hrun : UartRun C)
    (hready : World.Ready C.state 1) (hexec : uartCrew.exec 1 c C.state = .done ok s) :
    ∃ C', UartRun C' ∧ Waiting x C' ∧ C'.state = s := by
  obtain ⟨tr, hrun⟩ := hrun
  have hrun' := hrun.call h.running hready h.idle hexec fun _ => trivial
  exact ⟨_, hrun', h.done s, rfl⟩

/-- The transmitter takes a byte, while process 1 runs. -/
theorem Waiting.shift (h : Waiting x C) (hrun : UartRun C)
    (hbusy : Busy n count queue true C.state) (hout : (1 : Int) ∉ queue) :
    ∃ C', UartRun C' ∧ Waiting x C' ∧ Busy n count queue false C'.state := by
  obtain ⟨C', hrun', h', hstate⟩ :=
    h.call (c := UartCall.shift) hrun (hbusy.ready isPid_one hout) rfl
  refine ⟨C', hrun', h', ?_⟩
  rw [hstate]
  exact hbusy.shift

/-- The buffer runs empty. -/
theorem Waiting.empty (h : Waiting x C) (hrun : UartRun C) (hbusy : Busy n count [] true C.state)
    (hge : 0 ≤ count) (hlt : count + n < 0x80000000) :
    ∃ C' m, UartRun C' ∧ Waiting x C' ∧ Busy 0 m [] true C'.state := by
  induction n generalizing count C with
  | zero => exact ⟨C, count, hrun, h, hbusy⟩
  | succ n ih =>
      push_cast at hlt
      obtain ⟨C₁, hrun₁, h₁, hbusy₁⟩ := h.shift hrun hbusy List.not_mem_nil
      obtain ⟨s, hexec, hs⟩ := hbusy₁.interrupt (by omega) (by omega)
      rw [if_neg (by omega)] at hexec hs
      obtain ⟨C₂, hrun₂, h₂, rfl⟩ := h₁.call (c := UartCall.interrupt [] []) hrun₁
        (hbusy₁.ready isPid_one List.not_mem_nil) hexec
      exact ih h₂ hrun₂ hs (by omega) (by omega)

/-- The transmitter becomes idle, and then the late writer stores its byte. -/
theorem Waiting.stalls (h : Waiting x C) (hrun : UartRun C)
    (hbusy : Busy 0 count [] true C.state) : ∃ C', UartRun C' ∧ C'.state.shared.Stalled := by
  obtain ⟨C₁, hrun₁, h₁, hbusy₁⟩ := h.shift hrun hbusy List.not_mem_nil
  obtain ⟨C₂, ⟨tr, hrun₂⟩, h₂, hstate⟩ := h₁.call (c := UartCall.interrupt [] []) hrun₁
    (hbusy₁.ready isPid_one List.not_mem_nil) hbusy₁.idle
  have hready : World.Ready C₂.state 2 := by
    rw [hstate]
    exact hbusy₁.ready isPid_two List.not_mem_nil
  have hnone : C₁.state.shared.regs.dr = none := by
    have hdr := hbusy₁.dr
    rwa [Option.isSome_eq_false_iff, Option.isNone_iff_eq_none] at hdr
  have hrun₃ := hrun₂.finish h₂.running hready h₂.late rfl fun _ => trivial
  refine ⟨_, hrun₃, ?_⟩
  rw [hstate]
  refine ⟨?_, rfl, rfl, hnone⟩
  show 0 < C₁.state.shared.ocount + 1
  rw [hbusy₁.ocount]
  decide

end Late

theorem uartBoot_busy :
    Busy 0 1024 [] true ((uartBoot.setShared (Uart.putDirect 0)).note (.direct 0)) :=
  ⟨rfl, rfl, rfl, rfl, rfl, fun x _ => uartBoot_queue x, rfl, rfl, rfl⟩

theorem uartBoot_write (buf : List UInt8) : uartWrite 1 (0 :: buf) uartBoot =
    (uartWriteLoop 1 1 buf ((uartBoot.setShared (Uart.putDirect 0)).note (.direct 0))).bind
      fun count => pure (i32 count) :=
  rfl

/-- Process 1 fills the buffer. -/
theorem uartBoot_full : ∃ buf v s, uartWrite 1 buf uartBoot = .done v s ∧
    Busy 1024 0 [] true s := by
  have hroom : ((1024 : Nat) : Int) ≤ 1024 := Int.le_refl 1024
  obtain ⟨s, hfill, hbusy⟩ := uartBoot_busy.fill (by decide) 1 0 hroom 1
  refine ⟨0 :: List.replicate 1024 0, i32 ((1 + 1024 : Nat) : Int), s, ?_, hbusy⟩
  rw [uartBoot_write, hfill]
  rfl

/-- Process 2 waits, and is released when a byte is moved. -/
theorem uartBoot_waiting : ∃ C x, UartRun C ∧ Waiting x C ∧ Busy 1023 0 [] true C.state := by
  have hready : World.Ready uartBoot 1 := by
    refine ⟨isPid_one, fun x _ => ?_⟩
    rw [uartBoot_queue]
    exact List.not_mem_nil
  obtain ⟨buf, v, s₁, hwrite, hbusy₁⟩ := uartBoot_full
  have hstart : uartCrew.Run (fun _ _ => True) (Machine.initial uartBoot) []
      (Machine.initial uartBoot) := .start
  obtain ⟨tr₁, hrun₁⟩ := hstart.call (p := 1) (c := UartCall.write buf) rfl hready rfl hwrite
    fun _ => trivial
  obtain ⟨hwait, hbusy₂⟩ := hbusy₁.wait 2 7
  obtain ⟨tr₂, hrun₂⟩ := hrun₁.suspend (p := 2) (c := UartCall.write [7]) rfl
    (hbusy₁.ready isPid_two List.not_mem_nil) rfl hwait fun _ => trivial
  have hwaiting : Waiting s₁.shared.osema
      ⟨s₁.setSem s₁.shared.osema (Sem.wait i32 2), true, update (update (Machine.initial uartBoot).pending 1 none) 2
        (some (.write [7], lateStore 2 s₁.shared.osema 7))⟩ :=
    ⟨rfl, rfl, rfl⟩
  obtain ⟨C₃, ⟨tr₃, hrun₃⟩, h₃, hbusy₃⟩ := hwaiting.shift ⟨tr₂, hrun₂⟩ hbusy₂ (by decide)
  obtain ⟨s₄, hexec, hbusy₄⟩ := hbusy₃.interrupt (by decide) (by decide)
  rw [if_pos (by decide)] at hexec
  obtain ⟨tr₄, hrun₄⟩ := hrun₃.suspend (p := 1) (c := UartCall.interrupt [] []) h₃.running
    (hbusy₃.ready isPid_one (by decide)) h₃.idle hexec fun _ => trivial
  have hpending : update C₃.pending 1
      (some (UartCall.interrupt [] [], fun s => Flow.done ok s)) 1 =
        some (UartCall.interrupt [] [], fun s => Flow.done ok s) :=
    update_self _ _ _
  obtain ⟨tr₅, hrun₅⟩ := hrun₄.finish rfl (hbusy₄.ready isPid_one (by decide)) hpending rfl
    fun _ => trivial
  rw [update_idem] at hrun₅
  exact ⟨_, s₁.shared.osema, ⟨tr₅, hrun₅⟩, h₃.done s₄, hbusy₄⟩

/-- The buffer is full, and a writer waits.  The buffer runs empty before the writer goes
on: the transmitter is noted as idle, and the byte that the writer stores stays in the
buffer. -/
theorem uart_stalls : ∃ tr C, uartCrew.Run (fun _ _ => True) (Machine.initial uartBoot) tr C ∧
    ¬ UartFifo C.state := by
  obtain ⟨C₁, x, hrun₁, h₁, hbusy₁⟩ := uartBoot_waiting
  obtain ⟨C₂, m, hrun₂, h₂, hbusy₂⟩ := h₁.empty hrun₁ hbusy₁ (Int.le_refl 0) (by decide)
  obtain ⟨C₃, ⟨tr, hrun₃⟩, hstalled⟩ := h₂.stalls hrun₂ hbusy₂
  exact ⟨tr, C₃, hrun₃, fun hfifo => hfifo.moving hstalled⟩

end Xinu
