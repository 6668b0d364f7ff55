import Xinu.Device.UartRead
import Xinu.Device.UartSpec
import Xinu.Kernel.WorldBystanders

/-!
# The input of the serial device

A reader may be suspended between the signal that grants it a byte and the step in which it
takes one, and again inside the echo of the byte before.  The units of the semaphore that
nobody has used are the bytes in the buffer, whoever holds them.

Main results:

- Theorem `uart_input`: in every run the units of the input semaphore are the bytes in the
  buffer, no byte is taken from an empty buffer, and the bytes are taken in the order in
  which they were stored.
- Theorem `waiting_reader`: while a reader waits, the count of the semaphore is negative.
-/

namespace Xinu

open Foundations Function

namespace Uart

/-- The bytes in the input buffer. -/
def unread (d : Uart) : List UInt8 :=
  Ring.window uartIblen d.input d.istart d.icount.toNat

/-- The first index and the number of bytes are those of a ring buffer. -/
def InputFits (d : Uart) : Prop :=
  Ring.Fits uartIblen d.istart ((d.istart + d.icount).tmod uartIblen) d.icount

/-- The input half of the two entries is the same. -/
structure SameInput (d d' : Uart) : Prop where
  isema : d'.isema = d.isema
  osema : d'.osema = d.osema
  istart : d'.istart = d.istart
  icount : d'.icount = d.icount
  input : d'.input = d.input

variable {d d' d'' : Uart} {c : UInt8}

theorem SameInput.trans (h : SameInput d d') (h' : SameInput d' d'') : SameInput d d'' where
  isema := h'.isema.trans h.isema
  osema := h'.osema.trans h.osema
  istart := h'.istart.trans h.istart
  icount := h'.icount.trans h.icount
  input := h'.input.trans h.input

theorem SameInput.unread (h : SameInput d d') : d'.unread = d.unread := by
  unfold Uart.unread
  rw [h.input, h.istart, h.icount]

theorem SameInput.fits (h : SameInput d d') (hfits : d.InputFits) : d'.InputFits := by
  unfold InputFits
  rw [h.istart, h.icount]
  exact hfits

theorem inputFits_of_bounds (h₀ : 0 ≤ d.istart) (h : d.istart < uartIblen) (hc : 0 ≤ d.icount)
    (hle : d.icount ≤ uartIblen) : d.InputFits :=
  ⟨h₀, h, hc, hle, Int.tmod_eq_emod_of_nonneg (by omega)⟩

/-- A byte is stored. -/
def storeInput (c : UInt8) (d : Uart) : Uart :=
  { d with
    input := update d.input ((d.istart + d.icount).tmod uartIblen) c
    icount := d.icount + 1 }

theorem InputFits.store (h : d.InputFits) (hroom : d.icount < uartIblen) :
    (d.storeInput c).InputFits ∧ (d.storeInput c).unread = d.unread ++ [c] := by
  have hnonneg := h.count_nonneg
  constructor
  · apply inputFits_of_bounds
    · exact h.head_nonneg
    · exact h.head_lt
    · show 0 ≤ d.icount + 1
      omega
    · show d.icount + 1 ≤ uartIblen
      omega
  · exact Ring.window_push h hroom c

/-- The first byte is taken. -/
theorem InputFits.take (h : d.InputFits) (hpos : 0 < d.icount) :
    d.take.InputFits ∧ d.unread = d.input d.istart :: d.take.unread := by
  have hle := h.count_le
  have hstart := h.head_nonneg
  have hnext : (d.istart + 1).tmod uartIblen = Ring.next uartIblen d.istart := by
    rw [Int.tmod_eq_emod_of_nonneg (by omega), Ring.next_eq h.head_nonneg h.head_lt]
  constructor
  · apply inputFits_of_bounds
    · show 0 ≤ (d.istart + 1).tmod uartIblen
      rw [hnext]
      exact Ring.next_nonneg h.head_nonneg
    · show (d.istart + 1).tmod uartIblen < uartIblen
      rw [hnext]
      exact Ring.next_lt h.head_nonneg h.head_lt
    · show 0 ≤ d.icount - 1
      omega
    · show d.icount - 1 ≤ uartIblen
      omega
  · unfold unread
    rw [Ring.window_pop hpos]
    show _ = _ :: Ring.window uartIblen d.input ((d.istart + 1).tmod uartIblen)
      (d.icount - 1).toNat
    rw [hnext]

/-- What storing the received bytes leaves, with the number of bytes stored. -/
structure Received (received : List UInt8) (d : Uart) (r : Uart × Int) : Prop where
  isema : r.1.isema = d.isema
  osema : r.1.osema = d.osema
  fits : r.1.InputFits
  unread : r.1.unread = d.unread ++ stores received d.icount
  counted : d.icount + r.2 = r.1.icount
  count_nonneg : 0 ≤ r.2

/-- There is room for the first byte. -/
theorem receive_room {received : List UInt8} (hroom : d.icount < uartIblen) :
    d.receive (c :: received) =
      (((d.storeInput c).receive received).1, ((d.storeInput c).receive received).2 + 1) := by
  rw [Uart.receive, if_pos hroom]
  rfl

/-- There is no room for the first byte. -/
theorem receive_full {received : List UInt8} (hfull : ¬ d.icount < uartIblen) :
    d.receive (c :: received) = Uart.receive received { d with ovrrn := d.ovrrn + 1 } := by
  rw [Uart.receive, if_neg hfull]

theorem InputFits.receive (h : d.InputFits) (received : List UInt8) :
    Received received d (d.receive received) := by
  induction received generalizing d with
  | nil =>
      refine ⟨rfl, rfl, h, ?_, Int.add_zero _, Int.le_refl 0⟩
      exact (List.append_nil _).symm
  | cons c received ih =>
      by_cases hroom : d.icount < uartIblen
      · obtain ⟨hfits, hunread⟩ := h.store (c := c) hroom
        have hrest := ih hfits
        have hicount : (d.storeInput c).icount = d.icount + 1 := rfl
        have hstores : stores (c :: received) d.icount =
            c :: stores received (d.icount + 1) := by
          rw [stores, if_pos hroom]
        rw [receive_room hroom]
        constructor
        · exact hrest.isema
        · exact hrest.osema
        · exact hrest.fits
        · rw [hstores, List.append_cons, ← hunread]
          exact hrest.unread
        · rw [← hrest.counted, hicount]
          ring
        · exact Int.add_nonneg hrest.count_nonneg Int.one_nonneg
      · have hrest := ih (d := { d with ovrrn := d.ovrrn + 1 }) h
        have hstores : stores (c :: received) d.icount = stores received d.icount := by
          rw [stores, if_neg hroom]
        rw [receive_full hroom]
        constructor
        · exact hrest.isema
        · exact hrest.osema
        · exact hrest.fits
        · rw [hstores]
          exact hrest.unread
        · exact hrest.counted
        · exact hrest.count_nonneg

/-- Output does not touch the input half. -/
theorem drain_input (n : Nat) (shifts : List Bool) (d : Uart) :
    SameInput d (d.drain n shifts).1 := by
  induction n generalizing shifts d with
  | zero => exact ⟨rfl, rfl, rfl, rfl, rfl⟩
  | succ n ih =>
      have hsend : SameInput d d.send := ⟨rfl, rfl, rfl, rfl, rfl⟩
      have hnext : ∀ e : Uart, SameInput d e →
          SameInput d (if e.regs.dr = none ∧ e.ocount > 0 then
            ((e.drain n shifts.tail).1, (e.drain n shifts.tail).2 + 1) else (e, 1)).1 := by
        intro e he
        split
        · exact he.trans (ih shifts.tail e)
        · exact he
      unfold Uart.drain
      dsimp only
      split
      · exact hnext _ ⟨rfl, rfl, rfl, rfl, rfl⟩
      · exact hnext _ hsend

end Uart

/-! ## Procedures that leave the input half alone -/

/-- The input half stays the same, whatever is logged. -/
def KeepsInput (x y : Uart × List UartEvent) : Prop :=
  Uart.SameInput x.1 y.1

instance : IsPreorder (Uart × List UartEvent) KeepsInput where
  refl _ := ⟨rfl, rfl, rfl, rfl, rfl⟩
  trans _ _ _ h h' := Uart.SameInput.trans h h'

/-- The semaphore of the output buffer is not `o`. -/
def OutputApart (o : Int) (w : World Uart UartEvent) : Prop :=
  w.shared.osema ≠ o

/-- The procedure leaves semaphore `o` and the input half alone. -/
abbrev OutputOnly {α : Type} (o : Int) (x : UartM α) : Prop :=
  x.Relies (OutputApart o) (World.Away o KeepsInput)

section Output

variable {o me : Int} {α : Type} {w w' : World Uart UartEvent}

theorem OutputApart.keep (h : OutputApart o w) (haway : World.Away o KeepsInput w w') :
    OutputApart o w' := by
  have hsame : Uart.SameInput w.shared w'.shared := haway.kept
  unfold OutputApart
  rw [hsame.osema]
  exact h

theorem OutputOnly.bind {β : Type} {x : UartM α} {f : α → UartM β} (hx : OutputOnly o x)
    (hf : ∀ a, OutputOnly o (f a)) : OutputOnly o (x >>= f) :=
  Coop.Relies.bind (fun _ _ => OutputApart.keep) hx hf

theorem OutputOnly.setShared {f : Uart → Uart} (hf : ∀ d, Uart.SameInput d (f d)) :
    OutputOnly o (modify (·.setShared f) : UartM PUnit) :=
  .modify fun _ _ => .of_same rfl rfl rfl rfl (hf _)

theorem uartWriteLoop_output (me : Int) (count : Nat) (buf : List UInt8) :
    OutputOnly o (uartWriteLoop me count buf) := by
  induction buf generalizing count with
  | nil => exact .pure _
  | cons ch buf ih =>
      apply Coop.Relies.read
      intro w hapart
      apply Coop.Relies.ite
      · apply OutputOnly.bind
        · exact .modify fun w _ => .of_same rfl rfl rfl rfl ⟨rfl, rfl, rfl, rfl, rfl⟩
        · exact fun _ => ih _
      apply Coop.Relies.ite
      · exact .pure _
      apply OutputOnly.bind
      · exact fun s _ => (World.wait_away hapart me s).relies
      · intro _
        apply OutputOnly.bind
        · exact .modify fun w _ => .of_same rfl rfl rfl rfl ⟨rfl, rfl, rfl, rfl, rfl⟩
        · exact fun _ => ih _

theorem uartWrite_output (me : Int) (buf : List UInt8) : OutputOnly o (uartWrite me buf) := by
  apply Coop.Relies.read
  intro w _
  apply Coop.Relies.ite
  · exact .pure _
  · exact (uartWriteLoop_output me 0 buf).bind fun _ => .pure _

theorem uartPutc_output (me : Int) (ch : UInt8) : OutputOnly o (uartPutc me ch) := by
  apply (uartWrite_output me [ch]).bind
  intro _
  apply Coop.Relies.ite
  · exact .pure _
  · exact .pure _

theorem changeFlags_output {look : Uart → UInt8} {put : UInt8 → Uart → Uart}
    {f : UInt8 → UInt8} (hput : ∀ flags d, Uart.SameInput d (put flags d)) :
    OutputOnly o (changeFlags look put f) := by
  apply OutputOnly.bind .giveAway
  intro _
  apply Coop.Relies.read
  intro w _
  apply OutputOnly.bind .giveAway
  intro _
  exact OutputOnly.setShared (hput _)

theorem uartControl_output (func : Int) (arg1 : UInt8) : OutputOnly o (uartControl func arg1) := by
  have hchange : ∀ (look : Uart → UInt8) (put : UInt8 → Uart → Uart) (f : UInt8 → UInt8) (a : Int),
      (∀ flags d, Uart.SameInput d (put flags d)) →
        OutputOnly o (changeFlags look put f >>= fun _ => pure a : UartM Int) := by
    intro look put f a hput
    exact (changeFlags_output hput).bind fun _ => .pure _
  apply Coop.Relies.read
  intro w _
  apply Coop.Relies.ite
  · exact hchange _ _ _ _ fun _ _ => ⟨rfl, rfl, rfl, rfl, rfl⟩
  apply Coop.Relies.ite
  · exact hchange _ _ _ _ fun _ _ => ⟨rfl, rfl, rfl, rfl, rfl⟩
  apply Coop.Relies.ite
  · exact .pure _
  apply Coop.Relies.ite
  · exact hchange _ _ _ _ fun _ _ => ⟨rfl, rfl, rfl, rfl, rfl⟩
  apply Coop.Relies.ite
  · exact hchange _ _ _ _ fun _ _ => ⟨rfl, rfl, rfl, rfl, rfl⟩
  apply Coop.Relies.ite
  · exact .pure _
  apply Coop.Relies.ite
  · exact .pure _
  · exact .pure _

end Output

/-! ## The interrupt handler -/

section Interrupt

variable {w : World Uart UartEvent} {Γ : Type} {γ : Γ} {L : Int → Option Γ} {o : Int}

/-- Rescheduling is deferred; the entry has the input half of `d`, and the units of the
input semaphore are the bytes in the buffer. -/
structure ServingInput (o : Int) (γ : Γ) (L : Int → Option Γ) (d : Uart)
    (w : World Uart UartEvent) : Prop where
  ndefers : w.ndefers = 1
  same : Uart.SameInput d w.shared
  supply : ∀ b, World.Supply o 0 d.icount γ (w.settle b) L

theorem transmitInterrupt_away (hosema : w.shared.osema ≠ o) (shifts : List Bool) :
    (transmitInterrupt shifts w).Within (World.Away o KeepsInput) w := by
  by_cases hpos : 0 < w.shared.ocount
  · have hdrain := Uart.drain_input w.shared.ocount.toNat shifts w.shared.acknowledge
    rw [transmitInterrupt_eq hpos rfl]
    have hsignal := @World.signaln_away _ UartEvent o _ KeepsInput _ hosema
      (w.shared.acknowledge.drain w.shared.ocount.toNat shifts).2
    apply Flow.Within.bind _ fun _ => .pure _
    apply (hsignal _).after
    exact .of_same rfl rfl rfl rfl
      ⟨hdrain.isema, hdrain.osema, hdrain.istart, hdrain.icount, hdrain.input⟩
  · rw [transmitInterrupt_idle hpos]
    exact .of_same rfl rfl rfl rfl ⟨rfl, rfl, rfl, rfl, rfl⟩

theorem transmitInterrupt_prompt (shifts : List Bool) :
    World.Prompt (transmitInterrupt shifts) := by
  apply World.Prompt.bind
  · exact .modify fun _ => rfl
  intro _
  apply World.Prompt.read
  intro w
  apply World.Prompt.ite
  · apply World.Prompt.bind
    · exact .modify fun _ => rfl
    · exact fun _ => (World.signaln_prompt _ _).bind fun _ => .pure _
  · exact .modify fun _ => rfl

theorem ServingInput.transmit {d : Uart} (h : ServingInput o γ L d w) (hosema : d.osema ≠ o)
    (shifts : List Bool) :
    ∃ s, transmitInterrupt shifts w = .done () s ∧ ServingInput o γ L d s := by
  have hpos : 0 < w.ndefers := by
    rw [h.ndefers]
    exact Nat.one_pos
  have hapart : w.shared.osema ≠ o := by
    rw [h.same.osema]
    exact hosema
  obtain ⟨u, s, hrun, hdefer⟩ := transmitInterrupt_prompt shifts w hpos
  have haway := transmitInterrupt_away hapart shifts
  rw [hrun] at haway
  refine ⟨s, hrun, hdefer.trans h.ndefers, ?_, ?_⟩
  · exact h.same.trans haway.kept
  · exact fun b => (h.supply b).away (haway.settle b)

theorem ServingInput.receive {d : Uart} (h : ServingInput o γ L d w) (hisema : d.isema = o)
    (hfits : d.InputFits) (received : List UInt8) :
    ∃ s d', receiveInterrupt received w = .done () s ∧ ServingInput o γ L d' s ∧
      d'.isema = o ∧ d'.osema = d.osema ∧ d'.InputFits ∧
        d'.unread = d.unread ++ stores received d.icount := by
  have hfits' : ({ w.shared with iirq := w.shared.iirq + 1 } : Uart).InputFits := h.same.fits hfits
  have hreceived := hfits'.receive received
  rw [receiveInterrupt_eq rfl]
  generalize Uart.receive received _ = r at hreceived
  have hcounted : w.shared.icount + r.2 = r.1.icount := hreceived.counted
  have hunread : r.1.unread = w.shared.unread ++ stores received w.shared.icount :=
    hreceived.unread
  have hisema' : w.shared.isema = o := h.same.isema.trans hisema
  have hlt : r.1.icount < 0x80000000 := by
    have hle := hreceived.fits.count_le
    unfold uartIblen at hle
    omega
  have hsupply : ∀ b, World.Supply o r.2 r.1.icount γ
      ((w.setShared fun _ => { r.1 with cin := r.1.cin + UInt32.ofInt r.2 }).settle b) L := by
    intro b
    have hold := h.supply b
    have hunits : w.units o + 0 = d.icount := hold.units
    have hicount := h.same.icount
    refine ⟨hold.tidy.congr rfl rfl rfl rfl, hold.turns.congr rfl rfl fun _ => Iff.rfl, ?_⟩
    show w.units o + r.2 = r.1.icount
    omega
  obtain ⟨s, hsignal, hdefer, hshared, -, hs⟩ :=
    World.Supply.signaln (by exact h.ndefers) hsupply hreceived.count_nonneg hlt
  refine ⟨s, r.1, ?_, ⟨hdefer, ?_, hs⟩, hreceived.isema.trans hisema', ?_, hreceived.fits, ?_⟩
  · rw [hisema', hsignal]
    rfl
  · rw [hshared]
    exact ⟨rfl, rfl, rfl, rfl, rfl⟩
  · exact hreceived.osema.trans h.same.osema
  · rw [hunread, h.same.unread, h.same.icount]

theorem reschedCntl_stop (hdefer : w.ndefers = 1) :
    World.reschedCntl deferStop w = .done ok { w with ndefers := 0 } ∨
      World.reschedCntl deferStop w =
        .suspended { w with ndefers := 0 } fun s => .done ok s := by
  have hne : deferStop ≠ deferStart := by decide
  by_cases hattempt : w.attempt = true
  · right
    simp [World.reschedCntl, hne, hdefer, hattempt, World.resched]
  · left
    simp [World.reschedCntl, hne, hdefer, hattempt]

/-- What the handler leaves, at the end or where it gives the processor away. -/
structure Served (o : Int) (γ : Γ) (L : Int → Option Γ) (received : List UInt8)
    (w s : World Uart UartEvent) : Prop where
  isema : s.shared.isema = o
  osema : s.shared.osema = w.shared.osema
  supply : World.Supply o 0 s.shared.icount γ s L
  fits : s.shared.InputFits
  unread : s.shared.unread = w.shared.unread ++ stores received w.shared.icount

theorem ServingInput.stop {d : Uart} (h : ServingInput o γ L d w) {received : List UInt8}
    {w₀ : World Uart UartEvent} (hisema : d.isema = o) (hosema : d.osema = w₀.shared.osema)
    (hfits : d.InputFits)
    (hunread : d.unread = w₀.shared.unread ++ stores received w₀.shared.icount) :
    ∃ s, Served o γ L received w₀ s ∧ (World.reschedCntl deferStop w = .done ok s ∨
      World.reschedCntl deferStop w = .suspended s fun s' => .done ok s') := by
  refine ⟨{ w with ndefers := 0 }, ?_, reschedCntl_stop h.ndefers⟩
  constructor
  · exact h.same.isema.trans hisema
  · exact h.same.osema.trans hosema
  · show World.Supply o 0 w.shared.icount γ _ L
    rw [h.same.icount]
    exact h.supply w.attempt
  · exact h.same.fits hfits
  · show w.shared.unread = _
    rw [h.same.unread, hunread]

/-- The handler stores the bytes for which there is room, and signals as many units. -/
theorem uartInterrupt_served (hsupply : World.Supply o 0 w.shared.icount γ w L)
    (hisema : w.shared.isema = o) (hosema : w.shared.osema ≠ o) (hfits : w.shared.InputFits)
    (shifts : List Bool) (received : List UInt8) :
    ∃ s, Served o γ L received w s ∧ (uartInterrupt shifts received w = .done ok s ∨
      uartInterrupt shifts received w = .suspended s fun s' => .done ok s') := by
  have hdefer := hsupply.tidy.ndefers
  have hstart : ServingInput o γ L w.shared { w with ndefers := 1, attempt := false } := by
    refine ⟨rfl, ⟨rfl, rfl, rfl, rfl, rfl⟩, fun b => ?_⟩
    exact hsupply.congr (hsupply.tidy.congr rfl hdefer.symm rfl rfl) rfl rfl
  have hreceive : ∀ s₁, ServingInput o γ L w.shared s₁ →
      ∃ s, Served o γ L received w s ∧ ((if received ≠ [] then
        receiveInterrupt received >>= fun _ => World.reschedCntl deferStop
          else World.reschedCntl deferStop : UartM Int) s₁ = .done ok s ∨
        (if received ≠ [] then
          receiveInterrupt received >>= fun _ => World.reschedCntl deferStop
            else World.reschedCntl deferStop : UartM Int) s₁ =
              .suspended s fun s' => .done ok s') := by
    intro s₁ h₁
    rw [Coop.run_ite]
    split
    · obtain ⟨s₂, d', hrun, h₂, hisema', hosema', hfits', hunread⟩ :=
        h₁.receive hisema hfits received
      rw [Coop.run_bind, hrun, Flow.bind_done]
      exact h₂.stop hisema' hosema' hfits' hunread
    · next hnil =>
        rw [not_ne_iff] at hnil
        apply h₁.stop hisema rfl hfits
        rw [hnil]
        exact (List.append_nil _).symm
  unfold uartInterrupt
  rw [Coop.run_bind, World.reschedCntl_start hdefer, Flow.bind_done, Coop.run_bind,
    Coop.run_get, Flow.bind_done]
  dsimp only
  rw [Coop.run_ite]
  split
  · obtain ⟨s₁, hrun, h₁⟩ := hstart.transmit hosema shifts
    rw [Coop.run_bind, hrun, Flow.bind_done]
    exact hreceive s₁ h₁
  · exact hreceive _ hstart

end Interrupt

/-! ## The record -/

/-- The bytes that were stored. -/
def storedInput (events : List InputEvent) : List UInt8 :=
  events.filterMap fun
    | .stored ch => some ch
    | .taken _ _ _ _ => none

/-- The bytes that were taken. -/
def takenInput (events : List InputEvent) : List UInt8 :=
  events.filterMap fun
    | .stored _ => none
    | .taken _ _ ch _ => some ch

/-- No byte is taken from an empty buffer, and it is passed on as it is, but for a carriage
return that the flags turn into a newline. -/
def InputEvent.Sound : InputEvent → Prop
  | .stored _ => True
  | .taken icount iflags ch c =>
      0 < icount ∧ c = if iflags &&& ttyIcrnl ≠ 0 ∧ ch = tyReturn then tyNewline else ch

/-- The units of the input semaphore are the bytes in the buffer, and the bytes that were
stored are those that were taken, in the same order, and those in the buffer. -/
structure UartInput (w : World Observed UartEvent) : Prop where
  icount_nonneg : 0 ≤ w.shared.uart.icount
  icount_le : w.shared.uart.icount ≤ uartIblen
  counted : max (w.sems w.shared.uart.isema).count 0 +
    (w.granted w.shared.uart.isema).length = w.shared.uart.icount
  order : storedInput w.shared.events = takenInput w.shared.events ++ w.shared.uart.unread
  sound : ∀ e ∈ w.shared.events, e.Sound

theorem storedInput_receive (received : List UInt8) (r : Observed) :
    storedInput (r.receive received).events =
      storedInput r.events ++ stores received r.uart.icount := by
  simp [storedInput, Observed.receive, List.filterMap_map]

theorem takenInput_receive (received : List UInt8) (r : Observed) :
    takenInput (r.receive received).events = takenInput r.events := by
  simp [takenInput, Observed.receive]

theorem storedInput_take (r : Observed) : storedInput r.take.events = storedInput r.events := by
  simp [storedInput, Observed.take]

theorem takenInput_take (r : Observed) :
    takenInput r.take.events = takenInput r.events ++ [r.uart.input r.uart.istart] := by
  simp [takenInput, Observed.take]

/-! ## The invariant -/

/-- Where a call is suspended. -/
inductive ReadPlace
  | reading
  | paused
deriving DecidableEq

variable {w w' : World Observed UartEvent} {L L' : Int → Option ReadPlace} {me k o : Int}

/-- The invariant, where `o` is the semaphore of the input buffer and the running process
holds `k` units of the buffer. -/
structure ReadInv (o k : Int) (w : World Observed UartEvent) (L : Int → Option ReadPlace) :
    Prop where
  isema : w.shared.uart.isema = o
  apart : w.shared.uart.osema ≠ o
  supply : World.Supply o k w.shared.uart.icount .reading w L
  fits : w.shared.uart.InputFits
  order : storedInput w.shared.events = takenInput w.shared.events ++ w.shared.uart.unread
  sound : ∀ e ∈ w.shared.events, e.Sound

theorem ReadInv.few (h : ReadInv o k w L) : w.shared.uart.icount < 0x80000000 := by
  have hle := h.fits.count_le
  unfold uartIblen at hle
  omega

theorem ReadInv.uartInput (h : ReadInv o 0 w L) : UartInput w := by
  have hunits := h.supply.units
  constructor
  · exact h.fits.count_nonneg
  · exact h.fits.count_le
  · rw [h.isema, ← hunits]
    exact (Int.add_zero _).symm
  · exact h.order
  · exact h.sound

/-- Only the semaphores change. -/
theorem ReadInv.of_supply {k' : Int} (h : ReadInv o k w L) (hshared : w'.shared = w.shared)
    (hsupply : World.Supply o k' w.shared.uart.icount .reading w' L') : ReadInv o k' w' L' := by
  constructor
  · rw [hshared]
    exact h.isema
  · rw [hshared]
    exact h.apart
  · rw [hshared]
    exact hsupply
  · rw [hshared]
    exact h.fits
  · rw [hshared]
    exact h.order
  · rw [hshared]
    exact h.sound

theorem ReadInv.pause (h : ReadInv o k w (update L me none)) :
    ReadInv o k w (update L me (some .paused)) :=
  h.of_supply rfl (h.supply.pause (by decide))

theorem ReadInv.unpause (h : ReadInv o k w L) (hme : L me = some .paused) :
    ReadInv o k w (update L me none) :=
  h.of_supply rfl (h.supply.unpause hme (by decide))

/-- Output goes on beside the input. -/
theorem ReadInv.away {s : World Uart UartEvent} (h : ReadInv o k w L)
    (haway : World.Away o KeepsInput (uartView w) s) : ReadInv o k (uartPut w s) L := by
  have hsame : Uart.SameInput w.shared.uart s.shared := haway.kept
  have hsupply : World.Supply o k w.shared.uart.icount .reading s L :=
    World.Supply.away (h.supply.map Observed.uart) haway
  constructor
  · exact hsame.isema.trans h.isema
  · show s.shared.osema ≠ o
    rw [hsame.osema]
    exact h.apart
  · show World.Supply o k s.shared.icount .reading (uartPut w s) L
    rw [hsame.icount]
    exact hsupply.map _
  · exact hsame.fits h.fits
  · show storedInput w.shared.events = takenInput w.shared.events ++ s.shared.unread
    rw [hsame.unread]
    exact h.order
  · exact h.sound

/-- The procedure keeps the invariant, in whatever order the processes run. -/
abbrev ReadSpares {α : Type} (o me : Int) (x : ReadM α) : Prop :=
  World.Sparing readCrew (ReadInv o 0) (fun _ => True) me x

theorem onUart_spares {α : Type} {x : UartM α} (hx : OutputOnly o x) :
    ReadSpares o me (onUart x) := by
  apply World.Sparing.of_relies .paused hx
  · exact fun _ _ h => h.apart
  · exact fun _ _ _ h haway => h.away haway
  · exact fun _ _ h => h.pause
  · exact fun _ _ h hme => h.unpause hme

/-! ## Readers -/

theorem ReadInv.wait (h : ReadInv o 0 w (update L me none)) (hpid : IsPid me) :
    readCrew.Holds (ReadInv o 0) (fun _ => True) me
      (fun _ s L => ReadInv o 1 s (update L me none)) (World.wait me o w) L := by
  apply World.holds_wait .reading h.supply.turns.used h.supply.tidy.ndefers
  · exact h.supply.count_lt (Int.le_refl 0) h.few
  · exact h.supply.count_gt
  · exact fun hpos => h.of_supply rfl (h.supply.pass h.few hpos)
  · exact fun hneg _ => h.of_supply rfl (h.supply.block hpid hneg)
  · exact fun s L' hI hL' hready => hI.of_supply rfl (hI.supply.leave hready hL')

/-- The running process holds a unit, so that there is a byte for it to take. -/
theorem ReadInv.take (h : ReadInv o 1 w L) : ReadInv o 0 (w.setShared Observed.take) L := by
  have hunits := h.supply.units
  have hnonneg := w.units_nonneg o
  have hpos : 0 < w.shared.uart.icount := by omega
  obtain ⟨hfits, hunread⟩ := h.fits.take hpos
  constructor
  · exact h.isema
  · exact h.apart
  · refine ⟨h.supply.tidy.congr rfl rfl rfl rfl, h.supply.turns.congr rfl rfl fun _ => Iff.rfl, ?_⟩
    show w.units o + 0 = w.shared.uart.icount - 1
    omega
  · exact hfits
  · show storedInput w.shared.take.events =
      takenInput w.shared.take.events ++ w.shared.uart.take.unread
    rw [storedInput_take, takenInput_take, List.append_assoc, List.singleton_append, ← hunread]
    exact h.order
  · intro e he
    rcases List.mem_append.mp he with hold | hnew
    · exact h.sound e hold
    · rw [List.mem_singleton] at hnew
      rw [hnew]
      exact ⟨hpos, rfl⟩

theorem uartReadLoop_spares (hpid : IsPid me) (n count : Nat) :
    ReadSpares o me (uartReadLoop me count n) := by
  induction n generalizing count with
  | zero => exact .pure _
  | succ n ih =>
      intro w L h
      unfold uartReadLoop
      rw [Coop.run_bind, Coop.run_get, Flow.bind_done]
      dsimp only
      rw [Coop.run_ite]
      split
      · exact h
      rw [Coop.run_bind, h.isema]
      apply (h.wait hpid).bind
      intro _ s L hs
      rw [Coop.run_bind, Coop.run_get, Flow.bind_done, Coop.run_bind, Coop.run_modify,
        Flow.bind_done]
      generalize s.shared.uart.translate _ = c
      have hrest : ReadSpares o me
          (if c = tyNewline ∨ c = tyReturn then pure count else uartReadLoop me (count + 1) n) := by
        apply World.Sparing.ite
        · exact .pure _
        · exact ih _
      have hecho : ReadSpares o me (onUart (uartPutc me c) >>= fun _ =>
          if c = tyNewline ∨ c = tyReturn then pure count else uartReadLoop me (count + 1) n) :=
        (onUart_spares (uartPutc_output me c)).bind fun _ => hrest
      rw [Coop.run_ite]
      split
      · exact hecho _ _ hs.take
      · exact hrest _ _ hs.take

theorem uartRead_spares (hpid : IsPid me) (len : Nat) : ReadSpares o me (uartRead me len) := by
  apply World.Sparing.read
  intro w L _
  apply World.Sparing.ite
  · exact .pure _
  · exact (uartReadLoop_spares hpid len 0).bind fun _ => .pure _

/-! ## The other calls -/

/-- The handler has stored the bytes that the record says. -/
theorem ReadInv.served {s : World Uart UartEvent} {received : List UInt8} (h : ReadInv o 0 w L)
    (hs : Served o .reading L received (uartView w) s) :
    ReadInv o 0 (uartPut (w.setShared (Observed.receive received)) s) L := by
  have hunread : s.shared.unread =
      w.shared.uart.unread ++ stores received w.shared.uart.icount := hs.unread
  constructor
  · exact hs.isema
  · show s.shared.osema ≠ o
    rw [hs.osema]
    exact h.apart
  · exact hs.supply.map _
  · exact hs.fits
  · show storedInput (w.shared.receive received).events =
      takenInput (w.shared.receive received).events ++ s.shared.unread
    rw [storedInput_receive, takenInput_receive, h.order, hunread, List.append_assoc]
  · intro e he
    rcases List.mem_append.mp he with hold | hnew
    · exact h.sound e hold
    · obtain ⟨ch, -, rfl⟩ := List.mem_map.mp hnew
      trivial

theorem interrupt_spares (shifts : List Bool) (received : List UInt8) :
    ReadSpares o me (ReadCall.exec me (.other (.interrupt shifts received))) := by
  intro w L h
  obtain ⟨s, hs, hrun⟩ := uartInterrupt_served (w := uartView w)
    (h.supply.map Observed.uart) h.isema h.apart h.fits shifts received
  have hafter := h.served hs
  have hexec : ReadCall.exec me (.other (.interrupt shifts received)) w =
      (uartInterrupt shifts received (uartView w)).zoom uartView uartPut
        (w.setShared (Observed.receive received)) :=
    rfl
  rw [hexec]
  rcases hrun with hdone | hsuspended
  · rw [hdone]
    exact hafter
  · rw [hsuspended]
    intro _
    exact ⟨.paused, hafter.pause, fun s' L' hI hL' _ => hI.unpause hL'⟩

theorem readCall_spares (hpid : IsPid me) (c : ReadCall) :
    ReadSpares o me (readCrew.exec me c) := by
  have hother : ∀ c : UartCall, c.received = [] → OutputOnly o (c.exec me) →
      ReadSpares o me (ReadCall.exec me (.other c)) := by
    intro c hnil hc
    apply World.Sparing.bind
    · apply World.Sparing.modify
      intro w L h
      have hsame : w.setShared (Observed.receive c.received) = w := by
        rw [hnil]
        simp [World.setShared, Observed.receive, stores]
      rw [hsame]
      exact h
    · exact fun _ => onUart_spares hc
  cases c with
  | read len => exact uartRead_spares hpid len
  | other c =>
      cases c with
      | write buf => exact hother _ rfl (uartWrite_output me buf)
      | control func arg1 => exact hother _ rfl (uartControl_output func arg1)
      | interrupt shifts received => exact interrupt_spares shifts received
      | shift =>
          apply hother _ rfl
          apply OutputOnly.bind
          · exact .setShared fun _ => ⟨rfl, rfl, rfl, rfl, rfl⟩
          · exact fun _ => .pure _

/-! ## Runs -/

theorem ReadStart.inv (h : ReadStart w) :
    ReadInv w.shared.uart.isema 0 w fun _ => none := by
  have hisema : w.sems w.shared.uart.isema = ⟨true, 0, []⟩ := h.input.isema
  have hgranted : w.granted w.shared.uart.isema = [] := h.input.granted
  have hicount : w.shared.uart.icount = 0 := h.input.icount
  have histart : w.shared.uart.istart = 0 := h.input.istart
  have htidy := h.uart.tidy
  constructor
  · rfl
  · exact h.uart.apart.symm
  · refine ⟨⟨htidy.nextsem_nonneg, htidy.nextsem_lt, htidy.ndefers, htidy.good, htidy.queue,
      htidy.granted⟩, ?_, ?_⟩
    · constructor
      · rw [hisema]
      · rw [hisema]
        rfl
      · rw [hisema, hgranted]
        exact List.nodup_nil
      · intro p hp
        contradiction
      · intro p
        rw [hisema, hgranted]
        simp
    · unfold World.units
      rw [hisema, hgranted, hicount]
      rfl
  · apply Uart.inputFits_of_bounds
    · rw [histart]
    · rw [histart]
      decide
    · rw [hicount]
    · rw [hicount]
      decide
  · unfold Uart.unread
    rw [h.events, hicount]
    rfl
  · rw [h.events]
    exact fun e he => (List.not_mem_nil he).elim

/--
In every run of readers, writers and interrupts, the units of the input semaphore that nobody
has used are the bytes in the input buffer, which does not overflow; no byte is taken from
an empty buffer; and the bytes are taken in the order in which they were stored, each once.
-/
theorem uart_input {tr : List (Segment _ ReadCall)}
    {C : Config (World Observed UartEvent) ReadCall} (hstart : ReadStart w)
    (hrun : readCrew.Run (fun _ _ => True) (Machine.initial w) tr C) : UartInput C.state := by
  have hcall : ∀ p c s L, ReadInv w.shared.uart.isema 0 s L → readCrew.ready s p → L p = none →
      readCrew.Holds (ReadInv w.shared.uart.isema 0) (fun _ => True) p
        (Crew.Ends (ReadInv w.shared.uart.isema 0) (fun _ => True) p) (readCrew.exec p c s) L := by
    intro p c s L hI hready hL
    apply World.Sparing.ends (readCall_spares hready.1 c)
    rw [← hL, update_eq_self]
    exact hI
  obtain ⟨L, hI, -⟩ := Crew.run_holds hstart.inv hcall hrun
  exact hI.uartInput

/-- The world in which the device has been initialized first, with an empty record. -/
def readBoot : World Observed UartEvent :=
  uartBoot.map fun d => ⟨d, []⟩

theorem readBoot_start : ReadStart readBoot :=
  ⟨uartBoot_start, ⟨rfl, rfl, rfl, rfl⟩, rfl⟩

instance (s : World Observed UartEvent) (p : Int) : Decidable (readCrew.ready s p) :=
  inferInstanceAs (Decidable (World.Ready s p))

/-- Two readers wait, and each gets one of the bytes that arrive. -/
theorem bytes_read : ∃ tr C, readCrew.Run (fun _ _ => True) (Machine.initial readBoot) tr C ∧
    takenInput C.state.shared.events = [65, 66] ∧ UartInput C.state := by
  let script : List (Int × Option ReadCall) :=
    [(1, some (.read 1)), (2, some (.read 1)), (3, some (.other (.interrupt [] [65, 66, 67]))),
      (1, none), (2, none)]
  have hsome : (readCrew.replay (fun _ _ => True) (fun _ C f => f C) script []
      (Machine.initial readBoot)).map (fun r => takenInput r.2.state.shared.events) =
        some [65, 66] := by
    decide +kernel
  rw [Option.map_eq_some_iff] at hsome
  obtain ⟨⟨tr, C⟩, heq, htaken⟩ := hsome
  have hrun := readCrew.replay_run (fun _ _ _ => rfl) .start heq
  exact ⟨tr, C, hrun, htaken, uart_input readBoot_start hrun⟩

/-- While a reader waits for the first byte, the count of the semaphore is below the number
of bytes in the buffer. -/
theorem waiting_reader : ∃ tr C, readCrew.Run (fun _ _ => True) (Machine.initial readBoot) tr C ∧
    (C.state.sems C.state.shared.uart.isema).count +
      (C.state.granted C.state.shared.uart.isema).length ≠ C.state.shared.uart.icount := by
  have hsome : (readCrew.replay (fun _ _ => True) (fun _ C f => f C) [(1, some (.read 1))] []
      (Machine.initial readBoot)).map (fun r =>
        (r.2.state.sems r.2.state.shared.uart.isema).count +
          ((r.2.state.granted r.2.state.shared.uart.isema).length : Int) -
            r.2.state.shared.uart.icount) = some (-1) := by
    decide +kernel
  rw [Option.map_eq_some_iff] at hsome
  obtain ⟨⟨tr, C⟩, heq, hcount⟩ := hsome
  refine ⟨tr, C, readCrew.replay_run (fun _ _ _ => rfl) .start heq, ?_⟩
  have hbelow : (C.state.sems C.state.shared.uart.isema).count +
      ((C.state.granted C.state.shared.uart.isema).length : Int) -
        C.state.shared.uart.icount = -1 := hcount
  omega

end Xinu
