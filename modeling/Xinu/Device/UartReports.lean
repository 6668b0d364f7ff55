import Xinu.Foundations.NullTerminated
import Xinu.Device.UartInput

/-!
# What reads from the serial device report

A read stores the bytes in the caller's buffer and returns their number; a read of one byte
returns the byte.  The bytes that a read finds at the head of the input buffer, and the flags
at that time, are recorded beside the caller's buffer; the procedure does not look at them.

Main results:

- Theorem `uartReadInto_value`: the caller's buffer does not matter to `uartRead`.
- Theorem `uartReadInto_yields`: what a read returns, whatever the others do.
- Theorem `reads_report`: the number is right unless a byte that ends a line is found.
-/

namespace Xinu

open Foundations Function

/-! ## The procedures -/

/-- A byte at the head of the input buffer, and the flags. -/
structure Found where
  iflags : UInt8
  ch : UInt8
deriving DecidableEq, Repr

/-- The byte that is passed to the caller. -/
def Found.passed (f : Found) : UInt8 :=
  if f.iflags &&& ttyIcrnl ≠ 0 ∧ f.ch = tyReturn then tyNewline else f.ch

/-- The byte ends a line. -/
def Found.EndsLine (f : Found) : Prop :=
  f.passed = tyNewline ∨ f.passed = tyReturn

instance (f : Found) : Decidable f.EndsLine :=
  inferInstanceAs (Decidable (_ ∨ _))

def Uart.found (d : Uart) : Found :=
  ⟨d.iflags, d.input d.istart⟩

/-- The caller's buffer, and the bytes that have been found. -/
structure ReadOut where
  buf : Chars
  found : List Found

/-- The byte that was found is stored at place `count` of the buffer. -/
def ReadOut.store (count : Nat) (f : Found) (out : ReadOut) : ReadOut :=
  ⟨update out.buf count f.passed, out.found ++ [f]⟩

/-- The loop of `uartRead`, with the caller's buffer. -/
def uartReadIntoLoop (me : Int) (count : Nat) (out : ReadOut) : Nat → ReadM (Nat × ReadOut)
  | 0 => return (count, out)
  | n + 1 => do
      let d := (← get).shared.uart
      if d.iflags &&& uartNoblock ≠ 0 ∧ d.icount = 0 then
        return (count, out)
      else
        let _ ← World.wait me d.isema
        let d := (← get).shared.uart
        let f := d.found
        let out := out.store count f
        modify (·.setShared Observed.take)
        if d.iflags &&& uartIflagEcho ≠ 0 then
          let _ ← onUart (uartPutc me f.passed)
        if f.passed = tyNewline ∨ f.passed = tyReturn then
          return (count, out)
        else
          uartReadIntoLoop me (count + 1) out n

/-- `uartRead`, with the caller's buffer. -/
def uartReadInto (me : Int) (len : Nat) (buf : Chars) : ReadM (Int × ReadOut) := do
  if (← get).shared.uart.csr = false then
    return (syserr, ⟨buf, []⟩)
  let r ← uartReadIntoLoop me 0 ⟨buf, []⟩ len
  return (i32 r.1, r.2)

/-- Read a single character; `ch` is what the variable for it holds before. -/
def uartGetc (me : Int) (ch : UInt8) : ReadM (Int × ReadOut) := do
  let (retval, out) ← uartReadInto me 1 fun _ => ch
  if retval = 1 then
    return ((out.buf 0).toNat, out)
  else
    return (syserr, out)

section Value

variable {me : Int} {n count len : Nat} {out : ReadOut} {w : World Observed UartEvent}

/-- The end of a turn, after the echo. -/
theorem uartReadIntoLoop_end (f : Found) {t : World Observed UartEvent}
    (ih : (uartReadIntoLoop me (count + 1) out n t).bind (fun r => pure r.1) =
      uartReadLoop me (count + 1) n t) :
    ((if f.passed = tyNewline ∨ f.passed = tyReturn then pure (count, out)
      else uartReadIntoLoop me (count + 1) out n : ReadM (Nat × ReadOut)) t).bind
        (fun r => pure r.1) =
      (if f.passed = tyNewline ∨ f.passed = tyReturn then pure count
        else uartReadLoop me (count + 1) n : ReadM Nat) t := by
  rw [Coop.run_ite, Coop.run_ite]
  split
  · rfl
  · exact ih

theorem uartReadIntoLoop_value (w : World Observed UartEvent) :
    (uartReadIntoLoop me count out n w).bind (fun r => pure r.1) = uartReadLoop me count n w := by
  induction n generalizing count out w with
  | zero => rfl
  | succ n ih =>
      unfold uartReadIntoLoop uartReadLoop
      rw [Coop.run_bind, Coop.run_get, Flow.bind_done, Coop.run_bind, Coop.run_get, Flow.bind_done]
      dsimp only
      rw [Coop.run_ite, Coop.run_ite]
      split
      · rfl
      rw [Coop.run_bind, Coop.run_bind, Flow.bind_assoc]
      congr 1
      funext _ s
      simp only [Coop.run_bind, Coop.run_get, Flow.bind_done, Coop.run_modify]
      by_cases hecho : s.shared.uart.iflags &&& uartIflagEcho ≠ 0
      · rw [if_pos hecho, if_pos hecho, Coop.run_bind, Coop.run_bind, Flow.bind_assoc]
        congr 1
        funext _ t
        exact uartReadIntoLoop_end s.shared.uart.found (ih t)
      · rw [if_neg hecho, if_neg hecho]
        exact uartReadIntoLoop_end s.shared.uart.found (ih _)

/-- The caller's buffer does not matter to what is returned. -/
theorem uartReadInto_value (buf : Chars) (w : World Observed UartEvent) :
    (uartReadInto me len buf w).bind (fun r => pure r.1) = uartRead me len w := by
  unfold uartReadInto uartRead
  rw [Coop.run_bind, Coop.run_get, Flow.bind_done, Coop.run_bind, Coop.run_get, Flow.bind_done,
    Coop.run_ite, Coop.run_ite]
  split
  · rfl
  · have hloop := @uartReadIntoLoop_value me len 0 ⟨buf, []⟩ w
    rw [Coop.run_bind, Coop.run_bind, ← hloop, Flow.bind_assoc, Flow.bind_assoc]
    simp only [Coop.run_pure, Flow.bind_done]

end Value

/-! ## What is returned -/

/-- The bytes that were found are in the buffer, which is otherwise as before. -/
structure Stored (buf : Chars) (out : ReadOut) : Prop where
  bytes : ∀ i f, out.found[i]? = some f → out.buf i = f.passed
  rest : ∀ i, out.found.length ≤ i → out.buf i = buf i

/-- None of the bytes ends a line. -/
def NoLineEnd (found : List Found) : Prop :=
  ∀ f ∈ found, ¬ f.EndsLine

instance (found : List Found) : Decidable (NoLineEnd found) :=
  inferInstanceAs (Decidable (∀ f ∈ found, _))

/-- The loop counts the bytes, but not one that ends a line. -/
def Counts (count : Nat) (found : List Found) : Prop :=
  NoLineEnd found ∧ count = found.length ∨ ¬ NoLineEnd found ∧ count + 1 = found.length

/-- The loop's count is returned, if the device has been initialized. -/
def Returned (csr : Bool) (retval : Int) (found : List Found) : Prop :=
  if csr = false then retval = syserr ∧ found = []
  else ∃ count : Nat, retval = i32 count ∧ Counts count found

/-- A device that has been initialized reports the number of the bytes that were found. -/
def Reports (csr : Bool) (retval : Int) (found : List Found) : Prop :=
  if csr = false then retval = syserr ∧ found = [] else retval = found.length

instance (csr : Bool) (retval : Int) (found : List Found) : Decidable (Reports csr retval found) :=
  inferInstanceAs (Decidable
    (if csr = false then retval = syserr ∧ found = [] else retval = found.length))

/-- The byte that was found is returned, and an error only without a byte. -/
def ReportsByte (retval : Int) (found : List Found) : Prop :=
  (∀ f ∈ found, retval = f.passed.toNat) ∧ (retval = syserr → found = [])

section Reports

variable {me : Int} {n count len : Nat} {buf : Chars} {out : ReadOut} {found : List Found}
variable {f : Found} {w s : World Observed UartEvent} {retval : Int} {csr : Bool}

theorem Stored.store (h : Stored buf out) (f : Found) :
    Stored buf (out.store out.found.length f) := by
  have hlength : (out.store out.found.length f).found.length = out.found.length + 1 :=
    List.length_append
  constructor
  · intro i g hg
    show update out.buf out.found.length f.passed i = g.passed
    change (out.found ++ [f])[i]? = some g at hg
    by_cases hlast : i = out.found.length
    · rw [hlast, List.getElem?_concat_length, Option.some_inj] at hg
      rw [hlast, update_self, hg]
    · have hold : i < out.found.length := by
        have hlt := (List.getElem?_eq_some_iff.mp hg).1
        rw [List.length_append, List.length_singleton] at hlt
        omega
      rw [List.getElem?_append_left hold] at hg
      rw [update_of_ne hlast]
      exact h.bytes i g hg
  · intro i hi
    rw [hlength] at hi
    exact (update_of_ne (by omega) _ _).trans (h.rest i (by omega))

theorem noLineEnd_concat : NoLineEnd (found ++ [f]) ↔ NoLineEnd found ∧ ¬ f.EndsLine := by
  unfold NoLineEnd
  constructor
  · intro h
    exact ⟨fun g hg => h g (List.mem_append_left _ hg), h f (List.mem_append_right _ (by simp))⟩
  · rintro ⟨h, hf⟩ g hg
    rcases List.mem_append.mp hg with hg | hg
    · exact h g hg
    · rw [List.mem_singleton.mp hg]
      exact hf

/-- What is returned where the loop ends without a line. -/
theorem counts_of_noLineEnd (hstored : Stored buf out) (hcount : out.found.length = count)
    (hline : NoLineEnd out.found) (n : Nat) :
    Stored buf out ∧ out.found.length ≤ count + n ∧ Counts count out.found :=
  ⟨hstored, by omega, Or.inl ⟨hline, hcount.symm⟩⟩

/-- What the loop returns when `count` bytes have been found before, with none that ends a
line. -/
theorem uartReadIntoLoop_yields (hstored : Stored buf out) (hcount : out.found.length = count)
    (hline : NoLineEnd out.found) (w : World Observed UartEvent) :
    (uartReadIntoLoop me count out n w).Yields fun r _ =>
      Stored buf r.2 ∧ r.2.found.length ≤ count + n ∧ Counts r.1 r.2.found := by
  induction n generalizing count out w with
  | zero => exact counts_of_noLineEnd hstored hcount hline 0
  | succ n ih =>
      unfold uartReadIntoLoop
      rw [Coop.run_bind, Coop.run_get, Flow.bind_done]
      dsimp only
      rw [Coop.run_ite]
      split
      · exact counts_of_noLineEnd hstored hcount hline (n + 1)
      rw [Coop.run_bind]
      apply (Flow.Yields.of_true _).bind
      intro _ s _
      rw [Coop.run_bind, Coop.run_get, Flow.bind_done, Coop.run_bind, Coop.run_modify,
        Flow.bind_done]
      generalize s.shared.uart.found = f
      have hnext := hstored.store f
      rw [hcount] at hnext
      have hlength : (out.store count f).found.length = count + 1 := by
        rw [← hcount]
        exact List.length_append
      have hrest : ∀ t, ((if f.passed = tyNewline ∨ f.passed = tyReturn then
          pure (count, out.store count f)
        else uartReadIntoLoop me (count + 1) (out.store count f) n : ReadM (Nat × ReadOut)) t).Yields
          fun r _ => Stored buf r.2 ∧ r.2.found.length ≤ count + (n + 1) ∧
            Counts r.1 r.2.found := by
        intro t
        rw [Coop.run_ite]
        split
        · next hend =>
            refine ⟨hnext, hlength.trans_le (by omega), Or.inr ⟨?_, hlength.symm⟩⟩
            intro h
            exact (noLineEnd_concat.mp h).2 hend
        · next hend =>
            have hline' : NoLineEnd (out.store count f).found :=
              noLineEnd_concat.mpr ⟨hline, hend⟩
            have hgo := ih hnext hlength hline' t
            rw [Nat.add_right_comm] at hgo
            exact hgo
      rw [Coop.run_ite]
      split
      · exact (Flow.Yields.of_true _).bind fun _ t _ => hrest t
      · exact hrest _

/-- The number that is returned is right if none of the bytes ends a line and it is positive
as a signed number. -/
theorem Counts.reports (h : Counts count found) (hlen : found.length < 0x100000000) :
    i32 count = found.length ↔ NoLineEnd found ∧ found.length < 0x80000000 := by
  have hmod : i32 (count : Int) % 0x100000000 = (count : Int) % 0x100000000 := Int.bmod_emod
  obtain ⟨hrange, hrange'⟩ := i32_range count
  rcases h with ⟨hline, hcount⟩ | ⟨hline, hcount⟩
  · simp only [hline, true_and]
    constructor
    · intro heq
      omega
    · intro hlt
      rw [hcount, i32_eq (by omega) (by omega)]
  · simp only [hline, false_and, iff_false]
    omega

theorem Returned.reports (h : Returned csr retval found) (hlen : found.length < 0x100000000) :
    Reports csr retval found ↔ NoLineEnd found ∧ found.length < 0x80000000 := by
  unfold Returned at h
  unfold Reports
  by_cases hcsr : csr = false
  · rw [if_pos hcsr] at h ⊢
    rw [h.2]
    simp [h.1, NoLineEnd]
  · rw [if_neg hcsr] at h ⊢
    obtain ⟨count, hret, hcounts⟩ := h
    rw [hret]
    exact hcounts.reports hlen

/-- The byte is returned if it was counted. -/
theorem Returned.reportsByte (h : Returned csr retval out.found) (hstored : Stored buf out)
    (hlen : out.found.length ≤ 1) :
    ReportsByte (if retval = 1 then ((out.buf 0).toNat : Int) else syserr) out.found ↔
      NoLineEnd out.found := by
  have hsyserr : syserr ≠ 1 := by decide
  obtain ⟨buf', found⟩ := out
  dsimp only at h hstored hlen ⊢
  unfold Returned at h
  unfold ReportsByte
  match found with
  | [] => simp [NoLineEnd]
  | [f] =>
      have hbyte : buf' 0 = f.passed := hstored.bytes 0 f rfl
      by_cases hcsr : csr = false
      · rw [if_pos hcsr] at h
        exact absurd h.2 (List.cons_ne_nil f [])
      rw [if_neg hcsr] at h
      obtain ⟨count, hret, ⟨hline, hcount⟩ | ⟨hline, hcount⟩⟩ := h
      · have hone : retval = 1 := by
          rw [hret, hcount, List.length_singleton]
          decide
        rw [if_pos hone, hbyte]
        simp only [hline, iff_true]
        constructor
        · intro g hg
          rw [List.mem_singleton.mp hg]
        · intro heq
          have hneg : syserr = -1 := rfl
          omega
      · have hzero : ¬ retval = 1 := by
          have hnone : count = 0 := by simpa using hcount
          rw [hret, hnone]
          decide
        rw [if_neg hzero]
        simp [hline]
  | _ :: _ :: _ => simp at hlen

/-- What a read returns, whatever the others do. -/
theorem uartReadInto_yields (buf : Chars) (w : World Observed UartEvent) :
    (uartReadInto me len buf w).Yields fun r _ =>
      Stored buf r.2 ∧ r.2.found.length ≤ len ∧ Returned w.shared.uart.csr r.1 r.2.found := by
  have hstored : Stored buf ⟨buf, []⟩ :=
    ⟨fun i f hf => (Option.some_ne_none f hf.symm).elim, fun _ _ => rfl⟩
  have hline : NoLineEnd [] := fun f hf => absurd hf List.not_mem_nil
  unfold uartReadInto Returned
  rw [Coop.run_bind, Coop.run_get, Flow.bind_done, Coop.run_ite]
  by_cases hcsr : w.shared.uart.csr = false
  · rw [if_pos hcsr]
    simp only [if_pos hcsr]
    exact ⟨hstored, Nat.zero_le _, rfl, rfl⟩
  · rw [if_neg hcsr, Coop.run_bind]
    simp only [if_neg hcsr]
    apply (uartReadIntoLoop_yields hstored rfl hline w).bind
    rintro ⟨count, out⟩ s ⟨hs, hle, hcounts⟩
    have hfound : out.found.length ≤ len := hle.trans_eq (Nat.zero_add len)
    have hreturned : ∃ c : Nat, i32 (count : Int) = i32 (c : Int) ∧ Counts c out.found :=
      ⟨count, rfl, hcounts⟩
    dsimp only at hs
    dsimp only [Coop.run_pure, Flow.Yields]
    exact ⟨hs, hfound, hreturned⟩

/-- What a read of one byte returns, whatever the others do. -/
theorem uartGetc_yields (ch : UInt8) (w : World Observed UartEvent) :
    (uartGetc me ch w).Yields fun r _ =>
      r.2.found.length ≤ 1 ∧ (ReportsByte r.1 r.2.found ↔ NoLineEnd r.2.found) := by
  unfold uartGetc
  rw [Coop.run_bind]
  apply (@uartReadInto_yields _ 1 (fun _ => ch) w).bind
  rintro ⟨retval, out⟩ s ⟨hstored, hlength, hreturned⟩
  have hreports := hreturned.reportsByte hstored hlength
  dsimp only at hlength hreports ⊢
  rw [Coop.run_ite]
  split
  · next hone =>
      rw [if_pos hone] at hreports
      exact ⟨hlength, hreports⟩
  · next hone =>
      rw [if_neg hone] at hreports
      exact ⟨hlength, hreports⟩

end Reports

/-! ## The bytes that are removed -/

/-- The counts of the semaphore and of the buffer agree as they do in every run: a reader
that passes the semaphore finds a byte. -/
structure Supplied (w : World Observed UartEvent) : Prop where
  ndefers : w.ndefers = 0
  used : (w.sems w.shared.uart.isema).used = true
  count_gt : -0x80000000 < (w.sems w.shared.uart.isema).count
  count_le : (w.sems w.shared.uart.isema).count ≤ w.shared.uart.icount
  fits : w.shared.uart.InputFits
  apart : w.shared.uart.osema ≠ w.shared.uart.isema

section Removed

variable {me o k : Int} {n count len : Nat} {buf : Chars} {out : ReadOut}
variable {w s : World Observed UartEvent} {r : Nat × ReadOut} {c : UInt8}
variable {L : Int → Option ReadPlace}

theorem ReadInv.supplied (h : ReadInv o k w L) (hk : 0 ≤ k) : Supplied w := by
  have hunits := h.supply.units
  have hcount := w.count_le_units o
  constructor
  · exact h.supply.tidy.ndefers
  · rw [h.isema]
    exact h.supply.turns.used
  · rw [h.isema]
    exact h.supply.count_gt
  · rw [h.isema]
    omega
  · exact h.fits
  · rw [h.isema]
    exact h.apart

/-- A wait that does not block passes the semaphore. -/
theorem Supplied.wait (h : Supplied w) {a : Int}
    (hwait : World.wait me w.shared.uart.isema w = .done a s) :
    0 < (w.sems w.shared.uart.isema).count ∧ s = w.setSem w.shared.uart.isema (Sem.wait i32 me) := by
  by_cases hpos : 0 < (w.sems w.shared.uart.isema).count
  · have hle := h.count_le
    have hfew := h.fits.count_le
    unfold uartIblen at hfew
    rw [World.wait_pass h.used hpos (by omega)] at hwait
    exact ⟨hpos, (Flow.done.inj hwait).2.symm⟩
  · have hsuspended : World.resched (w.setSem w.shared.uart.isema (Sem.wait i32 me)) =
        .suspended (w.setSem w.shared.uart.isema (Sem.wait i32 me)) fun s => .done () s := by
      simp [World.resched, World.setSem, h.ndefers]
    rw [World.wait_block h.used (by omega) h.count_gt, hsuspended] at hwait
    cases hwait

/-- The byte is removed from the buffer. -/
theorem Supplied.take (h : Supplied w) (hpos : 0 < (w.sems w.shared.uart.isema).count) :
    Supplied ((w.setSem w.shared.uart.isema (Sem.wait i32 me)).setShared Observed.take) ∧
      w.shared.uart.unread = w.shared.uart.found.ch :: w.shared.uart.take.unread := by
  have hle := h.count_le
  have hfew := h.fits.count_le
  unfold uartIblen at hfew
  obtain ⟨hfits, hunread⟩ := h.fits.take (by omega)
  refine ⟨?_, hunread⟩
  have hcount : ((w.sems w.shared.uart.isema).wait i32 me).count =
      (w.sems w.shared.uart.isema).count - 1 := i32_eq (by omega) (by omega)
  constructor
  · exact h.ndefers
  · show ((w.setSem w.shared.uart.isema (Sem.wait i32 me)).sems w.shared.uart.isema).used = true
    rw [World.sems_setSem]
    exact h.used
  · show -0x80000000 <
      ((w.setSem w.shared.uart.isema (Sem.wait i32 me)).sems w.shared.uart.isema).count
    rw [World.sems_setSem, hcount]
    omega
  · show ((w.setSem w.shared.uart.isema (Sem.wait i32 me)).sems w.shared.uart.isema).count ≤
      w.shared.uart.icount - 1
    rw [World.sems_setSem, hcount]
    omega
  · exact hfits
  · exact h.apart

/-- The echo leaves the input alone. -/
theorem Supplied.echo (h : Supplied w) {a : Int} (hecho : onUart (uartPutc me c) w = .done a s) :
    Supplied s ∧ s.shared.uart.unread = w.shared.uart.unread := by
  have hrelies := uartPutc_output (o := w.shared.uart.isema) me c (uartView w) h.apart
  unfold onUart at hecho
  rw [Coop.run_zoom] at hecho
  cases hrun : uartPutc me c (uartView w) with
  | done b t =>
      rw [hrun] at hecho hrelies
      obtain ⟨-, rfl⟩ := Flow.done.inj hecho
      have haway : World.Away w.shared.uart.isema KeepsInput (uartView w) t := hrelies
      have hsame : Uart.SameInput w.shared.uart t.shared := haway.kept
      refine ⟨?_, hsame.unread⟩
      constructor
      · exact haway.ndefers h.ndefers
      · show (t.sems t.shared.isema).used = true
        rw [hsame.isema, haway.sem]
        exact h.used
      · show -0x80000000 < (t.sems t.shared.isema).count
        rw [hsame.isema, haway.sem]
        exact h.count_gt
      · show (t.sems t.shared.isema).count ≤ t.shared.icount
        rw [hsame.isema, haway.sem, hsame.icount]
        exact h.count_le
      · exact hsame.fits h.fits
      · show t.shared.osema ≠ t.shared.isema
        rw [hsame.isema, hsame.osema]
        exact h.apart
  | suspended t k =>
      rw [hrun] at hecho
      cases hecho
  | halted t =>
      rw [hrun] at hecho
      cases hecho
  | stuck =>
      rw [hrun] at hecho
      cases hecho

/-- The bytes that the loop finds are those that it removes. -/
theorem uartReadIntoLoop_removes (h : Supplied w)
    (hrun : uartReadIntoLoop me count out n w = .done r s) :
    ∃ more, r.2.found = out.found ++ more ∧
      w.shared.uart.unread = more.map Found.ch ++ s.shared.uart.unread := by
  have hnone : ∀ {r : Nat × ReadOut} {s : World Observed UartEvent} {count' out' w'},
      (pure (count', out') : ReadM (Nat × ReadOut)) w' = .done r s → ∃ more,
        r.2.found = out'.found ++ more ∧
          w'.shared.uart.unread = more.map Found.ch ++ s.shared.uart.unread := by
    intro r s count' out' w' hpure
    obtain ⟨rfl, rfl⟩ := Flow.done.inj hpure
    exact ⟨[], (List.append_nil _).symm, rfl⟩
  induction n generalizing count out w with
  | zero => exact hnone hrun
  | succ n ih =>
      unfold uartReadIntoLoop at hrun
      rw [Coop.run_bind, Coop.run_get, Flow.bind_done] at hrun
      dsimp only at hrun
      rw [Coop.run_ite] at hrun
      split at hrun
      · exact hnone hrun
      rw [Coop.run_bind] at hrun
      obtain ⟨a, s₁, hwait, hrun⟩ := Flow.of_bind_done hrun
      obtain ⟨hpos, rfl⟩ := h.wait hwait
      obtain ⟨h₁, hunread⟩ := @Supplied.take me _ h hpos
      rw [Coop.run_bind, Coop.run_get, Flow.bind_done, Coop.run_bind, Coop.run_modify,
        Flow.bind_done, Coop.run_ite] at hrun
      have hrest : ∀ t, Supplied t → t.shared.uart.unread = w.shared.uart.take.unread →
          (if w.shared.uart.found.passed = tyNewline ∨ w.shared.uart.found.passed = tyReturn then
            pure (count, out.store count w.shared.uart.found)
          else uartReadIntoLoop me (count + 1) (out.store count w.shared.uart.found) n :
            ReadM (Nat × ReadOut)) t = .done r s →
          ∃ more, r.2.found = out.found ++ more ∧
            w.shared.uart.unread = more.map Found.ch ++ s.shared.uart.unread := by
        intro t ht hsame hgo
        have hmore : ∃ more, r.2.found = (out.store count w.shared.uart.found).found ++ more ∧
            t.shared.uart.unread = more.map Found.ch ++ s.shared.uart.unread := by
          rw [Coop.run_ite] at hgo
          split at hgo
          · exact hnone hgo
          · exact ih ht hgo
        obtain ⟨more, hfound, hleft⟩ := hmore
        refine ⟨w.shared.uart.found :: more, ?_, ?_⟩
        · rw [hfound, List.append_cons]
          rfl
        · rw [hunread, ← hsame, hleft]
          rfl
      split at hrun
      · rw [Coop.run_bind] at hrun
        obtain ⟨b, t, hecho, hrun⟩ := Flow.of_bind_done hrun
        obtain ⟨ht, hsame⟩ := h₁.echo hecho
        exact hrest t ht hsame hrun
      · exact hrest _ h₁ rfl hrun

/-- The bytes that a read finds are those that it removes from the buffer, in their order. -/
theorem uartReadInto_removes {r : Int × ReadOut} (h : Supplied w)
    (hrun : uartReadInto me len buf w = .done r s) :
    w.shared.uart.unread = r.2.found.map Found.ch ++ s.shared.uart.unread := by
  unfold uartReadInto at hrun
  rw [Coop.run_bind, Coop.run_get, Flow.bind_done, Coop.run_ite] at hrun
  split at hrun
  · obtain ⟨rfl, rfl⟩ := Flow.done.inj hrun
    rfl
  · rw [Coop.run_bind] at hrun
    obtain ⟨r', s', hloop, hrun⟩ := Flow.of_bind_done hrun
    obtain ⟨rfl, rfl⟩ := Flow.done.inj hrun
    obtain ⟨more, hfound, hleft⟩ := uartReadIntoLoop_removes h hloop
    rw [hfound]
    exact hleft

end Removed

/-! ## Whole calls -/

/--
Whatever the other processes do, a read stores the bytes that it finds at the head of the
input buffer, and no others; it returns their number, and a read of one byte returns the
byte, unless one of them ends a line, which is not counted.  The bytes that are found are
removed from the buffer in their order.
-/
theorem reads_report (me : Int) (w : World Observed UartEvent) :
    (∀ len, len < 0x100000000 → ∀ buf, (uartReadInto me len buf w).Yields fun r _ =>
      Stored buf r.2 ∧ r.2.found.length ≤ len ∧
        (Reports w.shared.uart.csr r.1 r.2.found ↔
          NoLineEnd r.2.found ∧ r.2.found.length < 0x80000000)) ∧
    (∀ ch, (uartGetc me ch w).Yields fun r _ =>
      r.2.found.length ≤ 1 ∧ (ReportsByte r.1 r.2.found ↔ NoLineEnd r.2.found)) ∧
    (Supplied w → ∀ len buf r s, uartReadInto me len buf w = .done r s →
      w.shared.uart.unread = r.2.found.map Found.ch ++ s.shared.uart.unread) := by
  refine ⟨?_, fun ch => uartGetc_yields ch w, ?_⟩
  · intro len hlen buf
    apply (uartReadInto_yields buf w).mono
    rintro r s ⟨hstored, hlength, hreturned⟩
    exact ⟨hstored, hlength, hreturned.reports (by omega)⟩
  · intro h len buf r s hrun
    exact uartReadInto_removes h hrun

/-- The device has received `n` bytes, and does not echo. -/
def withInput (input : Int → UInt8) (n : Int) : World Observed UartEvent :=
  (readBoot.setSem readBoot.shared.uart.isema fun v => { v with count := n }).setShared fun r =>
    { r with uart := { r.uart with iflags := ttyIcrnl, icount := n, input := input } }

/-- Two bytes are stored and reported. -/
theorem two_reported : ∃ r s, uartReadInto 1 2 (fun _ => 0) (withInput (fun _ => 65) 3) = .done r s ∧
    r.2.found.map Found.ch = [65, 65] ∧ Reports true r.1 r.2.found := by
  have hrun : (uartReadInto 1 2 (fun _ => 0) (withInput (fun _ => 65) 3)).result?.map
      (fun r => r.2.found) = some [⟨8, 65⟩, ⟨8, 65⟩] := by
    decide +kernel
  obtain ⟨r, hresult, hfound⟩ := Option.map_eq_some_iff.mp hrun
  obtain ⟨s, hdone, -, -, hreports⟩ :=
    ((reads_report 1 (withInput (fun _ => 65) 3)).1 2 (by decide) fun _ => 0).of_result hresult
  refine ⟨r, s, hdone, ?_, ?_⟩
  · rw [hfound]
    rfl
  · apply hreports.mpr
    rw [hfound]
    decide +kernel

/-- A line that is empty: its newline is removed, but no byte is reported. -/
theorem newline_lost :
    ¬ (uartReadInto 1 1 (fun _ => 0) (withInput (fun _ => 10) 1)).Yields
      (fun r _ => Reports true r.1 r.2.found) ∧
    ¬ (uartGetc 1 0 (withInput (fun _ => 10) 1)).Yields
      (fun r _ => ReportsByte r.1 r.2.found) := by
  have hread : (uartReadInto 1 1 (fun _ => 0) (withInput (fun _ => 10) 1)).result?.map
      (fun r => (r.1, r.2.found)) = some (0, [⟨8, 10⟩]) := by
    decide +kernel
  have hgetc : (uartGetc 1 0 (withInput (fun _ => 10) 1)).result?.map
      (fun r => (r.1, r.2.found)) = some (-1, [⟨8, 10⟩]) := by
    decide +kernel
  obtain ⟨r, hresult, hvalue⟩ := Option.map_eq_some_iff.mp hread
  obtain ⟨r', hresult', hvalue'⟩ := Option.map_eq_some_iff.mp hgetc
  obtain ⟨hret, hfound⟩ := Prod.mk.inj hvalue
  obtain ⟨hret', hfound'⟩ := Prod.mk.inj hvalue'
  constructor
  · intro h
    obtain ⟨s, -, hreports⟩ := h.of_result hresult
    rw [hret, hfound] at hreports
    exact absurd hreports (by decide)
  · intro h
    obtain ⟨s, -, -, hbyte⟩ := h.of_result hresult'
    rw [hret', hfound'] at hbyte
    exact absurd (hbyte rfl) (by decide)

end Xinu
