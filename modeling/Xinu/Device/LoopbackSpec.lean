import Xinu.Device.Loopback
import Xinu.Foundations.RingBuffer

/-!
# What is read from the loopback device

The place where a writer stores its byte is right as long as no reader waits, and only
while the device is open.

Main results:

- Theorem `loopback_fifo`: if each byte is written while the device is open and nobody
  waits, each reader begins while it is open, and nobody waits when it is closed, then
  the bytes are read in the order in which they were written.
- Theorem `loopback_underrun`: a byte that is written while a reader waits is stored in
  front of the buffer.
-/

namespace Xinu

open Foundations Function

/-- The bytes written since the device was opened. -/
def written (log : List LoopEvent) : List UInt8 :=
  log.foldl (fun l e =>
    match e with
    | .opened => []
    | .put _ _ _ ch => l ++ [ch]
    | _ => l) []

/-- The bytes read since the device was opened. -/
def bytesRead (log : List LoopEvent) : List UInt8 :=
  log.foldl (fun l e =>
    match e with
    | .opened => []
    | .got ch => l ++ [ch]
    | _ => l) []

section Log

variable {log : List LoopEvent} {state : LoopState} {count slot : Int} {ch : UInt8}

@[simp]
theorem written_opened : written (log ++ [.opened]) = [] := by
  simp [written]

@[simp]
theorem written_put : written (log ++ [.put state count slot ch]) = written log ++ [ch] := by
  simp [written]

@[simp]
theorem written_closed : written (log ++ [.closed count]) = written log := by
  simp [written]

@[simp]
theorem written_asked : written (log ++ [.asked state]) = written log := by
  simp [written]

@[simp]
theorem written_got : written (log ++ [.got ch]) = written log := by
  simp [written]

@[simp]
theorem bytesRead_opened : bytesRead (log ++ [.opened]) = [] := by
  simp [bytesRead]

@[simp]
theorem bytesRead_got : bytesRead (log ++ [.got ch]) = bytesRead log ++ [ch] := by
  simp [bytesRead]

@[simp]
theorem bytesRead_put : bytesRead (log ++ [.put state count slot ch]) = bytesRead log := by
  simp [bytesRead]

@[simp]
theorem bytesRead_closed : bytesRead (log ++ [.closed count]) = bytesRead log := by
  simp [bytesRead]

@[simp]
theorem bytesRead_asked : bytesRead (log ++ [.asked state]) = bytesRead log := by
  simp [bytesRead]

end Log

/-- The bytes that are in the buffer. -/
def unread (w : World Loopback LoopEvent) : List UInt8 :=
  Ring.window loopBuffer w.shared.buffer w.shared.index (w.semcount w.shared.sem).toNat

/-- Every place that a writer used is in the buffer, what has been read is what was
written first, and the rest is in the buffer while the device is open. -/
structure LoopFifo (w : World Loopback LoopEvent) : Prop where
  slots : ∀ state count slot ch, .put state count slot ch ∈ w.log →
    0 ≤ slot ∧ slot < loopBuffer
  order : bytesRead w.log <+: written w.log
  kept : w.shared.state = .alloc → written w.log = bytesRead w.log ++ unread w

/-- A byte is written while the device is open and nobody waits; a reader begins while
the device is open; nobody waits when it is closed. -/
def LoopEvent.Proper : LoopEvent → Prop
  | .put state count _ _ => state = .alloc ∧ 0 ≤ count
  | .asked state => state = .alloc
  | .closed count => 0 ≤ count
  | .opened | .got _ => True

instance : DecidablePred LoopEvent.Proper := fun e =>
  match e with
  | .put _ _ _ _ => inferInstanceAs (Decidable (_ ∧ _))
  | .asked _ => inferInstanceAs (Decidable (_ = _))
  | .closed _ => inferInstanceAs (Decidable (_ ≤ _))
  | .opened | .got _ => instDecidableTrue

/-- Where a call is suspended. -/
inductive LoopPlace
  | waiting
  | paused

variable {w : World Loopback LoopEvent} {L L' : Int → Option LoopPlace} {me : Int}

/-- What holds while the device is open. -/
structure LoopOpen (w : World Loopback LoopEvent) (L : Int → Option LoopPlace) : Prop where
  turns : w.Turns w.shared.sem fun p => L p = some .waiting
  granted : w.granted w.shared.sem = []
  count_le : (w.sems w.shared.sem).count ≤ loopBuffer
  kept : written w.log = bytesRead w.log ++
    Ring.window loopBuffer w.shared.buffer w.shared.index (w.sems w.shared.sem).count.toNat

structure LoopInv (w : World Loopback LoopEvent) (L : Int → Option LoopPlace) : Prop where
  tidy : w.Tidy
  index_nonneg : 0 ≤ w.shared.index
  index_lt : w.shared.index < loopBuffer
  slots : ∀ state count slot ch, .put state count slot ch ∈ w.log →
    0 ≤ slot ∧ slot < loopBuffer
  order : bytesRead w.log <+: written w.log
  free : w.shared.state = .free → ∀ p, L p ≠ some .waiting
  alloc : w.shared.state = .alloc → LoopOpen w L

theorem LoopInv.fifo (h : LoopInv w L) : LoopFifo w := by
  refine ⟨h.slots, h.order, ?_⟩
  intro hstate
  have hopen := h.alloc hstate
  rw [hopen.kept]
  unfold unread World.semcount
  rw [if_pos hopen.turns.used]

/-- Only the processes that wait matter. -/
theorem LoopInv.congr (h : LoopInv w L) (hL : ∀ p, L' p = some .waiting ↔ L p = some .waiting) :
    LoopInv w L' := by
  refine ⟨h.tidy, h.index_nonneg, h.index_lt, h.slots, h.order, ?_, ?_⟩
  · intro hstate p hp
    exact h.free hstate p ((hL p).mp hp)
  · intro hstate
    have hopen := h.alloc hstate
    exact ⟨hopen.turns.congr rfl rfl hL, hopen.granted, hopen.count_le, hopen.kept⟩

theorem LoopInv.pause (h : LoopInv w (update L me none)) :
    LoopInv w (update L me (some .paused)) := by
  apply h.congr
  intro p
  by_cases hp : p = me
  · simp [hp]
  · simp [hp]

theorem LoopInv.unpause (h : LoopInv w L) (hme : L me = some .paused) :
    LoopInv w (update L me none) := by
  apply h.congr
  intro p
  by_cases hp : p = me
  · simp [hp, hme]
  · simp [hp]

/-! ## Single calls -/

/-- The execution keeps the invariant as long as all events are proper. -/
abbrev LoopKeeps {α : Type} (me : Int) (x : Flow (World Loopback LoopEvent) α)
    (L : Int → Option LoopPlace) : Prop :=
  loopCrew.Holds LoopInv (World.AllEvents LoopEvent.Proper) me
    (Crew.Ends LoopInv (World.AllEvents LoopEvent.Proper) me) x L

theorem getc_within (me sem : Int) : (do
    let _ ← World.wait me sem
    let w ← get
    let ch := w.shared.buffer w.shared.index
    modify (·.setShared fun d => { d with index := (d.index + 1).tmod loopBuffer })
    modify (·.note (.got ch))
    return (ch.toNat : Int) : LoopM Int).Within World.Logged := by
  apply (World.wait_within me sem).bind
  intro _
  apply Coop.Within.read
  intro w
  apply Coop.Within.bind
  · exact .modify fun w => .of_eq rfl
  · intro _
    apply Coop.Within.bind
    · exact .modify fun w => .note w _
    · exact fun _ => .pure _

theorem loopbackGetc_within (me : Int) : (loopbackGetc me).Within World.Logged := by
  apply Coop.Within.read
  intro w
  apply Coop.Within.ite
  · exact .pure _
  · apply Coop.Within.bind
    · exact .modify fun w => .note w _
    · exact fun _ => getc_within me _

theorem loopbackPutc_within (ch : UInt8) : (loopbackPutc ch).Within World.Logged := by
  apply Coop.Within.read
  intro w
  apply Coop.Within.ite
  · exact .pure _
  · apply Coop.Within.bind
    · exact .modify fun w => .of_eq rfl
    · intro _
      apply Coop.Within.bind
      · exact .modify fun w => .note w _
      · intro _
        exact (World.signal_within _).bind fun _ => .pure _

/-- What is left of `loopbackGetc` after the wait. -/
def takeByte (w : World Loopback LoopEvent) : World Loopback LoopEvent :=
  (w.setShared fun d => { d with index := (d.index + 1).tmod loopBuffer }).note
    (.got (w.shared.buffer w.shared.index))

theorem tmod_next {i : Int} (h₀ : 0 ≤ i) (h : i < loopBuffer) :
    (i + 1).tmod loopBuffer = Ring.next loopBuffer i := by
  rw [Int.tmod_eq_emod_of_nonneg (by omega), Ring.next_eq h₀ h]

/-- A reader that does not wait takes the first byte. -/
theorem LoopInv.pass (h : LoopInv w L) (hstate : w.shared.state = .alloc)
    (hpos : 0 < (w.sems w.shared.sem).count) :
    LoopInv (takeByte (w.setSem w.shared.sem (Sem.wait i32 me))) L := by
  have hopen := h.alloc hstate
  have hlt : (w.sems w.shared.sem).count < 0x80000000 := by
    have hle := hopen.count_le
    unfold loopBuffer at hle
    omega
  obtain ⟨hturns, hcount⟩ :
      ((w.setSem w.shared.sem (Sem.wait i32 me)).Turns w.shared.sem
        fun p => L p = some .waiting) ∧ _ :=
    hopen.turns.pass hpos hlt
  have hnext : (w.shared.index + 1).tmod loopBuffer = Ring.next loopBuffer w.shared.index :=
    tmod_next h.index_nonneg h.index_lt
  have hpop : written w.log = bytesRead w.log ++ [w.shared.buffer w.shared.index] ++
      Ring.window loopBuffer w.shared.buffer (Ring.next loopBuffer w.shared.index)
        ((w.sems w.shared.sem).count - 1).toNat := by
    rw [hopen.kept, Ring.window_pop hpos, List.append_assoc, List.singleton_append]
  have hwritten : written (takeByte (w.setSem w.shared.sem (Sem.wait i32 me))).log =
      written w.log :=
    written_got
  have hread : bytesRead (takeByte (w.setSem w.shared.sem (Sem.wait i32 me))).log =
      bytesRead w.log ++ [w.shared.buffer w.shared.index] :=
    bytesRead_got
  constructor
  · exact (h.tidy.setSem hopen.turns.used hopen.turns.used).congr rfl rfl rfl rfl
  · show 0 ≤ (w.shared.index + 1).tmod loopBuffer
    rw [hnext]
    exact Ring.next_nonneg h.index_nonneg
  · show (w.shared.index + 1).tmod loopBuffer < loopBuffer
    rw [hnext]
    exact Ring.next_lt h.index_nonneg h.index_lt
  · intro state count slot ch hmem
    rcases List.mem_append.mp hmem with hold | hnew
    · exact h.slots state count slot ch hold
    · cases List.mem_singleton.mp hnew
  · rw [hwritten, hread, hpop]
    exact List.prefix_append _ _
  · exact h.free
  · intro _
    constructor
    · exact hturns.congr rfl rfl fun _ => Iff.rfl
    · exact hopen.granted
    · show ((w.setSem w.shared.sem (Sem.wait i32 me)).sems w.shared.sem).count ≤ loopBuffer
      have hle := hopen.count_le
      omega
    · rw [hwritten, hread, hpop]
      congr 1
      show _ = Ring.window loopBuffer w.shared.buffer ((w.shared.index + 1).tmod loopBuffer)
        ((w.setSem w.shared.sem (Sem.wait i32 me)).sems w.shared.sem).count.toNat
      rw [hnext, hcount]

/-- A reader that waits. -/
theorem LoopInv.block (h : LoopInv w (update L me none)) (hstate : w.shared.state = .alloc)
    (hpid : IsPid me) (hneg : (w.sems w.shared.sem).count ≤ 0) :
    LoopInv (w.setSem w.shared.sem (Sem.wait i32 me)) (update L me (some .waiting)) := by
  have hopen := h.alloc hstate
  have hnew : ¬ update L me none me = some LoopPlace.waiting := by simp
  obtain ⟨hturns, hcount⟩ := hopen.turns.block hpid hnew hneg
  have hzero : (w.sems w.shared.sem).count.toNat = 0 := by omega
  refine ⟨h.tidy.setSem hopen.turns.used hopen.turns.used, h.index_nonneg, h.index_lt, h.slots,
    h.order, ?_, ?_⟩
  · intro hfree
    rw [World.setSem] at hfree
    rw [hstate] at hfree
    contradiction
  · intro _
    constructor
    · apply hturns.congr rfl rfl
      intro p
      by_cases hp : p = me
      · simp [hp]
      · simp [hp]
    · exact hopen.granted
    · have hle := hopen.count_le
      show ((w.setSem w.shared.sem (Sem.wait i32 me)).sems w.shared.sem).count ≤ loopBuffer
      omega
    · have hkept := hopen.kept
      rw [hzero] at hkept
      have hstill : ((w.setSem w.shared.sem (Sem.wait i32 me)).sems w.shared.sem).count.toNat =
          0 := by
        omega
      show _ = _ ++ Ring.window loopBuffer w.shared.buffer w.shared.index
        ((w.setSem w.shared.sem (Sem.wait i32 me)).sems w.shared.sem).count.toNat
      rw [hstill]
      exact hkept

/-- Nobody who waits is released. -/
theorem LoopInv.not_waiting (h : LoopInv w L) (hready : w.Ready me) : L me ≠ some .waiting := by
  intro hme
  cases hstate : w.shared.state with
  | free => exact h.free hstate me hme
  | alloc =>
      have hopen := h.alloc hstate
      rcases (hopen.turns.inside me).mp hme with hq | hg
      · exact hready.2 _ (h.tidy.good _ hopen.turns.used) hq
      · rw [hopen.granted] at hg
        contradiction

theorem LoopInv.asked (h : LoopInv w L) (state : LoopState) :
    LoopInv (w.note (.asked state)) L := by
  refine ⟨h.tidy.congr rfl rfl rfl rfl, h.index_nonneg, h.index_lt, ?_, ?_, h.free, ?_⟩
  · intro state' count slot ch hmem
    rcases List.mem_append.mp hmem with hold | hnew
    · exact h.slots state' count slot ch hold
    · cases List.mem_singleton.mp hnew
  · show bytesRead (w.log ++ _) <+: written (w.log ++ _)
    rw [bytesRead_asked, written_asked]
    exact h.order
  · intro hstate
    have hopen := h.alloc hstate
    refine ⟨hopen.turns.congr rfl rfl fun _ => Iff.rfl, hopen.granted, hopen.count_le, ?_⟩
    show written (w.log ++ _) = bytesRead (w.log ++ _) ++ _
    rw [bytesRead_asked, written_asked]
    exact hopen.kept

theorem loopbackGetc_keeps (h : LoopInv w (update L me none)) (hpid : IsPid me) :
    LoopKeeps me (loopbackGetc me w) L := by
  unfold loopbackGetc
  simp only [Coop.run_bind, Coop.run_get, Flow.bind_done, Coop.run_ite]
  split
  · exact fun _ => h
  · simp only [Coop.run_modify, Flow.bind_done]
    by_cases hstate : w.shared.state = .alloc
    · have hasked := h.asked w.shared.state
      have hopen := hasked.alloc hstate
      apply Crew.Holds.bind (Q := fun _ s L => LoopInv (takeByte s) (update L me none))
      · apply World.holds_wait .waiting hopen.turns.used h.tidy.ndefers
        · have hle := hopen.count_le
          unfold loopBuffer at hle
          exact Int.lt_of_le_of_lt hle (by decide)
        · have hge := hopen.turns.count_ge
          unfold nproc at hge
          exact Int.lt_of_lt_of_le (by decide) hge
        · exact hasked.pass hstate
        · exact fun hneg _ => hasked.block hstate hpid hneg
        · intro s L' hI hL' hready
          exact (hI.not_waiting hready hL').elim
      · exact fun a s L hQ _ => hQ
    · exact World.holds_of_bad (getc_within me _) hstate

/-- The world in which a byte has been stored. -/
def storeByte (ch : UInt8) (i : Int) (w : World Loopback LoopEvent) : World Loopback LoopEvent :=
  (w.setShared fun d => { d with buffer := update d.buffer i ch }).note
    (.put w.shared.state (w.semcount w.shared.sem) i ch)

theorem LoopInv.put (h : LoopInv w L) (hstate : w.shared.state = .alloc) (ch : UInt8)
    (hpos : 0 ≤ (w.sems w.shared.sem).count) (hroom : (w.sems w.shared.sem).count < loopBuffer) :
    LoopInv (World.release w.shared.sem (storeByte ch
      ((w.shared.index + (w.sems w.shared.sem).count).tmod loopBuffer) w)) L := by
  have hopen := h.alloc hstate
  have hlt : (w.sems w.shared.sem).count + 1 < 0x80000000 := by
    unfold loopBuffer at hroom
    omega
  obtain ⟨hturns, hcount, hgranted⟩ := hopen.turns.signal hlt
  have hslot : (w.shared.index + (w.sems w.shared.sem).count).tmod loopBuffer =
      (w.shared.index + (w.sems w.shared.sem).count) % loopBuffer := by
    have hnonneg := h.index_nonneg
    exact Int.tmod_eq_emod_of_nonneg (by omega)
  have hfits : Ring.Fits loopBuffer w.shared.index
      ((w.shared.index + (w.sems w.shared.sem).count).tmod loopBuffer)
      (w.sems w.shared.sem).count :=
    ⟨h.index_nonneg, h.index_lt, hpos, hopen.count_le, hslot⟩
  have hpush := @Ring.window_push _ _ _ _ _ w.shared.buffer hfits hroom ch
  generalize (w.shared.index + (w.sems w.shared.sem).count).tmod loopBuffer = slot at *
  have hwritten : written (World.release w.shared.sem (storeByte ch slot w)).log =
      written w.log ++ [ch] :=
    written_put
  have hread : bytesRead (World.release w.shared.sem (storeByte ch slot w)).log =
      bytesRead w.log :=
    bytesRead_put
  constructor
  · have htidy : (storeByte ch slot w).Tidy := h.tidy.congr rfl rfl rfl rfl
    exact htidy.release hopen.turns.used
  · exact h.index_nonneg
  · exact h.index_lt
  · intro state count slot' ch' hmem
    rcases List.mem_append.mp hmem with hold | hnew
    · exact h.slots state count slot' ch' hold
    · obtain ⟨-, -, rfl, -⟩ := LoopEvent.put.inj (List.mem_singleton.mp hnew)
      exact ⟨hfits.tail_nonneg, hfits.tail_lt⟩
  · rw [hwritten, hread]
    exact h.order.trans (List.prefix_append _ _)
  · exact h.free
  · intro _
    constructor
    · exact hturns.congr rfl rfl fun _ => Iff.rfl
    · have hlen : ((World.release w.shared.sem w).granted w.shared.sem).length = 0 := by
        rw [hgranted, hopen.granted, if_neg (by omega)]
        rfl
      exact List.eq_nil_of_length_eq_zero hlen
    · show ((World.release w.shared.sem w).sems w.shared.sem).count ≤ loopBuffer
      omega
    · rw [hwritten, hread, hopen.kept, List.append_assoc]
      congr 1
      show _ = Ring.window loopBuffer (update w.shared.buffer slot ch) w.shared.index
        ((World.release w.shared.sem w).sems w.shared.sem).count.toNat
      rw [hcount, hpush]

theorem loopbackPutc_eq {ch : UInt8} (hroom : w.semcount w.shared.sem < loopBuffer) :
    loopbackPutc ch w =
      (World.signal w.shared.sem (storeByte ch
        ((w.shared.index + w.semcount w.shared.sem).tmod loopBuffer) w)).bind
          fun _ => pure (ch.toNat : Int) := by
  have hnot : ¬ loopBuffer ≤ w.semcount w.shared.sem := by omega
  simp only [loopbackPutc, Coop.run_bind, Coop.run_get, Flow.bind_done, hnot, if_false,
    Coop.run_modify, storeByte]

theorem loopbackPutc_keeps (h : LoopInv w (update L me none)) (ch : UInt8) :
    LoopKeeps me (loopbackPutc ch w) L := by
  by_cases hroom : w.semcount w.shared.sem < loopBuffer
  · rw [loopbackPutc_eq hroom]
    by_cases hproper : w.shared.state = .alloc ∧ 0 ≤ w.semcount w.shared.sem
    · have hopen := h.alloc hproper.1
      have hcount : w.semcount w.shared.sem = (w.sems w.shared.sem).count := by
        unfold World.semcount
        rw [if_pos hopen.turns.used]
      rw [hcount] at hroom hproper ⊢
      have hput := h.put hproper.1 ch hproper.2 hroom
      have hrun : World.signal w.shared.sem (storeByte ch
          ((w.shared.index + (w.sems w.shared.sem).count).tmod loopBuffer) w) = .done ok _ :=
        World.signal_pass hopen.turns.used hproper.2
      rw [hrun]
      exact fun _ => hput
    · have hwithin : (World.signal w.shared.sem >>= fun _ => pure (ch.toNat : Int) :
          LoopM Int).Within World.Logged :=
        (World.signal_within _).bind fun _ => .pure _
      exact World.holds_of_bad hwithin hproper
  · have hrun : loopbackPutc ch w = .done syserr w := by
      have hfull : loopBuffer ≤ w.semcount w.shared.sem := by omega
      simp [loopbackPutc, hfull]
    rw [hrun]
    exact fun _ => h

/-- The device is closed. -/
theorem LoopInv.close (h : LoopInv w L) (hstate : w.shared.state = .alloc)
    (hpos : 0 ≤ (w.sems w.shared.sem).count) (count : Int) :
    LoopInv ((World.discard w.shared.sem (w.note (.closed count))).setShared
      fun d => { d with state := .free }) L := by
  have hopen := h.alloc hstate
  have hqueue : (w.sems w.shared.sem).queue = [] := by
    have hagrees : (w.sems w.shared.sem).queue.length = (-(w.sems w.shared.sem).count).toNat :=
      hopen.turns.agrees
    apply List.eq_nil_of_length_eq_zero
    omega
  constructor
  · have htidy : (w.note (.closed count)).Tidy := h.tidy.congr rfl rfl rfl rfl
    exact (htidy.discard hqueue hopen.granted).congr rfl rfl rfl rfl
  · exact h.index_nonneg
  · exact h.index_lt
  · intro state count slot ch hmem
    rcases List.mem_append.mp hmem with hold | hnew
    · exact h.slots state count slot ch hold
    · cases List.mem_singleton.mp hnew
  · show bytesRead (w.log ++ _) <+: written (w.log ++ _)
    rw [bytesRead_closed, written_closed]
    exact h.order
  · intro _ p hp
    have hmem := (hopen.turns.inside p).mp hp
    rw [hqueue, hopen.granted] at hmem
    simp at hmem
  · intro halloc
    cases halloc

theorem loopbackClose_keeps (h : LoopInv w (update L me none)) :
    LoopKeeps me (loopbackClose w) L := by
  unfold loopbackClose
  simp only [Coop.run_bind, Coop.run_get, Flow.bind_done, Coop.run_ite]
  split
  · exact fun _ => h
  · next hstate =>
      simp only [Coop.run_modify, Flow.bind_done, Coop.run_bind]
      have halloc : w.shared.state = .alloc := by
        cases heq : w.shared.state with
        | free => exact (hstate (by rw [heq]; decide)).elim
        | alloc => rfl
      have hopen := h.alloc halloc
      by_cases hpos : 0 ≤ w.semcount w.shared.sem
      · have hcount : w.semcount w.shared.sem = (w.sems w.shared.sem).count := by
          unfold World.semcount
          rw [if_pos hopen.turns.used]
        have hpos' : 0 ≤ (w.sems w.shared.sem).count := by omega
        have hclose := h.close halloc hpos' (w.semcount w.shared.sem)
        have hrun : World.semdelete w.shared.sem (w.note (.closed (w.semcount w.shared.sem))) =
            .done ok _ :=
          World.semdelete_pass hopen.turns.used hpos'
        rw [hrun]
        exact fun _ => hclose
      · have hwithin : (do
            let _ ← World.semdelete w.shared.sem
            modify (·.setShared fun d => { d with state := .free })
            return ok : LoopM Int).Within World.Logged := by
          apply (World.semdelete_within _).bind
          intro _
          apply Coop.Within.bind
          · exact .modify fun w => .of_eq rfl
          · exact fun _ => .pure _
        exact World.holds_of_bad hwithin hpos

/-- The device is opened. -/
theorem LoopInv.opened (h : LoopInv w L) (hstate : w.shared.state = .free) {x next : Int}
    (h₀ : 0 ≤ next) (hlt : next < nsem) (hx : ¬ isbadsem x) (hunused : (w.sems x).used = false)
    (buffer : Int → UInt8) (flags : Int32) :
    LoopInv ((({ w with nextsem := next }.setSem x fun _ => ⟨true, 0, []⟩).setShared fun d =>
      { d with sem := x, buffer := buffer, flags := flags, state := .alloc }).note .opened) L := by
  have hnone := h.free hstate
  have hgranted := h.tidy.granted x hunused
  constructor
  · exact (h.tidy.created hx h₀ hlt 0).congr rfl rfl rfl rfl
  · exact h.index_nonneg
  · exact h.index_lt
  · intro state count slot ch hmem
    rcases List.mem_append.mp hmem with hold | hnew
    · exact h.slots state count slot ch hold
    · cases List.mem_singleton.mp hnew
  · show bytesRead (w.log ++ _) <+: written (w.log ++ _)
    rw [bytesRead_opened, written_opened]
  · intro hfree
    cases hfree
  · intro _
    have hsem : (({ w with nextsem := next }.setSem x fun _ => ⟨true, 0, []⟩).sems x) =
        ⟨true, 0, []⟩ :=
      World.sems_setSem _
    constructor
    · constructor
      · exact congrArg Sem.used hsem
      · show Sem.Agrees (({ w with nextsem := next }.setSem x fun _ => ⟨true, 0, []⟩).sems x)
        rw [hsem]
        rfl
      · show ((({ w with nextsem := next }.setSem x fun _ => ⟨true, 0, []⟩).sems x).queue ++
          w.granted x).Nodup
        rw [hsem, hgranted]
        exact List.nodup_nil
      · exact fun p hp => (hnone p hp).elim
      · intro p
        show _ ↔ p ∈ (({ w with nextsem := next }.setSem x fun _ => ⟨true, 0, []⟩).sems x).queue ∨
          p ∈ w.granted x
        rw [hsem, hgranted]
        simp [hnone p]
    · exact hgranted
    · show (({ w with nextsem := next }.setSem x fun _ => ⟨true, 0, []⟩).sems x).count ≤ _
      rw [hsem]
      decide
    · show written (w.log ++ _) = bytesRead (w.log ++ _) ++ Ring.window _ _ _
        (({ w with nextsem := next }.setSem x fun _ => ⟨true, 0, []⟩).sems x).count.toNat
      rw [bytesRead_opened, written_opened, hsem]
      rfl

theorem loopbackOpen_keeps (h : LoopInv w (update L me none)) :
    LoopKeeps me (loopbackOpen w) L := by
  unfold loopbackOpen
  simp only [Coop.run_bind, Coop.run_get, Flow.bind_done, Coop.run_ite]
  split
  · exact fun _ => h
  · next hstate =>
      rw [not_not] at hstate
      obtain ⟨next, h₀, hlt, hfail | ⟨x, hx, hunused, hdone⟩⟩ :=
        World.semcreate_done h.tidy (n := 0) (Int.le_refl 0)
      · rw [hfail]
        simp only [Flow.bind_done, if_true]
        intro _
        refine ⟨⟨h₀, hlt, h.tidy.ndefers, h.tidy.good, h.tidy.queue, h.tidy.granted⟩,
          h.index_nonneg, h.index_lt, h.slots, h.order, h.free, ?_⟩
        intro halloc
        have hfree : w.shared.state = .alloc := halloc
        rw [hstate] at hfree
        contradiction
      · have hne : x ≠ syserr := by
          rintro rfl
          exact hx (Or.inl (by decide))
        rw [hdone]
        simp only [Flow.bind_done, Coop.run_modify, if_neg hne, Coop.run_bind]
        exact fun _ => h.opened hstate h₀ hlt hx hunused _ 0

theorem LoopInv.setFlags (h : LoopInv w L) (flags : Int32) :
    LoopInv (w.setShared fun d => { d with flags := flags }) L := by
  refine ⟨h.tidy.congr rfl rfl rfl rfl, h.index_nonneg, h.index_lt, h.slots, h.order, h.free, ?_⟩
  intro hstate
  have hopen := h.alloc hstate
  exact ⟨hopen.turns.congr rfl rfl fun _ => Iff.rfl, hopen.granted, hopen.count_le, hopen.kept⟩

/-- The process may be interrupted before it goes on. -/
theorem pause_keeps {α : Type} {f : Unit → LoopM α} (h : LoopInv w (update L me none))
    (hf : ∀ s L', LoopInv s (update L' me none) → IsPid me → LoopKeeps me (f () s) L') :
    LoopKeeps me ((Coop.giveAway >>= f) w) L := by
  apply World.holds_giveAway .paused h.pause
  intro s L' hI hL' hready
  exact hf s L' (hI.unpause hL') hready.1

theorem loopbackControl_keeps (h : LoopInv w (update L me none)) (func : Int) (arg1 : Int32) :
    LoopKeeps me (loopbackControl func arg1 w) L := by
  unfold loopbackControl
  rw [Coop.run_bind, Coop.run_get, Flow.bind_done, Coop.run_ite]
  split
  · exact fun _ => h
  · apply pause_keeps h
    intro s L' h _
    rw [Coop.run_bind, Coop.run_get, Flow.bind_done]
    dsimp only
    split
    · apply pause_keeps h
      intro s L' h _
      rw [Coop.run_bind, Coop.run_get, Flow.bind_done]
      apply pause_keeps h
      intro s L' h _
      exact fun _ => h.setFlags _
    · split
      · apply pause_keeps h
        intro s L' h _
        rw [Coop.run_bind, Coop.run_get, Flow.bind_done]
        apply pause_keeps h
        intro s L' h _
        exact fun _ => h.setFlags _
      · exact fun _ => h

/-! ## Several bytes -/

theorem loopbackReadLoop_within (me : Int) (i : Nat) :
    (loopbackReadLoop me i).Within World.Logged := by
  induction i with
  | zero => exact .pure _
  | succ i ih =>
      apply Coop.Within.giveAway.bind
      intro _
      apply (loopbackGetc_within me).bind
      intro ret
      apply Coop.Within.ite
      · exact .pure _
      · exact ih.bind fun _ => .pure _

theorem loopbackReadLoop_keeps (h : LoopInv w (update L me none)) (i : Nat) :
    LoopKeeps me (loopbackReadLoop me i w) L := by
  induction i generalizing w L with
  | zero => exact fun _ => h
  | succ i ih =>
      apply pause_keeps h
      intro s L' h hpid
      apply World.holds_andThen (loopbackGetc_keeps h hpid)
      · intro ret s L h
        rw [Coop.run_ite]
        split
        · exact fun _ => h
        · apply World.holds_andThen (ih h)
          · exact fun a s L h _ => h
          · exact fun _ => .pure _
      · intro ret
        apply Coop.Within.ite
        · exact .pure _
        · exact (loopbackReadLoop_within me i).bind fun _ => .pure _

theorem loopbackWriteLoop_within (buffer : List UInt8) :
    (loopbackWriteLoop buffer).Within World.Logged := by
  induction buffer with
  | nil => exact .pure _
  | cons ch buffer ih =>
      apply Coop.Within.giveAway.bind
      intro _
      apply (loopbackPutc_within ch).bind
      intro ret
      apply Coop.Within.ite
      · exact .pure _
      · exact ih.bind fun _ => .pure _

theorem loopbackWriteLoop_keeps (h : LoopInv w (update L me none)) (buffer : List UInt8) :
    LoopKeeps me (loopbackWriteLoop buffer w) L := by
  induction buffer generalizing w L with
  | nil => exact fun _ => h
  | cons ch buffer ih =>
      apply pause_keeps h
      intro s L' h _
      apply World.holds_andThen (loopbackPutc_keeps h ch)
      · intro ret s L h
        rw [Coop.run_ite]
        split
        · exact fun _ => h
        · apply World.holds_andThen (ih h)
          · exact fun a s L h _ => h
          · exact fun _ => .pure _
      · intro ret
        apply Coop.Within.ite
        · exact .pure _
        · exact (loopbackWriteLoop_within buffer).bind fun _ => .pure _

theorem loopCall_keeps (h : LoopInv w (update L me none)) (hpid : IsPid me) (c : LoopCall) :
    LoopKeeps me (loopCrew.exec me c w) L := by
  cases c with
  | «open» => exact loopbackOpen_keeps h
  | close => exact loopbackClose_keeps h
  | getc => exact loopbackGetc_keeps h hpid
  | putc ch => exact loopbackPutc_keeps h ch
  | read len =>
      show LoopKeeps me ((loopbackRead me len >>= fun r => pure r.1) w) L
      unfold loopbackRead
      rw [Coop.run_bind, Coop.run_bind, Coop.run_get, Flow.bind_done, Coop.run_ite]
      split
      · exact fun _ => h
      · rw [Coop.run_bind, Flow.bind_assoc]
        apply World.holds_andThen (loopbackReadLoop_keeps h len.toNat)
        · exact fun a s L h _ => h
        · exact fun _ => .pure _
  | write buffer =>
      show LoopKeeps me (loopbackWrite buffer w) L
      unfold loopbackWrite
      rw [Coop.run_bind, Coop.run_get, Flow.bind_done, Coop.run_ite]
      split
      · exact fun _ => h
      · apply World.holds_andThen (loopbackWriteLoop_keeps h buffer)
        · intro i s L h
          rw [Coop.run_ite]
          split
          · exact fun _ => h
          · exact fun _ => h
        · intro i
          apply Coop.Within.ite
          · exact .pure _
          · exact .pure _
  | control func arg1 => exact loopbackControl_keeps h func arg1

/-! ## Runs -/

/-- The device has been initialized, and nothing has happened since. -/
structure LoopStart (w : World Loopback LoopEvent) : Prop where
  tidy : w.Tidy
  state : w.shared.state = .free
  index : w.shared.index = 0
  log : w.log = []

theorem loopbackInit_start (htidy : w.Tidy) (hlog : w.log = []) :
    ∃ s, loopbackInit w = .done ok s ∧ LoopStart s :=
  ⟨_, rfl, htidy.congr rfl rfl rfl rfl, rfl, rfl, hlog⟩

theorem LoopStart.inv (h : LoopStart w) : LoopInv w fun _ => none := by
  constructor
  · exact h.tidy
  · rw [h.index]
  · rw [h.index]
    decide
  · intro state count slot ch hmem
    rw [h.log] at hmem
    contradiction
  · rw [h.log]
    exact List.prefix_rfl
  · intro _ p hp
    contradiction
  · intro halloc
    rw [h.state] at halloc
    contradiction

/--
If each byte is written while the device is open and nobody waits, each reader begins
while the device is open, and nobody waits when it is closed, then in every run the
device is a queue: the bytes read are the bytes written, in their order, and each place
that a writer uses is in the buffer.
-/
theorem loopback_fifo {w : World Loopback LoopEvent} {tr : List (Segment _ LoopCall)}
    {C : Config (World Loopback LoopEvent) LoopCall} (hstart : LoopStart w)
    (hrun : loopCrew.Run (fun _ seg => seg.after.AllEvents LoopEvent.Proper)
      (Machine.initial w) tr C) :
    LoopFifo C.state := by
  have hcall : ∀ p c s L, LoopInv s L → loopCrew.ready s p → L p = none →
      LoopKeeps p (loopCrew.exec p c s) L := by
    intro p c s L hI hready hL
    apply loopCall_keeps _ hready.1
    rw [← hL, update_eq_self]
    exact hI
  obtain ⟨L, hI, -⟩ := Crew.run_holds hstart.inv hcall hrun
  exact hI.fifo

/-- No semaphore is in use, and the device is free. -/
def loopBoot : World Loopback LoopEvent where
  sems := fun _ => ⟨false, 0, []⟩
  nextsem := 0
  ndefers := 0
  attempt := false
  shared := ⟨.free, 0, 0, 0, fun _ => 0⟩
  granted := fun _ => []
  log := []

theorem loopBoot_start : LoopStart loopBoot := by
  refine ⟨⟨Int.le_refl 0, by decide, rfl, ?_, ?_, ?_⟩, rfl, rfl, rfl⟩
  · intro x hx
    contradiction
  · exact fun _ _ => rfl
  · exact fun _ _ => rfl

instance (s : World Loopback LoopEvent) (p : Int) : Decidable (loopCrew.ready s p) :=
  inferInstanceAs (Decidable (World.Ready s p))

/-- One process opens the device and writes a byte, which another reads. -/
theorem byte_looped : ∃ tr C, loopCrew.Run
    (fun _ seg => seg.after.AllEvents LoopEvent.Proper) (Machine.initial loopBoot) tr C ∧
      bytesRead C.state.log = [7] ∧ LoopFifo C.state := by
  let script : List (Int × Option LoopCall) :=
    [(1, some .open), (1, some (.putc 7)), (2, some .getc)]
  have hsome : (loopCrew.replay (fun _ seg => seg.after.AllEvents LoopEvent.Proper)
      (fun _ C f => f C) script [] (Machine.initial loopBoot)).map
        (fun r => bytesRead r.2.state.log) = some [7] := by
    decide +kernel
  rw [Option.map_eq_some_iff] at hsome
  obtain ⟨⟨tr, C⟩, heq, hread⟩ := hsome
  have hrun := loopCrew.replay_run (fun _ _ _ => rfl) .start heq
  exact ⟨tr, C, hrun, hread, loopback_fifo loopBoot_start hrun⟩

/-- A reader waits when the byte is written: it is stored in front of the buffer, and the
reader gets another one. -/
theorem loopback_underrun : ∃ tr C, loopCrew.Run (fun _ _ => True)
    (Machine.initial loopBoot) tr C ∧ ¬ LoopFifo C.state := by
  let script : List (Int × Option LoopCall) :=
    [(1, some .open), (2, some .getc), (1, some (.putc 7)), (2, none)]
  have hsome : (loopCrew.replay (fun _ _ => True) (fun _ C f => f C) script []
      (Machine.initial loopBoot)).map (fun r => r.2.state.log) =
        some [.opened, .asked .alloc, .put .alloc (-1) (-1) 7, .got 0] := by
    decide +kernel
  rw [Option.map_eq_some_iff] at hsome
  obtain ⟨⟨tr, C⟩, heq, hlog⟩ := hsome
  dsimp only at hlog
  refine ⟨tr, C, loopCrew.replay_run (fun _ _ _ => rfl) .start heq, ?_⟩
  intro h
  have hslot := (h.slots .alloc (-1) (-1) 7 (by simp [hlog])).1
  contradiction

end Xinu
