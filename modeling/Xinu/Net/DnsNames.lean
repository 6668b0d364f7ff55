import Xinu.Net.Dns
import Mathlib.Data.Finset.Card
import Mathlib.Data.Finset.Range

/-!
# Expanding names

What `dns_getrname` does with the labels of a name and with a pointer.

Main results:

- Theorem `dnsGetrname_returns`: a call ends, whatever the packet contains.
- Theorem `dnsGetrname_labels`: the text that a call leaves for labels that a zero byte
  ends.
-/

namespace Xinu
namespace Net
namespace Dns

open Foundations Function Lib DottedQuad

/-! ## Labels -/

/-- The labels as they lie in a packet, each behind its length. -/
def wire (ls : List (List UInt8)) : List UInt8 :=
  ls.flatMap fun l => UInt8.ofNat l.length :: l

/-- The text of the labels, each with a dot behind it. -/
def expansion (ls : List (List UInt8)) : List UInt8 :=
  ls.flatMap fun l => l ++ [dot]

/-- One to 63 bytes. -/
def IsLabel (l : List UInt8) : Prop :=
  1 ≤ l.length ∧ l.length ≤ 63

instance (l : List UInt8) : Decidable (IsLabel l) :=
  inferInstanceAs (Decidable (_ ∧ _))

/-- Memory holds the bytes from `off` on. -/
def Bytes (pkt : Chars) (off : Nat) (bs : List UInt8) : Prop :=
  ∀ i (h : i < bs.length), pkt (off + i) = bs[i]

instance (pkt : Chars) (off : Nat) (bs : List UInt8) : Decidable (Bytes pkt off bs) :=
  inferInstanceAs (Decidable (∀ i (h : i < bs.length), pkt (off + i) = bs[i]))

section Labels

variable {pkt : Chars} {off : Nat} {bs cs l : List UInt8} {ls : List (List UInt8)}

theorem wire_cons (l : List UInt8) (ls : List (List UInt8)) :
    wire (l :: ls) = UInt8.ofNat l.length :: (l ++ wire ls) := by
  simp [wire]

theorem expansion_cons (l : List UInt8) (ls : List (List UInt8)) :
    expansion (l :: ls) = l ++ dot :: expansion ls := by
  simp [expansion]

theorem length_expansion (ls : List (List UInt8)) :
    (expansion ls).length = (wire ls).length := by
  induction ls with
  | nil => rfl
  | cons l ls ih =>
      rw [wire_cons, expansion_cons]
      simp [ih]
      omega

theorem IsLabel.toNat_length (h : IsLabel l) : (UInt8.ofNat l.length).toNat = l.length := by
  rw [UInt8.toNat_ofNat']
  exact Nat.mod_eq_of_lt (by have := h.2; omega)

theorem bytes_append_iff :
    Bytes pkt off (bs ++ cs) ↔ Bytes pkt off bs ∧ Bytes pkt (off + bs.length) cs := by
  constructor
  · intro h
    constructor
    · intro i hi
      rw [h i (by simp; omega), List.getElem_append_left hi]
    · intro i hi
      rw [Nat.add_assoc, h (bs.length + i) (by simp; omega),
        List.getElem_append_right (Nat.le_add_right _ _)]
      simp
  · rintro ⟨hfirst, hsecond⟩ i hi
    by_cases hbs : i < bs.length
    · rw [List.getElem_append_left hbs]
      exact hfirst i hbs
    · obtain ⟨k, rfl⟩ : ∃ k, i = bs.length + k := ⟨i - bs.length, by omega⟩
      rw [List.getElem_append_right (by omega), ← Nat.add_assoc]
      simp only [Nat.add_sub_cancel_left]
      exact hsecond k (by simp at hi; omega)

theorem bytes_singleton_iff {c : UInt8} : Bytes pkt off [c] ↔ pkt off = c := by
  constructor
  · intro h
    exact h 0 (by simp)
  · intro h i hi
    have hzero : i = 0 := by simpa using hi
    subst hzero
    exact h

theorem bytes_cons_iff {c : UInt8} :
    Bytes pkt off (c :: bs) ↔ pkt off = c ∧ Bytes pkt (off + 1) bs := by
  rw [← List.singleton_append, bytes_append_iff, bytes_singleton_iff]
  rfl

/-- Memory holds no other bytes of the same number. -/
theorem Bytes.unique (h : Bytes pkt off bs) (h' : Bytes pkt off cs)
    (hlen : bs.length = cs.length) : bs = cs := by
  apply List.ext_getElem hlen
  intro i hi hi'
  rw [← h i hi, ← h' i hi']

/-- Only the bytes themselves matter. -/
theorem Bytes.congr {pkt' : Chars} (h : Bytes pkt off bs)
    (hsame : ∀ i, off ≤ i → i < off + bs.length → pkt' i = pkt i) : Bytes pkt' off bs := by
  intro i hi
  rw [hsame _ (Nat.le_add_right _ _) (by omega)]
  exact h i hi

end Labels

/-! ## Copying a label -/

section Copy

variable {m : NameMem} {n son dst i : Nat}

theorem copyLabel_pkt : (copyLabel n son dst m).pkt = m.pkt := by
  induction n generalizing son dst m with
  | zero => rfl
  | succ n ih => exact ih

theorem copyLabel_dst_of_lt (h : i < dst) : (copyLabel n son dst m).dst i = m.dst i := by
  induction n generalizing son dst m with
  | zero => rfl
  | succ n ih =>
      rw [copyLabel]
      refine (ih (by omega)).trans ?_
      exact update_of_ne (by omega) _ _

theorem copyLabel_dst (h : i < n) : (copyLabel n son dst m).dst (dst + i) = m.pkt (son + i) := by
  induction n generalizing son dst m i with
  | zero => exact absurd h (Nat.not_lt_zero i)
  | succ n ih =>
      rw [copyLabel]
      cases i with
      | zero =>
          refine (copyLabel_dst_of_lt (Nat.lt_succ_self dst)).trans ?_
          exact update_self _ _ _
      | succ i =>
          have hdst : dst + (i + 1) = dst + 1 + i := by omega
          have hson : son + (i + 1) = son + 1 + i := by omega
          rw [hdst, hson]
          exact ih (Nat.lt_of_succ_lt_succ h)

theorem copyLabel_touched :
    (copyLabel n son dst m).touched = m.touched ++
      (List.range n).flatMap fun i => [.read (son + i), .write (dst + i)] := by
  induction n generalizing son dst m with
  | zero => simp [copyLabel]
  | succ n ih =>
      rw [copyLabel, List.range_succ_eq_map]
      refine ih.trans ?_
      simp [NameMem.store, List.flatMap_map, Nat.add_assoc, Nat.add_comm 1]

/-- One label: its characters, the dot, and the next length. -/
def NameMem.takeLabel (m : NameMem) (n son dst : Nat) : NameMem :=
  (((copyLabel n son dst m).store (dst + n) dot).fetch (son + n)).2

theorem takeLabel_pkt : (m.takeLabel n son dst).pkt = m.pkt :=
  copyLabel_pkt

theorem takeLabel_dst_of_lt (h : i < dst) : (m.takeLabel n son dst).dst i = m.dst i := by
  refine (update_of_ne (by omega) _ _).trans ?_
  exact copyLabel_dst_of_lt h

theorem takeLabel_dst (h : i < n) : (m.takeLabel n son dst).dst (dst + i) = m.pkt (son + i) := by
  refine (update_of_ne (by omega) _ _).trans ?_
  exact copyLabel_dst h

theorem takeLabel_dot : (m.takeLabel n son dst).dst (dst + n) = dot :=
  update_self _ _ _

theorem takeLabel_touched :
    (m.takeLabel n son dst).touched = m.touched ++
      ((List.range n).flatMap fun i => [.read (son + i), .write (dst + i)]) ++
        [.write (dst + n), .read (son + n)] := by
  unfold NameMem.takeLabel NameMem.fetch NameMem.store
  simp [copyLabel_touched]

end Copy

/-! ## Turns of the loop -/

section Turns

variable {fuel sson son dst : Nat} {llen : UInt8} {m : NameMem}

/-- The state in which a pointer at `son` is followed. -/
def NameMem.follow (m : NameMem) (son : Nat) : NameMem :=
  ((((m.fetch son).2.patch son (m.pkt son &&& 0x3f)).fetch son).2.fetch (son + 1)).2

/-- The offset that a pointer at `son` leads to. -/
def target (pkt : Chars) (son : Nat) : Nat :=
  (pkt son &&& 0x3f).toNat * 256 + (pkt (son + 1)).toNat

theorem nameLoop_end :
    nameLoop (fuel + 1) sson son dst 0 m = (m.store dst 0, some (son - sson)) := by
  rw [nameLoop, if_pos rfl]

theorem nameLoop_label (h0 : llen ≠ 0) (h63 : llen ≤ 63) :
    nameLoop (fuel + 1) sson son dst llen m =
      nameLoop fuel sson (son + llen.toNat + 1) (dst + llen.toNat + 1) (m.pkt (son + llen.toNat))
        (m.takeLabel llen.toNat son dst) := by
  rw [nameLoop, if_neg h0, if_pos h63]
  have hpkt : ((copyLabel llen.toNat son dst m).store (dst + llen.toNat) dot).pkt = m.pkt :=
    copyLabel_pkt
  simp only [NameMem.takeLabel, NameMem.fetch, hpkt]

/-- A pointer begins one byte before `son`. -/
theorem nameLoop_pointer (h63 : ¬ llen ≤ 63) :
    nameLoop (fuel + 1) sson son dst llen m =
      (let off := target m.pkt (son - 1)
      let r := nameLoop fuel off (off + 1) dst ((m.follow (son - 1)).pkt off)
        ((m.follow (son - 1)).fetch off).2
      (r.1, r.2.map fun _ => son - 1 + 2 - sson)) := by
  have h0 : llen ≠ 0 := by
    rintro rfl
    exact h63 (by decide)
  have hne : son - 1 + 1 ≠ son - 1 := Nat.succ_ne_self (son - 1)
  rw [nameLoop, if_neg h0, if_neg h63]
  simp only [NameMem.follow, NameMem.fetch, NameMem.patch, target, update_self,
    update_of_ne hne]
  generalize nameLoop fuel _ _ _ _ _ = r
  rcases r with ⟨m', _ | off⟩
  · rfl
  · rfl

/-- A result does not change with more turns. -/
theorem nameLoop_succ {m' : NameMem} {off : Nat}
    (h : nameLoop fuel sson son dst llen m = (m', some off)) :
    nameLoop (fuel + 1) sson son dst llen m = (m', some off) := by
  induction fuel generalizing sson son dst llen m m' off with
  | zero => exact absurd (congrArg Prod.snd h) (by simp [nameLoop])
  | succ fuel ih =>
      by_cases h0 : llen = 0
      · subst h0
        rwa [nameLoop_end] at h ⊢
      · by_cases h63 : llen ≤ 63
        · rw [nameLoop_label h0 h63] at h ⊢
          exact ih h
        · rw [nameLoop_pointer h63] at h ⊢
          simp only [Prod.mk.injEq, Option.map_eq_some_iff] at h ⊢
          obtain ⟨hmem, back, hback, hoff⟩ := h
          have hnext := ih (Prod.ext hmem hback)
          rw [hnext]
          exact ⟨rfl, back, rfl, hoff⟩

theorem nameLoop_mono {fuel' : Nat} {m' : NameMem} {off : Nat} (hle : fuel ≤ fuel')
    (h : nameLoop fuel sson son dst llen m = (m', some off)) :
    nameLoop fuel' sson son dst llen m = (m', some off) := by
  induction hle with
  | refl => exact h
  | step _ ih => exact nameLoop_succ ih

end Turns

/-! ## Names without a pointer -/

section Plain

variable {fuel sson off dst : Nat} {m : NameMem} {l : List UInt8} {ls : List (List UInt8)}

theorem IsLabel.length_ne_zero (h : IsLabel l) : UInt8.ofNat l.length ≠ 0 := by
  intro hzero
  have hlen := h.toNat_length
  rw [hzero] at hlen
  have hpos := h.1
  rw [← hlen] at hpos
  exact absurd hpos (by decide)

theorem IsLabel.length_le (h : IsLabel l) : UInt8.ofNat l.length ≤ 63 := by
  rw [UInt8.le_iff_toNat_le, h.toNat_length]
  exact h.2

/-- The loop takes one label after another. -/
theorem nameLoop_labels (h : ∀ l ∈ ls, IsLabel l) (hbytes : Bytes m.pkt off (wire ls)) :
    ∃ m', nameLoop (fuel + ls.length) sson (off + 1) dst (m.pkt off) m =
        nameLoop fuel sson (off + (wire ls).length + 1) (dst + (wire ls).length)
          (m.pkt (off + (wire ls).length)) m' ∧
      m'.pkt = m.pkt ∧ Bytes m'.dst dst (expansion ls) ∧ ∀ i < dst, m'.dst i = m.dst i := by
  induction ls generalizing off dst m with
  | nil => exact ⟨m, rfl, rfl, fun i hi => absurd hi (Nat.not_lt_zero i), fun _ _ => rfl⟩
  | cons l ls ih =>
      have hlabel := h l List.mem_cons_self
      rw [wire_cons, bytes_cons_iff, bytes_append_iff] at hbytes
      obtain ⟨hlen, hchars, hrest⟩ := hbytes
      have hwire : (wire (l :: ls)).length = 1 + l.length + (wire ls).length := by
        rw [wire_cons]
        simp
        omega
      obtain ⟨m', hrun, hpkt, hdst, hsame⟩ := @ih (off + 1 + l.length) (dst + l.length + 1)
        (m.takeLabel l.length (off + 1) dst) (fun p hp => h p (List.mem_cons_of_mem l hp))
        (by rw [takeLabel_pkt]; exact hrest)
      rw [takeLabel_pkt] at hrun hpkt
      refine ⟨m', ?_, hpkt, ?_, ?_⟩
      · rw [hlen, List.length_cons, ← Nat.add_assoc, nameLoop_label hlabel.length_ne_zero
          hlabel.length_le, hlabel.toNat_length, hrun, hwire]
        simp only [← Nat.add_assoc, Nat.add_right_comm dst 1]
      · rw [expansion_cons, bytes_append_iff, bytes_cons_iff]
        refine ⟨?_, ?_, hdst⟩
        · intro i hi
          rw [hsame _ (by omega), takeLabel_dst hi]
          exact hchars i hi
        · rw [hsame _ (by omega)]
          exact takeLabel_dot
      · intro i hi
        rw [hsame i (by omega), takeLabel_dst_of_lt hi]

/-- Labels that a zero byte ends: their text goes to the destination, and the number of
their bytes is returned. -/
theorem dnsGetrname_labels (h : ∀ l ∈ ls, IsLabel l) (hbytes : Bytes m.pkt off (wire ls ++ [0]))
    (hfuel : ls.length < fuel) :
    ∃ m', dnsGetrname fuel off dst m = (m', some ((wire ls).length + 1)) ∧ m'.pkt = m.pkt ∧
      Bytes m'.dst dst (expansion ls ++ [0]) := by
  rw [bytes_append_iff, bytes_singleton_iff] at hbytes
  obtain ⟨k, rfl⟩ : ∃ k, fuel = k + 1 + ls.length := ⟨fuel - ls.length - 1, by omega⟩
  obtain ⟨m', hrun, hpkt, hdst, -⟩ := @nameLoop_labels (k + 1) off off dst (m.fetch off).2 ls h
    hbytes.1
  refine ⟨m'.store (dst + (wire ls).length) 0, ?_, hpkt, ?_⟩
  · refine hrun.trans ?_
    rw [show (m.fetch off).2.pkt (off + (wire ls).length) = 0 from hbytes.2, nameLoop_end]
    congr 2
    omega
  · rw [bytes_append_iff, bytes_singleton_iff, length_expansion]
    constructor
    · apply hdst.congr
      intro i hlo hhi
      rw [length_expansion] at hhi
      exact update_of_ne (by omega) _ _
    · exact update_self _ _ _

end Plain

/-! ## Every call ends -/

section Termination

variable {n fuel sson son dst : Nat} {m : NameMem} {pkt : Chars}

/-- The bytes of a packet that can begin a pointer. -/
def highs (pkt : Chars) (n : Nat) : Finset Nat :=
  (Finset.range n).filter fun i => 63 < pkt i

theorem masked_le (c : UInt8) : c &&& 0x3f ≤ 63 := by
  rw [UInt8.le_iff_toNat_le, UInt8.toNat_and]
  exact Nat.and_le_right

/-- A pointer that is followed is none any more. -/
theorem highs_patch (hson : son < n) (h : 63 < pkt son) :
    (highs (update pkt son (pkt son &&& 0x3f)) n).card < (highs pkt n).card := by
  apply Finset.card_lt_card
  rw [Finset.ssubset_iff_of_subset]
  · refine ⟨son, by simp [highs, hson, h], ?_⟩
    simp only [highs, Finset.mem_filter, update_self, not_and, UInt8.not_lt]
    exact fun _ => masked_le _
  · intro i hi
    simp only [highs, Finset.mem_filter] at hi ⊢
    refine ⟨hi.1, ?_⟩
    by_cases hi' : i = son
    · subst hi'
      exact h
    · rw [update_of_ne hi'] at hi
      exact hi.2

/-- The turns that a loop can need: it reads on until the packet ends, and each pointer that
it follows is one byte less that can begin a pointer. -/
def turnsLeft (pkt : Chars) (n son : Nat) : Nat :=
  (highs pkt n).card * (n + 1) + (n + 1 - son)

theorem nameLoop_returns (hzero : ∀ i, n ≤ i → m.pkt i = 0) (hson : 1 ≤ son)
    (hfuel : turnsLeft m.pkt n son < fuel) :
    ∃ m' off, nameLoop fuel sson son dst (m.pkt (son - 1)) m = (m', some off) := by
  induction fuel generalizing sson son dst m with
  | zero => exact absurd hfuel (Nat.not_lt_zero _)
  | succ fuel ih =>
      by_cases h0 : m.pkt (son - 1) = 0
      · rw [h0, nameLoop_end]
        exact ⟨_, _, rfl⟩
      · have hinside : son - 1 < n := by
          by_contra hout
          exact h0 (hzero _ (by omega))
        by_cases h63 : m.pkt (son - 1) ≤ 63
        · rw [nameLoop_label h0 h63]
          have hstep := @ih sson (son + (m.pkt (son - 1)).toNat + 1)
            (dst + (m.pkt (son - 1)).toNat + 1) (m.takeLabel (m.pkt (son - 1)).toNat son dst)
          rw [takeLabel_pkt] at hstep
          apply hstep hzero (by omega)
          unfold turnsLeft at hfuel ⊢
          omega
        · rw [nameLoop_pointer h63]
          have hhigh := highs_patch hinside (UInt8.not_le.mp h63)
          have hpkt : (m.follow (son - 1)).pkt =
              update m.pkt (son - 1) (m.pkt (son - 1) &&& 0x3f) := rfl
          have hzero' : ∀ i, n ≤ i → (m.follow (son - 1)).pkt i = 0 := by
            intro i hi
            rw [hpkt, update_of_ne (by omega)]
            exact hzero i hi
          have hless : turnsLeft (m.follow (son - 1)).pkt n (target m.pkt (son - 1) + 1) <
              fuel := by
            unfold turnsLeft at hfuel ⊢
            rw [hpkt]
            have hmul := Nat.mul_le_mul_right (n + 1) (Nat.succ_le_of_lt hhigh)
            rw [Nat.succ_mul] at hmul
            omega
          obtain ⟨m', off, hrun⟩ := @ih (target m.pkt (son - 1)) (target m.pkt (son - 1) + 1) dst
            ((m.follow (son - 1)).fetch (target m.pkt (son - 1))).2 hzero' (by omega) hless
          exact ⟨m', _, by
            rw [show ((m.follow (son - 1)).fetch (target m.pkt (son - 1))).2.pkt
              (target m.pkt (son - 1) + 1 - 1) = (m.follow (son - 1)).pkt (target m.pkt (son - 1))
              from rfl] at hrun
            simp only [hrun]
            rfl⟩

/-- A call returns after finitely many turns, whatever the packet contains and wherever the
name starts, if the memory behind the packet is zero. -/
theorem dnsGetrname_returns (m : NameMem) (n son dst : Nat)
    (hzero : ∀ i, n ≤ i → m.pkt i = 0) :
    ∃ m' off, ∀ fuel, (n + 1) * (n + 1) ≤ fuel → dnsGetrname fuel son dst m = (m', some off) := by
  have hcard : (highs m.pkt n).card ≤ n := by
    have hle := Finset.card_filter_le (Finset.range n) fun i => 63 < m.pkt i
    rwa [Finset.card_range] at hle
  have hturns : turnsLeft m.pkt n (son + 1) < (n + 1) * (n + 1) := by
    have hmul := Nat.mul_le_mul_right (n + 1) hcard
    have hsplit : (n + 1) * (n + 1) = n * (n + 1) + (n + 1) := Nat.succ_mul n (n + 1)
    unfold turnsLeft
    omega
  obtain ⟨m', off, hrun⟩ := @nameLoop_returns n _ son (son + 1) dst (m.fetch son).2 hzero
    (Nat.succ_pos son) hturns
  exact ⟨m', off, fun fuel hfuel => nameLoop_mono hfuel hrun⟩

/-- A pointer to itself, with which a call ends at once. -/
theorem self_pointer : ∃ m' off, ∀ fuel, (14 + 1) * (14 + 1) ≤ fuel →
    dnsGetrname fuel 12 0
      { pkt := update (update (fun _ => 0) 12 0xC0) 13 12, dst := fun _ => 0, touched := [] } =
        (m', some off) := by
  apply dnsGetrname_returns _ 14 12 0
  intro i hi
  exact (update_of_ne (by omega) _ _).trans (update_of_ne (by omega) _ _)

end Termination

end Dns
end Net
end Xinu
