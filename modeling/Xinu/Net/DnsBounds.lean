import Xinu.Net.DnsNames

/-!
# Bounds of the names in a response

Which bytes the calls of `dns_getrname` touch that `dns_geta` makes.

Main results:

- Theorem `touches_iff`: every call stays inside the packet and the destination, and leaves
  the packet as it was, exactly if every name that is expanded consists of labels without a
  pointer, ends inside the packet and is no longer than the destination.
-/

namespace Xinu
namespace Net
namespace Dns

open Foundations Function Lib DottedQuad

/-! ## What a loop changes -/

section Loop

variable {fuel sson son dst : Nat} {llen : UInt8} {m : NameMem}

theorem follow_pkt (m : NameMem) (son : Nat) :
    (m.follow son).pkt = update m.pkt son (m.pkt son &&& 0x3f) := rfl

/-- A preorder that every turn keeps relates the memory before a loop to that after it. -/
theorem nameLoop_keeps {R : NameMem → NameMem → Prop} (hrefl : ∀ m, R m m)
    (htrans : ∀ m m₁ m₂, R m m₁ → R m₁ m₂ → R m m₂) (hend : ∀ m dst, R m (m.store dst 0))
    (hlabel : ∀ m n son dst, R m (m.takeLabel n son dst))
    (hpointer : ∀ m son off, R m ((m.follow son).fetch off).2) :
    R m (nameLoop fuel sson son dst llen m).1 := by
  induction fuel generalizing sson son dst llen m with
  | zero => exact hrefl m
  | succ fuel ih =>
      by_cases h0 : llen = 0
      · subst h0
        rw [nameLoop_end]
        exact hend m dst
      · by_cases h63 : llen ≤ 63
        · rw [nameLoop_label h0 h63]
          exact htrans _ _ _ (hlabel m _ _ _) ih
        · rw [nameLoop_pointer h63]
          exact htrans _ _ _ (hpointer m _ _) ih

/-- What has been touched stays touched. -/
theorem mem_touched {a : Access} (h : a ∈ m.touched) :
    a ∈ (nameLoop fuel sson son dst llen m).1.touched := by
  refine nameLoop_keeps (R := fun m m' => m.touched ⊆ m'.touched) ?_ ?_ ?_ ?_ ?_ h
  · exact fun m => List.Subset.refl _
  · exact fun m m₁ m₂ h h' => List.Subset.trans h h'
  · exact fun m dst => List.subset_append_left _ _
  · intro m n son dst
    rw [takeLabel_touched, List.append_assoc]
    exact List.subset_append_left _ _
  · intro m son off
    simp only [NameMem.follow, NameMem.fetch, NameMem.patch, List.append_assoc]
    exact List.subset_append_left _ _

/-- A byte of the packet becomes smaller if it changes. -/
theorem pkt_le (i : Nat) : (nameLoop fuel sson son dst llen m).1.pkt i ≤ m.pkt i := by
  refine nameLoop_keeps (R := fun m m' => m'.pkt i ≤ m.pkt i) ?_ ?_ ?_ ?_ ?_
  · exact fun m => UInt8.le_refl _
  · exact fun m m₁ m₂ h h' => UInt8.le_trans h' h
  · exact fun m dst => UInt8.le_refl _
  · intro m n son dst
    rw [takeLabel_pkt]
    exact UInt8.le_refl _
  · intro m son off
    show (m.follow son).pkt i ≤ m.pkt i
    rw [follow_pkt]
    by_cases hi : i = son
    · rw [hi, update_self, UInt8.le_iff_toNat_le, UInt8.toNat_and]
      exact Nat.and_le_left
    · rw [update_of_ne hi]
      exact UInt8.le_refl _

end Loop

/-! ## Plain names -/

/-- The size of `rname`. -/
def rnameSize : Nat := 256

/-- Every byte that was touched lies in the packet of `n` bytes or in the destination. -/
structure Touches (n : Nat) (m : NameMem) : Prop where
  reads : ∀ off, .read off ∈ m.touched → off < n
  writes : ∀ off, .write off ∈ m.touched → off < rnameSize

/-- The labels `ls` begin at `off`, and a zero byte inside the packet ends them.  Their text
fits the destination. -/
structure PlainName (pkt : Chars) (n off : Nat) (ls : List (List UInt8)) : Prop where
  labels : ∀ l ∈ ls, IsLabel l
  bytes : Bytes pkt off (wire ls ++ [0])
  inside : off + (wire ls).length + 1 ≤ n
  short : (wire ls).length + 1 ≤ rnameSize

section Plain

variable {fuel sson off dst n : Nat} {m : NameMem} {ls : List (List UInt8)}

theorem Touches.takeLabel {k : Nat} (h : Touches n m) (hread : off + k < n)
    (hwrite : dst + k < rnameSize) : Touches n (m.takeLabel k off dst) := by
  constructor
  · intro i hi
    rw [takeLabel_touched] at hi
    simp only [List.mem_append, List.mem_flatMap, List.mem_range, List.mem_cons,
      Access.read.injEq, reduceCtorEq, List.not_mem_nil, or_false, false_or] at hi
    rcases hi with (hold | ⟨j, hj, hi⟩) | hi
    · exact h.reads i hold
    · omega
    · omega
  · intro i hi
    rw [takeLabel_touched] at hi
    simp only [List.mem_append, List.mem_flatMap, List.mem_range, List.mem_cons,
      Access.write.injEq, reduceCtorEq, List.not_mem_nil, or_false, false_or] at hi
    rcases hi with (hold | ⟨j, hj, hi⟩) | hi
    · exact h.writes i hold
    · omega
    · omega

/-- A loop over a plain name stays in its bounds, however many turns it makes. -/
theorem nameLoop_plain (h : ∀ l ∈ ls, IsLabel l) (hbytes : Bytes m.pkt off (wire ls ++ [0]))
    (hinside : off + (wire ls).length + 1 ≤ n) (hshort : dst + (wire ls).length + 1 ≤ rnameSize)
    (htouches : Touches n m) :
    Touches n (nameLoop fuel sson (off + 1) dst (m.pkt off) m).1 ∧
      (nameLoop fuel sson (off + 1) dst (m.pkt off) m).1.pkt = m.pkt := by
  induction ls generalizing fuel off dst m with
  | nil =>
      cases fuel with
      | zero => exact ⟨htouches, rfl⟩
      | succ fuel =>
          have hzero : m.pkt off = 0 := bytes_singleton_iff.mp hbytes
          rw [hzero, nameLoop_end]
          refine ⟨⟨fun i hi => htouches.reads i ?_, fun i hi => ?_⟩, rfl⟩
          · simpa [NameMem.store] using hi
          · simp only [NameMem.store, List.mem_append, List.mem_singleton,
              Access.write.injEq] at hi
            rcases hi with hold | rfl
            · exact htouches.writes i hold
            · simp only [wire, List.flatMap_nil, List.length_nil] at hshort
              omega
  | cons l ls ih =>
      cases fuel with
      | zero => exact ⟨htouches, rfl⟩
      | succ fuel =>
          have hlabel := h l List.mem_cons_self
          rw [wire_cons, List.cons_append, bytes_cons_iff, List.append_assoc,
            bytes_append_iff] at hbytes
          obtain ⟨hlen, -, hrest⟩ := hbytes
          rw [wire_cons, List.length_cons, List.length_append] at hinside hshort
          rw [hlen, nameLoop_label hlabel.length_ne_zero hlabel.length_le, hlabel.toNat_length]
          have hstep := @ih fuel (off + 1 + l.length) (dst + l.length + 1)
            (m.takeLabel l.length (off + 1) dst) (fun p hp => h p (List.mem_cons_of_mem l hp))
            (by rw [takeLabel_pkt]; exact hrest) (by omega) (by omega)
            (htouches.takeLabel (by omega) (by omega))
          rw [takeLabel_pkt] at hstep
          exact hstep

/-- A loop that stays in its bounds and leaves the packet as it was has a plain name. -/
theorem plain_of_nameLoop (hfuel : n - off < fuel) (hread : .read off ∈ m.touched)
    (htouches : Touches n (nameLoop fuel sson (off + 1) dst (m.pkt off) m).1)
    (hsame : ∀ i < n, (nameLoop fuel sson (off + 1) dst (m.pkt off) m).1.pkt i = m.pkt i) :
    ∃ ls, (∀ l ∈ ls, IsLabel l) ∧ Bytes m.pkt off (wire ls ++ [0]) ∧
      off + (wire ls).length + 1 ≤ n ∧ dst + (wire ls).length + 1 ≤ rnameSize := by
  induction fuel generalizing off dst m with
  | zero => exact absurd hfuel (Nat.not_lt_zero _)
  | succ fuel ih =>
      have hoff : off < n := htouches.reads off (mem_touched hread)
      by_cases h0 : m.pkt off = 0
      · rw [h0, nameLoop_end] at htouches
        have hdst : dst < rnameSize :=
          htouches.writes dst (List.mem_append_right _ List.mem_cons_self)
        refine ⟨[], by simp, bytes_singleton_iff.mpr h0, ?_, ?_⟩
        · simpa [wire] using hoff
        · simpa [wire] using hdst
      · by_cases h63 : m.pkt off ≤ 63
        · obtain ⟨k, hk⟩ : ∃ k, (m.pkt off).toNat = k := ⟨_, rfl⟩
          rw [nameLoop_label h0 h63, hk] at htouches hsame
          have hstep := @ih (off + 1 + k) (dst + k + 1) (m.takeLabel k (off + 1) dst) (by omega)
            (by rw [takeLabel_touched]; simp)
          rw [takeLabel_pkt] at hstep
          obtain ⟨ls, hlabels, hbytes, hinside, hshort⟩ := hstep htouches hsame
          have hlen : ((List.range k).map fun i => m.pkt (off + 1 + i)).length = k := by simp
          have hlabel : IsLabel ((List.range k).map fun i => m.pkt (off + 1 + i)) := by
            unfold IsLabel
            rw [hlen, ← hk]
            constructor
            · apply Nat.pos_of_ne_zero
              exact fun hzero => h0 (UInt8.toNat.inj hzero)
            · exact UInt8.le_iff_toNat_le.mp h63
          refine ⟨((List.range k).map fun i => m.pkt (off + 1 + i)) :: ls, ?_, ?_, ?_, ?_⟩
          · intro l hl
            rcases List.mem_cons.mp hl with rfl | hl
            · exact hlabel
            · exact hlabels l hl
          · rw [wire_cons, List.cons_append, bytes_cons_iff, List.append_assoc,
              bytes_append_iff, hlen]
            refine ⟨?_, ?_, hbytes⟩
            · rw [← hk, UInt8.ofNat_toNat]
            · intro i hi
              simp
          · rw [wire_cons, List.length_cons, List.length_append, hlen]
            omega
          · rw [wire_cons, List.length_cons, List.length_append, hlen]
            omega
        · -- the byte that a pointer begins with is changed, and is not restored
          rw [nameLoop_pointer h63] at hsame
          have hkept := hsame off hoff
          simp only [Nat.add_sub_cancel] at hkept
          have hmasked : ((m.follow off).fetch (target m.pkt off)).2.pkt off =
              m.pkt off &&& 0x3f := by
            show (m.follow off).pkt off = m.pkt off &&& 0x3f
            rw [follow_pkt, update_self]
          have hle : m.pkt off ≤ m.pkt off &&& 0x3f :=
            calc m.pkt off = _ := hkept.symm
              _ ≤ _ := pkt_le off
              _ = _ := hmasked
          exact absurd (UInt8.le_trans hle (masked_le _)) h63

end Plain

/-! ## The calls that `dns_geta` makes -/

/-- The name of a question lies between the two offsets. -/
inductive QuestionName (pkt : Chars) : Nat → Nat → Prop
  | root {off : Nat} : pkt off = 0 → QuestionName pkt off (off + 1)
  | pointer {off : Nat} : 63 < pkt off → QuestionName pkt off (off + 2)
  | label {off off' : Nat} : pkt off ≠ 0 → pkt off ≤ 63 →
      QuestionName pkt (off + (1 + (pkt off).toNat)) off' → QuestionName pkt off off'

/-- So many questions lie between the two offsets. -/
inductive Questions (pkt : Chars) : Nat → Nat → Nat → Prop
  | none {off : Nat} : Questions pkt 0 off off
  | next {k off name off' : Nat} : QuestionName pkt off name →
      Questions pkt k (name + (2 + 2)) off' → Questions pkt (k + 1) off off'

/-- The names of the answers from `off` on are plain, up to the address record that has
`dname` at the start of its name. -/
def PlainAnswers (pkt : Chars) (n : Nat) (dname : List UInt8) : Nat → Nat → Prop
  | 0, _ => True
  | k + 1, off =>
      ∃ ls, PlainName pkt n off ls ∧
        let dptr := off + (wire ls).length + 1
        (dname <+: expansion ls ∧ ntohs pkt dptr = dnsQtA ∨
          PlainAnswers pkt n dname k (dptr + 8 + (2 + ntohs pkt (dptr + 8))))

/-- A call stays inside the packet of `n` bytes and the destination, and leaves the packet as
it was. -/
structure NameCall.Inside (n : Nat) (call : NameCall) : Prop where
  touches : Touches n call.after
  same : ∀ i < n, call.after.pkt i = call.before i

section Calls

variable {fuel n k off : Nat} {pkt : Chars} {dname t : List UInt8} {m m' : NameMem}
  {ls : List (List UInt8)}

/-- `strncmp` compares no more characters than the queried name has. -/
theorem strncmp_eq_zero_iff {s1 : Chars} (hs1 : Bytes s1 0 (t ++ [0])) (h : 0 ∉ dname) :
    strncmp dname.length s1 (chars dname) = 0 ↔ dname <+: t := by
  induction dname generalizing s1 t with
  | nil => simp [strncmp]
  | cons c dname ih =>
      have hc : c ≠ 0 := fun hzero => h (by simp [hzero])
      have hrest : (fun i => chars (c :: dname) (i + 1)) = chars dname := rfl
      rw [List.length_cons, strncmp, hrest, show chars (c :: dname) 0 = c from rfl]
      cases t with
      | nil =>
          have hzero : s1 0 = 0 := bytes_singleton_iff.mp hs1
          rw [hzero, if_neg (Ne.symm hc)]
          have hne : c.toNat ≠ 0 := fun hnat => hc (UInt8.toNat.inj hnat)
          simp [hne]
      | cons d t =>
          rw [List.cons_append, bytes_cons_iff] at hs1
          have hnext : Bytes (fun i => s1 (i + 1)) 0 (t ++ [0]) := by
            intro i hi
            rw [← hs1.2 i hi]
            simp [Nat.add_comm]
          rw [hs1.1, List.cons_prefix_cons]
          by_cases hd : d = c
          · rw [if_pos hd, if_neg (hd ▸ hc), ih hnext fun hmem => h (List.mem_cons_of_mem c hmem)]
            simp [hd]
          · rw [if_neg hd]
            have hne : (d.toNat : Int) - c.toNat ≠ 0 := by
              intro hsub
              exact hd (UInt8.toNat.inj (by omega))
            simp [hne, Ne.symm hd]

/-- What a call leaves whose name is plain. -/
theorem PlainName.call (h : PlainName m.pkt n off ls) :
    Touches n (dnsGetrname fuel off 0 { m with touched := [] }).1 ∧
      (dnsGetrname fuel off 0 { m with touched := [] }).1.pkt = m.pkt := by
  have hoff : off < n := by have := h.inside; omega
  have hfirst : Touches n (({ m with touched := [] } : NameMem).fetch off).2 := by
    constructor
    · intro i hi
      have hi' : i = off := by simpa [NameMem.fetch] using hi
      omega
    · intro i hi
      simp [NameMem.fetch] at hi
  have hshort : 0 + (wire ls).length + 1 ≤ rnameSize := by
    rw [Nat.zero_add]
    exact h.short
  exact @nameLoop_plain fuel off off 0 n (({ m with touched := [] } : NameMem).fetch off).2 ls
    h.labels h.bytes h.inside hshort hfirst

theorem PlainName.result {dlen : Nat} (h : PlainName m.pkt n off ls)
    (hrun : dnsGetrname fuel off 0 m = (m', some dlen)) :
    dlen = (wire ls).length + 1 ∧ Bytes m'.dst 0 (expansion ls ++ [0]) := by
  obtain ⟨m'', hlong, -, hdst⟩ := @dnsGetrname_labels (fuel + ls.length + 1) off 0 m ls h.labels
    h.bytes (by omega)
  have hmono : dnsGetrname (fuel + ls.length + 1) off 0 m = (m', some dlen) :=
    nameLoop_mono (by omega) hrun
  rw [hlong, Prod.mk.injEq, Option.some.injEq] at hmono
  obtain ⟨rfl, rfl⟩ := hmono
  exact ⟨rfl, hdst⟩

theorem skipName_some {off' : Nat} (h : skipName pkt fuel off = some off') :
    QuestionName pkt off off' := by
  induction fuel generalizing off with
  | zero => exact absurd h (by simp [skipName])
  | succ fuel ih =>
      rw [skipName] at h
      by_cases h0 : pkt off = 0
      · rw [if_pos h0, Option.some.injEq] at h
        exact h ▸ .root h0
      · rw [if_neg h0] at h
        by_cases h63 : 63 < pkt off
        · rw [if_pos h63, Option.some.injEq] at h
          exact h ▸ .pointer h63
        · rw [if_neg h63] at h
          exact .label h0 (UInt8.not_lt.mp h63) (ih h)

theorem QuestionName.skip {off' : Nat} (h : QuestionName pkt off off') :
    ∃ F, ∀ fuel, F ≤ fuel → skipName pkt fuel off = some off' := by
  induction h with
  | root h0 =>
      refine ⟨1, fun fuel hfuel => ?_⟩
      obtain ⟨fuel, rfl⟩ : ∃ f, fuel = f + 1 := ⟨fuel - 1, by omega⟩
      rw [skipName, if_pos h0]
  | @pointer off h63 =>
      refine ⟨1, fun fuel hfuel => ?_⟩
      obtain ⟨fuel, rfl⟩ : ∃ f, fuel = f + 1 := ⟨fuel - 1, by omega⟩
      have h0 : pkt off ≠ 0 := fun h0 => absurd (h0 ▸ h63) (by decide)
      rw [skipName, if_neg h0, if_pos h63]
  | label h0 h63 _ ih =>
      obtain ⟨F, hF⟩ := ih
      refine ⟨F + 1, fun fuel hfuel => ?_⟩
      obtain ⟨fuel, rfl⟩ : ∃ f, fuel = f + 1 := ⟨fuel - 1, by omega⟩
      rw [skipName, if_neg h0, if_neg (UInt8.not_lt.mpr h63)]
      exact hF fuel (by omega)

theorem skipQuestions_some {off' : Nat} (h : skipQuestions pkt fuel k off = some off') :
    Questions pkt k off off' := by
  induction k generalizing off with
  | zero =>
      rw [skipQuestions, Option.some.injEq] at h
      exact h ▸ .none
  | succ k ih =>
      rw [skipQuestions] at h
      cases hname : skipName pkt fuel off with
      | none => simp [hname] at h
      | some name =>
          simp only [hname] at h
          exact .next (skipName_some hname) (ih h)

theorem Questions.skip {off' : Nat} (h : Questions pkt k off off') :
    ∃ F, ∀ fuel, F ≤ fuel → skipQuestions pkt fuel k off = some off' := by
  induction h with
  | none => exact ⟨0, fun _ _ => rfl⟩
  | next hname _ ih =>
      obtain ⟨F, hF⟩ := ih
      obtain ⟨G, hG⟩ := hname.skip
      refine ⟨max F G, fun fuel hfuel => ?_⟩
      rw [skipQuestions, hG fuel (by omega)]
      exact hF fuel (by omega)

/-- The turn for one answer begins with a call. -/
theorem getaLoop_head (fuel k off : Nat) (dname : List UInt8) (m : NameMem) :
    ∃ rest, (getaLoop fuel dname (k + 1) off m).1 =
      { before := m.pkt, after := (dnsGetrname fuel off 0 { m with touched := [] }).1 } ::
        rest := by
  obtain ⟨m', r, hrun⟩ : ∃ m' r, dnsGetrname fuel off 0 { m with touched := [] } = (m', r) :=
    ⟨_, _, rfl⟩
  rw [getaLoop, hrun]
  cases r with
  | none => exact ⟨[], rfl⟩
  | some dlen =>
      dsimp only
      split
      · exact ⟨[], rfl⟩
      · exact ⟨_, rfl⟩

theorem getaLoop_none (hrun : dnsGetrname fuel off 0 { m with touched := [] } = (m', none)) :
    getaLoop fuel dname (k + 1) off m = ([{ before := m.pkt, after := m' }], none) := by
  rw [getaLoop, hrun]

/-- The turn for an answer whose name has the text `t`. -/
theorem getaLoop_some {dlen : Nat} (hdname : 0 ∉ dname)
    (hrun : dnsGetrname fuel off 0 { m with touched := [] } = (m', some dlen))
    (hdst : Bytes m'.dst 0 (t ++ [0])) :
    getaLoop fuel dname (k + 1) off m =
      if dname <+: t ∧ ntohs m'.pkt (off + dlen) = dnsQtA then
        ([{ before := m.pkt, after := m' }], some (word32 m'.pkt (off + dlen + 10)))
      else
        let rest := getaLoop fuel dname k
          (off + dlen + 8 + (2 + ntohs m'.pkt (off + dlen + 8))) m'
        ({ before := m.pkt, after := m' } :: rest.1, rest.2) := by
  rw [getaLoop, hrun]
  exact if_congr (and_congr (strncmp_eq_zero_iff hdst hdname) Iff.rfl) rfl rfl

/-- Plain names are expanded inside the bounds. -/
theorem getaLoop_inside (hdname : 0 ∉ dname) (h : PlainAnswers m.pkt n dname k off) :
    ∀ call ∈ (getaLoop fuel dname k off m).1, call.Inside n := by
  induction k generalizing off m with
  | zero => exact fun call hcall => absurd hcall List.not_mem_nil
  | succ k ih =>
      obtain ⟨ls, hplain, hrest⟩ := h
      obtain ⟨m', r, hrun⟩ : ∃ m' r, dnsGetrname fuel off 0 { m with touched := [] } = (m', r) :=
        ⟨_, _, rfl⟩
      have hcall := @PlainName.call fuel n off m ls hplain
      rw [hrun] at hcall
      have hinside : NameCall.Inside n { before := m.pkt, after := m' } :=
        ⟨hcall.1, fun i _ => congrFun hcall.2 i⟩
      cases r with
      | none =>
          rw [getaLoop_none hrun]
          intro call hmem
          rw [List.mem_singleton.mp hmem]
          exact hinside
      | some dlen =>
          obtain ⟨hdlen, hdst⟩ := @PlainName.result fuel n off { m with touched := [] } m' ls dlen
            hplain hrun
          have hpkt : m'.pkt = m.pkt := hcall.2
          rw [getaLoop_some hdname hrun hdst, hpkt, hdlen, ← Nat.add_assoc]
          split
          · intro call hmem
            rw [List.mem_singleton.mp hmem]
            exact hinside
          · rename_i hother
            intro call hmem
            rcases List.mem_cons.mp hmem with rfl | hmem
            · exact hinside
            · refine ih ?_ call hmem
              rw [hpkt]
              exact hrest.resolve_left hother

/-- Answers whose names are expanded inside the bounds have plain names. -/
theorem plain_of_getaLoop (hdname : 0 ∉ dname) {F : Nat}
    (h : ∀ fuel, F ≤ fuel → ∀ call ∈ (getaLoop fuel dname k off m).1, call.Inside n) :
    PlainAnswers m.pkt n dname k off := by
  induction k generalizing off m F with
  | zero => trivial
  | succ k ih =>
      -- the first call, with turns for every byte of the packet
      have hname : ∃ ls, PlainName m.pkt n off ls := by
        obtain ⟨rest, hcalls⟩ := getaLoop_head (max F (n - off + 1)) k off dname m
        have hinside := h (max F (n - off + 1)) (by omega)
        rw [hcalls] at hinside
        obtain ⟨htouches, hsame⟩ := hinside _ List.mem_cons_self
        obtain ⟨ls, hlabels, hbytes, hend, hshort⟩ := @plain_of_nameLoop
          (max F (n - off + 1)) off off 0 n (({ m with touched := [] } : NameMem).fetch off).2
          (by omega) List.mem_cons_self htouches hsame
        exact ⟨ls, hlabels, hbytes, hend, by rwa [Nat.zero_add] at hshort⟩
      obtain ⟨ls, hplain⟩ := hname
      refine ⟨ls, hplain, ?_⟩
      by_cases hfound : dname <+: expansion ls ∧
          ntohs m.pkt (off + (wire ls).length + 1) = dnsQtA
      · exact Or.inl hfound
      · right
        obtain ⟨m', hrun, hpkt, hdst⟩ := @dnsGetrname_labels (ls.length + 1) off 0
          { m with touched := [] } ls hplain.labels hplain.bytes (Nat.lt_succ_self _)
        rw [← hpkt]
        apply @ih _ m' (max F (ls.length + 1))
        intro fuel hfuel call hcall
        have hmono : dnsGetrname fuel off 0 { m with touched := [] } = (m', _) :=
          nameLoop_mono (show ls.length + 1 ≤ fuel by omega) hrun
        have hpkt' : m'.pkt = m.pkt := hpkt
        apply h fuel (by omega)
        rw [getaLoop_some hdname hmono hdst, hpkt', ← Nat.add_assoc, if_neg hfound]
        rw [hpkt'] at hcall
        exact List.mem_cons_of_mem _ hcall

/--
Every call of `dns_getrname` stays inside the packet and the destination, and leaves the packet
as it was, exactly if the names that are expanded consist of labels without a pointer, end inside
the packet and fit the destination.
-/
theorem touches_iff (hdname : 0 ∉ dname) (n : Nat) (rpkt rname : Chars) :
    (∀ fuel, ∀ call ∈ (dnsGeta fuel dname rpkt rname).1, call.Inside n) ↔
      ∀ off, Questions rpkt (ntohs rpkt qdcountOffset) dataOffset off →
        PlainAnswers rpkt n dname (ntohs rpkt ancountOffset) off := by
  constructor
  · intro h off hquestions
    obtain ⟨F, hF⟩ := hquestions.skip
    refine @plain_of_getaLoop n _ off dname { pkt := rpkt, dst := rname, touched := [] } hdname F ?_
    intro fuel hfuel call hcall
    apply h fuel
    unfold dnsGeta
    rw [hF fuel hfuel]
    exact hcall
  · intro h fuel
    unfold dnsGeta
    cases hskip : skipQuestions rpkt fuel (ntohs rpkt qdcountOffset) dataOffset with
    | none => exact fun call hcall => absurd hcall List.not_mem_nil
    | some off => exact getaLoop_inside hdname (h off (skipQuestions_some hskip))

end Calls

/-- A response with one address record, for the name `"a"`. -/
def oneAnswer : Chars :=
  chars [0, 0, 0x80, 0, 0, 0, 0, 1, 0, 0, 0, 0, 1, 97, 0, 0, 1, 0, 1, 0, 0, 0, 0, 0, 4, 10, 0, 0, 1]

theorem oneAnswer_inside : (0 : UInt8) ∉ [97] ∧
    ∀ fuel, ∀ call ∈ (dnsGeta fuel [97] oneAnswer fun _ => 0).1, call.Inside 29 := by
  refine ⟨by decide, (touches_iff (show 0 ∉ [97] by decide) 29 oneAnswer fun _ => 0).mpr ?_⟩
  rw [show ntohs oneAnswer qdcountOffset = 0 by decide,
    show ntohs oneAnswer ancountOffset = 1 by decide]
  intro off hquestions
  cases hquestions with
  | none =>
      have hname : PlainName oneAnswer 29 dataOffset [[97]] :=
        ⟨by decide, by decide, by decide, by decide⟩
      exact ⟨[[97]], hname, Or.inl ⟨by decide, by decide⟩⟩

/-- A response with one answer, whose name consists of five labels of 63 bytes. -/
def longName : Chars :=
  fun i =>
    if i < 12 then if i = 7 then 1 else 0
    else if i < 332 then if (i - 12) % 64 = 0 then 63 else 97
    else 0

/-- The bounds are not kept: the first 256 bytes of the name have no end. -/
theorem longName_overflows :
    ∃ fuel, ∃ call ∈ (dnsGeta fuel [97] longName fun _ => 0).1, ¬ call.Inside 512 := by
  have hcall : ∀ fuel, 512 < fuel → ¬ NameCall.Inside 512 ⟨longName,
      (dnsGetrname fuel 12 0 { pkt := longName, dst := fun _ => 0, touched := [] }).1⟩ := by
    intro fuel hfuel h
    obtain ⟨ls, -, hbytes, -, hshort⟩ := @plain_of_nameLoop fuel 12 12 0 512
      (({ pkt := longName, dst := fun _ => 0, touched := [] } : NameMem).fetch 12).2 (by omega)
      List.mem_cons_self h.touches h.same
    have hend : longName (12 + (wire ls).length) = 0 :=
      (bytes_append_iff.mp hbytes).2 0 (by simp)
    have hnonzero : ∀ i < 256, longName (12 + i) ≠ 0 := by decide +kernel
    unfold rnameSize at hshort
    exact hnonzero _ (by omega) hend
  obtain ⟨fuel, hfuel⟩ : ∃ fuel, 512 < fuel := ⟨513, Nat.lt_succ_self 512⟩
  obtain ⟨rest, hcalls⟩ := getaLoop_head fuel 0 12 [97]
    { pkt := longName, dst := fun _ => 0, touched := [] }
  have hgeta : (dnsGeta fuel [97] longName fun _ => 0).1 =
      (getaLoop fuel [97] 1 12 { pkt := longName, dst := fun _ => 0, touched := [] }).1 := by
    unfold dnsGeta
    rw [show ntohs longName qdcountOffset = 0 by decide,
      show ntohs longName ancountOffset = 1 by decide]
    rfl
  refine ⟨fuel, _, ?_, hcall fuel hfuel⟩
  rw [hgeta, hcalls]
  exact List.mem_cons_self

end Dns
end Net
end Xinu
