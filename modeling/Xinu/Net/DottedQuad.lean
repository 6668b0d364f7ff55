import Xinu.Lib.FormattedPrint

/-!
# Dotted decimal addresses

Embedding of `net/dot2ip.c` and `net/ip2dot.c`.  The groups of a string are what lies between its dots;
`List.splitOn` finds them.

Main results:

- Theorem `dot2ip_eq`: `dot2ip` accepts one to four groups of one to three digits, each
  at most 255.
- Theorem `dot2ip_quads_iff`: it accepts dotted quads and nothing else, except where
  the string has one, two or three such groups.
- Theorem `dot2ip_ip2dot`: every address is read back from the string that `ip2dot`
  writes for it.
-/

namespace Xinu
namespace Net
namespace DottedQuad

open Foundations Lib

/-! ## Constants -/

/-- The character `'.'` -/
def dot : UInt8 := code '.'

/-- `OK` and `(uint32)SYSERR` -/
def uOk : UInt32 := 1
def uSyserr : UInt32 := 0xFFFFFFFF

/-! ## The parser -/

/-- Up to four chars per segment: `n` turns of the loop are left and `nch` are made.  It
leaves `ch`, `val` and the pointer; `none` if the function returns `SYSERR`. -/
def dotSegment : Nat → Nat → UInt8 → Nat → Chars → Option (UInt8 × Nat × Chars)
  | 0, _, ch, val, dotted => some (ch, val, dotted)
  | n + 1, nch, _, val, dotted =>
      let ch := dotted 0
      let next : Chars := fun i => dotted (i + 1)
      if ch = 0 ∨ ch = dot then
        if nch = 0 then none else some (ch, val, next)
      else if 3 ≤ nch ∨ ch < code '0' ∨ code '9' < ch then none
      else dotSegment n (nch + 1) ch (10 * val + (ch - code '0').toNat) next

/-- For each segment: `n` turns are left.  The loop leaves `seg`, `ch` and `ipaddr`. -/
def dotSegments : Nat → Nat → UInt8 → UInt32 → Chars → Option (Nat × UInt8 × UInt32)
  | 0, seg, ch, ipaddr, _ => some (seg, ch, ipaddr)
  | n + 1, seg, ch, ipaddr, dotted =>
      match dotSegment 4 0 ch 0 dotted with
      | none => none
      | some (ch, val, dotted) =>
          -- Out of valid range
          if 255 < val then none
          else
            let ipaddr := (ipaddr <<< 8) ||| UInt32.ofNat val
            if ch = 0 then some (seg, ch, ipaddr)
            else dotSegments n (seg + 1) ch ipaddr dotted

/-- Convert a string of dotted decimal to an unsigned integer; `result` is the location
to which it is stored.  `garbage` is what the uninitialized `ch` holds. -/
def dot2ip (garbage : UInt8) (dotted : Chars) (result : UInt32) : UInt32 × UInt32 :=
  match dotSegments 4 0 garbage 0 dotted with
  | none => (uSyserr, result)
  | some (seg, ch, ipaddr) =>
      if 4 ≤ seg ∨ ch ≠ 0 then (uSyserr, result)
      else (uOk, ipaddr)

/-! ## Groups of digits -/

/-- The number that decimal digits stand for, behind the number `val`. -/
def numberFrom (val : Nat) (g : List UInt8) : Nat :=
  g.foldl (fun val ch => 10 * val + (ch - code '0').toNat) val

def numberOf (g : List UInt8) : Nat :=
  numberFrom 0 g

/-- One to three decimal digits, of a number that is at most 255. -/
structure Group (g : List UInt8) : Prop where
  pos : 1 ≤ g.length
  short : g.length ≤ 3
  digits : ∀ ch ∈ g, IsDigit ch
  value : numberOf g ≤ 255

theorem group_iff (g : List UInt8) :
    Group g ↔ (1 ≤ g.length ∧ g.length ≤ 3 ∧ ∀ ch ∈ g, IsDigit ch) ∧ numberOf g ≤ 255 := by
  constructor
  · intro h
    exact ⟨⟨h.pos, h.short, h.digits⟩, h.value⟩
  · intro h
    exact ⟨h.1.1, h.1.2.1, h.1.2.2, h.2⟩

instance decidableDigits (g : List UInt8) : Decidable (∀ ch ∈ g, IsDigit ch) :=
  List.decidableBAll IsDigit g

instance (g : List UInt8) : Decidable (Group g) :=
  decidable_of_iff _ (group_iff g).symm

/-- What `ipaddr` becomes with the numbers of the groups. -/
def addressFrom (ipaddr : UInt32) (gs : List (List UInt8)) : UInt32 :=
  gs.foldl (fun ipaddr g => (ipaddr <<< 8) ||| UInt32.ofNat (numberOf g)) ipaddr

/-- The address whose bytes, from the highest on, are the numbers of the groups. -/
def address (gs : List (List UInt8)) : UInt32 :=
  UInt32.ofNat (gs.foldl (fun n g => 256 * n + numberOf g) 0)

/-- `s` consists of `n` groups, with a dot between any two. -/
def Groups (n : Nat) (s : List UInt8) : Prop :=
  (s.splitOn dot).length = n ∧ ∀ g ∈ s.splitOn dot, Group g

instance (n : Nat) (s : List UInt8) : Decidable (Groups n s) :=
  inferInstanceAs (Decidable (_ ∧ _))

/-! ## One segment -/

section Segment

variable {dotted : Chars} {g : List UInt8} {n nch val : Nat} {ch : UInt8}

/-- The characters of `g`, followed by a character that ends a segment. -/
structure Holds (dotted : Chars) (g : List UInt8) : Prop where
  chars : ∀ i (h : i < g.length), dotted i = g[i]
  stop : dotted g.length = 0 ∨ dotted g.length = dot
  nonzero : 0 ∉ g
  undotted : dot ∉ g

theorem Holds.tail {c : UInt8} (h : Holds dotted (c :: g)) :
    Holds (fun i => dotted (i + 1)) g := by
  constructor
  · intro i hi
    exact h.chars (i + 1) (Nat.succ_lt_succ hi)
  · exact h.stop
  · exact fun hmem => h.nonzero (List.mem_cons_of_mem c hmem)
  · exact fun hmem => h.undotted (List.mem_cons_of_mem c hmem)

theorem not_isDigit_iff (ch : UInt8) : ch < code '0' ∨ code '9' < ch ↔ ¬ IsDigit ch := by
  rw [IsDigit, not_and_or, UInt8.not_le, UInt8.not_le]

/-- The digits of one segment are taken up to the character that ends it; at most three of
the four turns are made before that. -/
theorem dotSegment_eq (h : Holds dotted g) (hn : n + nch = 3) :
    dotSegment (n + 1) nch ch val dotted =
      if (1 ≤ nch + g.length ∧ nch + g.length ≤ 3) ∧ ∀ c ∈ g, IsDigit c then
        some (dotted g.length, numberFrom val g, fun i => dotted (g.length + 1 + i))
      else none := by
  induction g generalizing dotted n nch ch val with
  | nil =>
      have hstop : dotted 0 = 0 ∨ dotted 0 = dot := h.stop
      rw [dotSegment, if_pos hstop, List.length_nil, Nat.add_zero]
      by_cases hzero : nch = 0
      · rw [if_pos hzero, if_neg (by omega)]
      · rw [if_neg hzero, if_pos ⟨by omega, fun c hc => absurd hc List.not_mem_nil⟩]
        simp [numberFrom, Nat.add_comm]
  | cons c g ih =>
      have hc : dotted 0 = c := h.chars 0 (Nat.succ_pos _)
      have hnotend : ¬ (dotted 0 = 0 ∨ dotted 0 = dot) := by
        rw [hc]
        rintro (rfl | rfl)
        · exact h.nonzero List.mem_cons_self
        · exact h.undotted List.mem_cons_self
      have hlen : nch + (c :: g).length = nch + 1 + g.length := by
        rw [List.length_cons]
        omega
      rw [dotSegment, if_neg hnotend, hc, hlen]
      by_cases hbad : 3 ≤ nch ∨ c < code '0' ∨ code '9' < c
      · rw [if_pos hbad, if_neg]
        rintro ⟨hle, hall⟩
        rcases hbad with hthree | hdigit
        · omega
        · exact (not_isDigit_iff c).mp hdigit (hall c List.mem_cons_self)
      · obtain ⟨n, rfl⟩ : ∃ m, n = m + 1 := ⟨n - 1, by omega⟩
        rw [if_neg hbad, ih h.tail (by omega)]
        rw [not_isDigit_iff, not_or, not_not] at hbad
        simp [hbad.2, numberFrom, Nat.add_comm, Nat.add_left_comm]

end Segment

/-! ## All segments -/

section Segments

variable {dotted : Chars} {s : List UInt8} {gs : List (List UInt8)}

/-- The last group ends with the string. -/
theorem holds_last {g : List UInt8} (h : Spells dotted g) (hdot : dot ∉ g) : Holds dotted g :=
  ⟨h.chars, Or.inl h.null, h.nonzero, hdot⟩

/-- Any other group ends with a dot. -/
theorem holds_first {g t : List UInt8} (h : Spells dotted (g ++ dot :: t)) (hdot : dot ∉ g) :
    Holds dotted g ∧ dotted g.length = dot ∧ Spells (fun i => dotted (g.length + 1 + i)) t := by
  have hend : dotted g.length = dot := by
    rw [h.chars g.length (by simp)]
    simp
  constructor
  · constructor
    · intro i hi
      rw [h.chars i (by simp; omega), List.getElem_append_left hi]
    · exact Or.inr hend
    · exact fun hmem => h.nonzero (List.mem_append_left _ hmem)
    · exact hdot
  · have hrest := h.drop (n := g.length + 1) (by simp)
    rw [List.append_cons, List.drop_left' (by simp)] at hrest
    exact ⟨hend, hrest⟩

/-- The address that the loop over the segments gives, unless the function returns `SYSERR`. -/
def outcome (n seg : Nat) (ch : UInt8) (ipaddr : UInt32) (dotted : Chars) : Option UInt32 :=
  match dotSegments n seg ch ipaddr dotted with
  | none => none
  | some (seg, ch, ipaddr) => if 4 ≤ seg ∨ ch ≠ 0 then none else some ipaddr

theorem outcome_succ {n seg : Nat} {ch : UInt8} {ipaddr : UInt32} {g : List UInt8}
    (h : Holds dotted g) :
    outcome (n + 1) seg ch ipaddr dotted =
      if Group g then
        let ipaddr := (ipaddr <<< 8) ||| UInt32.ofNat (numberOf g)
        if dotted g.length = 0 then
          if 4 ≤ seg then none else some ipaddr
        else outcome n (seg + 1) (dotted g.length) ipaddr fun i => dotted (g.length + 1 + i)
      else none := by
  unfold outcome
  rw [dotSegments, dotSegment_eq h rfl, Nat.zero_add]
  by_cases hdigits : (1 ≤ g.length ∧ g.length ≤ 3) ∧ ∀ c ∈ g, IsDigit c
  · rw [if_pos hdigits]
    by_cases hvalue : 255 < numberOf g
    · have hgroup : ¬ Group g := fun hg => absurd hg.value (by omega)
      rw [if_neg hgroup]
      simp only [show numberFrom 0 g = numberOf g from rfl, if_pos hvalue]
    · have hgroup : Group g := ⟨hdigits.1.1, hdigits.1.2, hdigits.2, by omega⟩
      rw [if_pos hgroup]
      simp only [show numberFrom 0 g = numberOf g from rfl, if_neg hvalue]
      by_cases hzero : dotted g.length = 0
      · simp [hzero]
      · simp [hzero]
  · have hgroup : ¬ Group g := fun hg => hdigits ⟨⟨hg.pos, hg.short⟩, hg.digits⟩
    rw [if_neg hdigits, if_neg hgroup]

theorem outcome_eq {n seg : Nat} {ch : UInt8} {ipaddr : UInt32} (h : Spells dotted s)
    (hn : n + seg = 4) :
    outcome n seg ch ipaddr dotted =
      if (s.splitOn dot).length ≤ n ∧ ∀ g ∈ s.splitOn dot, Group g then
        some (addressFrom ipaddr (s.splitOn dot))
      else none := by
  induction n generalizing s seg ch ipaddr dotted with
  | zero =>
      have hseg : 4 ≤ seg := by omega
      have hlen : ¬ (s.splitOn dot).length ≤ 0 := by
        rw [Nat.le_zero, List.length_eq_zero_iff]
        exact List.splitOn_ne_nil dot s
      rw [if_neg fun hboth => hlen hboth.1]
      simp [outcome, dotSegments, hseg]
  | succ n ih =>
      rcases splitOn_cases dot s with ⟨hparts, hdot⟩ | ⟨g, t, rfl, hdot, hparts⟩
      · have hseg : ¬ 4 ≤ seg := by omega
        rw [outcome_succ (holds_last h hdot), h.null, hparts]
        simp [addressFrom, hseg]
      · obtain ⟨hholds, hend, hrest⟩ := holds_first h hdot
        rw [outcome_succ hholds, hend, if_neg (show ¬ dot = 0 by decide), ih hrest (by omega),
          hparts]
        by_cases hgroup : Group g
        · simp [hgroup, addressFrom]
        · simp [hgroup]

/-- One to four groups are accepted. -/
theorem dot2ip_eq (h : Spells dotted s) (garbage : UInt8) (result : UInt32) :
    dot2ip garbage dotted result =
      if (s.splitOn dot).length ≤ 4 ∧ ∀ g ∈ s.splitOn dot, Group g then
        (uOk, addressFrom 0 (s.splitOn dot))
      else (uSyserr, result) := by
  have hdot2ip : dot2ip garbage dotted result =
      match outcome 4 0 garbage 0 dotted with
      | none => (uSyserr, result)
      | some ipaddr => (uOk, ipaddr) := by
    unfold dot2ip outcome
    cases dotSegments 4 0 garbage 0 dotted with
    | none => rfl
    | some left =>
        obtain ⟨seg, ch, ipaddr⟩ := left
        by_cases hbad : 4 ≤ seg ∨ ch ≠ 0
        · simp only [if_pos hbad]
        · simp only [if_neg hbad]
  rw [hdot2ip, outcome_eq h rfl]
  by_cases haccepted : (s.splitOn dot).length ≤ 4 ∧ ∀ g ∈ s.splitOn dot, Group g
  · rw [if_pos haccepted, if_pos haccepted]
  · rw [if_neg haccepted, if_neg haccepted]

/-! ## Dotted quads -/

/-- A byte that is put behind an address. -/
theorem shift_or (n v : Nat) (h : v ≤ 255) :
    (UInt32.ofNat n <<< 8) ||| UInt32.ofNat v = UInt32.ofNat (256 * n + v) := by
  apply UInt32.toNat.inj
  have hlow : n % 4294967296 * 256 % 4294967296 = 256 * (n % 16777216) := by omega
  have hor : 256 * (n % 16777216) ||| v = 256 * (n % 16777216) + v :=
    (Nat.two_pow_add_eq_or_of_lt (i := 8) (by omega) _).symm
  have height : UInt32.toNat 8 % 32 = 8 := rfl
  simp only [UInt32.toNat_or, UInt32.toNat_shiftLeft, UInt32.toNat_ofNat', Nat.reducePow]
  rw [height, Nat.shiftLeft_eq, Nat.mod_eq_of_lt (a := v) (by omega), hlow, hor]
  omega

theorem addressFrom_eq (n : Nat) (h : ∀ g ∈ gs, Group g) :
    addressFrom (UInt32.ofNat n) gs =
      UInt32.ofNat (gs.foldl (fun n g => 256 * n + numberOf g) n) := by
  induction gs generalizing n with
  | nil => rfl
  | cons g gs ih =>
      have hvalue : numberOf g ≤ 255 := (h g List.mem_cons_self).value
      have hrest : ∀ p ∈ gs, Group p := fun p hp => h p (List.mem_cons_of_mem g hp)
      simp only [addressFrom, List.foldl_cons] at ih ⊢
      rw [shift_or n _ hvalue, ih _ hrest]

theorem addressFrom_zero (h : ∀ g ∈ gs, Group g) : addressFrom 0 gs = address gs :=
  addressFrom_eq 0 h

/-- What is expected of a call that returns `r.1` and leaves `r.2` where `result` was: it
accepts four groups of digits, and nothing else. -/
structure AcceptsQuads (s : List UInt8) (result : UInt32) (r : UInt32 × UInt32) : Prop where
  ok_iff : r.1 = uOk ↔ Groups 4 s
  result_eq : Groups 4 s → r.2 = address (s.splitOn dot)
  refused : ¬ Groups 4 s → r = (uSyserr, result)

theorem groups_lt_four (hlen : (s.splitOn dot).length ≤ 4) (hgroups : ∀ g ∈ s.splitOn dot, Group g)
    (h : ¬ Groups 4 s) : Groups 1 s ∨ Groups 2 s ∨ Groups 3 s := by
  have hpos : (s.splitOn dot).length ≠ 0 := by
    intro hzero
    exact List.splitOn_ne_nil dot s (List.length_eq_zero_iff.mp hzero)
  have hfour : (s.splitOn dot).length ≠ 4 := fun hlen => h ⟨hlen, hgroups⟩
  rcases (by omega : (s.splitOn dot).length = 1 ∨ (s.splitOn dot).length = 2 ∨
    (s.splitOn dot).length = 3) with hone | htwo | hthree
  · exact Or.inl ⟨hone, hgroups⟩
  · exact Or.inr (Or.inl ⟨htwo, hgroups⟩)
  · exact Or.inr (Or.inr ⟨hthree, hgroups⟩)

/--
`dot2ip` accepts dotted quads and nothing else, whatever `result` holds, exactly if the string
is not one, two or three groups with dots between them.
-/
theorem dot2ip_quads_iff (h : Spells dotted s) (garbage : UInt8) :
    (∀ result, AcceptsQuads s result (dot2ip garbage dotted result)) ↔
      ¬ (Groups 1 s ∨ Groups 2 s ∨ Groups 3 s) := by
  constructor
  · intro hpromise hfew
    have hok : (dot2ip garbage dotted 0).1 = uOk := by
      rw [dot2ip_eq h, if_pos]
      rcases hfew with hone | htwo | hthree
      · exact ⟨by rw [hone.1]; decide, hone.2⟩
      · exact ⟨by rw [htwo.1]; decide, htwo.2⟩
      · exact ⟨by rw [hthree.1]; decide, hthree.2⟩
    have hfour := ((hpromise 0).ok_iff.mp hok).1
    rcases hfew with hone | htwo | hthree
    · exact absurd (hone.1.symm.trans hfour) (by decide)
    · exact absurd (htwo.1.symm.trans hfour) (by decide)
    · exact absurd (hthree.1.symm.trans hfour) (by decide)
  · intro hfew result
    rw [dot2ip_eq h]
    by_cases hfour : Groups 4 s
    · have haccepted : (s.splitOn dot).length ≤ 4 ∧ ∀ g ∈ s.splitOn dot, Group g :=
        ⟨Nat.le_of_eq hfour.1, hfour.2⟩
      rw [if_pos haccepted]
      exact ⟨iff_of_true rfl hfour, fun _ => addressFrom_zero hfour.2,
        fun hnot => absurd hfour hnot⟩
    · have hrefused : ¬ ((s.splitOn dot).length ≤ 4 ∧ ∀ g ∈ s.splitOn dot, Group g) :=
        fun hacc => hfew (groups_lt_four hacc.1 hacc.2 hfour)
      rw [if_neg hrefused]
      exact ⟨iff_of_false (show ¬ uSyserr = uOk by decide) hfour, fun hyes => absurd hyes hfour,
        fun _ => rfl⟩

end Segments

/-- A string of digits, dots and nothing else that is a dotted quad. -/
theorem quad_accepted :
    AcceptsQuads [49, 46, 50, 46, 51, 46, 52] 0
        (dot2ip 0 (chars [49, 46, 50, 46, 51, 46, 52]) 0) ∧
      address ([49, 46, 50, 46, 51, 46, 52].splitOn dot) = 0x01020304 := by
  refine ⟨(dot2ip_quads_iff (spells_chars (by decide)) 0).mpr ?_ 0, by decide⟩
  decide

/-- `"10.0"` is accepted. -/
theorem two_groups_accepted :
    dot2ip 0 (chars [49, 48, 46, 48]) 7 = (uOk, 0x0A00) ∧ ¬ Groups 4 [49, 48, 46, 48] ∧
      ¬ AcceptsQuads [49, 48, 46, 48] 7 (dot2ip 0 (chars [49, 48, 46, 48]) 7) := by
  have hrun : dot2ip 0 (chars [49, 48, 46, 48]) 7 = (uOk, 0x0A00) := by decide
  have hfew : ¬ Groups 4 [49, 48, 46, 48] := by decide
  refine ⟨hrun, hfew, ?_⟩
  intro h
  rw [hrun] at h
  exact hfew (h.ok_iff.mp rfl)

/-! ## Addresses as strings -/

/-- The byte of an address above its lowest `n` bits. -/
def byteAt (ipaddress : UInt32) (n : UInt32) : BitVec 32 :=
  ((ipaddress >>> n) &&& 0xff).toBitVec

/-- `ip2dot` writes to the memory from `dotted` on. -/
def ip2dot (deref : BitVec 32 → List UInt8) (string : List UInt8) (dotted : Chars)
    (ipaddress : UInt32) : UInt32 × Chars :=
  let fmt := ['%', 'd', '.', '%', 'd', '.', '%', 'd', '.', '%', 'd'].map code
  let bytes := [byteAt ipaddress 24, byteAt ipaddress 16, byteAt ipaddress 8, byteAt ipaddress 0]
  (uOk, sprintf deref string dotted fmt fun i => bytes.getD i 0)

section Printing

variable {v : Nat}

theorem decimalDigit_sub {d : Nat} (h : d < 10) : (decimalDigit d - code '0').toNat = d := by
  decide +revert

/-- The number that digits stand for, of which the first is the last one. -/
theorem numberOf_reverse {ds : List Nat} (h : ∀ d ∈ ds, d < 10) :
    numberOf (ds.map decimalDigit).reverse = Nat.ofDigits 10 ds := by
  unfold numberOf numberFrom
  rw [List.foldl_reverse]
  induction ds with
  | nil => rfl
  | cons d ds ih =>
      rw [List.map_cons, List.foldr_cons, ih fun c hc => h c (List.mem_cons_of_mem d hc),
        decimalDigit_sub (h d List.mem_cons_self), Nat.ofDigits_cons, Nat.add_comm]

theorem numberOf_decimal (v : Nat) : numberOf (decimal v) = v := by
  unfold decimal numeral
  split
  · rename_i hzero
    rw [hzero]
    decide
  · rw [numberOf_reverse fun d hd => Nat.digits_lt_base (by decide) hd, Nat.ofDigits_digits]

theorem length_decimal (h : v ≤ 255) : 1 ≤ (decimal v).length ∧ (decimal v).length ≤ 3 := by
  unfold decimal numeral
  split
  · simp
  · rename_i hzero
    have hpos := List.length_pos_of_ne_nil (Nat.digits_ne_nil_iff_ne_zero (b := 10) |>.mpr hzero)
    have hle : (Nat.digits 10 v).length ≤ 3 :=
      (Nat.digits_length_le_iff (by decide) v).mpr (by omega)
    rw [List.length_reverse, List.length_map]
    exact ⟨hpos, hle⟩

theorem group_decimal (h : v ≤ 255) : Group (decimal v) := by
  refine ⟨(length_decimal h).1, (length_decimal h).2, fun c hc => isDigit_of_mem_decimal hc, ?_⟩
  rw [numberOf_decimal]
  exact h

theorem dot_not_mem_decimal (v : Nat) : dot ∉ decimal v := by
  intro h
  exact absurd (isDigit_of_mem_decimal h) (by decide)

/-- The decimal numbers of four bytes, with dots between them. -/
def quadText (a b c d : Nat) : List UInt8 :=
  decimal a ++ dot :: (decimal b ++ dot :: (decimal c ++ dot :: decimal d))

theorem splitOn_quadText (a b c d : Nat) :
    (quadText a b c d).splitOn dot = [decimal a, decimal b, decimal c, decimal d] := by
  unfold quadText
  rw [List.splitOn_append_cons_self_of_not_mem (dot_not_mem_decimal a),
    List.splitOn_append_cons_self_of_not_mem (dot_not_mem_decimal b),
    List.splitOn_append_cons_self_of_not_mem (dot_not_mem_decimal c),
    List.splitOn_eq_singleton (dot_not_mem_decimal d)]

theorem zero_not_mem_quadText (a b c d : Nat) : 0 ∉ quadText a b c d := by
  have hnumber : ∀ v, 0 ∉ decimal v := fun v h => (isDigit_of_mem_decimal h).ne_zero rfl
  have hdot : (0 : UInt8) ≠ dot := by decide
  simp [quadText, hnumber, hdot]

theorem toNat_byteAt (ipaddress n : UInt32) :
    (byteAt ipaddress n).toNat = ipaddress.toNat / 2 ^ (n.toNat % 32) % 256 := by
  unfold byteAt
  rw [UInt32.toNat_toBitVec, UInt32.toNat_and, UInt32.toNat_shiftRight, Nat.shiftRight_eq_div_pow]
  exact Nat.and_two_pow_sub_one_eq_mod _ 8

theorem byteAt_le (ipaddress n : UInt32) : (byteAt ipaddress n).toNat ≤ 255 := by
  rw [toNat_byteAt]
  omega

theorem spells_ip2dot (deref : BitVec 32 → List UInt8) (string : List UInt8) (dotted : Chars)
    (ipaddress : UInt32) :
    Spells (ip2dot deref string dotted ipaddress).2
      (quadText (byteAt ipaddress 24).toNat (byteAt ipaddress 16).toNat
        (byteAt ipaddress 8).toNat (byteAt ipaddress 0).toNat) := by
  have hsmall : ∀ n, (byteAt ipaddress n).toNat < 0x80000000 :=
    fun n => Nat.lt_of_le_of_lt (byteAt_le ipaddress n) (by decide)
  have hdot : code '.' ≠ code '%' := by decide
  have hprinted : fdoprnt deref
      (['%', 'd', '.', '%', 'd', '.', '%', 'd', '.', '%', 'd'].map code)
      (fun i => [byteAt ipaddress 24, byteAt ipaddress 16, byteAt ipaddress 8,
        byteAt ipaddress 0].getD i 0) string =
      quadText (byteAt ipaddress 24).toNat (byteAt ipaddress 16).toNat
        (byteAt ipaddress 8).toNat (byteAt ipaddress 0).toNat := by
    simp only [List.map_cons, List.map_nil]
    rw [fdoprnt_decimal (hsmall 24), fdoprnt_echo hdot, fdoprnt_decimal (hsmall 16),
      fdoprnt_echo hdot, fdoprnt_decimal (hsmall 8), fdoprnt_echo hdot,
      fdoprnt_decimal (hsmall 0), fdoprnt_nil, List.append_nil]
    rfl
  rw [← hprinted]
  apply spells_sprintf
  rw [hprinted]
  exact zero_not_mem_quadText _ _ _ _

/-- Every address is read back from the string that is written for it. -/
theorem dot2ip_ip2dot (deref : BitVec 32 → List UInt8) (string : List UInt8) (dotted : Chars)
    (garbage : UInt8) (result ipaddress : UInt32) :
    dot2ip garbage (ip2dot deref string dotted ipaddress).2 result = (uOk, ipaddress) := by
  have hgroups : ∀ g ∈ [decimal (byteAt ipaddress 24).toNat, decimal (byteAt ipaddress 16).toNat,
      decimal (byteAt ipaddress 8).toNat, decimal (byteAt ipaddress 0).toNat], Group g := by
    simp [group_decimal, byteAt_le]
  rw [dot2ip_eq (spells_ip2dot deref string dotted ipaddress), splitOn_quadText,
    if_pos ⟨by simp, hgroups⟩, addressFrom_zero hgroups]
  congr 1
  apply UInt32.toNat.inj
  have hlt := ipaddress.toNat_lt
  have h24 : UInt32.toNat 24 % 32 = 24 := rfl
  have h16 : UInt32.toNat 16 % 32 = 16 := rfl
  have h8 : UInt32.toNat 8 % 32 = 8 := rfl
  have h0 : UInt32.toNat 0 % 32 = 0 := rfl
  unfold address
  simp only [List.foldl_cons, List.foldl_nil, numberOf_decimal, toNat_byteAt, h24, h16, h8, h0,
    UInt32.toNat_ofNat']
  omega

end Printing

end DottedQuad
end Net
end Xinu
