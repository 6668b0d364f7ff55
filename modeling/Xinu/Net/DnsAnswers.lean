import Xinu.Net.DnsBounds
import Xinu.Net.DnsQuestion

/-!
# Answers

What `dns_geta` finds in a well-formed response.

Main results:

- Theorem `Name.expand`: a name is expanded through its pointers, of which each loses the two
  bits that make it one.
- Theorem `dnsGeta_finds_iff`: in a response in which no name leads through a pointer that was
  followed before, the address found is that of the first record whose name has the queried
  name at its start.
-/

namespace Xinu
namespace Net
namespace Dns

open Foundations Function Lib DottedQuad

/-! ## Well-formed responses -/

/-- The name at `off` of a packet of `n` bytes has the labels `ls`, and `next` is the offset
behind it.  It lies in the bytes `cells`, of which `ptrs` are those that begin a pointer; a
pointer leads to a name that lies before it. -/
inductive Name (pkt : Chars) (n : Nat) :
    Nat → List (List UInt8) → Nat → List Nat → List Nat → Prop
  | root {off : Nat} : pkt off = 0 → off < n → Name pkt n off [] (off + 1) [off] []
  | pointer {off next : Nat} {ls : List (List UInt8)} {cells ptrs : List Nat} :
      0xC0 ≤ pkt off → off + 1 < n → Name pkt n (target pkt off) ls next cells ptrs →
      (∀ c ∈ cells, c < off) →
      Name pkt n off ls (off + 2) (off :: (off + 1) :: cells) (off :: ptrs)
  | label {off next : Nat} {l : List UInt8} {ls : List (List UInt8)} {cells ptrs : List Nat} :
      IsLabel l → Bytes pkt off (UInt8.ofNat l.length :: l) →
      Name pkt n (off + 1 + l.length) ls next cells ptrs →
      Name pkt n off (l :: ls) next (List.range' off (1 + l.length) ++ cells) ptrs

/-- A record of the answer section. -/
structure Record where
  labels : List (List UInt8)
  rtype : Nat
  /-- The first four bytes of the data. -/
  address : UInt32
  cells : List Nat
  ptrs : List Nat

/-- So many questions lie between the two offsets. -/
inductive QuestionSection (pkt : Chars) (n : Nat) : Nat → Nat → Nat → Prop
  | none {off : Nat} : QuestionSection pkt n 0 off off
  | next {k off next off' : Nat} {ls : List (List UInt8)} {cells ptrs : List Nat} :
      Name pkt n off ls next cells ptrs → next + 4 ≤ n →
      QuestionSection pkt n k (next + 4) off' → QuestionSection pkt n (k + 1) off off'

/-- So many records lie behind an offset. -/
inductive AnswerSection (pkt : Chars) (n : Nat) : Nat → Nat → List Record → Prop
  | none {off : Nat} : AnswerSection pkt n 0 off []
  | next {k off next : Nat} {ls : List (List UInt8)} {cells ptrs : List Nat}
      {rs : List Record} :
      Name pkt n off ls next cells ptrs → (wire ls).length + 1 ≤ 255 →
      next + 10 + ntohs pkt (next + 8) ≤ n →
      (ntohs pkt next = dnsQtA → ntohs pkt (next + 8) = 4) →
      AnswerSection pkt n k (next + 10 + ntohs pkt (next + 8)) rs →
      AnswerSection pkt n (k + 1) off
        ({ labels := ls, rtype := ntohs pkt next, address := word32 pkt (next + 10), cells,
           ptrs } :: rs)

/-- The packet is a response of `n` bytes with the records `rs` in its answer section. -/
structure Response (pkt : Chars) (n : Nat) (rs : List Record) : Prop where
  size : n ≤ 512
  sections : ∃ off, QuestionSection pkt n (ntohs pkt qdcountOffset) dataOffset off ∧
    AnswerSection pkt n (ntohs pkt ancountOffset) off rs

/-! ## The address that is looked for -/

/-- An address record whose name is `dname`. -/
def Record.IsFor (dname : List UInt8) (r : Record) : Prop :=
  nameOf r.labels = dname ∧ r.rtype = dnsQtA

/-- An address record that `dns_geta` takes for one of `dname`. -/
def Record.BeginsWith (dname : List UInt8) (r : Record) : Prop :=
  dname <+: expansion r.labels ∧ r.rtype = dnsQtA

instance (dname : List UInt8) (r : Record) : Decidable (r.IsFor dname) :=
  inferInstanceAs (Decidable (_ ∧ _))

instance (dname : List UInt8) (r : Record) : Decidable (r.BeginsWith dname) :=
  inferInstanceAs (Decidable (_ ∧ _))

/-- The address of the first record that is one of those looked for, or `SYSERR`. -/
def firstAddress (p : Record → Prop) [DecidablePred p] (rs : List Record) : UInt32 :=
  match rs.find? p with
  | some r => r.address
  | none => uSyserr

/-- Up to the record that is taken, no name leads through one of the bytes `ptrs`, or through
a pointer that a name before it has followed. -/
def FollowsOnce (dname : List UInt8) : List Nat → List Record → Prop
  | _, [] => True
  | ptrs, r :: rs =>
      (∀ c ∈ r.cells, c ∉ ptrs) ∧
        (r.BeginsWith dname ∨ FollowsOnce dname (r.ptrs ++ ptrs) rs)

/-! ## Expanding a name -/

section Expanding

variable {pkt : Chars} {n off next dst sson : Nat} {ls : List (List UInt8)}
  {cells ptrs : List Nat} {m : NameMem}

theorem Name.lt_next (h : Name pkt n off ls next cells ptrs) : off < next := by
  induction h with
  | root => omega
  | pointer => omega
  | label _ _ _ ih => omega

theorem Name.cells_lt (h : Name pkt n off ls next cells ptrs) : ∀ c ∈ cells, c < next := by
  induction h with
  | root => simp
  | pointer _ _ _ hbefore _ =>
      intro c hc
      rcases List.mem_cons.mp hc with rfl | hc
      · omega
      · rcases List.mem_cons.mp hc with rfl | hc
        · omega
        · have := hbefore c hc
          omega
  | label _ _ hrest ih =>
      intro c hc
      rcases List.mem_append.mp hc with hc | hc
      · have hlt := hrest.lt_next
        rw [List.mem_range'_1] at hc
        omega
      · exact ih c hc

theorem Name.ptrs_subset (h : Name pkt n off ls next cells ptrs) : ptrs ⊆ cells := by
  induction h with
  | root => simp
  | pointer _ _ _ _ ih => exact List.cons_subset_cons _ (List.subset_cons_of_subset _ ih)
  | label _ _ _ ih => exact List.subset_append_of_subset_right _ ih

/-- The bytes that the scan over the questions steps over. -/
theorem Name.questionName (h : Name pkt n off ls next cells ptrs) :
    QuestionName pkt off next := by
  induction h with
  | root h0 => exact .root h0
  | pointer hhigh _ _ _ _ => exact .pointer (UInt8.lt_of_lt_of_le (by decide) hhigh)
  | @label off next l ls cells ptrs hlabel hbytes _ ih =>
      rw [bytes_cons_iff] at hbytes
      apply QuestionName.label
      · rw [hbytes.1]
        exact hlabel.length_ne_zero
      · rw [hbytes.1]
        exact hlabel.length_le
      · rwa [hbytes.1, hlabel.toNat_length, ← Nat.add_assoc]

/-- A name is expanded through its pointers, and only their first bytes change. -/
theorem Name.expand (h : Name pkt n off ls next cells ptrs)
    (hsame : ∀ c ∈ cells, m.pkt c = pkt c) :
    ∃ F m', (∀ fuel, F ≤ fuel →
        nameLoop fuel sson (off + 1) dst (m.pkt off) m = (m', some (next - sson))) ∧
      Bytes m'.dst dst (expansion ls ++ [0]) ∧ (∀ i < dst, m'.dst i = m.dst i) ∧
        ∀ i, i ∉ ptrs → m'.pkt i = m.pkt i := by
  induction h generalizing m dst sson with
  | @root off h0 hoff =>
      refine ⟨1, m.store dst 0, ?_, ?_, ?_, fun _ _ => rfl⟩
      · intro fuel hfuel
        obtain ⟨fuel, rfl⟩ : ∃ f, fuel = f + 1 := ⟨fuel - 1, by omega⟩
        rw [hsame off List.mem_cons_self, h0, nameLoop_end]
      · exact bytes_singleton_iff.mpr (update_self _ _ _)
      · intro i hi
        exact update_of_ne (Nat.ne_of_lt hi) _ _
  | @pointer off next ls cells ptrs hhigh hoff hname hbefore ih =>
      have hfirst : m.pkt off = pkt off := hsame off List.mem_cons_self
      have hsecond : m.pkt (off + 1) = pkt (off + 1) := hsame (off + 1) (by simp)
      have htarget : target m.pkt off = target pkt off := by
        unfold target
        rw [hfirst, hsecond]
      have h63 : ¬ m.pkt off ≤ 63 := by
        rw [hfirst, UInt8.not_le]
        exact UInt8.lt_of_lt_of_le (by decide) hhigh
      -- the name that the pointer leads to lies before the byte that changes
      have hsame' : ∀ c ∈ cells,
          ((m.follow off).fetch (target pkt off)).2.pkt c = pkt c := by
        intro c hc
        have hne : c ≠ off := Nat.ne_of_lt (hbefore c hc)
        refine Eq.trans ?_ (hsame c (by simp [hc]))
        exact update_of_ne hne _ _
      obtain ⟨F, m', hrun, hdst, hbelow, hpkt⟩ := @ih dst (target pkt off) _ hsame'
      refine ⟨F + 1, m', ?_, hdst, hbelow, ?_⟩
      · intro fuel hfuel
        obtain ⟨fuel, rfl⟩ : ∃ f, fuel = f + 1 := ⟨fuel - 1, by omega⟩
        rw [nameLoop_pointer h63]
        simp only [Nat.add_sub_cancel, htarget]
        have hrec := hrun fuel (by omega)
        rw [show ((m.follow off).fetch (target pkt off)).2.pkt (target pkt off) =
          (m.follow off).pkt (target pkt off) from rfl] at hrec
        rw [hrec]
        rfl
      · intro i hi
        rw [List.mem_cons, not_or] at hi
        refine (hpkt i hi.2).trans ?_
        exact update_of_ne hi.1 _ _
  | @label off next l ls cells ptrs hlabel hbytes hname ih =>
      rw [bytes_cons_iff] at hbytes
      obtain ⟨hlen, hchars⟩ := hbytes
      have hcell : ∀ i, off ≤ i → i < off + (1 + l.length) → m.pkt i = pkt i := by
        intro i hlo hhi
        apply hsame
        rw [List.mem_append, List.mem_range'_1]
        exact Or.inl ⟨hlo, hhi⟩
      have hfirst : m.pkt off = UInt8.ofNat l.length := by
        rw [hcell off (Nat.le_refl _) (by omega), hlen]
      have hsame' : ∀ c ∈ cells, (m.takeLabel l.length (off + 1) dst).pkt c = pkt c := by
        intro c hc
        rw [takeLabel_pkt]
        exact hsame c (List.mem_append_right _ hc)
      obtain ⟨F, m', hrun, hdst, hbelow, hpkt⟩ := @ih (dst + l.length + 1) sson _ hsame'
      refine ⟨F + 1, m', ?_, ?_, ?_, ?_⟩
      · intro fuel hfuel
        obtain ⟨fuel, rfl⟩ : ∃ f, fuel = f + 1 := ⟨fuel - 1, by omega⟩
        rw [hfirst, nameLoop_label hlabel.length_ne_zero hlabel.length_le, hlabel.toNat_length]
        have hrec := hrun fuel (by omega)
        rwa [takeLabel_pkt] at hrec
      · rw [expansion_cons, List.append_assoc, bytes_append_iff, List.cons_append,
          bytes_cons_iff]
        refine ⟨?_, ?_, hdst⟩
        · intro i hi
          rw [hbelow _ (by omega), takeLabel_dst hi, hcell _ (by omega) (by omega)]
          exact hchars i hi
        · rw [hbelow _ (by omega)]
          exact takeLabel_dot
      · intro i hi
        rw [hbelow i (by omega), takeLabel_dst_of_lt hi]
      · intro i hi
        rw [hpkt i hi, takeLabel_pkt]

end Expanding

/-! ## The walk over the answers -/

section Answers

variable {pkt : Chars} {n k off next : Nat} {rs : List Record} {dname : List UInt8}
  {ptrs : List Nat} {m : NameMem}

theorem ntohs_congr {a b : Chars} {i : Nat} (h : ∀ j, i ≤ j → a j = b j) :
    ntohs a i = ntohs b i := by
  unfold ntohs
  rw [h i (Nat.le_refl i), h (i + 1) (Nat.le_succ i)]

theorem word32_congr {a b : Chars} {i : Nat} (h : ∀ j, i ≤ j → a j = b j) :
    word32 a i = word32 b i := by
  unfold word32
  rw [h i (Nat.le_refl i), h (i + 1) (by omega), h (i + 2) (by omega), h (i + 3) (by omega)]

theorem firstAddress_cons (p : Record → Prop) [DecidablePred p] (r : Record)
    (rs : List Record) :
    firstAddress p (r :: rs) = if p r then r.address else firstAddress p rs := by
  unfold firstAddress
  rw [List.find?_cons]
  by_cases h : p r
  · simp [h]
  · simp [h]

/-- The address found is that of the first record whose name begins as it should; the bytes
`ptrs` are those that the names before have changed. -/
theorem getaLoop_answers (hdname : 0 ∉ dname) (h : AnswerSection pkt n k off rs)
    (hbefore : ∀ c ∈ ptrs, c < off) (hsame : ∀ i, i ∉ ptrs → m.pkt i = pkt i)
    (hfollows : FollowsOnce dname ptrs rs) :
    ∃ F, ∀ fuel, F ≤ fuel → (getaLoop fuel dname k off m).2 =
      some (firstAddress (Record.BeginsWith dname) rs) := by
  induction h generalizing m ptrs with
  | none => exact ⟨0, fun _ _ => rfl⟩
  | @next k off next ls cells ptrs' rs hname _ _ _ _ ih =>
      obtain ⟨hcells, hrest⟩ := hfollows
      have hintact : ∀ c ∈ cells, (({ m with touched := [] } : NameMem).fetch off).2.pkt c =
          pkt c := fun c hc => hsame c (hcells c hc)
      obtain ⟨F, m', hrun, hdst, -, hpkt⟩ := @Name.expand pkt n off next 0 off ls cells ptrs'
        (({ m with touched := [] } : NameMem).fetch off).2 hname hintact
      have hnext := hname.lt_next
      have hsame' : ∀ i, i ∉ ptrs' ++ ptrs → m'.pkt i = pkt i := by
        intro i hi
        rw [List.mem_append, not_or] at hi
        exact (hpkt i hi.1).trans (hsame i hi.2)
      have hbefore' : ∀ c ∈ ptrs' ++ ptrs, c < next := by
        intro c hc
        rcases List.mem_append.mp hc with hc | hc
        · exact hname.cells_lt c (hname.ptrs_subset hc)
        · have := hbefore c hc
          omega
      -- the fields behind the name are as they were
      have hfields : ∀ j, next ≤ j → m'.pkt j = pkt j := by
        intro j hj
        apply hsame'
        intro hmem
        have := hbefore' j hmem
        omega
      have htype : ntohs m'.pkt next = ntohs pkt next := ntohs_congr hfields
      have hlength : ntohs m'.pkt (next + 8) = ntohs pkt (next + 8) :=
        ntohs_congr fun j hj => hfields j (by omega)
      have haddress : word32 m'.pkt (next + 10) = word32 pkt (next + 10) :=
        word32_congr fun j hj => hfields j (by omega)
      have hend : off + (next - off) = next := by omega
      by_cases hfound : dname <+: expansion ls ∧ ntohs pkt next = dnsQtA
      · refine ⟨F, fun fuel hfuel => ?_⟩
        have hcall : dnsGetrname fuel off 0 { m with touched := [] } = (m', some (next - off)) :=
          hrun fuel hfuel
        rw [getaLoop_some hdname hcall hdst, hend, htype, if_pos hfound, haddress,
          firstAddress_cons]
        exact congrArg some (if_pos hfound).symm
      · obtain ⟨G, hG⟩ := @ih (ptrs' ++ ptrs) m' (fun c hc => by have := hbefore' c hc; omega)
          hsame' (hrest.resolve_left hfound)
        refine ⟨max F G, fun fuel hfuel => ?_⟩
        have hcall : dnsGetrname fuel off 0 { m with touched := [] } = (m', some (next - off)) :=
          hrun fuel (by omega)
        have hskip : next + 8 + (2 + ntohs pkt (next + 8)) =
            next + 10 + ntohs pkt (next + 8) := by omega
        rw [getaLoop_some hdname hcall hdst, hend, htype, if_neg hfound, hlength, hskip,
          firstAddress_cons]
        refine (hG fuel (by omega)).trans ?_
        exact congrArg some (if_neg hfound).symm

theorem QuestionSection.questions {off' : Nat} (h : QuestionSection pkt n k off off') :
    Questions pkt k off off' := by
  induction h with
  | none => exact .none
  | next hname _ _ ih => exact .next hname.questionName ih

/-- What `dns_geta` returns. -/
theorem dnsGeta_eq (hdname : 0 ∉ dname) (h : Response pkt n rs)
    (hfollows : FollowsOnce dname [] rs) (rname : Chars) :
    ∃ F, ∀ fuel, F ≤ fuel → (dnsGeta fuel dname pkt rname).2 =
      some (firstAddress (Record.BeginsWith dname) rs) := by
  obtain ⟨off, hquestions, hanswers⟩ := h.sections
  obtain ⟨F, hF⟩ := hquestions.questions.skip
  obtain ⟨G, hG⟩ := @getaLoop_answers pkt n _ off rs dname []
    { pkt, dst := rname, touched := [] } hdname hanswers (by simp) (fun _ _ => rfl) hfollows
  refine ⟨max F G, fun fuel hfuel => ?_⟩
  unfold dnsGeta
  rw [hF fuel (by omega)]
  exact hG fuel (by omega)

/-- `dns_geta` returns the address of the first record for the queried name, or `SYSERR` if
there is none. -/
def FindsAddress (dname : List UInt8) (pkt rname : Chars) (rs : List Record) : Prop :=
  ∃ F, ∀ fuel, F ≤ fuel →
    (dnsGeta fuel dname pkt rname).2 = some (firstAddress (Record.IsFor dname) rs)

/--
In a response in which no name leads through a pointer that was followed before, the address of
the queried name is found exactly if it is that of the first record whose name has the queried
name at its start.
-/
theorem dnsGeta_finds_iff (hdname : 0 ∉ dname) (h : Response pkt n rs)
    (hfollows : FollowsOnce dname [] rs) (rname : Chars) :
    FindsAddress dname pkt rname rs ↔
      firstAddress (Record.BeginsWith dname) rs = firstAddress (Record.IsFor dname) rs := by
  obtain ⟨F, hF⟩ := dnsGeta_eq hdname h hfollows rname
  constructor
  · rintro ⟨G, hG⟩
    have hboth := (hF (max F G) (by omega)).symm.trans (hG (max F G) (by omega))
    exact Option.some.inj hboth
  · intro heq
    refine ⟨F, fun fuel hfuel => ?_⟩
    rw [hF fuel hfuel, heq]

/-- A name that is the queried one begins with it. -/
theorem Record.IsFor.beginsWith {r : Record} (h : r.IsFor dname) : r.BeginsWith dname := by
  refine ⟨?_, h.2⟩
  rw [← h.1]
  by_cases hne : r.labels = []
  · simp [hne, nameOf]
  · rw [expansion_eq_nameOf hne]
    exact List.prefix_append _ _

/-- Names that begin with the queried one and are longer make the difference. -/
theorem firstAddress_exact (h : ∀ r ∈ rs, r.BeginsWith dname → r.IsFor dname) :
    firstAddress (Record.BeginsWith dname) rs = firstAddress (Record.IsFor dname) rs := by
  induction rs with
  | nil => rfl
  | cons r rs ih =>
      rw [firstAddress_cons, firstAddress_cons, ih fun r' hr' => h r' (List.mem_cons_of_mem r hr')]
      exact if_congr ⟨h r List.mem_cons_self, Record.IsFor.beginsWith⟩ rfl rfl

end Answers

/-! ## Two responses -/

/-- The record at `off` that is the last one. -/
def lastRecord (pkt : Chars) (next : Nat) (ls : List (List UInt8)) (cells ptrs : List Nat) :
    Record :=
  { labels := ls, rtype := ntohs pkt next, address := word32 pkt (next + 10), cells, ptrs }

theorem oneAnswer_response :
    Response oneAnswer 29 [lastRecord oneAnswer 15 [[97]] [12, 13, 14] []] := by
  have hname : Name oneAnswer 29 12 [[97]] 15 [12, 13, 14] [] :=
    .label (by decide) (by decide) (.root (by decide) (by decide))
  refine ⟨by decide, 12, .none, ?_⟩
  exact .next hname (by decide) (by decide) (by decide) .none

/-- The address of the one record is found. -/
theorem oneAnswer_found :
    FindsAddress [97] oneAnswer (fun _ => 0) [lastRecord oneAnswer 15 [[97]] [12, 13, 14] []] :=
  (dnsGeta_finds_iff (by decide) oneAnswer_response ⟨by decide, Or.inl ⟨by decide, by decide⟩⟩
    fun _ => 0).mpr (by decide)

/-- A response with the address of `"a.b.c"`. -/
def longerName : Chars :=
  chars [0, 0, 0x80, 0, 0, 0, 0, 1, 0, 0, 0, 0,
    1, 97, 1, 98, 1, 99, 0, 0, 1, 0, 1, 0, 0, 0, 0, 0, 4, 10, 0, 0, 1]

/-- The record of `"a.b.c"`. -/
def longerRecord : Record :=
  lastRecord longerName 19 [[97], [98], [99]] [12, 13, 14, 15, 16, 17, 18] []

/-- A response in which `"b"` is an alias, and the address of `"a.b"` follows the alias that
leads to it: the last two names lead through the pointer at offset 27. -/
def aliases : Chars :=
  chars [0, 0, 0x80, 0, 0, 0, 0, 3, 0, 0, 0, 0,
    1, 98, 0, 0, 5, 0, 1, 0, 0, 0, 0, 0, 4, 1, 97, 0xC0, 12,
    0xC0, 25, 0, 5, 0, 1, 0, 0, 0, 0, 0, 1, 0,
    0xC0, 25, 0, 1, 0, 1, 0, 0, 0, 0, 0, 4, 10, 0, 0, 1]

/-- The records of the response with aliases. -/
def aliasRecords : List Record :=
  [lastRecord aliases 15 [[98]] [12, 13, 14] [],
    lastRecord aliases 31 [[97], [98]] [29, 30, 25, 26, 27, 28, 12, 13, 14] [29, 27],
    lastRecord aliases 44 [[97], [98]] [42, 43, 25, 26, 27, 28, 12, 13, 14] [42, 27]]

theorem longerName_response : Response longerName 33 [longerRecord] := by
  have hname : Name longerName 33 12 [[97], [98], [99]] 19 [12, 13, 14, 15, 16, 17, 18] [] :=
    .label (by decide) (by decide) (.label (by decide) (by decide)
      (.label (by decide) (by decide) (.root (by decide) (by decide))))
  refine ⟨by decide, 12, .none, ?_⟩
  exact .next hname (by decide) (by decide) (by decide) .none

theorem aliases_response : Response aliases 58 aliasRecords := by
  have hb : Name aliases 58 12 [[98]] 15 [12, 13, 14] [] :=
    .label (by decide) (by decide) (.root (by decide) (by decide))
  have hab : Name aliases 58 25 [[97], [98]] 29 [25, 26, 27, 28, 12, 13, 14] [27] :=
    .label (by decide) (by decide)
      (.pointer (by decide) (by decide) hb (by decide))
  have hsecond : Name aliases 58 29 [[97], [98]] 31 [29, 30, 25, 26, 27, 28, 12, 13, 14]
      [29, 27] := .pointer (by decide) (by decide) hab (by decide)
  have hthird : Name aliases 58 42 [[97], [98]] 44 [42, 43, 25, 26, 27, 28, 12, 13, 14]
      [42, 27] := .pointer (by decide) (by decide) hab (by decide)
  refine ⟨by decide, 12, .none, ?_⟩
  refine .next hb (by decide) (by decide) (by decide) ?_
  refine .next hsecond (by decide) (by decide) (by decide) ?_
  exact .next hthird (by decide) (by decide) (by decide) .none

/-- The address of a longer name is found; and an address is not found behind a pointer that was
followed before. -/
theorem wrong_addresses :
    (Response longerName 33 [longerRecord] ∧
      ¬ FindsAddress [97, 46, 98] longerName (fun _ => 0) [longerRecord]) ∧
    Response aliases 58 aliasRecords ∧
      firstAddress (Record.IsFor [97, 46, 98]) aliasRecords = 0x0100000A ∧
        (dnsGeta 10 [97, 46, 98] aliases fun _ => 0).2 = some uSyserr := by
  refine ⟨⟨longerName_response, ?_⟩, aliases_response, by decide +kernel, by decide +kernel⟩
  rintro ⟨G, hG⟩
  obtain ⟨F, hF⟩ := dnsGeta_eq (show 0 ∉ [97, 46, 98] by decide) longerName_response
    ⟨by simp, Or.inl ⟨by decide, by decide⟩⟩ fun _ => 0
  have hboth := (hF (max F G) (by omega)).symm.trans (hG (max F G) (by omega))
  exact absurd (Option.some.inj hboth) (by decide)

end Dns
end Net
end Xinu
