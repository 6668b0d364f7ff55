import Xinu.Net.DnsNames

/-!
# Questions

Main results:

- Theorem `dnsBldq_eq`: the bytes that `dns_bldq` writes for a string.
- Theorem `dnsGetrname_dnsBldq`: the name of a question is read back as it was written,
  with a dot behind it.
- Theorem `question_iff`: `dns_bldq` rejects what it cannot encode, and `dns_qa` sends no
  question for it, exactly for strings of labels that the data area has room for.
-/

namespace Xinu
namespace Net
namespace Dns

open Foundations Function Lib DottedQuad

/-! ## The loop over the characters -/

section Encoding

variable {b : Bldq} {data : Chars} {done : List (List UInt8)} {cur s : List UInt8} {c : UInt8}

/-- What the loop has written for the labels `done` and the characters `cur` of the next
label.  A length is the number of characters modulo 256. -/
structure Encoded (data : Chars) (done : List (List UInt8)) (cur : List UInt8) (b : Bldq) :
    Prop where
  bytes : Bytes b.memory 0 (wire (done ++ [cur]))
  llptr : b.llptr = (wire done).length
  pos : b.pos = (wire (done ++ [cur])).length
  qlen : b.qlen = b.pos
  outside : ∀ i, b.pos ≤ i → b.memory i = data i

theorem wire_append (ls ls' : List (List UInt8)) : wire (ls ++ ls') = wire ls ++ wire ls' :=
  List.flatMap_append

theorem wire_snoc (ls : List (List UInt8)) (l : List UInt8) :
    wire (ls ++ [l]) = wire ls ++ UInt8.ofNat l.length :: l := by
  rw [wire_append, wire_cons]
  simp [wire]

theorem length_wire_snoc (ls : List (List UInt8)) (l : List UInt8) :
    (wire (ls ++ [l])).length = (wire ls).length + 1 + l.length := by
  rw [wire_snoc]
  simp
  omega

theorem encoded_start (data : Chars) :
    Encoded data [] []
      { ({ memory := data, pos := 0, llptr := 0, qlen := 0 } : Bldq).label with qlen := 1 } := by
  constructor
  · exact bytes_singleton_iff.mpr (update_self 0 0 data : update data 0 0 0 = 0)
  · rfl
  · rfl
  · rfl
  · intro i hi
    exact update_of_ne (Nat.ne_of_gt hi) _ _

/-- A character that belongs to the label. -/
theorem Encoded.char (h : Encoded data done cur b) (hc : c ≠ dot) :
    Encoded data done (cur ++ [c]) (b.char c) := by
  have hpos := h.pos
  rw [length_wire_snoc] at hpos
  have hbytes := h.bytes
  rw [wire_snoc, bytes_append_iff, bytes_cons_iff, Nat.zero_add] at hbytes
  obtain ⟨hdone, hlen, hcur⟩ := hbytes
  have hmemory : (b.char c).memory = update (update b.memory b.pos c) b.llptr
      (b.memory b.llptr + 1) := by
    unfold Bldq.char Bldq.put
    rw [if_pos hc]
    simp only [update_of_ne (show b.llptr ≠ b.pos by rw [h.llptr]; omega)]
  have hfields : (b.char c).llptr = b.llptr ∧ (b.char c).pos = b.pos + 1 ∧
      (b.char c).qlen = b.qlen + 1 := by
    unfold Bldq.char
    rw [if_pos hc]
    exact ⟨rfl, rfl, rfl⟩
  constructor
  · rw [hmemory, wire_snoc, bytes_append_iff, bytes_cons_iff, bytes_append_iff,
      bytes_singleton_iff, Nat.zero_add]
    refine ⟨?_, ?_, ?_, ?_⟩
    · apply hdone.congr
      intro i _ hi
      rw [update_of_ne (by rw [h.llptr]; omega), update_of_ne (by omega)]
    · rw [← h.llptr, update_self, h.llptr, hlen]
      simp
    · apply hcur.congr
      intro i hlo hi
      rw [update_of_ne (by rw [h.llptr]; omega), update_of_ne (by omega)]
    · rw [update_of_ne (by rw [h.llptr]; omega), ← hpos, update_self]
  · exact hfields.1.trans h.llptr
  · rw [hfields.2.1, hpos, length_wire_snoc]
    simp
    omega
  · rw [hfields.2.1, hfields.2.2, h.qlen]
  · intro i hi
    rw [hfields.2.1] at hi
    rw [hmemory, update_of_ne (by rw [h.llptr]; omega), update_of_ne (by omega)]
    exact h.outside i (by omega)

/-- A dot begins a label. -/
theorem Encoded.dot (h : Encoded data done cur b) :
    Encoded data (done ++ [cur]) [] (b.char dot) := by
  have hchar : b.char DottedQuad.dot = { b.label with qlen := b.qlen + 1 } :=
    if_neg (not_not.mpr rfl)
  rw [hchar]
  constructor
  · rw [wire_snoc (done ++ [cur]), bytes_append_iff, bytes_cons_iff, Nat.zero_add, ← h.pos]
    refine ⟨?_, update_self _ _ _, fun i hi => absurd hi (Nat.not_lt_zero i)⟩
    apply h.bytes.congr
    intro i _ hi
    rw [← h.pos] at hi
    exact update_of_ne (by omega) _ _
  · exact h.pos
  · rw [length_wire_snoc, ← h.pos]
    rfl
  · exact congrArg (· + 1) h.qlen
  · intro i hi
    refine (update_of_ne (Nat.ne_of_gt hi) _ _).trans ?_
    exact h.outside i (Nat.le_of_succ_le hi)

theorem char_qlen (b : Bldq) (c : UInt8) : (b.char c).qlen = b.qlen + 1 := by
  unfold Bldq.char
  split <;> rfl

/-- The whole string: its labels are what lies between the dots. -/
theorem bldqLoop_encoded (h : Encoded data done cur b) (hcur : DottedQuad.dot ∉ cur)
    (hroom : b.qlen + s.length ≤ 512) :
    ∃ done' cur' b', bldqLoop s b = (true, b') ∧ Encoded data done' cur' b' ∧
      done' ++ [cur'] = done ++ (cur ++ s).splitOn DottedQuad.dot := by
  induction s generalizing b done cur with
  | nil =>
      refine ⟨done, cur, b, rfl, h, ?_⟩
      rw [List.append_nil, List.splitOn_eq_singleton hcur]
  | cons c s ih =>
      have hqlen := char_qlen b c
      rw [List.length_cons] at hroom
      rw [bldqLoop, if_neg (by omega)]
      by_cases hc : c = DottedQuad.dot
      · subst hc
        obtain ⟨done', cur', b', hrun, hb', hparts⟩ := ih h.dot List.not_mem_nil (by omega)
        refine ⟨done', cur', b', hrun, hb', ?_⟩
        rw [hparts, List.splitOn_append_cons_self_of_not_mem hcur]
        simp
      · have hcur' : DottedQuad.dot ∉ cur ++ [c] := by
          simp [hcur, Ne.symm hc]
        obtain ⟨done', cur', b', hrun, hb', hparts⟩ := ih (h.char hc) hcur' (by omega)
        refine ⟨done', cur', b', hrun, hb', ?_⟩
        rw [hparts]
        simp

/-- A string that is too long is rejected. -/
theorem bldqLoop_rejects (hroom : 512 < b.qlen + s.length) :
    (bldqLoop s b).1 = false ∨ 512 < b.qlen := by
  induction s generalizing b with
  | nil => exact Or.inr hroom
  | cons c s ih =>
      rw [List.length_cons] at hroom
      rw [bldqLoop]
      by_cases hfull : 512 ≤ b.qlen
      · rw [if_pos hfull]
        exact Or.inl rfl
      · rw [if_neg hfull]
        have hnext := ih (b := b.char c) (by rw [char_qlen]; omega)
        rw [char_qlen] at hnext
        exact Or.inl (hnext.resolve_right (by omega))

theorem length_wire_splitOn (s : List UInt8) :
    (wire (s.splitOn DottedQuad.dot)).length = s.length + 1 := by
  rcases splitOn_cases DottedQuad.dot s with ⟨hparts, -⟩ | ⟨p, t, rfl, -, hparts⟩
  · rw [hparts]
    simp [wire]
  · rw [hparts, wire_cons, List.length_cons, List.length_append, length_wire_splitOn t]
    simp
termination_by s.length

end Encoding

/-- What follows the name in a question: `DNS_QT_A` and `DNS_QC_IN`. -/
def questionEnd : List UInt8 := [0, 1, 0, 1]

/-- A string of less than 512 characters is encoded, behind which nothing is written. -/
theorem dnsBldq_accepts {s : List UInt8} (h : s.length < 512) (data : Chars) :
    (dnsBldq s data).1 = UInt32.ofNat (s.length + 6) ∧
      Bytes (dnsBldq s data).2 0 (wire (s.splitOn DottedQuad.dot) ++ 0 :: questionEnd) ∧
        ∀ i, s.length + 6 ≤ i → (dnsBldq s data).2 i = data i := by
  obtain ⟨done, cur, b, hrun, hb, hparts⟩ := bldqLoop_encoded (s := s) (encoded_start data)
    List.not_mem_nil (by show 1 + s.length ≤ 512; omega)
  rw [List.nil_append, List.nil_append] at hparts
  have hlen := length_wire_splitOn s
  have hpos := hb.pos
  have hbytes := hb.bytes
  rw [hparts] at hpos hbytes
  rw [hlen] at hpos
  have heq : dnsBldq s data =
      (UInt32.ofNat (b.qlen + 5), (((b.put 0).put16 dnsQtA).put16 dnsQcIn).memory) := by
    unfold dnsBldq
    simp only [hrun]
  have hmemory : (((b.put 0).put16 dnsQtA).put16 dnsQcIn).memory =
      update (update (update (update (update b.memory b.pos 0) (b.pos + 1) 0) (b.pos + 2) 1)
        (b.pos + 3) 0) (b.pos + 4) 1 := rfl
  rw [heq, hmemory]
  refine ⟨?_, ?_, ?_⟩
  · rw [hb.qlen, hpos]
  · rw [bytes_append_iff, hlen, Nat.zero_add, ← hpos]
    constructor
    · apply hbytes.congr
      intro i _ hi
      rw [hlen, Nat.zero_add, ← hpos] at hi
      simp [update_of_ne, show i ≠ b.pos by omega, show i ≠ b.pos + 1 by omega,
        show i ≠ b.pos + 2 by omega, show i ≠ b.pos + 3 by omega, show i ≠ b.pos + 4 by omega]
    · intro i hi
      simp only [questionEnd, List.length_cons, List.length_nil] at hi
      interval_cases i <;> simp [questionEnd, update]
  · intro i hi
    simp only
    rw [update_of_ne (by omega), update_of_ne (by omega), update_of_ne (by omega),
      update_of_ne (by omega), update_of_ne (by omega)]
    exact hb.outside i (by omega)

theorem dnsBldq_rejects {s : List UInt8} (h : 512 ≤ s.length) (data : Chars) :
    (dnsBldq s data).1 = uSyserr := by
  obtain ⟨b, hb, hqlen⟩ : ∃ b : Bldq, { ({ memory := data, pos := 0, llptr := 0, qlen := 0 } :
      Bldq).label with qlen := 1 } = b ∧ b.qlen = 1 := ⟨_, rfl, rfl⟩
  have hfalse : (bldqLoop s b).1 = false :=
    (bldqLoop_rejects (by omega)).resolve_right (by omega)
  unfold dnsBldq
  simp only [hb]
  split
  · rfl
  · simp_all

/-! ## The round trip -/

/-- The labels with dots between them, as a name is written. -/
def nameOf (ls : List (List UInt8)) : List UInt8 :=
  [dot].intercalate ls

theorem expansion_eq_nameOf {ls : List (List UInt8)} (hne : ls ≠ []) :
    expansion ls = nameOf ls ++ [DottedQuad.dot] := by
  unfold nameOf
  induction ls with
  | nil => exact absurd rfl hne
  | cons l ls ih =>
      rw [expansion_cons]
      cases ls with
      | nil => simp [expansion]
      | cons l' ls =>
          rw [ih (List.cons_ne_nil _ _), List.intercalate_cons_cons]
          simp

theorem length_le_expansion (ls : List (List UInt8)) : ls.length ≤ (expansion ls).length := by
  induction ls with
  | nil => simp
  | cons l ls ih =>
      rw [expansion_cons]
      simp
      omega

theorem bytes_shift {pkt data : Chars} {off : Nat} {bs : List UInt8}
    (hsame : ∀ i, pkt (off + i) = data i) (h : Bytes data 0 bs) : Bytes pkt off bs := by
  intro i hi
  rw [hsame, ← h i hi, Nat.zero_add]

theorem spells_of_bytes {b : Chars} {s : List UInt8} (h : Bytes b 0 (s ++ [0])) (hs : 0 ∉ s) :
    Spells b s := by
  rw [bytes_append_iff, bytes_singleton_iff, Nat.zero_add] at h
  refine ⟨fun i hi => ?_, h.2, hs⟩
  rw [← h.1 i hi, Nat.zero_add]

theorem zero_not_mem_expansion {ls : List (List UInt8)} (h : ∀ l ∈ ls, 0 ∉ l) :
    0 ∉ expansion ls := by
  have hdot : (0 : UInt8) ≠ DottedQuad.dot := by decide
  unfold expansion
  simp only [List.mem_flatMap, List.mem_append, List.mem_singleton, not_exists, not_and, not_or]
  exact fun l hl => ⟨h l hl, hdot⟩

/-- The name of a question that lies in a packet is read back with one dot behind it, and the
offset returned is where the query type lies: four bytes before the end of the question. -/
theorem dnsGetrname_dnsBldq {ls : List (List UInt8)} (hne : ls ≠ [])
    (hlabels : ∀ l ∈ ls, IsLabel l ∧ DottedQuad.dot ∉ l ∧ 0 ∉ l)
    (hlen : (nameOf ls).length < 255) (data : Chars) {m : NameMem} {son : Nat}
    (hquestion : ∀ i, m.pkt (son + i) = (dnsBldq (nameOf ls) data).2 i) {fuel : Nat}
    (hfuel : 255 < fuel) :
    ∃ m' off, dnsGetrname fuel son 0 m = (m', some off) ∧
      Spells m'.dst (nameOf ls ++ [DottedQuad.dot]) ∧
        off + 4 = (dnsBldq (nameOf ls) data).1.toNat ∧ ntohs m'.pkt (son + off) = dnsQtA := by
  have hparts : (nameOf ls).splitOn DottedQuad.dot = ls :=
    List.splitOn_intercalate DottedQuad.dot (fun l hl => (hlabels l hl).2.1) hne
  obtain ⟨hqlen, hbytes, -⟩ := dnsBldq_accepts (s := nameOf ls) (by omega) data
  have hwire := length_wire_splitOn (nameOf ls)
  rw [hparts] at hbytes hwire
  have hpkt := bytes_shift hquestion hbytes
  rw [List.append_cons, bytes_append_iff, List.length_append, hwire] at hpkt
  have hfew : ls.length ≤ 255 := by
    have hle := length_le_expansion ls
    rw [length_expansion, hwire] at hle
    omega
  obtain ⟨m', hrun, hsame, hdst⟩ := @dnsGetrname_labels fuel son 0 m ls
    (fun l hl => (hlabels l hl).1) hpkt.1 (Nat.lt_of_le_of_lt hfew hfuel)
  refine ⟨m', _, hrun, ?_, ?_, ?_⟩
  · rw [← expansion_eq_nameOf hne]
    exact spells_of_bytes hdst (zero_not_mem_expansion fun l hl => (hlabels l hl).2.2)
  · rw [hqlen, hwire, UInt32.toNat_ofNat']
    omega
  · rw [hsame, hwire]
    have hhigh : m.pkt (son + ((nameOf ls).length + 1 + 1)) = 0 := hpkt.2 0 (by decide)
    have hlow : m.pkt (son + ((nameOf ls).length + 1 + 1) + 1) = 1 := hpkt.2 1 (by decide)
    unfold ntohs
    rw [hhigh, hlow]
    rfl

/-- The name `"a.b"`. -/
theorem two_labels_read_back :
    ∃ m' off, dnsGetrname 256 12 0
        { pkt := fun i => (dnsBldq (nameOf [[97], [98]]) fun _ => 0).2 (i - 12),
          dst := fun _ => 0, touched := [] } =
        (m', some off) ∧
      Spells m'.dst (nameOf [[97], [98]] ++ [DottedQuad.dot]) ∧
        off + 4 = (dnsBldq (nameOf [[97], [98]]) fun _ => 0).1.toNat ∧
          ntohs m'.pkt (12 + off) = dnsQtA := by
  apply dnsGetrname_dnsBldq (by decide) (by decide) (by decide) (fun _ => 0) _ (by decide)
  intro i
  simp

/-! ## What cannot be encoded -/

/-- The bytes of a question whose name is a sequence of labels, inside the data area. -/
structure IsQuestion (data : Chars) (question : UInt32 × Chars) : Prop where
  inside : ∀ i, dataSize ≤ i → question.2 i = data i
  labels : ∃ ls, (∀ l ∈ ls, IsLabel l) ∧ Bytes question.2 0 (wire ls ++ 0 :: questionEnd) ∧
    question.1.toNat = (wire ls).length + 5

/-- The string is rejected, whatever the memory holds. -/
def Rejected (s : List UInt8) : Prop :=
  ∀ data, (dnsBldq s data).1 = uSyserr

/-- A string is rejected or becomes a question, and no question is sent for a string that is
rejected. -/
structure AsksOnlyNames (s : List UInt8) : Prop where
  encodes : ∀ data, (dnsBldq s data).1 = uSyserr ∨ IsQuestion data (dnsBldq s data)
  sends : Rejected s → ∀ fuel net, (dnsQa fuel (some s) net).1 = []

/-- The parts of the string, of which one has more than 255 characters, look like other
labels: the characters behind a length modulo 256 are taken for a label and for lengths. -/
def Misread (s : List UInt8) : Prop :=
  (∃ p ∈ s.splitOn DottedQuad.dot, 255 < p.length) ∧
    ∃ ls, (∀ l ∈ ls, IsLabel l) ∧ wire ls = wire (s.splitOn DottedQuad.dot)

section Rejecting

variable {s : List UInt8} {ls ls' : List (List UInt8)}

theorem rejected_iff : Rejected s ↔ 512 ≤ s.length := by
  constructor
  · intro h
    by_contra hshort
    have hok := (dnsBldq_accepts (Nat.lt_of_not_le hshort) fun _ => 0).1
    rw [h] at hok
    have hnat := congrArg UInt32.toNat hok
    rw [UInt32.toNat_ofNat', Nat.mod_eq_of_lt (by omega)] at hnat
    have hall : uSyserr.toNat = 4294967295 := rfl
    omega
  · exact dnsBldq_rejects

theorem qaLoop_sends (fuel : Nat) (dname : List UInt8) (net : Network) (query : Sent) (k : Nat)
    (ipaddr : UInt32) : (qaLoop fuel dname net query (k + 1) ipaddr).1 ≠ [] := by
  rw [qaLoop]
  split
  · exact List.cons_ne_nil _ _
  · exact List.cons_ne_nil _ _

/-- The query is sent for every name, also for one that is rejected. -/
theorem dnsQa_sends (fuel : Nat) (s : List UInt8) {net : Network} {qpkt rpkt : Chars}
    (hregisters : net.registers = true) (hqpkt : net.qpkt = some qpkt)
    (hrpkt : net.rpkt = some rpkt) : (dnsQa fuel (some s) net).1 ≠ [] := by
  unfold dnsQa
  rw [hregisters, hqpkt, hrpkt]
  exact qaLoop_sends fuel s net _ 2 uSyserr

/-- A host that has a slot and memory, and gets no response. -/
def silent : Network :=
  { registers := true, qpkt := some fun _ => 0, rpkt := some fun _ => 0, currpid := 0,
    recv := fun _ => .timeout, rname := fun _ => 0 }

/-- Labels of up to 255 bytes are told apart by their lengths. -/
theorem wire_injective (h : ∀ l ∈ ls, l.length ≤ 255) (h' : ∀ l ∈ ls', l.length ≤ 255)
    (heq : wire ls = wire ls') : ls = ls' := by
  induction ls generalizing ls' with
  | nil =>
      cases ls' with
      | nil => rfl
      | cons l' ls' =>
          rw [wire_cons] at heq
          exact absurd heq (List.cons_ne_nil _ _).symm
  | cons l ls ih =>
      cases ls' with
      | nil =>
          rw [wire_cons] at heq
          exact absurd heq (List.cons_ne_nil _ _)
      | cons l' ls' =>
          rw [wire_cons, wire_cons, List.cons.injEq] at heq
          have hl := h l List.mem_cons_self
          have hl' := h' l' List.mem_cons_self
          have hlen : l.length = l'.length := by
            have hnat := congrArg UInt8.toNat heq.1
            rw [UInt8.toNat_ofNat', UInt8.toNat_ofNat'] at hnat
            omega
          obtain ⟨hhead, htail⟩ := List.append_inj heq.2 hlen
          rw [hhead, ih (fun p hp => h p (List.mem_cons_of_mem l hp))
            (fun p hp => h' p (List.mem_cons_of_mem l' hp)) htail]

/-- What a string of labels and a string that is misread have in common. -/
theorem legible_iff : (∃ ls, (∀ l ∈ ls, IsLabel l) ∧ wire ls = wire (s.splitOn DottedQuad.dot)) ↔
    (∀ p ∈ s.splitOn DottedQuad.dot, IsLabel p) ∨ Misread s := by
  constructor
  · rintro ⟨ls, hlabels, hwire⟩
    by_cases hlong : ∃ p ∈ s.splitOn DottedQuad.dot, 255 < p.length
    · exact Or.inr ⟨hlong, ls, hlabels, hwire⟩
    · left
      have hshort : ∀ p ∈ s.splitOn DottedQuad.dot, p.length ≤ 255 := by
        intro p hp
        by_contra hp'
        exact hlong ⟨p, hp, by omega⟩
      rw [← wire_injective (fun l hl => (hlabels l hl).2.trans (by decide)) hshort hwire]
      exact hlabels
  · rintro (hlabels | ⟨-, hread⟩)
    · exact ⟨_, hlabels, rfl⟩
    · exact hread

/--
`dns_bldq` rejects what it cannot encode, and `dns_qa` sends nothing for it, exactly for strings
of labels for which the data area has room; but a string with a part of more than 255 characters
may look like other labels.
-/
theorem question_iff (s : List UInt8) :
    AsksOnlyNames s ↔ s.length + 6 ≤ dataSize ∧
      ((∀ p ∈ s.splitOn DottedQuad.dot, IsLabel p) ∨ Misread s) := by
  rw [← legible_iff]
  constructor
  · intro h
    have hshort : s.length < 512 := by
      by_contra hlong
      exact dnsQa_sends 0 s rfl rfl rfl
        (h.sends (rejected_iff.mpr (Nat.le_of_not_lt hlong)) 0 silent)
    obtain ⟨hqlen, hbytes, -⟩ := dnsBldq_accepts hshort fun _ => 7
    have hnat : (dnsBldq s fun _ => 7).1.toNat = s.length + 6 := by
      rw [hqlen, UInt32.toNat_ofNat']
      omega
    have hwire := length_wire_splitOn s
    rcases h.encodes fun _ => 7 with hsyserr | ⟨hinside, ls, hlabels, hquestion, hlen⟩
    · rw [hsyserr, show uSyserr.toNat = 4294967295 from rfl] at hnat
      omega
    · constructor
      · by_contra hroom
        have hlast := (bytes_append_iff.mp hbytes).2 4 (by decide)
        rw [hwire, hinside _ (by omega)] at hlast
        exact absurd hlast (by decide)
      · have heq := Bytes.unique hquestion hbytes (by simp; omega)
        exact ⟨ls, hlabels, List.append_cancel_right heq⟩
  · rintro ⟨hroom, ls, hlabels, hwire⟩
    have hshort : s.length < 512 := by
      unfold dataSize at hroom
      omega
    constructor
    · intro data
      obtain ⟨hqlen, hbytes, hout⟩ := dnsBldq_accepts hshort data
      right
      constructor
      · exact fun i hi => hout i (hroom.trans hi)
      · refine ⟨ls, hlabels, by rwa [hwire], ?_⟩
        rw [hqlen, hwire, length_wire_splitOn, UInt32.toNat_ofNat']
        omega
    · intro hrejected
      rw [rejected_iff] at hrejected
      omega

end Rejecting

/-- A label of 64 characters is encoded; and a name of 512 characters is rejected, but a query
without a question is sent for it three times. -/
theorem long_label_encoded :
    ¬ AsksOnlyNames (List.replicate 64 97) ∧ Rejected (List.replicate 512 97) ∧
      (dnsQa 0 (some (List.replicate 512 97)) silent).1.map (fun query => query.len) =
        [11, 11, 11] := by
  refine ⟨?_, rejected_iff.mpr (Nat.le_of_eq List.length_replicate.symm), by decide +kernel⟩
  intro h
  have hfirst : (dnsBldq (List.replicate 64 97) fun _ => 0).2 0 = 64 := by decide +kernel
  have hok : (dnsBldq (List.replicate 64 97) fun _ => 0).1 ≠ uSyserr := by decide +kernel
  obtain ⟨-, ls, hlabels, hbytes, -⟩ := (h.encodes fun _ => 0).resolve_left hok
  cases ls with
  | nil =>
      have hzero := hbytes 0 (by simp)
      exact absurd (hfirst.symm.trans hzero) (by decide)
  | cons l ls =>
      have hlabel := hlabels l List.mem_cons_self
      rw [wire_cons, List.cons_append, bytes_cons_iff, hfirst] at hbytes
      have hle := hlabel.length_le
      rw [← hbytes.1] at hle
      exact absurd hle (by decide)

end Dns
end Net
end Xinu
