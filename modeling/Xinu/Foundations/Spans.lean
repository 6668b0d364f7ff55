import Mathlib.Data.List.Pairwise
import Mathlib.Tactic.Tauto

/-!
# Separated lists of spans

A finite set of addresses can be kept as a list of spans in increasing order
between which there are gaps.  Such a list is determined by the set it covers,
and three local changes give all the operations of a free list: dropping a
span, shrinking it, and joining a new one to its neighbours.

Main results:

- Theorem `Separated.ext`: two separated lists that cover the same addresses
  are equal.
- Theorems `Separated.drop` and `Separated.shrink`: taking addresses away.
- Theorem `Separated.link` and `Separated.joinPrev`: giving addresses back.
-/

namespace Xinu
namespace Foundations

/-- The addresses from `start` on, `size` many. -/
structure Span where
  start : Nat
  size : Nat
deriving DecidableEq, Repr

namespace Span

/-- The first address after the span. -/
def stop (b : Span) : Nat :=
  b.start + b.size

def Contains (b : Span) (x : Nat) : Prop :=
  b.start ≤ x ∧ x < b.stop

/-- No address is in both spans. -/
def Apart (b c : Span) : Prop :=
  ∀ x, b.Contains x → ¬ c.Contains x

instance (b : Span) (x : Nat) : Decidable (b.Contains x) :=
  inferInstanceAs (Decidable (_ ∧ _))

theorem Apart.symm {b c : Span} (h : b.Apart c) : c.Apart b :=
  fun x hc hb => h x hb hc

end Span

/-- The addresses that the spans of `l` cover. -/
def Covers (l : List Span) (x : Nat) : Prop :=
  ∃ b ∈ l, b.Contains x

@[simp]
theorem covers_nil (x : Nat) : ¬ Covers [] x := by
  simp [Covers]

@[simp]
theorem covers_cons (b : Span) (l : List Span) (x : Nat) :
    Covers (b :: l) x ↔ b.Contains x ∨ Covers l x := by
  simp [Covers]

@[simp]
theorem covers_append (l m : List Span) (x : Nat) :
    Covers (l ++ m) x ↔ Covers l x ∨ Covers m x := by
  simp only [Covers, List.mem_append]
  constructor
  · rintro ⟨b, hb | hb, hx⟩
    · exact Or.inl ⟨b, hb, hx⟩
    · exact Or.inr ⟨b, hb, hx⟩
  · rintro (⟨b, hb, hx⟩ | ⟨b, hb, hx⟩)
    · exact ⟨b, Or.inl hb, hx⟩
    · exact ⟨b, Or.inr hb, hx⟩

/-- Nonempty spans in increasing order, no two of them adjacent. -/
structure Separated (l : List Span) : Prop where
  size_pos : ∀ b ∈ l, 0 < b.size
  gaps : l.Pairwise fun b c => b.stop < c.start

namespace Separated

variable {l m : List Span} {b c : Span}

theorem nil : Separated [] :=
  ⟨by simp, List.Pairwise.nil⟩

theorem singleton (hb : 0 < b.size) : Separated [b] :=
  ⟨by simpa using hb, List.pairwise_singleton _ b⟩

theorem cons_iff :
    Separated (b :: l) ↔ 0 < b.size ∧ (∀ c ∈ l, b.stop < c.start) ∧ Separated l := by
  constructor
  · intro h
    have hgaps := List.pairwise_cons.mp h.gaps
    exact ⟨h.size_pos b (by simp), hgaps.1,
      fun c hc => h.size_pos c (List.mem_cons_of_mem b hc), hgaps.2⟩
  · rintro ⟨hb, hgap, hl⟩
    refine ⟨?_, List.pairwise_cons.mpr ⟨hgap, hl.gaps⟩⟩
    intro c hc
    rcases List.mem_cons.mp hc with rfl | hc
    · exact hb
    · exact hl.size_pos c hc

theorem append_iff :
    Separated (l ++ m) ↔
      Separated l ∧ Separated m ∧ ∀ b ∈ l, ∀ c ∈ m, b.stop < c.start := by
  constructor
  · intro h
    have hgaps := List.pairwise_append.mp h.gaps
    exact ⟨⟨fun b hb => h.size_pos b (List.mem_append_left m hb), hgaps.1⟩,
      ⟨fun b hb => h.size_pos b (List.mem_append_right l hb), hgaps.2.1⟩, hgaps.2.2⟩
  · rintro ⟨hl, hm, hlm⟩
    refine ⟨?_, List.pairwise_append.mpr ⟨hl.gaps, hm.gaps, hlm⟩⟩
    intro b hb
    rcases List.mem_append.mp hb with hb | hb
    · exact hl.size_pos b hb
    · exact hm.size_pos b hb

/-- Addresses in a row that are all covered are in one span. -/
theorem exists_of_covers (h : Separated l) (hc : 0 < c.size)
    (hcovers : ∀ x, c.Contains x → Covers l x) : ∃ b ∈ l, b.start ≤ c.start ∧ c.stop ≤ b.stop := by
  obtain ⟨b, hb, hlow, hhigh⟩ := hcovers c.start ⟨Nat.le_refl _, by unfold Span.stop; omega⟩
  refine ⟨b, hb, hlow, ?_⟩
  by_contra hlt
  obtain ⟨d, hd, hdlow, hdhigh⟩ := hcovers b.stop ⟨by omega, by omega⟩
  obtain ⟨l₁, l₂, rfl⟩ := List.append_of_mem hb
  have hgap := append_iff.mp h
  rcases List.mem_append.mp hd with hd | hd
  · have hdb := hgap.2.2 d hd b (by simp)
    have hbstop : b.stop = b.start + b.size := rfl
    omega
  · rcases List.mem_cons.mp hd with rfl | hd
    · omega
    · have hbd := (cons_iff.mp hgap.2.1).2.1 d hd
      omega

/-- A separated list within bounds has no more spans than addresses. -/
theorem length_add_le {lo hi : Nat} (h : Separated l) (hle : lo ≤ hi)
    (hl : ∀ b ∈ l, lo ≤ b.start ∧ b.stop ≤ hi) : l.length + lo ≤ hi := by
  induction l generalizing lo with
  | nil => simpa using hle
  | cons b l ih =>
      obtain ⟨hb, hgap, hsep⟩ := cons_iff.mp h
      have hbounds := hl b (by simp)
      have hrest := ih hsep hbounds.2 fun c hc =>
        ⟨Nat.le_of_lt (hgap c hc), (hl c (List.mem_cons_of_mem b hc)).2⟩
      have hstop : b.stop = b.start + b.size := rfl
      simp only [List.length_cons]
      omega

/-- The starts of a separated list are distinct. -/
theorem start_ne (h : Separated (l ++ b :: m)) (hc : c ∈ l ∨ c ∈ m) : c.start ≠ b.start := by
  obtain ⟨hl, hbm, hgap⟩ := append_iff.mp h
  obtain ⟨hb, hgap', -⟩ := cons_iff.mp hbm
  rcases hc with hc | hc
  · have hlt : c.stop < b.start := hgap c hc b (by simp)
    unfold Span.stop at hlt
    omega
  · have hlt : b.stop < c.start := hgap' c hc
    unfold Span.stop at hlt
    omega

/-- The covered addresses determine a separated list. -/
theorem ext {l' : List Span} (h : Separated l) (h' : Separated l')
    (hcov : ∀ x, Covers l x ↔ Covers l' x) : l = l' := by
  induction l generalizing l' with
  | nil =>
      cases l' with
      | nil => rfl
      | cons b l' =>
          have hb := (cons_iff.mp h').1
          have hin : Covers (b :: l') b.start :=
            (covers_cons _ _ _).mpr (Or.inl ⟨Nat.le_refl _, by unfold Span.stop; omega⟩)
          exact ((covers_nil _) ((hcov _).mpr hin)).elim
  | cons b l ih =>
      cases l' with
      | nil =>
          have hb := (cons_iff.mp h).1
          have hin : Covers (b :: l) b.start :=
            (covers_cons _ _ _).mpr (Or.inl ⟨Nat.le_refl _, by unfold Span.stop; omega⟩)
          exact ((covers_nil _) ((hcov _).mp hin)).elim
      | cons c l' =>
          obtain ⟨hb, hgap, hsep⟩ := cons_iff.mp h
          obtain ⟨hc, hgap', hsep'⟩ := cons_iff.mp h'
          -- membership of an address in either list, as arithmetic on the first span
          have hl : ∀ x, Covers l x → b.stop < x := by
            rintro x ⟨d, hd, hx⟩
            exact Nat.lt_of_lt_of_le (hgap d hd) hx.1
          have hl' : ∀ x, Covers l' x → c.stop < x := by
            rintro x ⟨d, hd, hx⟩
            exact Nat.lt_of_lt_of_le (hgap' d hd) hx.1
          simp only [covers_cons, Span.Contains] at hcov
          have hbs : b.stop = b.start + b.size := rfl
          have hcs : c.stop = c.start + c.size := rfl
          have hstart : b.start = c.start := by
            have h1 : c.start ≤ b.start := by
              rcases (hcov b.start).mp (Or.inl ⟨Nat.le_refl _, by omega⟩) with hx | hx
              · exact hx.1
              · have := hl' _ hx; omega
            have h2 : b.start ≤ c.start := by
              rcases (hcov c.start).mpr (Or.inl ⟨Nat.le_refl _, by omega⟩) with hx | hx
              · exact hx.1
              · have := hl _ hx; omega
            omega
          have hstop : b.stop = c.stop := by
            by_contra hne
            rcases Nat.lt_or_gt_of_ne hne with hlt | hlt
            · rcases (hcov b.stop).mpr (Or.inl ⟨by omega, hlt⟩) with hx | hx
              · omega
              · have := hl _ hx; omega
            · rcases (hcov c.stop).mp (Or.inl ⟨by omega, hlt⟩) with hx | hx
              · omega
              · have := hl' _ hx; omega
          have hbc : b = c := by
            cases b; cases c
            simp only [Span.stop, Span.mk.injEq] at hstart hstop ⊢
            omega
          subst c
          rw [ih hsep hsep' fun x => ?_]
          constructor
          · intro hx
            have := hl x hx
            exact ((hcov x).mp (Or.inr hx)).resolve_left fun hb => by omega
          · intro hx
            have := hl' x hx
            exact ((hcov x).mpr (Or.inr hx)).resolve_left fun hb => by omega

/-! ## Taking addresses away -/

/-- Drop a span. -/
theorem drop (h : Separated (l ++ b :: m)) :
    Separated (l ++ m) ∧
      ∀ x, Covers (l ++ m) x ↔ Covers (l ++ b :: m) x ∧ ¬ b.Contains x := by
  obtain ⟨hl, hbm, hgap⟩ := append_iff.mp h
  obtain ⟨hb, hgap', hm⟩ := cons_iff.mp hbm
  have hsep : Separated (l ++ m) :=
    append_iff.mpr ⟨hl, hm, fun d hd e he => hgap d hd e (List.mem_cons_of_mem b he)⟩
  refine ⟨hsep, fun x => ?_⟩
  have hout : Covers (l ++ m) x → ¬ b.Contains x := by
    rintro ⟨d, hd, hx⟩ hbx
    unfold Span.Contains at hx hbx
    rcases List.mem_append.mp hd with hd | hd
    · have := hgap d hd b (by simp); omega
    · have := hgap' d hd; omega
  simp only [covers_append, covers_cons] at hout ⊢
  tauto

/-- Replace a span by a part of it. -/
theorem shrink (h : Separated (l ++ b :: m)) (hc : 0 < c.size) (hstart : b.start ≤ c.start)
    (hstop : c.stop ≤ b.stop) :
    Separated (l ++ c :: m) ∧
      ∀ x, Covers (l ++ c :: m) x ↔
        Covers (l ++ b :: m) x ∧ (b.Contains x → c.Contains x) := by
  obtain ⟨hl, hbm, hgap⟩ := append_iff.mp h
  obtain ⟨hb, hgap', hm⟩ := cons_iff.mp hbm
  obtain ⟨-, hdrop⟩ := h.drop
  have hcm : Separated (c :: m) :=
    cons_iff.mpr ⟨hc, fun d hd => Nat.lt_of_le_of_lt hstop (hgap' d hd), hm⟩
  refine ⟨append_iff.mpr ⟨hl, hcm, ?_⟩, fun x => ?_⟩
  · intro d hd e he
    rcases List.mem_cons.mp he with rfl | he
    · exact Nat.lt_of_lt_of_le (hgap d hd b (by simp)) hstart
    · exact hgap d hd e (List.mem_cons_of_mem b he)
  · have hcb : c.Contains x → b.Contains x := by
      unfold Span.Contains; omega
    have hx := hdrop x
    simp only [covers_append, covers_cons] at hx ⊢
    tauto

/-! ## Giving addresses back -/

/-- Put the span `b` in front of the spans `m`, joined to the first if they touch. -/
def joinNext (b : Span) : List Span → List Span
  | [] => [b]
  | c :: m => if b.stop = c.start then ⟨b.start, b.size + c.size⟩ :: m else b :: c :: m

/-- Give back a span that touches none of the spans before it. -/
theorem link (h : Separated (l ++ m)) (hb : 0 < b.size) (hbefore : ∀ d ∈ l, d.stop < b.start)
    (hafter : ∀ d ∈ m, b.stop ≤ d.start) :
    Separated (l ++ joinNext b m) ∧
      ∀ x, Covers (l ++ joinNext b m) x ↔ Covers (l ++ m) x ∨ b.Contains x := by
  obtain ⟨hl, hm, hgap⟩ := append_iff.mp h
  cases m with
  | nil =>
      refine ⟨append_iff.mpr ⟨hl, singleton hb, by simpa [joinNext] using hbefore⟩, fun x => ?_⟩
      simp [joinNext]
  | cons c m =>
      obtain ⟨hc, hgap', hm'⟩ := cons_iff.mp hm
      have hbc := hafter c (by simp)
      by_cases htouch : b.stop = c.start
      · simp only [joinNext, if_pos htouch]
        have hjoined : Span.stop ⟨b.start, b.size + c.size⟩ = c.stop := by
          simp only [Span.stop] at htouch ⊢; omega
        refine ⟨append_iff.mpr ⟨hl, cons_iff.mpr ⟨?_, ?_, hm'⟩, ?_⟩, fun x => ?_⟩
        · simp only; omega
        · intro d hd; rw [hjoined]; exact hgap' d hd
        · intro d hd e he
          rcases List.mem_cons.mp he with rfl | he
          · exact hbefore d hd
          · exact hgap d hd e (List.mem_cons_of_mem c he)
        · have hx : Span.Contains ⟨b.start, b.size + c.size⟩ x ↔ c.Contains x ∨ b.Contains x := by
            simp only [Span.Contains, Span.stop] at htouch ⊢; omega
          simp only [covers_append, covers_cons, hx]
          tauto
      · simp only [joinNext, if_neg htouch]
        have hlt : b.stop < c.start := by omega
        refine ⟨append_iff.mpr ⟨hl, cons_iff.mpr ⟨hb, ?_, hm⟩, ?_⟩, fun x => ?_⟩
        · intro d hd
          rcases List.mem_cons.mp hd with rfl | hd
          · exact hlt
          · have hcd := hgap' d hd
            unfold Span.stop at hcd; omega
        · intro d hd e he
          rcases List.mem_cons.mp he with rfl | he
          · exact hbefore d hd
          · exact hgap d hd e he
        · simp only [covers_append, covers_cons]
          tauto

/-- Give back a span that touches the span `c` before it. -/
theorem joinPrev (h : Separated (l ++ c :: m)) (htouch : c.stop = b.start)
    (hafter : ∀ d ∈ m, b.stop ≤ d.start) :
    Separated (l ++ joinNext ⟨c.start, c.size + b.size⟩ m) ∧
      ∀ x, Covers (l ++ joinNext ⟨c.start, c.size + b.size⟩ m) x ↔
        Covers (l ++ c :: m) x ∨ b.Contains x := by
  obtain ⟨hl, hcm, hgap⟩ := append_iff.mp h
  have hc := (cons_iff.mp hcm).1
  obtain ⟨hsep, hcov⟩ := h.drop.1.link (b := ⟨c.start, c.size + b.size⟩) (by simp only; omega)
    (fun d hd => hgap d hd c (by simp)) (fun d hd => by
      have := hafter d hd
      simp only [Span.stop] at htouch this ⊢; omega)
  refine ⟨hsep, fun x => ?_⟩
  have hx : Span.Contains ⟨c.start, c.size + b.size⟩ x ↔ c.Contains x ∨ b.Contains x := by
    simp only [Span.Contains, Span.stop] at htouch ⊢; omega
  rw [hcov x, hx]
  simp only [covers_append, covers_cons]
  tauto

end Separated

end Foundations
end Xinu
