import Xinu.Memory.FreeList

/-!
# What is asked for, and what is given back

A request is rounded up to the size of a `memblk` in 32-bit arithmetic, and so is the size
of a block that is released.

Main results:

- Theorem `given_iff`: a request that succeeds gives as many bytes as were asked for, unless
  rounding wraps.
- Theorem `wrapped_request`: the request for which rounding wraps.
- Theorem `freed_as_before`: releasing a block gives back the free list as it was.
-/

namespace Xinu
namespace Memory

open Foundations

section Requests

variable {m m' : Heap} {l l' : List Span} {n : Nat}

/-! ## Requests -/

/-- The span `c` has `n` bytes or more, all of them free before, and none on the free list
after. -/
structure Obtained (m' : Heap) (l : List Span) (n : Nat) (c : Span) : Prop where
  enough : n ≤ c.size
  was_free : ∀ x, c.Contains x → Covers l x
  taken : ∃ l', FreeList m' l' ∧ ∀ x, c.Contains x → ¬ Covers l' x

/-- What `getmem` and `getstk` return is the low end, or the last word, of a block with as
many bytes as were asked for. -/
structure Given (m : Heap) (l : List Span) (n : Nat) : Prop where
  getmem : ∀ a m', getmem n m = .done (some a) m' → ∃ c, c.start = a ∧ Obtained m' l n c
  getstk : ∀ s m', getstk n m = .done (some s) m' → ∃ c, c.stop = s + 4 ∧ Obtained m' l n c

theorem Granted.obtained {c : Span} (h : Granted m m' l l' c) (hn : n ≤ c.size) :
    Obtained m' l n c := by
  refine ⟨hn, h.was_free, l', h.free, ?_⟩
  intro x hx hcovers
  exact ((h.covers x).mp hcovers).2 hx

/-- A block of the heap is smaller than a request that wraps. -/
theorem FreeList.not_obtained {c : Span} (h : FreeList m l) (hwrap : 0x100000000 ≤ n + 7)
    (hc : Obtained m' l n c) : False := by
  have hmax := h.maxheap_lt
  have henough := hc.enough
  have hpos : 8 < c.size := by omega
  have hcovers : ∀ x, c.Contains x → 8 ≤ x ∧ x < m.maxheap := by
    intro x hx
    obtain ⟨b, hb, hbx⟩ := hc.was_free x hx
    have hbounds := h.bounds b hb
    have haligned := (h.aligned b hb).1
    have hstart : 0 < b.start := Nat.pos_of_ne_zero (h.start_pos b hb)
    have hle : b.start ≤ x := hbx.1
    have hlt : x < b.stop := hbx.2
    omega
  have hlow := hcovers c.start ⟨Nat.le_refl _, by unfold Span.stop; omega⟩
  have hhigh := hcovers (c.start + c.size - 1) ⟨by omega, by unfold Span.stop; omega⟩
  omega

/-- Rounding wraps for the largest sizes only. -/
theorem roundmb_wraps (hn : n < 0x100000000) (hwrap : 0x100000000 ≤ n + 7) : roundmb n = 0 := by
  unfold roundmb u32
  omega

theorem FreeList.given (h : FreeList m l) (hn : n + 7 < 0x100000000) : Given m l n := by
  have hle : n ≤ roundmb n := le_roundmb hn
  constructor
  · intro a m' hrun
    rcases getmem_run (n := n) h with ⟨-, hfail⟩ | ⟨-, a', m₁, l', hdone, hgrant⟩
    · rw [hfail] at hrun
      cases hrun
    · rw [hdone] at hrun
      cases hrun
      exact ⟨_, rfl, hgrant.obtained hle⟩
  · intro s m' hrun
    rcases getstk_run (n := n) h with ⟨-, hfail⟩ | ⟨hpos, a', m₁, l', hdone, hgrant⟩
    · rw [hfail] at hrun
      cases hrun
    · rw [hdone] at hrun
      cases hrun
      refine ⟨_, ?_, hgrant.obtained hle⟩
      have h8 : 8 ∣ roundmb n := dvd_roundmb n
      show a' + roundmb n = a' + roundmb n - 4 + 4
      omega

/-- Without a free block every request fails. -/
theorem FreeList.refuses (h : FreeList m []) (n : Nat) :
    Memory.getmem n m = .done none m ∧ Memory.getstk n m = .done none m := by
  have hnext : m.mnext .memlist = null := h.chain
  constructor
  · by_cases hn : n = 0
    · simp [Memory.getmem, hn]
    · have hrun : Memory.getmem n m = getmemLoop (roundmb n) listFuel .memlist null m := by
        simp [Memory.getmem, hn, hnext]
      rw [hrun]
      rcases getmemLoop_run (k := roundmb n) h.chain h.start_pos (by simp) h.separated h.length_lt
        with ⟨-, hloop⟩ | ⟨l₁, b, l₂, hl, -⟩
      · exact hloop
      · simp at hl
  · by_cases hn : n = 0
    · simp [Memory.getstk, hn]
    · rcases @getstkLoop_run m [] (roundmb n) .memlist .memlist null listFuel h.chain h.start_pos
        h.length_lt with ⟨-, hloop⟩ | ⟨l₁, b, l₂, hl, -⟩
      · have hloop' : getstkLoop (roundmb n) listFuel .memlist null null .memlist m =
            .done (null, .memlist) m := hloop
        simp [Memory.getstk, hn, hnext, hloop']
      · simp at hl

/--
A request that succeeds gives as many bytes as were asked for if and only if rounding does
not wrap or there is no free block.
-/
theorem given_iff (h : FreeList m l) (hn : n < 0x100000000) :
    Given m l n ↔ n + 7 < 0x100000000 ∨ l = [] := by
  constructor
  · intro hgiven
    by_contra hcon
    rw [not_or, Nat.not_lt] at hcon
    obtain ⟨hwrap, hne⟩ := hcon
    have hzero := roundmb_wraps hn hwrap
    rcases getmem_run (n := n) h with ⟨hall, -⟩ | ⟨-, a, m', l', hdone, -⟩
    · obtain ⟨b, hb⟩ := List.exists_mem_of_ne_nil l hne
      rcases hall with rfl | hall
      · omega
      · have hlt := hall b hb
        omega
    · obtain ⟨c, -, hc⟩ := hgiven.getmem a m' hdone
      exact h.not_obtained hwrap hc
  · rintro (hlt | rfl)
    · exact h.given hlt
    · obtain ⟨hmem, hstk⟩ := h.refuses n
      constructor
      · intro a m' hrun
        rw [hmem] at hrun
        cases hrun
      · intro s m' hrun
        rw [hstk] at hrun
        cases hrun

/-! ## The free list before and after -/

/-- What a request grants was in one free block. -/
theorem Granted.fits {c : Span} (h : FreeList m l) (hgrant : Granted m m' l l' c)
    (hc : 0 < c.size) : ∃ b ∈ l, c.size ≤ b.size := by
  obtain ⟨b, hb, hlow, hhigh⟩ := h.separated.exists_of_covers hc hgrant.was_free
  refine ⟨b, hb, ?_⟩
  unfold Span.stop at hhigh
  omega

/-- A heap has one free list. -/
theorem FreeList.unique (h : FreeList m l) (h' : FreeList m l') : l = l' := by
  have hgen : ∀ (p : Blk) (l l' : List Span), Chain m p l null → Chain m p l' null →
      (∀ b ∈ l, b.start ≠ null) → (∀ b ∈ l', b.start ≠ null) → l = l' := by
    intro p l
    induction l generalizing p with
    | nil =>
        intro l' hl hl' _ hstart
        cases l' with
        | nil => rfl
        | cons b r => exact (hstart b (by simp) (hl'.1.1.symm.trans hl)).elim
    | cons b l ih =>
        intro l' hl hl' hstart hstart'
        cases l' with
        | nil => exact (hstart b (by simp) (hl.1.1.symm.trans hl')).elim
        | cons b' r =>
            obtain ⟨⟨hb, hlen⟩, hrest⟩ := hl
            obtain ⟨⟨hb', hlen'⟩, hrest'⟩ := hl'
            have hstarts : b.start = b'.start := hb.symm.trans hb'
            have hsizes : b.size = b'.size := by rw [← hlen, ← hlen', hstarts]
            have heq : b = b' := by
              cases b
              cases b'
              simp_all
            subst heq
            rw [ih _ _ hrest hrest' (fun x hx => hstart x (by simp [hx]))
              fun x hx => hstart' x (by simp [hx])]
  exact hgen _ _ _ h.chain h'.chain h.start_pos h'.start_pos

/-- A request that grants an address changes the free list. -/
theorem Granted.changes {c : Span} (hgrant : Granted m m' l l' c) (hc : 0 < c.size) :
    ¬ FreeList m' l := by
  intro hsame
  have hlow : c.Contains c.start := ⟨Nat.le_refl _, by unfold Span.stop; omega⟩
  have hcovers := hgrant.was_free c.start hlow
  rw [hsame.unique hgrant.free] at hcovers
  exact ((hgrant.covers c.start).mp hcovers).2 hlow

/-- A request that grants nothing leaves the free list as it was. -/
theorem Granted.same_list {c : Span} (h : FreeList m l) (hgrant : Granted m m' l l' c)
    (hc : c.size = 0) : FreeList m' l := by
  have heq : l' = l := by
    apply hgrant.free.separated.ext h.separated
    intro x
    rw [hgrant.covers]
    apply and_iff_left
    rintro ⟨hlow, hhigh⟩
    unfold Span.stop at hhigh
    omega
  rw [← heq]
  exact hgrant.free

/-- Some free block has as many bytes as are asked for, at least one. -/
def Fits (l : List Span) (n : Nat) : Prop :=
  0 < roundmb n ∧ ∃ b ∈ l, roundmb n ≤ b.size

instance (l : List Span) (n : Nat) : Decidable (Fits l n) :=
  inferInstanceAs (Decidable (_ ∧ _))

/-- `getmem` takes something from the free list where a block fits, and nothing elsewhere. -/
theorem FreeList.getmem_cases (h : FreeList m l) (n : Nat) :
    (¬ Fits l n ∧ ∃ r m', Memory.getmem n m = .done r m' ∧ FreeList m' l) ∨
      Fits l n ∧ ∃ a m' l', Memory.getmem n m = .done (some a) m' ∧
        FreeList m' l' ∧ ¬ FreeList m' l := by
  rcases getmem_run (n := n) h with ⟨hall, hrun⟩ | ⟨-, a, m', l', hrun, hgrant⟩
  · left
    refine ⟨?_, none, m, hrun, h⟩
    rintro ⟨hpos, b, hb, hle⟩
    rcases hall with rfl | hall
    · exact absurd hpos (by decide)
    · have hlt := hall b hb
      omega
  · by_cases hpos : 0 < roundmb n
    · exact Or.inr ⟨⟨hpos, hgrant.fits h hpos⟩, a, m', l', hrun, hgrant.free, hgrant.changes hpos⟩
    · exact Or.inl ⟨fun hfits => hpos hfits.1, some a, m', hrun,
        hgrant.same_list h (Nat.eq_zero_of_not_pos hpos)⟩

/-- The same for `getstk`. -/
theorem FreeList.getstk_cases (h : FreeList m l) (n : Nat) :
    (¬ Fits l n ∧ ∃ r m', Memory.getstk n m = .done r m' ∧ FreeList m' l) ∨
      Fits l n ∧ ∃ a m' l', Memory.getstk n m = .done (some a) m' ∧
        FreeList m' l' ∧ ¬ FreeList m' l := by
  rcases getstk_run (n := n) h with ⟨hall, hrun⟩ | ⟨-, a, m', l', hrun, hgrant⟩
  · left
    refine ⟨?_, none, m, hrun, h⟩
    rintro ⟨hpos, b, hb, hle⟩
    rcases hall with rfl | hall
    · exact absurd hpos (by decide)
    · have hlt := hall b hb
      omega
  · by_cases hpos : 0 < roundmb n
    · exact Or.inr ⟨⟨hpos, hgrant.fits h hpos⟩, _, m', l', hrun, hgrant.free, hgrant.changes hpos⟩
    · exact Or.inl ⟨fun hfits => hpos hfits.1, some _, m', hrun,
        hgrant.same_list h (Nat.eq_zero_of_not_pos hpos)⟩

/-! ## Releases -/

theorem Granted.back {m'' : Heap} {l'' : List Span} {c : Span} (h : FreeList m l)
    (hgrant : Granted m m' l l' c) (hrel : Released m' m'' l' l'' c) : l'' = l := by
  apply hrel.free.separated.ext h.separated
  intro x
  rw [hrel.covers, hgrant.covers]
  have hwas := hgrant.was_free x
  by_cases hx : c.Contains x
  · simp [hx, hwas hx]
  · simp [hx]

/-- A span that was granted can be released. -/
theorem Granted.release {a : Nat} (h : FreeList m l) (hn : 0 < roundmb n)
    (hgrant : Granted m m' l l' ⟨a, roundmb n⟩) {k : Nat} (hk : 0 < k) (hround : roundmb k = roundmb n) :
    ∃ m'', freemem a k m' = .done true m'' ∧ FreeList m'' l := by
  have hbounds : m'.minheap ≤ a ∧ a + roundmb k ≤ m'.maxheap := by
    rw [hround, hgrant.same.1, hgrant.same.2.1]
    exact hgrant.bounds
  have hnew : ∀ x, Span.Contains ⟨a, roundmb k⟩ x → ¬ Covers l' x := by
    rw [hround]
    exact fun x hx hcovers => ((hgrant.covers x).mp hcovers).2 hx
  obtain ⟨m'', l'', hrun, hrel⟩ :=
    freemem_run hgrant.free hk (by omega) hgrant.aligned hbounds hnew
  rw [hround] at hrel
  have hback : l'' = l := hgrant.back h hrel
  refine ⟨m'', hrun, ?_⟩
  rw [← hback]
  exact hrel.free

/--
A block from `getmem` that is released by `freemem`, or one from `getstk` that is released by
`freestk`, leaves the free list as it was before the request, block for block.
-/
theorem freed_as_before (h : FreeList m l) (hn : 0 < n) (hwrap : n + 7 < 0x100000000) :
    (∀ b m', getmem n m = .done (some b) m' →
      ∃ m'', freemem b n m' = .done true m'' ∧ FreeList m'' l) ∧
    ∀ s m', getstk n m = .done (some s) m' →
      ∃ m'', freestk s n m' = .done true m'' ∧ FreeList m'' l := by
  have hle : n ≤ roundmb n := le_roundmb hwrap
  constructor
  · intro b m' hrun
    rcases getmem_run (n := n) h with ⟨-, hfail⟩ | ⟨-, a, m₁, l', hdone, hgrant⟩
    · rw [hfail] at hrun
      cases hrun
    · rw [hdone] at hrun
      cases hrun
      exact hgrant.release h (by omega) hn rfl
  · intro s m' hrun
    rcases getstk_run (n := n) h with ⟨-, hfail⟩ | ⟨-, a, m₁, l', hdone, hgrant⟩
    · rw [hfail] at hrun
      cases hrun
    · rw [hdone] at hrun
      cases hrun
      have hmax := h.maxheap_lt
      have hlow : m.minheap ≤ a := hgrant.bounds.1
      have hhigh : a + roundmb n ≤ m.maxheap := hgrant.bounds.2
      have haligned : 8 ∣ a := hgrant.aligned
      have hmin : 0 < m.minheap := h.minheap_pos
      have hround : roundmb (roundmb n) = roundmb n := roundmb_eq (dvd_roundmb n) (roundmb_lt n)
      rw [freestk_eq (by omega) (by omega)]
      exact hgrant.release h (by omega) (by omega) hround

end Requests

/-- A heap with one free block of 64 bytes. -/
theorem freeList_meminit : FreeList (meminit 8 72 0 fun _ => ⟨0, 0⟩) [⟨8, 64⟩] := by
  refine ⟨by decide, by decide, ⟨⟨rfl, rfl⟩, rfl⟩, Separated.singleton (by decide), ?_, ?_⟩
  · intro b hb
    rw [List.mem_singleton.mp hb]
    decide
  · intro b hb
    rw [List.mem_singleton.mp hb]
    decide

/-- Sixteen bytes are given for a request of ten. -/
theorem given_ten : Given (meminit 8 72 0 fun _ => ⟨0, 0⟩) [⟨8, 64⟩] 10 :=
  (given_iff freeList_meminit (by decide)).mpr (Or.inl (by decide))

/-- The largest size is rounded to zero, and the request succeeds with an empty block. -/
theorem wrapped_request : ¬ Given (meminit 8 72 0 fun _ => ⟨0, 0⟩) [⟨8, 64⟩] 0xFFFFFFFF := by
  intro hgiven
  obtain ⟨m', hrun⟩ : ∃ m', getmem 0xFFFFFFFF (meminit 8 72 0 fun _ => ⟨0, 0⟩) =
      .done (some 8) m' := ⟨_, rfl⟩
  obtain ⟨c, hstart, henough, hfree, -⟩ := hgiven.getmem 8 m' hrun
  have hcontains : c.Contains 100 := by
    unfold Span.Contains Span.stop
    omega
  obtain ⟨b, hb, -, hlt⟩ := hfree 100 hcontains
  rw [List.mem_singleton.mp hb] at hlt
  exact absurd hlt (by decide)

/-- A block of ten bytes and a stack of ten, each released. -/
theorem freed_ten :
    (∀ b m', getmem 10 (meminit 8 72 0 fun _ => ⟨0, 0⟩) = .done (some b) m' →
      ∃ m'', freemem b 10 m' = .done true m'' ∧ FreeList m'' [⟨8, 64⟩]) ∧
    ∀ s m', getstk 10 (meminit 8 72 0 fun _ => ⟨0, 0⟩) = .done (some s) m' →
      ∃ m'', freestk s 10 m' = .done true m'' ∧ FreeList m'' [⟨8, 64⟩] :=
  freed_as_before freeList_meminit (by decide) (by decide)

end Memory
end Xinu
