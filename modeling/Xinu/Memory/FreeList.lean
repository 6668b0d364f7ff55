import Xinu.Memory.Allocator
import Xinu.Foundations.Spans

/-!
# The free list as a list of spans

`Chain m p l a` says that the blocks met from `p` on are those of `l`, and that
the last one points to `a`.  `FreeList m l` adds what the allocator maintains:
the blocks are in increasing order and coalesced, aligned, and in the heap.

Main results:

- Theorems `getmem_run` and `getstk_run`: a successful request takes a free
  span of the rounded size from the free addresses, an unsuccessful one changes
  nothing.
- Theorems `freemem_run` and `freemem_run_overlap`: releasing a span adds its
  addresses to the free ones, unless one of them is free already.
-/

namespace Xinu
namespace Memory

open Foundations Function

/-! ## Fields of the free list -/

section Fields

variable (m : Heap) (p q : Blk) (a n : Nat)

@[simp]
theorem mnext_setMnext : (m.setMnext p a).mnext q = if q = p then a else m.mnext q := by
  unfold Heap.setMnext Heap.mnext
  by_cases h : q = p <;> simp [h]

@[simp]
theorem mnext_setMlength : (m.setMlength p n).mnext q = m.mnext q := by
  unfold Heap.setMlength Heap.mnext
  by_cases h : q = p <;> simp [h]

@[simp]
theorem mlength_setMnext : (m.setMnext p a).mlength q = m.mlength q := by
  unfold Heap.setMnext Heap.mlength
  by_cases h : q = p <;> simp [h]

@[simp]
theorem mlength_setMlength :
    (m.setMlength p n).mlength q = if q = p then n else m.mlength q := by
  unfold Heap.setMlength Heap.mlength
  by_cases h : q = p <;> simp [h]

@[simp]
theorem mnext_takeTotal : (m.takeTotal n).mnext q = m.mnext q := by
  simp [Heap.takeTotal]

@[simp]
theorem mnext_giveTotal : (m.giveTotal n).mnext q = m.mnext q := by
  simp [Heap.giveTotal]

@[simp]
theorem mlength_takeTotal : (m.takeTotal n).mlength (.heap a) = m.mlength (.heap a) := by
  simp [Heap.takeTotal]

@[simp]
theorem mlength_giveTotal : (m.giveTotal n).mlength (.heap a) = m.mlength (.heap a) := by
  simp [Heap.giveTotal]

@[simp]
theorem addr_heap : m.addr (.heap a) = a :=
  rfl

end Fields

/-- The bounds of the heap and the place of the list head do not change. -/
def SameBounds (m m' : Heap) : Prop :=
  m'.minheap = m.minheap ∧ m'.maxheap = m.maxheap ∧ m'.memlistAddr = m.memlistAddr

/-! ## Chains of blocks -/

/-- The last block of a chain that starts after `p`. -/
def lastBlk (p : Blk) : List Span → Blk
  | [] => p
  | b :: l => lastBlk (.heap b.start) l

/-- The address of the first block, or `a` for the empty list. -/
def firstAddr (a : Nat) : List Span → Nat
  | [] => a
  | b :: _ => b.start

/-- The blocks of `l` follow `p` in the free list, and `a` follows them. -/
def Chain (m : Heap) : Blk → List Span → Nat → Prop
  | p, [], a => m.mnext p = a
  | p, b :: l, a =>
      (m.mnext p = b.start ∧ m.mlength (.heap b.start) = b.size) ∧
        Chain m (.heap b.start) l a

section Chains

variable {m m' : Heap} {p p' : Blk} {l r : List Span} {a a' : Nat} {b : Span}

theorem Chain.mnext_eq (h : Chain m p l a) : m.mnext p = firstAddr a l := by
  cases l with
  | nil => exact h
  | cons b l => exact h.1.1

theorem chain_append :
    Chain m p (l ++ r) a ↔ Chain m p l (firstAddr a r) ∧ Chain m (lastBlk p l) r a := by
  induction l generalizing p with
  | nil =>
      constructor
      · intro h
        exact ⟨h.mnext_eq, h⟩
      · exact fun h => h.2
  | cons b l ih =>
      simp only [List.cons_append, Chain, lastBlk, ih, and_assoc]

@[simp]
theorem lastBlk_append_singleton (p : Blk) (l : List Span) (b : Span) :
    lastBlk p (l ++ [b]) = .heap b.start := by
  induction l generalizing p with
  | nil => rfl
  | cons c l ih => exact ih _

/-- The last block of a chain is its starting point or one of its blocks. -/
theorem lastBlk_cases (p : Blk) (l : List Span) :
    (l = [] ∧ lastBlk p l = p) ∨
      ∃ l' c, l = l' ++ [c] ∧ lastBlk p l = .heap c.start := by
  induction l generalizing p with
  | nil => exact Or.inl ⟨rfl, rfl⟩
  | cons b l ih =>
      right
      rcases ih (.heap b.start) with ⟨rfl, h⟩ | ⟨l', c, rfl, h⟩
      · exact ⟨[], b, rfl, h⟩
      · exact ⟨b :: l', c, rfl, h⟩

/-- A chain reads the link out of its starting point and its own blocks. -/
theorem Chain.congr (h : Chain m p l a) (hp : m'.mnext p' = m.mnext p)
    (hl : ∀ c ∈ l, m'.mnext (.heap c.start) = m.mnext (.heap c.start) ∧
      m'.mlength (.heap c.start) = m.mlength (.heap c.start)) : Chain m' p' l a := by
  induction l generalizing p p' with
  | nil => exact hp.trans h
  | cons b l ih =>
      have hb := hl b (by simp)
      refine ⟨⟨hp.trans h.1.1, hb.2.trans h.1.2⟩, ih h.2 hb.1 ?_⟩
      intro c hc
      exact hl c (List.mem_cons_of_mem b hc)

/-- Redirecting the last block moves the end of the chain. -/
theorem Chain.redirect (h : Chain m p l a) (hlast : m'.mnext (lastBlk p l) = a')
    (hnext : ∀ q, q ≠ lastBlk p l → (q = p ∨ ∃ c ∈ l, q = .heap c.start) →
      m'.mnext q = m.mnext q)
    (hlen : ∀ c ∈ l, m'.mlength (.heap c.start) = m.mlength (.heap c.start))
    (hp : ∀ c ∈ l, p ≠ .heap c.start) (hsep : Separated l) : Chain m' p l a' := by
  induction l generalizing p with
  | nil => exact hlast
  | cons b l ih =>
      obtain ⟨hb, hgap, hsep'⟩ := Separated.cons_iff.mp hsep
      have hbl : ∀ c ∈ l, Blk.heap b.start ≠ .heap c.start := by
        intro c hc heq
        have hlt := hgap c hc
        simp only [Blk.heap.injEq] at heq
        unfold Span.stop at hlt
        omega
      have hplast : p ≠ lastBlk (.heap b.start) l := by
        rcases lastBlk_cases (.heap b.start) l with ⟨-, h⟩ | ⟨l', c, rfl, h⟩
        · rw [h]; exact hp b (by simp)
        · rw [h]; exact hp c (by simp)
      refine ⟨⟨?_, ?_⟩, ih h.2 hlast ?_ ?_ hbl hsep'⟩
      · rw [hnext p hplast (Or.inl rfl)]; exact h.1.1
      · rw [hlen b (by simp)]; exact h.1.2
      · intro q hq hmem
        refine hnext q hq (Or.inr ?_)
        rcases hmem with rfl | ⟨c, hc, rfl⟩
        · exact ⟨b, by simp, rfl⟩
        · exact ⟨c, List.mem_cons_of_mem b hc, rfl⟩
      · intro c hc
        exact hlen c (List.mem_cons_of_mem b hc)

/-- No block of a separated list starts where another one does. -/
theorem lastBlk_ne {c : Span} (h : Separated (l ++ r)) (hc : c ∈ r) :
    lastBlk .memlist l ≠ .heap c.start := by
  rcases lastBlk_cases .memlist l with ⟨-, hlast⟩ | ⟨l', d, rfl, hlast⟩
  · rw [hlast]; simp
  · rw [hlast]
    have hlt := (Separated.append_iff.mp h).2.2 d (by simp) c hc
    unfold Span.stop at hlt
    simp only [ne_eq, Blk.heap.injEq]
    omega

/-- The blocks of `l` and those of `r` become one chain. -/
theorem chain_drop (hl : Chain m .memlist l a') (hr : Chain m p r a) (hsep : Separated (l ++ r))
    (hlast : m'.mnext (lastBlk .memlist l) = firstAddr a r)
    (hnext : ∀ q, q ≠ lastBlk .memlist l → m'.mnext q = m.mnext q)
    (hlen : ∀ x, m'.mlength (.heap x) = m.mlength (.heap x)) :
    Chain m' .memlist (l ++ r) a := by
  refine chain_append.mpr ⟨?_, ?_⟩
  · refine hl.redirect hlast (fun q hq _ => hnext q hq) (fun c _ => hlen _) (by simp) ?_
    exact (Separated.append_iff.mp hsep).1
  · refine hr.congr (hlast.trans hr.mnext_eq.symm) fun c hc => ⟨hnext _ ?_, hlen _⟩
    exact (lastBlk_ne hsep hc).symm

/-- The blocks of `l`, the block `b` and those of `r` become one chain. -/
theorem chain_insert (hl : Chain m .memlist l a') (hr : Chain m p r a)
    (hsep : Separated (l ++ b :: r)) (hlast : m'.mnext (lastBlk .memlist l) = b.start)
    (hbnext : m'.mnext (.heap b.start) = firstAddr a r)
    (hblen : m'.mlength (.heap b.start) = b.size)
    (hnext : ∀ q, q ≠ lastBlk .memlist l → q ≠ .heap b.start → m'.mnext q = m.mnext q)
    (hlen : ∀ x, x ≠ b.start → m'.mlength (.heap x) = m.mlength (.heap x)) :
    Chain m' .memlist (l ++ b :: r) a := by
  have hne : ∀ c, c ∈ l ∨ c ∈ r → c.start ≠ b.start := fun c hc => hsep.start_ne hc
  refine chain_append.mpr ⟨?_, ⟨hlast, hblen⟩, ?_⟩
  · refine hl.redirect hlast ?_ (fun c hc => hlen _ (hne c (Or.inl hc))) (by simp) ?_
    · rintro q hq (rfl | ⟨c, hc, rfl⟩)
      · exact hnext _ hq (by simp)
      · refine hnext _ hq ?_
        simpa using hne c (Or.inl hc)
    · exact (Separated.append_iff.mp hsep).1
  · refine hr.congr (hbnext.trans hr.mnext_eq.symm) fun c hc => ⟨?_, hlen _ (hne c (Or.inr hc))⟩
    refine hnext _ (lastBlk_ne hsep (List.mem_cons_of_mem b hc)).symm ?_
    simpa using hne c (Or.inr hc)

end Chains

/-- The free list is `l`, and `l` is as the allocator maintains it. -/
structure FreeList (m : Heap) (l : List Span) : Prop where
  minheap_pos : null < m.minheap
  maxheap_lt : m.maxheap < 0x100000000
  chain : Chain m .memlist l null
  separated : Separated l
  bounds : ∀ b ∈ l, m.minheap ≤ b.start ∧ b.stop ≤ m.maxheap
  aligned : ∀ b ∈ l, 8 ∣ b.start ∧ 8 ∣ b.size

/-- What a successful request does: the span `c` was free and no longer is. -/
structure Granted (m m' : Heap) (l l' : List Span) (c : Span) : Prop where
  free : FreeList m' l'
  same : SameBounds m m'
  covers : ∀ x, Covers l' x ↔ Covers l x ∧ ¬ c.Contains x
  was_free : ∀ x, c.Contains x → Covers l x
  bounds : m.minheap ≤ c.start ∧ c.stop ≤ m.maxheap
  aligned : 8 ∣ c.start

/-- What a successful release does: the span `c` is free again. -/
structure Released (m m' : Heap) (l l' : List Span) (c : Span) : Prop where
  free : FreeList m' l'
  same : SameBounds m m'
  covers : ∀ x, Covers l' x ↔ Covers l x ∨ c.Contains x

theorem dvd_roundmb (x : Nat) : 8 ∣ roundmb x :=
  Nat.dvd_mul_left 8 _

theorem roundmb_lt (x : Nat) : roundmb x < 0x100000000 := by
  unfold roundmb u32
  omega

/-- Rounding changes no multiple of the block size. -/
theorem roundmb_eq {x : Nat} (hx : 8 ∣ x) (hlt : x < 0x100000000) : roundmb x = x := by
  unfold roundmb u32
  omega

/-- Rounding goes up when it does not wrap. -/
theorem le_roundmb {x : Nat} (hx : x + 7 < 0x100000000) : x ≤ roundmb x := by
  unfold roundmb u32
  omega

theorem u32_eq {x : Nat} (hx : x < 0x100000000) : u32 x = x :=
  Nat.mod_eq_of_lt hx

section Runs

variable {m : Heap} {l : List Span} {k n : Nat}

/-- A free list has fewer blocks than the loops allow. -/
theorem FreeList.length_lt (h : FreeList m l) : l.length < listFuel := by
  have hlt := h.maxheap_lt
  unfold listFuel
  by_cases hle : m.minheap ≤ m.maxheap
  · have := h.separated.length_add_le hle h.bounds
    omega
  · cases l with
    | nil => simp
    | cons b l =>
        have hb := h.bounds b (by simp)
        unfold Span.stop at hb
        omega

theorem FreeList.start_pos (h : FreeList m l) : ∀ b ∈ l, b.start ≠ null := by
  intro b hb
  have h1 := (h.bounds b hb).1
  have h2 := h.minheap_pos
  omega

/-! ## getmem -/

/-- The heap after `getmem` has cut `k` bytes off the block `b` that follows `prev`. -/
def cutLow (m : Heap) (prev : Blk) (b : Span) (k : Nat) : Heap :=
  if b.size = k then (m.setMnext prev (m.mnext (.heap b.start))).takeTotal k
  else
    (((m.setMnext prev (u32 (b.start + k))).setMnext (.heap (u32 (b.start + k)))
      (m.mnext (.heap b.start))).setMlength (.heap (u32 (b.start + k))) (b.size - k)).takeTotal k

/-- The loop of `getmem` cuts the first block that is large enough. -/
theorem getmemLoop_run {prev : Blk} {fuel : Nat} (h : Chain m prev l null)
    (hstart : ∀ b ∈ l, b.start ≠ null) (hprev : ∀ b ∈ l, prev ≠ .heap b.start)
    (hsep : Separated l) (hfuel : l.length < fuel) :
    (∀ b ∈ l, b.size < k) ∧ getmemLoop k fuel prev (firstAddr null l) m = .done none m ∨
      ∃ l₁ b l₂, l = l₁ ++ b :: l₂ ∧ (∀ c ∈ l₁, c.size < k) ∧ k ≤ b.size ∧
        getmemLoop k fuel prev (firstAddr null l) m =
          .done (some b.start) (cutLow m (lastBlk prev l₁) b k) := by
  induction l generalizing prev fuel with
  | nil =>
      cases fuel with
      | zero => simp at hfuel
      | succ fuel => left; simp [getmemLoop, firstAddr]
  | cons b l ih =>
      cases fuel with
      | zero => simp at hfuel
      | succ fuel =>
          obtain ⟨hb, hgap, hsep'⟩ := Separated.cons_iff.mp hsep
          have hb0 : b.start ≠ null := hstart b (by simp)
          have hpb : prev ≠ .heap b.start := hprev b (by simp)
          have hsize : m.mlength (.heap b.start) = b.size := h.1.2
          by_cases hfit : k ≤ b.size
          · right
            refine ⟨[], b, l, rfl, by simp, hfit, ?_⟩
            by_cases heq : b.size = k
            · simp [getmemLoop, firstAddr, hb0, hsize, heq, cutLow, lastBlk]
            · have hgt : k < b.size := by omega
              simp [getmemLoop, firstAddr, hb0, hsize, heq, hgt, cutLow, lastBlk, hpb.symm]
          · have hne : b.size ≠ k := by omega
            have hgt : ¬ k < b.size := by omega
            have hstep : getmemLoop k (fuel + 1) prev (firstAddr null (b :: l)) m =
                getmemLoop k fuel (.heap b.start) (firstAddr null l) m := by
              simp [getmemLoop, firstAddr, hb0, hsize, hne, hgt, h.2.mnext_eq]
            rw [hstep]
            have hbl : ∀ c ∈ l, Blk.heap b.start ≠ .heap c.start := by
              intro c hc heq
              have hlt := hgap c hc
              simp only [Blk.heap.injEq] at heq
              unfold Span.stop at hlt
              omega
            rcases ih h.2 (fun c hc => hstart c (List.mem_cons_of_mem b hc)) hbl hsep'
              (by simpa using hfuel) with ⟨hall, hrun⟩ | ⟨l₁, c, l₂, rfl, hall, hc, hrun⟩
            · left
              refine ⟨?_, hrun⟩
              intro c hc
              rcases List.mem_cons.mp hc with rfl | hc
              · omega
              · exact hall c hc
            · right
              refine ⟨b :: l₁, c, l₂, rfl, ?_, hc, hrun⟩
              intro d hd
              rcases List.mem_cons.mp hd with rfl | hd
              · omega
              · exact hall d hd

/-- The parts into which a block of the free list divides it. -/
theorem FreeList.split {l₁ l₂ : List Span} {b : Span} (h : FreeList m (l₁ ++ b :: l₂)) :
    Chain m .memlist l₁ b.start ∧ m.mnext (lastBlk .memlist l₁) = b.start ∧
      m.mnext (.heap b.start) = firstAddr null l₂ ∧ m.mlength (.heap b.start) = b.size ∧
        Chain m (.heap b.start) l₂ null := by
  obtain ⟨h₁, h₂⟩ := chain_append.mp h.chain
  exact ⟨h₁, h₂.1.1, h₂.2.mnext_eq, h₂.1.2, h₂.2⟩

/-- A chain of old blocks and of blocks in the heap is a free list. -/
theorem FreeList.rebuild {m' : Heap} {l' : List Span} (h : FreeList m l)
    (hsame : SameBounds m m') (hchain : Chain m' .memlist l' null) (hsep : Separated l')
    (hmem : ∀ b ∈ l', b ∈ l ∨ (m.minheap ≤ b.start ∧ b.stop ≤ m.maxheap) ∧
      8 ∣ b.start ∧ 8 ∣ b.size) : FreeList m' l' := by
  refine ⟨?_, ?_, hchain, hsep, ?_, ?_⟩
  · rw [hsame.1]; exact h.minheap_pos
  · rw [hsame.2.1]; exact h.maxheap_lt
  · intro b hb
    rw [hsame.1, hsame.2.1]
    rcases hmem b hb with hb | hb
    · exact h.bounds b hb
    · exact hb.1
  · intro b hb
    rcases hmem b hb with hb | hb
    · exact h.aligned b hb
    · exact hb.2

/-- Removing a block from the free list. -/
theorem FreeList.remove {l₁ l₂ : List Span} {b : Span} {m' : Heap}
    (h : FreeList m (l₁ ++ b :: l₂)) (hsame : SameBounds m m')
    (hlast : m'.mnext (lastBlk .memlist l₁) = firstAddr null l₂)
    (hnext : ∀ q, q ≠ lastBlk .memlist l₁ → m'.mnext q = m.mnext q)
    (hlen : ∀ x, m'.mlength (.heap x) = m.mlength (.heap x)) :
    Granted m m' (l₁ ++ b :: l₂) (l₁ ++ l₂) b := by
  obtain ⟨hl₁, -, hnb, hlb, hl₂⟩ := h.split
  obtain ⟨hsep, hcov⟩ := h.separated.drop
  refine ⟨?_, hsame, hcov, ?_, h.bounds b (by simp), (h.aligned b (by simp)).1⟩
  · refine h.rebuild hsame (chain_drop hl₁ hl₂ hsep hlast hnext hlen) hsep ?_
    intro c hc
    left
    rcases List.mem_append.mp hc with hc | hc <;> simp [hc]
  · intro x hx
    exact ⟨b, by simp, hx⟩

/-- Keeping the part `c` of a block of the free list and granting the rest `d`. -/
theorem FreeList.keepPart {l₁ l₂ : List Span} {b c d : Span} {m' : Heap}
    (h : FreeList m (l₁ ++ b :: l₂)) (hsame : SameBounds m m')
    (hparts : (b.start = c.start ∧ c.stop = d.start ∧ d.stop = b.stop) ∨
      (b.start = d.start ∧ d.stop = c.start ∧ c.stop = b.stop))
    (hc : 0 < c.size) (h8 : 8 ∣ c.start ∧ 8 ∣ c.size) (hd8 : 8 ∣ d.start)
    (hlast : m'.mnext (lastBlk .memlist l₁) = c.start)
    (hcnext : m'.mnext (.heap c.start) = firstAddr null l₂)
    (hclen : m'.mlength (.heap c.start) = c.size)
    (hnext : ∀ q, q ≠ lastBlk .memlist l₁ → q ≠ .heap c.start → m'.mnext q = m.mnext q)
    (hlen : ∀ x, x ≠ c.start → m'.mlength (.heap x) = m.mlength (.heap x)) :
    Granted m m' (l₁ ++ b :: l₂) (l₁ ++ c :: l₂) d := by
  obtain ⟨hl₁, -, hnb, hlb, hl₂⟩ := h.split
  have hbb := h.bounds b (by simp)
  have hstart : b.start ≤ c.start := by
    unfold Span.stop at hparts; omega
  have hstop : c.stop ≤ b.stop := by
    unfold Span.stop at hparts ⊢; omega
  obtain ⟨hsep, hcov⟩ := h.separated.shrink hc hstart hstop
  have hdrop := h.separated.drop.2
  -- an address of the block is in exactly one of its two parts
  have hcd : ∀ x, b.Contains x ↔ c.Contains x ∨ d.Contains x := by
    intro x
    simp only [Span.Contains, Span.stop] at hparts ⊢
    omega
  have hcd' : ∀ x, c.Contains x → ¬ d.Contains x := by
    intro x
    simp only [Span.Contains, Span.stop] at hparts ⊢
    omega
  refine ⟨?_, hsame, ?_, ?_, ?_, hd8⟩
  · refine h.rebuild hsame (chain_insert hl₁ hl₂ hsep hlast hcnext hclen hnext hlen) hsep ?_
    intro e he
    simp only [List.mem_append, List.mem_cons] at he ⊢
    rcases he with he | rfl | he
    · exact Or.inl (Or.inl he)
    · exact Or.inr ⟨⟨by omega, by omega⟩, h8⟩
    · exact Or.inl (Or.inr (Or.inr he))
  · intro x
    have hout : Covers (l₁ ++ l₂) x → ¬ b.Contains x := fun hx => ((hdrop x).mp hx).2
    have hb := hcd x
    have hd := hcd' x
    simp only [covers_append, covers_cons] at hout ⊢
    constructor
    · rintro (hx | hx | hx)
      · exact ⟨Or.inl hx, fun hdx => hout (Or.inl hx) (hb.mpr (Or.inr hdx))⟩
      · exact ⟨Or.inr (Or.inl (hb.mpr (Or.inl hx))), hd hx⟩
      · exact ⟨Or.inr (Or.inr hx), fun hdx => hout (Or.inr hx) (hb.mpr (Or.inr hdx))⟩
    · rintro ⟨hx | hx | hx, hdx⟩
      · exact Or.inl hx
      · exact Or.inr (Or.inl ((hb.mp hx).resolve_right hdx))
      · exact Or.inr (Or.inr hx)
  · intro x hx
    exact ⟨b, by simp, (hcd x).mpr (Or.inr hx)⟩
  · simp only [Span.stop] at hparts hbb ⊢
    omega

/-- Cutting `k` bytes off a block that has as many. -/
theorem FreeList.cutLow {l₁ l₂ : List Span} {b : Span} (h : FreeList m (l₁ ++ b :: l₂))
    (hk : k ≤ b.size) (hk8 : 8 ∣ k) :
    ∃ l', Granted m (cutLow m (lastBlk .memlist l₁) b k) (l₁ ++ b :: l₂) l' ⟨b.start, k⟩ := by
  obtain ⟨hl₁, -, hnb, hlb, hl₂⟩ := h.split
  have hb8 := h.aligned b (by simp)
  have hbb := h.bounds b (by simp)
  have hmax := h.maxheap_lt
  by_cases heq : b.size = k
  · subst k
    have hcut : Memory.cutLow m (lastBlk .memlist l₁) b b.size =
        (m.setMnext (lastBlk .memlist l₁) (m.mnext (.heap b.start))).takeTotal b.size :=
      if_pos rfl
    rw [hcut]
    exact ⟨_, h.remove ⟨rfl, rfl, rfl⟩ (by simp [hnb]) (by intro q hq; simp [hq])
      (by intro x; simp)⟩
  · have hstop : b.stop = b.start + b.size := rfl
    have hu : u32 (b.start + k) = b.start + k := u32_eq (by omega)
    have hcut : Memory.cutLow m (lastBlk .memlist l₁) b k =
        (((m.setMnext (lastBlk .memlist l₁) (b.start + k)).setMnext (.heap (b.start + k))
          (m.mnext (.heap b.start))).setMlength (.heap (b.start + k)) (b.size - k)).takeTotal k := by
      rw [Memory.cutLow, if_neg heq, hu]
    rw [hcut]
    have hsep := h.separated.shrink (c := ⟨b.start + k, b.size - k⟩) (by simp only; omega)
      (by simp only; omega) (by simp only [Span.stop]; omega)
    have hne : lastBlk .memlist l₁ ≠ .heap (b.start + k) := lastBlk_ne hsep.1 (List.mem_cons_self ..)
    refine ⟨_, h.keepPart (c := ⟨b.start + k, b.size - k⟩) (d := ⟨b.start, k⟩) ⟨rfl, rfl, rfl⟩
      (Or.inr ?_) ?_ ?_ hb8.1
      ?_ ?_ ?_ ?_ ?_⟩
    · simp only [Span.stop, true_and]; omega
    · simp only; omega
    · simp only; omega
    · simp [hne]
    · simp [hnb]
    · simp
    · intro q hq hqc
      simp only at hqc
      simp [hq, hqc]
    · intro x hx
      simp only at hx
      simp [hx]

/-- `getmem` grants the lowest addresses of the first block that is large enough. -/
theorem getmem_run (h : FreeList m l) :
    (n = 0 ∨ ∀ b ∈ l, b.size < roundmb n) ∧ getmem n m = .done none m ∨
      0 < n ∧ ∃ a m' l', getmem n m = .done (some a) m' ∧
        Granted m m' l l' ⟨a, roundmb n⟩ := by
  by_cases hn : n = 0
  · left; exact ⟨Or.inl hn, by simp [getmem, hn]⟩
  · have hrun : getmem n m =
        getmemLoop (roundmb n) listFuel .memlist (firstAddr null l) m := by
      simp [getmem, hn, h.chain.mnext_eq]
    rw [hrun]
    rcases getmemLoop_run (k := roundmb n) h.chain h.start_pos (by simp) h.separated h.length_lt
      with ⟨hall, hloop⟩ | ⟨l₁, b, l₂, rfl, -, hb, hloop⟩
    · left; exact ⟨Or.inr hall, hloop⟩
    · right
      obtain ⟨l', hgrant⟩ := h.cutLow hb (dvd_roundmb n)
      exact ⟨by omega, b.start, _, l', hloop, hgrant⟩

/-! ## getstk -/

/-- The loop of `getstk` finds the last block that is large enough. -/
theorem getstkLoop_run {prev fitsprev : Blk} {fits fuel : Nat} (h : Chain m prev l null)
    (hstart : ∀ b ∈ l, b.start ≠ null) (hfuel : l.length < fuel) :
    (∀ b ∈ l, b.size < k) ∧
        getstkLoop k fuel prev (firstAddr null l) fits fitsprev m = .done (fits, fitsprev) m ∨
      ∃ l₁ b l₂, l = l₁ ++ b :: l₂ ∧ k ≤ b.size ∧ (∀ c ∈ l₂, c.size < k) ∧
        getstkLoop k fuel prev (firstAddr null l) fits fitsprev m =
          .done (b.start, lastBlk prev l₁) m := by
  induction l generalizing prev fits fitsprev fuel with
  | nil =>
      cases fuel with
      | zero => simp at hfuel
      | succ fuel => left; simp [getstkLoop, firstAddr]
  | cons b l ih =>
      cases fuel with
      | zero => simp at hfuel
      | succ fuel =>
          have hb0 : b.start ≠ null := hstart b (by simp)
          have hsize : m.mlength (.heap b.start) = b.size := h.1.2
          have hstart' : ∀ c ∈ l, c.start ≠ null := fun c hc =>
            hstart c (List.mem_cons_of_mem b hc)
          have hfuel' : l.length < fuel := by simpa using hfuel
          by_cases hfit : k ≤ b.size
          · have hstep : getstkLoop k (fuel + 1) prev (firstAddr null (b :: l)) fits fitsprev m =
                getstkLoop k fuel (.heap b.start) (firstAddr null l) b.start prev m := by
              simp [getstkLoop, firstAddr, hb0, hsize, hfit, h.2.mnext_eq]
            right
            rw [hstep]
            rcases @ih (.heap b.start) prev b.start fuel h.2 hstart' hfuel' with
              ⟨hall, hrun⟩ | ⟨l₁, c, l₂, rfl, hc, hall, hrun⟩
            · exact ⟨[], b, l, rfl, hfit, hall, hrun⟩
            · exact ⟨b :: l₁, c, l₂, rfl, hc, hall, hrun⟩
          · have hstep : getstkLoop k (fuel + 1) prev (firstAddr null (b :: l)) fits fitsprev m =
                getstkLoop k fuel (.heap b.start) (firstAddr null l) fits fitsprev m := by
              simp [getstkLoop, firstAddr, hb0, hsize, hfit, h.2.mnext_eq]
            rw [hstep]
            rcases @ih (.heap b.start) fitsprev fits fuel h.2 hstart' hfuel' with
              ⟨hall, hrun⟩ | ⟨l₁, c, l₂, rfl, hc, hall, hrun⟩
            · left
              refine ⟨?_, hrun⟩
              intro c hc
              rcases List.mem_cons.mp hc with rfl | hc
              · omega
              · exact hall c hc
            · right
              exact ⟨b :: l₁, c, l₂, rfl, hc, hall, hrun⟩

/-- The heap after `getstk` has cut `k` bytes off the top of the block `b` that follows `prev`. -/
def cutHigh (m : Heap) (prev : Blk) (b : Span) (k : Nat) : Heap :=
  if k = b.size then (m.setMnext prev (m.mnext (.heap b.start))).takeTotal k
  else (m.setMlength (.heap b.start) (b.size - k)).takeTotal k

/-- Cutting `k` bytes off the top of a block that has as many. -/
theorem FreeList.cutHigh {l₁ l₂ : List Span} {b : Span} (h : FreeList m (l₁ ++ b :: l₂))
    (hk : k ≤ b.size) (hk8 : 8 ∣ k) :
    ∃ l', Granted m (cutHigh m (lastBlk .memlist l₁) b k) (l₁ ++ b :: l₂) l'
      ⟨b.start + b.size - k, k⟩ := by
  obtain ⟨hl₁, hpb, hnb, hlb, hl₂⟩ := h.split
  have hb8 := h.aligned b (by simp)
  by_cases heq : k = b.size
  · subst k
    have hcut : Memory.cutHigh m (lastBlk .memlist l₁) b b.size =
        (m.setMnext (lastBlk .memlist l₁) (m.mnext (.heap b.start))).takeTotal b.size :=
      if_pos rfl
    have hspan : (⟨b.start + b.size - b.size, b.size⟩ : Span) = b := by simp
    rw [hcut, hspan]
    exact ⟨_, h.remove ⟨rfl, rfl, rfl⟩ (by simp [hnb]) (by intro q hq; simp [hq])
      (by intro x; simp)⟩
  · have hcut : Memory.cutHigh m (lastBlk .memlist l₁) b k =
        (m.setMlength (.heap b.start) (b.size - k)).takeTotal k := if_neg heq
    rw [hcut]
    refine ⟨_, h.keepPart (c := ⟨b.start, b.size - k⟩) (d := ⟨b.start + b.size - k, k⟩)
      ⟨rfl, rfl, rfl⟩ (Or.inl ?_) ?_ ?_ ?_ ?_ ?_ ?_ ?_ ?_⟩
    · simp only [Span.stop, true_and]; omega
    · simp only; omega
    · simp only; omega
    · simp only; omega
    · simpa using hpb
    · simpa using hnb
    · simp
    · intro q hq hqc
      simp
    · intro x hx
      simp only at hx
      simp [hx]

/-- `getstk` grants the highest addresses of the last block that is large enough. -/
theorem getstk_run (h : FreeList m l) :
    (n = 0 ∨ ∀ b ∈ l, b.size < roundmb n) ∧ getstk n m = .done none m ∨
      0 < n ∧ ∃ a m' l', getstk n m = .done (some (a + roundmb n - 4)) m' ∧
        Granted m m' l l' ⟨a, roundmb n⟩ := by
  by_cases hn : n = 0
  · left; exact ⟨Or.inl hn, by simp [getstk, hn]⟩
  · rcases @getstkLoop_run m l (roundmb n) .memlist .memlist null listFuel h.chain h.start_pos
      h.length_lt with ⟨hall, hloop⟩ | ⟨l₁, b, l₂, rfl, hb, -, hloop⟩
    · left
      refine ⟨Or.inr hall, ?_⟩
      simp [getstk, hn, h.chain.mnext_eq, hloop]
    · right
      obtain ⟨l', hgrant⟩ := h.cutHigh hb (dvd_roundmb n)
      have hb0 : b.start ≠ null := h.start_pos b (by simp)
      have hb8 := h.aligned b (by simp)
      have hbb := h.bounds b (by simp)
      have hmax := h.maxheap_lt
      have hsize : m.mlength (.heap b.start) = b.size := h.split.2.2.2.1
      have hstop : b.stop = b.start + b.size := rfl
      have hu : u32 (b.start + b.size + 4294967292) = b.start + b.size - 4 := by
        have hpos : 8 ≤ b.start := by unfold null at hb0; omega
        unfold u32
        omega
      have hk : b.start + b.size - roundmb n + roundmb n - 4 = b.start + b.size - 4 := by omega
      refine ⟨by omega, b.start + b.size - roundmb n, _, l', ?_, hgrant⟩
      rw [hk]
      by_cases heq : roundmb n = b.size
      · rw [heq] at hloop
        simp [getstk, hn, h.chain.mnext_eq, hloop, hb0, hsize, heq, cutHigh, hu]
      · have hu' : u32 (b.start + (b.size - roundmb n)) + roundmb n = b.start + b.size := by
          rw [u32_eq (by omega)]; omega
        simp [getstk, hn, h.chain.mnext_eq, hloop, hb0, hsize, heq, cutHigh, hu', hu]

/-! ## freemem -/

/-- The loop of `freemem` finds where the address `a` belongs. -/
theorem freememLoop_run {prev : Blk} {fuel a : Nat} (h : Chain m prev l null)
    (hstart : ∀ b ∈ l, b.start ≠ null) (hsep : Separated l) (hfuel : l.length < fuel) :
    ∃ l₁ l₂, l = l₁ ++ l₂ ∧ (∀ b ∈ l₁, b.start < a) ∧ (∀ b ∈ l₂, a ≤ b.start) ∧
      freememLoop a fuel prev (firstAddr null l) m =
        .done (lastBlk prev l₁, firstAddr null l₂) m := by
  induction l generalizing prev fuel with
  | nil =>
      cases fuel with
      | zero => simp at hfuel
      | succ fuel => exact ⟨[], [], by simp [freememLoop, firstAddr, lastBlk]⟩
  | cons b l ih =>
      cases fuel with
      | zero => simp at hfuel
      | succ fuel =>
          obtain ⟨hb, hgap, hsep'⟩ := Separated.cons_iff.mp hsep
          have hb0 : b.start ≠ null := hstart b (by simp)
          by_cases hlt : b.start < a
          · have hstep : freememLoop a (fuel + 1) prev (firstAddr null (b :: l)) m =
                freememLoop a fuel (.heap b.start) (firstAddr null l) m := by
              simp [freememLoop, firstAddr, hb0, hlt, h.2.mnext_eq]
            obtain ⟨l₁, l₂, rfl, hbefore, hafter, hrun⟩ := ih h.2
              (fun c hc => hstart c (List.mem_cons_of_mem b hc)) hsep' (by simpa using hfuel)
            refine ⟨b :: l₁, l₂, rfl, ?_, hafter, hstep.trans hrun⟩
            intro c hc
            rcases List.mem_cons.mp hc with rfl | hc
            · exact hlt
            · exact hbefore c hc
          · refine ⟨[], b :: l, rfl, by simp, ?_, by simp [freememLoop, firstAddr, hlt, lastBlk]⟩
            intro c hc
            rcases List.mem_cons.mp hc with rfl | hc
            · omega
            · have hbc := hgap c hc
              unfold Span.stop at hbc
              omega

/-- The second half of `freemem`: join the block `b` with the block at `next`. -/
def joinBlk (m : Heap) (b : Span) (next : Nat) : Heap :=
  if b.stop = next then
    (m.setMlength (.heap b.start) (u32 (b.size + m.mlength (.heap next)))).setMnext
      (.heap b.start) (m.mnext (.heap next))
  else m

theorem SameBounds.join {m' : Heap} (h : SameBounds m m') (b : Span) (next : Nat) :
    SameBounds m (joinBlk m' b next) := by
  unfold joinBlk
  split
  · exact h
  · exact h

/-- The heap `m'` has the block `b` between those of `l₁` and those of `l₂`, and
otherwise the links of `m`. -/
structure Placed (m m' : Heap) (l₁ l₂ : List Span) (b : Span) : Prop where
  same : SameBounds m m'
  last : m'.mnext (lastBlk .memlist l₁) = b.start
  next : m'.mnext (.heap b.start) = firstAddr null l₂
  len : m'.mlength (.heap b.start) = b.size
  nexts : ∀ q, q ≠ lastBlk .memlist l₁ → q ≠ .heap b.start → m'.mnext q = m.mnext q
  lens : ∀ x, x ≠ b.start → m'.mlength (.heap x) = m.mlength (.heap x)

/-- Joining a block that was put in its place keeps the free list well formed. -/
theorem Placed.join {m' : Heap} {l₁ l₂ : List Span} {b : Span} {p : Blk} {a : Nat}
    (h : Placed m m' l₁ l₂ b) (hfree : FreeList m l) (hl₁ : Chain m .memlist l₁ a)
    (hl₂ : Chain m p l₂ null) (hsep : Separated (l₁ ++ Separated.joinNext b l₂))
    (hsub : ∀ c, c ∈ l₁ ∨ c ∈ l₂ → c ∈ l) (hpos : 0 < b.size)
    (hb : m.minheap ≤ b.start ∧ b.stop ≤ m.maxheap) (hb8 : 8 ∣ b.start ∧ 8 ∣ b.size) :
    FreeList (joinBlk m' b (firstAddr null l₂)) (l₁ ++ Separated.joinNext b l₂) := by
  have hmin := hfree.minheap_pos
  have hmax := hfree.maxheap_lt
  have hstop : b.stop = b.start + b.size := rfl
  cases l₂ with
  | nil =>
      have htouch : b.stop ≠ null := by omega
      have hjoin : joinBlk m' b (firstAddr null []) = m' := if_neg htouch
      rw [hjoin]
      refine hfree.rebuild h.same
        (chain_insert hl₁ hl₂ hsep h.last h.next h.len h.nexts h.lens) hsep ?_
      intro e he
      rcases List.mem_append.mp he with he | he
      · exact Or.inl (hsub e (Or.inl he))
      · rw [List.mem_singleton.mp he]
        exact Or.inr ⟨hb, hb8⟩
  | cons c r =>
      have hcl : c ∈ l := hsub c (Or.inr (by simp))
      by_cases htouch : b.stop = c.start
      · have hc := hfree.bounds c hcl
        have hc8 := hfree.aligned c hcl
        have hcstop : c.stop = c.start + c.size := rfl
        have hcb : c.start ≠ b.start := by omega
        have hjoin : joinBlk m' b (firstAddr null (c :: r)) =
            (m'.setMlength (.heap b.start) (u32 (b.size + m'.mlength (.heap c.start)))).setMnext
              (.heap b.start) (m'.mnext (.heap c.start)) := if_pos htouch
        have hnext : Separated.joinNext b (c :: r) = ⟨b.start, b.size + c.size⟩ :: r :=
          if_pos htouch
        have hlen : m'.mlength (.heap c.start) = c.size := (h.lens _ hcb).trans hl₂.1.2
        have hu : u32 (b.size + c.size) = b.size + c.size := u32_eq (by omega)
        rw [hnext] at hsep ⊢
        rw [hjoin, hlen, hu]
        have hlast : lastBlk .memlist l₁ ≠ .heap b.start :=
          lastBlk_ne (c := ⟨b.start, b.size + c.size⟩) hsep (List.mem_cons_self ..)
        have hlastc : Blk.heap c.start ≠ lastBlk .memlist l₁ := by
          rcases lastBlk_cases .memlist l₁ with ⟨-, heq⟩ | ⟨l', d, rfl, heq⟩
          · rw [heq]; simp
          · have hlt : d.stop < b.start :=
              (Separated.append_iff.mp hsep).2.2 d (by simp) ⟨b.start, b.size + c.size⟩
                (List.mem_cons_self ..)
            have hdstop : d.stop = d.start + d.size := rfl
            rw [heq]
            simp only [ne_eq, Blk.heap.injEq]
            omega
        have hnextc : m'.mnext (.heap c.start) = firstAddr null r := by
          rw [h.nexts _ hlastc (by simpa using hcb)]
          exact hl₂.2.mnext_eq
        refine hfree.rebuild h.same (chain_insert hl₁ hl₂.2 hsep ?_ ?_ ?_ ?_ ?_) hsep ?_
        · simpa [hlast] using h.last
        · simp [hnextc]
        · simp
        · intro q hq hqb
          simp only at hqb
          simpa [hqb] using h.nexts q hq hqb
        · intro x hx
          simp only at hx
          simpa [hx] using h.lens x hx
        · intro e he
          simp only [List.mem_append, List.mem_cons] at he
          rcases he with he | rfl | he
          · exact Or.inl (hsub e (Or.inl he))
          · right
            refine ⟨⟨hb.1, ?_⟩, hb8.1, ?_⟩
            · simp only [Span.stop]; omega
            · simp only; omega
          · exact Or.inl (hsub e (Or.inr (List.mem_cons_of_mem c he)))
      · have hjoin : joinBlk m' b (firstAddr null (c :: r)) = m' := if_neg htouch
        have hnext : Separated.joinNext b (c :: r) = b :: c :: r := if_neg htouch
        rw [hnext] at hsep ⊢
        rw [hjoin]
        refine hfree.rebuild h.same
          (chain_insert hl₁ hl₂ hsep h.last h.next h.len h.nexts h.lens) hsep ?_
        intro e he
        simp only [List.mem_append, List.mem_cons] at he
        rcases he with he | rfl | he
        · exact Or.inl (hsub e (Or.inl he))
        · exact Or.inr ⟨hb, hb8⟩
        · exact Or.inl (hsub e (Or.inr (List.mem_cons.mpr he)))

/-- What `freemem` finds around the span `⟨a, k⟩`: the blocks before and after it. -/
theorem FreeList.around {a : Nat} (h : FreeList m l) :
    ∃ l₁ l₂, l = l₁ ++ l₂ ∧ (∀ b ∈ l₁, b.start < a) ∧ (∀ b ∈ l₂, a ≤ b.start) ∧
      Chain m .memlist l₁ (firstAddr null l₂) ∧ Chain m (lastBlk .memlist l₁) l₂ null ∧
        freememLoop a listFuel .memlist (m.mnext .memlist) m =
          .done (lastBlk .memlist l₁, firstAddr null l₂) m := by
  obtain ⟨l₁, l₂, rfl, hbefore, hafter, hrun⟩ :=
    freememLoop_run (a := a) h.chain h.start_pos h.separated h.length_lt
  rw [← h.chain.mnext_eq] at hrun
  have hchain := chain_append.mp h.chain
  exact ⟨l₁, l₂, rfl, hbefore, hafter, hchain.1, hchain.2, hrun⟩

/-- `freemem` adds a span of the heap none of whose addresses is free. -/
theorem freemem_run {a : Nat} (h : FreeList m l) (hn : 0 < n) (hk : 0 < roundmb n)
    (ha : 8 ∣ a) (hb : m.minheap ≤ a ∧ a + roundmb n ≤ m.maxheap)
    (hnew : ∀ x, Span.Contains ⟨a, roundmb n⟩ x → ¬ Covers l x) :
    ∃ m' l', freemem a n m = .done true m' ∧ Released m m' l l' ⟨a, roundmb n⟩ := by
  obtain ⟨l₁, l₂, rfl, hbefore, hafter, hl₁, hl₂, hloop⟩ := h.around (a := a)
  generalize hkk : roundmb n = k at *
  have hmin := h.minheap_pos
  have hmax := h.maxheap_lt
  have hk8 : 8 ∣ k := hkk ▸ dvd_roundmb n
  have hargs : ¬ (n = 0 ∨ a < m.minheap ∨ a > m.maxheap) := by omega
  -- the blocks around the span do not reach into it
  have hle₁ : ∀ c ∈ l₁, c.stop ≤ a := by
    intro c hc
    by_contra hlt
    refine hnew a ⟨Nat.le_refl _, by simp only [Span.stop]; omega⟩ ⟨c, by simp [hc], ?_⟩
    exact ⟨Nat.le_of_lt (hbefore c hc), by omega⟩
  have hle₂ : ∀ c ∈ l₂, a + k ≤ c.start := by
    intro c hc
    by_contra hlt
    have hcpos := h.separated.size_pos c (by simp [hc])
    refine hnew c.start ⟨hafter c hc, by simp only [Span.stop]; omega⟩ ⟨c, by simp [hc], ?_⟩
    exact ⟨Nat.le_refl _, by unfold Span.stop; omega⟩
  have hu : u32 (a + k) = a + k := u32_eq (by omega)
  have hnext : ¬ (firstAddr null l₂ ≠ null ∧ firstAddr null l₂ < a + k) := by
    cases l₂ with
    | nil => simp [firstAddr]
    | cons c r =>
        have := hle₂ c (by simp)
        simp only [firstAddr]
        omega
  by_cases htouch : ∃ l' c, l₁ = l' ++ [c] ∧ c.stop = a
  · -- the block before ends where the span starts
    obtain ⟨l', c, rfl, hca⟩ := htouch
    have hcl : c ∈ (l' ++ [c]) ++ l₂ := by simp
    have hc := h.bounds c hcl
    have hc8 := h.aligned c hcl
    have hcstop : c.stop = c.start + c.size := rfl
    have hlast : lastBlk .memlist (l' ++ [c]) = .heap c.start := by simp
    have hsplit : FreeList m (l' ++ c :: l₂) := by simpa using h
    obtain ⟨hl', hpc, hnc, hlc, hlr⟩ := hsplit.split
    obtain ⟨hsep, hcov⟩ := hsplit.separated.joinPrev (b := ⟨a, k⟩) hca hle₂
    have hplaced : Placed m ((m.giveTotal k).setMlength (.heap c.start) (c.size + k)) l' l₂
        ⟨c.start, c.size + k⟩ := by
      refine ⟨⟨rfl, rfl, rfl⟩, by simpa using hpc, by simpa using hnc, by simp, ?_, ?_⟩
      · intro q _ _; simp
      · intro x hx
        simp only at hx
        simp [hx]
    have hjoin := hplaced.join h hl' hlr hsep (by
      intro e he
      simp only [List.append_assoc, List.mem_append, List.mem_cons]
      rcases he with he | he
      · exact Or.inl he
      · exact Or.inr (Or.inr he)) (by simp only; omega) (by simp only [Span.stop]; omega)
      (by simp only; omega)
    refine ⟨_, _, ?_, hjoin, ?_, fun x => (hcov x).trans (by simp)⟩
    · have hutop : u32 (c.start + c.size) = a := by rw [u32_eq (by omega)]; omega
      have hulen : u32 (c.size + k) = c.size + k := u32_eq (by omega)
      have hustop : u32 (c.start + (c.size + k)) = c.start + (c.size + k) := u32_eq (by omega)
      simp [freemem, hargs, hkk, hloop, hlast, hlc, hutop, hulen, hustop, hu, hnext,
        joinBlk, Span.stop]
      split <;> rfl
    · exact hplaced.same.join _ _
  · -- the span becomes a block of its own
    have hlt : ∀ c ∈ l₁, c.stop < a := by
      intro c hc
      by_contra hge
      obtain ⟨l', d, rfl⟩ : ∃ l' d, l₁ = l' ++ [d] := by
        rcases lastBlk_cases .memlist l₁ with ⟨rfl, -⟩ | ⟨l', d, hd, -⟩
        · simp at hc
        · exact ⟨l', d, hd⟩
      have hgap := (Separated.append_iff.mp (Separated.append_iff.mp h.separated).1).2.2
      rcases List.mem_append.mp hc with hc' | hc'
      · have hcd := hgap c hc' d (by simp)
        have hda := hle₁ d (by simp)
        unfold Span.stop at hda hge hcd
        omega
      · rw [List.mem_singleton.mp hc'] at hge hc
        exact htouch ⟨l', d, rfl, by have := hle₁ d hc; omega⟩
    obtain ⟨hsep, hcov⟩ := h.separated.link (b := ⟨a, k⟩) hk hlt hle₂
    have hlast : lastBlk .memlist l₁ ≠ .heap a := by
      rcases lastBlk_cases .memlist l₁ with ⟨-, heq⟩ | ⟨l', d, rfl, heq⟩
      · rw [heq]; simp
      · have hda := hbefore d (by simp)
        rw [heq]
        simp only [ne_eq, Blk.heap.injEq]
        omega
    have hplaced : Placed m ((((m.giveTotal k).setMnext (.heap a) (firstAddr null l₂)).setMlength
        (.heap a) k).setMnext (lastBlk .memlist l₁) a) l₁ l₂ ⟨a, k⟩ := by
      refine ⟨⟨rfl, rfl, rfl⟩, by simp, by simp [hlast.symm], by simp, ?_, ?_⟩
      · intro q hq hqa
        simp only at hqa
        simp [hq, hqa]
      · intro x hx
        simp only at hx
        simp [hx]
    have hjoin := hplaced.join h hl₁ hl₂ hsep (by
      intro e he
      exact List.mem_append.mpr he) hk (by simp only [Span.stop]; omega) ⟨ha, hk8⟩
    refine ⟨_, _, ?_, hjoin, hplaced.same.join _ _, hcov⟩
    obtain ⟨top, htop⟩ : ∃ top, (if lastBlk .memlist l₁ = .memlist then null else
        u32 (m.addr (lastBlk .memlist l₁) + m.mlength (lastBlk .memlist l₁))) = top := ⟨_, rfl⟩
    have htopa : top < a := by
      rw [← htop]
      rcases lastBlk_cases .memlist l₁ with ⟨-, heq⟩ | ⟨l', d, rfl, heq⟩
      · rw [heq, if_pos rfl]; omega
      · have hd := hlt d (by simp)
        have hchain : FreeList m (l' ++ d :: l₂) := by simpa using h
        have hdstop : d.stop = d.start + d.size := rfl
        rw [heq, if_neg (by simp), addr_heap, hchain.split.2.2.2.1, u32_eq (by omega)]
        omega
    have hge : ¬ a < top := by omega
    have hne : top ≠ a := by omega
    simp [freemem, hargs, hkk, hloop, htop, hge, hne, hnext, hu, joinBlk, Span.stop]
    split <;> rfl

/-- `freemem` refuses a span one of whose addresses is free already. -/
theorem freemem_run_overlap {a x : Nat} (h : FreeList m l)
    (hb : m.minheap ≤ a ∧ a + roundmb n ≤ m.maxheap) (hx : Span.Contains ⟨a, roundmb n⟩ x)
    (hold : Covers l x) : freemem a n m = .done false m := by
  by_cases hn : n = 0
  · simp [freemem, hn]
  obtain ⟨l₁, l₂, rfl, hbefore, hafter, hl₁, hl₂, hloop⟩ := h.around (a := a)
  generalize hkk : roundmb n = k at *
  have hmax := h.maxheap_lt
  have hargs : ¬ (n = 0 ∨ a < m.minheap ∨ a > m.maxheap) := by omega
  have hu : u32 (a + k) = a + k := u32_eq (by omega)
  obtain ⟨hax, hxk⟩ := hx
  simp only [Span.stop] at hax hxk
  obtain ⟨c, hc, hcx, hxc⟩ := hold
  rcases List.mem_append.mp hc with hc | hc
  · -- the address is in the block before the span
    obtain ⟨l', d, rfl⟩ : ∃ l' d, l₁ = l' ++ [d] := by
      rcases lastBlk_cases .memlist l₁ with ⟨rfl, -⟩ | ⟨l', d, hd, -⟩
      · simp at hc
      · exact ⟨l', d, hd⟩
    have hgap := (Separated.append_iff.mp (Separated.append_iff.mp h.separated).1).2.2
    have hcd : x < d.stop := by
      rcases List.mem_append.mp hc with hc' | hc'
      · have hlt := hgap c hc' d (by simp)
        have hda := hbefore d (by simp)
        omega
      · rw [List.mem_singleton.mp hc'] at hxc
        exact hxc
    have hchain : FreeList m (l' ++ d :: l₂) := by simpa using h
    have hdb := hchain.bounds d (by simp)
    have hdstop : d.stop = d.start + d.size := rfl
    have htop : u32 (d.start + d.size) = d.stop := u32_eq (by omega)
    have hlt : a < d.stop := by omega
    simp [freemem, hargs, hkk, hloop, hchain.split.2.2.2.1, htop, hlt]
  · -- the address is in a block after the span
    cases l₂ with
    | nil => simp at hc
    | cons d r =>
        have hd : d.start < a + k := by
          have hsep := Separated.cons_iff.mp (Separated.append_iff.mp h.separated).2.1
          rcases List.mem_cons.mp hc with rfl | hc
          · omega
          · have hlt := hsep.2.1 c hc
            unfold Span.stop at hlt
            omega
        have hd0 : d.start ≠ null := h.start_pos d (by simp)
        simp [freemem, hargs, hkk, hloop, firstAddr, hu, hd, hd0]

/-! ## freestk -/

/-- `freestk` of what `getstk` returned releases the span that was granted. -/
theorem freestk_eq {a : Nat} (ha : 4 ≤ a) (hlt : a + roundmb n < 0x100000000) :
    freestk (a + roundmb n - 4) n = freemem a (roundmb n) := by
  have hu : u32 (a + roundmb n - 4 + 0x100000000 - roundmb n + 4) = a := by
    unfold u32
    omega
  rw [freestk, hu]

end Runs

end Memory
end Xinu
