import Xinu.Memory.FreeList

/-!
# The allocator partitions the heap

A client of the allocator holds grants and gives each of them back with the
size it asked for.  Along every history of such requests the free blocks and
the granted spans partition the heap.

Main results:

- Theorem `Partition.step`: every request keeps the partition.
- Theorem `partition_of_history`: the free-memory invariant, and the initial
  block comes back when everything is released.
-/

namespace Xinu
namespace Memory

open Foundations

/-- A block obtained from the allocator, with the size that was asked for. -/
inductive Grant where
  /-- `blkaddr` was returned by `getmem(nbytes)`. -/
  | mem (blkaddr nbytes : Nat)
  /-- `p` was returned by `getstk(len)`. -/
  | stk (p len : Nat)
deriving DecidableEq, Repr

namespace Grant

def nbytes : Grant → Nat
  | .mem _ n => n
  | .stk _ n => n

/-- The addresses granted; `getstk` returns the last word of them. -/
def span : Grant → Span
  | .mem a n => ⟨a, roundmb n⟩
  | .stk p n => ⟨p + 4 - roundmb n, roundmb n⟩

/-- Give the block back with its own size. -/
def release : Grant → HeapM Bool
  | .mem a n => freemem a n
  | .stk p n => freestk p n

/-- Where the allocator may have placed a grant. -/
structure InHeap (m : Heap) (g : Grant) : Prop where
  nbytes_pos : 0 < g.nbytes
  no_wrap : g.nbytes + 7 < 0x100000000
  bounds : m.minheap ≤ g.span.start ∧ g.span.stop ≤ m.maxheap
  aligned : 8 ∣ g.span.start
  last_word : ∀ p n, g = .stk p n → p + 4 = g.span.stop

end Grant

/-- The requests of a client that releases only what it holds. -/
inductive Step : Heap × List Grant → Heap × List Grant → Prop
  | getmem {m m' : Heap} {g : List Grant} {n a : Nat} (hn : n + 7 < 0x100000000)
      (hrun : getmem n m = .done (some a) m') : Step (m, g) (m', .mem a n :: g)
  | getmem_syserr {m m' : Heap} {g : List Grant} {n : Nat} (hn : n + 7 < 0x100000000)
      (hrun : getmem n m = .done none m') : Step (m, g) (m', g)
  | getstk {m m' : Heap} {g : List Grant} {n p : Nat} (hn : n + 7 < 0x100000000)
      (hrun : getstk n m = .done (some p) m') : Step (m, g) (m', .stk p n :: g)
  | getstk_syserr {m m' : Heap} {g : List Grant} {n : Nat} (hn : n + 7 < 0x100000000)
      (hrun : getstk n m = .done none m') : Step (m, g) (m', g)
  | release {m m' : Heap} {g : List Grant} {b : Grant} {v : Bool} (hb : b ∈ g)
      (hrun : b.release m = .done v m') : Step (m, g) (m', g.erase b)

/-- The histories from the heap `m₀`, with what is held after them. -/
inductive History (m₀ : Heap) : Heap × List Grant → Prop
  | start : History m₀ (m₀, [])
  | step {c c' : Heap × List Grant} (hrun : History m₀ c) (hstep : Step c c') : History m₀ c'

/-- Release several blocks, in the order of the list; whether all releases succeed. -/
def releaseAll : List Grant → HeapM Bool
  | [] => return true
  | b :: g => do
      let v ← b.release
      let w ← releaseAll g
      return v && w

/-- The free blocks `l` and the grants `g` partition the heap from `lo` to `hi`. -/
structure Partition (lo hi : Nat) (m : Heap) (l : List Span) (g : List Grant) : Prop where
  bounds : m.minheap = lo ∧ m.maxheap = hi
  free : FreeList m l
  held : ∀ b ∈ g, b.InHeap m
  apart : g.Pairwise fun b c => b.span.Apart c.span
  free_apart : ∀ c ∈ l, ∀ b ∈ g, c.Apart b.span
  covers : ∀ x, lo ≤ x ∧ x < hi ↔ Covers l x ∨ Covers (g.map Grant.span) x

section Requests

variable {m m' : Heap} {l l' : List Span} {g : List Grant} {b : Grant} {lo hi : Nat}

theorem covers_map_span {x : Nat} :
    Covers (g.map Grant.span) x ↔ ∃ b ∈ g, b.span.Contains x := by
  simp [Covers]

/-- The lists of a partition, as sets of addresses. -/
theorem free_apart_iff :
    (∀ c ∈ l, ∀ b ∈ g, c.Apart b.span) ↔ ∀ b ∈ g, ∀ x, b.span.Contains x → ¬ Covers l x := by
  constructor
  · rintro h b hb x hx ⟨c, hc, hcx⟩
    exact h c hc b hb x hcx hx
  · intro h c hc b hb x hcx hx
    exact h b hb x hx ⟨c, hc, hcx⟩

theorem Grant.InHeap.congr (h : b.InHeap m) (hsame : SameBounds m m') : b.InHeap m' := by
  refine ⟨h.nbytes_pos, h.no_wrap, ?_, h.aligned, h.last_word⟩
  rw [hsame.1, hsame.2.1]
  exact h.bounds

/-- Releasing a grant that is in the heap and not free returns its addresses. -/
theorem Grant.InHeap.release_run (h : b.InHeap m) (hfree : FreeList m l)
    (hnew : ∀ x, b.span.Contains x → ¬ Covers l x) :
    ∃ m' l', b.release m = .done true m' ∧ Released m m' l l' b.span := by
  have hmin := hfree.minheap_pos
  have hmax := hfree.maxheap_lt
  obtain ⟨hlo, hhi⟩ := h.bounds
  have h8 := h.aligned
  have hle := le_roundmb h.no_wrap
  have hpos := h.nbytes_pos
  cases b with
  | mem a n =>
      simp only [Grant.nbytes] at hle hpos
      exact freemem_run hfree hpos (by omega) h8 ⟨hlo, hhi⟩ hnew
  | stk p n =>
      have hword := h.last_word p n rfl
      simp only [Grant.nbytes] at hle hpos
      generalize hspan : (Grant.stk p n).span = c at *
      have hsize : c.size = roundmb n := by rw [← hspan]; rfl
      have hstop : c.stop = c.start + c.size := rfl
      have hp : p = c.start + roundmb n - 4 := by omega
      have hround : roundmb (roundmb n) = roundmb n := roundmb_eq (dvd_roundmb n) (roundmb_lt n)
      have hc : c = ⟨c.start, roundmb (roundmb n)⟩ := by rw [hround, ← hsize]
      have hrun : (Grant.stk p n).release = freemem c.start (roundmb n) := by
        rw [Grant.release, hp, freestk_eq (by unfold null at hmin; omega) (by omega)]
      rw [hrun]
      have hend : c.start + roundmb (roundmb n) ≤ m.maxheap := by omega
      rw [hc] at hnew ⊢
      exact freemem_run hfree (by omega) (by omega) h8 ⟨hlo, hend⟩ hnew

/-- A grant that was just obtained joins the partition. -/
theorem Partition.grant (h : Partition lo hi m l g) (hgrant : Granted m m' l l' b.span)
    (hb : b.InHeap m) : Partition lo hi m' l' (b :: g) := by
  have hapart := free_apart_iff.mp h.free_apart
  refine ⟨?_, hgrant.free, ?_, ?_, ?_, ?_⟩
  · rw [hgrant.same.1, hgrant.same.2.1]; exact h.bounds
  · intro c hc
    rcases List.mem_cons.mp hc with rfl | hc
    · exact hb.congr hgrant.same
    · exact (h.held c hc).congr hgrant.same
  · refine List.pairwise_cons.mpr ⟨?_, h.apart⟩
    intro c hc x hbx hcx
    exact hapart c hc x hcx (hgrant.was_free x hbx)
  · refine free_apart_iff.mpr ?_
    intro c hc x hcx hx
    rw [hgrant.covers] at hx
    rcases List.mem_cons.mp hc with rfl | hc
    · exact hx.2 hcx
    · exact hapart c hc x hcx hx.1
  · intro x
    rw [h.covers x, hgrant.covers x, List.map_cons, covers_cons]
    have hwas := hgrant.was_free x
    by_cases hbx : b.span.Contains x
    · simp [hbx, hwas hbx]
    · simp [hbx]

/-- A grant that is given back leaves the partition. -/
theorem Partition.release (h : Partition lo hi m l g) (hb : b ∈ g) :
    ∃ m' l', b.release m = .done true m' ∧ Partition lo hi m' l' (g.erase b) := by
  have hapart := free_apart_iff.mp h.free_apart
  have hperm := List.perm_cons_erase hb
  have hpair : (b :: g.erase b).Pairwise fun b c => b.span.Apart c.span :=
    (hperm.pairwise_iff fun h => h.symm).mp h.apart
  have hsub : ∀ c ∈ g.erase b, c ∈ g := fun c hc => List.mem_of_mem_erase hc
  obtain ⟨m', l', hrun, hrel⟩ := (h.held b hb).release_run h.free (hapart b hb)
  refine ⟨m', l', hrun, ⟨?_, hrel.free, ?_, (List.pairwise_cons.mp hpair).2, ?_, ?_⟩⟩
  · rw [hrel.same.1, hrel.same.2.1]; exact h.bounds
  · intro c hc
    exact (h.held c (hsub c hc)).congr hrel.same
  · refine free_apart_iff.mpr ?_
    intro c hc x hcx hx
    rcases (hrel.covers x).mp hx with hx | hx
    · exact hapart c (hsub c hc) x hcx hx
    · exact (List.pairwise_cons.mp hpair).1 c hc x hx hcx
  · intro x
    have hmap : Covers (g.map Grant.span) x ↔
        b.span.Contains x ∨ Covers ((g.erase b).map Grant.span) x := by
      simp only [covers_map_span, hperm.mem_iff, List.mem_cons, exists_eq_or_imp]
    rw [h.covers x, hrel.covers x, hmap, or_assoc]

/-- Every request keeps the partition. -/
theorem Partition.step {c c' : Heap × List Grant} (hstep : Step c c')
    (h : ∃ l, Partition lo hi c.1 l c.2) : ∃ l, Partition lo hi c'.1 l c'.2 := by
  obtain ⟨l, h⟩ := h
  have hmin := h.free.minheap_pos
  cases hstep with
  | @getmem m m' g n a hn hrun =>
      rcases getmem_run (n := n) h.free with ⟨-, hfail⟩ | ⟨hpos, a', m₁, l', hdone, hgrant⟩
      · rw [hfail] at hrun; simp at hrun
      · rw [hdone] at hrun
        simp only [Flow.done.injEq, Option.some.injEq] at hrun
        obtain ⟨rfl, rfl⟩ := hrun
        exact ⟨l', h.grant (b := .mem a' n) hgrant
          ⟨hpos, hn, hgrant.bounds, hgrant.aligned, by simp⟩⟩
  | @getmem_syserr m m' g n hn hrun =>
      rcases getmem_run (n := n) h.free with ⟨-, hfail⟩ | ⟨hpos, a', m₁, l', hdone, hgrant⟩
      · rw [hfail] at hrun
        simp only [Flow.done.injEq] at hrun
        exact ⟨l, hrun.2 ▸ h⟩
      · rw [hdone] at hrun; simp at hrun
  | @getstk m m' g n p hn hrun =>
      rcases getstk_run (n := n) h.free with ⟨-, hfail⟩ | ⟨hpos, a', m₁, l', hdone, hgrant⟩
      · rw [hfail] at hrun; simp at hrun
      · rw [hdone] at hrun
        simp only [Flow.done.injEq, Option.some.injEq] at hrun
        obtain ⟨rfl, rfl⟩ := hrun
        have ha : 8 ≤ a' := by
          have h8 : 8 ∣ a' := hgrant.aligned
          have hlo : m.minheap ≤ a' := hgrant.bounds.1
          have hmin : 0 < m.minheap := hmin
          omega
        have hspan : (Grant.stk (a' + roundmb n - 4) n).span = ⟨a', roundmb n⟩ := by
          simp only [Grant.span, Span.mk.injEq, and_true]
          omega
        rw [← hspan] at hgrant
        refine ⟨l', h.grant hgrant ⟨hpos, hn, hgrant.bounds, hgrant.aligned, ?_⟩⟩
        intro p k heq
        simp only [Grant.stk.injEq] at heq
        rw [hspan, ← heq.1]
        simp only [Span.stop]
        omega
  | @getstk_syserr m m' g n hn hrun =>
      rcases getstk_run (n := n) h.free with ⟨-, hfail⟩ | ⟨hpos, a', m₁, l', hdone, hgrant⟩
      · rw [hfail] at hrun
        simp only [Flow.done.injEq] at hrun
        exact ⟨l, hrun.2 ▸ h⟩
      · rw [hdone] at hrun; simp at hrun
  | @release m m' g b v hb hrun =>
      obtain ⟨m₁, l', hdone, hpart⟩ := h.release hb
      rw [hdone] at hrun
      simp only [Flow.done.injEq] at hrun
      exact ⟨l', hrun.2 ▸ hpart⟩

/-- Releasing all grants, in any order, gives back the whole heap. -/
theorem Partition.releaseAll (h : Partition lo hi m l g) {order : List Grant}
    (horder : order.Perm g) :
    ∃ m' l', releaseAll order m = .done true m' ∧ Partition lo hi m' l' [] := by
  induction order generalizing m l g with
  | nil =>
      have hg : g = [] := horder.nil_eq.symm
      subst g
      exact ⟨m, l, rfl, h⟩
  | cons b order ih =>
      have hb : b ∈ g := horder.mem_iff.mp (List.mem_cons_self ..)
      obtain ⟨m₁, l₁, hrun, hpart⟩ := h.release hb
      have hrest : order.Perm (g.erase b) :=
        (horder.trans (List.perm_cons_erase hb)).cons_inv
      obtain ⟨m', l', hrun', hpart'⟩ := ih hpart hrest
      exact ⟨m', l', by simp [Memory.releaseAll, hrun, hrun'], hpart'⟩

/-- When nothing is held, the free list is the single block it started from. -/
theorem Partition.free_eq (h : Partition lo hi m l []) (hlt : lo < hi) :
    l = [⟨lo, hi - lo⟩] := by
  refine h.free.separated.ext (Separated.singleton (by simp only; omega)) fun x => ?_
  have hx := h.covers x
  simp only [List.map_nil, covers_nil, or_false] at hx
  rw [← hx]
  simp only [covers_cons, covers_nil, or_false, Span.Contains, Span.stop]
  omega

end Requests

/-- The heap after `meminit` is one free block. -/
theorem partition_meminit {lo hi : Nat} (hlo : 8 ∣ lo) (hhi : 8 ∣ hi) (hpos : null < lo)
    (hlt : lo < hi) (hmax : hi < 0x100000000) (memlistAddr : Nat) (contents : Blk → Memblk) :
    Partition lo hi (meminit lo hi memlistAddr contents) [⟨lo, hi - lo⟩] [] := by
  refine ⟨⟨rfl, rfl⟩, ⟨hpos, hmax, ?_, Separated.singleton (by simp only; omega), ?_, ?_⟩,
    by simp, List.Pairwise.nil, by simp, ?_⟩
  · simp [Chain, meminit, Heap.mnext, Heap.mlength]
  · intro b hb
    rw [List.mem_singleton.mp hb]
    simp only [meminit, Span.stop]
    omega
  · intro b hb
    rw [List.mem_singleton.mp hb]
    simp only
    omega
  · intro x
    simp only [covers_cons, covers_nil, or_false, List.map_nil, Span.Contains, Span.stop]
    omega

/-- No request of a client is left without an answer. -/
theorem Partition.returns {lo hi : Nat} {m : Heap} {l : List Span} {g : List Grant}
    (h : Partition lo hi m l g) (n : Nat) :
    (∃ r m', getmem n m = .done r m') ∧ ∃ r m', getstk n m = .done r m' := by
  constructor
  · rcases getmem_run (n := n) h.free with ⟨-, hrun⟩ | ⟨-, a, m', l', hrun, -⟩
    · exact ⟨_, _, hrun⟩
    · exact ⟨_, _, hrun⟩
  · rcases getstk_run (n := n) h.free with ⟨-, hrun⟩ | ⟨-, a, m', l', hrun, -⟩
    · exact ⟨_, _, hrun⟩
    · exact ⟨_, _, hrun⟩

/--
The free-memory invariant: after every history the free blocks, in increasing
order, coalesced and aligned, partition the heap together with the blocks held,
every request is answered, and releasing the blocks held in any order succeeds
and leaves the initial block.
-/
theorem partition_of_history {lo hi memlistAddr : Nat} {contents : Blk → Memblk} {m : Heap}
    {g : List Grant} (hlo : 8 ∣ lo) (hhi : 8 ∣ hi) (hpos : null < lo) (hlt : lo < hi)
    (hmax : hi < 0x100000000) (hrun : History (meminit lo hi memlistAddr contents) (m, g)) :
    (∃ l, Partition lo hi m l g) ∧
      (∀ n, (∃ r m', getmem n m = .done r m') ∧ ∃ r m', getstk n m = .done r m') ∧
        ∀ order, order.Perm g → ∃ m', releaseAll order m = .done true m' ∧
          Chain m' .memlist [⟨lo, hi - lo⟩] null := by
  have hpart : ∀ c, History (meminit lo hi memlistAddr contents) c →
      ∃ l, Partition lo hi c.1 l c.2 := by
    intro c hc
    induction hc with
    | start => exact ⟨_, partition_meminit hlo hhi hpos hlt hmax memlistAddr contents⟩
    | step hrun hstep ih => exact Partition.step hstep ih
  obtain ⟨l, h⟩ := hpart _ hrun
  refine ⟨⟨l, h⟩, h.returns, ?_⟩
  intro order horder
  obtain ⟨m', l', hdone, hend⟩ := h.releaseAll horder
  refine ⟨m', hdone, ?_⟩
  rw [← hend.free_eq hlt]
  exact hend.free.chain

/-- A heap of 64 bytes whose client holds a block of 16 bytes and a stack of 8. -/
theorem partition_after_two_grants :
    ∃ m l, Partition 8 72 m l [.stk 68 5, .mem 8 16] ∧
      ∃ m', releaseAll [.mem 8 16, .stk 68 5] m = .done true m' ∧
        Chain m' .memlist [⟨8, 64⟩] null := by
  have hmem : History (meminit 8 72 0 fun _ => ⟨0, 0⟩) (_, [.mem 8 16]) :=
    .step .start (.getmem (n := 16) (by decide) rfl)
  have hstk : History (meminit 8 72 0 fun _ => ⟨0, 0⟩) (_, [.stk 68 5, .mem 8 16]) :=
    .step hmem (.getstk (n := 5) (by decide) rfl)
  obtain ⟨⟨l, hpart⟩, -, hall⟩ := partition_of_history (by decide) (by decide) (by decide)
    (by decide) (by decide) hstk
  exact ⟨_, l, hpart, hall _ (List.Perm.swap ..)⟩

end Memory
end Xinu
