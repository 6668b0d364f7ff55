import Xinu.Memory.Requests

/-!
# Releases of what was not allocated

`freemem` compares the block with its two neighbours in the free list, and its address with
the bounds of the heap.  The end of the block is only compared with the next free block, and
the sums are 32-bit words.

Main results:

- Theorem `freemem_harmless`: for which arguments `freemem` refuses the block or leaves a
  free list that is well formed.
- Theorem `free_past_end`: a block that goes past the end of the heap is accepted.
-/

namespace Xinu
namespace Memory

open Foundations

/-- The blocks of the free list are in increasing order and coalesced, none is empty, and
all are in the heap. -/
def Sound (m : Heap) : Prop :=
  ∃ l, Chain m .memlist l null ∧ Separated l ∧ ∀ b ∈ l, m.minheap ≤ b.start ∧ b.stop ≤ m.maxheap

/-- The block is refused and nothing changes, or it is accepted and the free list is well
formed. -/
def Harmless (a n : Nat) (m : Heap) : Prop :=
  freemem a n m = .done false m ∨
    ∃ m', freemem a n m = .done true m' ∧ SameBounds m m' ∧ Sound m'

/-- The checks of `freemem` refuse the block, where `l` is the free list. -/
def Refused (m : Heap) (l : List Span) (a n : Nat) : Prop :=
  n = 0 ∨ a < m.minheap ∨ m.maxheap < a ∨ (∃ b ∈ l, b.start < a ∧ a < b.stop) ∨
    ∃ b ∈ l, a ≤ b.start ∧ b.start < u32 (a + roundmb n)

/-- The block ends in the heap; or it touches the end of a free block, and rounding made it
empty or the length of the two together wraps, so that the free block shrinks. -/
def Releasable (m : Heap) (l : List Span) (a n : Nat) : Prop :=
  (0 < roundmb n ∧ a + roundmb n ≤ m.maxheap) ∨
    ∃ b ∈ l, b.stop = a ∧ (roundmb n = 0 ∨ 0x100000000 < b.size + roundmb n)

/-- The block ends where the addresses end, and no free block comes after it: what `freemem`
takes for the next block is at the null pointer. -/
def MeetsNull (l : List Span) (a n : Nat) : Prop :=
  a + roundmb n = 0x100000000 ∧ ∀ b ∈ l, b.start < a

section Frees

variable {m m' : Heap} {l l₁ l₂ : List Span} {p : Blk} {a k n x next : Nat}

/-- The top of the previous block. -/
def topOf (m : Heap) (prev : Blk) : Nat :=
  if prev = .memlist then null else u32 (m.addr prev + m.mlength prev)

/-- The heap with a new block at `a`, after `prev` and before `next`. -/
def newBlk (m : Heap) (prev : Blk) (a k next : Nat) : Heap :=
  (((m.giveTotal k).setMnext (.heap a) next).setMlength (.heap a) k).setMnext prev a

/-- The heap after the block at `b` has been joined with the one at `next`, if they touch. -/
def joined (m : Heap) (b : Blk) (next : Nat) : Heap :=
  if u32 (m.addr b + m.mlength b) = next then
    (m.setMlength b (u32 (m.mlength b + m.mlength (.heap next)))).setMnext b
      (m.mnext (.heap next))
  else m

/-- The heap with `k` bytes more in the block at `p`. -/
def grown (m : Heap) (p : Blk) (k : Nat) : Heap :=
  (m.giveTotal k).setMlength p (u32 ((m.giveTotal k).mlength p + k))

/-- What `freemem` does with a block that it does not refuse. -/
theorem freemem_accepted (hn : n ≠ 0) (hlo : m.minheap ≤ a) (hhi : a ≤ m.maxheap)
    (hloop : freememLoop a listFuel .memlist (m.mnext .memlist) m = .done (p, next) m)
    (hprev : ¬ (p ≠ .memlist ∧ a < topOf m p))
    (hnext : ¬ (next ≠ null ∧ u32 (a + roundmb n) > next)) :
    freemem a n m = .done true
      (if topOf m p = a then joined (grown m p (roundmb n)) p next
      else joined (newBlk m p a (roundmb n) next) (.heap a) next) := by
  have hargs : ¬ (n = 0 ∨ a < m.minheap ∨ a > m.maxheap) := by omega
  have hcheck : ¬ ((p ≠ .memlist ∧ a < topOf m p) ∨
      (next ≠ null ∧ u32 (a + roundmb n) > next)) := not_or.mpr ⟨hprev, hnext⟩
  have htop : (if p = .memlist then null else u32 (m.addr p + m.mlength p)) = topOf m p := rfl
  have hjoin : ∀ (m' : Heap) (b : Blk), (if u32 (m'.addr b + m'.mlength b) = next then
      (modify (fun x : Heap => x.setMlength b (u32 (m'.mlength b + m'.mlength (.heap next)))) >>=
        fun _ => modify (fun x : Heap => x.setMnext b (m'.mnext (.heap next))) >>= fun _ =>
          pure true : HeapM Bool)
      else pure true) m' = .done true (joined m' b next) := by
    intro m' b
    unfold joined
    rw [Coop.run_ite]
    split
    · rfl
    · rfl
  unfold freemem
  rw [Coop.run_bind, Coop.run_get, Flow.bind_done, Coop.run_ite, if_neg hargs, Coop.run_bind,
    hloop, Flow.bind_done]
  dsimp only
  rw [Coop.run_bind, Coop.run_get, Flow.bind_done, Coop.run_ite, htop, if_neg hcheck,
    Coop.run_bind, Coop.run_modify, Flow.bind_done, Coop.run_ite]
  split
  · exact hjoin (grown m p (roundmb n)) p
  · exact hjoin (newBlk m p a (roundmb n) next) (.heap a)

/-- The block is refused. -/
theorem freemem_refused (hloop : freememLoop a listFuel .memlist (m.mnext .memlist) m =
      .done (p, next) m)
    (h : n = 0 ∨ a < m.minheap ∨ m.maxheap < a ∨ (p ≠ .memlist ∧ a < topOf m p) ∨
      (next ≠ null ∧ u32 (a + roundmb n) > next)) : freemem a n m = .done false m := by
  have htop : (if p = .memlist then null else u32 (m.addr p + m.mlength p)) = topOf m p := rfl
  unfold freemem
  rw [Coop.run_bind, Coop.run_get, Flow.bind_done, Coop.run_ite]
  split
  · rfl
  · next hargs =>
      rw [Coop.run_bind, hloop, Flow.bind_done]
      dsimp only
      rw [Coop.run_bind, Coop.run_get, Flow.bind_done, Coop.run_ite, htop]
      have hcheck : (p ≠ .memlist ∧ a < topOf m p) ∨
          (next ≠ null ∧ u32 (a + roundmb n) > next) := by
        rcases h with h | h | h | h | h
        · exact (hargs (Or.inl h)).elim
        · exact (hargs (Or.inr (Or.inl h))).elim
        · exact (hargs (Or.inr (Or.inr h))).elim
        · exact Or.inl h
        · exact Or.inr h
      rw [if_pos hcheck]
      rfl

/-! ## The neighbours -/

/-- The last of the blocks before the address, and its top. -/
theorem FreeList.last_cases (h : FreeList m (l₁ ++ l₂)) :
    (l₁ = [] ∧ lastBlk .memlist l₁ = .memlist ∧ topOf m (lastBlk .memlist l₁) = null) ∨
      ∃ l' c, l₁ = l' ++ [c] ∧ lastBlk .memlist l₁ = .heap c.start ∧
        topOf m (lastBlk .memlist l₁) = c.stop := by
  rcases lastBlk_cases .memlist l₁ with ⟨hnil, hlast⟩ | ⟨l', c, rfl, hlast⟩
  · left
    refine ⟨hnil, hlast, ?_⟩
    rw [hlast]
    rfl
  · right
    refine ⟨l', c, rfl, hlast, ?_⟩
    have hc : c ∈ (l' ++ [c]) ++ l₂ := by simp
    have hbounds := h.bounds c hc
    have hmax := h.maxheap_lt
    have hsplit : FreeList m (l' ++ c :: l₂) := by simpa using h
    have hlen : m.mlength (.heap c.start) = c.size := hsplit.split.2.2.2.1
    have hstop : c.stop = c.start + c.size := rfl
    rw [hlast]
    unfold topOf
    rw [if_neg (by simp), addr_heap, hlen, u32_eq (by omega)]
    rfl

/-- The blocks before the last one end before it. -/
theorem FreeList.stop_lt {l' : List Span} {b c : Span} (h : FreeList m ((l' ++ [c]) ++ l₂))
    (hb : b ∈ l' ++ [c]) : b = c ∨ b.stop < c.start := by
  have hgap := (Separated.append_iff.mp (Separated.append_iff.mp h.separated).1).2.2
  rcases List.mem_append.mp hb with hb | hb
  · exact Or.inr (hgap b hb c (List.mem_singleton_self c))
  · exact Or.inl (List.mem_singleton.mp hb)

theorem FreeList.prev_iff (h : FreeList m (l₁ ++ l₂)) (hbefore : ∀ b ∈ l₁, b.start < a)
    (hafter : ∀ b ∈ l₂, a ≤ b.start) :
    (lastBlk .memlist l₁ ≠ .memlist ∧ a < topOf m (lastBlk .memlist l₁)) ↔
      ∃ b ∈ l₁ ++ l₂, b.start < a ∧ a < b.stop := by
  rcases h.last_cases with ⟨rfl, hlast, -⟩ | ⟨l', c, rfl, hlast, htop⟩
  · constructor
    · exact fun hne => (hne.1 hlast).elim
    · rintro ⟨b, hb, hlt, -⟩
      have hge := hafter b hb
      omega
  · rw [htop, hlast]
    constructor
    · rintro ⟨-, hlt⟩
      have hc : c ∈ l' ++ [c] := by simp
      exact ⟨c, List.mem_append_left _ hc, hbefore c hc, hlt⟩
    · rintro ⟨b, hb, hlt, hstop⟩
      refine ⟨by simp, ?_⟩
      rcases List.mem_append.mp hb with hb | hb
      · rcases h.stop_lt hb with rfl | hbc
        · exact hstop
        · have hcs := h.separated.size_pos c (by simp)
          have hcstop : c.stop = c.start + c.size := rfl
          omega
      · have hge := hafter b hb
        omega

theorem FreeList.next_iff (h : FreeList m (l₁ ++ l₂)) (hbefore : ∀ b ∈ l₁, b.start < a)
    (hafter : ∀ b ∈ l₂, a ≤ b.start) :
    (firstAddr null l₂ ≠ null ∧ x > firstAddr null l₂) ↔
      ∃ b ∈ l₁ ++ l₂, a ≤ b.start ∧ b.start < x := by
  constructor
  · rintro ⟨hne, hlt⟩
    cases l₂ with
    | nil => exact (hne rfl).elim
    | cons d r => exact ⟨d, by simp, hafter d (by simp), hlt⟩
  · rintro ⟨b, hb, hge, hlt⟩
    rcases List.mem_append.mp hb with hb | hb
    · have hlow := hbefore b hb
      omega
    · cases l₂ with
      | nil => simp at hb
      | cons d r =>
          have hle : d.start ≤ b.start := by
            rcases List.mem_cons.mp hb with rfl | hb
            · exact Nat.le_refl _
            · have hgap := (Separated.cons_iff.mp (Separated.append_iff.mp h.separated).2.1).2.1 b hb
              unfold Span.stop at hgap
              omega
          exact ⟨h.start_pos d (by simp), Nat.lt_of_le_of_lt hle hlt⟩

theorem FreeList.top_iff (h : FreeList m (l₁ ++ l₂)) (ha : a ≠ null) :
    topOf m (lastBlk .memlist l₁) = a ↔ ∃ l' c, l₁ = l' ++ [c] ∧ c.stop = a := by
  rcases h.last_cases with ⟨rfl, -, htop⟩ | ⟨l', c, rfl, -, htop⟩
  · rw [htop]
    constructor
    · exact fun heq => (ha heq.symm).elim
    · rintro ⟨l', c, hl, -⟩
      simp at hl
  · rw [htop]
    constructor
    · exact fun heq => ⟨l', c, rfl, heq⟩
    · rintro ⟨l'', d, hl, hstop⟩
      obtain ⟨-, hcd⟩ := List.append_inj' hl rfl
      rw [List.singleton_inj.mp hcd]
      exact hstop

/-- A block that ends at the address is the one before it. -/
theorem FreeList.touching (h : FreeList m (l₁ ++ l₂)) (hbefore : ∀ b ∈ l₁, b.start < a)
    (hafter : ∀ b ∈ l₂, a ≤ b.start) {b : Span} (hb : b ∈ l₁ ++ l₂) (hstop : b.stop = a) :
    ∃ l', l₁ = l' ++ [b] := by
  have hpos := h.separated.size_pos b hb
  have hbstop : b.stop = b.start + b.size := rfl
  rcases List.mem_append.mp hb with hb | hb
  · rcases h.last_cases with ⟨rfl, -⟩ | ⟨l', c, rfl, -⟩
    · simp at hb
    · rcases h.stop_lt hb with rfl | hlt
      · exact ⟨l', rfl⟩
      · have hc := hbefore c (by simp)
        omega
  · have hge := hafter b hb
    omega

/-- The block that `freemem` refuses. -/
theorem FreeList.refused (h : FreeList m l) (hrefused : Refused m l a n) :
    freemem a n m = .done false m := by
  obtain ⟨l₁, l₂, rfl, hbefore, hafter, -, -, hloop⟩ := h.around (a := a)
  apply freemem_refused hloop
  rcases hrefused with hn | hlo | hhi | hprev | hnext
  · exact Or.inl hn
  · exact Or.inr (Or.inl hlo)
  · exact Or.inr (Or.inr (Or.inl hhi))
  · exact Or.inr (Or.inr (Or.inr (Or.inl ((h.prev_iff hbefore hafter).mpr hprev))))
  · exact Or.inr (Or.inr (Or.inr (Or.inr ((h.next_iff hbefore hafter).mpr hnext))))

/-- The block that it does not refuse. -/
theorem FreeList.accepted (h : FreeList m (l₁ ++ l₂)) (hbefore : ∀ b ∈ l₁, b.start < a)
    (hafter : ∀ b ∈ l₂, a ≤ b.start)
    (hloop : freememLoop a listFuel .memlist (m.mnext .memlist) m =
      .done (lastBlk .memlist l₁, firstAddr null l₂) m)
    (hok : ¬ Refused m (l₁ ++ l₂) a n) :
    freemem a n m = .done true
      (if topOf m (lastBlk .memlist l₁) = a then
        joined (grown m (lastBlk .memlist l₁) (roundmb n)) (lastBlk .memlist l₁)
          (firstAddr null l₂)
      else joined (newBlk m (lastBlk .memlist l₁) a (roundmb n) (firstAddr null l₂)) (.heap a)
        (firstAddr null l₂)) := by
  unfold Refused at hok
  simp only [not_or] at hok
  obtain ⟨hn, hlo, hhi, hprev, hnext⟩ := hok
  apply freemem_accepted hn (by omega) (by omega) hloop
  · rw [h.prev_iff hbefore hafter]
    exact hprev
  · rw [h.next_iff hbefore hafter]
    exact hnext

theorem FreeList.sound (h : FreeList m l) : Sound m :=
  ⟨l, h.chain, h.separated, h.bounds⟩

/-! ## Blocks that do no harm -/

/-- A free block that `freemem` shrinks, or leaves as it is. -/
theorem FreeList.shrunk {l' : List Span} {c : Span} (h : FreeList m (l' ++ c :: l₂))
    (hk8 : 8 ∣ k) (hk : k = 0 ∨ 0x100000000 < c.size + k) (hklt : k < 0x100000000) :
    (∃ l, FreeList (grown m (.heap c.start) k) l) ∧
      u32 (c.start + (grown m (.heap c.start) k).mlength (.heap c.start)) ≠ firstAddr null l₂ := by
  have hc : c ∈ l' ++ c :: l₂ := by simp
  obtain ⟨hl', hpc, hnc, hlc, hlr⟩ := h.split
  have hbounds := h.bounds c hc
  have haligned := h.aligned c hc
  have hmax := h.maxheap_lt
  have hpos := h.separated.size_pos c hc
  have hcstop : c.stop = c.start + c.size := rfl
  obtain ⟨n, hn⟩ : ∃ n, n = u32 (c.size + k) := ⟨_, rfl⟩
  have hn_pos : 0 < n ∧ n ≤ c.size ∧ 8 ∣ n := by
    unfold u32 at hn
    omega
  have hgrown : grown m (.heap c.start) k = (m.giveTotal k).setMlength (.heap c.start) n := by
    unfold grown
    rw [mlength_giveTotal, hlc, hn]
  rw [hgrown]
  constructor
  · by_cases heq : n = c.size
    · refine ⟨l' ++ c :: l₂, h.rebuild ⟨rfl, rfl, rfl⟩ ?_ h.separated fun b hb => Or.inl hb⟩
      apply h.chain.congr (by simp)
      intro d hd
      refine ⟨by simp, ?_⟩
      by_cases hdc : d.start = c.start
      · simp [hdc, heq, hlc]
      · simp [hdc]
    · have hgrant := @FreeList.keepPart m l' l₂ c ⟨c.start, n⟩ ⟨c.start + n, c.size - n⟩
        ((m.giveTotal k).setMlength (.heap c.start) n) h ⟨rfl, rfl, rfl⟩
        (Or.inl ⟨rfl, rfl, by simp only [Span.stop]; omega⟩) hn_pos.1 ⟨haligned.1, hn_pos.2.2⟩
        (by simp only; omega) (by simpa using hpc) (by simpa using hnc) (by simp) (by simp)
        (by intro x hx; simp only at hx; simp [hx])
      exact ⟨_, hgrant.free⟩
  · have hlen : ((m.giveTotal k).setMlength (.heap c.start) n).mlength (.heap c.start) = n := by
      simp
    rw [hlen, u32_eq (by omega)]
    cases l₂ with
    | nil =>
        show c.start + n ≠ 0
        omega
    | cons d r =>
        have hgap : c.stop < d.start :=
          (Separated.cons_iff.mp (Separated.append_iff.mp h.separated).2.1).2.1 d (by simp)
        show c.start + n ≠ d.start
        omega

theorem FreeList.harmless (h : FreeList m l) (ha : 8 ∣ a)
    (hok : Refused m l a n ∨ Releasable m l a n) : Harmless a n m := by
  by_cases hrefused : Refused m l a n
  · exact Or.inl (h.refused hrefused)
  have hmax := h.maxheap_lt
  have hnot := hrefused
  unfold Refused at hnot
  simp only [not_or] at hnot
  obtain ⟨hn, hlo, hhi, hprev, hnext⟩ := hnot
  rcases hok.resolve_left hrefused with ⟨hk, hend⟩ | ⟨c, hc, hstop, hwrap⟩
  · have hu : u32 (a + roundmb n) = a + roundmb n := u32_eq (by omega)
    have hnew : ∀ x, Span.Contains ⟨a, roundmb n⟩ x → ¬ Covers l x := by
      rintro x ⟨hax, hxk⟩ ⟨b, hb, hbx, hxb⟩
      simp only [Span.stop] at hax hxk
      by_cases hlt : b.start < a
      · exact hprev ⟨b, hb, hlt, by omega⟩
      · exact hnext ⟨b, hb, by omega, by omega⟩
    obtain ⟨m', l', hrun, hrel⟩ :=
      freemem_run h (by omega) hk ha ⟨by omega, hend⟩ hnew
    exact Or.inr ⟨m', hrun, hrel.same, hrel.free.sound⟩
  · obtain ⟨l₁, l₂, rfl, hbefore, hafter, -, -, hloop⟩ := h.around (a := a)
    obtain ⟨l', rfl⟩ := h.touching hbefore hafter hc hstop
    have hsplit : FreeList m (l' ++ c :: l₂) := by simpa using h
    have hlast : lastBlk .memlist (l' ++ [c]) = .heap c.start := by simp
    have ha0 : a ≠ null := by
      have hmin : 0 < m.minheap := h.minheap_pos
      unfold null
      omega
    have htop := (h.top_iff ha0).mpr ⟨l', c, rfl, hstop⟩
    have hrun := h.accepted hbefore hafter hloop hrefused
    obtain ⟨⟨l'', hfree⟩, hne⟩ := hsplit.shrunk (dvd_roundmb n) hwrap (roundmb_lt n)
    have hjoined : joined (grown m (.heap c.start) (roundmb n)) (.heap c.start)
        (firstAddr null l₂) = grown m (.heap c.start) (roundmb n) := if_neg hne
    rw [if_pos htop, hlast, hjoined] at hrun
    exact Or.inr ⟨_, hrun, ⟨rfl, rfl, rfl⟩, hfree.sound⟩

/-! ## Blocks that do harm -/

/-- The walk from `p` reaches the block at `x`, which is then one of the blocks. -/
theorem Chain.reaches (h : Chain m p l null) (hx : Chain m p l₁ x) (hne : x ≠ null)
    (hstart : ∀ b ∈ l₁, b.start ≠ null) : ⟨x, m.mlength (.heap x)⟩ ∈ l := by
  induction l₁ generalizing p l with
  | nil =>
      have hp : m.mnext p = x := hx
      cases l with
      | nil =>
          have hnull : m.mnext p = null := h
          exact (hne (hp.symm.trans hnull)).elim
      | cons b r =>
          obtain ⟨⟨hb, hlen⟩, -⟩ := h
          have hbx : b.start = x := hb.symm.trans hp
          have heq : b = ⟨x, m.mlength (.heap x)⟩ := by rw [← hbx, hlen]
          rw [← heq]
          exact List.mem_cons_self
  | cons c r ih =>
      obtain ⟨⟨hc, -⟩, hrest⟩ := hx
      cases l with
      | nil =>
          have hnull : m.mnext p = null := h
          exact (hstart c (by simp) (hc.symm.trans hnull)).elim
      | cons b r' =>
          obtain ⟨⟨hb, -⟩, hrest'⟩ := h
          have hbc : b.start = c.start := hb.symm.trans hc
          rw [hbc] at hrest'
          exact List.mem_cons_of_mem b (ih hrest' hrest fun d hd => hstart d (by simp [hd]))

/-- A block that is empty, or ends past the end of the heap, is on no sound free list. -/
theorem Sound.reaches (h : Sound m) (hx : Chain m .memlist l₁ x) (hne : x ≠ null)
    (hstart : ∀ b ∈ l₁, b.start ≠ null) :
    0 < m.mlength (.heap x) ∧ x + m.mlength (.heap x) ≤ m.maxheap := by
  obtain ⟨l, hchain, hsep, hbounds⟩ := h
  have hmem := hchain.reaches hx hne hstart
  exact ⟨hsep.size_pos _ hmem, (hbounds _ hmem).2⟩

theorem mnext_joined {b q : Blk} (hq : q ≠ b) : (joined m b next).mnext q = m.mnext q := by
  unfold joined
  split
  · simp [hq]
  · rfl

theorem mlength_joined {b q : Blk} (hq : q ≠ b) : (joined m b next).mlength q = m.mlength q := by
  unfold joined
  split
  · simp [hq]
  · rfl

theorem maxheap_joined (m : Heap) (b : Blk) (next : Nat) : (joined m b next).maxheap = m.maxheap := by
  unfold joined
  split
  · rfl
  · rfl

/-- The new block follows the blocks before it. -/
theorem FreeList.chain_newBlk (h : FreeList m (l₁ ++ l₂)) (hbefore : ∀ b ∈ l₁, b.start < a) :
    Chain (joined (newBlk m (lastBlk .memlist l₁) a k next) (.heap a) next) .memlist l₁ a := by
  have hold := (chain_append.mp h.chain).1
  have hlast : lastBlk .memlist l₁ ≠ .heap a := by
    rcases lastBlk_cases .memlist l₁ with ⟨-, hlast⟩ | ⟨l', c, rfl, hlast⟩
    · rw [hlast]
      simp
    · have hc := hbefore c (by simp)
      rw [hlast]
      simp only [ne_eq, Blk.heap.injEq]
      omega
  have hne : ∀ c ∈ l₁, Blk.heap c.start ≠ .heap a := by
    intro c hc
    have hlt := hbefore c hc
    simp only [ne_eq, Blk.heap.injEq]
    omega
  apply hold.redirect
  · rw [mnext_joined hlast]
    simp [newBlk]
  · intro q hq hmem
    have hqa : q ≠ .heap a := by
      rcases hmem with rfl | ⟨c, hc, rfl⟩
      · simp
      · exact hne c hc
    rw [mnext_joined hqa]
    simp [newBlk, hq, hqa]
  · intro c hc
    rw [mlength_joined (hne c hc)]
    have hca := hne c hc
    simp only [ne_eq, Blk.heap.injEq] at hca
    simp [newBlk, hca]
  · simp
  · exact (Separated.append_iff.mp h.separated).1

/-- The block that has grown follows the blocks before it. -/
theorem FreeList.chain_grown {l' : List Span} {c : Span} (h : FreeList m (l' ++ c :: l₂)) :
    Chain (joined (grown m (.heap c.start) k) (.heap c.start) next) .memlist l' c.start := by
  have hold : Chain m .memlist l' c.start := (chain_append.mp h.chain).1
  apply hold.congr
  · rw [mnext_joined (by simp)]
    simp [grown]
  · intro d hd
    have hne : d.start ≠ c.start := h.separated.start_ne (Or.inl hd)
    have hblk : Blk.heap d.start ≠ .heap c.start := by simpa using hne
    rw [mnext_joined hblk, mlength_joined hblk]
    simp [grown, hne]

/-- The end of a block that `freemem` does not refuse is the next free block only where the
block is empty, or ends in the heap, or ends where the addresses end. -/
theorem FreeList.end_ne (h : FreeList m (l₁ ++ l₂)) (hbefore : ∀ b ∈ l₁, b.start < a)
    (hafter : ∀ b ∈ l₂, a ≤ b.start) (ha : a < 0x100000000) (hpos : 0 < roundmb n)
    (hpast : m.maxheap < a + roundmb n) (hnull : ¬ MeetsNull (l₁ ++ l₂) a n) :
    u32 (a + roundmb n) ≠ firstAddr null l₂ := by
  intro heq
  have hk : roundmb n < 0x100000000 := roundmb_lt n
  cases l₂ with
  | nil =>
      apply hnull
      have hzero : u32 (a + roundmb n) = 0 := heq
      unfold u32 at hzero
      refine ⟨by omega, ?_⟩
      intro b hb
      rw [List.append_nil] at hb
      exact hbefore b hb
  | cons d r =>
      have hd := hafter d (by simp)
      have hbound := (h.bounds d (by simp)).2
      have heq' : u32 (a + roundmb n) = d.start := heq
      unfold Span.stop at hbound
      unfold u32 at heq'
      omega

theorem FreeList.harmful (h : FreeList m l) (ha : a < 0x100000000)
    (hrefused : ¬ Refused m l a n) (hrel : ¬ Releasable m l a n) (hnull : ¬ MeetsNull l a n) :
    ¬ Harmless a n m := by
  obtain ⟨l₁, l₂, rfl, hbefore, hafter, -, -, hloop⟩ := h.around (a := a)
  have hrun := h.accepted hbefore hafter hloop hrefused
  have ha0 : a ≠ null := by
    intro heq
    have hmin : 0 < m.minheap := h.minheap_pos
    apply hrefused
    right
    left
    rw [heq]
    exact hmin
  unfold Releasable at hrel
  rw [not_or] at hrel
  obtain ⟨hin, htouch⟩ := hrel
  rintro (hfalse | ⟨m', htrue, -, hsound⟩)
  · rw [hrun] at hfalse
    cases hfalse
  rw [hrun] at htrue
  cases htrue
  by_cases htop : topOf m (lastBlk .memlist l₁) = a
  · rw [if_pos htop] at hsound
    obtain ⟨l', c, rfl, hstop⟩ := (h.top_iff ha0).mp htop
    have hsplit : FreeList m (l' ++ c :: l₂) := by simpa using h
    have hlen : m.mlength (.heap c.start) = c.size := hsplit.split.2.2.2.1
    have hc : c ∈ (l' ++ [c]) ++ l₂ := by simp
    have hcstop : c.stop = c.start + c.size := rfl
    have hnot : ¬ (roundmb n = 0 ∨ 0x100000000 < c.size + roundmb n) :=
      fun hor => htouch ⟨c, hc, hstop, hor⟩
    rw [lastBlk_append_singleton] at hsound
    have hreach := hsound.reaches (hsplit.chain_grown)
      (hsplit.start_pos c (by simp)) fun b hb => hsplit.start_pos b (by simp [hb])
    have hgrown : (grown m (.heap c.start) (roundmb n)).mlength (.heap c.start) =
        u32 (c.size + roundmb n) := by simp [grown, hlen]
    have hpast : m.maxheap < a + roundmb n := by omega
    have hapart : joined (grown m (.heap c.start) (roundmb n)) (.heap c.start)
        (firstAddr null l₂) = grown m (.heap c.start) (roundmb n) := by
      apply if_neg
      rw [hgrown]
      by_cases hzero : c.size + roundmb n = 0x100000000
      · have hwrap : u32 (c.size + roundmb n) = 0 := by rw [hzero]; rfl
        rw [hwrap]
        cases l₂ with
        | nil =>
            have hpos : c.start ≠ 0 := hsplit.start_pos c (by simp)
            show u32 c.start ≠ 0
            unfold u32
            omega
        | cons d r =>
            have hd := hafter d (by simp)
            have hpos := h.separated.size_pos c hc
            show u32 c.start ≠ d.start
            unfold u32
            omega
      · have hu : u32 (c.size + roundmb n) = c.size + roundmb n := u32_eq (by omega)
        rw [hu]
        have hne := h.end_ne hbefore hafter ha (by omega) hpast hnull
        have hsum : c.start + (c.size + roundmb n) = a + roundmb n := by omega
        show u32 (c.start + (c.size + roundmb n)) ≠ _
        rw [hsum]
        exact hne
    rw [hapart, hgrown] at hreach
    have hmax : (grown m (.heap c.start) (roundmb n)).maxheap = m.maxheap := rfl
    unfold u32 at hreach
    omega
  · rw [if_neg htop] at hsound
    have hreach := hsound.reaches (h.chain_newBlk hbefore) ha0
      fun b hb => h.start_pos b (by simp [hb])
    have hlen : (newBlk m (lastBlk .memlist l₁) a (roundmb n) (firstAddr null l₂)).mlength
        (.heap a) = roundmb n := by simp [newBlk]
    by_cases hzero : roundmb n = 0
    · have hempty : (joined (newBlk m (lastBlk .memlist l₁) a (roundmb n) (firstAddr null l₂))
          (.heap a) (firstAddr null l₂)).mlength (.heap a) = 0 := by
        unfold joined
        split
        · next heq =>
            have hau : u32 a = a := u32_eq ha
            rw [hlen, hzero, addr_heap, Nat.add_zero, hau] at heq
            rw [← heq, hzero] at hlen ⊢
            rw [mlength_setMnext, mlength_setMlength, if_pos rfl, hlen]
            rfl
        · rw [hlen]
          exact hzero
      omega
    · have hpast : m.maxheap < a + roundmb n := by omega
      have hapart : joined (newBlk m (lastBlk .memlist l₁) a (roundmb n) (firstAddr null l₂))
          (.heap a) (firstAddr null l₂) =
            newBlk m (lastBlk .memlist l₁) a (roundmb n) (firstAddr null l₂) := by
        apply if_neg
        rw [hlen]
        exact h.end_ne hbefore hafter ha (by omega) hpast hnull
      rw [hapart, hlen] at hreach
      have hmax : (newBlk m (lastBlk .memlist l₁) a (roundmb n) (firstAddr null l₂)).maxheap =
        m.maxheap := rfl
      omega

/--
A release is refused or leaves a free list that is well formed where the checks refuse it,
where the block ends in the heap, or where it makes the free block before it no larger.
Elsewhere the free list is not well formed any more, unless the block ends where the
addresses end: the code then reads the next block at the null pointer.
-/
theorem freemem_harmless (h : FreeList m l) (ha : 8 ∣ a) (hlt : a < 0x100000000) :
    (Refused m l a n ∨ Releasable m l a n → Harmless a n m) ∧
      (Harmless a n m → Refused m l a n ∨ Releasable m l a n ∨ MeetsNull l a n) := by
  constructor
  · exact h.harmless ha
  · intro hharmless
    by_contra hcon
    simp only [not_or] at hcon
    exact h.harmful hlt hcon.1 hcon.2.1 hcon.2.2 hharmless

end Frees

/-- A block that overlaps the free block is refused. -/
theorem freemem_overlapping :
    (Refused (meminit 8 72 0 fun _ => ⟨0, 0⟩) [⟨8, 64⟩] 16 8 ∨
        Releasable (meminit 8 72 0 fun _ => ⟨0, 0⟩) [⟨8, 64⟩] 16 8 →
      Harmless 16 8 (meminit 8 72 0 fun _ => ⟨0, 0⟩)) ∧
    (Harmless 16 8 (meminit 8 72 0 fun _ => ⟨0, 0⟩) →
      Refused (meminit 8 72 0 fun _ => ⟨0, 0⟩) [⟨8, 64⟩] 16 8 ∨
        Releasable (meminit 8 72 0 fun _ => ⟨0, 0⟩) [⟨8, 64⟩] 16 8 ∨ MeetsNull [⟨8, 64⟩] 16 8) :=
  freemem_harmless freeList_meminit (by decide) (by decide)

/-- A block past the end of the heap is joined to the free block before it. -/
theorem free_past_end : ¬ Harmless 72 64 (meminit 8 72 0 fun _ => ⟨0, 0⟩) := by
  apply freeList_meminit.harmful (by decide)
  · rintro (h | h | h | ⟨b, hb, -, hlt⟩ | ⟨b, hb, hge, -⟩)
    · exact absurd h (by decide)
    · exact absurd h (by decide)
    · exact absurd h (by decide)
    · rw [List.mem_singleton.mp hb] at hlt
      exact absurd hlt (by decide)
    · rw [List.mem_singleton.mp hb] at hge
      exact absurd hge (by decide)
  · rintro (⟨-, hend⟩ | ⟨b, hb, -, hwrap⟩)
    · exact absurd hend (by decide)
    · rw [List.mem_singleton.mp hb] at hwrap
      exact absurd hwrap (by decide)
  · exact fun hnull => absurd hnull.1 (by decide)

end Memory
end Xinu
