import Xinu.Foundations.CountingSemaphore
import Mathlib.Data.List.Nodup
import Mathlib.Data.List.Pairwise
import Mathlib.Tactic.Push
import Mathlib.Tactic.SplitIfs

/-!
# Ledgers of semaphores

A ledger follows what becomes of the calls of `wait` for one semaphore: each has
been allowed to complete, still waits, or has been withdrawn.  It is kept by
looking at the queue after each step.

Main results:

- Theorems `Balanced.wait`, `Balanced.signals` and `Balanced.withdraw`: the events
  of a semaphore keep its ledger balanced.
- Theorem `Balanced.conserved`: a balanced ledger has allowed as many calls as there
  are tokens, or all of them, and in their order.
-/

namespace Xinu
namespace Foundations

variable {ι : Type}

/-- What has become of the calls of `wait` for one semaphore.  The calls are numbered
in the order in which they were made. -/
structure TokenLedger (ι : Type) where
  /-- The count with which the semaphore was created. -/
  initial : Int
  signaled : Nat
  issued : Nat
  /-- The calls that wait, with their processes. -/
  waiting : List (Nat × ι)
  withdrawn : Nat
  /-- The calls that were allowed to complete, in the order in which they were. -/
  allowed : List Nat
deriving DecidableEq, Repr

namespace TokenLedger

/-- The ledger of a new semaphore. -/
def opened (n : Int) : TokenLedger ι :=
  ⟨n, 0, 0, [], 0, []⟩

/-- Process `p` calls `wait`. -/
def issue (p : ι) (l : TokenLedger ι) : TokenLedger ι :=
  { l with issued := l.issued + 1, waiting := l.waiting ++ [(l.issued, p)] }

def supply (n : Nat) (l : TokenLedger ι) : TokenLedger ι :=
  { l with signaled := l.signaled + n }

/-- Look at the queue `q` after a step.  The calls that have left it were allowed to
complete, except that of the process that was killed. -/
def settle [DecidableEq ι] (q : List ι) (killed : Option ι) (l : TokenLedger ι) : TokenLedger ι :=
  let left := l.waiting.filter fun c => c.2 ∉ q
  { l with
    waiting := l.waiting.filter fun c => c.2 ∈ q
    withdrawn := l.withdrawn + (left.filter fun c => killed = some c.2).length
    allowed := l.allowed ++ (left.filter fun c => killed ≠ some c.2).map Prod.fst }

/-- As many calls have been allowed to complete as there have been tokens, or all that
were not withdrawn; and none before one that was made earlier. -/
structure Conserved (l : TokenLedger ι) : Prop where
  bounded : (l.allowed.length : Int) ≤ l.initial + l.signaled
  exact : (l.allowed.length : Int) = min (l.initial + l.signaled) (l.issued - l.withdrawn)
  total : l.issued = l.allowed.length + l.waiting.length + l.withdrawn
  fifo : (l.allowed ++ l.waiting.map Prod.fst).Pairwise (· < ·)

/-- The ledger agrees with the semaphore. -/
structure Balanced (l : TokenLedger ι) (v : Sem ι) : Prop where
  initial : 0 ≤ l.initial
  used : v.used = true
  agrees : v.Agrees
  nodup : v.queue.Nodup
  count : v.count = l.initial + l.signaled + l.withdrawn - l.issued
  queue : v.queue = l.waiting.map Prod.snd
  total : l.issued = l.allowed.length + l.waiting.length + l.withdrawn
  fifo : (l.allowed ++ l.waiting.map Prod.fst).Pairwise (· < ·)
  below : ∀ n ∈ l.allowed ++ l.waiting.map Prod.fst, n < l.issued

section Settle

variable [DecidableEq ι] {l : TokenLedger ι} {v : Sem ι} {q : List ι} {killed : Option ι} {p : ι} {n : Nat}
variable {W W' : List (Nat × ι)}

/-- Nobody has left the queue. -/
theorem settle_all (h : ∀ c ∈ l.waiting, c.2 ∈ q) : l.settle q killed = l := by
  have hleft : (l.waiting.filter fun c => c.2 ∉ q) = [] := by
    rw [List.filter_eq_nil_iff]
    intro c hc
    simpa using h c hc
  have hstay : (l.waiting.filter fun c => c.2 ∈ q) = l.waiting := by
    rw [List.filter_eq_self]
    exact fun c hc => decide_eq_true (h c hc)
  unfold settle
  dsimp only
  rw [hleft, hstay]
  simp

/-- Those that have left the queue are at its head. -/
theorem settle_prefix (hwaiting : l.waiting = W ++ W')
    (hnodup : (l.waiting.map Prod.snd).Nodup) :
    l.settle (W'.map Prod.snd) none =
      { l with waiting := W', allowed := l.allowed ++ W.map Prod.fst } := by
  rw [hwaiting, List.map_append, List.nodup_append] at hnodup
  have hin : ∀ c ∈ W', c.2 ∈ W'.map Prod.snd := fun c hc => List.mem_map_of_mem hc
  have hout : ∀ c ∈ W, c.2 ∉ W'.map Prod.snd := by
    intro c hc hmem
    exact hnodup.2.2 c.2 (List.mem_map_of_mem hc) c.2 hmem rfl
  have hstay : (l.waiting.filter fun c => c.2 ∈ W'.map Prod.snd) = W' := by
    rw [hwaiting, List.filter_append, List.filter_eq_nil_iff.mpr, List.filter_eq_self.mpr,
      List.nil_append]
    · exact fun c hc => decide_eq_true (hin c hc)
    · intro c hc
      simpa using hout c hc
  have hleft : (l.waiting.filter fun c => c.2 ∉ W'.map Prod.snd) = W := by
    rw [hwaiting, List.filter_append, List.filter_eq_self.mpr, List.filter_eq_nil_iff.mpr,
      List.append_nil]
    · intro c hc
      simpa using hin c hc
    · intro c hc
      simpa using hout c hc
  unfold settle
  dsimp only
  rw [hstay, hleft]
  simp

/-- The process that was killed has left the queue. -/
theorem settle_killed {c : Nat × ι} (hwaiting : l.waiting = W ++ c :: W')
    (hnodup : (l.waiting.map Prod.snd).Nodup) :
    l.settle ((W ++ W').map Prod.snd) (some c.2) =
      { l with waiting := W ++ W', withdrawn := l.withdrawn + 1 } := by
  have hperm : (W ++ c :: W').Perm (c :: (W ++ W')) := List.perm_middle
  rw [hwaiting, (hperm.map Prod.snd).nodup_iff, List.map_cons, List.nodup_cons] at hnodup
  have hin : ∀ x ∈ W ++ W', x.2 ∈ (W ++ W').map Prod.snd := fun x hx => List.mem_map_of_mem hx
  have hstay : (l.waiting.filter fun x => x.2 ∈ (W ++ W').map Prod.snd) = W ++ W' := by
    rw [hwaiting, List.filter_append, List.filter_cons_of_neg, ← List.filter_append,
      List.filter_eq_self]
    · exact fun x hx => decide_eq_true (hin x hx)
    · simpa using hnodup.1
  have hleft : (l.waiting.filter fun x => x.2 ∉ (W ++ W').map Prod.snd) = [c] := by
    rw [hwaiting, List.filter_append, List.filter_cons_of_pos]
    · have hnone : ∀ x ∈ W ++ W', ¬ (decide (x.2 ∉ (W ++ W').map Prod.snd)) = true := by
        intro x hx hout
        exact of_decide_eq_true hout (hin x hx)
      rw [List.filter_eq_nil_iff.mpr fun x hx => hnone x (List.mem_append_left _ hx),
        List.filter_eq_nil_iff.mpr fun x hx => hnone x (List.mem_append_right _ hx)]
      rfl
    · simpa using hnodup.1
  unfold settle
  dsimp only
  rw [hstay, hleft]
  simp

end Settle

/-! ## Balance -/

section Balance

variable {l : TokenLedger ι} {v : Sem ι} {q : List ι} {killed : Option ι} {p : ι} {n : Nat}
variable {wrap : Int → Int}

theorem Balanced.nodup_waiting (h : l.Balanced v) : (l.waiting.map Prod.snd).Nodup := by
  rw [← h.queue]
  exact h.nodup

/-- A semaphore that was just created. -/
theorem balanced_opened {k : Int} (hk : 0 ≤ k) :
    (opened k : TokenLedger ι).Balanced ⟨true, k, []⟩ := by
  refine ⟨hk, rfl, ?_, List.nodup_nil, ?_, rfl, rfl, List.Pairwise.nil, ?_⟩
  · unfold Sem.Agrees
    simp only [List.length_nil]
    omega
  · simp [opened]
  · exact fun n hn => absurd hn List.not_mem_nil

variable [DecidableEq ι]

/-- Nothing happens to the semaphore. -/
theorem Balanced.idle (h : l.Balanced v) : l.settle v.queue killed = l := by
  refine settle_all fun c hc => ?_
  rw [h.queue]
  exact List.mem_map_of_mem hc

/-- A process takes a token, or joins the queue. -/
theorem Balanced.wait (h : l.Balanced v) (hp : p ∉ v.queue)
    (hwrap : wrap (v.count - 1) = v.count - 1) :
    ((l.issue p).settle (v.wait wrap p).queue none).Balanced (v.wait wrap p) := by
  have hagrees : v.queue.length = (-v.count).toNat := h.agrees
  have hnodup : ((l.issue p).waiting.map Prod.snd).Nodup := by
    show ((l.waiting ++ [(l.issued, p)]).map Prod.snd).Nodup
    rw [List.map_append, ← h.queue]
    have hdisjoint : ∀ a ∈ v.queue, ∀ b ∈ [p], a ≠ b := by
      intro a ha b hb
      rw [List.mem_singleton.mp hb]
      exact fun heq => hp (heq ▸ ha)
    exact List.nodup_append.mpr ⟨h.nodup, List.nodup_singleton p, hdisjoint⟩
  have hcount : v.count - 1 =
      l.initial + l.signaled + l.withdrawn - ((l.issued + 1 : Nat) : Int) := by
    have hold := h.count
    push_cast
    omega
  have hall : l.allowed ++ (l.issue p).waiting.map Prod.fst =
      l.allowed ++ l.waiting.map Prod.fst ++ [l.issued] := by
    show l.allowed ++ (l.waiting ++ [(l.issued, p)]).map Prod.fst = _
    rw [List.map_append, ← List.append_assoc]
    rfl
  have hfifo : (l.allowed ++ (l.issue p).waiting.map Prod.fst).Pairwise (· < ·) := by
    rw [hall, List.pairwise_append]
    refine ⟨h.fifo, List.pairwise_singleton _ _, ?_⟩
    intro a ha b hb
    rw [List.mem_singleton.mp hb]
    exact h.below a ha
  have hbelow : ∀ m ∈ l.allowed ++ (l.issue p).waiting.map Prod.fst, m < l.issued + 1 := by
    intro m hm
    rw [hall] at hm
    rcases List.mem_append.mp hm with hm | hm
    · exact Nat.lt_succ_of_lt (h.below m hm)
    · rw [List.mem_singleton.mp hm]
      exact Nat.lt_succ_self _
  have htotal : l.issued + 1 = l.allowed.length + (l.issue p).waiting.length + l.withdrawn := by
    have hold := h.total
    show l.issued + 1 = l.allowed.length + (l.waiting ++ [(l.issued, p)]).length + l.withdrawn
    rw [List.length_append, List.length_singleton]
    omega
  by_cases hneg : v.count - 1 < 0
  · -- the process joins the queue
    have hqueue : (v.wait wrap p).queue = (l.issue p).waiting.map Prod.snd := by
      unfold Sem.wait issue
      rw [hwrap, if_pos hneg, h.queue, List.map_append]
      rfl
    have hsettle : (l.issue p).settle (v.wait wrap p).queue none = l.issue p := by
      refine settle_all fun c hc => ?_
      rw [hqueue]
      exact List.mem_map_of_mem hc
    rw [hsettle]
    refine ⟨h.initial, h.used, h.agrees.wait hwrap, ?_, hwrap.trans hcount, hqueue, htotal, hfifo,
      hbelow⟩
    rw [hqueue]
    exact hnodup
  · -- there is a token, and nobody waits
    have hempty : v.queue = [] := List.eq_nil_of_length_eq_zero (by omega)
    have hnone : l.waiting = [] := by
      rw [h.queue] at hempty
      exact List.map_eq_nil_iff.mp hempty
    have hqueue : (v.wait wrap p).queue = [] := by
      unfold Sem.wait
      rw [hwrap, if_neg hneg, hempty]
    have hwaiting : (l.issue p).waiting = [(l.issued, p)] ++ [] := by
      show l.waiting ++ [(l.issued, p)] = _
      rw [hnone]
      rfl
    have hsettle : (l.issue p).settle (v.wait wrap p).queue none =
        { l.issue p with waiting := [], allowed := l.allowed ++ [l.issued] } := by
      rw [hqueue]
      exact settle_prefix hwaiting hnodup
    rw [hwaiting] at hfifo hbelow htotal
    rw [hsettle]
    refine ⟨h.initial, h.used, h.agrees.wait hwrap, ?_, hwrap.trans hcount, hqueue, ?_, ?_, ?_⟩
    · rw [hqueue]
      exact List.nodup_nil
    · rw [List.length_append]
      show l.issued + 1 = l.allowed.length + 1 + 0 + l.withdrawn
      simpa using htotal
    · simpa using hfifo
    · show ∀ m ∈ l.allowed ++ [l.issued] ++ [], m < l.issued + 1
      simpa using hbelow

/-- So many tokens are added, and so many of the processes that wait first go on. -/
theorem Balanced.signals (h : l.Balanced v)
    (hwrap : ∀ k : Nat, k < n → wrap (v.count + k + 1) = v.count + k + 1) :
    ((l.supply n).settle ((Sem.signal wrap)^[n] v).queue none).Balanced
      ((Sem.signal wrap)^[n] v) := by
  have hagrees : v.queue.length = (-v.count).toNat := h.agrees
  have hv : (Sem.signal wrap)^[n] v = { v with count := v.count + n, queue := v.queue.drop n } :=
    h.agrees.signals_eq hwrap
  have hwaiting : l.waiting = l.waiting.take n ++ l.waiting.drop n :=
    (List.take_append_drop n l.waiting).symm
  have hqueue : ((Sem.signal wrap)^[n] v).queue = (l.waiting.drop n).map Prod.snd := by
    rw [hv, List.map_drop, ← h.queue]
  have hsettle : (l.supply n).settle ((Sem.signal wrap)^[n] v).queue none =
      { l.supply n with
        waiting := l.waiting.drop n
        allowed := l.allowed ++ (l.waiting.take n).map Prod.fst } := by
    rw [hqueue]
    exact settle_prefix (l := l.supply n) hwaiting h.nodup_waiting
  have horder : l.allowed ++ (l.waiting.take n).map Prod.fst ++ (l.waiting.drop n).map Prod.fst =
      l.allowed ++ l.waiting.map Prod.fst := by
    rw [List.append_assoc, ← List.map_append, List.take_append_drop]
  have hlen : (l.waiting.take n).length + (l.waiting.drop n).length = l.waiting.length := by
    rw [← List.length_append, List.take_append_drop]
  rw [hsettle, hv]
  refine ⟨h.initial, h.used, ?_, h.nodup.sublist (List.drop_sublist n _), ?_, ?_, ?_, ?_, ?_⟩
  · unfold Sem.Agrees
    simp only [List.length_drop]
    omega
  · have hcount := h.count
    show v.count + n = l.initial + ((l.signaled + n : Nat) : Int) + l.withdrawn - l.issued
    push_cast
    omega
  · rw [hv] at hqueue
    exact hqueue
  · have htotal := h.total
    show l.issued = (l.allowed ++ (l.waiting.take n).map Prod.fst).length +
      (l.waiting.drop n).length + l.withdrawn
    rw [List.length_append, List.length_map]
    omega
  · show (l.allowed ++ (l.waiting.take n).map Prod.fst ++
      (l.waiting.drop n).map Prod.fst).Pairwise (· < ·)
    rw [horder]
    exact h.fifo
  · show ∀ m ∈ l.allowed ++ (l.waiting.take n).map Prod.fst ++ (l.waiting.drop n).map Prod.fst,
      m < l.issued
    rw [horder]
    exact h.below

/-- A process is killed while it waits. -/
theorem Balanced.withdraw (h : l.Balanced v) (hp : p ∈ v.queue)
    (hwrap : wrap (v.count + 1) = v.count + 1) :
    (l.settle (v.withdraw wrap p).queue (some p)).Balanced (v.withdraw wrap p) := by
  have hcount : (v.withdraw wrap p).count = v.count + 1 := by
    unfold Sem.withdraw
    rw [h.used]
    exact hwrap
  obtain ⟨c, hc, rfl⟩ : ∃ c ∈ l.waiting, c.2 = p := by
    rw [h.queue] at hp
    exact List.mem_map.mp hp
  obtain ⟨W, W', hwaiting⟩ := List.append_of_mem hc
  have hnotin : c.2 ∉ W.map Prod.snd := by
    have hnodup := h.nodup_waiting
    rw [hwaiting, List.map_append, List.map_cons] at hnodup
    exact fun hmem => (List.nodup_append.mp hnodup).2.2 c.2 hmem c.2 List.mem_cons_self rfl
  have hqueue : (v.withdraw wrap c.2).queue = (W ++ W').map Prod.snd := by
    show v.queue.erase c.2 = _
    rw [h.queue, hwaiting, List.map_append, List.map_cons, List.erase_append_right _ hnotin,
      List.erase_cons_head, List.map_append]
  have hsettle : l.settle (v.withdraw wrap c.2).queue (some c.2) =
      { l with waiting := W ++ W', withdrawn := l.withdrawn + 1 } := by
    rw [hqueue]
    exact settle_killed hwaiting h.nodup_waiting
  have hsub : (l.allowed ++ (W ++ W').map Prod.fst).Sublist
      (l.allowed ++ l.waiting.map Prod.fst) := by
    rw [hwaiting]
    apply List.Sublist.append_left
    exact ((List.sublist_cons_self c W').append_left W).map Prod.fst
  rw [hsettle]
  refine ⟨h.initial, h.used, h.agrees.withdraw h.used hp hwrap, h.nodup.erase _, ?_, hqueue, ?_,
    h.fifo.sublist hsub, fun m hm => h.below m (hsub.subset hm)⟩
  · have hold := h.count
    show (v.withdraw wrap c.2).count =
      l.initial + l.signaled + ((l.withdrawn + 1 : Nat) : Int) - l.issued
    rw [hcount]
    push_cast
    omega
  · have htotal := h.total
    rw [hwaiting, List.length_append, List.length_cons] at htotal
    show l.issued = l.allowed.length + (W ++ W').length + (l.withdrawn + 1)
    rw [List.length_append]
    omega

omit [DecidableEq ι] in
/-- No token is lost or invented, and the calls are allowed to complete in their order. -/
theorem Balanced.conserved (h : l.Balanced v) : l.Conserved := by
  have hagrees : v.queue.length = (-v.count).toNat := h.agrees
  rw [h.queue, List.length_map] at hagrees
  have htotal := h.total
  have hcount := h.count
  have hinitial := h.initial
  refine ⟨?_, ?_, htotal, h.fifo⟩
  · omega
  · omega

end Balance

end TokenLedger

end Foundations
end Xinu
