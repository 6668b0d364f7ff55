import Xinu.Kernel.Queue
import Xinu.Foundations.LinkedPath
import Mathlib.Data.Int.Interval

/-!
# The queue table represents lists

`members t q` is the list of processes met from the head of queue `q` on.
`QueuesOk t n` says that the entries of every queue allocated below `n` form a
doubly linked path between its two sentinels and that no process is linked
twice.  Each procedure on the table then acts on `members` as the list
operation it stands for, and leaves every other queue alone.

Main results:

- Theorem `QueuesOk.link`: linking a process between two neighbours inserts it
  at that point of one list.
- Theorem `QueuesOk.unlink`: `getitem` removes a process from its list.
- Theorems `enqueue_run`, `dequeue_run`, `getitem_run`, `insert_run` and
  `insertd_run`: the executions of the procedures.
-/

namespace Xinu

open Foundations Function

/-! ## Identifiers and lists -/

/-- The queues allocated while `nextqid` was below `n`, with both sentinels in the table. -/
def IsQid (n q : Int) : Prop :=
  nproc ≤ q ∧ q < n ∧ q + 1 < nqent ∧ (q - nproc) % 2 = 0

/-- The processes on queue `q`, from head to tail. -/
def members (t : QueueTab) (q : Int) : List Int :=
  follow t.qnext (fun p => decide (IsPid p)) nproc.toNat (firstid t q)

/-- The nodes of `l` lie, doubly linked, between the sentinels of queue `q`. -/
def Linked (t : QueueTab) (q : Int) (l : List Int) : Prop :=
  Path t.qnext t.qprev (queuehead q) l (queuetail q)

theorem IsQid.not_isPid {n q : Int} (h : IsQid n q) : ¬ IsPid q := by
  unfold IsQid at h; unfold IsPid; omega

theorem IsQid.tail_not_isPid {n q : Int} (h : IsQid n q) : ¬ IsPid (queuetail q) := by
  unfold IsQid at h; unfold IsPid queuetail; omega

theorem IsQid.not_isbadqid {n q : Int} (h : IsQid n q) : ¬ isbadqid q := by
  have hpos : 0 ≤ nproc := by decide
  unfold IsQid at h; unfold isbadqid; omega

theorem isPid_of_mem_members {t : QueueTab} {q p : Int} (h : p ∈ members t q) : IsPid p := by
  simpa using isNode_of_mem_follow h

/-- A list of distinct processes is no longer than the process table. -/
theorem length_le_nproc {l : List Int} (hl : ∀ p ∈ l, IsPid p) (hnd : l.Nodup) :
    l.length ≤ nproc.toNat := by
  have hsub : l.toFinset ⊆ Finset.Ico 0 nproc := by
    intro p hp
    have := hl p (List.mem_toFinset.mp hp)
    simpa [IsPid] using this
  calc
    l.length = l.toFinset.card := (List.toFinset_card_of_nodup hnd).symm
    _ ≤ (Finset.Ico 0 nproc).card := Finset.card_le_card hsub
    _ = nproc.toNat := by simp

/-- The list read off a linked queue. -/
theorem Linked.members_eq {t : QueueTab} {n q : Int} {l : List Int} (h : Linked t q l)
    (hq : IsQid n q) (hl : ∀ p ∈ l, IsPid p) (hnd : l.Nodup) : members t q = l :=
  Path.follow_eq h (fun p hp => by simpa using hl p hp) (by simpa using hq.tail_not_isPid)
    (length_le_nproc hl hnd)

/-! ## Well-formed queue tables -/

/-- Every queue allocated below `n` is well linked, and no process is linked twice. -/
structure QueuesOk (t : QueueTab) (n : Int) : Prop where
  linked : ∀ q, IsQid n q → Linked t q (members t q)
  nodup : ∀ q, IsQid n q → (members t q).Nodup
  disjoint : ∀ q q' p, IsQid n q → IsQid n q' → p ∈ members t q → p ∈ members t q' → q = q'
  headkey : ∀ q, IsQid n q → t.qkey (queuehead q) = maxkey
  tailkey : ∀ q, IsQid n q → t.qkey (queuetail q) = minkey

/-- The process `p` is on none of the queues. -/
def Unlinked (t : QueueTab) (n p : Int) : Prop :=
  ∀ q, IsQid n q → p ∉ members t q

section Nodes

variable {t : QueueTab} {n q q' p : Int} {l : List Int}

/-- The entries of one queue are distinct. -/
theorem nodes_nodup (hq : IsQid n q) (hl : ∀ p ∈ l, IsPid p) (hnd : l.Nodup) :
    (queuehead q :: (l ++ [queuetail q])).Nodup := by
  have hhead : queuehead q ∉ l := fun h => hq.not_isPid (hl _ h)
  have htail : queuetail q ∉ l := fun h => hq.tail_not_isPid (hl _ h)
  have hne : queuehead q ≠ queuetail q := by unfold queuehead queuetail; omega
  simp only [List.nodup_cons, List.mem_append, List.mem_singleton, not_or]
  exact ⟨⟨hhead, hne⟩, List.nodup_append.mpr ⟨hnd, by simp, by
    intro a ha b hb
    rw [List.mem_singleton.mp hb]
    rintro rfl
    exact htail ha⟩⟩

/-- The sentinels of two queues are four different entries. -/
theorem sentinels_ne (hq : IsQid n q) (hq' : IsQid n q') (hne : q ≠ q') :
    queuehead q ≠ queuetail q' ∧ queuetail q ≠ queuehead q' ∧
      queuehead q ≠ queuehead q' ∧ queuetail q ≠ queuetail q' := by
  unfold IsQid at hq hq'
  unfold queuehead queuetail
  omega

/-- An entry of one queue is not an entry of another. -/
theorem QueuesOk.nodes_disjoint (h : QueuesOk t n) (hq : IsQid n q) (hq' : IsQid n q')
    (hne : q ≠ q') {i : Int} (hi : i ∈ queuehead q :: (members t q ++ [queuetail q])) :
    i ∉ queuehead q' :: (members t q' ++ [queuetail q']) := by
  obtain ⟨h1, h2, h3, h4⟩ := sentinels_ne hq hq' hne
  simp only [List.mem_cons, List.mem_append, List.not_mem_nil, or_false] at hi ⊢
  rintro hi'
  rcases hi with rfl | hi | rfl
  · rcases hi' with hi' | hi' | hi'
    · exact h3 hi'
    · exact hq.not_isPid (isPid_of_mem_members hi')
    · exact h1 hi'
  · rcases hi' with rfl | hi' | rfl
    · exact hq'.not_isPid (isPid_of_mem_members hi)
    · exact hne (h.disjoint q q' _ hq hq' hi hi')
    · exact hq'.tail_not_isPid (isPid_of_mem_members hi)
  · rcases hi' with hi' | hi' | hi'
    · exact h2 hi'
    · exact hq.tail_not_isPid (isPid_of_mem_members hi')
    · exact h4 hi'

end Nodes

/-- What an update of the table does to its queues: `q` becomes `l`, and the
other queues stay. -/
structure QueueUpdate (t t' : QueueTab) (n q : Int) (l : List Int) : Prop where
  ok : QueuesOk t' n
  self : members t' q = l
  other : ∀ q', IsQid n q' → q' ≠ q → members t' q' = members t q'

/-- An update that links queue `q` as `l` and keeps the links of the other queues. -/
theorem QueuesOk.update {t t' : QueueTab} {n q : Int} {l : List Int} (h : QueuesOk t n)
    (hq : IsQid n q) (hl : ∀ p ∈ l, IsPid p) (hnd : l.Nodup) (hlink : Linked t' q l)
    (hother : ∀ q', IsQid n q' → q' ≠ q → Linked t' q' (members t q'))
    (hdisj : ∀ p ∈ l, ∀ q', IsQid n q' → q' ≠ q → p ∉ members t q')
    (hkey : ∀ i, ¬ IsPid i → t'.qkey i = t.qkey i) : QueueUpdate t t' n q l := by
  have hself : members t' q = l := hlink.members_eq hq hl hnd
  have hsame : ∀ q', IsQid n q' → q' ≠ q → members t' q' = members t q' := fun q' hq' hne =>
    (hother q' hq' hne).members_eq hq' (fun p hp => isPid_of_mem_members hp) (h.nodup q' hq')
  refine ⟨⟨?_, ?_, ?_, ?_, ?_⟩, hself, hsame⟩
  · intro q' hq'
    by_cases hne : q' = q
    · subst q'; rw [hself]; exact hlink
    · rw [hsame q' hq' hne]; exact hother q' hq' hne
  · intro q' hq'
    by_cases hne : q' = q
    · subst q'; rw [hself]; exact hnd
    · rw [hsame q' hq' hne]; exact h.nodup q' hq'
  · intro q₁ q₂ p h₁ h₂ hp₁ hp₂
    by_cases hne₁ : q₁ = q
    · subst q₁
      by_contra hne
      rw [hself] at hp₁
      rw [hsame q₂ h₂ (Ne.symm hne)] at hp₂
      exact hdisj p hp₁ q₂ h₂ (Ne.symm hne) hp₂
    · rw [hsame q₁ h₁ hne₁] at hp₁
      by_cases hne₂ : q₂ = q
      · subst q₂
        rw [hself] at hp₂
        exact (hdisj p hp₂ q₁ h₁ hne₁ hp₁).elim
      · rw [hsame q₂ h₂ hne₂] at hp₂
        exact h.disjoint q₁ q₂ p h₁ h₂ hp₁ hp₂
  · intro q' hq'
    rw [hkey (queuehead q') hq'.not_isPid]; exact h.headkey q' hq'
  · intro q' hq'
    rw [hkey _ hq'.tail_not_isPid]; exact h.tailkey q' hq'

/-- A table that agrees with a well-formed one on the links of all queues. -/
theorem QueuesOk.congr {t t' : QueueTab} {n : Int} (h : QueuesOk t n)
    (hnext : ∀ q, IsQid n q → ∀ i ∈ queuehead q :: members t q, t'.qnext i = t.qnext i)
    (hprev : ∀ q, IsQid n q → ∀ i, i ∈ members t q ∨ i = queuetail q →
      t'.qprev i = t.qprev i)
    (hkey : ∀ i, ¬ IsPid i → t'.qkey i = t.qkey i) :
    QueuesOk t' n ∧ ∀ q, IsQid n q → members t' q = members t q := by
  have hlink : ∀ q, IsQid n q → Linked t' q (members t q) := fun q hq =>
    (h.linked q hq).congr (hnext q hq) (hprev q hq)
  have hsame : ∀ q, IsQid n q → members t' q = members t q := fun q hq =>
    (hlink q hq).members_eq hq (fun p hp => isPid_of_mem_members hp) (h.nodup q hq)
  refine ⟨⟨?_, ?_, ?_, ?_, ?_⟩, hsame⟩
  · intro q hq; rw [hsame q hq]; exact hlink q hq
  · intro q hq; rw [hsame q hq]; exact h.nodup q hq
  · intro q q' p hq hq' hp hp'
    rw [hsame q hq] at hp
    rw [hsame q' hq'] at hp'
    exact h.disjoint q q' p hq hq' hp hp'
  · intro q hq; rw [hkey (queuehead q) hq.not_isPid]; exact h.headkey q hq
  · intro q hq; rw [hkey _ hq.tail_not_isPid]; exact h.tailkey q hq

/-! ## Linking and unlinking -/

section Fields

variable (t : QueueTab) (i j v : Int)

@[simp]
theorem qnext_setQnext : (t.setQnext i v).qnext j = if j = i then v else t.qnext j := by
  unfold QueueTab.setQnext QueueTab.qnext
  by_cases h : j = i <;> simp [h]

@[simp]
theorem qnext_setQprev : (t.setQprev i v).qnext j = t.qnext j := by
  unfold QueueTab.setQprev QueueTab.qnext
  by_cases h : j = i <;> simp [h]

@[simp]
theorem qnext_setQkey : (t.setQkey i v).qnext j = t.qnext j := by
  unfold QueueTab.setQkey QueueTab.qnext
  by_cases h : j = i <;> simp [h]

@[simp]
theorem qprev_setQnext : (t.setQnext i v).qprev j = t.qprev j := by
  unfold QueueTab.setQnext QueueTab.qprev
  by_cases h : j = i <;> simp [h]

@[simp]
theorem qprev_setQprev : (t.setQprev i v).qprev j = if j = i then v else t.qprev j := by
  unfold QueueTab.setQprev QueueTab.qprev
  by_cases h : j = i <;> simp [h]

@[simp]
theorem qprev_setQkey : (t.setQkey i v).qprev j = t.qprev j := by
  unfold QueueTab.setQkey QueueTab.qprev
  by_cases h : j = i <;> simp [h]

@[simp]
theorem qkey_setQnext : (t.setQnext i v).qkey j = t.qkey j := by
  unfold QueueTab.setQnext QueueTab.qkey
  by_cases h : j = i <;> simp [h]

@[simp]
theorem qkey_setQprev : (t.setQprev i v).qkey j = t.qkey j := by
  unfold QueueTab.setQprev QueueTab.qkey
  by_cases h : j = i <;> simp [h]

@[simp]
theorem qkey_setQkey : (t.setQkey i v).qkey j = if j = i then v else t.qkey j := by
  unfold QueueTab.setQkey QueueTab.qkey
  by_cases h : j = i <;> simp [h]

end Fields

/-- Keys play no part in the links. -/
@[simp]
theorem members_setQkey (t : QueueTab) (i v q : Int) :
    members (t.setQkey i v) q = members t q := by
  have hnext : (t.setQkey i v).qnext = t.qnext := funext (qnext_setQkey t i · v)
  unfold members firstid
  rw [hnext]

theorem firstid_setQkey (t : QueueTab) (i v q : Int) :
    firstid (t.setQkey i v) q = firstid t q :=
  qnext_setQkey t i (queuehead q) v

/-- The key of a process may change. -/
theorem QueuesOk.setQkey {t : QueueTab} {n i v : Int} (h : QueuesOk t n) (hi : IsPid i) :
    QueuesOk (t.setQkey i v) n := by
  have hkey : ∀ j, ¬ IsPid j → (t.setQkey i v).qkey j = t.qkey j := by
    intro j hj
    have hji : j ≠ i := fun heq => hj (heq ▸ hi)
    rw [qkey_setQkey, if_neg hji]
  refine (h.congr ?_ ?_ hkey).1
  · exact fun _ _ j _ => qnext_setQkey t i j v
  · exact fun _ _ j _ => qprev_setQkey t i j v

section Links

variable {t t' : QueueTab} {n q p next prev : Int} {l m : List Int}

/-- Linking `p` in front of `next` inserts it at that point of the list. -/
theorem QueuesOk.link (h : QueuesOk t n) (hq : IsQid n q) (hsplit : members t q = l ++ m)
    (hp : IsPid p) (hun : Unlinked t n p) (hnext : m.headD (queuetail q) = next)
    (hprev : t.qprev next = prev)
    (hnext' : ∀ i, t'.qnext i = if i = prev then p else if i = p then next else t.qnext i)
    (hprev' : ∀ i, t'.qprev i = if i = next then p else if i = p then prev else t.qprev i)
    (hkey' : ∀ i, ¬ IsPid i → t'.qkey i = t.qkey i) :
    QueueUpdate t t' n q (l ++ p :: m) := by
  have hpids : ∀ x ∈ l ++ m, IsPid x := fun x hx =>
    isPid_of_mem_members (t := t) (q := q) (by rw [hsplit]; exact hx)
  have hnd : (l ++ m).Nodup := hsplit ▸ h.nodup q hq
  have hpath : Path t.qnext t.qprev (queuehead q) (l ++ m) (queuetail q) :=
    hsplit ▸ h.linked q hq
  have hnodes := nodes_nodup hq hpids hnd
  have hpl : p ∉ l ++ m := hsplit ▸ hun q hq
  have hpnode : p ∉ queuehead q :: (l ++ m ++ [queuetail q]) := by
    simp only [List.mem_cons, List.mem_append, List.not_mem_nil, or_false] at hpl ⊢
    rintro (rfl | hpl' | rfl)
    · exact hq.not_isPid hp
    · exact hpl hpl'
    · exact hq.tail_not_isPid hp
  have hleft : Path t.qnext t.qprev (queuehead q) l next := by
    cases m with
    | nil => simpa [← hnext] using hpath
    | cons y m => rw [← hnext]; exact (path_append.mp hpath).1
  have hprevmem : prev ∈ queuehead q :: l := hprev ▸ hleft.prev_mem
  have hnextmem : next ∈ m ++ [queuetail q] := by
    cases m <;> simp [← hnext]
  have hpprev : p ≠ prev := by
    rintro rfl
    exact hpnode (by rcases List.mem_cons.mp hprevmem with h | h <;> simp [h])
  have hpnext : p ≠ next := by
    rintro rfl
    exact hpnode (by rcases List.mem_append.mp hnextmem with h | h <;> simp_all)
  have hprevnode : prev ∈ queuehead q :: (members t q ++ [queuetail q]) := by
    rw [hsplit]
    rcases List.mem_cons.mp hprevmem with h | h <;> simp [h]
  have hnextnode : next ∈ queuehead q :: (members t q ++ [queuetail q]) := by
    rw [hsplit]
    rcases List.mem_append.mp hnextmem with h | h
    · simp [h]
    · rw [List.mem_singleton.mp h]; simp
  refine h.update hq ?_ ?_ ?_ ?_ ?_ hkey'
  · intro x hx
    simp only [List.mem_append, List.mem_cons] at hx hpids
    rcases hx with hx | rfl | hx
    · exact hpids x (Or.inl hx)
    · exact hp
    · exact hpids x (Or.inr hx)
  · exact List.nodup_middle.mpr (List.nodup_cons.mpr ⟨hpl, hnd⟩)
  · refine hpath.insert hnodes hpnode hnext hprev ?_ ?_ ?_ ?_ ?_ ?_
    · intro y hyp hyprev; simp [hnext', hyp, hyprev]
    · intro y hyp hynext; simp [hprev', hyp, hynext]
    · simp [hnext']
    · simp [hprev', hpnext]
    · simp [hnext', hpprev]
    · simp [hprev']
  · intro q' hq' hne
    refine (h.linked q' hq').congr ?_ ?_
    · intro i hi
      have hiprev : i ≠ prev := by
        rintro rfl
        refine h.nodes_disjoint hq hq' (Ne.symm hne) hprevnode ?_
        rcases List.mem_cons.mp hi with hi | hi <;> simp [hi]
      have hip : i ≠ p := by
        rintro rfl
        rcases List.mem_cons.mp hi with rfl | hi
        · exact hq'.not_isPid hp
        · exact hun q' hq' hi
      simp [hnext', hiprev, hip]
    · intro i hi
      have hinext : i ≠ next := by
        rintro rfl
        refine h.nodes_disjoint hq hq' (Ne.symm hne) hnextnode ?_
        rcases hi with hi | hi <;> simp [hi]
      have hip : i ≠ p := by
        rintro rfl
        rcases hi with hi | rfl
        · exact hun q' hq' hi
        · exact hq'.tail_not_isPid hp
      simp [hprev', hinext, hip]
  · intro x hx q' hq' hne hx'
    simp only [List.mem_append, List.mem_cons] at hx
    have hsame : x ∈ members t q → False := fun hxq =>
      hne (h.disjoint q' q x hq' hq hx' hxq)
    rw [hsplit] at hsame
    rcases hx with hx | rfl | hx
    · exact hsame (List.mem_append_left _ hx)
    · exact hun q' hq' hx'
    · exact hsame (List.mem_append_right _ hx)

/-- Bypassing `p` removes it from its list, whatever becomes of its own links. -/
theorem QueuesOk.unlink (h : QueuesOk t n) (hq : IsQid n q)
    (hsplit : members t q = l ++ p :: m)
    (hnext' : ∀ i, i ≠ p → t'.qnext i = if i = t.qprev p then t.qnext p else t.qnext i)
    (hprev' : ∀ i, i ≠ p → t'.qprev i = if i = t.qnext p then t.qprev p else t.qprev i)
    (hkey' : ∀ i, ¬ IsPid i → t'.qkey i = t.qkey i) :
    QueueUpdate t t' n q (l ++ m) := by
  have hpids : ∀ x ∈ l ++ p :: m, IsPid x := fun x hx =>
    isPid_of_mem_members (t := t) (q := q) (by rw [hsplit]; exact hx)
  have hnd : (l ++ p :: m).Nodup := hsplit ▸ h.nodup q hq
  have hpath : Path t.qnext t.qprev (queuehead q) (l ++ p :: m) (queuetail q) :=
    hsplit ▸ h.linked q hq
  obtain ⟨hleft, hright⟩ := path_append.mp hpath
  have hnodes := nodes_nodup hq hpids hnd
  have hprevmem : t.qprev p ∈ queuehead q :: l := hleft.prev_mem
  have hnextmem : t.qnext p ∈ m ++ [queuetail q] := by
    rw [hright.next_eq]
    cases m <;> simp
  have hnodes' : (queuehead q :: l ++ p :: (m ++ [queuetail q])).Nodup := by
    simpa using hnodes
  have hprevp : t.qprev p ≠ p := fun heq =>
    (List.disjoint_of_nodup_append hnodes') hprevmem (by simp [heq])
  have hnextp : t.qnext p ≠ p := fun heq => by
    have hcons := (List.nodup_append.mp hnodes').2.1
    exact (List.nodup_cons.mp hcons).1 (heq ▸ hnextmem)
  have hprevnode : t.qprev p ∈ queuehead q :: (members t q ++ [queuetail q]) := by
    rw [hsplit]
    rcases List.mem_cons.mp hprevmem with h | h <;> simp [h]
  have hnextnode : t.qnext p ∈ queuehead q :: (members t q ++ [queuetail q]) := by
    rw [hsplit]
    rcases List.mem_append.mp hnextmem with h | h
    · simp [h]
    · rw [List.mem_singleton.mp h]; simp
  have hpq : p ∈ members t q := by rw [hsplit]; simp
  refine h.update hq ?_ ?_ ?_ ?_ ?_ hkey'
  · intro x hx
    refine hpids x ?_
    simp only [List.mem_append, List.mem_cons] at hx ⊢
    exact hx.imp_right Or.inr
  · exact (List.nodup_cons.mp (List.nodup_middle.mp hnd)).2
  · refine hpath.remove hnodes rfl rfl ?_ ?_ ?_ ?_
    · intro y hyp hyprev; simp [hnext' y hyp, hyprev]
    · intro y hyp hynext; simp [hprev' y hyp, hynext]
    · simp [hnext' _ hprevp]
    · simp [hprev' _ hnextp]
  · intro q' hq' hne
    refine (h.linked q' hq').congr ?_ ?_
    · intro i hi
      have hinode : i ∈ queuehead q' :: (members t q' ++ [queuetail q']) := by
        rcases List.mem_cons.mp hi with hi | hi <;> simp [hi]
      have hip : i ≠ p := by
        rintro rfl
        exact h.nodes_disjoint hq hq' (Ne.symm hne) (by simp [hpq]) hinode
      have hiprev : i ≠ t.qprev p := fun heq =>
        h.nodes_disjoint hq hq' (Ne.symm hne) hprevnode (heq ▸ hinode)
      simp [hnext' i hip, hiprev]
    · intro i hi
      have hinode : i ∈ queuehead q' :: (members t q' ++ [queuetail q']) := by
        rcases hi with hi | hi <;> simp [hi]
      have hip : i ≠ p := by
        rintro rfl
        exact h.nodes_disjoint hq hq' (Ne.symm hne) (by simp [hpq]) hinode
      have hinext : i ≠ t.qnext p := fun heq =>
        h.nodes_disjoint hq hq' (Ne.symm hne) hnextnode (heq ▸ hinode)
      simp [hprev' i hip, hinext]
  · intro x hx q' hq' hne hx'
    refine hne (h.disjoint q' q x hq' hq hx' ?_)
    rw [hsplit]
    simp only [List.mem_append, List.mem_cons] at hx ⊢
    exact hx.imp_right Or.inr

/-- A removed process is on no queue. -/
theorem QueuesOk.unlinked_of_unlink (h : QueuesOk t n) (hq : IsQid n q)
    (hsplit : members t q = l ++ p :: m) (h' : QueueUpdate t t' n q (l ++ m)) :
    Unlinked t' n p := by
  intro q' hq' hp
  by_cases hne : q' = q
  · subst q'
    rw [h'.self] at hp
    have hnd : (l ++ p :: m).Nodup := hsplit ▸ h.nodup q hq
    exact (List.nodup_cons.mp (List.nodup_middle.mp hnd)).1 hp
  · rw [h'.other q' hq' hne] at hp
    exact hne (h.disjoint q' q p hq' hq hp (by rw [hsplit]; simp))

end Links

/-! ## Executions of the procedures -/

@[simp]
theorem run_onQueues (f : QueueTab → QueueTab) (s : Kernel) :
    onQueues f s = .done ⟨⟩ { s with queuetab := f s.queuetab } :=
  rfl

section Runs

variable {s : Kernel} {n q p key : Int} {l m : List Int}

theorem firstid_eq (h : QueuesOk s.queuetab n) (hq : IsQid n q) :
    firstid s.queuetab q = (members s.queuetab q).headD (queuetail q) :=
  (h.linked q hq).next_eq

theorem isempty_iff (h : QueuesOk s.queuetab n) (hq : IsQid n q) :
    isempty s.queuetab q ↔ members s.queuetab q = [] := by
  unfold isempty
  rw [firstid_eq h hq]
  cases hm : members s.queuetab q with
  | nil =>
      have := hq.1
      simp [queuetail]; omega
  | cons p m =>
      have hp : IsPid p := isPid_of_mem_members (t := s.queuetab) (q := q) (by simp [hm])
      have := hp.2
      simp; omega

theorem nonempty_iff (h : QueuesOk s.queuetab n) (hq : IsQid n q) :
    nonempty s.queuetab q ↔ members s.queuetab q ≠ [] := by
  rw [ne_eq, ← isempty_iff h hq]
  unfold nonempty isempty
  omega

theorem isPid_of_not_isbadpid (hp : ¬ isbadpid s p) : IsPid p := by
  unfold isbadpid at hp
  unfold IsPid
  omega

/-- `enqueue` appends to the list. -/
theorem enqueue_run (h : QueuesOk s.queuetab n) (hq : IsQid n q) (hp : ¬ isbadpid s p)
    (hun : Unlinked s.queuetab n p) :
    ∃ t', enqueue p q s = .done p { s with queuetab := t' } ∧
      QueueUpdate s.queuetab t' n q (members s.queuetab q ++ [p]) ∧
      ∀ i, t'.qkey i = s.queuetab.qkey i := by
  have hupd : QueueUpdate s.queuetab ((((s.queuetab.setQnext p (queuetail q)).setQprev p
      (s.queuetab.qprev (queuetail q))).setQnext (s.queuetab.qprev (queuetail q))
        p).setQprev (queuetail q) p) n q (members s.queuetab q ++ [p]) :=
    h.link hq (List.append_nil _).symm (isPid_of_not_isbadpid hp) hun rfl rfl (by simp)
      (by simp) (by simp)
  refine ⟨_, ?_, hupd, by simp⟩
  simp [enqueue, hq.not_isbadqid, hp]

/-- `getitem` removes a process from its list. -/
theorem getitem_run (h : QueuesOk s.queuetab n) (hq : IsQid n q)
    (hp : p ∈ members s.queuetab q) :
    ∃ t', getitem p s = .done p { s with queuetab := t' } ∧
      QueueUpdate s.queuetab t' n q ((members s.queuetab q).erase p) ∧
      Unlinked t' n p ∧ ∀ i, t'.qkey i = s.queuetab.qkey i := by
  obtain ⟨l, m, hsplit⟩ := List.append_of_mem hp
  have hnd : (l ++ p :: m).Nodup := hsplit ▸ h.nodup q hq
  have hpl : p ∉ l := fun hpl =>
    (List.nodup_cons.mp (List.nodup_middle.mp hnd)).1 (List.mem_append_left _ hpl)
  have herase : (members s.queuetab q).erase p = l ++ m := by
    rw [hsplit, List.erase_append_right _ hpl, List.erase_cons_head]
  rw [herase]
  have hupd : QueueUpdate s.queuetab ((s.queuetab.setQnext (s.queuetab.qprev p)
      (s.queuetab.qnext p)).setQprev (s.queuetab.qnext p) (s.queuetab.qprev p)) n q (l ++ m) :=
    h.unlink hq hsplit (by simp) (by simp) (by simp)
  refine ⟨_, ?_, hupd, h.unlinked_of_unlink hq hsplit hupd, by simp⟩
  simp [getitem]

theorem getfirst_run_nil (h : QueuesOk s.queuetab n) (hq : IsQid n q)
    (hm : members s.queuetab q = []) : getfirst q s = .done empty s := by
  simp [getfirst, (isempty_iff h hq).mpr hm]

/-- `getfirst` removes the head of the list. -/
theorem getfirst_run_cons (h : QueuesOk s.queuetab n) (hq : IsQid n q)
    (hm : members s.queuetab q = p :: m) :
    ∃ t', getfirst q s = .done p { s with queuetab := t' } ∧
      QueueUpdate s.queuetab t' n q m ∧ Unlinked t' n p ∧
      ∀ i, t'.qkey i = s.queuetab.qkey i := by
  have hne : ¬ isempty s.queuetab q := by rw [isempty_iff h hq, hm]; simp
  have hfirst : s.queuetab.qnext (queuehead q) = p := by
    have := firstid_eq h hq
    simpa [hm, firstid] using this
  obtain ⟨t', hrun, hupd, hun, hkey⟩ := getitem_run h hq (p := p) (by simp [hm])
  rw [hm, List.erase_cons_head] at hupd
  refine ⟨t', ?_, hupd, hun, hkey⟩
  simp [getfirst, hne, hfirst, hrun]

theorem getlast_run_nil (h : QueuesOk s.queuetab n) (hq : IsQid n q)
    (hm : members s.queuetab q = []) : getlast q s = .done empty s := by
  simp [getlast, (isempty_iff h hq).mpr hm]

/-- `getlast` removes the end of the list. -/
theorem getlast_run_snoc (h : QueuesOk s.queuetab n) (hq : IsQid n q)
    (hm : members s.queuetab q = m ++ [p]) :
    ∃ t', getlast q s = .done p { s with queuetab := t' } ∧
      QueueUpdate s.queuetab t' n q ((members s.queuetab q).erase p) ∧ Unlinked t' n p ∧
      ∀ i, t'.qkey i = s.queuetab.qkey i := by
  have hne : ¬ isempty s.queuetab q := by rw [isempty_iff h hq, hm]; simp
  have hlast : s.queuetab.qprev (queuetail q) = p := by
    have hpath := h.linked q hq
    unfold Linked at hpath
    rw [hm] at hpath
    simpa using hpath.prev_eq
  obtain ⟨t', hrun, hupd, hun, hkey⟩ := getitem_run h hq (p := p) (by simp [hm])
  refine ⟨t', ?_, hupd, hun, hkey⟩
  simp [getlast, hne, hlast, hrun]

theorem dequeue_run_nil (h : QueuesOk s.queuetab n) (hq : IsQid n q)
    (hm : members s.queuetab q = []) : dequeue q s = .done empty s := by
  simp [dequeue, hq.not_isbadqid, (isempty_iff h hq).mpr hm]

/-- `dequeue` removes the head of the list and clears its links. -/
theorem dequeue_run_cons (h : QueuesOk s.queuetab n) (hq : IsQid n q)
    (hm : members s.queuetab q = p :: m) :
    ∃ t', dequeue q s = .done p { s with queuetab := t' } ∧
      QueueUpdate s.queuetab t' n q m ∧ Unlinked t' n p ∧
      ∀ i, t'.qkey i = s.queuetab.qkey i := by
  have hne : ¬ isempty s.queuetab q := by rw [isempty_iff h hq, hm]; simp
  have hfirst : s.queuetab.qnext (queuehead q) = p := by
    have := firstid_eq h hq
    simpa [hm, firstid] using this
  have hsplit : members s.queuetab q = [] ++ p :: m := by simp [hm]
  have hupd : QueueUpdate s.queuetab ((((s.queuetab.setQnext (s.queuetab.qprev p)
      (s.queuetab.qnext p)).setQprev (s.queuetab.qnext p) (s.queuetab.qprev p)).setQprev p
        empty).setQnext p empty) n q ([] ++ m) :=
    h.unlink hq hsplit (by intro i hi; simp [hi]) (by intro i hi; simp [hi]) (by simp)
  refine ⟨_, ?_, hupd, h.unlinked_of_unlink hq hsplit hupd, by simp⟩
  simp [dequeue, getfirst, getitem, hq.not_isbadqid, hne, hfirst]

/-! ### Insertion by key -/

/-- The scan of `insert` stops at the first node whose key is less than `key`. -/
theorem insertLoop_eq {t : QueueTab} {a b : Int} {fuel : Nat}
    (h : Path t.qnext t.qprev a l b) (hb : t.qkey b < key) (hfuel : l.length < fuel) :
    insertLoop t key fuel (t.qnext a) =
      some ((l.dropWhile fun x => decide (key ≤ t.qkey x)).headD b) := by
  induction l generalizing a fuel with
  | nil =>
      cases fuel with
      | zero => simp at hfuel
      | succ fuel =>
          have : ¬ key ≤ t.qkey b := by omega
          simp [insertLoop, h.1, this]
  | cons x l ih =>
      cases fuel with
      | zero => simp at hfuel
      | succ fuel =>
          by_cases hx : key ≤ t.qkey x
          · have hfuel' : l.length < fuel := by simpa using hfuel
            have hrest := ih h.2 hfuel'
            simp [insertLoop, h.1.1, hx, hrest]
          · simp [insertLoop, h.1.1, hx]

/-- The list after an insertion by descending key. -/
def insertByKey (t : QueueTab) (key p : Int) (l : List Int) : List Int :=
  l.takeWhile (fun x => decide (key ≤ t.qkey x)) ++
    p :: l.dropWhile fun x => decide (key ≤ t.qkey x)

theorem length_members_lt_queueFuel (h : QueuesOk s.queuetab n) (hq : IsQid n q) :
    (members s.queuetab q).length < queueFuel := by
  have hle := length_le_nproc (fun p hp => isPid_of_mem_members hp) (h.nodup q hq)
  have hlt : nproc.toNat < queueFuel := by decide
  omega

/-- `insert` places the process after those whose keys are at least its own. -/
theorem insert_run (h : QueuesOk s.queuetab n) (hq : IsQid n q) (hp : ¬ isbadpid s p)
    (hun : Unlinked s.queuetab n p) (hkey : minkey < key) :
    ∃ t', insert p q key s = .done ok { s with queuetab := t' } ∧
      QueueUpdate s.queuetab t' n q (insertByKey s.queuetab key p (members s.queuetab q)) ∧
      ∀ i, t'.qkey i = if i = p then key else s.queuetab.qkey i := by
  have hpid := isPid_of_not_isbadpid hp
  obtain ⟨curr, hcurr⟩ : ∃ curr, ((members s.queuetab q).dropWhile
      fun x => decide (key ≤ s.queuetab.qkey x)).headD (queuetail q) = curr := ⟨_, rfl⟩
  have hloop : insertLoop s.queuetab key queueFuel (firstid s.queuetab q) = some curr := by
    rw [← hcurr]
    exact insertLoop_eq (h.linked q hq) (by rw [h.tailkey q hq]; exact hkey)
      (length_members_lt_queueFuel h hq)
  have hupd : QueueUpdate s.queuetab (((((s.queuetab.setQnext p curr).setQprev p
      (s.queuetab.qprev curr)).setQkey p key).setQnext (s.queuetab.qprev curr) p).setQprev curr p)
        n q (insertByKey s.queuetab key p (members s.queuetab q)) := by
    refine h.link hq (List.takeWhile_append_dropWhile).symm hpid hun hcurr rfl (by simp)
      (by simp) ?_
    intro i hi
    have hip : i ≠ p := fun heq => hi (heq ▸ hpid)
    simp [hip]
  refine ⟨_, ?_, hupd, by simp⟩
  simp [insert, hq.not_isbadqid, hp, hloop]

/-! ### Insertion by delay -/

/-- The scan of `insertd` on the list: the rest of the delay, and the processes
before and after the place found. -/
def deltaSplit (t : QueueTab) : Int → List Int → Int × List Int × List Int
  | key, [] => (key, [], [])
  | key, x :: l =>
      if t.qkey x ≤ key then
        let r := deltaSplit t (i32 (key - t.qkey x)) l
        (r.1, x :: r.2.1, r.2.2)
      else (key, [], x :: l)

theorem deltaSplit_append (t : QueueTab) (key : Int) (l : List Int) :
    (deltaSplit t key l).2.1 ++ (deltaSplit t key l).2.2 = l := by
  induction l generalizing key with
  | nil => rfl
  | cons x l ih =>
      simp only [deltaSplit]
      split
      · simp [ih]
      · simp

theorem insertdLoop_eq {t : QueueTab} {a : Int} {fuel : Nat}
    (h : Path t.qnext t.qprev a l (queuetail q)) (hq : queuetail q ∉ l)
    (hfuel : l.length < fuel) :
    insertdLoop t q fuel key a (t.qnext a) =
      some ((deltaSplit t key l).1, (deltaSplit t key l).2.1.getLastD a,
        (deltaSplit t key l).2.2.headD (queuetail q)) := by
  induction l generalizing a fuel key with
  | nil =>
      cases fuel with
      | zero => simp at hfuel
      | succ fuel => simp [insertdLoop, h.1, deltaSplit]
  | cons x l ih =>
      cases fuel with
      | zero => simp at hfuel
      | succ fuel =>
          have hx : x ≠ queuetail q := fun heq => hq (by simp [heq])
          by_cases hle : t.qkey x ≤ key
          · have hfuel' : l.length < fuel := by simpa using hfuel
            have hrest := @ih (i32 (key - t.qkey x)) x fuel h.2
              (fun hmem => hq (List.mem_cons_of_mem x hmem)) hfuel'
            simp only [insertdLoop, h.1.1, hx, hle, hrest, deltaSplit, List.getLastD_cons, ne_eq,
              not_false_eq_true, and_self, if_true]
          · simp [insertdLoop, h.1.1, hx, hle, deltaSplit]

/-- The keys after an insertion by delay. -/
def insertdKey (t : QueueTab) (q key p : Int) (i : Int) : Int :=
  let r := deltaSplit t key (members t q)
  if i = p then r.1
  else if i = r.2.2.headD (queuetail q) ∧ r.2.2 ≠ [] then i32 (t.qkey i - r.1)
  else t.qkey i

/-- The list after an insertion by delay. -/
def insertdList (t : QueueTab) (q key p : Int) : List Int :=
  let r := deltaSplit t key (members t q)
  r.2.1 ++ p :: r.2.2

/-- `insertd` places the process where the accumulated delays reach its own and
charges the delay that is left to it and to its successor. -/
theorem insertd_run (h : QueuesOk s.queuetab n) (hq : IsQid n q) (hp : ¬ isbadpid s p)
    (hun : Unlinked s.queuetab n p) :
    ∃ t', insertd p q key s = .done ok { s with queuetab := t' } ∧
      QueueUpdate s.queuetab t' n q (insertdList s.queuetab q key p) ∧
      ∀ i, t'.qkey i = insertdKey s.queuetab q key p i := by
  have hpid := isPid_of_not_isbadpid hp
  obtain ⟨left, l, m, hr⟩ : ∃ left l m, deltaSplit s.queuetab key (members s.queuetab q) =
      (left, l, m) := ⟨_, _, _, rfl⟩
  have hsplit : members s.queuetab q = l ++ m := by
    have := deltaSplit_append s.queuetab key (members s.queuetab q)
    rw [hr] at this
    exact this.symm
  obtain ⟨next, hnext⟩ : ∃ next, m.headD (queuetail q) = next := ⟨_, rfl⟩
  have htail : queuetail q ∉ members s.queuetab q := fun hmem =>
    hq.tail_not_isPid (isPid_of_mem_members hmem)
  have hpath : Path s.queuetab.qnext s.queuetab.qprev (queuehead q) (l ++ m) (queuetail q) :=
    hsplit ▸ h.linked q hq
  have hprev : s.queuetab.qprev next = l.getLastD (queuehead q) := by
    cases m with
    | nil => rw [← hnext]; simpa using hpath.prev_eq
    | cons y m => rw [← hnext]; exact (path_append.mp hpath).1.prev_eq
  have hloop : insertdLoop s.queuetab q queueFuel key (queuehead q)
      (s.queuetab.qnext (queuehead q)) = some (left, s.queuetab.qprev next, next) := by
    rw [insertdLoop_eq (h.linked q hq) htail (length_members_lt_queueFuel h hq), hr, hprev]
    simp only [hnext]
  have hnextpid : next = queuetail q ↔ m = [] := by
    cases m with
    | nil => simp [← hnext]
    | cons y m =>
        have hy : y ∈ members s.queuetab q := by rw [hsplit]; simp
        have hne : y ≠ queuetail q := fun heq => htail (heq ▸ hy)
        simp [← hnext, hne]
  have hpnext : next ≠ p := by
    rintro rfl
    cases m with
    | nil =>
        simp only [List.headD_nil] at hnext
        exact hq.tail_not_isPid (hnext ▸ hpid)
    | cons y m =>
        simp only [List.headD_cons] at hnext
        subst hnext
        exact hun q hq (by rw [hsplit]; simp)
  obtain ⟨t₁, ht₁⟩ : ∃ t₁ : QueueTab, ((((s.queuetab.setQnext p next).setQprev p
      (s.queuetab.qprev next)).setQkey p left).setQnext (s.queuetab.qprev next) p).setQprev
        next p = t₁ := ⟨_, rfl⟩
  obtain ⟨t₂, ht₂⟩ : ∃ t₂, (if next ≠ queuetail q then
      t₁.setQkey next (i32 (t₁.qkey next - left)) else t₁) = t₂ := ⟨_, rfl⟩
  have hkey₂ : ∀ i, t₂.qkey i = insertdKey s.queuetab q key p i := by
    intro i
    simp only [insertdKey, hr, hnext]
    by_cases hm : m = []
    · have : next = queuetail q := hnextpid.mpr hm
      simp [← ht₂, this, ← ht₁, hm]
    · have hne : next ≠ queuetail q := fun heq => hm (hnextpid.mp heq)
      simp only [← ht₂, if_pos hne, qkey_setQkey, ← ht₁, qkey_setQprev, qkey_setQnext,
        if_neg hpnext, ne_eq, hm, not_false_eq_true, and_true]
      by_cases hi : i = next
      · subst i; simp [hpnext]
      · simp [hi]
  have hupd : QueueUpdate s.queuetab t₂ n q (l ++ p :: m) := by
    refine h.link hq hsplit hpid hun hnext rfl ?_ ?_ ?_
    · intro i; simp only [← ht₂]; split <;> simp [← ht₁]
    · intro i; simp only [← ht₂]; split <;> simp [← ht₁]
    · intro i hi
      have hip : i ≠ p := fun heq => hi (heq ▸ hpid)
      have hinext : ¬ (i = next ∧ m ≠ []) := by
        rintro ⟨rfl, hm⟩
        cases m with
        | nil => exact hm rfl
        | cons y m =>
            simp only [List.headD_cons] at hnext
            subst hnext
            exact hi (isPid_of_mem_members (t := s.queuetab) (q := q) (by rw [hsplit]; simp))
      rw [hkey₂ i]
      simp only [insertdKey, hr, hnext]
      rw [if_neg hip, if_neg hinext]
  refine ⟨t₂, ?_, by simpa [insertdList, hr] using hupd, hkey₂⟩
  by_cases hne : next ≠ queuetail q
  · rw [if_pos hne] at ht₂
    simp [insertd, hq.not_isbadqid, hp, hloop, hne, ht₁, ht₂]
  · rw [if_neg hne] at ht₂
    simp only [ne_eq, not_not] at hne
    simp [insertd, hq.not_isbadqid, hp, hloop, hne, ← ht₂, ← ht₁]

/-! ### Allocation -/

/-- The table in which the entries `q` and `q + 1` form an empty queue. -/
def emptyQueue (t : QueueTab) (q : Int) : QueueTab :=
  (((((t.setQnext (queuehead q) (queuetail q)).setQprev (queuehead q) empty).setQkey
    (queuehead q) maxkey).setQnext (queuetail q) empty).setQprev (queuetail q)
      (queuehead q)).setQkey (queuetail q) minkey

theorem newqueue_run (hmax : ¬ s.nextqid > nqent) :
    newqueue s = .done s.nextqid
      { s with queuetab := emptyQueue s.queuetab s.nextqid, nextqid := s.nextqid + 2 } := by
  simp [newqueue, hmax, emptyQueue]

/-- A queue that is allocated inside the table is empty, and the others stay. -/
theorem QueuesOk.emptyQueue {t : QueueTab} (h : QueuesOk t n) (hn : IsQid (n + 2) n) :
    QueuesOk (emptyQueue t n) (n + 2) ∧ members (emptyQueue t n) n = [] ∧
      ∀ q, IsQid n q → members (emptyQueue t n) q = members t q := by
  have hne : queuehead n ≠ queuetail n := by
    unfold queuehead queuetail
    omega
  have hnext : ∀ i, (Xinu.emptyQueue t n).qnext i =
      if i = queuehead n then queuetail n else if i = queuetail n then empty else t.qnext i := by
    intro i
    by_cases hhead : i = queuehead n
    · simp [Xinu.emptyQueue, hhead, hne]
    · simp [Xinu.emptyQueue, hhead]
  have hprev : ∀ i, (Xinu.emptyQueue t n).qprev i =
      if i = queuehead n then empty else if i = queuetail n then queuehead n else t.qprev i := by
    intro i
    by_cases hhead : i = queuehead n
    · simp [Xinu.emptyQueue, hhead, hne]
    · simp [Xinu.emptyQueue, hhead]
  have hkey : ∀ i, (Xinu.emptyQueue t n).qkey i =
      if i = queuetail n then minkey else if i = queuehead n then maxkey else t.qkey i := by
    intro i
    simp [Xinu.emptyQueue]
  have hnodes : ∀ q, IsQid n q → ∀ i, i ∈ queuehead q :: (members t q ++ [queuetail q]) →
      i ≠ queuehead n ∧ i ≠ queuetail n := by
    intro q hq i hi
    simp only [List.mem_cons, List.mem_append, List.not_mem_nil, or_false] at hi
    have hq' := hq
    have hn' := hn
    unfold IsQid at hq' hn'
    unfold queuehead queuetail at *
    rcases hi with rfl | hi | rfl
    · omega
    · have hpid := isPid_of_mem_members hi
      unfold IsPid at hpid
      omega
    · omega
  have hlinkold : ∀ q, IsQid n q → Linked (Xinu.emptyQueue t n) q (members t q) := by
    intro q hq
    refine (h.linked q hq).congr ?_ ?_
    · intro i hi
      obtain ⟨h₁, h₂⟩ := hnodes q hq i (by
        rcases List.mem_cons.mp hi with hi | hi <;> simp [hi])
      rw [hnext, if_neg h₁, if_neg h₂]
    · intro i hi
      obtain ⟨h₁, h₂⟩ := hnodes q hq i (by rcases hi with hi | hi <;> simp [hi])
      rw [hprev, if_neg h₁, if_neg h₂]
  have hold : ∀ q, IsQid n q → members (Xinu.emptyQueue t n) q = members t q := fun q hq =>
    (hlinkold q hq).members_eq hq (fun p hp => isPid_of_mem_members hp) (h.nodup q hq)
  have hlinknew : Linked (Xinu.emptyQueue t n) n [] := by
    unfold Linked
    rw [path_nil, hnext, hprev, if_pos rfl, if_neg (Ne.symm hne), if_pos rfl]
    exact ⟨rfl, rfl⟩
  have hnew : members (Xinu.emptyQueue t n) n = [] :=
    hlinknew.members_eq hn (by simp) List.nodup_nil
  have hcases : ∀ q, IsQid (n + 2) q → IsQid n q ∨ q = n := by
    intro q hq
    have hn' := hn
    unfold IsQid at hq hn' ⊢
    omega
  refine ⟨⟨?_, ?_, ?_, ?_, ?_⟩, hnew, hold⟩
  · intro q hq
    rcases hcases q hq with hq | rfl
    · rw [hold q hq]; exact hlinkold q hq
    · rw [hnew]; exact hlinknew
  · intro q hq
    rcases hcases q hq with hq | rfl
    · rw [hold q hq]; exact h.nodup q hq
    · rw [hnew]; exact List.nodup_nil
  · intro q q' p hq hq' hp hp'
    rcases hcases q hq with hq | rfl
    · rcases hcases q' hq' with hq' | rfl
      · rw [hold q hq] at hp
        rw [hold q' hq'] at hp'
        exact h.disjoint q q' p hq hq' hp hp'
      · rw [hnew] at hp'; simp at hp'
    · rw [hnew] at hp; simp at hp
  · intro q hq
    rw [hkey]
    rcases hcases q hq with hq | rfl
    · obtain ⟨h₁, h₂⟩ := hnodes q hq (queuehead q) (by simp)
      rw [if_neg h₂, if_neg h₁]
      exact h.headkey q hq
    · rw [if_neg hne, if_pos rfl]
  · intro q hq
    rw [hkey]
    rcases hcases q hq with hq | rfl
    · obtain ⟨h₁, h₂⟩ := hnodes q hq (queuetail q) (by simp)
      rw [if_neg h₂, if_neg h₁]
      exact h.tailkey q hq
    · rw [if_pos rfl]

end Runs

end Xinu
