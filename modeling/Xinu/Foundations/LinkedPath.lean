import Mathlib.Data.List.Nodup

/-!
# Doubly linked paths

Two functions `next` and `prev` on nodes describe any number of doubly linked
lists.  `Path next prev a l b` says that the nodes of `l` lie, in this order,
between the sentinels `a` and `b`, and that the two links of every adjacent
pair are mutually inverse.

Main results:

- Theorem `path_append`: paths split and join at any of their nodes.
- Theorem `Path.insert`: linking a new node in front of a node of the path.
- Theorem `Path.remove`: unlinking a node.
- Theorem `Path.unique`: the links determine the nodes of a path.
-/

namespace Xinu
namespace Foundations

variable {ι : Type} {next prev next' prev' : ι → ι} {a b x u v w : ι} {l m : List ι}

/-- The nodes of `l` are linked, in order, between `a` and `b`. -/
def Path (next prev : ι → ι) : ι → List ι → ι → Prop
  | a, [], b => next a = b ∧ prev b = a
  | a, x :: l, b => (next a = x ∧ prev x = a) ∧ Path next prev x l b

@[simp]
theorem path_nil : Path next prev a [] b ↔ next a = b ∧ prev b = a :=
  Iff.rfl

@[simp]
theorem path_cons :
    Path next prev a (x :: l) b ↔ (next a = x ∧ prev x = a) ∧ Path next prev x l b :=
  Iff.rfl

/-- Paths split and join at each of their nodes. -/
theorem path_append :
    Path next prev a (l ++ x :: m) b ↔ Path next prev a l x ∧ Path next prev x m b := by
  induction l generalizing a with
  | nil => simp
  | cons y l ih => simp [ih, and_assoc]

/-- The link out of the first sentinel. -/
theorem Path.next_eq (h : Path next prev a l b) : next a = l.headD b := by
  cases l with
  | nil => exact h.1
  | cons y l => exact h.1.1

/-- The link back from the last sentinel leads into the path. -/
theorem Path.prev_mem (h : Path next prev a l b) : prev b ∈ a :: l := by
  induction l generalizing a with
  | nil => simp [h.2]
  | cons y l ih => exact List.mem_cons_of_mem a (ih h.2)

/-- The link back from the last sentinel. -/
theorem Path.prev_eq (h : Path next prev a l b) : prev b = l.getLastD a := by
  induction l generalizing a with
  | nil => exact h.2
  | cons y l ih => rw [List.getLastD_cons]; exact ih h.2

/-- Along a path, the links back undo the links forth. -/
theorem Path.prev_next (h : Path next prev a l b) : ∀ y ∈ a :: l, prev (next y) = y := by
  induction l generalizing a with
  | nil =>
      intro y hy
      rw [List.mem_singleton.mp hy, h.1]
      exact h.2
  | cons x l ih =>
      intro y hy
      rcases List.mem_cons.mp hy with rfl | hy
      · rw [h.1.1]
        exact h.1.2
      · exact ih h.2 y hy

/-- Along a path, the links forth undo the links back. -/
theorem Path.next_prev (h : Path next prev a l b) : ∀ y ∈ l ++ [b], next (prev y) = y := by
  induction l generalizing a with
  | nil =>
      intro y hy
      rw [List.mem_singleton.mp hy, h.2]
      exact h.1
  | cons x l ih =>
      intro y hy
      rcases List.mem_cons.mp hy with rfl | hy
      · rw [h.1.2]
        exact h.1.1
      · exact ih h.2 y hy

/-- A path reads only the links out of and into its own nodes. -/
theorem Path.congr (h : Path next prev a l b) (hnext : ∀ y ∈ a :: l, next' y = next y)
    (hprev : ∀ y, y ∈ l ∨ y = b → prev' y = prev y) : Path next' prev' a l b := by
  induction l generalizing a with
  | nil =>
      refine ⟨?_, ?_⟩
      · rw [hnext a (by simp)]; exact h.1
      · rw [hprev b (by simp)]; exact h.2
  | cons y l ih =>
      refine ⟨⟨?_, ?_⟩, ih h.2 ?_ ?_⟩
      · rw [hnext a (by simp)]; exact h.1.1
      · rw [hprev y (by simp)]; exact h.1.2
      · intro z hz; exact hnext z (List.mem_cons_of_mem a hz)
      · intro z hz
        exact hprev z (hz.imp_left (List.mem_cons_of_mem y))

/-- The end of a path can be moved by redirecting the last link. -/
theorem Path.redirect (h : Path next prev a l v) (hnd : (a :: l).Nodup) (hu : prev v = u)
    (hnext : ∀ y ∈ a :: l, y ≠ u → next' y = next y) (hnextu : next' u = w)
    (hprev : ∀ y ∈ l, prev' y = prev y) (hprevw : prev' w = u) :
    Path next' prev' a l w := by
  induction l generalizing a with
  | nil =>
      have hau : a = u := by rw [← hu]; exact h.2.symm
      subst a
      exact ⟨hnextu, hprevw⟩
  | cons y l ih =>
      have hmem : u ∈ y :: l := hu ▸ h.2.prev_mem
      have hau : a ≠ u := by
        rintro rfl
        exact (List.nodup_cons.mp hnd).1 hmem
      refine ⟨⟨?_, ?_⟩, ih h.2 (List.nodup_cons.mp hnd).2 ?_ ?_⟩
      · rw [hnext a (by simp) hau]; exact h.1.1
      · rw [hprev y (by simp)]; exact h.1.2
      · intro z hz; exact hnext z (List.mem_cons_of_mem a hz)
      · intro z hz; exact hprev z (List.mem_cons_of_mem y hz)

/-- Linking the new node `x` between `v`, a node of the path or its end, and the
node before it. -/
theorem Path.insert (h : Path next prev a (l ++ m) b) (hnd : (a :: (l ++ m ++ [b])).Nodup)
    (hx : x ∉ a :: (l ++ m ++ [b])) (hv : m.headD b = v) (hu : prev v = u)
    (hnext : ∀ y, y ≠ x → y ≠ u → next' y = next y)
    (hprev : ∀ y, y ≠ x → y ≠ v → prev' y = prev y)
    (hux : next' u = x) (hxu : prev' x = u) (hxv : next' x = v) (hvx : prev' v = x) :
    Path next' prev' a (l ++ x :: m) b := by
  have hleft : Path next prev a l v := by
    cases m with
    | nil => simpa [← hv] using h
    | cons y m => rw [← hv]; exact (path_append.mp h).1
  have hvmem : v ∈ m ++ [b] := by
    cases m with
    | nil => simp [← hv]
    | cons y m => simp [← hv]
  have hal : (a :: l).Nodup := by
    refine hnd.sublist ?_
    simp
  have hdisj : ∀ y ∈ a :: l, y ∉ m ++ [b] := by
    have hnd' : (a :: l ++ (m ++ [b])).Nodup := by simpa using hnd
    exact fun y hy hy' => (List.disjoint_of_nodup_append hnd') hy hy'
  refine path_append.mpr ⟨?_, ?_⟩
  · refine hleft.redirect hal hu ?_ hux ?_ hxu
    · intro y hy hyu
      refine hnext y ?_ hyu
      rintro rfl
      exact hx (List.mem_cons.mpr ((List.mem_cons.mp hy).imp id fun h => by simp [h]))
    · intro y hy
      refine hprev y ?_ ?_
      · rintro rfl; exact hx (by simp [hy])
      · rintro rfl; exact hdisj y (List.mem_cons_of_mem a hy) hvmem
  · have humem : u ∈ a :: l := hu ▸ hleft.prev_mem
    cases m with
    | nil =>
        simp only [List.headD_nil] at hv
        subst hv
        exact ⟨hxv, hvx⟩
    | cons y m =>
        simp only [List.headD_cons] at hv
        subst hv
        refine ⟨⟨hxv, hvx⟩, (path_append.mp h).2.congr ?_ ?_⟩
        · intro z hz
          refine hnext z ?_ ?_
          · rintro rfl
            exact hx (by rcases List.mem_cons.mp hz with rfl | hz <;> simp [*])
          · rintro rfl
            exact hdisj z humem (List.mem_append_left _ hz)
        · intro z hz
          refine hprev z ?_ ?_
          · rintro rfl
            exact hx (by rcases hz with hz | rfl <;> simp [*])
          · rintro rfl
            have hnd' : (z :: (m ++ [b])).Nodup := by
              refine hnd.sublist ?_
              simp
            refine (List.nodup_cons.mp hnd').1 ?_
            simpa using hz

/-- Unlinking the node `x` of the path. -/
theorem Path.remove (h : Path next prev a (l ++ x :: m) b)
    (hnd : (a :: (l ++ x :: m ++ [b])).Nodup) (hv : next x = v) (hu : prev x = u)
    (hnext : ∀ y, y ≠ x → y ≠ u → next' y = next y)
    (hprev : ∀ y, y ≠ x → y ≠ v → prev' y = prev y)
    (huv : next' u = v) (hvu : prev' v = u) :
    Path next' prev' a (l ++ m) b := by
  obtain ⟨hleft, hright⟩ := path_append.mp h
  have hvhead : m.headD b = v := by rw [← hright.next_eq, hv]
  have hnd' : (a :: l ++ x :: (m ++ [b])).Nodup := by simpa using hnd
  have hal : (a :: l).Nodup := (List.nodup_append.mp hnd').1
  have hxm : (x :: (m ++ [b])).Nodup := (List.nodup_append.mp hnd').2.1
  have hdisj : ∀ y ∈ a :: l, y ∉ x :: (m ++ [b]) := fun y hy hy' =>
    (List.disjoint_of_nodup_append hnd') hy hy'
  have hvmem : v ∈ m ++ [b] := by
    cases m with
    | nil => simp [← hvhead]
    | cons y m => simp [← hvhead]
  have humem : u ∈ a :: l := hu ▸ hleft.prev_mem
  have hleft' : Path next' prev' a l v := by
    refine hleft.redirect hal hu ?_ huv ?_ hvu
    · intro y hy hyu
      refine hnext y ?_ hyu
      rintro rfl
      exact hdisj y hy (by simp)
    · intro y hy
      refine hprev y ?_ ?_
      · rintro rfl; exact hdisj y (List.mem_cons_of_mem a hy) (by simp)
      · rintro rfl
        exact hdisj y (List.mem_cons_of_mem a hy) (List.mem_cons_of_mem x hvmem)
  cases m with
  | nil =>
      simp only [List.headD_nil] at hvhead
      simpa [hvhead] using hleft'
  | cons y m =>
      simp only [List.headD_cons] at hvhead
      subst hvhead
      refine path_append.mpr ⟨hleft', hright.2.congr ?_ ?_⟩
      · intro z hz
        refine hnext z ?_ ?_
        · rintro rfl
          exact (List.nodup_cons.mp hxm).1 (List.mem_append_left _ hz)
        · rintro rfl
          exact hdisj z humem (List.mem_cons_of_mem x (List.mem_append_left _ hz))
      · intro z hz
        have hz' : z ∈ m ++ [b] := by simpa using hz
        refine hprev z ?_ ?_
        · rintro rfl
          exact (List.nodup_cons.mp hxm).1 (by simpa using Or.inr hz)
        · rintro rfl
          exact (List.nodup_cons.mp (List.nodup_cons.mp hxm).2).1 hz'

/-- The links determine the nodes between two sentinels. -/
theorem Path.unique {l' : List ι} (h : Path next prev a l b) (h' : Path next prev a l' b)
    (hl : b ∉ l) (hl' : b ∉ l') : l = l' := by
  induction l generalizing a l' with
  | nil =>
      cases l' with
      | nil => rfl
      | cons y l' => exact (hl' (by simp [← h.1, h'.1.1])).elim
  | cons x l ih =>
      cases l' with
      | nil => exact (hl (by simp [← h'.1, h.1.1])).elim
      | cons y l' =>
          have hxy : x = y := h.1.1.symm.trans h'.1.1
          subst y
          rw [ih h.2 h'.2 (fun hb => hl (List.mem_cons_of_mem x hb))
            (fun hb => hl' (List.mem_cons_of_mem x hb))]

/-! ## Reading a path off its links -/

/-- Follow the links from `y` through at most `n` nodes that satisfy `isNode`. -/
def follow (next : ι → ι) (isNode : ι → Bool) : Nat → ι → List ι
  | 0, _ => []
  | n + 1, y => if isNode y then y :: follow next isNode n (next y) else []

/-- Only nodes are met. -/
theorem isNode_of_mem_follow {isNode : ι → Bool} {n : Nat} {y : ι}
    (h : x ∈ follow next isNode n y) : isNode x = true := by
  induction n generalizing y with
  | zero => simp [follow] at h
  | succ n ih =>
      simp only [follow] at h
      split at h <;> rename_i hy
      · rcases List.mem_cons.mp h with rfl | h
        · exact hy
        · exact ih h
      · simp at h

/-- Following the links of a path gives its nodes. -/
theorem Path.follow_eq {isNode : ι → Bool} {n : Nat} (h : Path next prev a l b)
    (hl : ∀ y ∈ l, isNode y = true) (hb : isNode b = false) (hn : l.length ≤ n) :
    follow next isNode n (next a) = l := by
  induction l generalizing a n with
  | nil =>
      cases n with
      | zero => rfl
      | succ n => simp [follow, h.1, hb]
  | cons x l ih =>
      cases n with
      | zero => simp at hn
      | succ n =>
          have hrest := ih h.2 (fun y hy => hl y (List.mem_cons_of_mem x hy))
            (by simpa using hn)
          simp [follow, h.1.1, hl x (by simp), hrest]

end Foundations
end Xinu
