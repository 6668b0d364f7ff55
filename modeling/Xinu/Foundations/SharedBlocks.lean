import Mathlib.Data.Finset.Card
import Mathlib.Data.Multiset.Basic

/-!
# Blocks that are shared out

Each block of an area is free or belongs to one of the owners.  The free blocks and those of
an owner are lists, in the order in which they are linked.

Main results:

- Theorem `SharedOut.exchange`: an owner takes free blocks or gives blocks back.
- Theorem `SharedOut.length_eq`: no block is lost.
- Theorems `SharedOut.owner_eq` and `SharedOut.not_free`: no block is in two lists.
-/

namespace Xinu
namespace Foundations

variable {α : Type}

/-- The blocks of the area, each in one place of one list. -/
def SharedOut (area : Finset α) (free : List α) (owned : List (List α)) : Prop :=
  ((free ++ owned.flatten : List α) : Multiset α) = area.val

namespace SharedOut

variable {area : Finset α} {free free' l l' : List α} {owned : List (List α)} {i j : Nat} {b : α}

theorem nodup (h : SharedOut area free owned) : (free ++ owned.flatten).Nodup := by
  rw [← Multiset.coe_nodup, h]
  exact area.nodup

theorem mem_iff (h : SharedOut area free owned) :
    b ∈ free ∨ (∃ l ∈ owned, b ∈ l) ↔ b ∈ area := by
  have hmem : b ∈ ((free ++ owned.flatten : List α) : Multiset α) ↔ b ∈ area := by
    rw [h]
    rfl
  rw [← hmem, Multiset.mem_coe, List.mem_append, List.mem_flatten]

/-- No block is lost. -/
theorem length_eq (h : SharedOut area free owned) :
    free.length + owned.flatten.length = area.card := by
  have hcard := congrArg Multiset.card h
  rwa [Multiset.coe_card, List.length_append] at hcard

/-- An owner has no more blocks than there are. -/
theorem owned_length_le (h : SharedOut area free owned) (hl : owned[i]? = some l) :
    l.length ≤ area.card := by
  have hle := (List.sublist_flatten_of_mem (List.mem_of_getElem? hl)).length_le
  have hsum := h.length_eq
  omega

theorem mem_area (h : SharedOut area free owned) (hl : owned[i]? = some l) (hb : b ∈ l) :
    b ∈ area :=
  h.mem_iff.mp (.inr ⟨l, List.mem_of_getElem? hl, hb⟩)

theorem free_mem_area (h : SharedOut area free owned) (hb : b ∈ free) : b ∈ area :=
  h.mem_iff.mp (.inl hb)

theorem nodup_owned (h : SharedOut area free owned) (hl : owned[i]? = some l) : l.Nodup := by
  have hall := (List.nodup_append.mp h.nodup).2.1
  exact (List.nodup_flatten.mp hall).1 l (List.mem_of_getElem? hl)

/-- A block of an owner is not free. -/
theorem not_free (h : SharedOut area free owned) (hl : owned[i]? = some l) (hb : b ∈ l) :
    b ∉ free := by
  intro hfree
  apply (List.nodup_append.mp h.nodup).2.2 b hfree b _ rfl
  exact List.mem_flatten.mpr ⟨l, List.mem_of_getElem? hl, hb⟩

/-- A block has one owner. -/
theorem owner_eq (h : SharedOut area free owned) (hi : owned[i]? = some l)
    (hj : owned[j]? = some l') (hb : b ∈ l) (hb' : b ∈ l') : i = j := by
  have hall := (List.nodup_append.mp h.nodup).2.1
  have hpair := List.pairwise_iff_getElem.mp (List.nodup_flatten.mp hall).2
  obtain ⟨hilt, rfl⟩ := List.getElem?_eq_some_iff.mp hi
  obtain ⟨hjlt, rfl⟩ := List.getElem?_eq_some_iff.mp hj
  rcases Nat.lt_trichotomy i j with hlt | heq | hgt
  · exact absurd hb' (hpair i j hilt hjlt hlt hb)
  · exact heq
  · exact absurd hb (hpair j i hjlt hilt hgt hb')

/-- The blocks of one owner in exchange for others, to which they are added. -/
theorem flatten_set (hl : owned[i]? = some l) (l' : List α) :
    ((owned.set i l').flatten ++ l).Perm (owned.flatten ++ l') := by
  induction owned generalizing i with
  | nil => cases hl
  | cons m owned ih =>
      cases i with
      | zero =>
          obtain rfl : m = l := Option.some.inj hl
          rw [List.set_cons_zero, List.flatten_cons, List.flatten_cons, List.append_assoc]
          have hswap : (owned.flatten ++ m ++ l').Perm (m ++ owned.flatten ++ l') :=
            List.perm_append_comm.append_right l'
          exact List.perm_append_comm.trans hswap
      | succ i =>
          rw [List.set_cons_succ, List.flatten_cons, List.flatten_cons, List.append_assoc,
            List.append_assoc]
          exact (ih hl).append_left m

/-- An owner takes free blocks or gives blocks back. -/
theorem exchange (h : SharedOut area free owned) (hl : owned[i]? = some l)
    (hperm : (free' ++ l').Perm (free ++ l)) : SharedOut area free' (owned.set i l') := by
  unfold SharedOut at h ⊢
  rw [← h, Multiset.coe_eq_coe]
  have hset := flatten_set hl l'
  have hsum : (free' ++ (owned.set i l').flatten ++ l).Perm (free ++ owned.flatten ++ l) := by
    rw [List.append_assoc, List.append_assoc]
    have hmoved : (free' ++ (owned.flatten ++ l')).Perm (owned.flatten ++ (free' ++ l')) :=
      List.perm_append_comm_assoc _ _ _
    have hback : (owned.flatten ++ (free ++ l)).Perm (free ++ (owned.flatten ++ l)) :=
      List.perm_append_comm_assoc _ _ _
    exact (hset.append_left free').trans (hmoved.trans ((hperm.append_left _).trans hback))
  exact (List.perm_append_right_iff l).mp hsum

/-- The owners behind the first ones have no blocks. -/
theorem take (h : SharedOut area free owned) {m : Nat} (hempty : ∀ l ∈ owned.drop m, l = []) :
    SharedOut area free (owned.take m) := by
  have hflatten : (owned.take m).flatten = owned.flatten := by
    have hall := congrArg List.flatten (List.take_append_drop m owned)
    rwa [List.flatten_append, List.flatten_eq_nil_iff.mpr hempty, List.append_nil] at hall
  unfold SharedOut at h ⊢
  rw [hflatten]
  exact h

/-- A new owner has no blocks. -/
theorem snoc (h : SharedOut area free owned) : SharedOut area free (owned ++ [[]]) := by
  unfold SharedOut at h ⊢
  rw [← h, List.flatten_append]
  simp

/-- All blocks are free. -/
theorem all_free (hnodup : free.Nodup) (hmem : ∀ b, b ∈ free ↔ b ∈ area) :
    SharedOut area free [] := by
  unfold SharedOut
  rw [List.flatten_nil, List.append_nil]
  exact (Multiset.Nodup.ext (Multiset.coe_nodup.mpr hnodup) area.nodup).mpr hmem

end SharedOut
end Foundations
end Xinu
