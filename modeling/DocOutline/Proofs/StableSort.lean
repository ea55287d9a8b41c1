import Mathlib.Data.List.Basic
import Mathlib.Data.List.Pairwise

/-! Sorting that leaves ties in their order.

A total order may put different members on one place; they are tied. Sorting leaves
the members of a place in their order (`filter_tied_mergeSort`), and a sorted list is
known by the members of every place (`eq_of_filter_tied`). So dropping members goes
with sorting (`filter_mergeSort`), although it takes only a part of a place away. -/
namespace DocOutline.StableSort

variable {α : Type*} {le : α → α → Bool}

/-- Whether two members stand on one place. -/
def tied (le : α → α → Bool) (a b : α) : Bool := le a b && le b a

theorem tied_iff {a b : α} : tied le a b = true ↔ le a b = true ∧ le b a = true := by
  simp [tied]

section Order
variable (htrans : ∀ a b c : α, le a b = true → le b c = true → le a c = true)
  (htotal : ∀ a b : α, (le a b || le b a) = true)

include htotal in
theorem tied_self (a : α) : tied le a a = true := by
  simpa [tied] using htotal a a

include htrans in
theorem le_of_tied {a b c : α} (hab : tied le a b = true) (hac : tied le a c = true) :
    le b c = true :=
  htrans b a c (tied_iff.1 hab).2 (tied_iff.1 hac).1

include htotal in
theorem subset_of_filter_tied {l m : List α}
    (h : ∀ a, l.filter (tied le a) = m.filter (tied le a)) : l ⊆ m := by
  intro x hx
  have hx' : x ∈ l.filter (tied le x) := List.mem_filter.2 ⟨hx, tied_self htotal x⟩
  rw [h x] at hx'
  exact (List.mem_filter.1 hx').1

include htotal in
theorem le_of_mem_cons {a b : α} {l : List α} (ha : ∀ c ∈ l, le a c = true) (hb : b ∈ a :: l) :
    le a b = true := by
  rcases List.mem_cons.1 hb with rfl | hb
  · exact (tied_iff.1 (tied_self htotal b)).1
  · exact ha b hb

include htotal in
/-- Sorted lists with the same members on every place, in one order, are equal. -/
theorem eq_of_filter_tied {l m : List α} (hl : l.Pairwise fun a b => le a b = true)
    (hm : m.Pairwise fun a b => le a b = true)
    (h : ∀ a, l.filter (tied le a) = m.filter (tied le a)) : l = m := by
  induction l generalizing m with
  | nil =>
    have hsub := subset_of_filter_tied htotal fun a => (h a).symm
    exact (List.subset_nil.1 hsub).symm
  | cons a l ih =>
    cases m with
    | nil => exact List.subset_nil.1 (subset_of_filter_tied htotal h)
    | cons b m =>
      obtain ⟨hal, hl'⟩ := List.pairwise_cons.1 hl
      obtain ⟨hbm, hm'⟩ := List.pairwise_cons.1 hm
      -- Each head is in the other list, so that they stand on one place.
      have hab : le a b = true := le_of_mem_cons htotal hal
        (subset_of_filter_tied htotal (fun c => (h c).symm) List.mem_cons_self)
      have hba : le b a = true := le_of_mem_cons htotal hbm
        (subset_of_filter_tied htotal h List.mem_cons_self)
      have hhead := h a
      rw [List.filter_cons_of_pos (tied_self htotal a),
        List.filter_cons_of_pos (tied_iff.2 ⟨hab, hba⟩)] at hhead
      obtain ⟨rfl, -⟩ := List.cons.inj hhead
      congr 1
      apply ih hl' hm'
      intro c
      have hc := h c
      rw [List.filter_cons, List.filter_cons] at hc
      split at hc
      · exact (List.cons.inj hc).2
      · exact hc

include htrans htotal

/-- Sorting leaves the members of a place in their order. -/
theorem filter_tied_mergeSort (a : α) (l : List α) :
    (l.mergeSort le).filter (tied le a) = l.filter (tied le a) := by
  have hpair : (l.filter (tied le a)).Pairwise fun b c => le b c = true := by
    refine List.Pairwise.imp_of_mem ?_ (List.pairwise_of_forall fun _ _ => trivial)
    intro b c hb hc _
    exact le_of_tied htrans (List.mem_filter.1 hb).2 (List.mem_filter.1 hc).2
  have hsub := List.sublist_mergeSort htrans htotal hpair List.filter_sublist
  have hfilter := hsub.filter (tied le a)
  rw [List.filter_filter, List.filter_congr fun _ _ => Bool.and_self _] at hfilter
  have hlen := ((l.mergeSort_perm le).filter (tied le a)).length_eq
  exact (hfilter.eq_of_length hlen.symm).symm

/-- Dropping members goes with sorting. -/
theorem filter_mergeSort (p : α → Bool) (l : List α) :
    (l.mergeSort le).filter p = (l.filter p).mergeSort le := by
  have hsorted := List.pairwise_mergeSort htrans htotal
  apply eq_of_filter_tied htotal ((hsorted l).sublist List.filter_sublist) (hsorted (l.filter p))
  intro a
  calc ((l.mergeSort le).filter p).filter (tied le a)
      = ((l.mergeSort le).filter (tied le a)).filter p := List.filter_comm ..
    _ = (l.filter (tied le a)).filter p := by rw [filter_tied_mergeSort htrans htotal]
    _ = (l.filter p).filter (tied le a) := List.filter_comm ..
    _ = ((l.filter p).mergeSort le).filter (tied le a) := by
      rw [filter_tied_mergeSort htrans htotal]

end Order

end DocOutline.StableSort
