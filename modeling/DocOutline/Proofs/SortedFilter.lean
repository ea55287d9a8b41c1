import DocOutline.Entry.Filter
import DocOutline.Entry.Order
import DocOutline.Proofs.StableSort

/-! Sorting entries and filtering them, in either order.

What is kept of a tree hangs on the labels in it and not on their order, so that of
sorted siblings the same ones are kept, each with the sorted form of what was kept
below it (`Forest.keep_sort`). Since sorting is stable, this holds for entries with one
title as well (`Entries.filter_sortAlphabetically`). -/
namespace DocOutline

namespace Branch
variable {α : Type*}

/-- Whether the label or something below it is accepted. -/
def survives (p : α → Bool) (b : Branch α) : Bool := p b.label || !(b.below.keep p).isEmpty

/-- The label with what is kept below it. -/
def kept (p : α → Bool) (b : Branch α) : Branch α := ⟨b.label, b.below.keep p⟩

end Branch

namespace Forest
variable {α : Type*} {le : α → α → Bool} {p : α → Bool}

theorem branches_keep (p : α → Bool) (f : Forest α) :
    (f.keep p).branches = (f.branches.filter (Branch.survives p)).map (Branch.kept p) := by
  induction f with
  | nil => rfl
  | cons a below after _ iha =>
    have hsurvives : Branch.survives p ⟨a, below⟩ = (p a || !(below.keep p).isEmpty) := rfl
    rw [keep, branches, List.filter_cons, hsurvives]
    split
    · rw [branches, iha, List.map_cons, Branch.kept]
    · exact iha

theorem sortedBelow_cons (a : α) (below after : Forest α) :
    (cons a below after).sortedBelow le = ⟨a, below.sort le⟩ :: after.sortedBelow le := rfl

theorem branches_sort (f : Forest α) :
    (f.sort le).branches = (f.sortedBelow le).mergeSort fun b c => le b.label c.label :=
  branches_ofBranches _

@[simp] theorem isEmpty_sort (f : Forest α) : (f.sort le).isEmpty = f.isEmpty := by
  have hbranches : ∀ g : Forest α, g.isEmpty = g.branches.isEmpty := by
    intro g
    cases g <;> rfl
  have hbelow : (f.sortedBelow le).isEmpty = f.isEmpty := by
    cases f <;> rfl
  rw [hbranches, branches_sort, (List.mergeSort_perm _ _).isEmpty_eq, hbelow]

section Order
variable (htrans : ∀ a b c : α, le a b = true → le b c = true → le a c = true)
  (htotal : ∀ a b : α, (le a b || le b a) = true)
include htrans htotal

/-- Of sorted trees those are kept that are kept of the trees before they were sorted. -/
theorem map_kept_mergeSort (bs : List (Branch α)) :
    ((bs.mergeSort fun b c => le b.label c.label).filter (Branch.survives p)).map (Branch.kept p) =
      ((bs.filter (Branch.survives p)).map (Branch.kept p)).mergeSort
        fun b c => le b.label c.label := by
  have hfilter : (bs.mergeSort fun b c => le b.label c.label).filter (Branch.survives p) =
      (bs.filter (Branch.survives p)).mergeSort fun b c => le b.label c.label :=
    StableSort.filter_mergeSort (fun a b c => htrans a.label b.label c.label)
      (fun a b => htotal a.label b.label) _ bs
  rw [hfilter]
  exact List.map_mergeSort fun _ _ _ _ => rfl

/-- If keeping goes with sorting below the roots, it goes with sorting. -/
theorem keep_sort_of_sortedBelow {f : Forest α}
    (h : (f.keep p).sortedBelow le =
      ((f.sortedBelow le).filter (Branch.survives p)).map (Branch.kept p)) :
    (f.sort le).keep p = (f.keep p).sort le := by
  calc (f.sort le).keep p
      = ofBranches ((f.sort le).keep p).branches := (ofBranches_branches _).symm
    _ = (f.keep p).sort le := by
      rw [branches_keep, branches_sort, map_kept_mergeSort htrans htotal, ← h, sort]

theorem sortedBelow_keep (f : Forest α) :
    (f.keep p).sortedBelow le =
      ((f.sortedBelow le).filter (Branch.survives p)).map (Branch.kept p) := by
  induction f with
  | nil => rfl
  | cons a below after ihb iha =>
    have hbelow := keep_sort_of_sortedBelow htrans htotal ihb
    -- Sorting what is below a label leaves it kept or dropped.
    have hsurvives : Branch.survives p ⟨a, below.sort le⟩ = (p a || !(below.keep p).isEmpty) := by
      rw [Branch.survives, hbelow, isEmpty_sort]
    rw [sortedBelow_cons, List.filter_cons, hsurvives, keep]
    split
    · rw [sortedBelow_cons, iha, List.map_cons, ← hbelow, Branch.kept]
    · exact iha

/-- Labels are kept or dropped whatever their order. -/
theorem keep_sort (f : Forest α) : (f.sort le).keep p = (f.keep p).sort le :=
  keep_sort_of_sortedBelow htrans htotal (sortedBelow_keep htrans htotal f)

end Order

end Forest

/-- Filtering sorted entries gives the same as sorting filtered ones. -/
theorem Entries.filter_sortAlphabetically (keyword : String) (e : Entries) :
    Entries.filter keyword e.sortAlphabetically =
      (Entries.filter keyword e).sortAlphabetically := by
  rw [Entries.filter, Entries.filter]
  split
  · rfl
  · exact Forest.keep_sort @Heading.sortsBefore_trans Heading.sortsBefore_total e

end DocOutline
