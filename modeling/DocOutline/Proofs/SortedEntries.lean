import Mathlib
import DocOutline.Proofs.SortedFilter

/-! Sorting entries rearranges siblings, and nothing else.

A rule for siblings arranges a forest if the trees of the forest, and below every label
again, stand as the rule puts them (`Forest.ArrangedAs`). A rule that leaves no choice
leaves none for the forest (`Forest.ArrangedAs.unique`). Sorting puts the trees in order
and then sorts below each (`Forest.sort_eq`), which is what the rule for entries asks
for: the same siblings, by lower-case title, those of one title in the order they had
(`Entries.arrangedAs_iff_eq_sortAlphabetically`). -/
namespace DocOutline

namespace Branch
variable {α : Type*}

/-- The tree with what is below its label in sorted order. -/
def sorted (le : α → α → Bool) (b : Branch α) : Branch α := ⟨b.label, b.below.sort le⟩

end Branch

namespace Forest
variable {α : Type*} {le : α → α → Bool} {R : List (Branch α) → List (Branch α) → Prop}

/-- Whether the forest is made of the trees `bs`, one after the other, each with the
siblings below its label put as `R` puts them, and so on below these. -/
inductive Arranged (R : List (Branch α) → List (Branch α) → Prop) :
    List (Branch α) → Forest α → Prop
  | nil : Arranged R [] nil
  | cons {b : Branch α} {order bs : List (Branch α)} {below after : Forest α}
      (horder : R b.below.branches order) (hbelow : Arranged R order below)
      (hafter : Arranged R bs after) : Arranged R (b :: bs) (cons b.label below after)

/-- Whether `g` is `f` with the siblings put as `R` puts them, at every depth. -/
def ArrangedAs (R : List (Branch α) → List (Branch α) → Prop) (f g : Forest α) : Prop :=
  ∃ order, R f.branches order ∧ Arranged R order g

theorem Arranged.unique (hR : Relator.RightUnique R) {bs : List (Branch α)} {f g : Forest α}
    (hf : Arranged R bs f) (hg : Arranged R bs g) : f = g := by
  induction hf generalizing g with
  | nil =>
    cases hg
    rfl
  | cons horder _ _ ihb iha =>
    cases hg with
    | cons horder' hbelow' hafter' =>
      obtain rfl := hR horder horder'
      rw [ihb hbelow', iha hafter']

/-- A rule that puts siblings in one way only arranges a forest in one way only. -/
theorem ArrangedAs.unique (hR : Relator.RightUnique R) {f g g' : Forest α}
    (hg : ArrangedAs R f g) (hg' : ArrangedAs R f g') : g = g' := by
  obtain ⟨order, horder, hg⟩ := hg
  obtain ⟨order', horder', hg'⟩ := hg'
  obtain rfl := hR horder horder'
  exact hg.unique hR hg'

/-- What goes from the forests below the labels to the whole holds of all forests. -/
theorem induction_below {P : Forest α → Prop}
    (h : ∀ f : Forest α, (∀ b ∈ f.branches, P b.below) → P f) (f : Forest α) : P f := by
  have hbranches : ∀ b ∈ f.branches, P b.below := by
    induction f with
    | nil => simp [branches]
    | cons a below after ihb iha =>
      rw [branches, List.forall_mem_cons]
      exact ⟨h below ihb, iha⟩
  exact h f hbranches

/-- Sorting puts the trees in order and sorts below each. -/
theorem sort_eq (f : Forest α) :
    f.sort le = ofBranches
      ((f.branches.mergeSort fun b c => le b.label c.label).map (Branch.sorted le)) := by
  have hbelow : f.sortedBelow le = f.branches.map (Branch.sorted le) := by
    induction f with
    | nil => rfl
    | cons a below after _ iha =>
      rw [sortedBelow_cons, branches, List.map_cons, ← iha]
      rfl
  have hmap : (f.branches.mergeSort fun b c => le b.label c.label).map (Branch.sorted le) =
      (f.branches.map (Branch.sorted le)).mergeSort fun b c => le b.label c.label :=
    List.map_mergeSort fun _ _ _ _ => rfl
  rw [sort, hbelow, hmap]

/-- A rule that asks for no more than sorting does arranges a forest as sorting does. -/
theorem arrangedAs_sort
    (hR : ∀ bs : List (Branch α), R bs (bs.mergeSort fun b c => le b.label c.label))
    (f : Forest α) : ArrangedAs R f (f.sort le) := by
  induction f using induction_below with
  | h f ih =>
    refine ⟨_, hR f.branches, ?_⟩
    have hbelow : ∀ b ∈ f.branches.mergeSort (fun b c => le b.label c.label),
        ArrangedAs R b.below (b.below.sort le) := by
      intro b hb
      exact ih b ((List.mergeSort_perm _ _).subset hb)
    rw [sort_eq]
    generalize f.branches.mergeSort (fun b c => le b.label c.label) = order at hbelow
    induction order with
    | nil => exact .nil
    | cons b order iho =>
      rw [List.forall_mem_cons] at hbelow
      obtain ⟨⟨_, horder, harranged⟩, hafter⟩ := hbelow
      exact .cons horder harranged (iho hafter)

section Order
variable (htrans : ∀ a b c : α, le a b = true → le b c = true → le a c = true)
  (htotal : ∀ a b : α, (le a b || le b a) = true)
include htrans htotal

/-- What is sorted stays as it is. -/
theorem sort_sort (f : Forest α) : (f.sort le).sort le = f.sort le := by
  induction f using induction_below with
  | h f ih =>
    have hsorted : ((f.branches.mergeSort fun b c => le b.label c.label).map
        (Branch.sorted le)).Pairwise fun b c => le b.label c.label = true := by
      rw [List.pairwise_map]
      exact List.pairwise_mergeSort (fun a b c => htrans a.label b.label c.label)
        (fun a b => htotal a.label b.label) _
    rw [sort_eq f, sort_eq, branches_ofBranches, List.mergeSort_of_pairwise hsorted, List.map_map]
    congr 1
    apply List.map_congr_left
    intro b hb
    have hbelow := ih b ((List.mergeSort_perm _ _).subset hb)
    rw [Function.comp_apply, Branch.sorted, Branch.sorted, hbelow]

end Order

end Forest

theorem Heading.tied_iff_sortKey_eq {a b : Heading} :
    StableSort.tied Heading.sortsBefore a b = true ↔ b.sortKey = a.sortKey := by
  rw [StableSort.tied_iff]
  constructor
  · rintro ⟨hab, hba⟩
    exact Text.eq_of_sortsBefore Char.toNat_inj.1 hba hab
  · intro h
    rw [Heading.sortsBefore, Heading.sortsBefore, h]
    exact ⟨Text.sortsBefore_refl _, Text.sortsBefore_refl _⟩

namespace Entries

/-- The rule for siblings in alphabetical order: the same trees, none with a lower-case
title that comes after that of a later one, and those with one lower-case title in the
order they had. -/
structure Alphabetical (bs order : List (Branch Heading)) : Prop where
  perm : order.Perm bs
  ordered : order.Pairwise fun b c =>
    Text.lowercase b.label.title.toList = Text.lowercase c.label.title.toList ∨
      List.Lex (fun x y => x.toNat < y.toNat)
        (Text.lowercase b.label.title.toList) (Text.lowercase c.label.title.toList)
  stable : ∀ key : List Char,
    order.filter (fun b => Text.lowercase b.label.title.toList = key) =
      bs.filter (fun b => Text.lowercase b.label.title.toList = key)

/-- Whether `b` may stand before `c` among its siblings. -/
def branchSortsBefore (b c : Branch Heading) : Bool := b.label.sortsBefore c.label

theorem branchSortsBefore_iff {b c : Branch Heading} : branchSortsBefore b c = true ↔
    Text.lowercase b.label.title.toList = Text.lowercase c.label.title.toList ∨
      List.Lex (fun x y => x.toNat < y.toNat)
        (Text.lowercase b.label.title.toList) (Text.lowercase c.label.title.toList) :=
  Text.sortsBefore_iff_lex Char.toNat_inj.1

theorem filter_tied_eq (a : Branch Heading) (bs : List (Branch Heading)) :
    bs.filter (StableSort.tied branchSortsBefore a) =
      bs.filter fun b =>
        Text.lowercase b.label.title.toList = Text.lowercase a.label.title.toList := by
  apply List.filter_congr
  intro b _
  rw [Bool.eq_iff_iff, decide_eq_true_eq]
  exact Heading.tied_iff_sortKey_eq

theorem branchSortsBefore_total (b c : Branch Heading) :
    (branchSortsBefore b c || branchSortsBefore c b) = true :=
  Heading.sortsBefore_total _ _

theorem branchSortsBefore_trans (b c d : Branch Heading) (hbc : branchSortsBefore b c = true)
    (hcd : branchSortsBefore c d = true) : branchSortsBefore b d = true :=
  Heading.sortsBefore_trans hbc hcd

theorem rightUnique_alphabetical : Relator.RightUnique Alphabetical := by
  intro bs order order' h h'
  have hpairwise : ∀ {l : List (Branch Heading)}, Alphabetical bs l →
      l.Pairwise fun b c => branchSortsBefore b c = true := by
    intro l hl
    exact hl.ordered.imp branchSortsBefore_iff.2
  apply StableSort.eq_of_filter_tied branchSortsBefore_total (hpairwise h) (hpairwise h')
  intro a
  rw [filter_tied_eq, filter_tied_eq, h.stable, h'.stable]

theorem alphabetical_mergeSort (bs : List (Branch Heading)) :
    Alphabetical bs (bs.mergeSort branchSortsBefore) where
  perm := List.mergeSort_perm _ _
  ordered := (List.pairwise_mergeSort branchSortsBefore_trans branchSortsBefore_total bs).imp
    branchSortsBefore_iff.1
  stable := by
    intro key
    rw [StableSort.filter_mergeSort branchSortsBefore_trans branchSortsBefore_total]
    -- The trees with one title are sorted as they stand.
    apply List.mergeSort_of_pairwise
    apply List.pairwise_of_forall_mem_list
    intro b hb c hc
    have hb := of_decide_eq_true (List.mem_filter.1 hb).2
    have hc := of_decide_eq_true (List.mem_filter.1 hc).2
    exact branchSortsBefore_iff.2 (.inl (hb.trans hc.symm))

/-- Sorting gives the one forest with the siblings in alphabetical order at every depth,
and changes nothing in a forest that is sorted. -/
theorem arrangedAs_iff_eq_sortAlphabetically (e : Entries) :
    (∀ s : Entries, Forest.ArrangedAs Alphabetical e s ↔ s = e.sortAlphabetically) ∧
      e.sortAlphabetically.sortAlphabetically = e.sortAlphabetically := by
  have hsorted : Forest.ArrangedAs Alphabetical e e.sortAlphabetically :=
    Forest.arrangedAs_sort alphabetical_mergeSort e
  refine ⟨fun s => ⟨fun hs => ?_, ?_⟩, ?_⟩
  · exact hs.unique rightUnique_alphabetical hsorted
  · rintro rfl
    exact hsorted
  · exact Forest.sort_sort @Heading.sortsBefore_trans Heading.sortsBefore_total e

/-- Entries of which two on top and two below the first differ in case only. -/
def mixedCase : Entries :=
  .cons ⟨"b", 1, 1⟩ (.grow (fun _ => .nil) [⟨"d", 2, 2⟩, ⟨"C", 2, 3⟩, ⟨"D", 2, 4⟩])
    (.grow (fun _ => .nil) [⟨"A", 1, 5⟩, ⟨"B", 1, 6⟩])

/-- The same entries with `below` for those below the first, which `A` comes before. -/
def mixedCaseOver (below : List Heading) : Entries :=
  .cons ⟨"A", 1, 5⟩ .nil
    (.cons ⟨"b", 1, 1⟩ (.grow (fun _ => .nil) below) (.cons ⟨"B", 1, 6⟩ .nil .nil))

theorem arrangedAs_mixedCase :
    Forest.ArrangedAs Alphabetical mixedCase
        (mixedCaseOver [⟨"C", 2, 3⟩, ⟨"d", 2, 2⟩, ⟨"D", 2, 4⟩]) ∧
      ¬ Forest.ArrangedAs Alphabetical mixedCase
        (mixedCaseOver [⟨"C", 2, 3⟩, ⟨"D", 2, 4⟩, ⟨"d", 2, 2⟩]) := by
  have hsort : mixedCaseOver [⟨"C", 2, 3⟩, ⟨"d", 2, 2⟩, ⟨"D", 2, 4⟩] =
      mixedCase.sortAlphabetically := by cbv
  have harranged := (arrangedAs_iff_eq_sortAlphabetically mixedCase).1
  refine ⟨(harranged _).2 hsort, fun hswapped => ?_⟩
  have heq := hsort.trans ((harranged _).1 hswapped).symm
  exact absurd heq (by decide)

end Entries

end DocOutline
