import DocOutline.Section
import DocOutline.Proofs.Headings
import DocOutline.Proofs.Indices

/-! The indices of sections are an outline.

Sections come in the pre-order of their outline, each with the fields of its
heading. The parent indices and the children indices say the same, what descends
from a section are the sections right after it, and the outline can be built again
from the parents alone and from the children alone. `Encodes` puts this together,
and the sections of every document have it (`encodes_collect`). -/
namespace DocOutline

namespace Section

/-- One section stands below another one, directly or with others between. -/
def Descends (sections : List Section) : Nat → Nat → Prop :=
  Relation.TransGen fun i parent => ∃ s, sections[i]? = some s ∧ s.parentIndex? = some parent

/-- The sections are an outline of a document, as a flat list. -/
structure Encodes (sections : List Section) (d : Document) (filePath : String)
    (outline : Outline) : Prop where
  /-- There is a section for each heading, in pre-order and with what the heading's
  block says. -/
  contents : sections.map (fun s =>
      some (s.title, some s.level, s.line, s.column, s.byteStart, s.byteEnd)) =
    outline.preorder.map fun id => (d.block? id).map fun b =>
      (b.title, b.kind.level?, b.line, b.column, b.start, b.stop)
  filePath_eq : ∀ s ∈ sections, s.filePath = filePath
  parent_lt : ∀ (i : Nat) (s : Section) (p : Nat), sections[i]? = some s →
    s.parentIndex? = some p → p < i
  mem_children_iff : ∀ (i : Nat) (s : Section) (j : Nat) (t : Section),
    sections[i]? = some s → sections[j]? = some t →
      (j ∈ s.childrenIndices ↔ t.parentIndex? = some i)
  children_sorted : ∀ s ∈ sections, s.childrenIndices.Pairwise (· < ·)
  children_lt : ∀ s ∈ sections, ∀ j ∈ s.childrenIndices, j < sections.length
  /-- What descends from a section are the sections right after it, up to the last of them. -/
  descends_iff : ∀ i < sections.length, ∃ count, i + count < sections.length ∧
    ∀ j, Descends sections j i ↔ i < j ∧ j ≤ i + count
  /-- The parents alone give the outline. -/
  ofParents : (Forest.ofParents (sections.map parentIndex?) sections.length none).map
    (fun i => outline.preorder[i]?) = outline.map some
  /-- The children alone give the outline; its roots are in no list of children. -/
  ofChildren : (Forest.ofChildren (sections.map childrenIndices) sections.length
    (Forest.orphans (sections.map childrenIndices))).map (fun i => outline.preorder[i]?) =
      outline.map some

section Collect
variable (d : Document) (filePath : String) (o : OutlineOptions)

theorem contents_collect : (collect d filePath o).map (fun s =>
      some (s.title, some s.level, s.line, s.column, s.byteStart, s.byteEnd)) =
    (d.outline o).preorder.map fun id => (d.block? id).map fun b =>
      (b.title, b.kind.level?, b.line, b.column, b.start, b.stop) := by
  rw [← Forest.map_label_numbered _ 0 none, collect_eq, List.map_map, List.map_map]
  apply List.map_congr_left
  intro row hrow
  have hid : row.label ∈ (d.outline o).preorder := by
    rw [← Forest.map_label_numbered _ 0 none]
    exact List.mem_map_of_mem hrow
  have hheading := Document.isHeading_of_mem_outlineBelow hid
  rw [Document.isHeading_eq_isSome_level?, Option.isSome_iff_exists] at hheading
  obtain ⟨level, hl⟩ := hheading
  obtain ⟨kind, hkind, hlevel⟩ := Option.bind_eq_some_iff.1 hl
  obtain ⟨b, hb, rfl⟩ := Option.map_eq_some_iff.1 hkind
  simp only [Function.comp_apply, ofRow, hb, Option.getD_some, Option.map_some, Block.level, hlevel]

theorem getElem?_parents {i : Nat} {s : Section} (h : (collect d filePath o)[i]? = some s) :
    (d.outline o).parents[i]? = some s.parentIndex? := by
  rw [Forest.parents, ← map_parentIndex?_collect d filePath, List.getElem?_map, h, Option.map_some]

theorem childrenIndices_eq {i : Nat} {s : Section} (h : (collect d filePath o)[i]? = some s) :
    s.childrenIndices = Forest.placesBelow (d.outline o).parents (some i) := by
  have hi : i < (d.outline o).size := by
    rw [← length_collect d filePath]
    exact (List.getElem?_eq_some_iff.1 h).1
  have hchildren := (d.outline o).getElem?_childLists hi
  rw [Forest.childLists, ← map_childrenIndices_collect d filePath, List.getElem?_map, h,
    Option.map_some, Option.some.injEq] at hchildren
  exact hchildren

theorem descends_iff_edges {i j : Nat} : Descends (collect d filePath o) j i ↔
    Forest.Descends (((d.outline o).indices 0).edges none) j i := by
  have hstep : ∀ j parent : Nat,
      (∃ s, (collect d filePath o)[j]? = some s ∧ s.parentIndex? = some parent) ↔
        (some parent, j) ∈ ((d.outline o).indices 0).edges none := by
    intro j parent
    rw [Forest.mem_edges_iff, Forest.parents, ← map_parentIndex?_collect d filePath,
      List.getElem?_map, Option.map_eq_some_iff]
  simp only [Descends, Forest.Descends, hstep]

/-- The sections of a document are its outline. -/
theorem encodes_collect : Encodes (collect d filePath o) d filePath (d.outline o) where
  contents := contents_collect d filePath o
  filePath_eq s hs := by
    rw [collect_eq] at hs
    obtain ⟨row, -, rfl⟩ := List.mem_map.1 hs
    rfl
  parent_lt i s p hs hp := by
    have hparent := getElem?_parents d filePath o hs
    rw [hp] at hparent
    exact (d.outline o).parent_lt hparent
  mem_children_iff i s j t hs ht := by
    rw [childrenIndices_eq d filePath o hs, Forest.mem_placesBelow,
      getElem?_parents d filePath o ht, Option.some.injEq]
  children_sorted s hs := by
    obtain ⟨i, hi⟩ := List.mem_iff_getElem?.1 hs
    rw [childrenIndices_eq d filePath o hi]
    exact List.pairwise_lt_range.filter _
  children_lt s hs j hj := by
    obtain ⟨i, hi⟩ := List.mem_iff_getElem?.1 hs
    rw [childrenIndices_eq d filePath o hi, Forest.mem_placesBelow] at hj
    rw [length_collect, ← Forest.length_parents]
    exact (List.getElem?_eq_some_iff.1 hj).1
  descends_iff i hi := by
    rw [length_collect] at hi ⊢
    simp only [descends_iff_edges]
    exact (d.outline o).descends_indices hi
  ofParents := by
    have hparents : (collect d filePath o).map parentIndex? = (d.outline o).parents :=
      map_parentIndex?_collect d filePath o
    rw [hparents, length_collect, Forest.ofParents_parents, Forest.map_getElem?_indices]
  ofChildren := by
    have hchildren : (collect d filePath o).map childrenIndices = (d.outline o).childLists :=
      map_childrenIndices_collect d filePath o
    rw [hchildren, length_collect, Forest.ofChildren_childLists, Forest.map_getElem?_indices]

end Collect

end Section

end DocOutline
