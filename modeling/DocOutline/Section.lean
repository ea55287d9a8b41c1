import DocOutline.Forest.Numbered
import DocOutline.Outline

/-! Sections: an outline as a flat list, each heading with its place in the
source file and the positions of its parent and its children in the list. -/
namespace DocOutline

structure Section where
  title : String
  level : UInt8
  line : Nat
  column : Nat
  byteStart : Nat
  byteEnd : Nat
  filePath : String
  parentIndex? : Option Nat
  childrenIndices : List Nat
  deriving DecidableEq, Repr

namespace Section

/-- The section of a numbered heading. -/
def ofRow (d : Document) (filePath : String) (row : Row NodeId) : Section :=
  let block := (d.block? row.label).getD default
  { title := block.title
    level := block.level
    line := block.line
    column := block.column
    byteStart := block.start
    byteEnd := block.stop
    filePath := filePath
    parentIndex? := row.parent?
    childrenIndices := row.children }

/-- The sections of a document, in outline pre-order. -/
def collect (d : Document) (filePath : String) (o : OutlineOptions) : List Section :=
  ((d.outline o).flatten none []).1.map (ofRow d filePath)

/-- The sections have the positions that the sizes of the trees before them make. -/
theorem collect_eq (d : Document) (filePath : String) (o : OutlineOptions) :
    collect d filePath o = ((d.outline o).numbered 0 none).map (ofRow d filePath) := by
  rw [collect, Forest.flatten_eq, List.nil_append, List.length_nil]

/-- There is one section for each heading of the outline. -/
theorem length_collect (d : Document) (filePath : String) (o : OutlineOptions) :
    (collect d filePath o).length = (d.outline o).size := by
  simp [collect_eq]

theorem map_parentIndex?_collect (d : Document) (filePath : String) (o : OutlineOptions) :
    (collect d filePath o).map Section.parentIndex? =
      ((d.outline o).numbered 0 none).map Row.parent? := by
  simp [collect_eq, ofRow, Function.comp_def]

theorem map_childrenIndices_collect (d : Document) (filePath : String) (o : OutlineOptions) :
    (collect d filePath o).map Section.childrenIndices =
      ((d.outline o).numbered 0 none).map Row.children := by
  simp [collect_eq, ofRow, Function.comp_def]

end Section

end DocOutline
