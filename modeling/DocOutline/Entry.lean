import DocOutline.Outline

/-! Entries: an outline detached from its document, ready to be shown.

A heading holds what is shown of an outline item, and the entries of a document
are the forest of its headings, shaped as the outline (`size_entries`). -/
namespace DocOutline

structure Heading where
  title : String
  level : UInt8
  line : Nat
  deriving DecidableEq, Repr, Inhabited

/-- The text shown for a heading without one. -/
def untitled : String := "<untitled>"

namespace Heading

def ofBlock (b : Block) : Heading := ⟨b.title, b.level, b.line⟩

/-- The title, or a stand-in if it is empty. -/
def presentableText (h : Heading) : String := if h.title.isEmpty then untitled else h.title

/-- Where the heading stands in its file. -/
def location (h : Heading) : String := String.ofList (':' :: Nat.toDigits 10 h.line)

end Heading

/-- Headings with the headings shown beneath each. -/
abbrev Entries := Forest Heading

/-- The entries of an outline of a document. -/
def Outline.entries (outline : Outline) (d : Document) : Entries :=
  outline.map fun id => Heading.ofBlock ((d.block? id).getD default)

/-- The entries of a whole document. -/
def Document.entries (d : Document) (o : OutlineOptions) : Entries := (d.outline o).entries d

@[simp] theorem preorder_entries (outline : Outline) (d : Document) :
    (outline.entries d).preorder =
      outline.preorder.map fun id => Heading.ofBlock ((d.block? id).getD default) := by
  simp [Outline.entries]

theorem size_entries (outline : Outline) (d : Document) :
    (outline.entries d).size = outline.size := by
  rw [← Forest.length_preorder, preorder_entries, List.length_map, Forest.length_preorder]

end DocOutline
