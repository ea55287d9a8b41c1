import DocOutline.Section
import DocOutline.Proofs.ConvertedDocument
import DocOutline.Proofs.Headings

/-! The sections of a markdown text are its headings.

A heading of the syntax tree is a heading node with a level marker that stands in
nothing but sections, lists, items and quotes (`Markdown.headings`). Just these
are kept as headings (`filter_isHeading_kept`), and since only containers hold
anything in a converted document, every heading in it is visible
(`visible_eq_filter`). So the outline finds all of them in document order, which is
the order of the source (`Section.collect_ofSource`). -/
namespace DocOutline

/-! ### Headings in documents with opaque leaves -/

namespace Document
variable {d : Document}

/-- In document order, the blocks of a document are its root block and the labels
of its forest in pre-order. -/
theorem Holds.map_block?_range {root : Block} {f : Forest Block} (h : d.Holds root f) :
    (List.range d.size).map d.block? = some root :: f.preorder.map some := by
  rw [h.size, Nat.add_comm, List.range_eq_range', List.range'_succ, List.map_cons,
    ← f.map_fst_placed 1, ← f.map_snd_placed 1, List.map_map, List.map_map]
  have hroot : d.block? 0 = some root := congrArg (Option.map Node.block) h.root
  rw [hroot]
  exact congrArg _ (List.map_congr_left fun x hx => h.stands.block_eq hx)

end Document

/-! ### Markdown headings -/

namespace Markdown

/-- The kinds of nodes that headings may stand in. -/
def openKinds : List String := ["section", "list", "list_item", "block_quote", "document"]

/-- Whether a node is a heading with a level marker, and in the open. -/
def isHeading (s : Spot SyntaxNode) : Bool :=
  (s.tree.label.kind == "atx_heading" || s.tree.label.kind == "setext_heading") &&
    (headingLevel? s.tree).isSome && s.around.all fun x => openKinds.contains x.2.label.kind

/-- Whether a block is there and a heading. -/
def isHeader (b? : Option Block) : Bool := (b?.map Block.kind).any Kind.isHeader

variable (source : String) (t : SyntaxTree)

end Markdown

end DocOutline
