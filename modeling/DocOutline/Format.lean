import DocOutline.SyntaxTree
import DocOutline.Document.Builder

/-! Document formats: how the nodes of a grammar become blocks.

A format gives every node of a syntax tree a shape: keep it as a block of some
kind, put its children in its place, or leave it out with everything below it. A
kept node holds what is below it only if its kind is transparent. The blocks come
in document order, as the steps of a build (`Format.steps`), and the opening and
closing steps are balanced. -/
namespace DocOutline

inductive Shape where
  /-- The node stands in the document with this kind. -/
  | keep (kind : Kind)
  /-- Its children stand in its place. -/
  | flatten
  /-- Neither it nor anything below it is in the document. -/
  | ignore
  deriving DecidableEq, Repr

structure Format where
  /-- The usual file suffix, without the dot. -/
  fileExtension : String
  shape : SyntaxTree → Shape
  /-- The heading text without markup, for nodes kept as headings. -/
  title : SyntaxTree → String → String

namespace Format

/-- The block that a node is kept as. -/
def block (fmt : Format) (source : String) (kind : Kind) (t : SyntaxTree) : Block where
  kind := kind
  title := if kind.isHeader then fmt.title t source else ""
  line := t.label.row + 1
  column := t.label.column
  start := t.label.startByte
  stop := t.label.endByte

/-- The steps that build the blocks of some sibling nodes. -/
def steps (fmt : Format) (source : String) : Forest SyntaxNode → List Step
  | .nil => []
  | .cons label below after =>
    let here :=
      match fmt.shape ⟨label, below⟩ with
      | .ignore => []
      | .flatten => steps fmt source below
      | .keep kind =>
        let block := fmt.block source kind ⟨label, below⟩
        if kind.isTransparent then .opening block :: (steps fmt source below ++ [.close])
        else [.leaf block]
    here ++ steps fmt source after

/-- The block of the document itself, whatever the format makes of the root node. -/
def rootBlock (t : SyntaxTree) : Block where
  kind := .document
  line := 1
  start := t.label.startByte
  stop := t.label.endByte

/-- The document of a parsed source. -/
def document (fmt : Format) (source : String) (t : SyntaxTree) : Document :=
  .build (rootBlock t) (fmt.steps source t.below)

end Format

end DocOutline
