import DocOutline.Forest

/-! Syntax trees, as an external parser gives them.

A tree holds the named nodes of a grammar. Each knows its span in the source and
may name one node of its own subtree as its heading content. The parser itself is
outside this library: a `Parser` is any function from texts to trees. -/
namespace DocOutline

/-- A node of a grammar. -/
structure SyntaxNode where
  kind : String
  startByte : Nat
  endByte : Nat
  /-- The row it starts on, counted from zero. -/
  row : Nat
  /-- The byte column it starts at, counted from zero. -/
  column : Nat
  /-- The heading content, as a position in the pre-order of this node's subtree,
  in which the node itself is at zero. -/
  content? : Option Nat := none
  deriving DecidableEq, Repr, Inhabited

abbrev SyntaxTree := Branch SyntaxNode

namespace SyntaxTree

/-- The tree whose nodes in pre-order have the given depths. -/
def ofDepths? (nodes : List (Nat × SyntaxNode)) : Option SyntaxTree :=
  (Forest.ofDepths nodes).branches.head?

/-- The tree of a text with nothing in it that counts: a document and no nodes below it. -/
def plain (source : String) : SyntaxTree where
  label :=
    { kind := "document", startByte := 0, endByte := source.utf8ByteSize, row := 0, column := 0 }
  below := .nil

def kind (t : SyntaxTree) : String := t.label.kind

/-- The node that holds the text of a heading. -/
def headingContent? (t : SyntaxTree) : Option SyntaxNode :=
  t.label.content?.bind fun i => t.preorder[i]?

/-- The first child, if any, that `p` accepts. -/
def findChild? (t : SyntaxTree) (p : SyntaxNode → Bool) : Option SyntaxNode :=
  t.below.roots.find? p

end SyntaxTree

/-- The text of a node, if its bytes are well-formed. -/
def SyntaxNode.text? (n : SyntaxNode) (source : String) : Option String :=
  String.fromUTF8? (source.toUTF8.extract n.startByte n.endByte)

/-- A parser for one grammar; it may give up on a text. -/
abbrev Parser := String → Option SyntaxTree

/-- The parser that knows the trees of some texts and takes all others for plain ones. -/
def Parser.ofTable (trees : List (String × SyntaxTree)) : Parser := fun source =>
  some (((trees.find? fun p => p.1 = source).map Prod.snd).getD (.plain source))

end DocOutline
