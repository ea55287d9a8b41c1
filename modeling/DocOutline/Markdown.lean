import DocOutline.Format
import DocOutline.Text.Blank
import DocOutline.Text.Occurs

/-! The markdown format.

The block grammar wraps every heading and its content in a section node, which
would settle the nesting beforehand. Sections are flattened, so that headings
stand as plain siblings in document order. The title of a heading is the text of
its content with blanks collapsed; from a heading with leading hash signs, one
closing run of them is taken off where it stands apart (`stripClosing`). -/
namespace DocOutline.Markdown

/-- The markers of an ordered list's items. -/
def orderedMarkers : List String := ["list_marker_dot", "list_marker_parenthesis"]

/-- A list is ordered when its first item has a number for its marker. -/
def isOrdered (list : SyntaxTree) : Bool :=
  match list.below with
  | .nil => false
  | .cons _ item _ => item.roots.any fun n => orderedMarkers.contains n.kind

/-- The level that a marker or an underline stands for. -/
def markerLevel? (kind : String) : Option UInt8 :=
  if kind = "atx_h1_marker" ∨ kind = "setext_h1_underline" then some 1
  else if kind = "atx_h2_marker" ∨ kind = "setext_h2_underline" then some 2
  else if kind = "atx_h3_marker" then some 3
  else if kind = "atx_h4_marker" then some 4
  else if kind = "atx_h5_marker" then some 5
  else if kind = "atx_h6_marker" then some 6
  else none

/-- The level of a heading node, from the first of its children that shows one. -/
def headingLevel? (t : SyntaxTree) : Option UInt8 :=
  t.below.roots.findSome? fun n => markerLevel? n.kind

/-- Whether the kind speaks of a marker. -/
def isMarker (kind : String) : Bool := Text.occurs "marker".toList kind.toList

def shape (t : SyntaxTree) : Shape :=
  if t.kind = "document" then .keep .document
  else if t.kind = "section" then .flatten
  else if t.kind = "list" then .keep (if isOrdered t then .orderedList else .unorderedList)
  else if t.kind = "list_item" then .keep .listItem
  else if t.kind = "block_quote" then .keep .blockQuote
  else if t.kind = "atx_heading" ∨ t.kind = "setext_heading" then
    .keep ((headingLevel? t).elim .other .header)
  else if isMarker t.kind ∨ t.kind = "block_continuation" then .ignore
  else .keep .other

/-! ### Titles -/

/-- The text without the hash signs at its end. -/
def dropClosing (text : List Char) : List Char := (text.reverse.dropWhile (· == '#')).reverse

/-- The text without its closing run of hash signs. The run counts as closing
only if it stands alone or after a blank, so that names such as C# keep theirs. -/
def stripClosing (text : List Char) : List Char :=
  let before := dropClosing text
  if before.length = text.length then text
  else if before.isEmpty || before.getLast?.any Text.isBlank then Text.trimEnd before
  else text

/-- The node whose text is the title: the heading content, or else the first
line or paragraph. -/
def titleNode? (t : SyntaxTree) : Option SyntaxNode :=
  t.headingContent? <|> t.findChild? fun n => n.kind = "inline" ∨ n.kind = "paragraph"

/-- The text of the title node with blanks collapsed; empty if its bytes are not
well-formed. -/
def collapsedTitle (t : SyntaxTree) (source : String) : List Char :=
  match titleNode? t with
  | none => []
  | some n => Text.collapse ((n.text? source).getD "").toList

def title (t : SyntaxTree) (source : String) : String :=
  let text := collapsedTitle t source
  String.ofList (if t.kind = "atx_heading" then stripClosing text else text)

/-- A run of hash signs goes as a whole, and nothing before it goes. -/
theorem dropClosing_append_replicate (u : List Char) (n : Nat)
    (h : u.getLast? ≠ some '#') : dropClosing (u ++ List.replicate n '#') = u := by
  unfold dropClosing
  rw [List.reverse_append, List.reverse_replicate, List.dropWhile_append_of_pos (by simp)]
  cases hu : u.reverse with
  | nil => simpa using hu.symm
  | cons c s =>
    have hc : (c == '#') = false := by
      have : u.getLast? = some c := by simp [← List.head?_reverse, hu]
      simp only [this, ne_eq, Option.some.injEq] at h
      simpa using h
    rw [List.dropWhile_cons_of_neg (by simp [hc]), ← hu, List.reverse_reverse]

end DocOutline.Markdown

namespace DocOutline

/-- Documents in markdown. -/
def markdown : Format where
  fileExtension := "md"
  shape := Markdown.shape
  title := Markdown.title

end DocOutline
