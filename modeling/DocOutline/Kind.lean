/-! What a block of a document is, as far as its headings are concerned.

Containers are transparent: the headings in them take part in the hierarchy
around them. Headings carry a level. Everything else is inert. The rank orders
kinds from the document, the broadest, over the heading levels to what can
neither bound nor open a scope; two headings compare by level
(`sameLevelOrHigher_header`). -/
namespace DocOutline

/-- The deepest heading level that a markdown document writes. -/
def maxHeaderLevel : UInt8 := 6

/-- The rank of what is neither the document nor a heading. -/
def weakestRank : UInt8 := 255

inductive Kind where
  | document
  | unorderedList
  | orderedList
  | listItem
  | blockQuote
  | header (level : UInt8)
  | other
  deriving DecidableEq, Repr, Inhabited

namespace Kind

/-- Whether the headings inside take part in the hierarchy around the block. -/
def isTransparent : Kind → Bool
  | document | unorderedList | orderedList | listItem | blockQuote => true
  | header _ | other => false

def isHeader : Kind → Bool
  | header _ => true
  | _ => false

/-- The level of a heading. -/
def level? : Kind → Option UInt8
  | header level => some level
  | _ => none

/-- The place in the heading order, the broadest first. -/
def rank : Kind → UInt8
  | document => 0
  | header level => level
  | _ => weakestRank

/-- At the rank of `bound` or at a broader one. -/
def sameLevelOrHigher (k bound : Kind) : Bool := k.rank ≤ bound.rank

@[simp] theorem level?_header (level : UInt8) : (header level).level? = some level := rfl

@[simp] theorem sameLevelOrHigher_header (a b : UInt8) :
    (header a).sameLevelOrHigher (header b) = decide (a ≤ b) := rfl

theorem eq_header_of_level? {k : Kind} {level : UInt8} (h : k.level? = some level) :
    k = header level := by
  cases k <;> cases h
  rfl

theorem isHeader_eq_isSome_level? (k : Kind) : k.isHeader = k.level?.isSome := by
  cases k <;> rfl

/-- A kind is a heading, a container or inert, and never two of these. -/
theorem not_isHeader_of_isTransparent {k : Kind} (h : k.isTransparent = true) :
    k.isHeader = false := by
  cases k <;> simp_all [isTransparent, isHeader]

end Kind

end DocOutline
