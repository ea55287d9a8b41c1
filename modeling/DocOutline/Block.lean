import DocOutline.Kind

/-! What a document stores of a block: its kind, its heading text and where it
stands in the source. -/
namespace DocOutline

structure Block where
  kind : Kind
  /-- The heading text without markup; empty on everything but headings. -/
  title : String := ""
  /-- The line it starts on, counted from one. -/
  line : Nat := 0
  /-- The byte column it starts at, counted from zero. -/
  column : Nat := 0
  /-- The first byte. -/
  start : Nat := 0
  /-- The byte after the last. -/
  stop : Nat := 0
  deriving DecidableEq, Repr, Inhabited

/-- The level of a heading, and zero on everything else. -/
def Block.level (b : Block) : UInt8 := b.kind.level?.getD 0

end DocOutline
