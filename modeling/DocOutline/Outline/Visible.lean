import DocOutline.Outline

/-! The headings that an outline can reach, said without a scan.

A heading is visible when everything around it is transparent. The parent of a
visible heading is the nearest broader heading before it among its siblings or,
if there is none, the nearest heading of any level that stands before one of the
containers around it (`outlineParent?`). -/
namespace DocOutline.Document

/-- Whether a node is there and a heading. -/
def isHeading (d : Document) (id : NodeId) : Bool := (d.kind? id).any Kind.isHeader

/-- The level of a heading. -/
def level? (d : Document) (id : NodeId) : Option UInt8 := (d.kind? id).bind Kind.level?

/-- Whether a node is a heading and everything around it is transparent. -/
def isVisible (d : Document) (id : NodeId) : Bool :=
  d.isHeading id && (d.ancestors id).all d.isContainer

/-- The visible headings in document order. -/
def visible (d : Document) : List NodeId := (List.range d.size).filter d.isVisible

/-- The headings below a node with only transparent nodes between, going down at
most `depth` levels. -/
def visibleWithin (d : Document) : Nat → NodeId → List NodeId
  | 0, _ => []
  | depth + 1, id =>
    (d.children id).flatMap fun child =>
      if d.isHeading child then [child]
      else if d.isContainer child then visibleWithin d depth child
      else []

/-- The headings below a node with only transparent nodes between, in document order. -/
def visibleBelow (d : Document) (id : NodeId) : List NodeId := d.visibleWithin d.size id

/-- The headings at or below a node with only transparent nodes between. -/
def visibleAt (d : Document) (id : NodeId) : List NodeId :=
  if d.isHeading id then [id] else if d.isContainer id then d.visibleBelow id else []

/-- Whether a node is a heading at `bound` or broader. -/
def endsScope (d : Document) (bound : UInt8) (id : NodeId) : Bool :=
  (d.level? id).any (· ≤ bound)

/-- The headings from a heading up to where its scope ends. -/
def extent (d : Document) (id : NodeId) (level : UInt8) : List NodeId :=
  ((d.following id).takeWhile fun s => !d.endsScope level s).flatMap d.visibleAt

/-- The siblings before a node, the nearest first. -/
def preceding (d : Document) (id : NodeId) : List NodeId :=
  match (d.node? id).bind Node.parent? with
  | none => []
  | some parent => ((d.children parent).takeWhile (· ≠ id)).reverse

/-- The nearest heading that stands before one of these nodes among its siblings. -/
def headingBefore? (d : Document) (ids : List NodeId) : Option NodeId :=
  ids.findSome? fun id => (d.preceding id).find? d.isHeading

/-- The parent of a visible heading in the outline; none for one at the top. -/
def outlineParent? (d : Document) (id : NodeId) : Option NodeId :=
  match (d.preceding id).find? fun s => (d.level? s).any fun l => (d.level? id).any (l < ·) with
  | some parent => some parent
  | none => d.headingBefore? (d.ancestors id)

theorem lt_size_of_isHeading {d : Document} {id : Nat} (h : d.isHeading id = true) :
    id < d.size := by
  obtain ⟨k, hk, -⟩ := (Option.any_eq_true _ _).1 h
  exact lt_size_of_kind? hk

/-- A node is within a bound if it is a heading of such a level. -/
theorem any_endsScope (d : Document) (bound? : Option UInt8) (id : NodeId) :
    bound?.any (d.endsScope · id) = (d.level? id).any fun level => bound?.any (level ≤ ·) := by
  unfold endsScope
  cases bound? <;> cases d.level? id <;> rfl

end DocOutline.Document
