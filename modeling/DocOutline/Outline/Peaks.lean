import DocOutline.Outline.Visible

/-! The closed form of a scan: which part of a sibling chain it looks at, which
containers it goes into, and which headings are peaks of the chain. -/
namespace DocOutline.Document

/-- The chain up to the first heading within the bound. -/
def upTo (d : Document) (bound? : Option UInt8) (ids : List NodeId) : List NodeId :=
  ids.takeWhile fun id => !bound?.any fun bound => d.endsScope bound id

/-- The chain before its first heading. -/
def beforeHeading (d : Document) (ids : List NodeId) : List NodeId :=
  ids.takeWhile fun id => !d.isHeading id

/-- The headings of the chain, after some earlier levels, that are as broad as
every heading before them. -/
def peaksAfter (d : Document) (earlier : List UInt8) : List NodeId → List NodeId
  | [] => []
  | id :: rest =>
    match d.level? id with
    | none => peaksAfter d earlier rest
    | some level =>
      let later := peaksAfter d (level :: earlier) rest
      if earlier.all (level ≤ ·) then id :: later else later

/-- The peaks of a chain. -/
def peaks (d : Document) (ids : List NodeId) : List NodeId := d.peaksAfter [] ids

end DocOutline.Document
