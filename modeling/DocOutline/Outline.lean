import DocOutline.Forest
import DocOutline.Document

/-! The outline of a document, rebuilt from the levels of its headings.

A heading belongs to the nearest broader heading before it, up to the next
heading that is as broad. Containers start no hierarchy of their own: a scan of a
sibling chain goes down into the containers that it meets before its first
heading, and passes over those after it.

A scan carries two levels. Its bound, if it has one, ends it at the first heading
that is at the bound or broader. Its peak is the broadest heading so far, and
only headings at the peak or broader are taken. Headings deeper than the shown
levels move the peak and are not given out. -/
namespace DocOutline

/-- Which headings an outline shows. -/
structure OutlineOptions where
  /-- The deepest level shown. Deeper headings still delimit scopes. -/
  maxLevel : UInt8 := maxHeaderLevel
  deriving DecidableEq, Repr, Inhabited

/-- Whether a block of this kind is given out. -/
def OutlineOptions.isPresentable (o : OutlineOptions) (k : Kind) : Bool :=
  k.level?.any (· ≤ o.maxLevel)

@[simp] theorem OutlineOptions.isPresentable_header (o : OutlineOptions) (level : UInt8) :
    o.isPresentable (.header level) = decide (level ≤ o.maxLevel) := rfl

/-- An outline: every heading's node with the headings nested beneath it. -/
abbrev Outline := Forest NodeId

namespace Document

/-- The headings of a sibling chain, where `inside` gives those inside a
container. Ends at a heading within `bound?`; `peak?` is the broadest level so far. -/
def scanChain (d : Document) (o : OutlineOptions) (inside : NodeId → List NodeId)
    (bound? : Option UInt8) : Option UInt8 → List NodeId → List NodeId
  | _, [] => []
  | peak?, id :: rest =>
    match d.kind? id with
    | some (.header level) =>
      let kind := Kind.header level
      if bound?.any fun bound => kind.sameLevelOrHigher (.header bound) then []
      else if peak?.all fun peak => kind.sameLevelOrHigher (.header peak) then
        let found := scanChain d o inside bound? (some level) rest
        if o.isPresentable kind then id :: found else found
      else scanChain d o inside bound? peak? rest
    | some kind =>
      let found := scanChain d o inside bound? peak? rest
      if kind.isTransparent && peak?.isNone then inside id ++ found else found
    | none => scanChain d o inside bound? peak? rest

/-- The headings inside a container, going down at most `depth` containers. -/
def scanInside (d : Document) (o : OutlineOptions) : Nat → NodeId → List NodeId
  | 0, _ => []
  | depth + 1, id => d.scanChain o (scanInside d o depth) none none (d.children id)

/-- The headings of a sibling chain, up to the first one within `bound?`. -/
def scan (d : Document) (o : OutlineOptions) (bound? : Option UInt8) (ids : List NodeId) :
    List NodeId :=
  d.scanChain o (d.scanInside o d.size) bound? none ids

/-- The headings directly below a node in the outline. For a document node they
are its topmost headings, for a heading those after it in its container up to
the next one as broad, and for anything else those of its container. Outside any
container there are none. -/
def outlineChildren (d : Document) (o : OutlineOptions) (id : NodeId) : List NodeId :=
  match d.kind? id with
  | none => []
  | some .document => d.scan o none (d.children id)
  | some kind =>
    match d.container? id with
    | none => []
    | some container =>
      match kind.level? with
      | some level => d.scan o (some level) (d.following id)
      | none => d.scan o none (d.children container)

/-- The outline with the given roots, every heading expanded in turn, in at most
`fuel` generations. -/
def expand (d : Document) (o : OutlineOptions) : Nat → List NodeId → Outline
  | 0, _ => .nil
  | fuel + 1, ids => Forest.grow (fun id => expand d o fuel (d.outlineChildren o id)) ids

/-- The full outline below a node. An outline child of a heading comes after the
heading in the document, so there are never more generations than nodes. -/
def outlineBelow (d : Document) (o : OutlineOptions) (id : NodeId) : Outline :=
  d.expand o d.size (d.outlineChildren o id)

/-- The outline of the whole document. -/
def outline (d : Document) (o : OutlineOptions) : Outline := d.outlineBelow o root

end Document

end DocOutline
