import DocOutline.Document

/-! Documents built one block at a time, in document order.

A builder knows the nodes so far and which containers are open. A block becomes
the last child of the innermost open container. Closing with no container open
leaves the root open. One node is added for every block (`size_append`), and a
block's position is the number of nodes before it. -/
namespace DocOutline

/-- A step of a build. -/
inductive Step where
  /-- A block with nothing below it. -/
  | leaf (block : Block)
  /-- A block that holds what comes until it is closed. -/
  | opening (block : Block)
  /-- The end of the innermost open container. -/
  | close
  deriving DecidableEq, Repr

structure Builder where
  nodes : Array Node
  root_lt : 0 < nodes.size
  /-- The open containers below the root, the innermost first. -/
  opened : List NodeId := []

namespace Builder

/-- Only the root, with the given block. -/
def init (root : Block) : Builder where
  nodes := #[{ block := root }]
  root_lt := Nat.zero_lt_one

/-- The innermost open container. -/
def current (b : Builder) : NodeId := b.opened.headD Document.root

/-- The nodes after `block` became the last child of `parent`. -/
def link (nodes : Array Node) (parent : NodeId) (block : Block) : Array Node :=
  let id := nodes.size
  let last? := (nodes[parent]?).bind Node.lastChild?
  let grown := nodes.push { block, parent? := some parent }
  let joined :=
    match last? with
    | some last => grown.modify last fun n => { n with nextSibling? := some id }
    | none => grown.modify parent fun n => { n with firstChild? := some id }
  joined.modify parent fun n => { n with lastChild? := some id }

@[simp] theorem size_link (nodes : Array Node) (parent : NodeId) (block : Block) :
    (link nodes parent block).size = nodes.size + 1 := by
  unfold link
  dsimp only
  split <;> simp

/-- The builder with `block` as the last child of the current container. -/
def append (b : Builder) (block : Block) : Builder where
  nodes := link b.nodes b.current block
  root_lt := by simp
  opened := b.opened

/-- The builder after a step, and the position of the block the step brought. -/
def step (b : Builder) : Step → Builder × Option NodeId
  | .leaf block =>
    let id := b.nodes.size
    (b.append block, some id)
  | .opening block =>
    let id := b.nodes.size
    let next := b.append block
    ({ next with opened := id :: next.opened }, some id)
  | .close => ({ b with opened := b.opened.tail }, none)

/-- The builder after some steps, and the positions that each of them brought. -/
def run (b : Builder) : List Step → Builder × List (Option NodeId)
  | [] => (b, [])
  | s :: rest =>
    let (next, id?) := b.step s
    let (last, ids) := next.run rest
    (last, id? :: ids)

/-- What was built, every open container closed. -/
def finish (b : Builder) : Document := ⟨b.nodes, b.root_lt⟩

@[simp] theorem size_append (b : Builder) (block : Block) :
    (b.append block).nodes.size = b.nodes.size + 1 := by
  simp [append]

end Builder

/-- The document that some steps build below a root block. -/
def Document.build (root : Block) (steps : List Step) : Document :=
  ((Builder.init root).run steps).1.finish

end DocOutline
