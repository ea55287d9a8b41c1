import DocOutline.Block

/-! Documents as linked nodes.

The blocks of a document stand in an array in document order. A node names its
parent, its first and last child and its next sibling by their positions, and
everything that looks at a document follows these links: the children of a node
are the chain from its first child over next siblings, its ancestors the chain
over parents. A chain is followed for as many steps as the document has nodes,
which is more than any chain of distinct nodes has. -/
namespace DocOutline

/-- The position of a node in its document. -/
abbrev NodeId := Nat

/-- A block and its links. -/
structure Node where
  block : Block
  parent? : Option NodeId := none
  firstChild? : Option NodeId := none
  lastChild? : Option NodeId := none
  nextSibling? : Option NodeId := none
  deriving DecidableEq, Repr, Inhabited

structure Document where
  nodes : Array Node
  /-- The root is always there. -/
  root_lt : 0 < nodes.size

namespace Document

/-- The position of the node that holds the whole document. -/
def root : NodeId := 0

/-- The number of nodes, with the root. -/
def size (d : Document) : Nat := d.nodes.size

/-- Whether there is nothing below the root. -/
def isEmpty (d : Document) : Bool := d.size ≤ 1

def node? (d : Document) (id : NodeId) : Option Node := d.nodes[id]?

def block? (d : Document) (id : NodeId) : Option Block := (d.node? id).map Node.block

def kind? (d : Document) (id : NodeId) : Option Kind := (d.block? id).map Block.kind

/-- The nodes on the way from `start?` along the link `next`, in at most `fuel` steps. -/
def chain (d : Document) (next : Node → Option NodeId) : Nat → Option NodeId → List NodeId
  | 0, _ => []
  | _ + 1, none => []
  | fuel + 1, some id =>
    match d.node? id with
    | none => []
    | some n => id :: chain d next fuel (next n)

/-- The children of a node in document order. -/
def children (d : Document) (id : NodeId) : List NodeId :=
  d.chain Node.nextSibling? d.size ((d.node? id).bind Node.firstChild?)

/-- The siblings after a node in document order. -/
def following (d : Document) (id : NodeId) : List NodeId :=
  d.chain Node.nextSibling? d.size ((d.node? id).bind Node.nextSibling?)

/-- The nodes around a node, the nearest first. -/
def ancestors (d : Document) (id : NodeId) : List NodeId :=
  d.chain Node.parent? d.size ((d.node? id).bind Node.parent?)

/-- Whether a node is there and of a transparent kind. -/
def isContainer (d : Document) (id : NodeId) : Bool := (d.kind? id).any Kind.isTransparent

/-- The nearest of the nodes around a node that is transparent. -/
def container? (d : Document) (id : NodeId) : Option NodeId :=
  (d.ancestors id).find? d.isContainer

@[simp] theorem node?_eq_none_iff {d : Document} {id : NodeId} :
    d.node? id = none ↔ d.size ≤ id := by
  simp [node?, size]

theorem lt_size_of_block? {d : Document} {id : NodeId} {b : Block} (h : d.block? id = some b) :
    id < d.size := by
  apply Nat.lt_of_not_le
  intro hle
  rw [block?, node?_eq_none_iff.2 hle] at h
  cases h

theorem lt_size_of_kind? {d : Document} {id : NodeId} {k : Kind} (h : d.kind? id = some k) :
    id < d.size := by
  obtain ⟨b, hb, -⟩ := Option.map_eq_some_iff.1 h
  exact lt_size_of_block? hb

theorem lt_size_of_isContainer {d : Document} {id : NodeId} (h : d.isContainer id = true) :
    id < d.size := by
  obtain ⟨k, hk, -⟩ := (Option.any_eq_true _ _).1 h
  exact lt_size_of_kind? hk

@[simp] theorem chain_none (d : Document) (next : Node → Option NodeId) (fuel : Nat) :
    d.chain next fuel none = [] := by
  cases fuel <;> rfl

/-- A chain holds nodes of the document only. -/
theorem lt_size_of_mem_chain {d : Document} {next : Node → Option NodeId} {fuel : Nat}
    {start? : Option NodeId} {id : NodeId} (h : id ∈ d.chain next fuel start?) : id < d.size := by
  induction fuel generalizing start? with
  | zero => simp [chain] at h
  | succ fuel ih =>
    cases start? with
    | none => simp at h
    | some first =>
      unfold chain at h
      split at h
      · simp at h
      · rename_i n hn
        rcases List.mem_cons.1 h with rfl | h
        · exact Nat.lt_of_not_le fun hle => by simp [node?_eq_none_iff.2 hle] at hn
        · exact ih h

end Document

end DocOutline
