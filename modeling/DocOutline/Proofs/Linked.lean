import DocOutline.Document.Nested

/-! A built document holds the forest that its steps spell.

A forest of blocks has a place for each of its labels: its position in pre-order
(`placed`). It *stands* below a node when every label is found at its place,
linked to the label above it, to the first and the last of those below it and to
the next one beside it (`Stands`). Grafting makes a forest stand, whatever stood
there before (`grafted`), and running some steps is grafting what they spell onto
the open containers (`nodes_run`). Hence `holds_build`: whatever the steps, every
node of a built document is where the forest says. -/
namespace DocOutline

universe u

/-! ### Places -/

namespace Forest
variable {α : Type u}

/-- The labels, each with its position; the first has position `start`. -/
def placed (start : Nat) : Forest α → Forest (Nat × α)
  | nil => nil
  | cons a below after =>
    cons (start, a) (below.placed (start + 1)) (after.placed (start + 1 + below.size))

/-- The positions of a label, of those below it and of those after. -/
theorem range'_cons (start below after : Nat) :
    List.range' start (1 + below + after) =
      start :: (List.range' (start + 1) below ++ List.range' (start + 1 + below) after) := by
  rw [List.range'_append_1, Nat.add_assoc 1, Nat.add_comm 1, List.range'_succ]

/-- The positions of the trees themselves. -/
def heads (g : Forest (Nat × α)) : List Nat := g.roots.map Prod.fst

@[simp] theorem heads_nil : (nil : Forest (Nat × α)).heads = [] := rfl

@[simp] theorem heads_cons (x : Nat × α) (below after : Forest (Nat × α)) :
    (cons x below after).heads = x.1 :: after.heads := rfl

/-- The positions of the trees are among the positions of all labels. -/
theorem heads_subset (g : Forest (Nat × α)) : g.heads ⊆ g.preorder.map Prod.fst := by
  induction g with
  | nil => exact List.nil_subset _
  | cons x below after _ iha =>
    rw [heads_cons, preorder, List.map_cons, List.map_append]
    exact List.cons_subset_cons _ fun i hi => List.mem_append_right _ (iha hi)

@[simp] theorem size_placed (f : Forest α) (start : Nat) : (f.placed start).size = f.size := by
  induction f generalizing start with
  | nil => rfl
  | cons a below after ihb iha => simp [placed, size, ihb, iha]

theorem placed_append (f g : Forest α) (start : Nat) :
    (f.append g).placed start = (f.placed start).append (g.placed (start + f.size)) := by
  induction f generalizing start with
  | nil => rfl
  | cons a below after _ iha =>
    rw [append, placed, placed, append, iha, size, Nat.add_assoc start, Nat.add_assoc start,
      Nat.add_assoc 1]

theorem map_fst_placed (f : Forest α) (start : Nat) :
    (f.placed start).preorder.map Prod.fst = List.range' start f.size := by
  induction f generalizing start with
  | nil => rfl
  | cons a below after ihb iha =>
    rw [placed, preorder, List.map_cons, List.map_append, ihb, iha, size, range'_cons]

theorem map_snd_placed (f : Forest α) (start : Nat) :
    (f.placed start).preorder.map Prod.snd = f.preorder := by
  induction f generalizing start with
  | nil => rfl
  | cons a below after ihb iha => simp [placed, preorder, ihb, iha]

end Forest

/-! ### Standing -/

/-- The placed trees are consecutive siblings below `parent`, the last of them
the last sibling, and so is what is below each of them. -/
def Stands (nodes : Array Node) (parent : NodeId) : Forest (NodeId × Block) → Prop
  | .nil => True
  | .cons x below after =>
    nodes[x.1]? = some
      { block := x.2
        parent? := some parent
        firstChild? := below.heads.head?
        lastChild? := below.heads.getLast?
        nextSibling? := after.heads.head? } ∧
    Stands nodes x.1 below ∧ Stands nodes parent after

/-- A forest stands wherever its own nodes are the same. -/
theorem Stands.congr {nodes nodes' : Array Node} {parent : NodeId}
    {g : Forest (NodeId × Block)} (h : Stands nodes parent g)
    (hsame : ∀ i ∈ g.preorder.map Prod.fst, nodes'[i]? = nodes[i]?) : Stands nodes' parent g := by
  induction g generalizing parent with
  | nil => trivial
  | cons x below after ihb iha =>
    obtain ⟨hx, hb, ha⟩ := h
    simp only [Forest.preorder, List.map_cons, List.map_append, List.mem_cons,
      List.mem_append] at hsame
    exact ⟨by rw [hsame _ (.inl rfl)]; exact hx, ihb hb fun i hi => hsame i (.inr (.inl hi)),
      iha ha fun i hi => hsame i (.inr (.inr hi))⟩

/-- The node with some more children after those it had. -/
def Node.extended (n : Node) (ids : List NodeId) : Node :=
  { n with
    firstChild? := n.firstChild?.or ids.head?
    lastChild? := ids.getLast?.or n.lastChild? }

/-- The node with some more siblings after it. -/
def Node.followed (n : Node) (ids : List NodeId) : Node :=
  { n with nextSibling? := ids.head?.or n.nextSibling? }

@[simp] theorem Node.extended_nil (n : Node) : n.extended [] = n := by simp [Node.extended]

theorem Node.extended_extended (n : Node) (ids later : List NodeId) :
    (n.extended ids).extended later = n.extended (ids ++ later) := by
  simp [Node.extended, Option.or_assoc]

@[simp] theorem Node.followed_nil (n : Node) : n.followed [] = n := by simp [Node.followed]

namespace Builder

/-- The node at `parent` may get more children: it has a first child if it has a
last one, and the last one is another node that is there. -/
structure Takes (nodes : Array Node) (parent : Nat) (n : Node) : Prop where
  node : nodes[parent]? = some n
  both : n.firstChild?.isSome = n.lastChild?.isSome
  last : ∀ last : Nat, n.lastChild? = some last → last < nodes.size ∧ last ≠ parent

theorem Takes.lt_size {nodes : Array Node} {parent : Nat} {n : Node} (h : Takes nodes parent n) :
    parent < nodes.size :=
  (Array.getElem?_eq_some_iff.1 h.node).1

section Link
variable {nodes : Array Node} {parent : Nat} {n : Node} (h : Takes nodes parent n)
  (block : Block)
include h

theorem link_new :
    (link nodes parent block)[nodes.size]? = some { block, parent? := some parent } := by
  have hp := Nat.ne_of_lt h.lt_size
  unfold link
  rw [h.node, Option.bind_some]
  cases hlast : n.lastChild? with
  | none => simp [Array.getElem_modify, hp]
  | some last => simp [Array.getElem_modify, hp, Nat.ne_of_lt (h.last last hlast).1]

theorem link_parent :
    (link nodes parent block)[parent]? = some (n.extended [nodes.size]) := by
  have hp := Nat.ne_of_lt h.lt_size
  have hboth := h.both
  unfold link
  rw [h.node, Option.bind_some]
  cases hlast : n.lastChild? with
  | none =>
    have hfirst : n.firstChild? = none := by simpa [hlast] using hboth
    simp [Array.getElem?_modify, Array.getElem?_push, hp, h.node, Node.extended, hlast, hfirst]
  | some last =>
    obtain ⟨first, hfirst⟩ : ∃ first, n.firstChild? = some first := by
      simpa [hlast, Option.isSome_iff_exists] using hboth
    simp [Array.getElem?_modify, Array.getElem?_push, hp, h.node, Node.extended, hlast, hfirst,
      (h.last last hlast).2]

theorem link_last {last : Nat} {m : Node} (hlast : n.lastChild? = some last)
    (hm : nodes[last]? = some m) :
    (link nodes parent block)[last]? = some (m.followed [nodes.size]) := by
  obtain ⟨hlt, hne⟩ := h.last last hlast
  unfold link
  rw [h.node, Option.bind_some, hlast]
  simp [Array.getElem?_modify, Array.getElem?_push, Nat.ne_of_lt hlt, hne.symm, hm, Node.followed]

theorem link_other {i : Nat} (hi : i < nodes.size) (hp : i ≠ parent)
    (hlast : n.lastChild? ≠ some i) : (link nodes parent block)[i]? = nodes[i]? := by
  unfold link
  rw [h.node, Option.bind_some]
  cases hl : n.lastChild? with
  | none => simp [Array.getElem?_modify, Array.getElem?_push, Nat.ne_of_lt hi, hp.symm]
  | some last =>
    have hne : last ≠ i := fun he => hlast (by rw [hl, he])
    simp [Array.getElem?_modify, Array.getElem?_push, Nat.ne_of_lt hi, hp.symm, hne]

end Link

/-! ### Grafting -/

/-- The nodes after the blocks of a forest became the last children of `parent`,
each block before those below it. -/
def graft (nodes : Array Node) (parent : Nat) : Forest Block → Array Node
  | .nil => nodes
  | .cons b below after => graft (graft (link nodes parent b) nodes.size below) parent after

/-- What a graft does: the forest stands below `parent` on the nodes that are
new, the old nodes around it know of it, and the others are as they were. -/
structure Grafted (nodes grown : Array Node) (parent : Nat) (n : Node) (f : Forest Block) :
    Prop where
  size : grown.size = nodes.size + f.size
  above : grown[parent]? = some (n.extended (f.placed nodes.size).heads)
  last : ∀ last m, n.lastChild? = some last → nodes[last]? = some m →
    grown[last]? = some (m.followed (f.placed nodes.size).heads)
  other : ∀ i < nodes.size, i ≠ parent → n.lastChild? ≠ some i → grown[i]? = nodes[i]?
  stands : Stands grown parent (f.placed nodes.size)

section Cons
variable {nodes inside : Array Node} {parent : Nat} {n : Node} {block : Block}
  {below : Forest Block}
  (inner : Grafted (link nodes parent block) inside nodes.size { block, parent? := some parent }
    below)
include inner

theorem Grafted.size_inside : inside.size = nodes.size + 1 + below.size := by
  rw [inner.size, size_link]

/-- What goes below a new node leaves the older nodes alone. -/
theorem Grafted.inside_of_lt {i : Nat} (hi : i < nodes.size) :
    inside[i]? = (link nodes parent block)[i]? := by
  apply inner.other i
  · rw [size_link]
    exact Nat.lt_succ_of_lt hi
  · exact Nat.ne_of_lt hi
  · simp

variable (h : Takes nodes parent n)
include h

/-- After a new node has taken what is below it, `parent` may take more. -/
theorem Grafted.takes_inside : Takes inside parent (n.extended [nodes.size]) := by
  refine ⟨?_, by simp [Node.extended], ?_⟩
  · rw [inner.inside_of_lt h.lt_size, link_parent h]
  · intro last hlast
    obtain rfl : nodes.size = last := by simpa [Node.extended] using hlast
    have hsize := inner.size_inside
    exact ⟨by omega, (Nat.ne_of_lt h.lt_size).symm⟩

/-- A block with the forest below it, and then the forest after it. -/
theorem Grafted.cons {grown : Array Node} {after : Forest Block}
    (outer : Grafted inside grown parent (n.extended [nodes.size]) after) :
    Grafted nodes grown parent n (.cons block below after) := by
  have hsize := inner.size_inside
  have hlast : (n.extended [nodes.size]).lastChild? = some nodes.size := by simp [Node.extended]
  have hafter : after.placed inside.size = after.placed (nodes.size + 1 + below.size) := by
    rw [hsize]
  have hold : ∀ i < nodes.size, i ≠ parent → grown[i]? = (link nodes parent block)[i]? := by
    intro i hi hp
    rw [← inner.inside_of_lt hi]
    apply outer.other i (by omega) hp
    intro he
    rw [hlast, Option.some.injEq] at he
    exact Nat.ne_of_lt hi he.symm
  refine ⟨?_, ?_, ?_, ?_, ?_, ?_, ?_⟩
  · rw [outer.size, hsize, Forest.size]
    omega
  · rw [outer.above, Node.extended_extended, hafter]
    rfl
  · intro last m hl hm
    obtain ⟨hll, hlp⟩ := h.last last hl
    rw [hold last hll hlp, link_last h block hl hm]
    rfl
  · intro i hi hp hl
    rw [hold i hi hp, link_other h block hi hp hl]
  · -- The new node is the last child of `parent` until what comes after it is there.
    rw [outer.last nodes.size _ hlast inner.above, size_link, hafter]
    simp [Node.extended, Node.followed]
  · have hb := inner.stands
    rw [size_link] at hb
    apply hb.congr
    intro i hi
    rw [Forest.map_fst_placed, List.mem_range'_1] at hi
    have hp := h.lt_size
    refine outer.other i (by omega) (Nat.ne_of_gt (by omega)) ?_
    intro he
    rw [hlast, Option.some.injEq] at he
    omega
  · rw [← hafter]
    exact outer.stands

end Cons

theorem grafted {nodes : Array Node} {parent : Nat} {n : Node} (h : Takes nodes parent n)
    (f : Forest Block) : Grafted nodes (graft nodes parent f) parent n f := by
  induction f generalizing nodes parent n with
  | nil =>
    refine ⟨rfl, ?_, ?_, fun _ _ _ _ => rfl, trivial⟩
    · simp [graft, Forest.placed, h.node]
    · intro last m _ hm
      simp [graft, Forest.placed, hm]
  | cons b below after ihb iha =>
    have inner : Grafted (link nodes parent b) (graft (link nodes parent b) nodes.size below)
        nodes.size { block := b, parent? := some parent } below :=
      ihb ⟨link_new h b, rfl, by simp⟩
    exact inner.cons h (iha (inner.takes_inside h))

theorem graft_append (nodes : Array Node) (parent : NodeId) (f g : Forest Block) :
    graft nodes parent (f.append g) = graft (graft nodes parent f) parent g := by
  induction f generalizing nodes with
  | nil => rfl
  | cons b below after _ iha => exact iha _

/-! ### Running -/

/-- Forests grafted onto the open containers, from the innermost on. The root is
never closed: what is left when no container is open goes onto the root. -/
def graftAround (nodes : Array Node) (opened : List NodeId) : List (Forest Block) → Array Node
  | [] => nodes
  | f :: rest => graftAround (graft nodes (opened.headD Document.root) f) opened.tail rest

/-- Running steps grafts what they spell. -/
theorem nodes_run (b : Builder) (steps : List Step) :
    (b.run steps).1.nodes =
      graftAround b.nodes b.opened ((Step.added steps).1 :: (Step.added steps).2) := by
  induction steps generalizing b with
  | nil => rfl
  | cons s rest ih =>
    have hrun : (b.run (s :: rest)).1 = ((b.step s).1.run rest).1 := rfl
    rw [hrun, ih]
    cases s with
    | leaf block => rfl
    | close => rfl
    | opening block =>
      simp only [step, append, Step.added]
      rcases Step.added rest with ⟨inside, _ | ⟨here, around⟩⟩ <;> rfl

/-- With no container open, everything goes onto the root. -/
theorem graftAround_nil (nodes : Array Node) (fs : List (Forest Block)) :
    graftAround nodes [] fs = graft nodes Document.root (fs.foldr Forest.append .nil) := by
  induction fs generalizing nodes with
  | nil => rfl
  | cons f fs ih =>
    rw [List.foldr_cons, graft_append]
    exact ih _

end Builder

namespace Document

/-- The document holds a root block and a forest below it, every node at its place. -/
structure Holds (d : Document) (root : Block) (f : Forest Block) : Prop where
  size : d.size = 1 + f.size
  root : d.node? Document.root = some
    { block := root
      firstChild? := (f.placed 1).heads.head?
      lastChild? := (f.placed 1).heads.getLast? }
  stands : Stands d.nodes Document.root (f.placed 1)

/-- A built document holds what its steps spell as brackets. -/
theorem holds_build (root : Block) (steps : List Step) :
    (build root steps).Holds root (Step.nested steps) := by
  have hnodes : (build root steps).nodes =
      Builder.graft #[{ block := root }] Document.root (Step.nested steps) := by
    show ((Builder.init root).run steps).1.nodes = _
    rw [Builder.nodes_run]
    exact Builder.graftAround_nil _ _
  have htakes : Builder.Takes #[{ block := root }] Document.root { block := root } :=
    ⟨rfl, rfl, by simp⟩
  have h := Builder.grafted htakes (Step.nested steps)
  rw [← hnodes] at h
  exact ⟨h.size, by rw [node?, h.above]; simp [Node.extended], h.stands⟩

section Root
variable {d : Document} {root : Block} {f : Forest Block} (h : d.Holds root f)
include h

theorem Holds.kind?_root : d.kind? Document.root = some root.kind := by
  simp [kind?, block?, h.root]

theorem Holds.isContainer_root (hroot : root.kind = .document) :
    d.isContainer Document.root = true := by
  rw [isContainer, h.kind?_root, hroot]
  rfl

end Root

end Document

end DocOutline
