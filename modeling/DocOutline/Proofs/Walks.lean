import DocOutline.Proofs.Linked
import DocOutline.Outline.Visible

/-! What walks over the links of a document find.

In a document that holds a forest every link leads forward, except those to the
parent, which lead back (`Holds.ordered`). So a walk never runs out of steps
(`chain_some`), and it finds what stands in the forest: the children of a node
are the trees below it (`children_cons`), the siblings after it are the trees
after it (`following_cons`), and the nodes around it are its parent and the nodes
around that (`ancestors_cons`). -/
namespace DocOutline

universe u

theorem Forest.head?_heads_placed {α : Type u} {f : Forest α} {start id : Nat}
    (h : (f.placed start).heads.head? = some id) : id = start := by
  cases f with
  | nil => cases h
  | cons a below after => exact (Option.some.inj h).symm

/-! ### Nodes of a standing forest -/

namespace Stands
variable {nodes : Array Node} {parent : Nat} {g : Forest (NodeId × Block)}

/-- Every label of a standing forest is the block of its node. -/
theorem block_eq (h : Stands nodes parent g) {x : NodeId × Block} (hx : x ∈ g.preorder) :
    (nodes[x.1]?).map Node.block = some x.2 := by
  induction g generalizing parent with
  | nil => cases hx
  | cons y below after ihb iha =>
    obtain ⟨hy, hb, ha⟩ := h
    rcases List.mem_cons.1 hx with rfl | hx
    · simp [hy]
    · rcases List.mem_append.1 hx with hx | hx
      · exact ihb hb hx
      · exact iha ha hx

/-- In document order, the blocks of the nodes are the labels in pre-order. -/
theorem block_of_preorder {f : Forest Block} {start i : Nat} {b : Block}
    (h : Stands nodes parent (f.placed start)) (hb : f.preorder[i]? = some b) :
    (nodes[start + i]?).map Node.block = some b := by
  rw [← f.map_snd_placed start, List.getElem?_map] at hb
  obtain ⟨x, hx, rfl⟩ := Option.map_eq_some_iff.1 hb
  have hpos : ((f.placed start).preorder.map Prod.fst)[i]? = some x.1 := by
    rw [List.getElem?_map, hx, Option.map_some]
  rw [Forest.map_fst_placed] at hpos
  obtain ⟨_, hpos⟩ := List.getElem?_eq_some_iff.1 hpos
  rw [List.getElem_range', Nat.one_mul] at hpos
  rw [hpos]
  exact h.block_eq (List.mem_of_getElem? hx)

theorem lt_size_of_head? (h : Stands nodes parent g) {id : Nat} (hid : g.heads.head? = some id) :
    id < nodes.size := by
  cases g with
  | nil => cases hid
  | cons x below after =>
    obtain rfl : x.1 = id := Option.some.inj hid
    exact (Array.getElem?_eq_some_iff.1 h.1).1

/-- The parent of a standing node comes before it and its next sibling after it. -/
theorem ordered {f : Forest Block} {start : Nat} (h : Stands nodes parent (f.placed start))
    (hp : parent < start) {id : Nat} {n : Node} (hid : id ∈ List.range' start f.size)
    (hn : nodes[id]? = some n) :
    (∀ j : Nat, n.parent? = some j → j < id) ∧
      ∀ j : Nat, n.nextSibling? = some j → id < j ∧ j < nodes.size := by
  induction f generalizing start parent with
  | nil => cases hid
  | cons b below after ihb iha =>
    obtain ⟨hx, hb, ha⟩ := h
    rw [List.mem_range'_1, Forest.size] at hid
    by_cases hs : id = start
    · subst hs
      obtain rfl := Option.some.inj (hx.symm.trans hn)
      refine ⟨fun j hj => (Option.some.inj hj) ▸ hp, ?_⟩
      intro j hj
      have hlt := ha.lt_size_of_head? hj
      have := Forest.head?_heads_placed hj
      exact ⟨by omega, hlt⟩
    · by_cases hlt : id < start + 1 + below.size
      · exact ihb hb (Nat.lt_succ_self _) (List.mem_range'_1.2 (by omega))
      · exact iha ha (by omega) (List.mem_range'_1.2 (by omega))

end Stands

namespace Document

/-! ### Walks that never run out -/

/-- Links to a parent lead back, and links to a next sibling lead forward. -/
structure Ordered (d : Document) : Prop where
  parent : ∀ {id j : Nat} {n : Node}, d.node? id = some n → n.parent? = some j → j < id
  next : ∀ {id j : Nat} {n : Node}, d.node? id = some n → n.nextSibling? = some j →
    id < j ∧ j < d.size

theorem Holds.ordered {d : Document} {root : Block} {f : Forest Block} (h : d.Holds root f) :
    d.Ordered := by
  have hall : ∀ {id : Nat} {n : Node}, d.node? id = some n →
      (∀ j : Nat, n.parent? = some j → j < id) ∧
        ∀ j : Nat, n.nextSibling? = some j → id < j ∧ j < d.size := by
    intro id n hn
    have hlt : id < d.size := (Array.getElem?_eq_some_iff.1 hn).1
    rw [h.size] at hlt
    by_cases h0 : id = Document.root
    · subst h0
      obtain rfl := Option.some.inj (h.root.symm.trans hn)
      exact ⟨by simp, by simp⟩
    · have : id ≠ 0 := h0
      exact h.stands.ordered Nat.zero_lt_one (List.mem_range'_1.2 (by omega)) hn
  exact ⟨fun hn hj => (hall hn).1 _ hj, fun hn hj => (hall hn).2 _ hj⟩

section Chain
variable {d : Document} {next : Node → Option NodeId} (rank : Nat → Nat)

/-- A walk whose links lower a rank does not depend on the steps it may take, as
long as these are more than the rank of where it starts. -/
theorem chain_congr
    (hrank : ∀ {id j : Nat} {n : Node}, d.node? id = some n → next n = some j → rank j < rank id)
    {fuel fuel' id : Nat} (h : rank id < fuel) (h' : rank id < fuel') :
    d.chain next fuel (some id) = d.chain next fuel' (some id) := by
  induction fuel generalizing fuel' id with
  | zero => omega
  | succ fuel ih =>
    obtain ⟨fuel', rfl⟩ : ∃ k, fuel' = k + 1 := ⟨fuel' - 1, by omega⟩
    simp only [chain]
    cases hn : d.node? id with
    | none => rfl
    | some n =>
      cases hj : next n with
      | none => simp only [hj, chain_none]
      | some j =>
        have hlt := hrank hn hj
        have hrest : d.chain next fuel (some j) = d.chain next fuel' (some j) :=
          ih (by omega) (by omega)
        simp only [hj, hrest]

/-- A walk from a node finds the node and then what a walk from its link finds. -/
theorem chain_some
    (hrank : ∀ {id j : Nat} {n : Node}, d.node? id = some n → next n = some j → rank j < rank id)
    (hlt : ∀ id < d.size, rank id < d.size) {id : Nat} (hid : id < d.size) :
    d.chain next d.size (some id) = id :: d.chain next d.size ((d.node? id).bind next) := by
  have hr := hlt id hid
  obtain ⟨n, hn⟩ : ∃ n, d.node? id = some n := ⟨_, Array.getElem?_eq_getElem hid⟩
  generalize d.size = fuel at hr ⊢
  obtain ⟨fuel, rfl⟩ : ∃ k, fuel = k + 1 := ⟨fuel - 1, by omega⟩
  rw [hn, Option.bind_some, chain]
  simp only [hn, List.cons.injEq, true_and]
  cases hj : next n with
  | none => simp only [chain_none]
  | some j =>
    have := hrank hn hj
    exact chain_congr rank hrank (by omega) (by omega)

end Chain

namespace Ordered
variable {d : Document} (hd : d.Ordered) {id : Nat}
include hd

theorem chain_parent (hid : id < d.size) :
    d.chain Node.parent? d.size (some id) = id :: d.ancestors id :=
  chain_some (fun i => i) (fun hn hj => hd.parent hn hj) (fun _ h => h) hid

theorem chain_next (hid : id < d.size) :
    d.chain Node.nextSibling? d.size (some id) = id :: d.following id :=
  chain_some (fun i => d.size - 1 - i)
    (fun hn hj => by have := hd.next hn hj; omega) (fun i h => by omega) hid

/-! ### Walks in a standing forest -/

variable {parent : Nat} {x : NodeId × Block} {below after : Forest (NodeId × Block)}

/-- A walk over siblings from the first tree of a standing forest finds its trees. -/
theorem chain_heads {g : Forest (NodeId × Block)} (h : Stands d.nodes parent g) :
    d.chain Node.nextSibling? d.size g.heads.head? = g.heads := by
  induction g with
  | nil => exact chain_none d _ _
  | cons x below after _ iha =>
    have hlt := h.lt_size_of_head? rfl
    obtain ⟨hx, -, ha⟩ := h
    have hnode : d.node? x.1 = _ := hx
    rw [Forest.heads_cons, List.head?_cons, hd.chain_next hlt, following, hnode]
    exact congrArg _ (iha ha)

theorem following_cons (h : Stands d.nodes parent (.cons x below after)) :
    d.following x.1 = after.heads := by
  have hnode : d.node? x.1 = _ := h.1
  rw [following, hnode]
  exact hd.chain_heads h.2.2

theorem children_cons (h : Stands d.nodes parent (.cons x below after)) :
    d.children x.1 = below.heads := by
  have hnode : d.node? x.1 = _ := h.1
  rw [children, hnode]
  exact hd.chain_heads h.2.1

theorem ancestors_cons (h : Stands d.nodes parent (.cons x below after))
    (hp : parent < d.size) : d.ancestors x.1 = parent :: d.ancestors parent := by
  have hnode : d.node? x.1 = _ := h.1
  rw [ancestors, hnode]
  exact hd.chain_parent hp

end Ordered

theorem Holds.children_root {d : Document} {root : Block} {f : Forest Block}
    (h : d.Holds root f) : d.children Document.root = (f.placed 1).heads := by
  rw [children, h.root]
  exact h.ordered.chain_heads h.stands

theorem Holds.ancestors_root {d : Document} {root : Block} {f : Forest Block}
    (h : d.Holds root f) : d.ancestors Document.root = [] := by
  rw [ancestors, h.root]
  exact chain_none d _ _

theorem Holds.container?_root {d : Document} {root : Block} {f : Forest Block}
    (h : d.Holds root f) : d.container? Document.root = none := by
  rw [container?, h.ancestors_root]
  rfl

theorem Holds.all_isContainer_root {d : Document} {root : Block} {f : Forest Block}
    (h : d.Holds root f) (hroot : root.kind = .document) :
    (Document.root :: d.ancestors Document.root).all d.isContainer = true := by
  rw [h.ancestors_root, List.all_cons, h.isContainer_root hroot]
  rfl

end Document

end DocOutline
