import DocOutline.Proofs.Walks

/-! Built documents are stored in pre-order.

In a standing forest a node's parent is the node above it or one of the forest's
own nodes (`Stands.exists_parent`), so that the nodes with a given parent are just
the trees below it (`Ordered.children_eq_filter`), and the trees after a node are
the rest of them (`Ordered.following_suffix`). The depth-first walk over first
children and next siblings comes to the nodes in pre-order (`Stands.walks`), which
is the order they are stored in. `Preordered` puts this together for a whole
document, and every built document has it (`preordered_build`). -/
namespace DocOutline

namespace Document

/-- The node that a node stands in. -/
def parent? (d : Document) (id : NodeId) : Option NodeId := (d.node? id).bind Node.parent?

/-- The first of the nodes that stand in a node. -/
def firstChild? (d : Document) (id : NodeId) : Option NodeId := (d.node? id).bind Node.firstChild?

/-- A link that a walk down and along a document goes over: to the first child or
to the next sibling. -/
def Leads (d : Document) (id next : NodeId) : Prop :=
  ∃ n, d.node? id = some n ∧ (n.firstChild? = some next ∨ n.nextSibling? = some next)

/-- The depth-first walk from `start?` comes to the nodes `ids` and ends: to a node,
to what its first child leads to, and to what its next sibling leads to. -/
inductive Walks (d : Document) : Option NodeId → List NodeId → Prop where
  | done : Walks d none []
  | step {id : NodeId} {n : Node} {below after : List NodeId} (hn : d.node? id = some n)
      (hb : Walks d n.firstChild? below) (ha : Walks d n.nextSibling? after) :
      Walks d (some id) (id :: (below ++ after))

/-- A document whose nodes stand in pre-order and whose links are of one mind. -/
structure Preordered (d : Document) : Prop where
  /-- The walk from the root comes to every node once and in order. -/
  walks_iff : ∀ ids, d.Walks (some root) ids ↔ ids = List.range d.size
  /-- The children of a node are those whose parent it is, in order. -/
  children_eq : ∀ id, d.children id = (List.range d.size).filter fun i => d.parent? i = some id
  firstChild?_eq : ∀ id, d.firstChild? id = (d.children id).head?
  /-- What follows a node are the later children of its parent. -/
  following_suffix : ∀ id < d.size, id ≠ root → ∃ parent before,
    d.parent? id = some parent ∧ d.children parent = before ++ id :: d.following id
  parent_lt : ∀ id parent, d.parent? id = some parent → parent < id
  parent?_eq_none_iff : ∀ id < d.size, d.parent? id = none ↔ id = root
  /-- No walk over first children and next siblings goes on for ever. -/
  leads_wf : WellFounded fun next id => d.Leads id next
  /-- No walk over parents goes on for ever. -/
  parent_wf : WellFounded fun parent id => d.parent? id = some parent

/-- There is one walk from a node at most. -/
theorem Walks.unique {d : Document} {start? : Option NodeId} {ids ids' : List NodeId}
    (h : d.Walks start? ids) (h' : d.Walks start? ids') : ids = ids' := by
  induction h generalizing ids' with
  | done => cases h'; rfl
  | step hn _ _ ihb iha =>
    cases h' with
    | step hn' hb' ha' =>
      obtain rfl := Option.some.inj (hn.symm.trans hn')
      rw [ihb hb', iha ha']

end Document

/-! ### Parents in a standing forest -/

section Standing
variable {d : Document} {parent start : Nat} {f : Forest Block}

theorem Stands.walks {g : Forest (NodeId × Block)} (h : Stands d.nodes parent g) :
    d.Walks g.heads.head? (g.preorder.map Prod.fst) := by
  induction g generalizing parent with
  | nil => exact .done
  | cons x below after ihb iha =>
    rw [Forest.preorder, List.map_cons, List.map_append]
    exact .step h.1 (ihb h.2.1) (iha h.2.2)

/-- Every label of a standing forest stands at the front of some siblings. -/
theorem Stands.exists_cons {g : Forest (NodeId × Block)} (h : Stands d.nodes parent g)
    {x : NodeId × Block} (hx : x ∈ g.preorder) :
    ∃ p below after, Stands d.nodes p (.cons x below after) := by
  induction g generalizing parent with
  | nil => cases hx
  | cons y below after ihb iha =>
    rw [Forest.preorder, List.mem_cons, List.mem_append] at hx
    rcases hx with rfl | hx | hx
    · exact ⟨parent, below, after, h⟩
    · exact ihb h.2.1 hx
    · exact iha h.2.2 hx

theorem Stands.parent?_cons {b : Block} {below after : Forest Block}
    (h : Stands d.nodes parent ((Forest.cons b below after).placed start)) :
    d.parent? start = some parent := by
  have hnode : d.node? start = _ := h.1
  rw [Document.parent?, hnode, Option.bind_some]

/-- The parent of a node is the one the forest stands below, or a node of the forest. -/
theorem Stands.exists_parent (h : Stands d.nodes parent (f.placed start)) {id : Nat}
    (hid : id ∈ List.range' start f.size) :
    ∃ p : Nat, d.parent? id = some p ∧ (p = parent ∨ start ≤ p ∧ p < start + f.size) := by
  induction f generalizing parent start with
  | nil => cases hid
  | cons b below after ihb iha =>
    rw [Forest.size, Forest.range'_cons, List.mem_cons, List.mem_append] at hid
    rw [Forest.size]
    rcases hid with rfl | hid | hid
    · exact ⟨parent, h.parent?_cons, .inl rfl⟩
    · obtain ⟨p, hp, hbounds⟩ := ihb h.2.1 hid
      exact ⟨p, hp, .inr (by omega)⟩
    · obtain ⟨p, hp, hbounds⟩ := iha h.2.2 hid
      exact ⟨p, hp, by omega⟩

/-- A node elsewhere has no children in the forest. -/
theorem Stands.filter_parent_eq_nil (h : Stands d.nodes parent (f.placed start)) (id : Nat)
    (hparent : id ≠ parent) (hout : id < start ∨ start + f.size ≤ id) :
    (List.range' start f.size).filter (fun i => d.parent? i = some id) = [] := by
  apply List.filter_eq_nil_iff.2
  intro i hi hid
  obtain ⟨p, hp, hbounds⟩ := h.exists_parent hi
  obtain rfl : p = id := Option.some.inj (hp.symm.trans (of_decide_eq_true hid))
  omega

/-- The children of the node that the forest stands below are its trees. -/
theorem Stands.filter_parent_eq_heads (h : Stands d.nodes parent (f.placed start))
    (hp : parent < start) :
    (List.range' start f.size).filter (fun i => d.parent? i = some parent) =
      (f.placed start).heads := by
  induction f generalizing start with
  | nil => rfl
  | cons b below after _ iha =>
    have hbelow := h.2.1.filter_parent_eq_nil parent (Nat.ne_of_lt hp) (.inl (by omega))
    have hafter := iha h.2.2 (by omega)
    rw [Forest.size, Forest.range'_cons, List.filter_cons, List.filter_append,
      if_pos (decide_eq_true h.parent?_cons), hbelow, hafter]
    rfl

namespace Document.Ordered
variable (hd : d.Ordered)
include hd

/-- The children of a node of the forest are those of its nodes whose parent it is. -/
theorem children_eq_filter (h : Stands d.nodes parent (f.placed start)) (hp : parent < start)
    {id : Nat} (hid : id ∈ List.range' start f.size) :
    d.children id = (List.range' start f.size).filter fun i => d.parent? i = some id := by
  induction f generalizing parent start with
  | nil => cases hid
  | cons b below after ihb iha =>
    rw [Forest.size, Forest.range'_cons, List.mem_cons, List.mem_append] at hid
    have hself : id ≠ parent → ¬ decide (d.parent? start = some id) = true := by
      intro hne hdec
      rw [decide_eq_true_eq, h.parent?_cons, Option.some.injEq] at hdec
      exact hne hdec.symm
    rw [Forest.size, Forest.range'_cons, List.filter_cons, List.filter_append]
    rcases hid with rfl | hid | hid
    · rw [if_neg (hself (Nat.ne_of_gt hp)), hd.children_cons h,
        h.2.1.filter_parent_eq_heads (Nat.lt_succ_self _),
        h.2.2.filter_parent_eq_nil _ (Nat.ne_of_gt hp) (.inl (by omega)), List.append_nil]
    · have hbounds := List.mem_range'_1.1 hid
      rw [if_neg (hself (by omega)), ihb h.2.1 (Nat.lt_succ_self _) hid,
        h.2.2.filter_parent_eq_nil id (by omega) (.inl (by omega)), List.append_nil]
    · have hbounds := List.mem_range'_1.1 hid
      rw [if_neg (hself (by omega)), iha h.2.2 (by omega) hid,
        h.2.1.filter_parent_eq_nil id (by omega) (.inr (by omega)), List.nil_append]

/-- Among siblings of which `before` have been passed, every node is followed by
the later children of its parent. -/
theorem following_suffix (h : Stands d.nodes parent (f.placed start)) (before : List NodeId)
    (hchildren : d.children parent = before ++ (f.placed start).heads) {id : Nat}
    (hid : id ∈ List.range' start f.size) :
    ∃ p before, d.parent? id = some p ∧ d.children p = before ++ id :: d.following id := by
  induction f generalizing parent start before with
  | nil => cases hid
  | cons b below after ihb iha =>
    rw [Forest.placed, Forest.heads_cons] at hchildren
    rw [Forest.size, Forest.range'_cons, List.mem_cons, List.mem_append] at hid
    rcases hid with rfl | hid | hid
    · exact ⟨parent, before, h.parent?_cons, by rw [hchildren, hd.following_cons h]⟩
    · exact ihb h.2.1 [] (hd.children_cons h) hid
    · exact iha h.2.2 (before ++ [start]) (by simp [hchildren]) hid

end Document.Ordered

end Standing

/-! ### Whole documents -/

namespace Document

section Holds
variable {d : Document} {root : Block} {f : Forest Block} (h : d.Holds root f)
include h

theorem Holds.range_size : List.range d.size = Document.root :: List.range' 1 f.size := by
  rw [h.size, Nat.add_comm, List.range_eq_range', List.range'_succ]
  rfl

theorem Holds.mem_range' {id : Nat} (hid : id < d.size) (h0 : id ≠ Document.root) :
    id ∈ List.range' 1 f.size := by
  rw [h.size] at hid
  exact List.mem_range'_1.2 ⟨Nat.one_le_iff_ne_zero.2 h0, hid⟩

theorem Holds.parent?_root : d.parent? Document.root = none := by
  rw [parent?, h.root]
  rfl

theorem Holds.walks : d.Walks (some Document.root) (List.range d.size) := by
  have hbelow := h.stands.walks
  rw [Forest.map_fst_placed] at hbelow
  have hroot : d.Walks (some Document.root) (Document.root :: (List.range' 1 f.size ++ [])) :=
    .step h.root hbelow .done
  rwa [List.append_nil, ← h.range_size] at hroot

theorem Holds.children_eq_filter (id : NodeId) :
    d.children id = (List.range d.size).filter fun i => d.parent? i = some id := by
  have hroot : ¬ decide (d.parent? Document.root = some id) = true := by
    rw [h.parent?_root]
    exact Bool.false_ne_true
  rw [h.range_size, List.filter_cons, if_neg hroot]
  by_cases h0 : id = Document.root
  · rw [h0, h.children_root]
    exact (h.stands.filter_parent_eq_heads Nat.zero_lt_one).symm
  · by_cases hid : id < d.size
    · exact h.ordered.children_eq_filter h.stands Nat.zero_lt_one (h.mem_range' hid h0)
    · have hle := Nat.le_of_not_lt hid
      rw [children, node?_eq_none_iff.2 hle,
        h.stands.filter_parent_eq_nil id h0 (.inr (h.size ▸ hle))]
      exact chain_none _ _ _

theorem Holds.firstChild?_eq (id : NodeId) : d.firstChild? id = (d.children id).head? := by
  by_cases h0 : id = Document.root
  · rw [h0, h.children_root, firstChild?, h.root]
    rfl
  · by_cases hid : id < d.size
    · have hplaced := h.mem_range' hid h0
      rw [← f.map_fst_placed, List.mem_map] at hplaced
      obtain ⟨x, hx, rfl⟩ := hplaced
      obtain ⟨p, below, after, hcons⟩ := h.stands.exists_cons hx
      have hnode : d.node? x.1 = _ := hcons.1
      rw [h.ordered.children_cons hcons, firstChild?, hnode]
      rfl
    · rw [children, firstChild?, node?_eq_none_iff.2 (Nat.le_of_not_lt hid)]
      exact (congrArg List.head? (chain_none _ _ _)).symm

/-- A link down or along leads to a later node. -/
theorem Holds.lt_of_leads {id next : Nat} (hl : d.Leads id next) :
    id < next ∧ next < d.size := by
  obtain ⟨n, hn, hfirst | hnext⟩ := hl
  · have hchild : next ∈ d.children id := by
      apply List.mem_of_mem_head?
      rw [← h.firstChild?_eq, firstChild?, hn]
      exact hfirst
    rw [h.children_eq_filter, List.mem_filter, List.mem_range, decide_eq_true_eq] at hchild
    obtain ⟨m, hm, hparent⟩ := Option.bind_eq_some_iff.1 hchild.2
    exact ⟨h.ordered.parent hm hparent, hchild.1⟩
  · exact h.ordered.next hn hnext

theorem Holds.preordered : d.Preordered where
  walks_iff ids := ⟨fun hw => hw.unique h.walks, fun heq => heq ▸ h.walks⟩
  children_eq := h.children_eq_filter
  firstChild?_eq := h.firstChild?_eq
  following_suffix id hid h0 := by
    obtain ⟨p, before, hp, hsuffix⟩ := h.ordered.following_suffix h.stands []
      h.children_root (h.mem_range' hid h0)
    exact ⟨p, before, hp, hsuffix⟩
  parent_lt id parent hp := by
    obtain ⟨n, hn, hparent⟩ := Option.bind_eq_some_iff.1 hp
    exact h.ordered.parent hn hparent
  parent?_eq_none_iff id hid := by
    constructor
    · intro hnone
      apply Decidable.byContradiction
      intro h0
      obtain ⟨p, hp, -⟩ := h.stands.exists_parent (h.mem_range' hid h0)
      rw [hnone] at hp
      cases hp
    · intro h0
      rw [h0]
      exact h.parent?_root
  leads_wf := by
    apply Subrelation.wf (r := fun next id : Nat => d.size - next < d.size - id)
    · intro next id hl
      have hlt := h.lt_of_leads hl
      omega
    · exact (measure fun id : Nat => d.size - id).wf
  parent_wf := by
    apply Subrelation.wf (r := fun parent id : Nat => parent < id)
    · intro parent id hp
      obtain ⟨n, hn, hparent⟩ := Option.bind_eq_some_iff.1 hp
      exact h.ordered.parent hn hparent
    · exact Nat.lt_wfRel.wf

end Holds

/-- Every step but a close brings one node. -/
theorem size_run (b : Builder) (steps : List Step) :
    (b.run steps).1.nodes.size = b.nodes.size + steps.countP (· ≠ .close) := by
  induction steps generalizing b with
  | nil => rfl
  | cons s rest ih =>
    have hrun : (b.run (s :: rest)).1 = ((b.step s).1.run rest).1 := rfl
    rw [hrun, ih, List.countP_cons]
    cases s with
    | leaf block => simp [Builder.step]; omega
    | opening block => simp [Builder.step]; omega
    | close => simp [Builder.step]

/-- A built document has the root and a node for every block that a step brought,
in pre-order and rightly linked, whatever the steps. -/
theorem preordered_build (root : Block) (steps : List Step) :
    (build root steps).size = 1 + steps.countP (· ≠ .close) ∧ (build root steps).Preordered :=
  ⟨size_run (Builder.init root) steps, (holds_build root steps).preordered⟩

end Document

end DocOutline
