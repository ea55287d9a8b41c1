import DocOutline.Proofs.Conversion
import DocOutline.Proofs.Walks
import DocOutline.Markdown

/-! The document of a source text, node by node.

The document of a syntax tree has a root for the root of the tree, whatever the
format makes of it, and then one node for each kept node, in order. Each carries
what the syntax tree says of it, and its parent is the nearest node around it
that is kept (`ofSource_keeps`). -/
namespace DocOutline

/-- In a standing forest the links to parents are the edges of the forest. -/
theorem Stands.parent?_eq {nodes : Array Node} {parent : NodeId} {g : Forest (NodeId × Block)}
    (h : Stands nodes parent g) {e : Option NodeId × NodeId}
    (he : e ∈ (g.map Prod.fst).edges (some parent)) : (nodes[e.2]?).bind Node.parent? = e.1 := by
  induction g generalizing parent with
  | nil => cases he
  | cons x below after ihb iha =>
    rw [Forest.map, Forest.edges, List.mem_cons, List.mem_append] at he
    rcases he with rfl | he | he
    · rw [h.1, Option.bind_some]
    · exact ihb h.2.1 he
    · exact iha h.2.2 he

namespace Document

/-- In a forest with opaque leaves nothing stands below what is no container. -/
theorem Ordered.children_eq_nil {d : Document} (hd : d.Ordered) {parent start : Nat}
    {f : Forest Block} (h : Stands d.nodes parent (f.placed start)) (hf : f.OpaqueLeaves) {id : Nat}
    (hid : id ∈ List.range' start f.size) (hleaf : d.isContainer id = false) :
    d.children id = [] := by
  induction f generalizing parent start with
  | nil => cases hid
  | cons b below after ihb iha =>
    rw [Forest.size, Forest.range'_cons, List.mem_cons, List.mem_append] at hid
    rcases hid with rfl | hid | hid
    · have hb : below = .nil := by
        refine hf.1 ?_
        have hkind := kind?_cons h
        simpa [isContainer, hkind] using hleaf
      have hchildren := hd.children_cons h
      rw [hb] at hchildren
      exact hchildren
    · exact ihb h.2.1 hf.2.1 hid
    · exact iha h.2.2 hf.2.2 hid

theorem Holds.children_eq_nil {d : Document} {root : Block} {f : Forest Block} (h : d.Holds root f)
    (hroot : root.kind = .document) (hf : f.OpaqueLeaves) {id : Nat}
    (hleaf : d.isContainer id = false) : d.children id = [] := by
  by_cases hid : id < d.size
  · have h0 : id ≠ Document.root := by
      intro h0
      rw [h0, h.isContainer_root hroot] at hleaf
      cases hleaf
    rw [h.size] at hid
    exact h.ordered.children_eq_nil h.stands hf
      (List.mem_range'_1.2 ⟨Nat.one_le_iff_ne_zero.2 h0, hid⟩) hleaf
  · rw [children, node?_eq_none_iff.2 (Nat.le_of_not_lt hid)]
    exact chain_none _ _ _

end Document

namespace Format

/-- Whether `parent` is the position in the document of what a kept node stands
below: the nearest node around it that is kept, or the root if none is. -/
def IsHome (fmt : Format) (t : SyntaxTree) (s : Spot SyntaxNode) (parent : NodeId) : Prop :=
  match s.around.find? fun x => fmt.keeps x.2 with
  | none => parent = Document.root
  | some x => ∃ i p, (fmt.kept t)[i]? = some p ∧ p.position = x.1 ∧ parent = i + 1

/-- The position in the document of a kept node, by its position in the syntax tree. -/
def place (fmt : Format) (t : SyntaxTree) (position : Nat) : NodeId :=
  ((fmt.kept t).map Spot.position).idxOf position + 1

variable {fmt : Format} {t : SyntaxTree} {s : Spot SyntaxNode} {i : Nat}

theorem place_eq (hs : (fmt.kept t)[i]? = some s) : fmt.place t s.position = i + 1 := by
  have hnodup : ((fmt.kept t).map Spot.position).Nodup := by
    have hsub : ((fmt.kept t).map Spot.position).Sublist ((t.below.spots 1 []).map Spot.position) :=
      List.filter_sublist.map _
    rw [Forest.map_position_spots] at hsub
    exact hsub.nodup List.nodup_range'
  obtain ⟨hi, rfl⟩ := List.getElem?_eq_some_iff.1 hs
  have hlt : i < ((fmt.kept t).map Spot.position).length := by rwa [List.length_map]
  have hidx := hnodup.idxOf_getElem i hlt
  rw [List.getElem_map] at hidx
  rw [place, hidx]

/-- What a kept node stands below is kept as well. -/
theorem isHome_home (hs : (fmt.kept t)[i]? = some s) :
    fmt.IsHome t s (fmt.home (fmt.place t) s.around) := by
  obtain ⟨hmem, hkept⟩ := List.mem_filter.1 (List.mem_of_getElem? hs)
  unfold IsHome home
  cases hfind : s.around.find? fun x => fmt.keeps x.2 with
  | none => rfl
  | some x =>
    have hx : x ∈ s.around := List.mem_of_find?_eq_some hfind
    have hkeeps : fmt.keeps x.2 = true := by simpa using List.find?_some hfind
    rcases Forest.spot_of_mem_around hmem hx with hnil | ⟨p, hp, hposition, htree, hsub⟩
    · cases hnil
    · have hpkept : fmt.isKept p = true := by
        rw [isKept, Bool.and_eq_true, List.all_eq_true] at hkept ⊢
        exact ⟨htree ▸ hkeeps, fun y hy => hkept.2 y (hsub hy)⟩
      obtain ⟨j, hj⟩ := List.mem_iff_getElem?.1 (List.mem_filter.2 ⟨hp, hpkept⟩)
      refine ⟨j, p, hj, hposition, ?_⟩
      rw [Option.map_some, Option.getD_some, ← hposition]
      exact place_eq hj

theorem map_block?_kept (fmt : Format) (source : String) (t : SyntaxTree) :
    (fmt.kept t).map (fun s => fmt.block? source s.tree) =
      (fmt.forest source t.below).preorder.map some :=
  (fmt.preorder_forest source [] t.below 1 rfl).symm

theorem length_kept (fmt : Format) (source : String) (t : SyntaxTree) :
    (fmt.kept t).length = (fmt.forest source t.below).size :=
  (fmt.size_forest source [] t.below 1 rfl).symm

/-- The kept nodes take the positions after the root. -/
theorem map_place_kept (fmt : Format) (t : SyntaxTree) :
    (fmt.kept t).map (fun s => fmt.place t s.position) = List.range' 1 (fmt.kept t).length := by
  apply List.ext_getElem?
  intro j
  rw [List.getElem?_map]
  cases hj : (fmt.kept t)[j]? with
  | none => simpa using List.getElem?_eq_none_iff.1 hj
  | some p =>
    have hlt := (List.getElem?_eq_some_iff.1 hj).1
    rw [Option.map_some, place_eq hj, List.getElem?_range' hlt, Nat.one_mul, Nat.add_comm]

/-- The links to parents, for each of the kept nodes. -/
theorem edges_kept (fmt : Format) (source : String) (t : SyntaxTree) :
    (((fmt.forest source t.below).placed 1).map Prod.fst).edges (some Document.root) =
      (fmt.kept t).map fun s =>
        (some (fmt.home (fmt.place t) s.around), fmt.place t s.position) := by
  have hplace := fmt.map_place_kept t
  rw [fmt.length_kept source t] at hplace
  exact fmt.edges_forest source [] (fmt.place t) t.below 1 1 rfl hplace

/-- The node of the document that a kept node became. -/
theorem node?_document (source : String) (hs : (fmt.kept t)[i]? = some s) :
    ∃ n, (fmt.document source t).node? (i + 1) = some n ∧
      fmt.block? source s.tree = some n.block ∧
      n.parent? = some (fmt.home (fmt.place t) s.around) := by
  have hstands := (fmt.holds_document source t).stands
  have hedge : (some (fmt.home (fmt.place t) s.around), i + 1) ∈
      (((fmt.forest source t.below).placed 1).map Prod.fst).edges (some Document.root) := by
    rw [edges_kept, List.mem_map]
    exact ⟨s, List.mem_of_getElem? hs, by rw [place_eq hs]⟩
  obtain ⟨n, hn, hparent⟩ := Option.bind_eq_some_iff.1 (hstands.parent?_eq hedge)
  refine ⟨n, hn, ?_, hparent⟩
  have hblock : ((fmt.forest source t.below).preorder.map some)[i]? =
      some (fmt.block? source s.tree) := by
    rw [← map_block?_kept, List.getElem?_map, hs, Option.map_some]
  rw [List.getElem?_map] at hblock
  obtain ⟨b, hb, hbs⟩ := Option.map_eq_some_iff.1 hblock
  have hnode := hstands.block_of_preorder hb
  rw [Nat.add_comm, hn, Option.map_some, Option.some.injEq] at hnode
  rw [← hbs, hnode]

end Format

/-- The document of a source text has a root at its beginning, over the bytes of
the syntax tree, and then a node for every kept node, in order: of the kind that
the format keeps it as, with its title if that is a heading's, where it starts
and over its bytes, and below the nearest node around it that is kept. Only
containers have something below them. -/
theorem Document.ofSource_keeps {parser : Parser} {source : String} {t : SyntaxTree}
    (h : parser source = some t) (fmt : Format) (path : String) :
    ∃ d, ofSource parser fmt path source = .ok d ∧
      d.size = 1 + (fmt.kept t).length ∧
      (∃ n, d.node? Document.root = some n ∧ n.parent? = none ∧
        n.block =
          { kind := .document, title := "", line := 1, column := 0
            start := t.label.startByte, stop := t.label.endByte }) ∧
      (∀ i s, (fmt.kept t)[i]? = some s →
        ∃ n kind parent, d.node? (i + 1) = some n ∧ fmt.shape s.tree = .keep kind ∧
          n.block =
            { kind
              title := if kind.isHeader then fmt.title s.tree source else ""
              line := s.tree.label.row + 1
              column := s.tree.label.column
              start := s.tree.label.startByte
              stop := s.tree.label.endByte } ∧
          n.parent? = some parent ∧ fmt.IsHome t s parent) ∧
      ∀ id, d.isContainer id = false → d.children id = [] := by
  have hd := fmt.holds_document source t
  refine ⟨fmt.document source t, by rw [ofSource, h], ?_, ⟨_, hd.root, rfl, rfl⟩, ?_, ?_⟩
  · rw [hd.size, fmt.length_kept source t]
  · intro i s hs
    obtain ⟨n, hn, hblock, hparent⟩ := Format.node?_document source hs
    rw [Format.block?] at hblock
    cases hshape : fmt.shape s.tree with
    | ignore => simp [hshape] at hblock
    | flatten => simp [hshape] at hblock
    | keep kind =>
      rw [hshape, Option.some.injEq] at hblock
      exact ⟨n, kind, _, hn, rfl, hblock.symm, hparent, Format.isHome_home hs⟩
  · intro id hleaf
    exact hd.children_eq_nil rfl (fmt.opaqueLeaves_forest source t.below) hleaf

/-- A heading and, in a quote after it, another one. -/
def quotedHeading : SyntaxTree where
  label := { kind := "document", startByte := 0, endByte := 11, row := 0, column := 0 }
  below :=
    .cons { kind := "section", startByte := 0, endByte := 11, row := 0, column := 0 }
      (.cons
        { kind := "atx_heading", startByte := 0, endByte := 4, row := 0, column := 0
          content? := some 2 }
        (.cons { kind := "atx_h1_marker", startByte := 0, endByte := 1, row := 0, column := 0 } .nil
          (.cons { kind := "inline", startByte := 2, endByte := 3, row := 0, column := 2 }
            .nil .nil))
        (.cons { kind := "block_quote", startByte := 4, endByte := 11, row := 1, column := 0 }
          (.cons
            { kind := "block_quote_marker", startByte := 4, endByte := 6, row := 1, column := 0 }
            .nil
            (.cons { kind := "section", startByte := 6, endByte := 11, row := 1, column := 2 }
              (.cons
                { kind := "atx_heading", startByte := 6, endByte := 11, row := 1, column := 2
                  content? := some 2 }
                (.cons
                  { kind := "atx_h2_marker", startByte := 6, endByte := 8, row := 1, column := 2 }
                  .nil
                  (.cons { kind := "inline", startByte := 9, endByte := 10, row := 1, column := 5 }
                    .nil .nil))
                .nil)
              .nil))
          .nil))
      .nil

theorem Document.ofSource_quotedHeading :
    (markdown.kept quotedHeading).map Spot.position = [2, 5, 8] ∧
      ∃ d, ofSource (fun _ => some quotedHeading) markdown "a.md" "# A\n> ## B\n" = .ok d ∧
        d.size = 4 ∧ ∃ n, d.node? 3 = some n ∧ n.block.line = 2 ∧ n.block.column = 2 := by
  obtain ⟨d, hd, hsize, -, hkept, -⟩ :=
    @ofSource_keeps (fun _ => some quotedHeading) "# A\n> ## B\n" quotedHeading rfl markdown "a.md"
  have hthird : ((markdown.kept quotedHeading)[2]?).map
      (fun s => (s.tree.label.row, s.tree.label.column)) = some (1, 2) := by decide
  obtain ⟨s, hs, hplace⟩ := Option.map_eq_some_iff.1 hthird
  obtain ⟨n, kind, parent, hn, -, hblock, -⟩ := hkept 2 s hs
  refine ⟨by decide, d, hd, hsize.trans (by decide), n, hn, ?_, ?_⟩
  · rw [hblock]
    exact congrArg (fun x => x.1 + 1) hplace
  · rw [hblock]
    exact congrArg Prod.snd hplace

end DocOutline
