import DocOutline.Proofs.Nesting

/-! The outline of a built document, heading by heading.

`Outline/Visible.lean` says without a scan which headings are visible and what
each of them hangs under, by its preceding siblings and those of the containers
around it. Read off a standing forest this is `Forest.hanging`
(`Ordered.hanging_eq`), and an outline that shows every level has just these
edges. So it holds every visible heading once and in document order
(`preorder_outline_eq_visible`), each below its `outlineParent?`
(`edges_outline_eq_outlineParent?`). -/
namespace DocOutline

namespace Document

/-! ### What is said of single nodes -/

section Cons
variable {d : Document} {parent : Nat} {x : NodeId × Block} {below after : Forest (NodeId × Block)}
  (h : Stands d.nodes parent (.cons x below after))
include h

theorem level?_cons : d.level? x.1 = x.2.kind.level? := by
  simp [level?, kind?_cons h]

theorem isContainer_cons : d.isContainer x.1 = x.2.kind.isTransparent := by
  simp [isContainer, kind?_cons h]

end Cons

theorem isHeading_eq_isSome_level? (d : Document) (id : NodeId) :
    d.isHeading id = (d.level? id).isSome := by
  unfold isHeading level?
  cases d.kind? id with
  | none => rfl
  | some k => exact k.isHeader_eq_isSome_level?

/-! ### What an outline holds -/

/-- A scan gives headings only. -/
theorem isHeading_of_mem_scanChain {d : Document} {o : OutlineOptions}
    {inside : NodeId → List NodeId} (hinside : ∀ id, ∀ x ∈ inside id, d.isHeading x = true)
    {bound? peak? : Option UInt8} {ids : List NodeId} {x : NodeId}
    (hx : x ∈ d.scanChain o inside bound? peak? ids) : d.isHeading x = true := by
  induction ids generalizing peak? with
  | nil => cases hx
  | cons id rest ih =>
    cases hk : d.kind? id with
    | none =>
      simp only [scanChain, hk] at hx
      exact ih hx
    | some kind =>
      cases hl : kind.level? with
      | none =>
        rw [scanChain_cons_of_level?_eq_none hk hl] at hx
        split at hx
        · rcases List.mem_append.1 hx with hx | hx
          · exact hinside id x hx
          · exact ih hx
        · exact ih hx
      | some level =>
        rw [scanChain_cons_of_level? hk hl] at hx
        split at hx
        · cases hx
        · split at hx
          · split at hx
            · rcases List.mem_cons.1 hx with rfl | hx
              · rw [isHeading, hk, Kind.eq_header_of_level? hl]
                rfl
              · exact ih hx
            · exact ih hx
          · exact ih hx

theorem isHeading_of_mem_scanInside {d : Document} {o : OutlineOptions} {depth : Nat}
    {id x : NodeId} (hx : x ∈ d.scanInside o depth id) : d.isHeading x = true := by
  induction depth generalizing id x with
  | zero => cases hx
  | succ depth ih => exact isHeading_of_mem_scanChain (fun _ _ hy => ih hy) hx

theorem isHeading_of_mem_outlineChildren {d : Document} {o : OutlineOptions} {id x : NodeId}
    (hx : x ∈ d.outlineChildren o id) : d.isHeading x = true := by
  have hscan : ∀ {bound? : Option UInt8} {ids : List NodeId}, x ∈ d.scan o bound? ids →
      d.isHeading x = true := fun hx =>
    isHeading_of_mem_scanChain (fun _ _ hy => isHeading_of_mem_scanInside hy) hx
  unfold outlineChildren at hx
  split at hx
  · cases hx
  · exact hscan hx
  · split at hx
    · cases hx
    · split at hx <;> exact hscan hx

/-- Every node of an outline is a heading. -/
theorem isHeading_of_mem_outlineBelow {d : Document} {o : OutlineOptions} {id x : NodeId}
    (hx : x ∈ (d.outlineBelow o id).preorder) : d.isHeading x = true := by
  have hexpand : ∀ {fuel : Nat} {id : NodeId},
      x ∈ (d.expand o fuel (d.outlineChildren o id)).preorder → d.isHeading x = true := by
    intro fuel
    induction fuel with
    | zero =>
      intro id hx
      cases hx
    | succ fuel ih =>
      intro id hx
      obtain ⟨child, hchild, rfl | hx⟩ := Forest.mem_preorder_grow.1 hx
      · exact isHeading_of_mem_outlineChildren hchild
      · exact ih hx
  exact hexpand hx

/-! ### Headings with their levels -/

/-- The headings among some nodes, with their levels. -/
def leveled (d : Document) (ids : List NodeId) : List (NodeId × UInt8) :=
  ids.filterMap fun id => (d.level? id).map (id, ·)

theorem leveled_cons (d : Document) (id : NodeId) (ids : List NodeId) :
    d.leveled (id :: ids) = ((d.level? id).map (id, ·)).toList ++ d.leveled ids := by
  rw [leveled, List.filterMap_cons]
  cases d.level? id <;> rfl

theorem find?_leveled (d : Document) (p : UInt8 → Bool) (ids : List NodeId) :
    ((d.leveled ids).find? fun e => p e.2).map Prod.fst =
      ids.find? fun id => (d.level? id).any p := by
  induction ids with
  | nil => rfl
  | cons id ids ih =>
    rw [leveled, List.filterMap_cons, List.find?_cons]
    cases d.level? id with
    | none => exact ih
    | some level =>
      simp only [Option.map_some, Option.any_some]
      cases hp : p level with
      | true => rw [List.find?_cons_of_pos (by exact hp), Option.map_some]
      | false =>
        rw [List.find?_cons_of_neg (by simp [hp])]
        exact ih

theorem head?_leveled (d : Document) (ids : List NodeId) :
    (d.leveled ids).head?.map Prod.fst = ids.find? d.isHeading := by
  induction ids with
  | nil => rfl
  | cons id ids ih =>
    rw [leveled, List.filterMap_cons, List.find?_cons, isHeading_eq_isSome_level?]
    cases d.level? id with
    | none => exact ih
    | some level => rfl

/-- The nearest broader heading among the preceding siblings, or else the
nearest heading before one of the containers around. -/
theorem outlineParent?_eq {d : Document} {id : NodeId} {level : UInt8}
    (hl : d.level? id = some level) :
    d.outlineParent? id =
      (((d.leveled (d.preceding id)).find? (·.2 < level)).map Prod.fst).or
        (d.headingBefore? (d.ancestors id)) := by
  have hfind := d.find?_leveled (· < level) (d.preceding id)
  simp only [outlineParent?, hl, Option.any_some, hfind]
  cases (d.preceding id).find? fun s => (d.level? s).any (· < level) <;> rfl

theorem headingBefore?_cons (d : Document) (id : NodeId) (ids : List NodeId) :
    d.headingBefore? (id :: ids) =
      ((d.leveled (d.preceding id)).head?.map Prod.fst).or (d.headingBefore? ids) := by
  rw [head?_leveled, headingBefore?, List.findSome?_cons]
  cases (d.preceding id).find? d.isHeading <;> rfl

/-! ### Headings of a standing forest -/

/-- The siblings before the first of some trees are those that are no trees of it. -/
theorem preceding_cons {d : Document} {parent : Nat} {x : NodeId × Block}
    {below after : Forest (NodeId × Block)} (h : Stands d.nodes parent (.cons x below after))
    {before : List NodeId} (hchildren : d.children parent = before ++ x.1 :: after.heads)
    (hx : x.1 ∉ before) : d.preceding x.1 = before.reverse := by
  have hnode : d.node? x.1 = _ := h.1
  simp only [preceding, hnode, Option.bind_some, hchildren]
  have hbefore : ∀ i ∈ before, decide (i ≠ x.1) = true := by
    intro i hi
    exact decide_eq_true fun he => hx (he ▸ hi)
  rw [List.takeWhile_append_of_pos hbefore]
  simp

namespace Ordered
variable {d : Document} (hd : d.Ordered) {parent : Nat} {g : Forest (NodeId × Block)}
include hd

/-- Where something around is no container, no heading is visible. -/
theorem isVisible_eq_false (h : Stands d.nodes parent g) (hp : parent < d.size)
    (hclosed : (parent :: d.ancestors parent).all d.isContainer = false)
    {id : NodeId} (hid : id ∈ g.preorder.map Prod.fst) : d.isVisible id = false := by
  induction g generalizing parent with
  | nil => cases hid
  | cons x below after ihb iha =>
    have hanc := hd.ancestors_cons h hp
    rw [Forest.preorder, List.map_cons, List.map_append, List.mem_cons, List.mem_append] at hid
    rcases hid with rfl | hid | hid
    · rw [isVisible, hanc, hclosed, Bool.and_false]
    · have hinside : (x.1 :: d.ancestors x.1).all d.isContainer = false := by
        rw [hanc, List.all_cons, hclosed, Bool.and_false]
      exact ihb h.2.1 (h.lt_size_of_head? rfl) hinside hid
    · exact iha h.2.2 hp hclosed hid

section Cons
variable {x : NodeId × Block} {below after : Forest (NodeId × Block)}
  (h : Stands d.nodes parent (.cons x below after))
include h

/-- In the open just the headings are visible. -/
theorem isVisible_cons (hp : parent < d.size)
    (hopen : (parent :: d.ancestors parent).all d.isContainer = true) :
    d.isVisible x.1 = x.2.kind.level?.isSome := by
  rw [isVisible, hd.ancestors_cons h hp, hopen, Bool.and_true, isHeading_eq_isSome_level?,
    level?_cons h]

/-- Nothing below a node that is no container is visible. -/
theorem filter_isVisible_below (hleaf : x.2.kind.isTransparent = false) :
    (below.preorder.map Prod.fst).filter d.isVisible = [] := by
  have hclosed : (x.1 :: d.ancestors x.1).all d.isContainer = false := by
    rw [List.all_cons, isContainer_cons h, hleaf, Bool.false_and]
  apply List.filter_eq_nil_iff.2
  intro id hid
  rw [hd.isVisible_eq_false h.2.1 (h.lt_size_of_head? rfl) hclosed hid]
  exact Bool.false_ne_true

end Cons

/-- Among siblings of which `before` have been passed, the visible headings hang
where their document says. -/
theorem hanging_eq (h : Stands d.nodes parent g) (hp : parent < d.size)
    (hopen : (parent :: d.ancestors parent).all d.isContainer = true)
    (hnodup : (g.preorder.map Prod.fst).Nodup) (before : List NodeId)
    (hchildren : d.children parent = before ++ g.heads) (hbefore : ∀ id ∈ before, id ∉ g.heads) :
    g.hanging (d.headingBefore? (parent :: d.ancestors parent)) (d.leveled before.reverse) =
      ((g.preorder.map Prod.fst).filter d.isVisible).map fun id => (d.outlineParent? id, id) := by
  induction g generalizing parent before with
  | nil => rfl
  | cons x below after ihb iha =>
    rw [Forest.heads_cons] at hchildren hbefore
    have hx : x.1 ∉ before := fun hmem => hbefore x.1 hmem List.mem_cons_self
    have hprec := preceding_cons h hchildren hx
    have hanc := hd.ancestors_cons h hp
    have hvisible := hd.isVisible_cons h hp hopen
    rw [Forest.preorder, List.map_cons, List.map_append] at hnodup ⊢
    obtain ⟨hnew, hrest⟩ := List.nodup_cons.1 hnodup
    obtain ⟨hnb, hna, -⟩ := List.nodup_append.1 hrest
    have hpassed : ∀ id ∈ before ++ [x.1], id ∉ after.heads := by
      intro id hid hmem
      rcases List.mem_append.1 hid with hid | hid
      · exact hbefore id hid (List.mem_cons_of_mem _ hmem)
      · rw [List.mem_singleton.1 hid] at hmem
        exact hnew (List.mem_append_right _ (after.heads_subset hmem))
    have hafter := iha h.2.2 hp hopen hna (before ++ [x.1]) (by simp [hchildren]) hpassed
    rw [List.reverse_append, List.reverse_singleton, List.singleton_append, leveled_cons,
      level?_cons h] at hafter
    rw [Forest.hanging, List.filter_cons, List.filter_append]
    cases hl : x.2.kind.level? with
    | some level =>
      have hparent := outlineParent?_eq ((level?_cons h).trans hl)
      rw [hprec, hanc] at hparent
      rw [hl, Option.isSome_some] at hvisible
      rw [hl, Option.map_some, Option.toList_some, List.singleton_append] at hafter
      have hleaf : x.2.kind.isTransparent = false := by
        rw [Kind.eq_header_of_level? hl]
        rfl
      rw [hd.filter_isVisible_below h hleaf, List.nil_append, if_pos hvisible, List.map_cons,
        hparent]
      exact congrArg _ hafter
    | none =>
      rw [hl] at hafter
      rw [hl, Option.isSome_none] at hvisible
      rw [hvisible, if_neg Bool.false_ne_true, List.map_append]
      refine congr (congrArg _ ?_) hafter
      cases ht : x.2.kind.isTransparent with
      | false =>
        rw [hd.filter_isVisible_below h ht]
        rfl
      | true =>
        have hinside : (x.1 :: d.ancestors x.1).all d.isContainer = true := by
          rw [hanc, List.all_cons, isContainer_cons h, ht, hopen]
          rfl
        have hin := ihb h.2.1 (h.lt_size_of_head? rfl) hinside hnb [] (hd.children_cons h) (by simp)
        rw [headingBefore?_cons, hprec, hanc] at hin
        exact hin

end Ordered

theorem nodup_placed (f : Forest Block) (start : Nat) :
    ((f.placed start).preorder.map Prod.fst).Nodup := by
  rw [Forest.map_fst_placed]
  exact List.nodup_range'

/-- What bounds the levels of the nodes bounds the levels of a standing forest. -/
theorem level_le_of_stands {d : Document} {parent : NodeId} {g : Forest (NodeId × Block)}
    (h : Stands d.nodes parent g) {level : UInt8}
    (hlevels : ∀ id < d.size, ∀ l ∈ d.level? id, l ≤ level) :
    ∀ x ∈ g.preorder, ∀ l ∈ x.2.kind.level?, l ≤ level := by
  intro x hx l hl
  have hblock : d.block? x.1 = some x.2 := h.block_eq hx
  have hlevel : d.level? x.1 = some l := by simpa [level?, kind?, hblock] using hl
  exact hlevels x.1 (lt_size_of_block? hblock) l hlevel

section Holds
variable {d : Document} {root : Block} {f : Forest Block} (h : d.Holds root f)
include h

/-- The root is not visible, so all that is visible stands in the forest. -/
theorem Holds.visible_eq_filter_placed (hroot : root.kind = .document) :
    d.visible = ((f.placed 1).preorder.map Prod.fst).filter d.isVisible := by
  have hhidden : ¬ d.isVisible Document.root = true := by
    rw [isVisible, isHeading, h.kind?_root, hroot]
    exact Bool.false_ne_true
  rw [visible, h.size, Nat.add_comm, Forest.map_fst_placed, List.range_eq_range', List.range'_succ]
  exact List.filter_cons_of_neg hhidden

variable (hroot : root.kind = .document) {o : OutlineOptions}
  (hlevels : ∀ id < d.size, ∀ level ∈ d.level? id, level ≤ o.maxLevel)
include hroot hlevels

/-- The edges of an outline that shows every level. -/
theorem Holds.edges_outline :
    (d.outline o).edges none = d.visible.map fun id => (d.outlineParent? id, id) := by
  have htop : d.headingBefore? [Document.root] = none := by
    simp [headingBefore?, preceding, h.root]
  have hhanging := h.ordered.hanging_eq h.stands d.root_lt (h.all_isContainer_root hroot)
    (nodup_placed f 1) [] h.children_root (by simp)
  rw [h.ancestors_root, htop] at hhanging
  have hplaced := level_le_of_stands h.stands hlevels
  have hedges := (Forest.edges_outline (f.placed 1) o hplaced none none).1
  rw [Forest.upTo_none] at hedges
  rw [h.outline hroot, hedges, h.visible_eq_filter_placed hroot]
  exact hhanging

theorem Holds.preorder_outline : (d.outline o).preorder = d.visible := by
  rw [← Forest.map_snd_edges _ none, h.edges_outline hroot hlevels, List.map_map]
  exact List.map_id _

end Holds

/-! ### Built documents -/

/-- A list in a quote with headings at every depth, after a heading outside. -/
def quotedList : List Step :=
  [.leaf { kind := .header 1 }, .opening { kind := .blockQuote },
    .opening { kind := .orderedList }, .opening { kind := .listItem },
    .leaf { kind := .header 3 }, .close, .close, .leaf { kind := .header 2 }, .close,
    .leaf { kind := .header 2 }]

/-- An outline that shows every level holds the visible headings, each once and
in document order. -/
theorem preorder_outline_eq_visible (root : Block) (steps : List Step) (o : OutlineOptions)
    (hroot : root.kind = .document)
    (hlevels : ∀ id < (build root steps).size, ∀ level ∈ (build root steps).level? id,
      level ≤ o.maxLevel) :
    ((build root steps).outline o).preorder = (build root steps).visible ∧
      ((build root steps).outline o).preorder.Pairwise (· < ·) := by
  have hpre := (holds_build root steps).preorder_outline hroot hlevels
  refine ⟨hpre, ?_⟩
  rw [hpre]
  exact List.pairwise_lt_range.filter _

theorem preorder_outline_quotedList :
    (build { kind := .document } quotedList).visible = [1, 5, 6, 7] ∧
      ((build { kind := .document } quotedList).outline {}).preorder =
        (build { kind := .document } quotedList).visible ∧
      ((build { kind := .document } quotedList).outline {}).preorder.Pairwise (· < ·) :=
  ⟨by decide, preorder_outline_eq_visible _ _ _ rfl (by decide +kernel)⟩

/-- In an outline that shows every level each visible heading stands below the
one it hangs under, and at the top if it hangs under none. -/
theorem edges_outline_eq_outlineParent? (root : Block) (steps : List Step) (o : OutlineOptions)
    (hroot : root.kind = .document)
    (hlevels : ∀ id < (build root steps).size, ∀ level ∈ (build root steps).level? id,
      level ≤ o.maxLevel) :
    ((build root steps).outline o).edges none =
      (build root steps).visible.map fun id => ((build root steps).outlineParent? id, id) :=
  (holds_build root steps).edges_outline hroot hlevels

theorem edges_outline_quotedList :
    (build { kind := .document } quotedList).outlineParent? 5 = some 1 ∧
      ((build { kind := .document } quotedList).outline {}).edges none =
        (build { kind := .document } quotedList).visible.map fun id =>
          ((build { kind := .document } quotedList).outlineParent? id, id) :=
  ⟨by decide, edges_outline_eq_outlineParent? _ _ _ rfl (by decide +kernel)⟩

end Document

end DocOutline
