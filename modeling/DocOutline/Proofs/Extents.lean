import Mathlib.Data.List.TakeWhile
import DocOutline.Proofs.Headings
import DocOutline.Proofs.Preorder

/-! What the outline below any node holds.

An outline can be started from every node, also from one that the outline of the
whole document does not come to. What stands below a node is a forest
(`Holds.exists_below`), and so is what follows it (`Holds.exists_after`). An outline that
shows every level holds the headings of such a forest that are in view, up to where its
scope ends (`preorder_expand_scan`): no scan further down runs past that end, and none
leaves a heading out. So below a
heading stands its extent, below a document node all headings in view of it, and
below any other node those in view of its container (`Document.extents_build`). What
is in view is said by `InView`, and `visibleBelow` lists it (`Holds.mem_visibleBelow_iff`). -/
namespace DocOutline

/-! ### Headings in view of a forest -/

namespace Forest

/-- The headings among some siblings, and in the containers among them. -/
def inView : Forest (NodeId × Block) → List NodeId
  | .nil => []
  | .cons x below after =>
    (if x.2.kind.isHeader then [x.1] else if x.2.kind.isTransparent then below.inView else []) ++
      after.inView

/-- The headings in view are those that hang somewhere. -/
theorem map_snd_hanging (g : Forest (NodeId × Block)) (around? : Option NodeId)
    (earlier : List (NodeId × UInt8)) : (g.hanging around? earlier).map Prod.snd = g.inView := by
  induction g generalizing around? earlier with
  | nil => rfl
  | cons x below after ihb iha =>
    rw [hanging, inView, Kind.isHeader_eq_isSome_level?]
    cases x.2.kind.level? with
    | some level => simp [iha]
    | none =>
      cases x.2.kind.isTransparent <;> simp [ihb, iha]

/-- An outline that shows every level holds the headings in view up to its bound. -/
theorem preorder_outline (g : Forest (NodeId × Block)) (o : OutlineOptions)
    (hlevels : ∀ x ∈ g.preorder, ∀ level ∈ x.2.kind.level?, level ≤ o.maxLevel)
    (bound? : Option UInt8) : (g.outline o bound? none).preorder = (g.upTo bound?).inView := by
  rw [← map_snd_edges _ none, (g.edges_outline o hlevels none bound?).1, map_snd_hanging]

theorem inView_sublist (g : Forest (NodeId × Block)) :
    g.inView.Sublist (g.preorder.map Prod.fst) := by
  induction g with
  | nil => exact List.Sublist.refl _
  | cons x below after ihb iha =>
    rw [inView, preorder, List.map_cons, List.map_append]
    split
    · exact (iha.trans (List.sublist_append_right _ _)).cons_cons x.1
    · split
      · exact (ihb.append iha).cons x.1
      · exact (iha.trans (List.sublist_append_right _ _)).cons x.1

theorem upTo_sublist (bound? : Option UInt8) (g : Forest (NodeId × Block)) :
    (g.upTo bound?).preorder.Sublist g.preorder := by
  induction g with
  | nil => exact .slnil
  | cons x below after _ iha =>
    rw [upTo]
    split
    · exact List.nil_sublist _
    · exact (iha.append_left below.preorder).cons_cons x

end Forest

/-! ### The forests below and after a node -/

/-- Every position of a standing forest is the first of some siblings. -/
theorem Stands.exists_placed {nodes : Array Node} {parent start : Nat} {f : Forest Block}
    (h : Stands nodes parent (f.placed start)) (hp : parent < start) {id : Nat}
    (hid : id ∈ List.range' start f.size) :
    ∃ (p : Nat) (b : Block) (below after : Forest Block), p < id ∧
      id + 1 + below.size + after.size ≤ start + f.size ∧
      Stands nodes p ((Forest.cons b below after).placed id) := by
  induction f generalizing parent start with
  | nil => cases hid
  | cons b below after ihb iha =>
    rw [Forest.size, Forest.range'_cons, List.mem_cons, List.mem_append] at hid
    rw [Forest.size]
    rcases hid with rfl | hid | hid
    · exact ⟨parent, b, below, after, hp, by omega, h⟩
    · obtain ⟨p, c, below', after', hlt, hsize, hstands⟩ := ihb h.2.1 (Nat.lt_succ_self _) hid
      exact ⟨p, c, below', after', hlt, by omega, hstands⟩
    · obtain ⟨p, c, below', after', hlt, hsize, hstands⟩ := iha h.2.2 (by omega) hid
      exact ⟨p, c, below', after', hlt, by omega, hstands⟩

namespace Document

/-- The forest `f` is all that stands below a node. -/
structure StandsBelow (d : Document) (id : Nat) (f : Forest Block) : Prop where
  children : d.children id = (f.placed (id + 1)).heads
  stands : Stands d.nodes id (f.placed (id + 1))
  size : id + f.size < d.size

/-- The forest `f` is all that stands after a node below its parent. -/
structure StandsAfter (d : Document) (id parent start : Nat) (f : Forest Block) : Prop where
  ancestors : d.ancestors id = parent :: d.ancestors parent
  parent_lt : parent < d.size
  following : d.following id = (f.placed start).heads
  stands : Stands d.nodes parent (f.placed start)
  size : (f.placed start).size ≤ d.size

section Holds
variable {d : Document} {root : Block} {f : Forest Block} (h : d.Holds root f)
include h

/-- A node other than the root is the first of some siblings. -/
theorem Holds.exists_siblings {id : Nat} (hid : id < d.size) (h0 : id ≠ Document.root) :
    ∃ (p : Nat) (b : Block) (below after : Forest Block), p < d.size ∧
      id + 1 + below.size + after.size ≤ d.size ∧
      Stands d.nodes p ((Forest.cons b below after).placed id) := by
  obtain ⟨p, b, below, after, hp, hsize, hstands⟩ :=
    h.stands.exists_placed Nat.zero_lt_one (h.mem_range' hid h0)
  rw [← h.size] at hsize
  exact ⟨p, b, below, after, Nat.lt_trans hp hid, hsize, hstands⟩

theorem Holds.exists_below {id : Nat} (hid : id < d.size) : ∃ g, d.StandsBelow id g := by
  by_cases h0 : id = Document.root
  · subst h0
    exact ⟨f, h.children_root, h.stands, by rw [h.size]; show 0 + f.size < _; omega⟩
  · obtain ⟨p, b, below, after, -, hsize, hstands⟩ := h.exists_siblings hid h0
    exact ⟨below, h.ordered.children_cons hstands, hstands.2.1, by omega⟩

theorem Holds.exists_after {id : Nat} (hid : id < d.size) (h0 : id ≠ Document.root) :
    ∃ parent start g, d.StandsAfter id parent start g := by
  obtain ⟨p, b, below, after, hp, hsize, hstands⟩ := h.exists_siblings hid h0
  refine ⟨p, id + 1 + below.size, after, h.ordered.ancestors_cons hstands hp, hp,
    h.ordered.following_cons hstands, hstands.2.2, ?_⟩
  rw [Forest.size_placed]
  omega

end Holds

theorem isHeading_cons {d : Document} {parent : NodeId} {x : NodeId × Block}
    {below after : Forest (NodeId × Block)} (h : Stands d.nodes parent (.cons x below after)) :
    d.isHeading x.1 = x.2.kind.isHeader := by
  rw [isHeading, kind?_cons h, Option.any_some]

theorem isHeading_eq_false_of_isContainer {d : Document} {id : NodeId} (h : d.isContainer id = true) :
    d.isHeading id = false := by
  obtain ⟨k, hk, ht⟩ := (Option.any_eq_true _ _).1 h
  rw [isHeading, hk, Option.any_some, Kind.not_isHeader_of_isTransparent ht]

namespace Ordered
variable {d : Document} (hd : d.Ordered) {parent : Nat} {g : Forest (NodeId × Block)}
include hd

/-- A search that goes down far enough finds the headings in view. -/
theorem flatMap_visibleWithin (h : Stands d.nodes parent g) {depth : Nat} (hdepth : g.size ≤ depth) :
    (g.heads.flatMap fun child =>
      if d.isHeading child then [child]
      else if d.isContainer child then d.visibleWithin depth child
      else []) = g.inView := by
  induction g generalizing parent depth with
  | nil => rfl
  | cons x below after ihb iha =>
    rw [Forest.size] at hdepth
    obtain ⟨depth, rfl⟩ : ∃ k, depth = k + 1 := ⟨depth - 1, by omega⟩
    have hbelow : d.visibleWithin (depth + 1) x.1 = below.inView := by
      rw [visibleWithin, hd.children_cons h]
      exact ihb h.2.1 (by omega)
    rw [Forest.heads_cons, List.flatMap_cons, Forest.inView, isHeading_cons h, isContainer_cons h,
      hbelow]
    exact congrArg _ (iha h.2.2 (by omega))

theorem visibleBelow_eq (hchildren : d.children parent = g.heads) (h : Stands d.nodes parent g)
    (hsize : g.size < d.size) : d.visibleBelow parent = g.inView := by
  obtain ⟨depth, hdepth⟩ : ∃ k, d.size = k + 1 := ⟨d.size - 1, by omega⟩
  rw [visibleBelow, hdepth, visibleWithin, hchildren]
  exact hd.flatMap_visibleWithin h (by omega)

/-- The headings at and after a node up to where a scope ends are in view. -/
theorem flatMap_visibleAt (h : Stands d.nodes parent g) (hsize : g.size ≤ d.size)
    (bound? : Option UInt8) :
    (g.heads.takeWhile fun s => !bound?.any (d.endsScope · s)).flatMap d.visibleAt =
      (g.upTo bound?).inView := by
  induction g generalizing parent with
  | nil => rfl
  | cons x below after _ iha =>
    rw [Forest.size] at hsize
    have hbelow := hd.visibleBelow_eq (hd.children_cons h) h.2.1 (by omega)
    have hafter := iha h.2.2 (by omega)
    have hends := d.any_endsScope bound? x.1
    rw [level?_cons h] at hends
    rw [Forest.heads_cons, List.takeWhile_cons, hends, Forest.upTo]
    split
    · rename_i hstop
      rw [if_neg (by simpa using hstop), List.flatMap_cons, Forest.inView, visibleAt,
        isHeading_cons h, isContainer_cons h, hbelow, hafter]
    · rename_i hstop
      rw [if_pos (by simpa using hstop)]
      rfl

/-- What follows a node of a level is in view as far as its scope goes. -/
theorem preorder_expand_scan (h : Stands d.nodes parent g) (hp : parent < d.size)
    (hc : (parent :: d.ancestors parent).any d.isContainer = true) (hsize : g.size ≤ d.size)
    {o : OutlineOptions} (hlevels : ∀ id < d.size, ∀ level ∈ d.level? id, level ≤ o.maxLevel)
    (bound? : Option UInt8) :
    (d.expand o d.size (d.scan o bound? g.heads)).preorder = (g.upTo bound?).inView := by
  rw [hd.scan_heads h o bound? hsize, hd.expand_roots h hp hc hsize o bound? none hsize]
  exact g.preorder_outline o (level_le_of_stands h hlevels) bound?

end Ordered

/-! ### What is in view of a node -/

section StandsBelow
variable {d : Document} {id : Nat} {f : Forest Block} (hf : d.StandsBelow id f)
include hf

theorem StandsBelow.size_lt : (f.placed (id + 1)).size < d.size := by
  have := hf.size
  rw [Forest.size_placed]
  omega

theorem StandsBelow.visibleBelow_eq (hd : d.Ordered) :
    d.visibleBelow id = (f.placed (id + 1)).inView :=
  hd.visibleBelow_eq hf.children hf.stands hf.size_lt

end StandsBelow

section StandsAfter
variable {d : Document} {id parent start : Nat} {f : Forest Block}
  (hf : d.StandsAfter id parent start f)
include hf

theorem StandsAfter.extent_eq (hd : d.Ordered) (level : UInt8) :
    d.extent id level = ((f.placed start).upTo (some level)).inView := by
  rw [extent, hf.following]
  exact hd.flatMap_visibleAt hf.stands hf.size (some level)

end StandsAfter

/-- A node stands below another one with only transparent nodes between. -/
inductive InView (d : Document) : NodeId → NodeId → Prop where
  | child {id x : NodeId} (h : d.parent? x = some id) : InView d id x
  | inside {id c x : NodeId} (h : d.parent? c = some id) (hc : d.isContainer c = true)
      (hx : InView d c x) : InView d id x

section Holds
variable {d : Document} {root : Block} {f : Forest Block} (h : d.Holds root f)
include h

/-- The headings below a node are those at its children. -/
theorem Holds.visibleBelow_eq_flatMap {id : Nat} (hid : id < d.size) :
    d.visibleBelow id = (d.children id).flatMap d.visibleAt := by
  obtain ⟨g, hg⟩ := h.exists_below hid
  have hall := h.ordered.flatMap_visibleAt hg.stands (Nat.le_of_lt hg.size_lt) none
  have hwhole : ((g.placed (id + 1)).heads.takeWhile fun s =>
      !(none : Option UInt8).any (d.endsScope · s)) = (g.placed (id + 1)).heads :=
    List.takeWhile_eq_self_iff.2 fun _ _ => rfl
  rw [hwhole, Forest.upTo_none] at hall
  rw [hg.visibleBelow_eq h.ordered, hg.children, hall]

theorem Holds.mem_children_iff {id c : Nat} : c ∈ d.children id ↔ d.parent? c = some id := by
  rw [h.children_eq_filter, List.mem_filter, List.mem_range, decide_eq_true_eq, and_iff_right_iff_imp]
  intro hp
  apply Nat.lt_of_not_le
  intro hle
  rw [parent?, node?_eq_none_iff.2 hle] at hp
  cases hp

/-- The headings below a node are the headings that are in view of it. -/
theorem Holds.mem_visibleBelow_iff {id : Nat} (hid : id < d.size) {x : NodeId} :
    x ∈ d.visibleBelow id ↔ d.isHeading x = true ∧ d.InView id x := by
  -- Children come later, so the induction is on what is left of the document.
  induction hn : d.size - id using Nat.strongRecOn generalizing id with
  | ind n ih =>
    have hchild : ∀ {c : Nat}, d.parent? c = some id →
        (x ∈ d.visibleBelow c ↔ d.isHeading x = true ∧ d.InView c x) := by
      intro c hc
      have hlt : id < c := h.preordered.parent_lt c id hc
      have hsize : c < d.size := lt_size_of_mem_chain (h.mem_children_iff.2 hc)
      exact ih (d.size - c) (by omega) hsize rfl
    rw [h.visibleBelow_eq_flatMap hid, List.mem_flatMap]
    constructor
    · rintro ⟨c, hc, hx⟩
      have hparent := h.mem_children_iff.1 hc
      unfold visibleAt at hx
      split at hx
      · rename_i hheading
        obtain rfl := List.mem_singleton.1 hx
        exact ⟨hheading, .child hparent⟩
      · split at hx
        · rename_i hcontainer
          obtain ⟨hheading, hview⟩ := (hchild hparent).1 hx
          exact ⟨hheading, .inside hparent hcontainer hview⟩
        · cases hx
    · rintro ⟨hheading, hview⟩
      cases hview with
      | child hparent =>
        refine ⟨x, h.mem_children_iff.2 hparent, ?_⟩
        rw [visibleAt, if_pos hheading]
        exact List.mem_singleton_self x
      | @inside _ c _ hparent hcontainer hview =>
        refine ⟨c, h.mem_children_iff.2 hparent, ?_⟩
        rw [visibleAt, isHeading_eq_false_of_isContainer hcontainer, if_neg Bool.false_ne_true,
          if_pos hcontainer]
        exact (hchild hparent).2 ⟨hheading, hview⟩

theorem Holds.pairwise_visibleBelow {id : Nat} (hid : id < d.size) :
    (d.visibleBelow id).Pairwise (· < ·) := by
  obtain ⟨g, hg⟩ := h.exists_below hid
  rw [hg.visibleBelow_eq h.ordered]
  have hsub := (g.placed (id + 1)).inView_sublist
  rw [Forest.map_fst_placed] at hsub
  exact (List.pairwise_lt_range' 1).sublist hsub

theorem Holds.pairwise_extent {id : Nat} (hid : id < d.size) (h0 : id ≠ Document.root)
    (level : UInt8) : (d.extent id level).Pairwise (· < ·) := by
  obtain ⟨p, start, g, hg⟩ := h.exists_after hid h0
  rw [hg.extent_eq h.ordered]
  have hsub := (Forest.inView_sublist _).trans
    ((Forest.upTo_sublist (some level) (g.placed start)).map Prod.fst)
  rw [Forest.map_fst_placed] at hsub
  exact (List.pairwise_lt_range' 1).sublist hsub

variable {o : OutlineOptions}
  (hlevels : ∀ id < d.size, ∀ level ∈ d.level? id, level ≤ o.maxLevel)
include hlevels

/-- A heading in a container has its extent below it. -/
theorem Holds.preorder_outlineBelow_heading {id : Nat} {level : UInt8}
    (hl : d.level? id = some level) (hc : d.container? id ≠ none) :
    (d.outlineBelow o id).preorder = d.extent id level := by
  obtain ⟨kind, hkind, hlevel⟩ := Option.bind_eq_some_iff.1 hl
  rw [Kind.eq_header_of_level? hlevel] at hkind
  obtain ⟨container, hcontainer⟩ := Option.ne_none_iff_exists'.1 hc
  have h0 : id ≠ Document.root := fun he => hc (he ▸ h.container?_root)
  obtain ⟨p, start, g, hg⟩ := h.exists_after (lt_size_of_kind? hkind) h0
  have hopen : (p :: d.ancestors p).any d.isContainer = true := by
    rw [← hg.ancestors]
    simpa [container?] using hc
  have hchildren : d.outlineChildren o id = d.scan o (some level) (g.placed start).heads := by
    simp only [outlineChildren, hkind, hcontainer, Kind.level?_header, hg.following]
  rw [outlineBelow, hchildren,
    h.ordered.preorder_expand_scan hg.stands hg.parent_lt hopen hg.size hlevels (some level),
    hg.extent_eq h.ordered]

/-- The headings of a container, each expanded, are all that is in view of it. -/
theorem Holds.preorder_expand_children {id : Nat} (hc : d.isContainer id = true) :
    (d.expand o d.size (d.scan o none (d.children id))).preorder = d.visibleBelow id := by
  have hid := lt_size_of_isContainer hc
  obtain ⟨g, hg⟩ := h.exists_below hid
  have hopen : (id :: d.ancestors id).any d.isContainer = true := by
    rw [List.any_cons, hc, Bool.true_or]
  rw [hg.visibleBelow_eq h.ordered, hg.children,
    h.ordered.preorder_expand_scan hg.stands hid hopen (Nat.le_of_lt hg.size_lt) hlevels none,
    Forest.upTo_none]

end Holds

/-! ### Outlines from every node -/

/-- What the outlines of a document hold in pre-order, whatever node they are
started from. -/
structure Extents (d : Document) (o : OutlineOptions) : Prop where
  /-- Below a heading: what follows it among its siblings, up to the next one as broad. -/
  heading : ∀ id level, d.level? id = some level → d.container? id ≠ none →
    (d.outlineBelow o id).preorder = d.extent id level
  document : ∀ id, d.kind? id = some .document →
    (d.outlineBelow o id).preorder = d.visibleBelow id
  /-- Below anything else: what its container holds. -/
  other : ∀ id kind container, d.kind? id = some kind → kind ≠ .document → kind.level? = none →
    d.container? id = some container → (d.outlineBelow o id).preorder = d.visibleBelow container
  outside : ∀ id, d.kind? id ≠ some .document → d.container? id = none →
    (d.outlineBelow o id).preorder = []
  /-- The headings below a node are those in view of it, in document order. -/
  visible : ∀ id < d.size, (d.visibleBelow id).Pairwise (· < ·) ∧
    ∀ x, x ∈ d.visibleBelow id ↔ d.isHeading x = true ∧ d.InView id x

theorem expand_nil (d : Document) (o : OutlineOptions) (fuel : Nat) :
    d.expand o fuel [] = .nil := by
  cases fuel <;> rfl

/-- In a built document an outline that shows every level holds the extent of the
node it is started from. -/
theorem extents_build (root : Block) (steps : List Step) (o : OutlineOptions)
    (hlevels : ∀ id < (build root steps).size, ∀ level ∈ (build root steps).level? id,
      level ≤ o.maxLevel) : Extents (build root steps) o := by
  have h := holds_build root steps
  refine ⟨?_, ?_, ?_, ?_, ?_⟩
  · intro id level hl hc
    exact h.preorder_outlineBelow_heading hlevels hl hc
  · intro id hkind
    have hc : (build root steps).isContainer id = true := by
      rw [isContainer, hkind]
      rfl
    rw [outlineBelow, outlineChildren, hkind]
    exact h.preorder_expand_children hlevels hc
  · intro id kind container hkind hdocument hl hcontainer
    have hchildren : (build root steps).outlineChildren o id =
        (build root steps).scan o none ((build root steps).children container) := by
      cases kind <;> simp_all [outlineChildren]
    rw [outlineBelow, hchildren]
    exact h.preorder_expand_children hlevels (List.find?_some hcontainer)
  · intro id hdocument hcontainer
    have hchildren : (build root steps).outlineChildren o id = [] := by
      unfold outlineChildren
      split <;> simp_all
    rw [outlineBelow, hchildren, expand_nil]
    rfl
  · intro id hid
    exact ⟨h.pairwise_visibleBelow hid, fun x => h.mem_visibleBelow_iff hid⟩

/-- From a heading in a list in a quote, from the quote and from the item. -/
theorem extents_quotedList :
    ((build { kind := .document } quotedList).outlineBelow {} 1).preorder = [5, 6, 7] ∧
      ((build { kind := .document } quotedList).outlineBelow {} 4).preorder = [5] := by
  have h := extents_build { kind := .document } quotedList {} (by decide +kernel)
  exact ⟨h.heading 1 1 (by decide +kernel) (by decide +kernel),
    h.other 4 .listItem 3 (by decide +kernel) (by decide) rfl (by decide +kernel)⟩

end Document

end DocOutline
