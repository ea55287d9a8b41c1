import Mathlib.Data.List.Perm.Subperm
import DocOutline.Proofs.Scans

/-! Outlines are found by going forward.

The headings below a heading in an outline stand after it and below the same parent
(`Holds.of_mem_outlineChildren`), so from heading to heading an expansion comes to later
and later nodes. Only the first step may go back, from a node that is no heading to those of its
container. So an expansion ends by itself: the bound on its generations is never reached
(`Holds.outlineBelow_eq`), as the bound on the depth of a scan is not (`Holds.scan_eq`) nor that
on the length of a walk over links. An outline is in document order
(`Holds.pairwise_outlineBelow`), so that it holds no heading twice. -/
namespace DocOutline

namespace Document

/-- The next of the nodes that stand in the same node. -/
def nextSibling? (d : Document) (id : NodeId) : Option NodeId :=
  (d.node? id).bind Node.nextSibling?

theorem roots_outlineBelow (d : Document) (o : OutlineOptions) (id : NodeId) :
    (d.outlineBelow o id).roots = d.outlineChildren o id := by
  have hpos : 0 < d.size := d.root_lt
  obtain ⟨fuel, hfuel⟩ : ∃ k, d.size = k + 1 := ⟨d.size - 1, by omega⟩
  rw [outlineBelow, hfuel, expand, Forest.roots_grow]

/-- A limit takes headings out of an outline and moves none. -/
theorem outlineBelow_sublist (d : Document) (o : OutlineOptions) (id : NodeId) :
    (d.outlineBelow o id).preorder.Sublist (d.outlineBelow { maxLevel := 255 } id).preorder := by
  have hprune : d.outlineBelow o id = _ := d.outlineBelow_eq_prune_isWithin o.maxLevel id
  rw [hprune]
  exact Forest.prune_sublist _ _

/-- Where the outline children of a node come from: from nowhere, from all that a container
holds, or from what follows a heading. -/
theorem outlineChildren_cases (d : Document) (id : NodeId) :
    (∀ o, d.outlineChildren o id = []) ∨
      (∃ c, d.isContainer c = true ∧
        ∀ o, d.outlineChildren o id = d.scan o none (d.children c)) ∨
      ∃ level, d.level? id = some level ∧ d.container? id ≠ none ∧
        ∀ o, d.outlineChildren o id = d.scan o (some level) (d.following id) := by
  cases hk : d.kind? id with
  | none => exact .inl fun o => by rw [outlineChildren, hk]
  | some kind =>
    by_cases hdocument : kind = .document
    · subst hdocument
      exact .inr (.inl ⟨id, by rw [isContainer, hk]; rfl, fun o => by rw [outlineChildren, hk]⟩)
    · cases hc : d.container? id with
      | none =>
        left
        intro o
        unfold outlineChildren
        split <;> simp_all
      | some c =>
        cases hl : kind.level? with
        | some level =>
          refine .inr (.inr ⟨level, by simp [level?, hk, hl], by simp, fun o => ?_⟩)
          rw [Kind.eq_header_of_level? hl] at hk
          simp [outlineChildren, hk, hc]
        | none =>
          refine .inr (.inl ⟨c, List.find?_some hc, fun o => ?_⟩)
          cases kind <;> simp_all [outlineChildren]

section Holds
variable {d : Document} {root : Block} {f : Forest Block} (h : d.Holds root f) {id : Nat}
include h

/-! ### Forward -/

theorem Holds.lt_of_inView {x : Nat} (hx : d.InView id x) : id < x := by
  induction hx with
  | child hparent => exact h.preordered.parent_lt _ _ hparent
  | inside hparent _ _ ih => exact Nat.lt_trans (h.preordered.parent_lt _ _ hparent) ih

/-- The siblings after a node come after it and stand in the same node. -/
theorem Holds.of_mem_following {s : Nat} (hs : s ∈ d.following id) :
    id < s ∧ ∃ p, d.parent? id = some p ∧ d.parent? s = some p := by
  have h0 : id ≠ Document.root := by
    rintro rfl
    rw [following, h.root] at hs
    exact absurd hs (by simp)
  have hid : id < d.size := by
    apply Nat.lt_of_not_le
    intro hle
    rw [following, node?_eq_none_iff.2 hle] at hs
    exact absurd hs (by simp)
  obtain ⟨p, before, hp, hchildren⟩ := h.preordered.following_suffix id hid h0
  have hsorted : (d.children p).Pairwise (· < ·) := by
    rw [h.children_eq_filter]
    exact List.pairwise_lt_range.filter _
  have hmem : s ∈ d.children p := by
    rw [hchildren]
    exact List.mem_append_right _ (List.mem_cons_of_mem _ hs)
  rw [hchildren] at hsorted
  exact ⟨(List.pairwise_cons.1 (List.pairwise_append.1 hsorted).2.1).1 s hs, p, hp,
    h.mem_children_iff.1 hmem⟩

/-- What is in the extent of a heading follows it, or is in view of what follows it. -/
theorem Holds.of_mem_extent {level : UInt8} {x : Nat} (hx : x ∈ d.extent id level) :
    ∃ s ∈ d.following id, x = s ∨ d.isContainer s = true ∧ d.InView s x := by
  obtain ⟨s, hs, hx⟩ := List.mem_flatMap.1 hx
  refine ⟨s, (List.takeWhile_sublist _).subset hs, ?_⟩
  unfold visibleAt at hx
  split at hx
  · exact .inl (List.mem_singleton.1 hx)
  · split at hx
    · rename_i hc
      exact .inr ⟨hc, ((h.mem_visibleBelow_iff (lt_size_of_isContainer hc)).1 hx).2⟩
    · cases hx

/-- An outline that shows every level is in document order, whatever node it is started from. -/
theorem Holds.pairwise_full (id : NodeId) :
    (d.outlineBelow { maxLevel := 255 } id).preorder.Pairwise (· < ·) := by
  have hlevels : ∀ id < d.size, ∀ level ∈ d.level? id, level ≤ 255 := fun _ _ level _ => le_255 level
  rcases d.outlineChildren_cases id with hnone | ⟨c, hc, hchildren⟩ | ⟨level, hl, hc, -⟩
  · rw [outlineBelow, hnone, expand_nil]
    exact .nil
  · rw [outlineBelow, hchildren, h.preorder_expand_children hlevels hc]
    exact h.pairwise_visibleBelow (lt_size_of_isContainer hc)
  · obtain ⟨kind, hkind, -⟩ := Option.bind_eq_some_iff.1 hl
    have h0 : id ≠ Document.root := fun he => hc (he ▸ h.container?_root)
    rw [h.preorder_outlineBelow_heading hlevels hl hc]
    exact h.pairwise_extent (lt_size_of_kind? hkind) h0 level

theorem Holds.pairwise_outlineBelow (o : OutlineOptions) (id : NodeId) :
    (d.outlineBelow o id).preorder.Pairwise (· < ·) :=
  (h.pairwise_full id).sublist (d.outlineBelow_sublist o id)

/-- There are no more items than headings. -/
theorem Holds.size_outlineBelow_le (o : OutlineOptions) (id : NodeId) :
    (d.outlineBelow o id).size ≤ (List.range d.size).countP d.isHeading := by
  have hnodup : (d.outlineBelow o id).preorder.Nodup :=
    (h.pairwise_outlineBelow o id).imp fun hlt => Nat.ne_of_lt hlt
  have hsubset : (d.outlineBelow o id).preorder ⊆ (List.range d.size).filter d.isHeading := by
    intro x hx
    have hheading := isHeading_of_mem_outlineBelow hx
    exact List.mem_filter.2 ⟨List.mem_range.2 (lt_size_of_isHeading hheading), hheading⟩
  rw [← Forest.length_preorder, List.countP_eq_length_filter]
  exact (hnodup.subperm hsubset).length_le

/-- What stands directly below a heading in an outline follows it in the document, at or inside
one of the siblings after it. -/
theorem Holds.of_mem_outlineChildren {o : OutlineOptions} {x : Nat}
    (hheading : d.isHeading id = true) (hx : x ∈ d.outlineChildren o id) :
    d.isHeading x = true ∧ id < x ∧
      ∃ p, d.parent? id = some p ∧ d.InView p x ∧
        ∃ s ∈ d.following id, x = s ∨ d.InView s x := by
  refine ⟨isHeading_of_mem_outlineChildren hx, ?_⟩
  have hfull : x ∈ (d.outlineBelow { maxLevel := 255 } id).preorder := by
    apply (d.outlineBelow_sublist o id).subset
    rw [← roots_outlineBelow] at hx
    exact (Forest.roots_sublist _).subset hx
  obtain ⟨level, hl⟩ : ∃ level, d.level? id = some level := by
    rwa [isHeading_eq_isSome_level?, Option.isSome_iff_exists] at hheading
  have hc : d.container? id ≠ none := by
    intro hnone
    obtain ⟨kind, hkind, hlevel⟩ := Option.bind_eq_some_iff.1 hl
    rw [Kind.eq_header_of_level? hlevel] at hkind
    simp [outlineChildren, hkind, hnone] at hx
  rw [h.preorder_outlineBelow_heading (fun _ _ level _ => le_255 level) hl hc] at hfull
  obtain ⟨s, hs, hplace⟩ := h.of_mem_extent hfull
  obtain ⟨hlt, p, hp, hps⟩ := h.of_mem_following hs
  rcases hplace with rfl | ⟨hcontainer, hview⟩
  · exact ⟨hlt, p, hp, .child hps, x, hs, .inl rfl⟩
  · exact ⟨Nat.lt_trans hlt (h.lt_of_inView hview), p, hp, .inside hps hcontainer hview, s, hs,
      .inr hview⟩

/-! ### To the end -/

/-- An expansion does not depend on its bound where the bound is not reached. -/
theorem Holds.expand_congr (o : OutlineOptions) {fuel fuel' : Nat} {ids : List Nat}
    (hids : ∀ x ∈ ids, d.isHeading x = true ∧ d.size ≤ x + fuel ∧ d.size ≤ x + fuel') :
    d.expand o fuel ids = d.expand o fuel' ids := by
  induction fuel generalizing fuel' ids with
  | zero =>
    cases ids with
    | nil => rw [expand_nil, expand_nil]
    | cons x ids =>
      obtain ⟨hheading, hle, -⟩ := hids x List.mem_cons_self
      exact absurd (lt_size_of_isHeading hheading) (Nat.not_lt.2 hle)
  | succ fuel ih =>
    cases ids with
    | nil => rw [expand_nil, expand_nil]
    | cons x ids =>
      obtain ⟨hheading, -, hle⟩ := hids x List.mem_cons_self
      have hlt := lt_size_of_isHeading hheading
      obtain ⟨fuel', rfl⟩ : ∃ k, fuel' = k + 1 := ⟨fuel' - 1, by omega⟩
      apply Forest.grow_congr
      intro y hy
      obtain ⟨hheading, hle, hle'⟩ := hids y hy
      apply ih
      intro z hz
      obtain ⟨hz, hlt, -⟩ := h.of_mem_outlineChildren hheading hz
      exact ⟨hz, by omega, by omega⟩

/-- Below a node stand its outline children, each with its own outline below it. -/
theorem Holds.outlineBelow_eq (o : OutlineOptions) (id : NodeId) :
    d.outlineBelow o id = Forest.grow (d.outlineBelow o) (d.outlineChildren o id) := by
  have hpos : 0 < d.size := d.root_lt
  obtain ⟨fuel, hfuel⟩ : ∃ k, d.size = k + 1 := ⟨d.size - 1, by omega⟩
  have hunfold : d.outlineBelow o id =
      Forest.grow (fun x => d.expand o fuel (d.outlineChildren o x)) (d.outlineChildren o id) := by
    rw [outlineBelow, hfuel, expand]
  rw [hunfold]
  apply Forest.grow_congr
  intro x hx
  -- The node itself may be no heading, but what stands below it is, and so is past the start.
  apply h.expand_congr
  intro y hy
  obtain ⟨hy, hlt, -⟩ := h.of_mem_outlineChildren (isHeading_of_mem_outlineChildren hx) hy
  exact ⟨hy, by omega, by omega⟩

/-- No expansion goes on for ever: after its first step it only goes forward. -/
theorem Holds.outlineChildren_wf (o : OutlineOptions) :
    WellFounded fun child id => child ∈ d.outlineChildren o id := by
  have hheading : ∀ x : Nat, d.isHeading x = true →
      Acc (fun child id => child ∈ d.outlineChildren o id) x := by
    intro x hx
    -- What is left of the document after a heading gets less with every step.
    induction hn : d.size - x using Nat.strongRecOn generalizing x with
    | ind n ih =>
      apply Acc.intro
      intro y hy
      obtain ⟨hy, hlt, -⟩ := h.of_mem_outlineChildren hx hy
      have hsize := lt_size_of_isHeading hy
      exact ih (d.size - y) (by omega) y hy rfl
  exact ⟨fun id => .intro id fun x hx => hheading x (isHeading_of_mem_outlineChildren hx)⟩

theorem Holds.scan_eq (o : OutlineOptions) (bound? : Option UInt8) (ids : List NodeId) :
    d.scan o bound? ids =
      d.scanChain o (fun id => d.scan o none (d.children id)) bound? none ids := by
  rw [h.scan_eq_peaks, scanChain_eq]

/-- The children of a node are the first one and the siblings after it. -/
theorem Holds.children_eq (id : NodeId) :
    d.children id = (d.firstChild? id).elim [] fun first => first :: d.following first := by
  have hchain : d.children id = d.chain Node.nextSibling? d.size (d.firstChild? id) := rfl
  rw [hchain]
  cases hfirst : d.firstChild? id with
  | none => exact chain_none d _ _
  | some first =>
    obtain ⟨n, hn, hlink⟩ := Option.bind_eq_some_iff.1 hfirst
    exact h.ordered.chain_next (h.lt_of_leads ⟨n, hn, .inl hlink⟩).2

/-- The siblings after a node are the next one and those after that. -/
theorem Holds.following_eq (id : NodeId) :
    d.following id = (d.nextSibling? id).elim [] fun next => next :: d.following next := by
  have hchain : d.following id = d.chain Node.nextSibling? d.size (d.nextSibling? id) := rfl
  rw [hchain]
  cases hnext : d.nextSibling? id with
  | none => exact chain_none d _ _
  | some next =>
    obtain ⟨n, hn, hlink⟩ := Option.bind_eq_some_iff.1 hnext
    exact h.ordered.chain_next (h.lt_of_leads ⟨n, hn, .inr hlink⟩).2

/-- The nodes around a node are its parent and those around that. -/
theorem Holds.ancestors_eq (id : NodeId) :
    d.ancestors id = (d.parent? id).elim [] fun parent => parent :: d.ancestors parent := by
  have hchain : d.ancestors id = d.chain Node.parent? d.size (d.parent? id) := rfl
  rw [hchain]
  cases hparent : d.parent? id with
  | none => exact chain_none d _ _
  | some parent =>
    have hlt := h.preordered.parent_lt id parent hparent
    obtain ⟨n, hn, -⟩ := Option.bind_eq_some_iff.1 hparent
    have hid : id < d.size := (Array.getElem?_eq_some_iff.1 hn).1
    exact h.ordered.chain_parent (Nat.lt_trans hlt hid)

end Holds

/-- Walks, scans and outlines go on until nothing is left: each is its first step with the rest
after it, and no bound is in the way. -/
structure Unfolds (d : Document) (o : OutlineOptions) : Prop where
  children_eq : ∀ id,
    d.children id = (d.firstChild? id).elim [] fun first => first :: d.following first
  following_eq : ∀ id,
    d.following id = (d.nextSibling? id).elim [] fun next => next :: d.following next
  ancestors_eq : ∀ id,
    d.ancestors id = (d.parent? id).elim [] fun parent => parent :: d.ancestors parent
  scan_eq : ∀ bound? ids, d.scan o bound? ids =
    d.scanChain o (fun id => d.scan o none (d.children id)) bound? none ids
  outlineBelow_eq : ∀ id,
    d.outlineBelow o id = Forest.grow (d.outlineBelow o) (d.outlineChildren o id)

/-- What walks, scans and outlines come to lies forward in the document. -/
structure GoesForward (d : Document) (o : OutlineOptions) : Prop where
  leads_lt : ∀ id next, d.Leads id next → id < next ∧ next < d.size
  parent_lt : ∀ id parent, d.parent? id = some parent → parent < id
  /-- What a scan goes into next stands later than the container. -/
  children_lt : ∀ id child, child ∈ d.children id → id < child
  /-- No expansion goes on for ever, wherever it starts. -/
  outlineChildren_wf : WellFounded fun child id => child ∈ d.outlineChildren o id
  /-- Below a heading stand later headings of the same parent, at or inside the siblings after it. -/
  heading : ∀ id x, d.isHeading id = true → x ∈ d.outlineChildren o id →
    d.isHeading x = true ∧ id < x ∧
      ∃ p, d.parent? id = some p ∧ d.InView p x ∧
        ∃ s ∈ d.following id, x = s ∨ d.InView s x
  increasing : ∀ id, (d.outlineChildren o id).Pairwise (· < ·)
  /-- An outline is in document order, and so holds no node twice. -/
  ordered : ∀ id, (d.outlineBelow o id).preorder.Pairwise (· < ·)
  size_le : ∀ id, (d.outlineBelow o id).size ≤ (List.range d.size).countP d.isHeading

/-- In a built document every outline, from whatever node and to whatever level, is found by
going forward and comes to its end by itself. -/
theorem goesForward_build (root : Block) (steps : List Step) (o : OutlineOptions) :
    (build root steps).Unfolds o ∧ (build root steps).GoesForward o := by
  have h := holds_build root steps
  refine ⟨⟨h.children_eq, h.following_eq, h.ancestors_eq, h.scan_eq o, h.outlineBelow_eq o⟩, ?_⟩
  refine ⟨fun id next => h.lt_of_leads, h.preordered.parent_lt, ?_, h.outlineChildren_wf o,
    fun id x => h.of_mem_outlineChildren, ?_, h.pairwise_outlineBelow o, h.size_outlineBelow_le o⟩
  · intro id child hchild
    exact h.preordered.parent_lt child id (h.mem_children_iff.1 hchild)
  · intro id
    rw [← roots_outlineBelow]
    exact (h.pairwise_outlineBelow o id).sublist (Forest.roots_sublist _)

end Document

end DocOutline
