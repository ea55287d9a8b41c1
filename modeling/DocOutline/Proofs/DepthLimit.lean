import DocOutline.Proofs.Headings
import DocOutline.Proofs.Preorder

/-! Limiting the depth of an outline.

Headings deeper than the limit steer a scan as the others do, so the scans of an
outline with a limit are those of the full one with the deeper headings left out
(`scanChain_eq_filter`), and the outline is the full one pruned
(`outlineBelow_eq_prune`). Pruning takes away what stands below a deeper heading as
well. A heading within the limit is shown just if no heading it hangs under is
deeper (`mem_outline_iff_hangsUnder`). Among its siblings it hangs under broader
ones only; but in a list or a quote it may hang under a deeper one before it, and is
then not shown (`quoted_heading_hidden`). -/
namespace DocOutline

universe u

/-! ### Pruned forests -/

namespace Forest
variable {α : Type u}

theorem prune_grow (p : α → Bool) (below : α → Forest α) (as : List α) :
    (grow below as).prune p = grow (fun a => (below a).prune p) (as.filter p) := by
  induction as with
  | nil => rfl
  | cons a as ih =>
    rw [grow, prune, List.filter_cons]
    split
    · rw [ih, grow]
    · exact ih

/-- Pruning less leaves more. -/
theorem preorder_prune_sublist {p q : α → Bool} (h : ∀ a, p a = true → q a = true)
    (f : Forest α) : (f.prune p).preorder.Sublist (f.prune q).preorder := by
  induction f with
  | nil => exact List.Sublist.refl _
  | cons a below after ihb iha =>
    rw [prune, prune]
    by_cases hp : p a = true
    · rw [if_pos hp, if_pos (h a hp)]
      exact (ihb.append iha).cons_cons a
    · rw [if_neg hp]
      split
      · exact (iha.trans (List.sublist_append_right _ _)).cons a
      · exact iha

theorem prune_true (f : Forest α) : f.prune (fun _ => true) = f := by
  induction f with
  | nil => rfl
  | cons a below after ihb iha => rw [prune, if_pos rfl, ihb, iha]

theorem prune_sublist (p : α → Bool) (f : Forest α) : (f.prune p).preorder.Sublist f.preorder := by
  have h := preorder_prune_sublist (p := p) (fun _ _ => rfl) f
  rwa [prune_true] at h

/-- A label is left if it is accepted and stands below nothing else of the forest
or below a label that is left. -/
theorem mem_prune_iff {f : Forest α} (hnodup : f.preorder.Nodup) (p : α → Bool) {top? : Option α}
    (htop : ∀ a ∈ f.preorder, top? ≠ some a) {parent? : Option α} {x : α}
    (he : (parent?, x) ∈ f.edges top?) :
    x ∈ (f.prune p).preorder ↔
      p x = true ∧ (parent? = top? ∨ ∃ y ∈ (f.prune p).preorder, parent? = some y) := by
  induction f generalizing top? with
  | nil => cases he
  | cons a below after ihb iha =>
    obtain ⟨hnew, hrest⟩ := List.nodup_cons.1 hnodup
    obtain ⟨hnb, hna, hdisjoint⟩ := List.nodup_append.1 hrest
    have hleftb := (prune_sublist p below).subset
    have hlefta := (prune_sublist p after).subset
    simp only [edges, List.mem_cons, List.mem_append, Prod.mk.injEq] at he
    simp only [preorder, List.mem_cons, List.mem_append] at htop hnew
    rcases he with ⟨rfl, rfl⟩ | he | he
    · by_cases hp : p x = true
      · simp [prune, hp, preorder]
      · have hgone : x ∉ (after.prune p).preorder := fun hx => hnew (.inr (hlefta hx))
        simp [prune, hp, hgone]
    · -- What it stands below is `a` or in `below`, so what comes after does not count.
      have hx := mem_preorder_of_mem_edges he
      have hparent := parent_of_mem_edges he
      have hfresh : ∀ b ∈ below.preorder, some a ≠ some b := by
        rintro b hb heq
        exact hnew (.inl (Option.some.inj heq ▸ hb))
      have hin := ihb hnb hfresh he
      by_cases hp : p a = true
      · simp only [prune, hp, if_true, preorder, List.mem_cons, List.mem_append]
        grind
      · simp only [prune, hp]
        grind
    · have hx := mem_preorder_of_mem_edges he
      have hparent := parent_of_mem_edges he
      have hin := iha hna (fun b hb => htop b (.inr (.inr hb))) he
      by_cases hp : p a = true
      · simp only [prune, hp, if_true, preorder, List.mem_cons, List.mem_append]
        grind
      · simp only [prune, hp]
        grind

end Forest

/-! ### Scans with a limit -/

namespace Document
variable (d : Document) (m : UInt8)

theorem le_255 (level : UInt8) : level ≤ 255 := by
  rw [UInt8.le_iff_toNat_le]
  exact Nat.le_of_lt_succ level.toNat_lt

/-- Whether a node is a heading at most as deep as `m`. -/
def isWithin (id : NodeId) : Bool := (d.level? id).any (· ≤ m)

/-- A scan with a limit finds what a scan without one does, but for what is deeper. -/
theorem scanChain_eq_filter {inside full : NodeId → List NodeId}
    (h : ∀ id, inside id = (full id).filter (d.isWithin m)) (bound? peak? : Option UInt8)
    (ids : List NodeId) :
    d.scanChain { maxLevel := m } inside bound? peak? ids =
      (d.scanChain { maxLevel := 255 } full bound? peak? ids).filter (d.isWithin m) := by
  induction ids generalizing peak? with
  | nil => rfl
  | cons id rest ih =>
    cases hk : d.kind? id with
    | none =>
      simp only [scanChain, hk]
      exact ih peak?
    | some kind =>
      cases hl : kind.level? with
      | none =>
        rw [scanChain_cons_of_level?_eq_none hk hl, scanChain_cons_of_level?_eq_none hk hl, ih, h]
        split
        · rw [List.filter_append]
        · rfl
      | some level =>
        have hwithin : d.isWithin m id = decide (level ≤ m) := by
          simp [isWithin, level?, hk, hl]
        rw [scanChain_cons_of_level? hk hl, scanChain_cons_of_level? hk hl]
        simp only [ih, le_255, if_true]
        split
        · rfl
        · split
          · rw [List.filter_cons, hwithin]
            simp
          · rfl

theorem scanInside_eq_filter (depth : Nat) (id : NodeId) :
    d.scanInside { maxLevel := m } depth id =
      (d.scanInside { maxLevel := 255 } depth id).filter (d.isWithin m) := by
  induction depth generalizing id with
  | zero => rfl
  | succ depth ih => exact d.scanChain_eq_filter m ih none none (d.children id)

theorem outlineChildren_eq_filter (id : NodeId) :
    d.outlineChildren { maxLevel := m } id =
      (d.outlineChildren { maxLevel := 255 } id).filter (d.isWithin m) := by
  have hscan : ∀ bound? ids, d.scan { maxLevel := m } bound? ids =
      (d.scan { maxLevel := 255 } bound? ids).filter (d.isWithin m) := fun bound? ids =>
    d.scanChain_eq_filter m (d.scanInside_eq_filter m d.size) bound? none ids
  unfold outlineChildren
  simp only [hscan]
  split
  · rfl
  · rfl
  · split
    · rfl
    · split <;> rfl

/-- Expanding what is left of some headings is pruning their expansion. -/
theorem expand_filter (fuel : Nat) (ids : List NodeId) :
    d.expand { maxLevel := m } fuel (ids.filter (d.isWithin m)) =
      (d.expand { maxLevel := 255 } fuel ids).prune (d.isWithin m) := by
  induction fuel generalizing ids with
  | zero => rfl
  | succ fuel ih =>
    rw [expand, expand, Forest.prune_grow]
    congr 1
    funext id
    rw [outlineChildren_eq_filter, ih]

theorem outlineBelow_eq_prune_isWithin (id : NodeId) :
    d.outlineBelow { maxLevel := m } id =
      (d.outlineBelow { maxLevel := 255 } id).prune (d.isWithin m) := by
  rw [outlineBelow, outlineChildren_eq_filter]
  exact d.expand_filter m d.size _

/-- An outline with a limit is the full one without the deeper headings and what
stands below them, so that a lower limit leaves fewer headings in the same order. -/
theorem outlineBelow_eq_prune (root : Block) (steps : List Step) (id : NodeId) (m : UInt8) :
    (build root steps).outlineBelow { maxLevel := m } id =
        ((build root steps).outlineBelow { maxLevel := 255 } id).prune
          ((build root steps).isWithin m) ∧
      ∀ m', m ≤ m' → ((build root steps).outlineBelow { maxLevel := m } id).preorder.Sublist
        ((build root steps).outlineBelow { maxLevel := m' } id).preorder := by
  refine ⟨outlineBelow_eq_prune_isWithin _ m id, ?_⟩
  intro m' hle
  rw [outlineBelow_eq_prune_isWithin, outlineBelow_eq_prune_isWithin _ m']
  apply Forest.preorder_prune_sublist
  intro i hi
  obtain ⟨level, hl, hlevel⟩ := (Option.any_eq_true _ _).1 hi
  exact (Option.any_eq_true _ _).2
    ⟨level, hl, decide_eq_true (UInt8.le_trans (of_decide_eq_true hlevel) hle)⟩

/-- A deep heading, and after it a quote with a broad one. -/
def quoteAfterDeeper : List Step :=
  [.leaf { kind := .header 3 }, .opening { kind := .blockQuote }, .leaf { kind := .header 1 },
    .close]

theorem outlineBelow_quoteAfterDeeper :
    (1 : UInt8) ≤ 3 ∧
      ((build { kind := .document } quoteAfterDeeper).outlineBelow
          { maxLevel := 1 } root).preorder.Sublist
        ((build { kind := .document } quoteAfterDeeper).outlineBelow
          { maxLevel := 3 } root).preorder :=
  ⟨by decide,
    (outlineBelow_eq_prune { kind := .document } quoteAfterDeeper root 1).2 3 (by decide)⟩

/-! ### Headings that a limit hides -/

/-- A heading hangs under another one, directly or over headings between. -/
def HangsUnder (d : Document) : NodeId → NodeId → Prop :=
  Relation.TransGen fun id parent => d.outlineParent? id = some parent

section Holds
variable {d : Document} {root : Block} {f : Forest Block} (h : d.Holds root f)
  (hroot : root.kind = .document)
include h hroot

theorem Holds.preorder_full : (d.outline { maxLevel := 255 }).preorder = d.visible :=
  h.preorder_outline hroot fun _ _ level _ => le_255 level

theorem Holds.edges_full :
    (d.outline { maxLevel := 255 }).edges none =
      d.visible.map fun id => (d.outlineParent? id, id) :=
  h.edges_outline hroot fun _ _ level _ => le_255 level

/-- A heading hangs under a visible heading before it. -/
theorem Holds.outlineParent?_spec {id parent : Nat} (hid : id ∈ d.visible)
    (hparent : d.outlineParent? id = some parent) : parent ∈ d.visible ∧ parent < id := by
  have he : (some parent, id) ∈ (d.outline { maxLevel := 255 }).edges none := by
    rw [h.edges_full hroot, List.mem_map]
    exact ⟨id, hid, by rw [hparent]⟩
  constructor
  · rcases Forest.parent_of_mem_edges he with hnone | ⟨y, hy, hsome⟩
    · cases hnone
    · rw [h.preorder_full hroot] at hy
      exact Option.some.inj hsome ▸ hy
  · apply Forest.lt_of_mem_edges _ _ he
    · rw [h.preorder_full hroot]
      exact List.pairwise_lt_range.filter _
    · rintro t ⟨⟩

/-- A heading is shown if it is within the limit and what it hangs under is shown. -/
theorem Holds.mem_outline_iff {id : NodeId} (hid : id ∈ d.visible) (m : UInt8) :
    id ∈ (d.outline { maxLevel := m }).preorder ↔ d.isWithin m id = true ∧
      ∀ parent, d.outlineParent? id = some parent →
        parent ∈ (d.outline { maxLevel := m }).preorder := by
  have he : (d.outlineParent? id, id) ∈ (d.outline { maxLevel := 255 }).edges none := by
    rw [h.edges_full hroot]
    exact List.mem_map_of_mem hid
  have hnodup : (d.outline { maxLevel := 255 }).preorder.Nodup := by
    rw [h.preorder_full hroot]
    exact List.nodup_range.filter _
  have hprune : d.outline { maxLevel := m } =
      (d.outline { maxLevel := 255 }).prune (d.isWithin m) :=
    d.outlineBelow_eq_prune_isWithin m Document.root
  rw [hprune, Forest.mem_prune_iff hnodup _ (by simp) he]
  cases d.outlineParent? id <;> simp

theorem Holds.mem_visible_of_mem_outline {id : NodeId} {m : UInt8}
    (hid : id ∈ (d.outline { maxLevel := m }).preorder) : id ∈ d.visible := by
  rw [Document.outline, outlineBelow_eq_prune_isWithin] at hid
  rw [← h.preorder_full hroot]
  exact (Forest.prune_sublist _ _).subset hid

/-- A shown heading is within the limit, and what it hangs under is shown. -/
theorem Holds.of_mem_outline {id : NodeId} {m : UInt8}
    (hid : id ∈ (d.outline { maxLevel := m }).preorder) :
    d.isWithin m id = true ∧ ∀ parent, d.outlineParent? id = some parent →
      parent ∈ (d.outline { maxLevel := m }).preorder :=
  (h.mem_outline_iff hroot (h.mem_visible_of_mem_outline hroot hid) m).1 hid

/-- All that a shown heading hangs under is shown. -/
theorem Holds.mem_outline_of_hangsUnder {id above : NodeId} {m : UInt8}
    (hid : id ∈ (d.outline { maxLevel := m }).preorder) (ha : d.HangsUnder id above) :
    above ∈ (d.outline { maxLevel := m }).preorder := by
  induction ha with
  | single hparent => exact (h.of_mem_outline hroot hid).2 _ hparent
  | tail _ hparent ih => exact (h.of_mem_outline hroot ih).2 _ hparent

/-- A heading whose own level and those of all that it hangs under are within the
limit is shown. -/
theorem Holds.mem_outline_of_isWithin {id : Nat} (hid : id ∈ d.visible) {m : UInt8}
    (hm : d.isWithin m id = true)
    (habove : ∀ above, d.HangsUnder id above → d.isWithin m above = true) :
    id ∈ (d.outline { maxLevel := m }).preorder := by
  induction id using Nat.strongRecOn with
  | ind id ih =>
    apply (h.mem_outline_iff hroot hid m).2
    refine ⟨hm, ?_⟩
    intro parent hparent
    obtain ⟨hvisible, hlt⟩ := h.outlineParent?_spec hroot hid hparent
    apply ih parent hlt hvisible (habove parent (.single hparent))
    intro above ha
    exact habove above (.trans (.single hparent) ha)

omit hroot

/-- What a heading directly below the root hangs under stands there too and is broader. -/
theorem Holds.outlineParent?_of_parent_root {id parent : NodeId}
    (hid : d.parent? id = some Document.root) (hparent : d.outlineParent? id = some parent) :
    d.parent? parent = some Document.root ∧
      ∃ l level, d.level? parent = some l ∧ d.level? id = some level ∧ l < level := by
  have hanc : d.ancestors id = [Document.root] := by
    have hchain : _ = Document.root :: d.ancestors Document.root :=
      h.ordered.chain_parent d.root_lt
    rw [h.ancestors_root] at hchain
    rw [ancestors, show (d.node? id).bind Node.parent? = _ from hid]
    exact hchain
  have htop : d.headingBefore? [Document.root] = none := by
    simp [headingBefore?, preceding, h.root]
  unfold outlineParent? at hparent
  split at hparent
  · rename_i s hfind
    obtain rfl := Option.some.inj hparent
    have hlevels := List.find?_some hfind
    obtain ⟨l, hl, hlevel⟩ := (Option.any_eq_true _ _).1 hlevels
    obtain ⟨level, hlevel, hlt⟩ := (Option.any_eq_true _ _).1 hlevel
    have hmem := List.mem_of_find?_eq_some hfind
    have hnode : (d.node? id).bind Node.parent? = some Document.root := hid
    simp only [preceding, hnode, List.mem_reverse] at hmem
    have hchild := (List.takeWhile_sublist _).subset hmem
    rw [h.children_eq_filter, List.mem_filter, decide_eq_true_eq] at hchild
    exact ⟨hchild.2, l, level, hl, hlevel, of_decide_eq_true hlt⟩
  · rw [hanc, htop] at hparent
    cases hparent

/-- A heading directly below the root hangs under broader ones only. -/
theorem Holds.isWithin_of_hangsUnder_of_parent_root {id above : NodeId}
    (hid : d.parent? id = some Document.root) {m : UInt8} (hm : d.isWithin m id = true)
    (ha : d.HangsUnder id above) :
    d.parent? above = some Document.root ∧ d.isWithin m above = true := by
  have hstep : ∀ {i parent : NodeId}, d.parent? i = some Document.root → d.isWithin m i = true →
      d.outlineParent? i = some parent →
        d.parent? parent = some Document.root ∧ d.isWithin m parent = true := by
    intro i parent hi hmi hparent
    obtain ⟨hroot, l, level, hl, hlevel, hlt⟩ := h.outlineParent?_of_parent_root hi hparent
    simp only [isWithin, hlevel, Option.any_some, decide_eq_true_eq] at hmi
    simp only [isWithin, hl, Option.any_some, decide_eq_true_eq]
    exact ⟨hroot, UInt8.le_of_lt (UInt8.lt_of_lt_of_le hlt hmi)⟩
  induction ha with
  | single hparent => exact hstep hid hm hparent
  | tail _ hparent ih => exact hstep ih.1 ih.2 hparent

end Holds

theorem mem_visible_of_isVisible {d : Document} {id : NodeId} (h : d.isVisible id = true) :
    id ∈ d.visible := by
  have hid := lt_size_of_isHeading (Bool.and_eq_true_iff.1 h).1
  exact List.mem_filter.2 ⟨List.mem_range.2 hid, h⟩

/-- A visible heading within the limit is shown just if nothing that it hangs under
is beyond the limit, and so it always is if it stands directly below the root. -/
theorem mem_outline_iff_hangsUnder (root : Block) (steps : List Step) (m : UInt8) (id : NodeId)
    (hroot : root.kind = .document) (hvisible : (build root steps).isVisible id = true)
    (hm : (build root steps).isWithin m id = true) :
    (id ∈ ((build root steps).outline { maxLevel := m }).preorder ↔
        ∀ above, (build root steps).HangsUnder id above →
          (build root steps).isWithin m above = true) ∧
      ((build root steps).parent? id = some Document.root →
        id ∈ ((build root steps).outline { maxLevel := m }).preorder) := by
  have h := holds_build root steps
  have hid := mem_visible_of_isVisible hvisible
  have hshown := fun habove => h.mem_outline_of_isWithin hroot hid hm habove
  refine ⟨⟨?_, hshown⟩, ?_⟩
  · intro hmem above ha
    exact (h.of_mem_outline hroot (h.mem_outline_of_hangsUnder hroot hmem ha)).1
  · intro hparent
    apply hshown
    intro above ha
    exact (h.isWithin_of_hangsUnder_of_parent_root hparent hm ha).2

theorem mem_outline_quoteAfterDeeper :
    (build { kind := .document } quoteAfterDeeper).isVisible 3 = true ∧
      (build { kind := .document } quoteAfterDeeper).isWithin 1 3 = true ∧
      (3 ∈ ((build { kind := .document } quoteAfterDeeper).outline { maxLevel := 1 }).preorder ↔
        ∀ above, (build { kind := .document } quoteAfterDeeper).HangsUnder 3 above →
          (build { kind := .document } quoteAfterDeeper).isWithin 1 above = true) :=
  ⟨by decide, by decide, (mem_outline_iff_hangsUnder _ _ _ _ rfl (by decide) (by decide)).1⟩

/-- A heading within the limit that stands in a quote after one beyond the limit is
not shown. -/
theorem quoted_heading_hidden :
    (build { kind := .document } quoteAfterDeeper).isVisible 3 = true ∧
      (build { kind := .document } quoteAfterDeeper).isWithin 1 3 = true ∧
      3 ∉ ((build { kind := .document } quoteAfterDeeper).outline { maxLevel := 1 }).preorder := by
  decide

end Document

end DocOutline
