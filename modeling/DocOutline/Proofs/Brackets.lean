import DocOutline.Proofs.Linked

/-! Built documents read back.

The steps of a build are brackets: an opening step is closed by the close after some balanced
steps (`Step.Balanced`), a close with nothing open is passed over, and what is never closed ends
with the steps (`Step.Spells`). Any steps spell one forest (`Step.spells_iff`), and it is the one
that a built document is read back as, through its links to first children and next siblings
(`Holds.nested_eq`). The positions that the steps gave are the places of their blocks in
pre-order, as the blocks of the forest come in the order of the steps (`Step.Spells.preorder_eq`,
`Step.brought_run`). So a replayed forest is read back as it was. -/
namespace DocOutline

/-! ### Steps as brackets -/

namespace Step

/-- Steps of which every opening one is closed, and every close closes one. -/
inductive Balanced : List Step → Prop where
  | nil : Balanced []
  | leaf {b : Block} {rest : List Step} (h : Balanced rest) : Balanced (leaf b :: rest)
  | enclosed {b : Block} {inside rest : List Step} (hi : Balanced inside) (hr : Balanced rest) :
      Balanced (opening b :: (inside ++ close :: rest))

/-- Some steps spell a forest. -/
inductive Spells : List Step → Forest Block → Prop where
  | nil : Spells [] .nil
  | leaf {b : Block} {rest : List Step} {f : Forest Block} (h : Spells rest f) :
      Spells (leaf b :: rest) (.cons b .nil f)
  /-- A close with nothing open is passed over. -/
  | stray {rest : List Step} {f : Forest Block} (h : Spells rest f) : Spells (close :: rest) f
  /-- An opening step holds what stands up to the close that belongs to it. -/
  | closed {b : Block} {inside rest : List Step} {g f : Forest Block} (hb : Balanced inside)
      (hi : Spells inside g) (hr : Spells rest f) :
      Spells (opening b :: (inside ++ close :: rest)) (.cons b g f)
  /-- If no close belongs to it, it holds all the rest. -/
  | unclosed {b : Block} {rest : List Step} {g : Forest Block}
      (hopen : ∀ inside after, Balanced inside → rest ≠ inside ++ close :: after)
      (h : Spells rest g) : Spells (opening b :: rest) (.cons b g .nil)

/-! ### What steps add, step by step -/

theorem added_opening_of_nil {b : Block} {rest : List Step} (h : (added rest).2 = []) :
    added (opening b :: rest) = (.cons b (added rest).1 .nil, []) := by
  obtain ⟨inside, hinside⟩ : ∃ inside, added rest = (inside, []) := ⟨_, Prod.ext rfl h⟩
  rw [added, hinside]

theorem added_opening_of_cons {b : Block} {rest : List Step} {here : Forest Block}
    {around : List (Forest Block)} (h : (added rest).2 = here :: around) :
    added (opening b :: rest) = (.cons b (added rest).1 here, around) := by
  obtain ⟨inside, hinside⟩ : ∃ inside, added rest = (inside, here :: around) := ⟨_, Prod.ext rfl h⟩
  rw [added, hinside]

/-- Balanced steps add to the innermost open container only. -/
theorem Balanced.added_append {inside : List Step} (h : Balanced inside) (rest : List Step) :
    added (inside ++ rest) = ((added inside).1.append (added rest).1, (added rest).2) ∧
      (added inside).2 = [] := by
  induction h generalizing rest with
  | nil => exact ⟨rfl, rfl⟩
  | leaf _ ih =>
    obtain ⟨happend, hnone⟩ := ih rest
    simp [added, happend, hnone, Forest.append]
  | @enclosed b inside after _ _ ihi ihr =>
    obtain ⟨happend, hnone⟩ := ihr rest
    have hin := (ihi (close :: after)).1
    have hout := (ihi (close :: (after ++ rest))).1
    simp [added, hin, hout, happend, hnone, Forest.append]

/-- If some steps close a container that was open before them, they begin with balanced steps
and that close. -/
theorem exists_balanced_of_added {steps : List Step} {here : Forest Block}
    {around : List (Forest Block)} (h : (added steps).2 = here :: around) :
    ∃ inside rest, Balanced inside ∧ steps = inside ++ close :: rest ∧
      (added rest).2 = around := by
  -- An opening step is followed by its own close before that of the container around it.
  induction hn : steps.length using Nat.strongRecOn generalizing steps here around with
  | ind n ih =>
    subst hn
    cases steps with
    | nil => cases h
    | cons s rest =>
      cases s with
      | leaf b =>
        have hrest : (added rest).2 = here :: around := h
        obtain ⟨inside, after, hb, rfl, haround⟩ := ih rest.length (by simp) hrest rfl
        exact ⟨leaf b :: inside, after, hb.leaf, rfl, haround⟩
      | close =>
        obtain ⟨-, haround⟩ := List.cons.inj h
        exact ⟨[], rest, .nil, rfl, haround⟩
      | opening b =>
        cases hrest : (added rest).2 with
        | nil =>
          rw [added_opening_of_nil hrest] at h
          cases h
        | cons inner outer =>
          rw [added_opening_of_cons hrest] at h
          obtain ⟨inside, after, hb, rfl, houter⟩ := ih rest.length (by simp) hrest rfl
          obtain ⟨inside', after', hb', rfl, haround⟩ :=
            ih after.length (by grind) (houter.trans h) rfl
          exact ⟨opening b :: (inside ++ close :: inside'), after', hb.enclosed hb', by simp, haround⟩

/-! ### What steps spell -/

theorem nested_eq (steps : List Step) :
    nested steps = (added steps).1.append ((added steps).2.foldr Forest.append .nil) := rfl

theorem nested_closed {b : Block} {inside : List Step} (hb : Balanced inside) (rest : List Step) :
    nested (opening b :: (inside ++ close :: rest)) = .cons b (nested inside) (nested rest) := by
  obtain ⟨happend, hnone⟩ := hb.added_append (close :: rest)
  have haround : (added (inside ++ close :: rest)).2 = (added rest).1 :: (added rest).2 := by
    rw [happend]
    rfl
  rw [nested_eq, added_opening_of_cons haround, happend, nested_eq inside, hnone]
  rfl

theorem nested_unclosed {b : Block} {rest : List Step}
    (hopen : ∀ inside after, Balanced inside → rest ≠ inside ++ close :: after) :
    nested (opening b :: rest) = .cons b (nested rest) .nil := by
  have hnone : (added rest).2 = [] := by
    cases hrest : (added rest).2 with
    | nil => rfl
    | cons here around =>
      obtain ⟨inside, after, hb, hsplit, -⟩ := exists_balanced_of_added hrest
      exact absurd hsplit (hopen inside after hb)
  rw [nested_eq, added_opening_of_nil hnone, nested_eq, hnone, List.foldr_nil, Forest.append_nil,
    Forest.append_nil]

theorem Spells.nested_eq {steps : List Step} {f : Forest Block} (h : Spells steps f) :
    nested steps = f := by
  induction h with
  | nil => rfl
  | @leaf b rest _ _ ih =>
    have hleaf : nested (Step.leaf b :: rest) = .cons b .nil (nested rest) := rfl
    rw [hleaf, ih]
  | @stray rest _ _ ih =>
    have hstray : nested (close :: rest) = nested rest := rfl
    rw [hstray, ih]
  | closed hb _ _ ihi ihr => rw [nested_closed hb, ihi, ihr]
  | unclosed hopen _ ih => rw [nested_unclosed hopen, ih]

theorem exists_spells (steps : List Step) : ∃ f, Spells steps f := by
  induction hn : steps.length using Nat.strongRecOn generalizing steps with
  | ind n ih =>
    subst hn
    cases steps with
    | nil => exact ⟨.nil, .nil⟩
    | cons s rest =>
      obtain ⟨f, hf⟩ := ih rest.length (by simp) rest rfl
      cases s with
      | leaf b => exact ⟨_, hf.leaf⟩
      | close => exact ⟨_, hf.stray⟩
      | opening b =>
        by_cases hclosed : ∃ inside after, Balanced inside ∧ rest = inside ++ close :: after
        · obtain ⟨inside, after, hb, rfl⟩ := hclosed
          obtain ⟨g, hg⟩ := ih inside.length (by grind) inside rfl
          obtain ⟨f, hf⟩ := ih after.length (by grind) after rfl
          exact ⟨_, hg.closed hb hf⟩
        · have hopen : ∀ inside after, Balanced inside → rest ≠ inside ++ close :: after :=
            fun inside after hb hsplit => hclosed ⟨inside, after, hb, hsplit⟩
          exact ⟨_, hf.unclosed hopen⟩

/-- Any steps spell one forest. -/
theorem spells_iff {steps : List Step} {f : Forest Block} : Spells steps f ↔ nested steps = f := by
  constructor
  · exact Spells.nested_eq
  · rintro rfl
    obtain ⟨f, hf⟩ := exists_spells steps
    rwa [hf.nested_eq]

/-! ### Blocks and their positions -/

/-- The block that a step brings. -/
def block? : Step → Option Block
  | leaf b => some b
  | opening b => some b
  | close => none

@[simp] theorem block?_leaf (b : Block) : block? (leaf b) = some b := rfl

@[simp] theorem block?_opening (b : Block) : block? (opening b) = some b := rfl

@[simp] theorem block?_close : block? close = none := rfl

/-- The blocks that some steps bring, in their order, each with the position that its step gave. -/
def brought (steps : List Step) (ids : List (Option NodeId)) : List (Block × NodeId) :=
  (steps.zip ids).filterMap fun p => p.1.block?.bind fun b => p.2.map (b, ·)

/-- The blocks of the forest come in the order of the steps. -/
theorem Spells.preorder_eq {steps : List Step} {f : Forest Block} (h : Spells steps f) :
    f.preorder = steps.filterMap block? := by
  induction h with
  | nil => rfl
  | leaf _ ih => simp [Forest.preorder, ih]
  | stray _ ih => simp [ih, List.filterMap_cons]
  | closed _ _ _ ihi ihr => simp [Forest.preorder, ihi, ihr, List.filterMap_cons]
  | unclosed _ _ ih => simp [Forest.preorder, ih]

/-- Every block gets the next position. -/
theorem brought_run (b : Builder) (steps : List Step) :
    brought steps (b.run steps).2 = (steps.filterMap block?).zipIdx b.nodes.size := by
  induction steps generalizing b with
  | nil => rfl
  | cons s rest ih =>
    have hrun : (b.run (s :: rest)).2 = (b.step s).2 :: ((b.step s).1.run rest).2 := rfl
    have hrest := ih (b.step s).1
    unfold brought at hrest ⊢
    rw [hrun, List.zip_cons_cons, List.filterMap_cons, hrest]
    cases s <;> simp [Builder.step, List.filterMap_cons]

end Step

/-! ### Documents read back -/

/-- What stands in a forest is read back through the links. -/
theorem Stands.nestedFrom_eq {d : Document} {parent start : Nat} {f : Forest Block}
    (h : Stands d.nodes parent (f.placed start)) {fuel : Nat} (hfuel : f.size ≤ fuel) :
    d.nestedFrom fuel (f.placed start).heads.head? = f := by
  induction f generalizing parent start fuel with
  | nil => cases fuel <;> rfl
  | cons b below after ihb iha =>
    rw [Forest.size] at hfuel
    obtain ⟨fuel, rfl⟩ : ∃ k, fuel = k + 1 := ⟨fuel - 1, by omega⟩
    have hnode : d.node? start = _ := h.1
    have hbelow : d.nestedFrom fuel (below.placed (start + 1)).heads.head? = below :=
      ihb h.2.1 (by omega)
    have hafter : d.nestedFrom fuel (after.placed (start + 1 + below.size)).heads.head? = after :=
      iha h.2.2 (by omega)
    rw [Forest.placed, Forest.heads_cons, List.head?_cons, Document.nestedFrom, hnode]
    show Forest.cons b (d.nestedFrom fuel _) (d.nestedFrom fuel _) = _
    rw [hbelow, hafter]

namespace Document

theorem Holds.nested_eq {d : Document} {root : Block} {f : Forest Block} (h : d.Holds root f) :
    d.nested = f := by
  rw [nested, h.root, Option.bind_some]
  apply h.stands.nestedFrom_eq
  rw [h.size]
  omega

/-- A built document has its root block and below it the one forest that its steps spell, and
each step gave the place of its block in pre-order. A replayed forest is read back as it was. -/
theorem spells_iff_nested_build (root : Block) (steps : List Step) :
    (build root steps).block? Document.root = some root ∧
      (∀ f, Step.Spells steps f ↔ (build root steps).nested = f) ∧
      (root, Document.root) :: Step.brought steps ((Builder.init root).run steps).2 =
        (root :: (build root steps).nested.preorder).zipIdx ∧
      ∀ f : Forest Block, (build root f.steps).nested = f := by
  have h := holds_build root steps
  refine ⟨by rw [block?, h.root]; rfl, ?_, ?_, ?_⟩
  · intro f
    rw [h.nested_eq]
    exact Step.spells_iff
  · rw [h.nested_eq, (Step.spells_iff.2 rfl).preorder_eq, Step.brought_run]
    rfl
  · intro f
    rw [(holds_build root f.steps).nested_eq, Step.nested_steps]

/-- The stray close is passed over, and the quote that stays open holds the rest. -/
example (root quote heading : Block) :
    (build root [.close, .opening quote, .leaf heading]).nested =
      .cons quote (.cons heading .nil .nil) .nil := by
  cbv

end Document

end DocOutline
