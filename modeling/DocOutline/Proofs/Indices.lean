import Mathlib.Logic.Relation
import DocOutline.Forest.Edges
import DocOutline.Forest.Numbered
import DocOutline.Proofs.Linked

/-! What the indices of a flat list say of its forest.

Putting its position for every label makes a forest of positions (`indices`). Its
edges are the parents of the rows (`map_parent?_numbered`), and the trees directly
below each position are the children (`map_children_numbered`). In a forest of
distinct labels the edges to a label lead just from the trees below it
(`childrenOf_subtree`), so that both say the same, what descends from a label is
what stands below it (`descends_iff`), and following either from the roots gives
the forest again (`generations_roots`). -/
namespace DocOutline

universe u v

namespace Forest
variable {α : Type u} {β : Type v}

/-! ### Trees of a forest -/

theorem map_label_subtrees (f : Forest α) : f.subtrees.map Branch.label = f.preorder := by
  induction f with
  | nil => rfl
  | cons a below after ihb iha => simp [subtrees, preorder, ihb, iha]

theorem label_mem_of_mem_subtrees {f : Forest α} {b : Branch α} (hb : b ∈ f.subtrees) :
    b.label ∈ f.preorder := by
  rw [← map_label_subtrees]
  exact List.mem_map_of_mem hb

theorem exists_subtree_of_mem {f : Forest α} {a : α} (ha : a ∈ f.preorder) :
    ∃ b ∈ f.subtrees, b.label = a := by
  rw [← map_label_subtrees] at ha
  exact List.mem_map.1 ha

/-- The trees below a tree of a forest are trees of the forest. -/
theorem subtrees_subset {f : Forest α} {b : Branch α} (hb : b ∈ f.subtrees) :
    b.below.subtrees ⊆ f.subtrees := by
  induction f with
  | nil => cases hb
  | cons a below after ihb iha =>
    rw [subtrees, List.mem_cons, List.mem_append] at hb
    intro c hc
    rw [subtrees, List.mem_cons, List.mem_append]
    rcases hb with rfl | hb | hb
    · exact .inr (.inl hc)
    · exact .inr (.inl (ihb hb hc))
    · exact .inr (.inr (iha hb hc))

/-! ### Children read off edges -/

section Children
variable [DecidableEq α]

/-- What stands directly below `parent?`. -/
def childrenOf (edges : List (Option α × α)) (parent? : Option α) : List α :=
  (edges.filter (·.1 = parent?)).map Prod.snd

theorem mem_childrenOf {edges : List (Option α × α)} {parent? : Option α} {x : α} :
    x ∈ childrenOf edges parent? ↔ (parent?, x) ∈ edges := by
  simp [childrenOf]

theorem childrenOf_append (edges later : List (Option α × α)) (parent? : Option α) :
    childrenOf (edges ++ later) parent? = childrenOf edges parent? ++ childrenOf later parent? := by
  simp [childrenOf]

theorem childrenOf_cons_self (parent? : Option α) (x : α) (edges : List (Option α × α)) :
    childrenOf ((parent?, x) :: edges) parent? = x :: childrenOf edges parent? := by
  simp [childrenOf]

theorem childrenOf_cons_of_ne {top? parent? : Option α} (h : top? ≠ parent?) (x : α)
    (edges : List (Option α × α)) :
    childrenOf ((top?, x) :: edges) parent? = childrenOf edges parent? := by
  simp [childrenOf, h]

variable {f : Forest α} {top? parent? : Option α}

/-- Nothing stands below what is neither in the forest nor above it. -/
theorem childrenOf_eq_nil (htop : parent? ≠ top?) (hf : ∀ a ∈ f.preorder, parent? ≠ some a) :
    childrenOf (f.edges top?) parent? = [] := by
  apply List.eq_nil_iff_forall_not_mem.2
  intro x hx
  rcases parent_of_mem_edges (mem_childrenOf.1 hx) with h | ⟨a, ha, h⟩
  · exact htop h
  · exact hf a ha h

/-- The roots stand below what the forest stands below. -/
theorem childrenOf_top (hf : ∀ a ∈ f.preorder, top? ≠ some a) :
    childrenOf (f.edges top?) top? = f.roots := by
  induction f with
  | nil => rfl
  | cons a below after _ iha =>
    simp only [preorder, List.mem_cons, List.mem_append] at hf
    have hbelow : childrenOf (below.edges (some a)) top? = [] :=
      childrenOf_eq_nil (hf a (.inl rfl)) fun x hx => hf x (.inr (.inl hx))
    rw [edges, childrenOf_cons_self, childrenOf_append, hbelow, List.nil_append,
      iha fun x hx => hf x (.inr (.inr hx)), roots]

/-- Where labels are distinct, the trees below a label are what stands below it. -/
theorem childrenOf_subtree (hnodup : f.preorder.Nodup) (hf : ∀ a ∈ f.preorder, top? ≠ some a)
    {b : Branch α} (hb : b ∈ f.subtrees) :
    childrenOf (f.edges top?) (some b.label) = b.below.roots := by
  induction f generalizing top? with
  | nil => cases hb
  | cons a below after ihb iha =>
    obtain ⟨hnew, hrest⟩ := List.nodup_cons.1 hnodup
    obtain ⟨hnb, hna, hdisjoint⟩ := List.nodup_append.1 hrest
    simp only [preorder, List.mem_cons, List.mem_append] at hf hnew
    have hfresh : ∀ x ∈ below.preorder, some a ≠ some x := by
      rintro x hx heq
      exact hnew (.inl (Option.some.inj heq ▸ hx))
    have hlabel : b.label ∈ (cons a below after).preorder := label_mem_of_mem_subtrees hb
    simp only [preorder, List.mem_cons, List.mem_append] at hlabel
    rw [edges, childrenOf_cons_of_ne (hf b.label hlabel), childrenOf_append]
    rw [subtrees, List.mem_cons, List.mem_append] at hb
    have hafter : b = ⟨a, below⟩ ∨ b ∈ below.subtrees →
        childrenOf (after.edges top?) (some b.label) = [] := by
      intro hb
      apply childrenOf_eq_nil (hf b.label hlabel).symm
      rintro x hx heq
      obtain rfl : b.label = x := Option.some.inj heq
      rcases hb with rfl | hb
      · exact hnew (.inr hx)
      · exact hdisjoint b.label (label_mem_of_mem_subtrees hb) b.label hx rfl
    rcases hb with rfl | hb | hb
    · rw [hafter (.inl rfl), List.append_nil]
      exact childrenOf_top hfresh
    · rw [hafter (.inr hb), List.append_nil]
      exact ihb hnb hfresh hb
    · have hbelow : childrenOf (below.edges (some a)) (some b.label) = [] := by
        have hmem := label_mem_of_mem_subtrees hb
        apply childrenOf_eq_nil
        · intro heq
          exact hnew (.inr (Option.some.inj heq ▸ hmem))
        · rintro x hx heq
          exact hdisjoint x hx b.label hmem (Option.some.inj heq).symm
      rw [hbelow, List.nil_append]
      exact iha hna (fun x hx => hf x (.inr (.inr hx))) hb

end Children

/-! ### Descent -/

/-- One label stands below another one, directly or with others between. -/
def Descends (edges : List (Option α × α)) : α → α → Prop :=
  Relation.TransGen fun x parent => (some parent, x) ∈ edges

/-- Every label descends from what its forest stands below. -/
theorem descends_of_mem {f : Forest α} {edges : List (Option α × α)} {top x : α}
    (hedges : f.edges (some top) ⊆ edges) (hx : x ∈ f.preorder) : Descends edges x top := by
  induction f generalizing top with
  | nil => cases hx
  | cons a below after ihb iha =>
    have hroot : Descends edges a top := .single (hedges List.mem_cons_self)
    rw [preorder, List.mem_cons, List.mem_append] at hx
    rcases hx with rfl | hx | hx
    · exact hroot
    · have hbelow := ihb (fun e he => hedges (List.mem_cons_of_mem _ (List.mem_append_left _ he))) hx
      exact hbelow.trans hroot
    · exact iha (fun e he => hedges (List.mem_cons_of_mem _ (List.mem_append_right _ he))) hx

/-- The edges below a tree of a forest are edges of the forest. -/
theorem edges_subset {f : Forest α} {b : Branch α} (hb : b ∈ f.subtrees) (top? : Option α) :
    b.below.edges (some b.label) ⊆ f.edges top? := by
  induction f generalizing top? with
  | nil => cases hb
  | cons a below after ihb iha =>
    rw [subtrees, List.mem_cons, List.mem_append] at hb
    intro e he
    rw [edges, List.mem_cons, List.mem_append]
    rcases hb with rfl | hb | hb
    · exact .inr (.inl he)
    · exact .inr (.inl (ihb hb (some a) he))
    · exact .inr (.inr (iha hb top? he))

/-- What descends from a label is what stands below it. -/
theorem descends_iff [DecidableEq α] {f : Forest α} (hnodup : f.preorder.Nodup)
    {b : Branch α} (hb : b ∈ f.subtrees) {x : α} :
    Descends (f.edges none) x b.label ↔ x ∈ b.below.preorder := by
  have hchild : ∀ {c : Branch α} {y : α}, c ∈ f.subtrees → (some c.label, y) ∈ f.edges none →
      y ∈ c.below.roots := by
    intro c y hc hy
    have hroots : childrenOf (f.edges none) (some c.label) = c.below.roots :=
      childrenOf_subtree hnodup (by simp) hc
    rw [← hroots]
    exact mem_childrenOf.2 hy
  constructor
  · intro h
    induction h using Relation.TransGen.head_induction_on with
    | single hy => exact (roots_sublist _).subset (hchild hb hy)
    | head hy _ ih =>
      obtain ⟨c, hc, rfl⟩ := exists_subtree_of_mem ih
      have hroot := (roots_sublist _).subset (hchild (subtrees_subset hb hc) hy)
      obtain ⟨e, he, rfl⟩ := exists_subtree_of_mem hroot
      exact label_mem_of_mem_subtrees (subtrees_subset hc he)
  · exact descends_of_mem (edges_subset hb none)

/-! ### Forests grown again -/

/-- The forest with the given roots in which `next` says what stands directly below
each label, in at most `fuel` generations. -/
def generations (next : α → List α) : Nat → List α → Forest α
  | 0, _ => nil
  | fuel + 1, as => grow (fun a => generations next fuel (next a)) as

/-- A forest grows again from its roots. -/
theorem generations_roots {f : Forest α} {next : α → List α}
    (h : ∀ b ∈ f.subtrees, next b.label = b.below.roots) {fuel : Nat} (hfuel : f.size ≤ fuel) :
    generations next fuel f.roots = f := by
  induction f generalizing fuel with
  | nil => cases fuel <;> rfl
  | cons a below after ihb iha =>
    rw [size] at hfuel
    obtain ⟨fuel, rfl⟩ : ∃ k, fuel = k + 1 := ⟨fuel - 1, by omega⟩
    have hbelow : generations next fuel (next a) = below := by
      rw [h ⟨a, below⟩ List.mem_cons_self]
      exact ihb (fun b hb => h b (List.mem_cons_of_mem _ (List.mem_append_left _ hb))) (by omega)
    have hafter : generations next (fuel + 1) after.roots = after :=
      iha (fun b hb => h b (List.mem_cons_of_mem _ (List.mem_append_right _ hb))) (by omega)
    rw [roots, generations, grow, hbelow]
    exact congrArg _ hafter

/-! ### Forests of positions -/

/-- The positions of the labels, the first at `start`. -/
def indices (start : Nat) (f : Forest α) : Forest Nat := (f.placed start).map Prod.fst

theorem indices_cons (start : Nat) (a : α) (below after : Forest α) :
    (cons a below after).indices start =
      cons start (below.indices (start + 1)) (after.indices (start + 1 + below.size)) := rfl

@[simp] theorem preorder_indices (f : Forest α) (start : Nat) :
    (f.indices start).preorder = List.range' start f.size := by
  rw [indices, preorder_map, map_fst_placed]

theorem map_label_placed (f : Forest α) (start : Nat) : (f.placed start).map Prod.snd = f := by
  induction f generalizing start with
  | nil => rfl
  | cons a below after ihb iha => rw [placed, map, ihb, iha]

/-- The `i`-th label in pre-order has position `i`. -/
theorem fst_eq_of_getElem?_placed {f : Forest α} {i : Nat} {x : Nat × α}
    (h : (f.placed 0).preorder[i]? = some x) : x.1 = i := by
  have hlt : i < f.size := by
    rw [← f.size_placed 0, ← length_preorder]
    exact (List.getElem?_eq_some_iff.1 h).1
  have hfst : ((f.placed 0).preorder.map Prod.fst)[i]? = some x.1 := by
    rw [List.getElem?_map, h, Option.map_some]
  rw [map_fst_placed, List.getElem?_range' hlt, Nat.zero_add, Nat.one_mul] at hfst
  exact (Option.some.inj hfst).symm

/-- A label is found at its place. -/
theorem getElem?_of_mem_placed (f : Forest α) {x : Nat × α} (hx : x ∈ (f.placed 0).preorder) :
    f.preorder[x.1]? = some x.2 := by
  obtain ⟨i, hi⟩ := List.mem_iff_getElem?.1 hx
  rw [fst_eq_of_getElem?_placed hi, ← f.map_snd_placed 0, List.getElem?_map, hi, Option.map_some]

theorem size_indices (f : Forest α) (start : Nat) : (f.indices start).size = f.size := by
  rw [← length_preorder, preorder_indices, List.length_range']

theorem roots_indices (f : Forest α) (start : Nat) :
    (f.indices start).roots = f.positions start := by
  induction f generalizing start with
  | nil => rfl
  | cons a below after _ iha => rw [indices_cons, roots, positions, iha]

/-- The parents of the rows are where the edges come from. -/
theorem map_parent?_numbered (f : Forest α) (start : Nat) (top? : Option Nat) :
    (f.numbered start top?).map Row.parent? = ((f.indices start).edges top?).map Prod.fst := by
  induction f generalizing start top? with
  | nil => rfl
  | cons a below after ihb iha =>
    simp only [numbered, indices_cons, edges, List.map_cons, List.map_append, ihb, iha]

/-- The children of the rows are the trees directly below each position. -/
theorem map_children_numbered (f : Forest α) (start : Nat) (top? : Option Nat) :
    (f.numbered start top?).map Row.children =
      (f.indices start).subtrees.map fun b => b.below.roots := by
  induction f generalizing start top? with
  | nil => rfl
  | cons a below after ihb iha =>
    simp only [numbered, indices_cons, subtrees, List.map_cons, List.map_append, ihb, iha,
      roots_indices]

/-- What stands below a position are the positions right after it. -/
theorem preorder_below_indices {f : Forest α} {start : Nat} {b : Branch Nat}
    (hb : b ∈ (f.indices start).subtrees) :
    b.below.preorder = List.range' (b.label + 1) b.below.size := by
  induction f generalizing start with
  | nil => cases hb
  | cons a below after ihb iha =>
    rw [indices_cons, subtrees, List.mem_cons, List.mem_append] at hb
    rcases hb with rfl | hb | hb
    · rw [preorder_indices, size_indices]
    · exact ihb hb
    · exact iha hb

/-- What stands below a position stays within the positions of the forest. -/
theorem label_add_size_lt {f : Forest α} {start : Nat} {b : Branch Nat}
    (hb : b ∈ (f.indices start).subtrees) : b.label + b.below.size < start + f.size := by
  induction f generalizing start with
  | nil => cases hb
  | cons a below after ihb iha =>
    rw [indices_cons, subtrees, List.mem_cons, List.mem_append] at hb
    rw [size]
    rcases hb with rfl | hb | hb
    · rw [size_indices]
      dsimp only
      omega
    · have := ihb hb
      omega
    · have := iha hb
      omega

/-! ### Lists of parents and of children -/

section Edges
variable {edges : List (Option Nat × Nat)} (h : edges.map Prod.snd = List.range edges.length)
include h

theorem snd_eq_of_getElem? {i : Nat} {e : Option Nat × Nat} (he : edges[i]? = some e) :
    e.2 = i := by
  have hlt : i < edges.length := (List.getElem?_eq_some_iff.1 he).1
  have hsnd : (edges.map Prod.snd)[i]? = some e.2 := by rw [List.getElem?_map, he, Option.map_some]
  rw [h, List.getElem?_range hlt] at hsnd
  exact (Option.some.inj hsnd).symm

/-- Where every label is its own position, the edges are the entries of the list of
parents. -/
theorem mem_iff_getElem?_parents {parent? : Option Nat} {i : Nat} :
    (parent?, i) ∈ edges ↔ (edges.map Prod.fst)[i]? = some parent? := by
  rw [List.getElem?_map, Option.map_eq_some_iff, List.mem_iff_getElem?]
  constructor
  · rintro ⟨k, hk⟩
    obtain rfl : i = k := snd_eq_of_getElem? h hk
    exact ⟨_, hk, rfl⟩
  · rintro ⟨e, he, rfl⟩
    obtain rfl := snd_eq_of_getElem? h he
    exact ⟨e.2, he⟩

theorem childrenOf_eq_filter (parent? : Option Nat) :
    childrenOf edges parent? = (List.range (edges.map Prod.fst).length).filter fun i =>
      (edges.map Prod.fst)[i]? = some parent? := by
  rw [List.length_map, ← h, List.filter_map, childrenOf]
  congr 1
  apply List.filter_congr
  intro e he
  have hparent := (mem_iff_getElem?_parents h).1 he
  simp only [Function.comp_apply, hparent, Option.some.injEq]

end Edges

/-- Every label of a forest of positions is its own position. -/
theorem map_snd_edges_indices (f : Forest α) :
    ((f.indices 0).edges none).map Prod.snd = List.range ((f.indices 0).edges none).length := by
  rw [← List.length_map (f := Prod.snd), map_snd_edges, preorder_indices, List.length_range',
    List.range_eq_range']

theorem nodup_indices (f : Forest α) (start : Nat) : (f.indices start).preorder.Nodup := by
  rw [preorder_indices]
  exact List.nodup_range'

/-- The parents of the rows of a forest. -/
def parents (f : Forest α) : List (Option Nat) := (f.numbered 0 none).map Row.parent?

/-- The children of the rows of a forest. -/
def childLists (f : Forest α) : List (List Nat) := (f.numbered 0 none).map Row.children

section Rows
variable (f : Forest α)

theorem parents_eq : f.parents = ((f.indices 0).edges none).map Prod.fst :=
  f.map_parent?_numbered 0 none

theorem length_parents : f.parents.length = f.size := by simp [parents]

theorem length_childLists : f.childLists.length = f.size := by simp [childLists]

theorem mem_edges_iff {parent? : Option Nat} {i : Nat} :
    (parent?, i) ∈ (f.indices 0).edges none ↔ f.parents[i]? = some parent? := by
  rw [parents_eq]
  exact mem_iff_getElem?_parents f.map_snd_edges_indices

/-- A row comes after its parent. -/
theorem parent_lt {i p : Nat} (h : f.parents[i]? = some (some p)) : p < i := by
  apply lt_of_mem_edges (f := f.indices 0) _ _ (f.mem_edges_iff.2 h)
  · rw [preorder_indices]
    exact List.pairwise_lt_range' 1
  · rintro t ⟨⟩

/-- The positions whose parent is `parent?`. -/
def placesBelow (parents : List (Option Nat)) (parent? : Option Nat) : List Nat :=
  (List.range parents.length).filter fun i => parents[i]? = some parent?

theorem mem_placesBelow {parents : List (Option Nat)} {parent? : Option Nat} {i : Nat} :
    i ∈ placesBelow parents parent? ↔ parents[i]? = some parent? := by
  rw [placesBelow, List.mem_filter, List.mem_range, decide_eq_true_eq, and_iff_right_iff_imp]
  intro h
  exact (List.getElem?_eq_some_iff.1 h).1

theorem childrenOf_indices (parent? : Option Nat) :
    childrenOf ((f.indices 0).edges none) parent? = placesBelow f.parents parent? := by
  rw [childrenOf_eq_filter f.map_snd_edges_indices, ← parents_eq, placesBelow]

theorem placesBelow_none : placesBelow f.parents none = (f.indices 0).roots := by
  rw [← childrenOf_indices]
  exact childrenOf_top (by simp)

theorem placesBelow_label {b : Branch Nat} (hb : b ∈ (f.indices 0).subtrees) :
    placesBelow f.parents (some b.label) = b.below.roots := by
  rw [← childrenOf_indices]
  exact childrenOf_subtree (f.nodup_indices 0) (by simp) hb

/-- At every position stands a tree of the forest of positions. -/
theorem exists_subtree {i : Nat} (hi : i < f.size) :
    ∃ b, (f.indices 0).subtrees[i]? = some b ∧ b.label = i := by
  have hlabels := map_label_subtrees (f.indices 0)
  rw [preorder_indices] at hlabels
  have hlabel : ((f.indices 0).subtrees.map Branch.label)[i]? = some i := by
    rw [hlabels, List.getElem?_range' hi, Nat.zero_add, Nat.one_mul]
  rwa [List.getElem?_map, Option.map_eq_some_iff] at hlabel

/-- The children of a row are the rows whose parent it is, in order. -/
theorem getElem?_childLists {i : Nat} (hi : i < f.size) :
    f.childLists[i]? = some (placesBelow f.parents (some i)) := by
  obtain ⟨b, hb, rfl⟩ := f.exists_subtree hi
  rw [placesBelow_label f (List.mem_of_getElem? hb), childLists, map_children_numbered,
    List.getElem?_map, hb, Option.map_some]

/-- What descends from a row is a run of rows right after it. -/
theorem descends_indices {i : Nat} (hi : i < f.size) :
    ∃ count, i + count < f.size ∧
      ∀ j, Descends ((f.indices 0).edges none) j i ↔ i < j ∧ j ≤ i + count := by
  obtain ⟨b, hb, rfl⟩ := f.exists_subtree hi
  have hmem := List.mem_of_getElem? hb
  have hlt := label_add_size_lt hmem
  rw [Nat.zero_add] at hlt
  refine ⟨b.below.size, hlt, ?_⟩
  intro j
  rw [descends_iff (f.nodup_indices 0) hmem, preorder_below_indices hmem, List.mem_range'_1]
  omega

/-! ### The forest again -/

theorem ofParents_eq_generations (parents : List (Option Nat)) (fuel : Nat) (parent? : Option Nat) :
    ofParents parents fuel parent? =
      generations (fun i => placesBelow parents (some i)) fuel (placesBelow parents parent?) := by
  induction fuel generalizing parent? with
  | zero => rfl
  | succ fuel ih => simp only [ofParents, generations, ih, placesBelow]

theorem ofChildren_eq_generations (children : List (List Nat)) (fuel : Nat) (roots : List Nat) :
    ofChildren children fuel roots =
      generations (fun i => (children[i]?).getD []) fuel roots := by
  induction fuel generalizing roots with
  | zero => rfl
  | succ fuel ih => simp only [ofChildren, generations, ih]

/-- The parents of the rows alone give the forest of positions. -/
theorem ofParents_parents : ofParents f.parents f.size none = f.indices 0 := by
  rw [ofParents_eq_generations, placesBelow_none]
  apply generations_roots
  · intro b hb
    exact f.placesBelow_label hb
  · exact Nat.le_of_eq (f.size_indices 0)

/-- The positions in the lists of children are those that have a parent. -/
theorem any_contains_childLists {i : Nat} :
    f.childLists.any (·.contains i) = true ↔ ∃ p, f.parents[i]? = some (some p) := by
  rw [List.any_eq_true]
  constructor
  · rintro ⟨children, hchildren, hi⟩
    obtain ⟨p, hp⟩ := List.mem_iff_getElem?.1 hchildren
    have hlt : p < f.size := by
      rw [← length_childLists]
      exact (List.getElem?_eq_some_iff.1 hp).1
    rw [f.getElem?_childLists hlt] at hp
    obtain rfl := Option.some.inj hp
    exact ⟨p, mem_placesBelow.1 (List.contains_iff_mem.1 hi)⟩
  · rintro ⟨p, hp⟩
    have hlt : i < f.size := by
      rw [← length_parents]
      exact (List.getElem?_eq_some_iff.1 hp).1
    have hplt := f.parent_lt hp
    exact ⟨_, List.mem_of_getElem? (f.getElem?_childLists (Nat.lt_trans hplt hlt)),
      List.contains_iff_mem.2 (mem_placesBelow.2 hp)⟩

/-- The rows that no list of children holds are the roots. -/
theorem orphans_childLists : orphans f.childLists = (f.indices 0).roots := by
  rw [← placesBelow_none, orphans, placesBelow, length_childLists, length_parents]
  apply List.filter_congr
  intro i hi
  rw [List.mem_range, ← length_parents] at hi
  obtain ⟨parent?, hparent⟩ : ∃ parent?, f.parents[i]? = some parent? :=
    ⟨_, List.getElem?_eq_getElem hi⟩
  have hany := f.any_contains_childLists (i := i)
  cases parent? with
  | none => simpa [hparent] using hany
  | some p => simpa [hparent] using hany

/-- The children of the rows alone give the forest of positions. -/
theorem ofChildren_childLists :
    ofChildren f.childLists f.size (orphans f.childLists) = f.indices 0 := by
  rw [ofChildren_eq_generations, orphans_childLists]
  apply generations_roots
  · intro b hb
    have hlt := label_add_size_lt hb
    rw [f.getElem?_childLists (by omega), Option.getD_some]
    exact f.placesBelow_label hb
  · exact Nat.le_of_eq (f.size_indices 0)

/-- The labels at the positions make up the forest. -/
theorem map_getElem?_indices : (f.indices 0).map (fun i => f.preorder[i]?) = f.map some := by
  have hlabels : ((f.placed 0).map Prod.snd).map some = f.map some :=
    congrArg (map some) (f.map_label_placed 0)
  rw [← hlabels, indices, map_map, map_map]
  exact map_congr fun x hx => f.getElem?_of_mem_placed hx

end Rows

/-! ### Depths -/

/-- So many parents are above a position. -/
inductive Climbs (parents : List (Option Nat)) : Nat → Nat → Prop where
  | top {i : Nat} (h : parents[i]? = some none) : Climbs parents i 0
  | up {i p n : Nat} (h : parents[i]? = some (some p)) (hp : Climbs parents p n) :
      Climbs parents i (n + 1)

theorem Climbs.unique {parents : List (Option Nat)} {i m n : Nat} (hm : Climbs parents i m)
    (hn : Climbs parents i n) : m = n := by
  induction hm generalizing n with
  | top h =>
    cases hn with
    | top => rfl
    | up h' => simp [h] at h'
  | up h _ ih =>
    cases hn with
    | top h' => simp [h] at h'
    | up h' hp' =>
      rw [h, Option.some.injEq, Option.some.injEq] at h'
      subst h'
      rw [ih hp']

/-- The depth of a label is the number of parents above it. -/
theorem climbs_of_mem_depths {f : Forest Nat} {parents : List (Option Nat)} {top? : Option Nat}
    (hedges : ∀ e ∈ f.edges top?, parents[e.2]? = some e.1) {depth : Nat}
    (htop : ∀ i, parents[i]? = some top? → Climbs parents i depth) {x : Nat × Nat}
    (hx : x ∈ f.depths depth) : Climbs parents x.2 x.1 := by
  induction f generalizing top? depth with
  | nil => cases hx
  | cons a below after ihb iha =>
    have hroot : Climbs parents a depth := htop a (hedges (top?, a) List.mem_cons_self)
    rw [depths, List.mem_cons, List.mem_append] at hx
    rcases hx with rfl | hx | hx
    · exact hroot
    · refine ihb (fun e he => hedges e (List.mem_cons_of_mem _ (List.mem_append_left _ he))) ?_ hx
      intro i hi
      exact .up hi hroot
    · exact iha (fun e he => hedges e (List.mem_cons_of_mem _ (List.mem_append_right _ he))) htop hx

/-- The depth of the `i`-th label is the number of parents above the `i`-th row. -/
theorem climbs_of_getElem?_depths (f : Forest α) {i n : Nat} {a : α}
    (h : (f.depths 0)[i]? = some (n, a)) : Climbs f.parents i n := by
  have hlabels := (f.placed 0).depths_map Prod.snd 0
  rw [map_label_placed] at hlabels
  rw [hlabels, List.getElem?_map, Option.map_eq_some_iff] at h
  obtain ⟨⟨depth, x⟩, hx, heq⟩ := h
  obtain ⟨rfl, rfl⟩ := Prod.mk.inj heq
  have hplaced : (f.placed 0).preorder[i]? = some x := by
    rw [← (f.placed 0).map_snd_depths 0, List.getElem?_map, hx, Option.map_some]
  have hmem : (depth, i) ∈ (f.indices 0).depths 0 := by
    rw [indices, depths_map, ← fst_eq_of_getElem?_placed hplaced]
    exact List.mem_map_of_mem (f := fun p : Nat × Nat × α => (p.1, p.2.1)) (List.mem_of_getElem? hx)
  have hedges : ∀ e ∈ (f.indices 0).edges none, f.parents[e.2]? = some e.1 := fun e he =>
    f.mem_edges_iff.1 he
  exact climbs_of_mem_depths hedges (fun j hj => .top hj) hmem

end Forest

end DocOutline
