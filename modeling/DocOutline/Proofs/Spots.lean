import DocOutline.Proofs.Linked

/-! Trees in their surroundings.

A *spot* of a forest is one of its trees, at any depth, with its position in
pre-order and the trees around it. The spots come in pre-order (`map_position_spots`,
`map_label_spots`), and what is around a spot is a spot itself (`spot_of_mem_around`),
so that a property of a node and of everything around it is a property of one
element of a list. -/
namespace DocOutline

universe u

/-- A tree in a forest. -/
structure Spot (α : Type u) where
  /-- The position of its label in pre-order. -/
  position : Nat
  tree : Branch α
  /-- The trees around it and their positions, the nearest first. -/
  around : List (Nat × Branch α)

namespace Forest
variable {α : Type u}

/-- The spots of a forest that stands inside `around` and whose first label has
position `start`. -/
def spots (start : Nat) (around : List (Nat × Branch α)) : Forest α → List (Spot α)
  | nil => []
  | cons a below after =>
    ⟨start, ⟨a, below⟩, around⟩ ::
      (below.spots (start + 1) ((start, ⟨a, below⟩) :: around) ++
        after.spots (start + 1 + below.size) around)

theorem map_position_spots (f : Forest α) (start : Nat) (around : List (Nat × Branch α)) :
    (f.spots start around).map Spot.position = List.range' start f.size := by
  induction f generalizing start around with
  | nil => rfl
  | cons a below after ihb iha =>
    rw [spots, List.map_cons, List.map_append, ihb, iha, size, range'_cons]

theorem around_subset_of_mem_spots {f : Forest α} {start : Nat} {around : List (Nat × Branch α)}
    {s : Spot α} (hs : s ∈ f.spots start around) : around ⊆ s.around := by
  induction f generalizing start around with
  | nil => cases hs
  | cons a below after ihb iha =>
    rw [spots, List.mem_cons, List.mem_append] at hs
    rcases hs with rfl | hs | hs
    · exact List.Subset.refl _
    · exact fun x hx => ihb hs (List.mem_cons_of_mem _ hx)
    · exact iha hs

/-- What is around a spot, inside the forest, is a spot with less around it. -/
theorem spot_of_mem_around {f : Forest α} {start : Nat} {around : List (Nat × Branch α)}
    {s : Spot α} (hs : s ∈ f.spots start around) {x : Nat × Branch α} (hx : x ∈ s.around) :
    x ∈ around ∨ ∃ p ∈ f.spots start around,
      p.position = x.1 ∧ p.tree = x.2 ∧ p.around ⊆ s.around := by
  induction f generalizing start around with
  | nil => cases hs
  | cons a below after ihb iha =>
    rw [spots, List.mem_cons, List.mem_append] at hs
    rcases hs with rfl | hs | hs
    · exact .inl hx
    · have hsub := around_subset_of_mem_spots hs
      rcases ihb hs with hmem | ⟨p, hp, hpx⟩
      · rcases List.mem_cons.1 hmem with rfl | hmem
        · exact .inr ⟨_, List.mem_cons_self, rfl, rfl, fun y hy => hsub (List.mem_cons_of_mem _ hy)⟩
        · exact .inl hmem
      · exact .inr ⟨p, List.mem_cons_of_mem _ (List.mem_append_left _ hp), hpx⟩
    · rcases iha hs with hmem | ⟨p, hp, hpx⟩
      · exact .inl hmem
      · exact .inr ⟨p, List.mem_cons_of_mem _ (List.mem_append_right _ hp), hpx⟩

end Forest

end DocOutline
