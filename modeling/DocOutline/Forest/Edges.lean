import DocOutline.Forest

/-! Forests as edges: every label with the one that it stands below.

The edges of a forest come in pre-order of their labels (`map_snd_edges`), and a
label stands below another label of the forest or below what the whole forest
stands below (`parent_of_mem_edges`). -/
namespace DocOutline

universe u

namespace Forest
variable {α : Type u}

/-- The labels in pre-order, each with the one it stands below; the trees
themselves stand below `parent?`. -/
def edges (parent? : Option α) : Forest α → List (Option α × α)
  | .nil => []
  | .cons a below after => (parent?, a) :: (below.edges (some a) ++ after.edges parent?)

theorem map_snd_edges (f : Forest α) (parent? : Option α) :
    (f.edges parent?).map Prod.snd = f.preorder := by
  induction f generalizing parent? with
  | nil => rfl
  | cons a below after ihb iha => simp [edges, preorder, ihb, iha]

theorem edges_append (f g : Forest α) (parent? : Option α) :
    (f.append g).edges parent? = f.edges parent? ++ g.edges parent? := by
  induction f with
  | nil => rfl
  | cons a below after _ iha => simp [append, edges, iha]

/-- What a label stands below is in the forest, or what the forest stands below. -/
theorem parent_of_mem_edges {f : Forest α} {top? parent? : Option α} {x : α}
    (he : (parent?, x) ∈ f.edges top?) :
    parent? = top? ∨ ∃ y ∈ f.preorder, parent? = some y := by
  induction f generalizing top? with
  | nil => cases he
  | cons a below after ihb iha =>
    simp only [edges, List.mem_cons, List.mem_append, Prod.mk.injEq] at he
    simp only [preorder, List.mem_cons, List.mem_append]
    rcases he with ⟨rfl, rfl⟩ | he | he
    · exact .inl rfl
    · rcases ihb he with rfl | ⟨y, hy, rfl⟩
      · exact .inr ⟨a, .inl rfl, rfl⟩
      · exact .inr ⟨y, .inr (.inl hy), rfl⟩
    · rcases iha he with rfl | ⟨y, hy, rfl⟩
      · exact .inl rfl
      · exact .inr ⟨y, .inr (.inr hy), rfl⟩

theorem mem_preorder_of_mem_edges {f : Forest α} {top? parent? : Option α} {x : α}
    (he : (parent?, x) ∈ f.edges top?) : x ∈ f.preorder := by
  rw [← map_snd_edges f top?]
  exact List.mem_map_of_mem he

/-- Where labels stand in order, each comes after what it stands below. -/
theorem lt_of_mem_edges {f : Forest Nat} (hsorted : f.preorder.Pairwise (· < ·))
    {top? : Option Nat} (htop : ∀ t ∈ top?, ∀ a ∈ f.preorder, t < a) {parent x : Nat}
    (he : (some parent, x) ∈ f.edges top?) : parent < x := by
  induction f generalizing top? with
  | nil => cases he
  | cons a below after ihb iha =>
    rw [preorder, List.pairwise_cons, List.pairwise_append] at hsorted
    obtain ⟨hfirst, hb, ha, -⟩ := hsorted
    simp only [edges, List.mem_cons, List.mem_append, Prod.mk.injEq] at he
    rcases he with ⟨rfl, rfl⟩ | he | he
    · exact htop parent rfl x List.mem_cons_self
    · apply ihb hb _ he
      rintro t ht y hy
      obtain rfl : a = t := Option.some.inj ht
      exact hfirst y (List.mem_append_left _ hy)
    · apply iha ha _ he
      intro t ht y hy
      exact htop t ht y (List.mem_cons_of_mem _ (List.mem_append_right _ hy))

end Forest

end DocOutline
