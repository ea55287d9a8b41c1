/-! Ordered forests: what outlines, entries, directories and grammar trees have in common.

A forest is empty or a first tree, given by its label and the forest below it,
followed by the trees after it. Its views are the labels in pre-order
(`preorder`), the same with their depth (`depths`), and the list of its trees
(`branches`), from which it is made again (`ofBranches_branches`). `keep` holds
on to what is accepted together with its ancestors; `prune` cuts off what is not
accepted together with its descendants. -/
namespace DocOutline

universe u v w

inductive Forest (α : Type u) where
  | nil
  | cons (label : α) (below after : Forest α)
  deriving DecidableEq, Repr, Inhabited

/-- One tree of a forest. -/
structure Branch (α : Type u) where
  label : α
  below : Forest α
  deriving DecidableEq, Repr

namespace Forest
variable {α : Type u} {β : Type v}

def isEmpty : Forest α → Bool
  | nil => true
  | cons _ _ _ => false

def size : Forest α → Nat
  | nil => 0
  | cons _ below after => 1 + below.size + after.size

/-- The labels of the trees themselves, without what is below. -/
def roots : Forest α → List α
  | nil => []
  | cons a _ after => a :: after.roots

/-- Every label before those below it, and those before the trees after it. -/
def preorder : Forest α → List α
  | nil => []
  | cons a below after => a :: (below.preorder ++ after.preorder)

/-- The labels in pre-order, each with its depth; the trees themselves stand at `depth`. -/
def depths (depth : Nat) : Forest α → List (Nat × α)
  | nil => []
  | cons a below after => (depth, a) :: (below.depths (depth + 1) ++ after.depths depth)

def map (f : α → β) : Forest α → Forest β
  | nil => nil
  | cons a below after => cons (f a) (below.map f) (after.map f)

def append : Forest α → Forest α → Forest α
  | nil, g => g
  | cons a below after, g => cons a below (after.append g)

/-- A forest with the given roots, where `below` says what stands below each. -/
def grow (below : α → Forest α) : List α → Forest α
  | [] => nil
  | a :: rest => cons a (below a) (grow below rest)

def branches : Forest α → List (Branch α)
  | nil => []
  | cons a below after => ⟨a, below⟩ :: after.branches

def ofBranches : List (Branch α) → Forest α
  | [] => nil
  | b :: rest => cons b.label b.below (ofBranches rest)

/-- Every tree of the forest, at any depth, in pre-order of the roots. -/
def subtrees : Forest α → List (Branch α)
  | nil => []
  | cons a below after => ⟨a, below⟩ :: (below.subtrees ++ after.subtrees)

/-- The forest whose labels in pre-order have the given depths: what follows a
label at a greater depth stands below it. -/
def ofDepths : List (Nat × α) → Forest α
  | [] => nil
  | (depth, a) :: rest =>
    cons a (ofDepths (rest.takeWhile fun p => depth < p.1))
      (ofDepths (rest.dropWhile fun p => depth < p.1))
termination_by l => l.length
decreasing_by
  · exact Nat.lt_succ_of_le (List.takeWhile_sublist _).length_le
  · exact Nat.lt_succ_of_le (List.dropWhile_sublist _).length_le

/-- The labels that `p` accepts and their ancestors. -/
def keep (p : α → Bool) : Forest α → Forest α
  | nil => nil
  | cons a below after =>
    let kept := below.keep p
    if p a || !kept.isEmpty then cons a kept (after.keep p) else after.keep p

/-- The labels that `p` accepts and none of whose ancestors `p` refuses. -/
def prune (p : α → Bool) : Forest α → Forest α
  | nil => nil
  | cons a below after =>
    if p a then cons a (below.prune p) (after.prune p) else after.prune p

/-- The trees in their order, each with what is below it in sorted order. -/
def sortedBelow (le : α → α → Bool) : Forest α → List (Branch α)
  | nil => []
  | cons a below after =>
    ⟨a, ofBranches ((below.sortedBelow le).mergeSort fun b c => le b.label c.label)⟩ ::
      after.sortedBelow le

/-- Siblings in the order `le` at every depth; siblings that `le` puts on one
place stay in their order. -/
def sort (le : α → α → Bool) (f : Forest α) : Forest α :=
  ofBranches ((f.sortedBelow le).mergeSort fun b c => le b.label c.label)

@[simp] theorem isEmpty_iff {f : Forest α} : f.isEmpty = true ↔ f = nil := by
  cases f <;> simp [isEmpty]

@[simp] theorem length_preorder (f : Forest α) : f.preorder.length = f.size := by
  induction f with
  | nil => rfl
  | cons a below after ihb iha => simp [preorder, size, ihb, iha]; omega

@[simp] theorem map_snd_depths (f : Forest α) (depth : Nat) :
    (f.depths depth).map Prod.snd = f.preorder := by
  induction f generalizing depth with
  | nil => rfl
  | cons a below after ihb iha => simp [depths, preorder, ihb, iha]

theorem mem_preorder_of_mem_depths {f : Forest α} {depth : Nat} {p : Nat × α}
    (h : p ∈ f.depths depth) : p.2 ∈ f.preorder := by
  rw [← f.map_snd_depths depth]
  exact List.mem_map_of_mem h

@[simp] theorem length_depths (f : Forest α) (depth : Nat) : (f.depths depth).length = f.size := by
  induction f generalizing depth with
  | nil => rfl
  | cons a below after ihb iha => simp [depths, size, ihb, iha]; omega

/-- The labels of the trees come in the order of all labels. -/
theorem roots_sublist (f : Forest α) : f.roots.Sublist f.preorder := by
  induction f with
  | nil => exact .slnil
  | cons a below after _ iha => exact (iha.trans (List.sublist_append_right _ _)).cons_cons a

@[simp] theorem preorder_map (f : α → β) (t : Forest α) :
    (t.map f).preorder = t.preorder.map f := by
  induction t with
  | nil => rfl
  | cons a below after ihb iha => simp [map, preorder, ihb, iha]

theorem map_map {γ : Type w} (g : α → β) (h : β → γ) (f : Forest α) :
    (f.map g).map h = f.map fun a => h (g a) := by
  induction f with
  | nil => rfl
  | cons a below after ihb iha => simp [map, ihb, iha]

theorem map_congr {g h : α → β} {f : Forest α} (hgh : ∀ a ∈ f.preorder, g a = h a) :
    f.map g = f.map h := by
  induction f with
  | nil => rfl
  | cons a below after ihb iha =>
    simp only [preorder, List.mem_cons, List.mem_append] at hgh
    rw [map, map, hgh a (.inl rfl), ihb fun x hx => hgh x (.inr (.inl hx)),
      iha fun x hx => hgh x (.inr (.inr hx))]

theorem depths_map (g : α → β) (f : Forest α) (depth : Nat) :
    (f.map g).depths depth = (f.depths depth).map fun p => (p.1, g p.2) := by
  induction f generalizing depth with
  | nil => rfl
  | cons a below after ihb iha => simp [map, depths, ihb, iha]

@[simp] theorem preorder_append (f g : Forest α) :
    (f.append g).preorder = f.preorder ++ g.preorder := by
  induction f with
  | nil => rfl
  | cons a below after _ iha => simp [append, preorder, iha]

theorem roots_append (f g : Forest α) : (f.append g).roots = f.roots ++ g.roots := by
  induction f with
  | nil => rfl
  | cons a below after _ iha => simp [append, roots, iha]

theorem size_append (f g : Forest α) : (f.append g).size = f.size + g.size := by
  induction f with
  | nil => simp [append, size]
  | cons a below after _ iha => simp [append, size, iha]; omega

theorem map_append (h : α → β) (f g : Forest α) :
    (f.append g).map h = (f.map h).append (g.map h) := by
  induction f with
  | nil => rfl
  | cons a below after _ iha => simp [append, map, iha]

@[simp] theorem append_nil (f : Forest α) : f.append nil = f := by
  induction f with
  | nil => rfl
  | cons a below after _ iha => simp [append, iha]

theorem append_assoc (f g h : Forest α) : (f.append g).append h = f.append (g.append h) := by
  induction f with
  | nil => rfl
  | cons a below after _ iha => simp [append, iha]

@[simp] theorem roots_grow (below : α → Forest α) (as : List α) : (grow below as).roots = as := by
  induction as with
  | nil => rfl
  | cons a as ih => simp [grow, roots, ih]

theorem grow_congr {below below' : α → Forest α} {as : List α}
    (h : ∀ a ∈ as, below a = below' a) : grow below as = grow below' as := by
  induction as with
  | nil => rfl
  | cons a as ih =>
    rw [List.forall_mem_cons] at h
    rw [grow, grow, h.1, ih h.2]

theorem grow_append (below : α → Forest α) (as bs : List α) :
    grow below (as ++ bs) = (grow below as).append (grow below bs) := by
  induction as with
  | nil => rfl
  | cons a as ih => simp [grow, append, ih]

theorem mem_preorder_grow {below : α → Forest α} {as : List α} {x : α} :
    x ∈ (grow below as).preorder ↔ ∃ a ∈ as, x = a ∨ x ∈ (below a).preorder := by
  induction as with
  | nil => simp [grow, preorder]
  | cons a as ih => simp [grow, preorder, ih, or_assoc]

@[simp] theorem ofBranches_branches (f : Forest α) : ofBranches f.branches = f := by
  induction f with
  | nil => rfl
  | cons a below after _ iha => simp [branches, ofBranches, iha]

@[simp] theorem branches_ofBranches (bs : List (Branch α)) : (ofBranches bs).branches = bs := by
  induction bs with
  | nil => rfl
  | cons b bs ih => simp [branches, ofBranches, ih]

end Forest

namespace Branch
variable {α : Type u}

def preorder (b : Branch α) : List α := b.label :: b.below.preorder

end Branch

end DocOutline
