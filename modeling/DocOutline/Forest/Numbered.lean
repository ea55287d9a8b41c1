import DocOutline.Forest

/-! Forests as flat lists: every label at its pre-order position, with the
positions of its parent and its children.

`flatten` adds the rows of a forest to those that are there, so that a label has as its
position how many rows were there before its own. `numbered` says which rows these are,
from the position of the first and the sizes of the trees (`flatten_eq`). There is one row
for each label, in pre-order (`map_label_numbered`), and the children of a row are the
positions of the roots below it (`positions`).
`ofParents` and `ofChildren` read the shape of a forest from either. -/
namespace DocOutline

universe u

/-- A label in a flat list, with the positions of its neighbours in the forest. -/
structure Row (α : Type u) where
  label : α
  parent? : Option Nat
  children : List Nat
  deriving DecidableEq, Repr

namespace Forest
variable {α : Type u}

/-- Some rows with those of a forest that stands below `parent?` after them, and the
positions of its roots. The children of a row are known once their rows are there. -/
def flatten (parent? : Option Nat) : Forest α → List (Row α) → List (Row α) × List Nat
  | nil, rows => (rows, [])
  | cons a below after, rows =>
    let index := rows.length
    let (rows, children) := flatten (some index) below (rows ++ [⟨a, parent?, []⟩])
    let (rows, indices) := flatten parent? after (rows.set index ⟨a, parent?, children⟩)
    (rows, index :: indices)

/-- The positions of the roots, when the first label has position `start`. -/
def positions (start : Nat) : Forest α → List Nat
  | nil => []
  | cons _ below after => start :: after.positions (start + 1 + below.size)

/-- The rows of a forest that stands below `parent?` and whose first label has
position `start`. -/
def numbered (start : Nat) (parent? : Option Nat) : Forest α → List (Row α)
  | nil => []
  | cons a below after =>
    ⟨a, parent?, below.positions (start + 1)⟩ ::
      (below.numbered (start + 1) (some start) ++
        after.numbered (start + 1 + below.size) parent?)

/-- The forest of positions that some parents describe, from the positions below
`parent?` on and in at most `fuel` generations. -/
def ofParents (parents : List (Option Nat)) : Nat → Option Nat → Forest Nat
  | 0, _ => nil
  | fuel + 1, parent? =>
    grow (fun i => ofParents parents fuel (some i))
      ((List.range parents.length).filter fun i => parents[i]? = some parent?)

/-- The forest of positions that some lists of children describe, with the given
roots and in at most `fuel` generations. -/
def ofChildren (children : List (List Nat)) : Nat → List Nat → Forest Nat
  | 0, _ => nil
  | fuel + 1, roots =>
    grow (fun i => ofChildren children fuel ((children[i]?).getD [])) roots

/-- The positions that no list of children holds. -/
def orphans (children : List (List Nat)) : List Nat :=
  (List.range children.length).filter fun i => !children.any (·.contains i)

@[simp] theorem length_numbered (f : Forest α) (start : Nat) (parent? : Option Nat) :
    (f.numbered start parent?).length = f.size := by
  induction f generalizing start parent? with
  | nil => rfl
  | cons a below after ihb iha => simp [numbered, size, ihb, iha]; omega

/-- The rows that are added are those from the position after the last row that is there. -/
theorem flatten_eq (f : Forest α) (parent? : Option Nat) (rows : List (Row α)) :
    f.flatten parent? rows =
      (rows ++ f.numbered rows.length parent?, f.positions rows.length) := by
  induction f generalizing parent? rows with
  | nil => simp [flatten, numbered, positions]
  | cons a below after ihb iha =>
    have hset (row row' : Row α) (later : List (Row α)) :
        (rows ++ [row] ++ later).set rows.length row' = rows ++ [row'] ++ later := by
      simp
    simp only [flatten, ihb, hset, iha, numbered, positions, List.length_append,
      List.length_singleton, length_numbered]
    simp

@[simp] theorem map_label_numbered (f : Forest α) (start : Nat) (parent? : Option Nat) :
    (f.numbered start parent?).map Row.label = f.preorder := by
  induction f generalizing start parent? with
  | nil => rfl
  | cons a below after ihb iha => simp [numbered, preorder, ihb, iha]

end Forest

end DocOutline
