import DocOutline.Loading
import DocOutline.Proofs.Nesting
import DocOutline.Proofs.Spots

/-! What a format makes of a syntax tree.

A node of the syntax tree is in the document if the format keeps it and lets
everything around it pass: flattened, or kept as a container (`Format.kept`). The
steps of a conversion are balanced, so they spell a forest that follows the
syntax tree (`holds_document`), and its labels are the kept nodes, in order, each
below the nearest of the nodes around it that is kept (`edges_forest`). Nothing
but a container holds anything (`opaqueLeaves_forest`). -/
namespace DocOutline

/-! ### Forests with opaque leaves -/

namespace Forest

/-- Only containers have something below them. -/
def OpaqueLeaves : Forest Block → Prop
  | .nil => True
  | .cons b below after =>
    (b.kind.isTransparent = false → below = .nil) ∧ below.OpaqueLeaves ∧ after.OpaqueLeaves

theorem OpaqueLeaves.append {f g : Forest Block} (hf : f.OpaqueLeaves) (hg : g.OpaqueLeaves) :
    (f.append g).OpaqueLeaves := by
  induction f with
  | nil => exact hg
  | cons b below after _ iha => exact ⟨hf.1, hf.2.1, iha hf.2.2⟩

end Forest

/-! ### Shapes -/

namespace Shape

def isKeep : Shape → Bool
  | .keep _ => true
  | .flatten | .ignore => false

/-- Flattened, or kept as a container. -/
def isOpen : Shape → Bool
  | .keep kind => kind.isTransparent
  | .flatten => true
  | .ignore => false

end Shape

/-! ### The forest of a conversion -/

namespace Format
variable (fmt : Format) (source : String)

/-- The blocks of some sibling nodes, as they stand in the document. -/
def forest : Forest SyntaxNode → Forest Block
  | .nil => .nil
  | .cons label below after =>
    let here : Forest Block :=
      match fmt.shape ⟨label, below⟩ with
      | .ignore => .nil
      | .flatten => forest below
      | .keep kind =>
        .cons (fmt.block source kind ⟨label, below⟩)
          (if kind.isTransparent then forest below else .nil) .nil
    here.append (forest after)

/-- The steps of a conversion close what they open. -/
theorem added_steps (f : Forest SyntaxNode) (rest : List Step) :
    Step.added (fmt.steps source f ++ rest) =
      ((fmt.forest source f).append (Step.added rest).1, (Step.added rest).2) := by
  induction f generalizing rest with
  | nil => rfl
  | cons label below after ihb iha =>
    rw [steps, forest]
    cases fmt.shape ⟨label, below⟩ with
    | ignore => exact iha rest
    | flatten =>
      dsimp only
      rw [List.append_assoc, ihb, iha, Forest.append_assoc]
    | keep kind =>
      cases ht : kind.isTransparent <;>
        simp [Step.added, ihb, iha, Forest.append, block, ht]

/-- A converted document holds the forest of its conversion. -/
theorem holds_document (t : SyntaxTree) :
    (fmt.document source t).Holds (rootBlock t) (fmt.forest source t.below) := by
  have hnested : Step.nested (fmt.steps source t.below) = fmt.forest source t.below := by
    have h := fmt.added_steps source t.below []
    rw [List.append_nil] at h
    simp [Step.nested, h, Step.added]
  have h := Document.holds_build (rootBlock t) (fmt.steps source t.below)
  rw [hnested] at h
  exact h

theorem opaqueLeaves_forest (f : Forest SyntaxNode) : (fmt.forest source f).OpaqueLeaves := by
  induction f with
  | nil => trivial
  | cons label below after ihb iha =>
    rw [forest]
    refine Forest.OpaqueLeaves.append ?_ iha
    cases fmt.shape ⟨label, below⟩ with
    | ignore => trivial
    | flatten => exact ihb
    | keep kind =>
      refine ⟨fun h => if_neg (by rw [show kind.isTransparent = false from h]; decide), ?_, trivial⟩
      split
      · exact ihb
      · trivial

/-! ### Kept nodes -/

/-- Whether a node stands in the document, if what is around it lets it. -/
def keeps (t : SyntaxTree) : Bool := (fmt.shape t).isKeep

/-- Whether a node lets what is below it stand in the document. -/
def passes (t : SyntaxTree) : Bool := (fmt.shape t).isOpen

/-- Whether a node stands in the document. -/
def isKept (s : Spot SyntaxNode) : Bool :=
  fmt.keeps s.tree && s.around.all fun x => fmt.passes x.2

/-- The nodes below the root of a syntax tree that stand in the document. -/
def kept (t : SyntaxTree) : List (Spot SyntaxNode) := (t.below.spots 1 []).filter fmt.isKept

variable (around : List (Nat × SyntaxTree))

/-- Nothing is kept inside a node that does not let it pass. -/
theorem filter_spots_of_closed (f : Forest SyntaxNode) (position : Nat)
    (hclosed : (around.all fun x => fmt.passes x.2) = false) :
    (f.spots position around).filter fmt.isKept = [] := by
  apply List.filter_eq_nil_iff.2
  intro s hs hkept
  obtain ⟨x, hx, hpass⟩ := List.all_eq_false.1 hclosed
  rw [isKept, Bool.and_eq_true, List.all_eq_true] at hkept
  exact hpass (hkept.2 x (Forest.around_subset_of_mem_spots hs hx))

/-- The kept nodes of some siblings in the open: the first of them, if it is
kept, those below it, if it lets them pass, and those after it. -/
theorem filter_spots_cons (hopen : (around.all fun x => fmt.passes x.2) = true)
    (label : SyntaxNode) (below after : Forest SyntaxNode) (position : Nat) :
    ((Forest.cons label below after).spots position around).filter fmt.isKept =
      (match fmt.shape ⟨label, below⟩ with
        | .ignore => []
        | .flatten =>
          (below.spots (position + 1) ((position, ⟨label, below⟩) :: around)).filter fmt.isKept
        | .keep kind =>
          ⟨position, ⟨label, below⟩, around⟩ ::
            if kind.isTransparent then
              (below.spots (position + 1) ((position, ⟨label, below⟩) :: around)).filter fmt.isKept
            else []) ++
        (after.spots (position + 1 + below.size) around).filter fmt.isKept := by
  have hclosed : fmt.passes ⟨label, below⟩ = false →
      (below.spots (position + 1) ((position, ⟨label, below⟩) :: around)).filter fmt.isKept = [] :=
    fun h => fmt.filter_spots_of_closed _ below _ (by rw [List.all_cons, h, Bool.false_and])
  rw [Forest.spots, List.filter_cons, List.filter_append, isKept, hopen, Bool.and_true]
  cases hs : fmt.shape ⟨label, below⟩ with
  | ignore =>
    rw [hclosed (by rw [passes, hs]; rfl), keeps, hs]
    rfl
  | flatten =>
    rw [keeps, hs]
    rfl
  | keep kind =>
    cases ht : kind.isTransparent with
    | true => simp [keeps, Shape.isKeep, hs, ht]
    | false => simp [keeps, Shape.isKeep, hs, ht, hclosed (by rw [passes, hs]; exact ht)]

/-- The block that a node is kept as, if it is. -/
def block? (t : SyntaxTree) : Option Block :=
  match fmt.shape t with
  | .keep kind => some (fmt.block source kind t)
  | .flatten | .ignore => none

/-- The document holds the blocks of the kept nodes, in order. -/
theorem preorder_forest (f : Forest SyntaxNode) (position : Nat)
    (hopen : (around.all fun x => fmt.passes x.2) = true) :
    (fmt.forest source f).preorder.map some =
      ((f.spots position around).filter fmt.isKept).map fun s => fmt.block? source s.tree := by
  induction f generalizing position around with
  | nil => rfl
  | cons label below after ihb iha =>
    have hafter := iha around (position + 1 + below.size) hopen
    have hbelow := ihb ((position, ⟨label, below⟩) :: around) (position + 1)
    rw [List.all_cons, hopen, Bool.and_true] at hbelow
    rw [forest, filter_spots_cons fmt around hopen, Forest.preorder_append, List.map_append,
      List.map_append, hafter]
    refine congrArg (· ++ _) ?_
    cases hs : fmt.shape ⟨label, below⟩ with
    | ignore => rfl
    | flatten => exact hbelow (by rw [passes, hs]; rfl)
    | keep kind =>
      have hblock :
          fmt.block? source ⟨label, below⟩ = some (fmt.block source kind ⟨label, below⟩) := by
        rw [block?, hs]
      cases ht : kind.isTransparent with
      | true => simp [Forest.preorder, hblock, ht, hbelow (by rw [passes, hs]; exact ht)]
      | false => simp [Forest.preorder, hblock, ht]

theorem size_forest (f : Forest SyntaxNode) (position : Nat)
    (hopen : (around.all fun x => fmt.passes x.2) = true) :
    (fmt.forest source f).size = ((f.spots position around).filter fmt.isKept).length := by
  have h := congrArg List.length (fmt.preorder_forest source around f position hopen)
  rwa [List.length_map, List.length_map, Forest.length_preorder] at h

/-- The position in the document of what a kept node stands below, where `place`
gives the positions in the document of kept nodes. -/
def home (place : Nat → NodeId) (around : List (Nat × SyntaxTree)) : NodeId :=
  ((around.find? fun x => fmt.keeps x.2).map fun x => place x.1).getD Document.root

theorem home_cons (place : Nat → NodeId) (position : Nat) (t : SyntaxTree) :
    fmt.home place ((position, t) :: around) =
      if fmt.keeps t then place position else fmt.home place around := by
  rw [home, List.find?_cons]
  cases fmt.keeps t <;> rfl

/-- The document holds each kept node below the nearest kept node around it. -/
theorem edges_forest (place : Nat → NodeId) (f : Forest SyntaxNode)
    (position start : Nat) (hopen : (around.all fun x => fmt.passes x.2) = true)
    (hplace : ((f.spots position around).filter fmt.isKept).map (fun s => place s.position) =
      List.range' start (fmt.forest source f).size) :
    (((fmt.forest source f).placed start).map Prod.fst).edges (some (fmt.home place around)) =
      ((f.spots position around).filter fmt.isKept).map fun s =>
        (some (fmt.home place s.around), place s.position) := by
  induction f generalizing position start around with
  | nil => rfl
  | cons label below after ihb iha =>
    have hinner := fmt.home_cons around place position ⟨label, below⟩
    have hbelow := ihb ((position, ⟨label, below⟩) :: around) (position + 1)
    rw [List.all_cons, hopen, Bool.and_true, hinner] at hbelow
    have hsize := fmt.size_forest source around after (position + 1 + below.size) hopen
    rw [filter_spots_cons fmt around hopen] at hplace ⊢
    rw [forest] at hplace ⊢
    rw [Forest.size_append, ← List.range'_append_1, List.map_append] at hplace
    obtain ⟨hhere, hafter⟩ :=
      List.append_inj' hplace (by rw [List.length_map, List.length_range', hsize])
    rw [Forest.placed_append, Forest.map_append, Forest.edges_append, List.map_append]
    refine congr (congrArg _ ?_) (iha around _ _ hopen hafter)
    cases hs : fmt.shape ⟨label, below⟩ with
    | ignore => rfl
    | flatten =>
      simp only [hs, keeps, Shape.isKeep, Bool.false_eq_true, if_false] at hhere hbelow
      exact hbelow start (by rw [passes, hs]; rfl) hhere
    | keep kind =>
      simp only [hs, keeps, Shape.isKeep, if_true] at hhere hbelow
      cases ht : kind.isTransparent with
      | true =>
        simp only [ht, if_true, Forest.size, Forest.range'_cons, List.map_cons,
          List.cons.injEq] at hhere ⊢
        obtain ⟨hfirst, hrest⟩ := hhere
        simp only [List.range'_zero, List.append_nil] at hrest
        have hin := hbelow (start + 1) (by rw [passes, hs]; exact ht) hrest
        rw [hfirst] at hin
        simp only [Forest.placed, Forest.map, Forest.edges, hin, hfirst, List.append_nil]
      | false =>
        simp only [ht, Bool.false_eq_true, if_false] at hhere ⊢
        have hfirst : place position = start := by simpa [Forest.size] using hhere
        simp [Forest.placed, Forest.map, Forest.edges, hfirst]

end Format

end DocOutline
