import Mathlib.Data.List.Basic
import DocOutline.Discovery.Reachable

/-! How paths are spelled.

The pieces of a path are what stands between its slashes, and those that are not empty
and no single dot are the steps that it takes. They are all in its components
(`steps_eq_filterMap`). A name below a directory adds one step and one component to the
directory's path (`steps_join`, `components_join`), however many slashes that path ends
with. A path is normal if it has no piece that takes no step, but for the first; two
normal paths with the same components are equal (`Normal.eq_of_same`), and a search from a
normal path comes to normal paths only (`Discovery.normal_joinAll`). -/
namespace DocOutline

/-- What a directory may call its items: a name is not empty and has no slash. -/
structure Path.IsName (name : RawText) : Prop where
  ne_nil : name.bytes ≠ []
  no_slash : Path.slash ∉ name.bytes

/-- The step that a component takes, if it takes one. -/
def Component.step? : Component → Option RawText
  | root => none
  | current => none
  | parent => some Path.parent
  | name text => some text

namespace Path

/-! ### Pieces -/

theorem pieces_eq_splitOn (s : List UInt8) : pieces s = s.splitOn slash := by
  induction s with
  | nil => rw [pieces, List.splitOn_nil]
  | cons b s ih =>
    rw [List.splitOn_cons_eq_if_modifyHead, ← ih, pieces]
    by_cases hb : b = slash
    · simp [hb]
    · cases hs : pieces s with
      | nil => exact absurd hs (pieces_ne_nil s)
      | cons piece more => simp [hb]

theorem pieces_append (s t : List UInt8) : pieces (s ++ slash :: t) = pieces s ++ pieces t := by
  simp only [pieces_eq_splitOn, List.splitOn_append_cons_self]

theorem pieces_of_not_mem {s : List UInt8} (h : slash ∉ s) : pieces s = [s] := by
  rw [pieces_eq_splitOn, List.splitOn_eq_singleton h]

/-- Pieces hold all that there is to a path. -/
theorem pieces_inj {s t : List UInt8} (h : pieces s = pieces t) : s = t := by
  rw [pieces_eq_splitOn, pieces_eq_splitOn] at h
  rw [← @List.intercalate_splitOn _ s _ _ slash, h, List.intercalate_splitOn]

/-- A path starts with a slash if its first piece is empty and not the only one. -/
theorem head?_eq_slash_iff (s : List UInt8) :
    s.head? = some slash ↔ (pieces s).head? = some [] ∧ (pieces s).tail ≠ [] := by
  cases s with
  | nil => simp [pieces]
  | cons b s =>
    rw [pieces]
    by_cases hb : b = slash
    · simp [hb, pieces_ne_nil]
    · cases hs : pieces s with
      | nil => exact absurd hs (pieces_ne_nil s)
      | cons piece more => simp [hb]

theorem piecesOf_inj {a b : RawText} (h : piecesOf a = piecesOf b) : a = b := by
  have hpieces := List.map_injective_iff.2 (fun _ _ hpiece => RawText.mk.inj hpiece) h
  exact congrArg RawText.mk (pieces_inj hpieces)

theorem piecesOf_ne_nil (path : RawText) : piecesOf path ≠ [] :=
  fun h => pieces_ne_nil _ (List.map_eq_nil_iff.1 h)

/-- The pieces of a path below a directory: those of the directory's path, but for an
empty last one, and then the name. -/
theorem piecesOf_join {name : RawText} (h : slash ∉ name.bytes) (directory : RawText) :
    ∃ front, front ≠ [] ∧
      (piecesOf directory = front ∨ piecesOf directory = front ++ [⟨[]⟩]) ∧
        piecesOf (join directory name) = front ++ [name] := by
  by_cases hlast : directory.bytes.getLast? = some slash
  · obtain ⟨front, hfront⟩ := List.getLast?_eq_some_iff.1 hlast
    refine ⟨piecesOf ⟨front⟩, piecesOf_ne_nil _, .inr ?_, ?_⟩
    · rw [piecesOf, hfront, pieces_append, List.map_append]
      rfl
    · rw [join, if_pos hlast, piecesOf, hfront, List.append_assoc, List.singleton_append,
        pieces_append, pieces_of_not_mem h, List.map_append]
      rfl
  · refine ⟨_, piecesOf_ne_nil _, .inl rfl, ?_⟩
    rw [join, if_neg hlast, piecesOf, pieces_append, pieces_of_not_mem h, List.map_append]
    rfl

/-! ### Steps -/

/-- Whether a piece takes a step. -/
def stepping (piece : RawText) : Bool := piece.bytes ≠ [] && piece ≠ current

/-- The steps that a path takes. -/
def steps (path : RawText) : List RawText := (piecesOf path).filter stepping

theorem stepping_iff {piece : RawText} :
    stepping piece = true ↔ ¬ (piece.bytes = [] ∨ piece = current) := by
  simp [stepping]

theorem stepping_eq_false_iff {piece : RawText} :
    stepping piece = false ↔ piece.bytes = [] ∨ piece = current := by
  rw [← Bool.not_eq_true, stepping_iff, not_not]

theorem step?_component? (piece : RawText) :
    (component? piece).bind Component.step? = if stepping piece then some piece else none := by
  rw [component?]
  by_cases hblank : piece.bytes = [] ∨ piece = current
  · simp [hblank, stepping_iff]
  · rw [if_neg hblank, if_pos (stepping_iff.2 hblank)]
    split
    · rename_i hup
      exact congrArg some hup.symm
    · rfl

/-- A path takes the steps of its components. -/
theorem steps_eq_filterMap (path : RawText) :
    steps path = (components path).filterMap Component.step? := by
  have hpieces : ∀ ps : List RawText,
      ps.filter stepping = (ps.filterMap component?).filterMap Component.step? := by
    intro ps
    rw [List.filterMap_filterMap]
    induction ps with
    | nil => rfl
    | cons piece ps ih =>
      rw [List.filter_cons, ih, List.filterMap_cons, step?_component?]
      split <;> rfl
  rw [steps, hpieces, components, List.filterMap_append]
  split
  · rfl
  · split <;> rfl

theorem steps_eq_of_same {a b : RawText} (h : same a b = true) : steps a = steps b := by
  rw [steps_eq_filterMap, steps_eq_filterMap, same_iff.1 h]

variable {name directory : RawText}

theorem hidden_current : Hidden current := ⟨[], by decide⟩

theorem hidden_parent : Hidden parent := ⟨['.'], by decide⟩

/-- A name that a search does not pass over takes a step. -/
theorem stepping_of_visible (h : IsName name) (hv : ¬ Hidden name) : stepping name = true := by
  rw [stepping_iff]
  rintro (hempty | rfl)
  · exact h.ne_nil hempty
  · exact hv hidden_current

theorem ne_parent_of_visible (hv : ¬ Hidden name) : name ≠ parent := by
  rintro rfl
  exact hv hidden_parent

theorem steps_join (h : IsName name) (hv : ¬ Hidden name) (directory : RawText) :
    steps (join directory name) = steps directory ++ [name] := by
  obtain ⟨front, -, hfront, hjoin⟩ := piecesOf_join h.no_slash directory
  have hlast : [name].filter stepping = [name] := by simp [stepping_of_visible h hv]
  rw [steps, steps, hjoin, List.filter_append, hlast]
  rcases hfront with hfront | hfront
  · rw [hfront]
  · rw [hfront, List.filter_append]
    exact congrArg (· ++ [name]) (List.append_nil _).symm

/-! ### Components -/

theorem component?_of_visible (h : IsName name) (hv : ¬ Hidden name) :
    component? name = some (.name name) := by
  rw [component?, if_neg (stepping_iff.1 (stepping_of_visible h hv)),
    if_neg (ne_parent_of_visible hv)]

theorem head?_join (h : directory.bytes ≠ []) (name : RawText) :
    (join directory name).bytes.head? = directory.bytes.head? := by
  rw [join]
  split <;> exact List.head?_append_of_ne_nil _ h

theorem join_ne_nil (h : directory.bytes ≠ []) (name : RawText) :
    (join directory name).bytes ≠ [] := by
  intro hjoin
  have hhead := head?_join h name
  rw [hjoin, eq_comm] at hhead
  exact h (List.head?_eq_none_iff.1 hhead)

theorem components_join (h : IsName name) (hv : ¬ Hidden name) (hd : directory.bytes ≠ []) :
    components (join directory name) = components directory ++ [.name name] := by
  obtain ⟨front, hne, hfront, hjoin⟩ := piecesOf_join h.no_slash directory
  have hpieces : (piecesOf directory).head? = front.head? ∧
      (piecesOf directory).filterMap component? = front.filterMap component? := by
    rcases hfront with hfront | hfront
    · rw [hfront]
      exact ⟨rfl, rfl⟩
    · rw [hfront, List.filterMap_append, List.head?_append_of_ne_nil _ hne]
      exact ⟨rfl, List.append_nil _⟩
  have hlast : [name].filterMap component? = [.name name] := by
    simp [component?_of_visible h hv]
  simp only [components, head?_join hd, hjoin, hpieces.1, hpieces.2, List.filterMap_append, hlast,
    List.head?_append_of_ne_nil _ hne, List.append_assoc]

/-! ### Normal spellings -/

/-- Whether a path has no repeated slash, no slash at its end and no single dot, but for
a dot at its start. -/
def Normal (path : RawText) : Prop :=
  ∀ piece ∈ (pieces path.bytes).tail, piece ≠ [] ∧ piece ≠ [dot]

instance (path : RawText) : Decidable (Normal path) :=
  inferInstanceAs (Decidable (∀ piece ∈ (pieces path.bytes).tail, piece ≠ [] ∧ piece ≠ [dot]))

theorem normal_iff {path : RawText} :
    Normal path ↔ ∀ piece ∈ (piecesOf path).tail, stepping piece = true := by
  rw [Normal, piecesOf, ← List.map_tail, List.forall_mem_map]
  refine forall₂_congr fun piece _ => ?_
  rw [stepping_iff, not_or, current, Ne, Ne, RawText.mk.injEq]

theorem Normal.join (hn : Normal directory) (h : IsName name) (hv : ¬ Hidden name) :
    Normal (join directory name) := by
  rw [normal_iff] at hn ⊢
  obtain ⟨front, hne, hfront, hjoin⟩ := piecesOf_join h.no_slash directory
  rcases hfront with hfront | hfront
  · intro piece hpiece
    rw [hjoin, List.tail_append_of_ne_nil hne, List.mem_append, List.mem_singleton] at hpiece
    rcases hpiece with hpiece | rfl
    · exact hn piece (hfront ▸ hpiece)
    · exact stepping_of_visible h hv
  · -- A normal path has no empty last piece.
    have hmem : ⟨[]⟩ ∈ (piecesOf directory).tail := by
      rw [hfront, List.tail_append_of_ne_nil hne]
      exact List.mem_append_right _ List.mem_cons_self
    exact absurd (hn _ hmem) (by decide)

/-- The pieces that components are of, in a path that is normal. -/
def respell : List Component → List RawText
  | [] => [⟨[]⟩]
  | .root :: rest => ⟨[]⟩ :: rest.filterMap Component.step?
  | .current :: rest => current :: rest.filterMap Component.step?
  | cs => cs.filterMap Component.step?

theorem component?_eq_some {piece : RawText} (h : stepping piece = true) :
    ∃ c, component? piece = some c ∧ c.step? = some piece := by
  have hstep := step?_component? piece
  rw [if_pos h, Option.bind_eq_some_iff] at hstep
  exact hstep

theorem filterMap_step? {ps : List RawText} (h : ∀ piece ∈ ps, stepping piece = true) :
    (ps.filterMap component?).filterMap Component.step? = ps := by
  induction ps with
  | nil => rfl
  | cons piece ps ih =>
    obtain ⟨c, hc, hstep⟩ := component?_eq_some (h piece List.mem_cons_self)
    have hrest := ih fun p hp => h p (List.mem_cons_of_mem _ hp)
    simp [hc, hstep, hrest]

theorem head?_bytes_iff (path : RawText) : path.bytes.head? = some slash ↔
    (piecesOf path).head? = some ⟨[]⟩ ∧ (piecesOf path).tail ≠ [] := by
  rw [head?_eq_slash_iff, piecesOf, List.head?_map, ← List.map_tail, Ne, Ne, List.map_eq_nil_iff]
  simp

theorem Normal.piecesOf_eq_respell {path : RawText} (h : Normal path) :
    piecesOf path = respell (components path) := by
  rw [normal_iff] at h
  have hslash := head?_bytes_iff path
  cases hp : piecesOf path with
  | nil => exact absurd hp (piecesOf_ne_nil _)
  | cons first rest =>
    rw [hp] at h hslash
    have hrest : (rest.filterMap component?).filterMap Component.step? = rest := filterMap_step? h
    by_cases hempty : first = ⟨[]⟩
    · subst hempty
      by_cases hnil : rest = []
      · subst hnil
        have hhead : path.bytes.head? ≠ some slash := by simp [hslash]
        simp [components, hhead, hp, component?, current, respell]
      · have hhead : path.bytes.head? = some slash := by simp [hslash, hnil]
        simp [components, hhead, hp, component?, respell, hrest]
    · have hhead : path.bytes.head? ≠ some slash := by simp [hslash, hempty]
      by_cases hdot : first = current
      · subst hdot
        simp [components, hhead, hp, component?, respell, hrest]
      · have hstepping : stepping first = true := by
          rw [stepping_iff, not_or]
          exact ⟨fun hbytes => hempty (congrArg RawText.mk hbytes), hdot⟩
        obtain ⟨c, hc, hstep⟩ := component?_eq_some hstepping
        have hcomponents : components path = c :: rest.filterMap component? := by
          simp [components, hhead, hp, hdot, hc]
        rw [hcomponents]
        cases c with
        | root | current => cases hstep
        | parent | name => simp [respell, hstep, hrest]

/-- Normal paths with the same components are spelled the same. -/
theorem Normal.eq_of_same {a b : RawText} (ha : Normal a) (hb : Normal b) (h : same a b = true) :
    a = b := by
  refine piecesOf_inj ?_
  rw [ha.piecesOf_eq_respell, hb.piecesOf_eq_respell, same_iff.1 h]

end Path

/-! ### Paths that a search puts together -/

namespace Discovery
variable {path : RawText} {names : List RawText}

theorem steps_joinAll (h : ∀ name ∈ names, Path.IsName name)
    (hv : ∀ name ∈ names, ¬ Path.Hidden name) (path : RawText) :
    Path.steps (joinAll path names) = Path.steps path ++ names := by
  induction names generalizing path with
  | nil => exact (List.append_nil _).symm
  | cons name names ih =>
    rw [List.forall_mem_cons] at h hv
    show Path.steps (joinAll (Path.join path name) names) = _
    rw [ih h.2 hv.2, Path.steps_join h.1 hv.1, List.append_assoc, List.singleton_append]

theorem components_joinAll (h : ∀ name ∈ names, Path.IsName name)
    (hv : ∀ name ∈ names, ¬ Path.Hidden name) (hp : path.bytes ≠ []) :
    Path.components (joinAll path names) = Path.components path ++ names.map .name := by
  induction names generalizing path with
  | nil => exact (List.append_nil _).symm
  | cons name names ih =>
    rw [List.forall_mem_cons] at h hv
    show Path.components (joinAll (Path.join path name) names) = _
    rw [ih h.2 hv.2 (Path.join_ne_nil hp name), Path.components_join h.1 hv.1 hp,
      List.append_assoc, List.map_cons, List.singleton_append]

theorem normal_joinAll (hn : Path.Normal path) (h : ∀ name ∈ names, Path.IsName name)
    (hv : ∀ name ∈ names, ¬ Path.Hidden name) : Path.Normal (joinAll path names) := by
  induction names generalizing path with
  | nil => exact hn
  | cons name names ih =>
    rw [List.forall_mem_cons] at h hv
    exact ih (hn.join h.1 hv.1) h.2 hv.2

end Discovery

end DocOutline
