import DocOutline.Discovery

/-! Which files and directories a search reaches, said without a search.

The directories that a search cannot open are those with overlong paths: it opens
all it comes to exactly if each has a path short enough (`unopened_eq_nil_iff`). -/
namespace DocOutline

/-- A file at the end of a path of names over real directories. -/
inductive Directory.HasFile : Directory → List RawText → Prop where
  | file {d : Directory} {name : RawText} {bytes : ByteArray} {below : Directory}
      (h : ⟨⟨name, .file bytes⟩, below⟩ ∈ d.branches) : HasFile d [name]
  | directory {d : Directory} {name : RawText} {below : Directory} {names : List RawText}
      (h : ⟨⟨name, .directory⟩, below⟩ ∈ d.branches) (hb : HasFile below names) :
      HasFile d (name :: names)

/-- A directory at the end of a path of names over real directories. -/
inductive Directory.HasDirectory : Directory → List RawText → Prop where
  | last {d : Directory} {name : RawText} {below : Directory}
      (h : ⟨⟨name, .directory⟩, below⟩ ∈ d.branches) : HasDirectory d [name]
  | deeper {d : Directory} {name : RawText} {below : Directory} {names : List RawText}
      (h : ⟨⟨name, .directory⟩, below⟩ ∈ d.branches) (hb : HasDirectory below names) :
      HasDirectory d (name :: names)

theorem Directory.hasDirectory_cons {item : Item} {below after : Directory}
    {names : List RawText} :
    HasDirectory (.cons item below after) names ↔
      (∃ more, names = item.name :: more ∧ item.content = .directory ∧
        (more = [] ∨ HasDirectory below more)) ∨ HasDirectory after names := by
  constructor
  · rintro (⟨h⟩ | ⟨h, hb⟩)
    · simp only [Forest.branches, List.mem_cons] at h
      rcases h with h | h
      · cases h
        exact .inl ⟨[], rfl, rfl, .inl rfl⟩
      · exact .inr (.last h)
    · simp only [Forest.branches, List.mem_cons] at h
      rcases h with h | h
      · cases h
        exact .inl ⟨_, rfl, rfl, .inr hb⟩
      · exact .inr (.deeper h hb)
  · obtain ⟨name, content⟩ := item
    rintro (⟨more, rfl, rfl, rfl | h⟩ | h)
    · exact .last List.mem_cons_self
    · exact .deeper List.mem_cons_self h
    · cases h with
      | last h => exact .last (List.mem_cons_of_mem _ h)
      | deeper h hb => exact .deeper (List.mem_cons_of_mem _ h) hb

namespace Path

/-- Whether what follows the last dot of a name, and does not follow a dot at its start
only, is a wanted extension without the dots that this starts with, where case counts for
nothing within ASCII. -/
def EndsIn (name : RawText) (wanted : String) : Prop :=
  ∃ (stem : List UInt8) (ext dots bare : List Char),
    name.bytes = stem ++ dot :: Text.bytes ext ∧ stem ≠ [] ∧ '.' ∉ ext ∧
      wanted.toList = dots ++ bare ∧ (∀ c ∈ dots, c = '.') ∧ bare.head? ≠ some '.' ∧
        bare.map Char.toLower = ext.map Char.toLower

/-- Whether a name starts with a dot. -/
def Dotted (name : RawText) : Prop := name.bytes.head? = some dot

/-- Whether a name is a text that starts with a dot. -/
def Hidden (name : RawText) : Prop := ∃ rest : List Char, name.bytes = Text.bytes ('.' :: rest)

theorem isHidden_iff {name : RawText} : isHidden name = true ↔ Hidden name := by
  rw [isHidden, Option.any_eq_true]
  constructor
  · rintro ⟨text, htext, hhead⟩
    obtain ⟨rest, hrest⟩ := List.head?_eq_some_iff.1 (of_decide_eq_true hhead)
    exact ⟨rest, by rw [RawText.text?_eq_some_iff.1 htext, RawText.ofString, hrest]⟩
  · rintro ⟨rest, hrest⟩
    have hname : name = RawText.ofString (String.ofList ('.' :: rest)) := by
      rw [RawText.ofString, String.toList_ofList, ← hrest]
    exact ⟨_, RawText.text?_eq_some_iff.2 hname, by simp⟩

theorem isHidden_eq_false_iff {name : RawText} : isHidden name = false ↔ ¬ Hidden name := by
  rw [← isHidden_iff, Bool.not_eq_true]

instance (name : RawText) : Decidable (Hidden name) := decidable_of_iff _ isHidden_iff

/-- A name that a search passes over starts with a dot. -/
theorem Hidden.dotted {name : RawText} (h : Hidden name) : Dotted name := by
  obtain ⟨rest, hrest⟩ := h
  rw [Dotted, hrest]
  rfl

end Path

namespace Discovery

/-- The path of what stands at some names below `path`. -/
def joinAll (path : RawText) (names : List RawText) : RawText := names.foldl Path.join path

/-- Whether every directory that a search of `items` comes to has a path short
enough to open it by, where `path` leads to `items`. -/
def Open (items : Directory) (path : RawText) : Prop :=
  ∀ names, items.HasDirectory names → (∀ name ∈ names, ¬ Path.Hidden name) →
    (joinAll path names).bytes.length ≤ FileSystem.maxPath

theorem open_nil (path : RawText) : Open .nil path := by
  intro names h
  cases h with
  | last h => exact absurd h List.not_mem_nil
  | deeper h => exact absurd h List.not_mem_nil

theorem open_cons {item : Item} {below after : Directory} {path : RawText} :
    Open (.cons item below after) path ↔
      (item.content = .directory → ¬ Path.Hidden item.name →
        (Path.join path item.name).bytes.length ≤ FileSystem.maxPath ∧
          Open below (Path.join path item.name)) ∧ Open after path := by
  simp only [Open, Directory.hasDirectory_cons]
  constructor
  · intro h
    refine ⟨fun hc hn => ⟨?_, fun names hd hv => ?_⟩, fun names hd hv => h names (.inr hd) hv⟩
    · exact h [item.name] (.inl ⟨[], rfl, hc, .inl rfl⟩) (by simpa using hn)
    · exact h (item.name :: names) (.inl ⟨names, rfl, hc, .inr hd⟩) (by simpa [hn] using hv)
  · rintro ⟨h, ha⟩ names (⟨more, rfl, hc, hm⟩ | hd) hv
    · simp only [List.mem_cons, forall_eq_or_imp] at hv
      rcases hm with rfl | hm
      · exact (h hc hv.1).1
      · exact (h hc hv.1).2 more hm hv.2
    · exact ha names hd hv

/-- A search opens every directory that it comes to exactly if their paths are
short enough. -/
theorem unopened_eq_nil_iff (items : Directory) (path : RawText) :
    items.unopened path = [] ↔ Open items path := by
  induction items generalizing path with
  | nil => simp [Directory.unopened, open_nil]
  | cons item below after ihb iha =>
    rw [open_cons, ← iha, ← ihb]
    simp only [Directory.unopened, List.append_eq_nil_iff]
    simp only [← Path.isHidden_eq_false_iff]
    cases Path.isHidden item.name <;> cases item.content <;> simp
    split
    · simp only [reduceCtorEq, false_iff]
      omega
    · simp only [iff_and_self]
      omega

/-- Whether a search that `hides` some names may go over these and take the file at their
end. -/
def Wanted (hides : RawText → Prop) (wanted : List String) (names : List RawText) : Prop :=
  (∀ name ∈ names, ¬ hides name) ∧
    ∃ last, names.getLast? = some last ∧ ∃ w ∈ wanted, Path.EndsIn last w

/-- A document that a given path stands for in a search that `hides` some names, as it is
spelled when found. -/
inductive Stands (hides : RawText → Prop) (fs : FileSystem) (wanted : List String)
    (path : RawText) : RawText → Prop where
  | itself {bytes : ByteArray} (h : fs.resolve path = .ok (.file bytes)) :
      Stands hides fs wanted path path
  | below {items : Directory} {names : List RawText} (h : fs.resolve path = .ok (.directory items))
      (hf : items.HasFile names) (hw : Wanted hides wanted names) :
      Stands hides fs wanted path (joinAll path names)

end Discovery

end DocOutline
