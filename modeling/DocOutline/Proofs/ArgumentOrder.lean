import DocOutline.Proofs.Documents
import DocOutline.Proofs.Runs

/-! Runs that do not depend on the order of their arguments.

What is found at some paths is arranged, and whether a document was given as a file is
decided by membership, so that a run goes by which paths are given and which extensions
are asked for, not by their order. One thing could still depend on it: of several
spellings of one document the first found stays. From paths that are spelled normally a
document is found in one spelling only (`normal_of_stands`), so that nothing is left that
could (`reordered_run`). -/
namespace DocOutline

namespace Discovery
variable {fs : FileSystem} {wanted others : List String} {path document : RawText}
  {paths again : List RawText}

theorem Stands.of_members (hw : ∀ w, w ∈ wanted → w ∈ others)
    (h : Stands Path.Hidden fs wanted path document) :
    Stands Path.Hidden fs others path document := by
  cases h with
  | itself h => exact .itself h
  | below h hf hwanted =>
    obtain ⟨hvisible, last, hlast, w, hmem, hends⟩ := hwanted
    exact .below h hf ⟨hvisible, last, hlast, w, hw w hmem, hends⟩

/-- A search from a normal path spells documents normally. -/
theorem normal_of_stands (hfs : fs.Proper) (hn : Path.Normal path)
    (h : Stands Path.Hidden fs wanted path document) : Path.Normal document := by
  cases h with
  | itself => exact hn
  | below h hf hw =>
    obtain ⟨hnames, hvisible⟩ := names_of_wanted hfs h hf hw
    exact normal_joinAll hn hnames hvisible

theorem normal_of_mem_rootsOf (h : ∀ p ∈ paths, Path.Normal p) (hp : path ∈ rootsOf paths) :
    Path.Normal path := by
  rw [rootsOf] at hp
  split at hp
  · obtain rfl := List.mem_singleton.1 hp
    exact fun piece hpiece => absurd hpiece List.not_mem_nil
  · exact h path hp

theorem mem_rootsOf_congr (h : ∀ p, p ∈ paths ↔ p ∈ again) (path : RawText) :
    path ∈ rootsOf paths ↔ path ∈ rootsOf again := by
  cases paths with
  | nil =>
    obtain rfl : again = [] :=
      List.eq_nil_iff_forall_not_mem.2 fun p hp => by simpa using (h p).2 hp
    rfl
  | cons first rest =>
    cases again with
    | nil => exact absurd ((h first).1 List.mem_cons_self) List.not_mem_nil
    | cons first' rest' => exact h path

/-- Paths that are spelled normally find the same documents in every order. -/
theorem find_eq_ok_of_members (hfs : fs.Proper) (hn : ∀ p ∈ paths, Path.Normal p)
    (hp : ∀ p, p ∈ paths ↔ p ∈ again) (hw : ∀ w, w ∈ wanted ↔ w ∈ others) {documents : List RawText}
    (h : find fs paths wanted = .ok documents) : find fs again others = .ok documents := by
  obtain ⟨hall, rfl⟩ := find_eq_ok_iff.1 h
  have hagain : ∀ p ∈ rootsOf again, Searchable fs p :=
    fun p hmem => hall p ((mem_rootsOf_congr hp p).2 hmem)
  have hnormal : ∀ d ∈ (rootsOf paths).flatMap (taken fs wanted), Path.Normal d := by
    intro d hd
    obtain ⟨given, hgiven, hmem⟩ := List.mem_flatMap.1 hd
    exact normal_of_stands hfs (normal_of_mem_rootsOf hn hgiven)
      ((mem_taken (hall given hgiven)).1 hmem)
  refine find_eq_ok_iff.2 ⟨hagain, arrange_eq_of_members
    (fun a ha b hb hsame => (hnormal a ha).eq_of_same (hnormal b hb) hsame) fun d => ?_⟩
  rw [List.mem_flatMap, List.mem_flatMap]
  constructor
  · rintro ⟨given, hgiven, hd⟩
    have hgiven' := (mem_rootsOf_congr hp given).1 hgiven
    have hstands := (mem_taken (hall given hgiven)).1 hd
    exact ⟨given, hgiven',
      (mem_taken (hagain given hgiven')).2 (hstands.of_members fun w => (hw w).1)⟩
  · rintro ⟨given, hgiven, hd⟩
    have hgiven' := (mem_rootsOf_congr hp given).2 hgiven
    have hstands := (mem_taken (hagain given hgiven)).1 hd
    exact ⟨given, hgiven',
      (mem_taken (hall given hgiven')).2 (hstands.of_members fun w => (hw w).2)⟩

end Discovery

namespace CommandLine

/-- Whether two sets of arguments differ in the order of their paths and extensions only,
and in how often each path is given. -/
structure Reordered (a b : Arguments) : Prop where
  paths : ∀ path, path ∈ a.paths ↔ path ∈ b.paths
  extensions : a.extensions.Perm b.extensions
  maxLevel? : a.maxLevel? = b.maxLevel?
  sort : a.sort = b.sort
  filter? : a.filter? = b.filter?
  json : a.json = b.json

section
variable {fs : FileSystem} {parser : Parser} {a b : Arguments}

theorem Reordered.symm (h : Reordered a b) : Reordered b a :=
  ⟨fun path => (h.paths path).symm, h.extensions.symm, h.maxLevel?.symm, h.sort.symm,
    h.filter?.symm, h.json.symm⟩

theorem Reordered.wanted_perm (h : Reordered a b) (fs : FileSystem) :
    (wanted fs a).Perm (wanted fs b) := by
  have hempty : a.extensions.isEmpty = b.extensions.isEmpty := by
    rw [Bool.eq_iff_iff, List.isEmpty_iff, List.isEmpty_iff]
    exact ⟨fun ha => (ha ▸ h.extensions).nil_eq.symm, fun hb => (hb ▸ h.extensions).eq_nil⟩
  rw [wanted, wanted, hempty]
  split
  · exact .refl _
  · exact h.extensions

theorem Reordered.isExplicit_eq (h : Reordered a b) (fs : FileSystem) :
    isExplicit fs a = isExplicit fs b := by
  funext path
  rw [Bool.eq_iff_iff, ← given_iff, ← given_iff]
  constructor
  · rintro ⟨given, hmem, hgiven⟩
    exact ⟨given, (h.paths given).1 hmem, hgiven⟩
  · rintro ⟨given, hmem, hgiven⟩
    exact ⟨given, (h.paths given).2 hmem, hgiven⟩

theorem Reordered.view_eq (h : Reordered a b) {c : Config} :
    (⟨(a.override c).outlineOptions, (a.override c).sort, a.filter?⟩ : View) =
      ⟨(b.override c).outlineOptions, (b.override c).sort, b.filter?⟩ := by
  simp only [Arguments.override, Config.outlineOptions, h.maxLevel?, h.sort, h.filter?]
  rfl

theorem Reordered.normal (h : Reordered a b) (hn : ∀ path ∈ a.paths, Path.Normal path) :
    ∀ path ∈ b.paths, Path.Normal path :=
  fun path hp => hn path ((h.paths path).2 hp)

theorem Reordered.found_eq (h : Reordered a b) (hfs : fs.Proper)
    (hn : ∀ path ∈ a.paths, Path.Normal path) {documents : List RawText}
    (hfound : found fs a = .ok documents) : found fs b = .ok documents :=
  Discovery.find_eq_ok_of_members hfs hn h.paths (fun _ => (h.wanted_perm fs).mem_iff) hfound

/-- A run goes by what is found, by which of it must load, and by how it is shown. -/
theorem run_congr (hfound : found fs a = found fs b) (hexplicit : isExplicit fs a = isExplicit fs b)
    (hview : (⟨(a.override (configured fs).config).outlineOptions,
        (a.override (configured fs).config).sort, a.filter?⟩ : View) =
      ⟨(b.override (configured fs).config).outlineOptions,
        (b.override (configured fs).config).sort, b.filter?⟩) (hjson : a.json = b.json) :
    run fs parser a = run fs parser b := by
  unfold run
  simp only [find_override, ← isExplicit.eq_def, hfound, hexplicit, hjson]
  rw [configured] at hview
  simp only [hview]

/-- The order of the arguments makes no difference to a run whose search succeeds, and none
to whether it does. -/
theorem reordered_run (hfs : fs.Proper) (hn : ∀ path ∈ a.paths, Path.Normal path)
    (h : Reordered a b) :
    ((∃ documents, found fs a = .ok documents) →
      found fs b = found fs a ∧ run fs parser b = run fs parser a) ∧
    ((∃ e, found fs a = .error e) →
      (∃ e, found fs b = .error e) ∧
        (run fs parser a).code = 1 ∧ (run fs parser a).output = "" ∧
          (run fs parser b).code = 1 ∧ (run fs parser b).output = "") := by
  constructor
  · rintro ⟨documents, hfound⟩
    have hagain := h.found_eq hfs hn hfound
    rw [hfound, hagain]
    exact ⟨rfl, (run_congr (hfound.trans hagain.symm) (h.isExplicit_eq fs) h.view_eq h.json).symm⟩
  · rintro ⟨e, hfound⟩
    obtain ⟨cause, hcause⟩ : ∃ cause, found fs b = .error cause := by
      cases hagain : found fs b with
      | error cause => exact ⟨cause, rfl⟩
      | ok documents =>
        have hback := h.symm.found_eq hfs (h.normal hn) hagain
        rw [hfound] at hback
        cases hback
    rw [run_of_unfound hfound, run_of_unfound hcause]
    exact ⟨⟨cause, hcause⟩, rfl, rfl, rfl, rfl⟩

end

/-! ### A run in another order -/

theorem proper_mixed : mixed.Proper := by
  have ha : Path.IsName "a.md" := ⟨by decide, by decide⟩
  have hb : Path.IsName "b.md" := ⟨by decide, by decide⟩
  have hne : RawText.ofString "b.md" ≠ "a.md" := by decide
  refine ⟨ha, by decide, ?_, trivial, hb, by decide, ?_, trivial, trivial⟩
  · simp [Forest.branches, hne]
  · simp [Forest.branches]

theorem searchable_mixed :
    ∀ path ∈ ([".", "a.md"] : List RawText), Discovery.Searchable mixed path := by
  have hfile : mixed.resolve "a.md" = .ok (.file ByteArray.empty) := by
    refine FileSystem.resolve_eq_ok_iff.2 ⟨by decide, by decide, by decide, ?_⟩
    have hpieces : Path.piecesOf "a.md" = ["a.md"] := by decide
    rw [hpieces]
    exact .file ⟨by decide, by decide, by decide⟩ rfl
  have hopen : Discovery.Open mixed Path.current := (Discovery.unopened_eq_nil_iff _ _).1 rfl
  rw [Path.ofString_dot]
  refine List.forall_mem_cons.2 ⟨⟨⟨_, FileSystem.resolve_current mixed⟩, fun items hitems => ?_⟩,
    List.forall_mem_singleton.2 ⟨⟨_, hfile⟩, fun items hitems => ?_⟩⟩
  · rw [FileSystem.resolve_current] at hitems
    cases hitems
    exact hopen
  · rw [hfile] at hitems
    cases hitems

/-- A directory and a document in it, given in either order and one of them twice, for two
extensions in either order. -/
theorem reordered_mixed :
    mixed.Proper ∧ (∀ path ∈ ([".", "a.md"] : List RawText), Path.Normal path) ∧
      Reordered { paths := [".", "a.md"], extensions := ["md", ".TXT"] }
        { paths := ["a.md", ".", "a.md"], extensions := [".TXT", "md"] } ∧
      (∃ documents, found mixed { paths := [".", "a.md"], extensions := ["md", ".TXT"] } =
        .ok documents) ∧
      run mixed (fun text => some (SyntaxTree.plain text))
          { paths := ["a.md", ".", "a.md"], extensions := [".TXT", "md"] } =
        run mixed (fun text => some (SyntaxTree.plain text))
          { paths := [".", "a.md"], extensions := ["md", ".TXT"] } := by
  have hnormal : ∀ path ∈ ([".", "a.md"] : List RawText), Path.Normal path := by decide
  have hreordered : Reordered { paths := [".", "a.md"], extensions := ["md", ".TXT"] }
      { paths := ["a.md", ".", "a.md"], extensions := [".TXT", "md"] } :=
    ⟨by simp [or_comm], .swap _ _ _, rfl, rfl, rfl, rfl⟩
  have hfound : ∃ documents, found mixed { paths := [".", "a.md"], extensions := ["md", ".TXT"] } =
      .ok documents := ⟨_, Discovery.find_of_searchable searchable_mixed⟩
  exact ⟨proper_mixed, hnormal, hreordered, hfound,
    ((reordered_run proper_mixed hnormal hreordered).1 hfound).2⟩

end CommandLine

end DocOutline
