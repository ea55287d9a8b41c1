import DocOutline.Proofs.JsonReading
import DocOutline.Proofs.SkippedFile

/-! What a run puts out that is asked for JSON.

If the run finds documents, it puts out a text of one array, with an object for each
document that loads, in their order; the array is empty if none loads. If it finds none, it
says so before it comes to showing anything, and what it puts out is no text of any value
(`json_execute`, `silent_execute`). -/
namespace DocOutline.CommandLine

section
variable {fs : FileSystem} {parser : Parser} {a : Arguments} {o : Outcome}

/-- The object of a document, if it loads: its path, and the list of its entries. -/
def object? (fs : FileSystem) (parser : Parser) (v : View) (path : RawText) : Option Json :=
  (load fs parser path).toOption.map fun d =>
    .object [("path", .string path.shown), ("outline", .array (v.entries d).toJson)]

theorem json_eq (v : View) (paths : List RawText) :
    v.json (paths.filterMap (loaded? (load fs parser))) =
      (Json.array (paths.filterMap (object? fs parser v))).pretty ++ "\n" := by
  have hobject (path : RawText) :
      (loaded? (load fs parser) path).map (fun p => v.object p.1 p.2) =
        object? fs parser v path := by
    rw [loaded?, object?, Option.map_map]
    rfl
  rw [View.json, List.map_filterMap]
  simp only [hobject]

/-- Whether an output is a line end after a text of the array, and of no other value, with an
object for every document that loads of those with these paths. -/
def PrintsJson (fs : FileSystem) (parser : Parser) (v : View) (paths : List RawText)
    (output : String) : Prop :=
  ∃ text, output = text ++ "\n" ∧
    ∀ j, Json.Spells j text.toList ↔ j = .array (paths.filterMap (object? fs parser v))

theorem Ends.of_json (h : Ends fs parser a o) (hcode : o.code = 0) (hjson : a.json = true) :
    ∃ paths, found fs a = .ok paths ∧
      (paths = [] → o.output = "" ∧ o.reports = [Outcome.nothingFound]) ∧
      (paths ≠ [] → PrintsJson fs parser (view fs a) paths o.output) := by
  cases h with
  | unfound => cases hcode
  | nothing hfound => exact ⟨[], hfound, fun _ => ⟨rfl, rfl⟩, fun hne => absurd rfl hne⟩
  | refused => cases hcode
  | @shown paths hfound hne =>
    refine ⟨paths, hfound, fun hnil => absurd hnil hne, fun _ =>
      ⟨_, ?_, fun _ => Json.spells_pretty_iff⟩⟩
    rw [← json_eq]
    exact if_pos hjson

/-- A run that is asked for JSON and succeeds puts out one array, with an object for every
document that loads, unless it finds no document. -/
theorem json_execute {arguments : List RawText}
    (hparse : Arguments.parse arguments = .ok (.outline a)) (hjson : a.json = true)
    (hcode : (execute fs parser arguments).code = 0) :
    ∃ paths, found fs a = .ok paths ∧
      (paths = [] → (execute fs parser arguments).output = "" ∧
        (execute fs parser arguments).reports = [Outcome.nothingFound]) ∧
      (paths ≠ [] → PrintsJson fs parser (view fs a) paths (execute fs parser arguments).output) := by
  rw [execute_eq_run hparse] at hcode ⊢
  exact (ends_run fs parser a (Arguments.levelInRange_of_parse hparse)).of_json hcode hjson

end

/-! ### With a document and with none -/

theorem parse_json : Arguments.parse ["--json", "-emd", "."] =
    .ok (.outline { paths := ["."], extensions := ["md"], json := true }) := rfl

/-- A directory with a document. -/
theorem json_execute_tidy :
    Arguments.parse ["--json", "-emd", "."] =
        .ok (.outline { paths := ["."], extensions := ["md"], json := true }) ∧
      (execute tidy (fun text => some (SyntaxTree.plain text)) ["--json", "-emd", "."]).code = 0 ∧
      PrintsJson tidy (fun text => some (SyntaxTree.plain text))
        (view tidy { paths := ["."], extensions := ["md"], json := true }) ["./a.md"]
        (execute tidy (fun text => some (SyntaxTree.plain text)) ["--json", "-emd", "."]).output := by
  have hcode :
      (execute tidy (fun text => some (SyntaxTree.plain text)) ["--json", "-emd", "."]).code = 0 := by
    rw [execute_eq_run parse_json]
    exact code_tidy _ rfl rfl (Arguments.levelInRange_of_parse parse_json)
  obtain ⟨paths, hfound, -, hprints⟩ := json_execute parse_json rfl hcode
  obtain rfl := Except.ok.inj ((found_tidy rfl rfl).symm.trans hfound)
  exact ⟨parse_json, hcode, hprints (List.cons_ne_nil _ _)⟩

/-- A working directory with nothing in it. -/
theorem silent_execute :
    Arguments.parse ["--json"] = .ok (.outline { json := true }) ∧
      (execute .nil (fun _ => none) ["--json"]).code = 0 ∧
      (execute .nil (fun _ => none) ["--json"]).output = "" ∧
      ¬ ∃ items text, Json.Spells (.array items) (String.toList text) ∧
        (execute .nil (fun _ => none) ["--json"]).output = text ++ "\n" := by
  have hparse : Arguments.parse ["--json"] = .ok (.outline { json := true }) := rfl
  have hfound : found .nil { json := true } = .ok [] := by
    have hexpand (wanted : List String) : Discovery.expand .nil wanted Path.current = .ok [] :=
      Discovery.expand_of_open (FileSystem.resolve_current .nil) (Discovery.open_nil Path.current)
    rw [found, Discovery.find, List.isEmpty_nil, if_pos rfl, Discovery.expandAll_cons_ok (hexpand _)]
    simp [Discovery.expandAll_nil, Except.map, Discovery.arrange, Discovery.dropRepeats]
  rw [execute_eq_run hparse, run_of_nothing_found hfound]
  refine ⟨hparse, rfl, rfl, ?_⟩
  intro h
  obtain ⟨items, text, -, hempty⟩ := h
  have hlen := congrArg (fun s : String => s.toList.length) hempty
  simp at hlen

end DocOutline.CommandLine
