import DocOutline.Proofs.AddedFile
import DocOutline.Proofs.Runs

/-! A run that comes across one more file, which is no text.

The configuration, what loads of every path, and which of the given paths lead to files
are what they were without the file. Of the documents found, those that stood at a file
before are the documents found before; the others are paths of the new file, and none of
these loads or was given as a file (`atFile_of_isOk`, `atFile_of_given`). So a run that
succeeds without the file shows the same with it, and its warnings are one more for each
path under which the file is found (`execute_adds`). -/
namespace DocOutline.CommandLine
open Directory (Grown Adds)
open Discovery (rootsOf Searchable Discovers)

section
variable {fs fs' : FileSystem} {parser : Parser} {a : Arguments} {bytes : ByteArray}
  {paths : List RawText} {path : RawText}

/-! ### Runs that succeed -/

/-- In a run that succeeds, all documents load that were given as files. -/
theorem isOk_load_of_code (h : a.LevelInRange) (hcode : (run fs parser a).code = 0)
    (hfound : found fs a = .ok paths) (hpath : path ∈ paths) (hgiven : Given fs a path) :
    (load fs parser path).isOk = true := by
  cases hload : load fs parser path with
  | ok d => rfl
  | error e =>
    have hfails : FailsWith fs parser a e := .inr ⟨paths, hfound, path, hpath, hgiven, hload⟩
    have hone := (ends_run fs parser a h).code_eq_one_iff.2 ⟨e, hfails⟩
    rw [hcode] at hone
    cases hone

/-! ### With the file and without it -/

theorem configured_eq (hfs : Grown bytes fs fs') (hbytes : String.fromUTF8? bytes = none) :
    configured fs' = configured fs := by
  rw [configured, configured, FileSystem.toOption_readText_grown hfs hbytes]

/-- What loads of a path, loads of it with the file and without. -/
theorem toOption_load_eq (hfs : Grown bytes fs fs') (hbytes : String.fromUTF8? bytes = none)
    (path : RawText) : (load fs' parser path).toOption = (load fs parser path).toOption := by
  have hload (fs : FileSystem) : (load fs parser path).toOption =
      (fs.readText path).toOption.bind fun text =>
        (Document.ofSource parser markdown path text).toOption := by
    rw [load, Document.load]
    cases fs.readText path <;> rfl
  rw [hload, hload, FileSystem.toOption_readText_grown hfs hbytes]

theorem isOk_eq_isSome {α ε : Type} (x : Except ε α) : x.isOk = x.toOption.isSome := by
  cases x <;> rfl

/-- What loads stands at a file. -/
theorem atFile_of_isOk (h : (load fs parser path).isOk = true) : fs.AtFile path := by
  apply FileSystem.atFile_of_isFile
  rw [load, Document.load, FileSystem.readText] at h
  rw [FileSystem.isFile]
  cases hr : fs.resolve path with
  | error e => simp [hr, Except.isOk, Except.toBool] at h
  | ok target =>
    cases target with
    | file content => rfl
    | directory items => simp [hr, Except.isOk, Except.toBool] at h

theorem searchable_of_mem_paths (hs : ∀ p ∈ rootsOf a.paths, Searchable fs p) {given : RawText}
    (hgiven : given ∈ a.paths) : Searchable fs given := by
  apply hs
  rw [rootsOf, if_neg]
  · exact hgiven
  · rw [List.isEmpty_iff]
    exact List.ne_nil_of_mem hgiven

/-- The same documents have been given as files, and the new file has not. -/
theorem given_eq (hfs : Grown bytes fs fs') (hs : ∀ p ∈ rootsOf a.paths, Searchable fs p) :
    Given fs' a path ↔ Given fs a path := by
  refine exists_congr fun given => and_congr_right fun hgiven => ?_
  obtain ⟨⟨target, htarget⟩, -⟩ := searchable_of_mem_paths hs hgiven
  rw [FileSystem.isFile_grown hfs htarget]

theorem atFile_of_given (h : Given fs a path) : fs.AtFile path := by
  obtain ⟨given, -, hfile, hsame⟩ := h
  rw [← FileSystem.atFile_congr (Path.same_iff.2 hsame)]
  exact FileSystem.atFile_of_isFile hfile

/-! ### What is loaded and what is skipped -/

/-- What is loaded of some documents is loaded of those that stand at a file. -/
theorem filterMap_loaded?_filter (paths : List RawText) :
    (paths.filter fun p => decide (fs.AtFile p)).filterMap (loaded? (load fs parser)) =
      paths.filterMap (loaded? (load fs parser)) := by
  rw [List.filterMap_filter]
  refine List.filterMap_congr fun p _ => ?_
  by_cases hat : fs.AtFile p
  · simp [hat]
  · have hload : ¬ (load fs parser p).isOk = true := fun h => hat (atFile_of_isOk h)
    rw [isOk_eq_isSome, Bool.not_eq_true, Option.isSome_eq_false_iff,
      Option.isNone_iff_eq_none] at hload
    simp [hat, loaded?, hload]

/-- What is skipped of some documents is what is skipped of those that stand at a file, and
all the others. -/
theorem length_skipped?_filter (paths : List RawText) :
    (paths.filterMap (skipped? (load fs parser))).length =
      ((paths.filter fun p => decide (fs.AtFile p)).filterMap (skipped? (load fs parser))).length +
        (paths.filter fun p => !decide (fs.AtFile p)).length := by
  have hskip : ∀ p ∈ paths.filter (fun p => !decide (fs.AtFile p)),
      (!(load fs parser p).isOk) = true := by
    intro p hp
    have hat : ¬ fs.AtFile p := by simpa using (List.mem_filter.1 hp).2
    simpa using fun h => hat (atFile_of_isOk h)
  rw [length_filterMap_skipped?, length_filterMap_skipped?,
    List.countP_eq_countP_filter_add paths _ fun p => decide (fs.AtFile p),
    List.countP_eq_length.2 hskip]

theorem loaded?_eq (hfs : Grown bytes fs fs') (hbytes : String.fromUTF8? bytes = none) :
    loaded? (load fs' parser) = loaded? (load fs parser) := by
  funext p
  rw [loaded?, loaded?, toOption_load_eq hfs hbytes]

theorem length_skipped?_eq (hfs : Grown bytes fs fs') (hbytes : String.fromUTF8? bytes = none)
    (paths : List RawText) :
    (paths.filterMap (skipped? (load fs' parser))).length =
      (paths.filterMap (skipped? (load fs parser))).length := by
  simp only [length_filterMap_skipped?, isOk_eq_isSome, toOption_load_eq hfs hbytes]

/-! ### The run -/

/-- With the file, the search succeeds as well. -/
theorem found_adds (hfs : Grown bytes fs fs') (hproper : fs.Proper)
    (hbytes : String.fromUTF8? bytes = none) (hfound : found fs a = .ok paths) :
    ∃ documents, found fs' a = .ok documents ∧
      Discovery.FindsMore bytes fs fs' (wanted fs a) a.paths documents ∧
      (documents.filter fun p => decide (fs.AtFile p)) = paths := by
  obtain ⟨hs, rfl⟩ := Discovery.find_eq_ok_iff.1 hfound
  have hwanted : wanted fs' a = wanted fs a := by rw [wanted, wanted, configured_eq hfs hbytes]
  have hmore := @Discovery.findsMore _ _ _ (wanted fs a) _ hfs hproper hs
  refine ⟨_, ?_, hmore, hmore.kept⟩
  rw [found, hwanted]
  exact Discovery.find_of_searchable fun p hp => Discovery.searchable_grown hfs (hs p hp)

/-- With the file as well, all documents load that were given as files. -/
theorem isOk_load_adds (hfs : Grown bytes fs fs') (hbytes : String.fromUTF8? bytes = none)
    (hs : ∀ p ∈ rootsOf a.paths, Searchable fs p) {documents : List RawText}
    (hkept : (documents.filter fun p => decide (fs.AtFile p)) = paths)
    (hload : ∀ p ∈ paths, Given fs a p → (load fs parser p).isOk = true)
    (hpath : path ∈ documents) (hgiven' : Given fs' a path) :
    (load fs' parser path).isOk = true := by
  have hgiven := (given_eq hfs hs).1 hgiven'
  have hmem : path ∈ paths := by
    rw [← hkept]
    exact List.mem_filter.2 ⟨hpath, decide_eq_true (atFile_of_given hgiven)⟩
  have hok := hload path hmem hgiven
  rwa [isOk_eq_isSome, toOption_load_eq hfs hbytes, ← isOk_eq_isSome]

theorem nodup_components {documents : List RawText} (h : documents.Pairwise Path.Before) :
    (documents.map Path.components).Nodup := by
  rw [List.nodup_iff_pairwise_ne, List.pairwise_map]
  refine h.imp fun hab heq => ?_
  have hsame := Path.same_iff.2 heq
  rw [hab.2] at hsame
  cases hsame

/-- A file that is no text, added to a run that finds documents and succeeds, is warned of
under every path that it is found by, and changes nothing else. -/
theorem execute_adds {names arguments : List RawText} (hfs' : fs'.Proper)
    (hadds : Adds bytes names fs fs') (hbytes : ¬ bytes.IsValidUTF8)
    (hparse : Arguments.parse arguments = .ok (.outline a)) (hfound : found fs a = .ok paths)
    (hne : paths ≠ []) (hcode : (execute fs parser arguments).code = 0) :
    (execute fs' parser arguments).code = (execute fs parser arguments).code ∧
      (execute fs' parser arguments).output = (execute fs parser arguments).output ∧
      (execute fs' parser arguments).reports = (execute fs parser arguments).reports ∧
      ∃ news : List RawText, (news.map Path.components).Nodup ∧
        (∀ path, (∃ d ∈ news, Path.same d path = true) ↔ ∃ given ∈ rootsOf a.paths,
          ∃ d, Discovers bytes fs fs' (wanted fs a) given d ∧ Path.same d path = true) ∧
        (execute fs' parser arguments).warnings.length =
          (execute fs parser arguments).warnings.length + news.length := by
  have hfs : Grown bytes fs fs' := ⟨hfs', .inr ⟨names, hadds⟩⟩
  have hnone : String.fromUTF8? bytes = none := dif_neg hbytes
  have hrange := Arguments.levelInRange_of_parse hparse
  rw [execute_eq_run hparse] at hcode
  obtain ⟨documents, hfound', hmore, hkept⟩ := found_adds hfs (hadds.proper hfs') hnone hfound
  have hne' : documents ≠ [] := by
    rintro rfl
    exact hne hkept.symm
  have hload : ∀ p ∈ paths, Given fs a p → (load fs parser p).isOk = true :=
    fun p hp => isOk_load_of_code hrange hcode hfound hp
  have hload' : ∀ p ∈ documents, Given fs' a p → (load fs' parser p).isOk = true :=
    fun p hp => isOk_load_adds hfs hnone (Discovery.find_eq_ok_iff.1 hfound).1 hkept hload hp
  rw [execute_eq_run hparse, execute_eq_run hparse, run_of_admitted hrange hfound' hne' hload',
    run_of_admitted hrange hfound hne hload]
  have hview : view fs' a = view fs a := by
    simp only [view, deepest, sorts, configured_eq hfs hnone]
  have hearly : early fs' = early fs := by rw [early, early, configured_eq hfs hnone]
  refine ⟨rfl, ?_, rfl, documents.filter fun p => !decide (fs.AtFile p), ?_, fun path => ?_, ?_⟩
  · simp only [hview, loaded?_eq hfs hnone, ← hkept, filterMap_loaded?_filter]
  · exact nodup_components (hmore.ordered.sublist List.filter_sublist)
  · rw [← hmore.added path]
    simp only [List.mem_filter, Bool.not_eq_true', decide_eq_false_iff_not, and_assoc]
  · simp only [List.length_append, hearly, length_skipped?_eq hfs hnone]
    rw [length_skipped?_filter documents, hkept, Nat.add_assoc]

end

/-! ### A file that is no text in a directory -/

/-- A directory with a document and an empty directory. -/
def tidy : FileSystem :=
  .cons ⟨"a.md", .file ByteArray.empty⟩ .nil (.cons ⟨"d", .directory⟩ .nil .nil)

/-- That directory, where the directory in it has a file that is no text. -/
def spoilt : FileSystem :=
  .cons ⟨"a.md", .file ByteArray.empty⟩ .nil
    (.cons ⟨"d", .directory⟩ (.cons ⟨"b.md", .file ⟨#[0xff]⟩⟩ .nil .nil) .nil)

theorem proper_spoilt : spoilt.Proper := by
  have ha : Path.IsName "a.md" := ⟨by decide, by decide⟩
  have hd : Path.IsName "d" := ⟨by decide, by decide⟩
  have hb : Path.IsName "b.md" := ⟨by decide, by decide⟩
  have hne : RawText.ofString "d" ≠ "a.md" := by decide
  refine ⟨ha, by decide, ?_, trivial, hd, by decide, ?_, ⟨hb, by decide, ?_, trivial, trivial⟩,
    trivial⟩
  · simp [Forest.branches, hne]
  · simp [Forest.branches]
  · simp [Forest.branches]

theorem parse_spoilt : Arguments.parse ["-emd", "."] =
    .ok (.outline { paths := ["."], extensions := ["md"] }) := rfl

section
variable {a : Arguments}

theorem found_tidy (hp : a.paths = [Path.current]) (he : a.extensions = ["md"]) :
    found tidy a = .ok ["./a.md"] := by
  have hopen : Discovery.Open tidy Path.current := (Discovery.unopened_eq_nil_iff _ _).1 rfl
  have hexpand : Discovery.expand tidy ["md"] Path.current = .ok ["./a.md"] := by
    rw [Discovery.expand_of_open (FileSystem.resolve_current tidy) hopen]
    decide
  have hwanted : wanted tidy a = ["md"] := by
    rw [wanted, he]
    rfl
  rw [found, hwanted, hp, Discovery.find_singleton hexpand]

theorem code_tidy (parser : Parser) (hp : a.paths = [Path.current]) (he : a.extensions = ["md"])
    (h : a.LevelInRange) : (run tidy parser a).code = 0 := by
  have hload : ∀ p ∈ [RawText.ofString "./a.md"],
      Given tidy a p → (load tidy parser p).isOk = true := by
    intro p _ hgiven
    obtain ⟨given, hmem, hfile, -⟩ := hgiven
    -- The directory was given, and no file.
    rw [hp] at hmem
    rw [List.mem_singleton.1 hmem, FileSystem.isFile, FileSystem.resolve_current] at hfile
    cases hfile
  rw [run_of_admitted h (found_tidy hp he) (List.cons_ne_nil _ _) hload]

end

/-- A file that is no text, in a directory that was empty. -/
theorem execute_spoilt :
    spoilt.Proper ∧ Adds ⟨#[0xff]⟩ ["d", "b.md"] tidy spoilt ∧ ¬ ByteArray.IsValidUTF8 ⟨#[0xff]⟩ ∧
      Arguments.parse ["-emd", "."] = .ok (.outline { paths := ["."], extensions := ["md"] }) ∧
      found tidy { paths := ["."], extensions := ["md"] } = .ok ["./a.md"] ∧
      [RawText.ofString "./a.md"] ≠ [] ∧
      (execute tidy (fun text => some (SyntaxTree.plain text)) ["-emd", "."]).code = 0 ∧
      (execute spoilt (fun text => some (SyntaxTree.plain text)) ["-emd", "."]).output =
        (execute tidy (fun text => some (SyntaxTree.plain text)) ["-emd", "."]).output := by
  have hadds : Adds ⟨#[0xff]⟩ ["d", "b.md"] tidy spoilt := .past (.inside .here)
  have hbytes : ¬ ByteArray.IsValidUTF8 ⟨#[0xff]⟩ := by decide
  have hne : [RawText.ofString "./a.md"] ≠ [] := List.cons_ne_nil _ _
  have hfound : found tidy { paths := ["."], extensions := ["md"] } = .ok ["./a.md"] :=
    found_tidy rfl rfl
  have hcode :
      (execute tidy (fun text => some (SyntaxTree.plain text)) ["-emd", "."]).code = 0 := by
    rw [execute_eq_run parse_spoilt]
    exact code_tidy _ rfl rfl (Arguments.levelInRange_of_parse parse_spoilt)
  exact ⟨proper_spoilt, hadds, hbytes, parse_spoilt, hfound, hne, hcode,
    (execute_adds proper_spoilt hadds hbytes parse_spoilt hfound hne hcode).2.1⟩

end DocOutline.CommandLine
