import DocOutline.CommandLine.Run
import DocOutline.Proofs.AcceptedArguments
import DocOutline.Proofs.Documents

/-! What a run comes to, from its file system and its arguments.

The documents are loaded one after the other, and the first that was given as a file
and does not load ends the run. Up to there each is kept or warned of
(`gather_append`). So there are four ways for a run to end (`Ends`, `ends_run`), and a
property of all runs is shown by going through them.

A run fails exactly when the search fails or a document given as a file does not load.
It then shows nothing but its report; otherwise it shows the documents that load, each
on its own (`composes_execute`). A report has one line unless a path that it names has
more. -/
namespace DocOutline.CommandLine

/-! ### Loading one after the other -/

section Gather
variable {load : RawText → Except LoadError Document} {isExplicit : RawText → Bool}
  {paths : List RawText}

/-- The document of a path, if it loads. -/
def loaded? (load : RawText → Except LoadError Document) (path : RawText) :
    Option (RawText × Document) :=
  (load path).toOption.map fun d => (path, d)

/-- The warning about a path whose document does not load. -/
def skipped? (load : RawText → Except LoadError Document) (path : RawText) : Option Warning :=
  match load path with
  | .ok _ => none
  | .error e => some (.skipped path e)

/-- Whether every path that must load does. -/
def Admits (load : RawText → Except LoadError Document) (isExplicit : RawText → Bool)
    (paths : List RawText) : Prop :=
  ∀ path ∈ paths, isExplicit path = true → (load path).isOk = true

/-- Up to a path that must load and does not, documents are kept or warned of. -/
theorem gather_append (h : Admits load isExplicit paths) (rest : List RawText) :
    gather load isExplicit (paths ++ rest) =
      { documents := paths.filterMap (loaded? load) ++ (gather load isExplicit rest).documents
        warnings := paths.filterMap (skipped? load) ++ (gather load isExplicit rest).warnings
        failure? := (gather load isExplicit rest).failure? } := by
  induction paths with
  | nil => rfl
  | cons path paths ih =>
    have hpath := h path List.mem_cons_self
    have hrest := ih fun p hp => h p (List.mem_cons_of_mem _ hp)
    cases hl : load path with
    | ok d => simp [gather, hl, hrest, loaded?, skipped?, Except.toOption]
    | error e =>
      -- It does not load and is admitted, so it is not one that must.
      have hfree : isExplicit path = false := by
        simpa [hl, Except.isOk, Except.toBool] using hpath
      simp [gather, hl, hfree, hrest, loaded?, skipped?, Except.toOption]

theorem gather_of_admits (h : Admits load isExplicit paths) :
    gather load isExplicit paths =
      { documents := paths.filterMap (loaded? load)
        warnings := paths.filterMap (skipped? load) } := by
  have happend := gather_append h []
  rwa [List.append_nil, gather, List.append_nil, List.append_nil] at happend

theorem gather_of_refused (h : Admits load isExplicit paths) {path : RawText}
    (hexplicit : isExplicit path = true) {e : LoadError} (hload : load path = .error e)
    (after : List RawText) :
    gather load isExplicit (paths ++ path :: after) =
      { documents := paths.filterMap (loaded? load)
        warnings := paths.filterMap (skipped? load)
        failure? := some e } := by
  have hlast : gather load isExplicit (path :: after) = { failure? := some e } := by
    simp [gather, hload, hexplicit]
  rw [gather_append h, hlast, List.append_nil, List.append_nil]

/-- Either all load that must, or there is a first that does not. -/
theorem admits_or_refused (load : RawText → Except LoadError Document) (isExplicit : RawText → Bool)
    (paths : List RawText) :
    Admits load isExplicit paths ∨
      ∃ before path after e, paths = before ++ path :: after ∧ Admits load isExplicit before ∧
        isExplicit path = true ∧ load path = .error e := by
  induction paths with
  | nil => exact .inl fun _ hp => absurd hp List.not_mem_nil
  | cons path paths ih =>
    by_cases hpath : isExplicit path = true → (load path).isOk = true
    · rcases ih with hall | ⟨before, p, after, e, rfl, hbefore, hp⟩
      · exact .inl (List.forall_mem_cons.2 ⟨hpath, hall⟩)
      · exact .inr ⟨path :: before, p, after, e, rfl, List.forall_mem_cons.2 ⟨hpath, hbefore⟩, hp⟩
    · cases hl : load path with
      | ok d => exact absurd (fun _ => by rw [hl]; rfl) hpath
      | error e =>
        have hexplicit : isExplicit path = true := by
          simpa [hl, Except.isOk, Except.toBool] using hpath
        exact .inr ⟨[], path, paths, e, rfl, fun _ hp => absurd hp List.not_mem_nil, hexplicit, hl⟩

theorem length_filterMap_skipped? :
    (paths.filterMap (skipped? load)).length = paths.countP fun path => !(load path).isOk := by
  induction paths with
  | nil => rfl
  | cons path paths ih =>
    cases hl : load path <;> simp [skipped?, hl, ih, Except.isOk, Except.toBool]

end Gather

/-! ### What a run goes by -/

section Run
variable (fs : FileSystem) (parser : Parser) (a : Arguments)

/-- What the configuration file leaves. -/
def configured : Config.Loaded := Config.load (fs.readText Config.fileName).toOption

/-- The warning about the configuration file, if it is malformed. -/
def early : List Warning := if (configured fs).malformed then [.malformedConfig] else []

/-- The extensions that are asked for, or else those configured. -/
def wanted : List String :=
  if a.extensions.isEmpty then (configured fs).config.fileExtensions else a.extensions

/-- The level that is asked for, or else the one configured, brought into the range
of levels. -/
def deepest : UInt8 :=
  a.maxLevel?.getD (max 1 (min maxHeaderLevel (configured fs).config.maxLevel))

/-- Whether titles are to be sorted. -/
def sorts : Bool := (configured fs).config.sort || a.sort

/-- The documents that are found. -/
def found : Except LoadError (List RawText) := Discovery.find fs a.paths (wanted fs a)

/-- Whether a path is, by its components, one that was given and leads to a file. -/
def Given (path : RawText) : Prop :=
  ∃ given ∈ a.paths, fs.isFile given = true ∧ Path.components given = Path.components path

/-- What comes of loading the document that a path leads to. -/
abbrev load (path : RawText) : Except LoadError Document := Document.load fs parser markdown path

/-- What makes a run fail: the search does, or a document given as a file does not load. -/
def FailsWith (e : LoadError) : Prop :=
  found fs a = .error e ∨
    ∃ paths, found fs a = .ok paths ∧
      ∃ path ∈ paths, Given fs a path ∧ load fs parser path = .error e

/-- How documents are shown. -/
def view : View := ⟨{ maxLevel := deepest fs a }, sorts fs a, a.filter?⟩

/-- Whether a path is one that was given and leads to a file, as a run decides it. -/
def isExplicit (path : RawText) : Bool := (a.paths.filter fs.isFile).any (Path.same path)

theorem given_iff {path : RawText} : Given fs a path ↔ isExplicit fs a path = true := by
  simp only [Given, isExplicit, List.any_eq_true, List.mem_filter, Path.same_iff, and_assoc]
  constructor
  · rintro ⟨given, hmem, hfile, hsame⟩
    exact ⟨given, hmem, hfile, hsame.symm⟩
  · rintro ⟨given, hmem, hfile, hsame⟩
    exact ⟨given, hmem, hfile, hsame.symm⟩

/-! ### How a run ends -/

/-- The ways for a run to end, each with what it leaves. -/
inductive Ends : Outcome → Prop where
  /-- The search fails. -/
  | unfound {e : LoadError} (hfound : found fs a = .error e) : Ends (.failed e (early fs))
  /-- There are no documents. -/
  | nothing (hfound : found fs a = .ok []) :
      Ends { code := 0, reports := [Outcome.nothingFound], warnings := early fs }
  /-- A document that was given as a file does not load, and those before it have
  been loaded or warned of. -/
  | refused {before after : List RawText} {path : RawText} {e : LoadError}
      (hfound : found fs a = .ok (before ++ path :: after))
      (hbefore : ∀ p ∈ before, Given fs a p → (load fs parser p).isOk = true)
      (hgiven : Given fs a path) (hload : load fs parser path = .error e) :
      Ends (.failed e (early fs ++ before.filterMap (skipped? (load fs parser))))
  /-- The documents that load are shown, and the others warned of. -/
  | shown {paths : List RawText} (hfound : found fs a = .ok paths) (hne : paths ≠ [])
      (hload : ∀ path ∈ paths, Given fs a path → (load fs parser path).isOk = true) :
      Ends
        { code := 0
          output :=
            if a.json then (view fs a).json (paths.filterMap (loaded? (load fs parser)))
            else (view fs a).text (paths.filterMap (loaded? (load fs parser)))
          warnings := early fs ++ paths.filterMap (skipped? (load fs parser)) }

/-- Every run ends in one of these ways. -/
theorem ends_run (h : a.LevelInRange) : Ends fs parser a (run fs parser a) := by
  -- A level that is asked for is in range, so bringing it there leaves it as it is.
  have hview : (⟨(a.override (configured fs).config).outlineOptions,
      (a.override (configured fs).config).sort, a.filter?⟩ : View) = view fs a := by
    rw [view, deepest, ← Arguments.maxLevel_override h]
    rfl
  have hfind : Discovery.find fs a.paths (a.override (configured fs).config).fileExtensions =
      found fs a := rfl
  rw [configured] at hview hfind
  unfold run
  simp only [hview, hfind, ← isExplicit.eq_def]
  cases hfound : found fs a with
  | error e => exact .unfound hfound
  | ok paths =>
    by_cases hempty : paths = []
    · subst hempty
      exact .nothing hfound
    · simp only [List.isEmpty_iff, hempty, if_false]
      rcases admits_or_refused (load fs parser) (isExplicit fs a) paths with
        hall | ⟨before, path, after, e, rfl, hbefore, hexplicit, hload⟩
      · rw [gather_of_admits hall]
        exact .shown hfound hempty fun p hp hgiven => hall p hp ((given_iff fs a).1 hgiven)
      · rw [gather_of_refused hbefore hexplicit hload]
        exact .refused hfound (fun p hp hgiven => hbefore p hp ((given_iff fs a).1 hgiven))
          ((given_iff fs a).2 hexplicit) hload

section
variable {fs parser a}

/-- What a run searches for is what is found. -/
theorem find_override : Discovery.find fs a.paths
    (a.override (Config.load (fs.readText Config.fileName).toOption).config).fileExtensions =
      found fs a := rfl

theorem run_of_unfound {e : LoadError} (h : found fs a = .error e) :
    run fs parser a = .failed e (early fs) := by
  unfold run
  simp only [find_override, h]
  rfl

theorem run_of_nothing_found (h : found fs a = .ok []) :
    run fs parser a =
      { code := 0, reports := [Outcome.nothingFound], warnings := early fs } := by
  unfold run
  simp only [find_override, h]
  rfl

/-- A run that finds documents, of which all load that were given as files, shows those
that load. -/
theorem run_of_admitted (h : a.LevelInRange) {paths : List RawText}
    (hfound : found fs a = .ok paths) (hne : paths ≠ [])
    (hload : ∀ p ∈ paths, Given fs a p → (load fs parser p).isOk = true) :
    run fs parser a =
      { code := 0
        output :=
          if a.json then (view fs a).json (paths.filterMap (loaded? (load fs parser)))
          else (view fs a).text (paths.filterMap (loaded? (load fs parser)))
        warnings := early fs ++ paths.filterMap (skipped? (load fs parser)) } := by
  have hends := ends_run fs parser a h
  generalize run fs parser a = o at hends
  cases hends with
  | unfound herror =>
    rw [hfound] at herror
    cases herror
  | nothing hnone =>
    rw [hfound] at hnone
    exact absurd (Except.ok.inj hnone) hne
  | refused hok _ hgiven herror =>
    obtain rfl := Except.ok.inj (hfound.symm.trans hok)
    have hisOk := hload _ List.mem_append_cons_self hgiven
    rw [herror] at hisOk
    cases hisOk
  | shown hok =>
    obtain rfl := Except.ok.inj (hfound.symm.trans hok)
    rfl

end

/-! ### What is shown -/

/-- What is shown of a document with this path whose file has this text, unless the
parser gives up on it: its path, and its outline, sorted if asked for and then
filtered. -/
def shown? (v : View) (parser : Parser) (path : RawText) (text : String) : Option String :=
  (parser text).map fun t =>
    let all := (markdown.document text t).entries v.options
    let sorted := if v.sort then all.sortAlphabetically else all
    let kept := v.filter?.elim sorted sorted.filter
    path.shown ++ "\n" ++ kept.text

theorem shown?_eq (v : View) (path : RawText) (text : String) :
    shown? v parser path text =
      (parser text).map fun t => v.block path (markdown.document text t) := by
  unfold shown? View.block View.entries
  cases v.filter? <;> rfl

theorem map_block_loaded? (v : View) (path : RawText) :
    (loaded? (load fs parser) path).map (fun p => v.block p.1 p.2) =
      (fs.readText path).toOption.bind (shown? v parser path) := by
  unfold loaded? load Document.load
  cases fs.readText path with
  | error e => rfl
  | ok text =>
    show ((Document.ofSource parser markdown path text).toOption.map _).map _ =
      shown? v parser path text
    rw [shown?_eq, Document.ofSource]
    cases parser text <;> rfl

theorem text_eq_join (v : View) (paths : List RawText) :
    v.text (paths.filterMap (loaded? (load fs parser))) =
      String.join (paths.filterMap fun path =>
        (fs.readText path).toOption.bind (shown? v parser path)) := by
  rw [View.text, List.map_filterMap]
  simp only [map_block_loaded?]

/-! ### All or nothing -/

/-- What a run with accepted arguments comes to. -/
structure Composes (o : Outcome) : Prop where
  /-- It fails exactly if something makes it fail. -/
  code_eq_one_iff : o.code = 1 ↔ ∃ e, FailsWith fs parser a e
  /-- If it fails, it shows nothing and reports what went wrong. -/
  of_failed : o.code = 1 →
    o.output = "" ∧
      ∃ e, FailsWith fs parser a e ∧
        o.reports = Text.lines ("Error: " ++ e.message) ∧
        ('\n' ∉ e.message.toList → o.reports = ["Error: " ++ e.message])
  /-- If not, it warns of the documents that do not load and shows the others. -/
  of_succeeded : o.code ≠ 1 →
    o.code = 0 ∧
      ∃ paths, found fs a = .ok paths ∧
        o.warnings.length =
          (paths.countP fun path => !(load fs parser path).isOk) +
            (if (configured fs).malformed then 1 else 0) ∧
        (a.json = false →
          o.output = String.join (paths.filterMap fun path =>
            (fs.readText path).toOption.bind (shown? (view fs a) parser path)))

theorem reports_failed (e : LoadError) (warnings : List Warning) :
    (Outcome.failed e warnings).reports = Text.lines (Outcome.report e) := rfl

theorem lines_report {e : LoadError} (h : '\n' ∉ e.message.toList) :
    Text.lines (Outcome.report e) = [Outcome.report e] := by
  apply Text.lines_of_not_mem
  simpa [Outcome.report] using h

variable {fs parser a}

theorem Ends.code_eq_one_iff {o : Outcome} (h : Ends fs parser a o) :
    o.code = 1 ↔ ∃ e, FailsWith fs parser a e := by
  cases h with
  | unfound hfound => exact iff_of_true rfl ⟨_, .inl hfound⟩
  | nothing hfound => simp [FailsWith, hfound]
  | refused hfound _ hgiven hload =>
    exact iff_of_true rfl ⟨_, .inr ⟨_, hfound, _, List.mem_append_cons_self, hgiven, hload⟩⟩
  | shown hfound hne hload =>
    refine iff_of_false (by simp) ?_
    rintro ⟨e, herror | ⟨paths, hpaths, path, hpath, hgiven, herror⟩⟩
    · rw [hfound] at herror
      cases herror
    · obtain rfl := Except.ok.inj (hfound.symm.trans hpaths)
      have hok := hload path hpath hgiven
      rw [herror] at hok
      cases hok

theorem Ends.of_failed {o : Outcome} (h : Ends fs parser a o) (hcode : o.code = 1) :
    ∃ (e : LoadError) (warnings : List Warning),
      o = .failed e warnings ∧ FailsWith fs parser a e := by
  cases h with
  | unfound hfound => exact ⟨_, _, rfl, .inl hfound⟩
  | refused hfound _ hgiven hload =>
    exact ⟨_, _, rfl, .inr ⟨_, hfound, _, List.mem_append_cons_self, hgiven, hload⟩⟩
  | nothing | shown => simp at hcode

theorem FailsWith.eq_of_found {e cause : LoadError} (h : FailsWith fs parser a e)
    (hfound : found fs a = .error cause) : e = cause := by
  rcases h with herror | ⟨paths, hpaths, _⟩
  · exact Except.error.inj (herror.symm.trans hfound)
  · rw [hfound] at hpaths
    cases hpaths

theorem Ends.of_succeeded {o : Outcome} (h : Ends fs parser a o) (hcode : o.code ≠ 1) :
    o.code = 0 ∧
      ∃ paths, found fs a = .ok paths ∧
        o.warnings = early fs ++ paths.filterMap (skipped? (load fs parser)) ∧
        (a.json = false → o.output =
          (view fs a).text (paths.filterMap (loaded? (load fs parser)))) := by
  cases h with
  | nothing hfound => exact ⟨rfl, [], hfound, by simp, fun _ => rfl⟩
  | shown hfound => exact ⟨rfl, _, hfound, rfl, fun hjson => by simp [hjson]⟩
  | unfound | refused => exact absurd rfl hcode

theorem execute_eq_run {arguments : List RawText}
    (h : Arguments.parse arguments = .ok (.outline a)) :
    execute fs parser arguments = run fs parser a := by
  rw [execute, h]

/-- What a run with accepted arguments comes to: all or nothing, each document on its
own. -/
theorem composes_execute {arguments : List RawText}
    (h : Arguments.parse arguments = .ok (.outline a)) :
    Composes fs parser a (execute fs parser arguments) := by
  have hends := ends_run fs parser a (Arguments.levelInRange_of_parse h)
  rw [execute_eq_run h]
  constructor
  case code_eq_one_iff => exact hends.code_eq_one_iff
  case of_failed =>
    intro hcode
    obtain ⟨e, warnings, heq, hcause⟩ := hends.of_failed hcode
    rw [heq]
    exact ⟨rfl, e, hcause, rfl, lines_report⟩
  case of_succeeded =>
    intro hcode
    obtain ⟨hzero, paths, hfound, hwarnings, htext⟩ := hends.of_succeeded hcode
    refine ⟨hzero, paths, hfound, ?_, fun hjson => ?_⟩
    · rw [hwarnings, List.length_append, length_filterMap_skipped?, early, Nat.add_comm]
      split <;> rfl
    · rw [htext hjson, text_eq_join]

end Run

/-- A directory with a document and a file that is no text. -/
def mixed : FileSystem :=
  .cons ⟨"a.md", .file ByteArray.empty⟩ .nil (.cons ⟨"b.md", .file ⟨#[0xff]⟩⟩ .nil .nil)

/-- A run over that directory, in which the document is given as a file as well. -/
theorem composes_mixed :
    Arguments.parse [".", "a.md"] = .ok (.outline { paths := [".", "a.md"] }) ∧
      Composes mixed (fun text => some (SyntaxTree.plain text)) { paths := [".", "a.md"] }
        (execute mixed (fun text => some (SyntaxTree.plain text)) [".", "a.md"]) := by
  have hparse : Arguments.parse [".", "a.md"] =
      .ok (.outline { paths := [".", "a.md"] }) := rfl
  exact ⟨hparse, composes_execute hparse⟩

/-! ### A report of two lines -/

open Discovery (dotted)

/-- A directory whose name has two lines. -/
def twoLineName : FileSystem := .cons ⟨"d\nError: e", .directory⟩ .nil .nil

theorem found_twoLineName {n : Nat} (hlong : FileSystem.maxPath < 2 * (n + 1) + 10)
    (hlen : 2 * (n + 1) ≤ FileSystem.maxPath) :
    found twoLineName { paths := [dotted (n + 1)] } =
      .error (.walk (dotted (n + 1) ++ "d\nError: e") .nameTooLong) := by
  have hname : ¬ Path.Hidden "d\nError: e" := by decide
  have hexpand (wanted : List String) : Discovery.expand twoLineName wanted (dotted (n + 1)) =
      .error (.walk (dotted (n + 1) ++ "d\nError: e") .nameTooLong) :=
    Discovery.expand_holding hname hlen hlong wanted
  unfold found Discovery.find
  rw [List.isEmpty_cons, if_neg Bool.false_ne_true,
    Discovery.expandAll_cons_error (hexpand _)]
  rfl

theorem parse_dotted (n : Nat) : Arguments.parse [dotted (n + 1)] =
    .ok (.outline { paths := [dotted (n + 1)] }) := by
  have hpath : Token.ofArgument (dotted (n + 1)) = .path := by
    rw [Token.ofArgument, RawText.text?_ofString, dotted]
    simp [Token.ofText]
  have hne : (RawText.ofString (dotted (n + 1))).bytes ≠ [] := by
    simp [Discovery.bytes_dotted_succ]
  rw [Arguments.parse, Arguments.parseFrom_cons_of_path hpath hne]
  rfl

/-- A line break in a path that a report names is one in the report. -/
theorem lines_report_walk {before after : String} {cause : IoError}
    (hbefore : '\n' ∉ before.toList) (hafter : '\n' ∉ after.toList)
    (hcause : '\n' ∉ cause.message.toList) :
    Text.lines (Outcome.report (.walk (before ++ "\n" ++ after) cause)) =
      ["Error: " ++ ("failed to walk directory: IO error for operation on " ++ before),
        after ++ ": " ++ cause.message] := by
  have hreport : Outcome.report (.walk (before ++ "\n" ++ after) cause) =
      "Error: " ++ ("failed to walk directory: IO error for operation on " ++ before) ++ "\n" ++
        (after ++ ": " ++ cause.message) := by
    unfold Outcome.report LoadError.message
    simp only [RawText.shown_ofString, String.append_assoc]
  rw [hreport, Text.lines_append, Text.lines_of_not_mem (by simp [hbefore]),
    Text.lines_of_not_mem (by simp [hafter, hcause]), List.singleton_append]

theorem newline_not_mem_dotted (n : Nat) : '\n' ∉ (dotted n).toList := by
  induction n with
  | zero => exact List.not_mem_nil
  | succ n ih => simp [dotted, ih]

theorem failed_twoLineName {parser : Parser} {n : Nat}
    (hlong : FileSystem.maxPath < 2 * (n + 1) + 10) (hlen : 2 * (n + 1) ≤ FileSystem.maxPath) :
    (execute twoLineName parser [dotted (n + 1)]).code = 1 ∧
      (execute twoLineName parser [dotted (n + 1)]).reports =
        ["Error: " ++
            ("failed to walk directory: IO error for operation on " ++ (dotted (n + 1) ++ "d")),
          "Error: e: File name too long (os error 36)"] := by
  have hends := ends_run twoLineName parser _ (Arguments.levelInRange_of_parse (parse_dotted n))
  have hcode := hends.code_eq_one_iff.2 ⟨_, .inl (found_twoLineName hlong hlen)⟩
  obtain ⟨e, warnings, heq, hfails⟩ := hends.of_failed hcode
  obtain rfl := hfails.eq_of_found (found_twoLineName hlong hlen)
  have hname : dotted (n + 1) ++ "d\nError: e" = dotted (n + 1) ++ "d" ++ "\n" ++ "Error: e" := by
    simp [String.append_assoc]
  have hbefore : '\n' ∉ (dotted (n + 1) ++ "d").toList := by
    simp [newline_not_mem_dotted]
  have hlines :=
    @lines_report_walk _ "Error: e" .nameTooLong hbefore (by decide) (by decide)
  have hmessage : "Error: e" ++ ": " ++ IoError.nameTooLong.message =
      "Error: e: File name too long (os error 36)" := by
    unfold IoError.message
    simp
  rw [execute_eq_run (parse_dotted n)]
  refine ⟨hcode, ?_⟩
  rw [heq, reports_failed, hname, hlines, hmessage]

/-- A failed run whose report has two lines that begin as reports do. -/
theorem reports_twoLineName :
    Arguments.parse [dotted 2047] = .ok (.outline { paths := [dotted 2047] }) ∧
      (execute twoLineName (fun _ => none) [dotted 2047]).code = 1 ∧
      (execute twoLineName (fun _ => none) [dotted 2047]).reports =
        ["Error: " ++
            ("failed to walk directory: IO error for operation on " ++ (dotted 2047 ++ "d")),
          "Error: e: File name too long (os error 36)"] :=
  ⟨parse_dotted 2046, @failed_twoLineName (fun _ => none) 2046 (by decide) (by decide)⟩

end DocOutline.CommandLine
