import DocOutline.CommandLine.Arguments
import DocOutline.Discovery
import DocOutline.Entry.Filter
import DocOutline.Entry.Json
import DocOutline.Entry.Order
import DocOutline.Entry.Text
import DocOutline.Loading
import DocOutline.Markdown
import DocOutline.Text.Lines

/-! What a run of the program puts out.

A run finds documents, loads them and shows the outline of each. A document that
cannot be loaded is skipped with a warning, unless it was given as a file itself:
then the run fails and shows nothing but a report of what went wrong, which has more
than one line if it names a path that has. -/
namespace DocOutline

/-- What is worth a warning. -/
inductive Warning where
  | malformedConfig
  | skipped (path : RawText) (cause : LoadError)
  deriving DecidableEq, Repr

def Warning.message : Warning → String
  | malformedConfig => "ignoring malformed config " ++ Config.fileName
  | skipped path cause => "skipping document " ++ path.shown ++ ": " ++ cause.message

/-- What a run leaves: its exit code, its output, and the lines of its error
output and its log. -/
structure Outcome where
  code : Nat
  output : String := ""
  reports : List String := []
  warnings : List Warning := []
  deriving DecidableEq, Repr

namespace Outcome

/-- What is reported of a failure. -/
def report (e : LoadError) : String := "Error: " ++ e.message

def nothingFound : String := "No matching files found"

/-- A run that failed shows nothing. -/
def failed (e : LoadError) (warnings : List Warning) : Outcome where
  code := 1
  reports := Text.lines (report e)
  warnings := warnings

end Outcome

/-- What comes of loading documents one after the other. -/
structure Gathered where
  documents : List (RawText × Document) := []
  warnings : List Warning := []
  /-- What went wrong with a document that must not be skipped; nothing after it
  was loaded. -/
  failure? : Option LoadError := none

/-- The documents that load, where those that `isExplicit` accepts must. -/
def gather (load : RawText → Except LoadError Document) (isExplicit : RawText → Bool) :
    List RawText → Gathered
  | [] => {}
  | path :: paths =>
    match load path with
    | .ok d =>
      let rest := gather load isExplicit paths
      { rest with documents := (path, d) :: rest.documents }
    | .error e =>
      if isExplicit path then { failure? := some e }
      else
        let rest := gather load isExplicit paths
        { rest with warnings := .skipped path e :: rest.warnings }

/-- How documents are shown. -/
structure View where
  options : OutlineOptions
  sort : Bool
  filter? : Option String
  deriving DecidableEq, Repr

namespace View

/-- The entries shown of a document. -/
def entries (v : View) (d : Document) : Entries :=
  let all := d.entries v.options
  let ordered := if v.sort then all.sortAlphabetically else all
  match v.filter? with
  | none => ordered
  | some keyword => ordered.filter keyword

/-- The text of a document: its path and its text outline. -/
def block (v : View) (path : RawText) (d : Document) : String :=
  path.shown ++ "\n" ++ (v.entries d).text

def text (v : View) (documents : List (RawText × Document)) : String :=
  String.join (documents.map fun p => v.block p.1 p.2)

/-- The object of a document: its path and its entries. -/
def object (v : View) (path : RawText) (d : Document) : Json :=
  .object [("path", .string path.shown), ("outline", .array (v.entries d).toJson)]

def json (v : View) (documents : List (RawText × Document)) : String :=
  (Json.array (documents.map fun p => v.object p.1 p.2)).pretty ++ "\n"

end View

namespace CommandLine

/-- What is shown when help is asked for. -/
def usage : String :=
  "\n".intercalate
    ["Section outlines for markdown documents",
     "",
     "Usage: mdoutline [OPTIONS] [PATH]...",
     "",
     "Arguments:",
     "  [PATH]...  Files or directories to outline",
     "",
     "Options:",
     "  -e, --ext <EXT>         File extensions to match",
     "      --max-level <N>     Deepest heading level to show",
     "      --sort              Sort headings alphabetically at every level",
     "      --filter <KEYWORD>  Only keep headings matching this keyword (and their ancestors)",
     "      --json              Print JSON instead of an indented outline",
     "  -h, --help              Print help",
     ""]

/-- The run that some arguments ask for. -/
def run (fs : FileSystem) (parser : Parser) (a : Arguments) : Outcome :=
  let loaded := Config.load (fs.readText Config.fileName).toOption
  let early : List Warning := if loaded.malformed then [.malformedConfig] else []
  let config := a.override loaded.config
  match Discovery.find fs a.paths config.fileExtensions with
  | .error e => .failed e early
  | .ok found =>
    if found.isEmpty then { code := 0, reports := [Outcome.nothingFound], warnings := early }
    else
      let explicit := a.paths.filter fs.isFile
      let gathered :=
        gather (Document.load fs parser markdown) (fun path => explicit.any (Path.same path)) found
      let warnings := early ++ gathered.warnings
      match gathered.failure? with
      | some e => .failed e warnings
      | none =>
        let view : View := ⟨config.outlineOptions, config.sort, a.filter?⟩
        { code := 0
          output := if a.json then view.json gathered.documents else view.text gathered.documents
          warnings := warnings }

/-- What the program does with its arguments. -/
def execute (fs : FileSystem) (parser : Parser) (arguments : List RawText) : Outcome :=
  match Arguments.parse arguments with
  | .error e => { code := 2, reports := [e.message] }
  | .ok .help => { code := 0, output := usage }
  | .ok (.outline a) => run fs parser a

end CommandLine

end DocOutline
