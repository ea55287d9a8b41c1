import DocOutline.Outline
import DocOutline.Toml.Reader

/-! Preferences, from a configuration file.

A file that is missing or unreadable leaves the defaults, and so does one that is
malformed or gives a preference a value of the wrong type; the latter is worth a
warning. Keys that are no preference are passed over. Outlines show at least
level one and at most level six. -/
namespace DocOutline

structure Config where
  /-- The deepest heading level shown. -/
  maxLevel : UInt8 := maxHeaderLevel
  /-- The suffixes of the files taken from directories. -/
  fileExtensions : List String := ["md"]
  /-- Whether entries are ordered by title. -/
  sort : Bool := false
  deriving DecidableEq, Repr, Inhabited

namespace Config

/-- The file in the working directory that holds the preferences. -/
def fileName : String := "mdoutline.toml"

/-- An integer in the range of a level, or a float that is in it once its
fraction is cut off. -/
def levelOf? : Toml.Definition → Option UInt8
  | .value (.integer n) => if 0 ≤ n ∧ n < 256 then some n.toNat.toUInt8 else none
  | .value (.float x) => if -1.0 < x && x < 256.0 then some x.toUInt8 else none
  | _ => none

def extensionOf? : Toml.Value → Option String
  | .string text => some text
  | _ => none

def extensionsOf? : Toml.Definition → Option (List String)
  | .value (.array items) => items.mapM extensionOf?
  | _ => none

def boolOf? : Toml.Definition → Option Bool
  | .value (.boolean b) => some b
  | _ => none

/-- The value of a top key as `read?` takes it, or `missing` if the key is not there. -/
def setting? {α : Type} (t : Toml.Tables) (key : String) (read? : Toml.Definition → Option α)
    (missing : α) : Option α :=
  match t.top? key with
  | none => some missing
  | some d => read? d

def ofTables? (t : Toml.Tables) : Option Config := do
  let maxLevel ← setting? t "max_level" levelOf? maxHeaderLevel
  let fileExtensions ← setting? t "file_extensions" extensionsOf? ["md"]
  let sort ← setting? t "sort" boolOf? false
  pure { maxLevel, fileExtensions, sort }

/-- The preferences in a file's text, unless it is malformed. -/
def parse? (text : String) : Option Config := (Toml.read? text).bind ofTables?

/-- What comes of looking for preferences. -/
structure Loaded where
  config : Config
  /-- Whether there was a file with malformed text. -/
  malformed : Bool
  deriving DecidableEq, Repr

/-- The preferences in the text of the file, if it could be read. -/
def load (text? : Option String) : Loaded :=
  match text? with
  | none => ⟨{}, false⟩
  | some text =>
    match parse? text with
    | some config => ⟨config, false⟩
    | none => ⟨{}, true⟩

/-- The outline settings of these preferences. -/
def outlineOptions (c : Config) : OutlineOptions where
  maxLevel :=
    if c.maxLevel < 1 then 1
    else if maxHeaderLevel < c.maxLevel then maxHeaderLevel
    else c.maxLevel

end Config

end DocOutline
