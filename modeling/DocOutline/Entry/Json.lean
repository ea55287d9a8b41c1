import DocOutline.Entry
import DocOutline.Json

/-! Entries as JSON: an object for each, with its children only if it has any. -/
namespace DocOutline

def Entries.toJson : Entries → List Json
  | .nil => []
  | .cons h below after =>
    .object
      ([("title", .string h.title), ("level", .number h.level.toNat), ("line", .number h.line)] ++
        if below.isEmpty then [] else [("children", .array (Entries.toJson below))]) ::
      Entries.toJson after

/-- The pretty text of the entries. -/
def Entries.prettyJson (e : Entries) : String := (Json.array e.toJson).pretty

end DocOutline
