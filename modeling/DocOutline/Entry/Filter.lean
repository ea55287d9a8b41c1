import DocOutline.Entry
import DocOutline.Text.Blank
import DocOutline.Text.Lowercase
import DocOutline.Text.Occurs

/-! Entries filtered by a keyword.

An entry matches when its shown text, lower-cased, or its location holds the
keyword, trimmed and lower-cased. Filtering keeps the matches and their ancestors,
and a blank keyword keeps everything (`filter_of_isEmpty`). -/
namespace DocOutline

/-- What is looked for when `keyword` is given. -/
def needle (keyword : String) : List Char := Text.lowercase (Text.trim keyword.toList)

/-- Whether `part`, lower-cased before, stands in the text or in the location. -/
def Heading.hasKeyword (part : List Char) (h : Heading) : Bool :=
  Text.occurs part (Text.lowercase h.presentableText.toList) ||
    Text.occurs part h.location.toList

/-- The entries that match the keyword, and the ancestors of each. -/
def Entries.filter (keyword : String) (e : Entries) : Entries :=
  if (needle keyword).isEmpty then e else e.keep (Heading.hasKeyword (needle keyword))

end DocOutline
