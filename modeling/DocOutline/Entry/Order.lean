import DocOutline.Entry
import DocOutline.Text.Lowercase
import DocOutline.Text.Order

/-! Entries in alphabetical order.

Titles compare by their lower-case forms, code point by code point, at every
depth; entries with one lower-case title stay in their order. -/
namespace DocOutline

/-- What entries are ordered by. -/
def Heading.sortKey (h : Heading) : List Char := Text.lowercase h.title.toList

/-- Whether `a` may stand before `b`. -/
def Heading.sortsBefore (a b : Heading) : Bool := Text.sortsBefore Char.toNat a.sortKey b.sortKey

theorem Heading.sortsBefore_total (a b : Heading) : (a.sortsBefore b || b.sortsBefore a) = true :=
  Text.sortsBefore_total _ _

theorem Heading.sortsBefore_trans {a b c : Heading} (hab : a.sortsBefore b = true)
    (hbc : b.sortsBefore c = true) : a.sortsBefore c = true :=
  Text.sortsBefore_trans hab hbc

def Entries.sortAlphabetically (e : Entries) : Entries := Forest.sort Heading.sortsBefore e

end DocOutline
