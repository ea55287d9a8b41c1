/-! Where one text occurs in another. -/
namespace DocOutline.Text

/-- Whether `part` stands somewhere in the text. -/
def occurs (part : List Char) : List Char → Bool
  | [] => part.isEmpty
  | c :: s => part.isPrefixOf (c :: s) || occurs part s

theorem occurs_iff {part s : List Char} : occurs part s = true ↔ part <:+: s := by
  induction s with
  | nil => simp [occurs, List.isEmpty_iff]
  | cons c s ih => simp [occurs, ih, List.infix_cons_iff]

end DocOutline.Text
