import DocOutline.Entry

/-! The text outline: one line for each heading in pre-order, indented by two
spaces for each heading it stands beneath. -/
namespace DocOutline

/-- The line of a heading at a depth, without the newline at its end: the
indentation, one hash sign for each level, the text and the location. -/
def Heading.textLine (depth : Nat) (h : Heading) : List Char :=
  List.replicate (2 * depth) ' ' ++ List.replicate h.level.toNat '#' ++
    ' ' :: h.presentableText.toList ++ ' ' :: h.location.toList

/-- The lines of the text outline. -/
def Entries.textLines (e : Entries) : List (List Char) :=
  (e.depths 0).map fun p => p.2.textLine p.1

/-- The text outline, each line ended by a newline. -/
def Entries.text (e : Entries) : String :=
  String.ofList (e.textLines.flatMap fun line => line ++ ['\n'])

theorem Entries.length_textLines (e : Entries) : e.textLines.length = e.size := by
  simp [Entries.textLines]

end DocOutline
