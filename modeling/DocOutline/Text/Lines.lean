/-! The lines of a text. -/
namespace DocOutline.Text

/-- What stands before, between and after the newlines of a text. -/
def lines (text : String) : List String := (text.toList.splitOn '\n').map String.ofList

theorem lines_of_not_mem {text : String} (h : '\n' ∉ text.toList) : lines text = [text] := by
  rw [lines, List.splitOn_eq_singleton h, List.map_singleton, String.ofList_toList]

theorem lines_append (before after : String) :
    lines (before ++ "\n" ++ after) = lines before ++ lines after := by
  have hsplit : (before ++ "\n" ++ after).toList = before.toList ++ '\n' :: after.toList := by
    simp
  rw [lines, hsplit, List.splitOn_append_cons_self, List.map_append]
  rfl

/-- Of some lines with a newline after each nothing is left after the last newline. -/
theorem lines_ofList_flatMap {ls : List (List Char)} (h : ∀ l ∈ ls, '\n' ∉ l) :
    lines (String.ofList (ls.flatMap fun l => l ++ ['\n'])) = ls.map String.ofList ++ [""] := by
  induction ls with
  | nil => exact lines_of_not_mem (by simp)
  | cons l ls ih =>
    have hsplit : String.ofList ((l :: ls).flatMap fun l => l ++ ['\n']) =
        String.ofList l ++ "\n" ++ String.ofList (ls.flatMap fun l => l ++ ['\n']) := by
      apply String.toList_injective
      simp
    have hl : '\n' ∉ (String.ofList l).toList := by
      rw [String.toList_ofList]
      exact h l List.mem_cons_self
    rw [hsplit, lines_append, lines_of_not_mem hl, ih fun l hl => h l (List.mem_cons_of_mem _ hl)]
    rfl

end DocOutline.Text
