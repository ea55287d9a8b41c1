/-! Blanks: the characters that separate words.

`trim` takes blanks off both ends of a text, `words` gives the maximal runs of
other characters, and `collapse` writes these with single spaces between them.
A word is never empty and holds no blank (`ne_nil_of_mem_words`,
`isBlank_eq_false_of_mem_words`). -/
namespace DocOutline.Text

/-- The white space of the character database. -/
def blankRanges : List (Nat × Nat) :=
  [(0x9, 0xD), (0x20, 0x20), (0x85, 0x85), (0xA0, 0xA0), (0x1680, 0x1680), (0x2000, 0x200A),
   (0x2028, 0x2029), (0x202F, 0x202F), (0x205F, 0x205F), (0x3000, 0x3000)]

def isBlank (c : Char) : Bool := blankRanges.any fun r => r.1 ≤ c.toNat && c.toNat ≤ r.2

def trimStart (s : List Char) : List Char := s.dropWhile isBlank

def trimEnd (s : List Char) : List Char := (s.reverse.dropWhile isBlank).reverse

def trim (s : List Char) : List Char := trimEnd (trimStart s)

/-- The words of `s`, when `current` are the last characters before it, backwards
and back to the last blank. -/
def wordsAfter (current : List Char) : List Char → List (List Char)
  | [] => if current.isEmpty then [] else [current.reverse]
  | c :: s =>
    if isBlank c then
      if current.isEmpty then wordsAfter [] s else current.reverse :: wordsAfter [] s
    else wordsAfter (c :: current) s

def words (s : List Char) : List (List Char) := wordsAfter [] s

/-- The words with single spaces between them. -/
def collapse (s : List Char) : List Char := [' '].intercalate (words s)

theorem isBlank_space : isBlank ' ' = true := by decide

theorem isBlank_newline : isBlank '\n' = true := by decide

theorem ne_nil_of_mem_wordsAfter {current s w : List Char} (h : w ∈ wordsAfter current s) :
    w ≠ [] := by
  induction s generalizing current with
  | nil => cases current <;> simp_all [wordsAfter]
  | cons c s ih =>
    unfold wordsAfter at h
    split at h
    · split at h
      · exact ih h
      · rename_i hne
        rcases List.mem_cons.1 h with rfl | h
        · simpa using hne
        · exact ih h
    · exact ih h

theorem ne_nil_of_mem_words {s w : List Char} (h : w ∈ words s) : w ≠ [] :=
  ne_nil_of_mem_wordsAfter h

theorem isBlank_eq_false_of_mem_wordsAfter {current s w : List Char}
    (hc : ∀ c ∈ current, isBlank c = false) (h : w ∈ wordsAfter current s) :
    ∀ c ∈ w, isBlank c = false := by
  induction s generalizing current with
  | nil =>
    cases current with
    | nil => simp [wordsAfter] at h
    | cons d ds =>
      simp only [wordsAfter, List.isEmpty_cons, Bool.false_eq_true, if_false,
        List.mem_singleton] at h
      subst h
      intro c hmem
      exact hc c (List.mem_reverse.1 hmem)
  | cons d s ih =>
    unfold wordsAfter at h
    split at h
    · split at h
      · exact ih (by simp) h
      · rcases List.mem_cons.1 h with rfl | h
        · intro c hmem
          exact hc c (List.mem_reverse.1 hmem)
        · exact ih (by simp) h
    · rename_i hd
      refine ih ?_ h
      intro c hmem
      rcases List.mem_cons.1 hmem with rfl | hmem
      · simpa using hd
      · exact hc c hmem

theorem isBlank_eq_false_of_mem_words {s w : List Char} (h : w ∈ words s) :
    ∀ c ∈ w, isBlank c = false :=
  isBlank_eq_false_of_mem_wordsAfter (by simp) h

end DocOutline.Text
