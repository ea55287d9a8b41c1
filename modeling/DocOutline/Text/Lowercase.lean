import DocOutline.Text.CaseMap
import DocOutline.Text.Cased

/-! Lower-casing of whole texts.

Characters are lower-cased one by one, but for two: U+0130 becomes an i and a
combining dot, and a capital sigma becomes a final sigma where a word ends, that
is, after a cased letter and with no cased letter next, marks within the word
passed over on both sides. -/
namespace DocOutline.Text

/-- Whether the first character that is not passed over is cased. -/
def leadsToCased (s : List Char) : Bool :=
  match s.dropWhile isCaseIgnorable with
  | [] => false
  | c :: _ => isCased c

/-- The lower-case form of `c`, which stands between `before`, read backwards, and `after`. -/
def lowerAt (before : List Char) (c : Char) (after : List Char) : List Char :=
  if c = 'Σ' then
    if leadsToCased before && !leadsToCased after then ['ς'] else ['σ']
  else if c = 'İ' then ['i', '\u0307']
  else [lowerChar c]

/-- The lower-case form of a text that stands after `before`, read backwards. -/
def lowercaseAfter (before : List Char) : List Char → List Char
  | [] => []
  | c :: after => lowerAt before c after ++ lowercaseAfter (c :: before) after

def lowercase (s : List Char) : List Char := lowercaseAfter [] s

/-- Only the sigma looks at what is around it. -/
theorem lowerAt_of_ne {c : Char} (h : c ≠ 'Σ') (before after : List Char) :
    lowerAt before c after = lowerAt [] c [] := by
  simp [lowerAt, h]

end DocOutline.Text
