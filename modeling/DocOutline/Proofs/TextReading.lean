import DocOutline.Text.Cut
import DocOutline.Proofs.OutlineLines

/-! Entries read back from their text outline.

Nothing is escaped in a text outline, and yet it can be read. The hash signs of a line
end at the space after them, whatever the title begins with, since there is a heading on
the line and so at least one sign; the location begins after the last space. Each line
thus tells its heading and its depth (`Heading.ofTextLine_textLine`), and a forest is
what it is by the depths of its labels in pre-order (`Forest.ofDepths_depths`). So
`Entries.ofText` gives back the entries (`Entries.ofText_text`), and no two have one text
(`Entries.text_inj`). -/
namespace DocOutline

/-! ### Forests from depths -/

namespace Forest
variable {α : Type}

theorem le_of_mem_depths {f : Forest α} {depth : Nat} {p : Nat × α} (h : p ∈ f.depths depth) :
    depth ≤ p.1 := by
  induction f generalizing depth with
  | nil => cases h
  | cons a below after ihb iha =>
    rw [depths, List.mem_cons, List.mem_append] at h
    rcases h with rfl | h | h
    · exact Nat.le_refl depth
    · exact Nat.le_of_succ_le (ihb h)
    · exact iha h

theorem fst_eq_of_mem_head?_depths {f : Forest α} {depth : Nat} {p : Nat × α}
    (h : p ∈ (f.depths depth).head?) : p.1 = depth := by
  cases f with
  | nil => cases h
  | cons a below after =>
    obtain rfl := Option.some.inj h
    rfl

/-- The labels of a forest in pre-order with their depths say what the forest is. -/
theorem ofDepths_depths (f : Forest α) (depth : Nat) : ofDepths (f.depths depth) = f := by
  induction f generalizing depth with
  | nil => rw [depths, ofDepths]
  | cons a below after ihb iha =>
    -- What stands below the first label ends where the depth is no greater than its own.
    have hdeeper : ∀ q ∈ below.depths (depth + 1), decide (depth < q.1) = true :=
      fun q hq => decide_eq_true (le_of_mem_depths hq)
    have hback : ∀ q ∈ (after.depths depth).head?, decide (depth < q.1) = false := by
      intro q hq
      rw [fst_eq_of_mem_head?_depths hq]
      exact decide_eq_false (Nat.lt_irrefl depth)
    obtain ⟨hbelow, hafter⟩ := Text.cut_iff.2 ⟨rfl, hdeeper, hback⟩
    rw [depths, ofDepths, hbelow, hafter, ihb, iha]

end Forest

/-! ### Lines -/

namespace Heading

/-- The title that is shown as a text. -/
def titleOf (shown : List Char) : String :=
  if shown = untitled.toList then "" else String.ofList shown

/-- The heading that a line shows, with its depth. -/
def ofTextLine (line : List Char) : Nat × Heading :=
  let marked := line.dropWhile (· = ' ')
  let backwards := (marked.dropWhile (· = '#')).tail.reverse
  ((line.takeWhile (· = ' ')).length / 2,
    { title := titleOf (backwards.dropWhile (· ≠ ' ')).tail.reverse
      level := (marked.takeWhile (· = '#')).length.toUInt8
      line := Nat.ofDigitChars 10 (backwards.takeWhile (· ≠ ' ')).reverse.tail 0 })

theorem titleOf_presentableText {h : Heading} (ht : h.title ≠ untitled) :
    titleOf h.presentableText.toList = h.title := by
  unfold titleOf presentableText
  by_cases hempty : h.title.isEmpty = true
  · rw [if_pos hempty, if_pos rfl, String.isEmpty_iff.1 hempty]
  · rw [if_neg hempty, if_neg fun heq => ht (String.toList_injective heq), String.ofList_toList]

theorem space_not_mem_location (h : Heading) : ' ' ∉ h.location.toList := by
  have hdigits : ' ' ∉ Nat.toDigits 10 h.line := by
    intro hmem
    have hdigit := Nat.isDigit_of_mem_toDigits (by decide) (by decide) hmem
    revert hdigit
    decide
  simp [location, hdigits]

theorem ofDigitChars_location (h : Heading) :
    Nat.ofDigitChars 10 h.location.toList.tail 0 = h.line := by
  rw [location, String.toList_ofList, List.tail_cons]
  exact Nat.ofDigitChars_toDigits (by decide) (by decide)

/-- A line with a hash sign, under a title that is not the stand-in for an empty one, shows
its heading and its depth. -/
theorem ofTextLine_textLine {h : Heading} (hlevel : 1 ≤ h.level) (ht : h.title ≠ untitled)
    (depth : Nat) : ofTextLine (h.textLine depth) = (depth, h) := by
  let hashes := List.replicate h.level.toNat '#'
  let shown := h.presentableText.toList ++ ' ' :: h.location.toList
  have hline : h.textLine depth = List.replicate (2 * depth) ' ' ++ (hashes ++ ' ' :: shown) := by
    simp [textLine, hashes, shown]
  have hsign : ∃ n, hashes = '#' :: List.replicate n '#' := by
    obtain ⟨n, hn⟩ := Nat.exists_eq_succ_of_ne_zero
      (Nat.one_le_iff_ne_zero.1 (UInt8.le_iff_toNat_le.1 hlevel))
    exact ⟨n, by rw [← List.replicate_succ, ← Nat.succ_eq_add_one, ← hn]⟩
  have hstart : ∀ c ∈ (hashes ++ ' ' :: shown).head?, decide (c = ' ') = false := by
    obtain ⟨n, hn⟩ := hsign
    simp [hn]
  obtain ⟨hindent, hmarked⟩ := Text.cut_iff (p := fun c => decide (c = ' ')).2
    ⟨hline, by simp, hstart⟩
  obtain ⟨hhashes, hafter⟩ := Text.cut_iff (p := fun c => decide (c = '#')).2
    ⟨Eq.refl (hashes ++ ' ' :: shown), by simp [hashes], by simp⟩
  have hbackwards : shown.reverse =
      h.location.toList.reverse ++ ' ' :: h.presentableText.toList.reverse := by
    simp [shown]
  obtain ⟨hlocation, htitle⟩ := Text.cut_iff (p := fun c => decide (c ≠ ' ')).2
    ⟨hbackwards, fun c hc => decide_eq_true fun heq =>
      h.space_not_mem_location (heq ▸ List.mem_reverse.1 hc), by simp⟩
  have hcount : hashes.length.toUInt8 = h.level := by simp [hashes]
  simp only [ofTextLine, hindent, hmarked, hhashes, hafter, List.tail_cons, hlocation, htitle,
    List.reverse_reverse, titleOf_presentableText ht, ofDigitChars_location, hcount,
    List.length_replicate]
  rw [Nat.mul_div_cancel_left depth (by decide)]

end Heading

/-! ### Text outlines -/

namespace Entries

/-- The entries that a text outline shows. -/
def ofText (text : String) : Entries :=
  Forest.ofDepths ((Text.lines text).dropLast.map fun line => Heading.ofTextLine line.toList)

/-- Whether the text of the entries can be read: every heading has a level, and no title
has a newline in it or is the stand-in for an empty one. -/
def Legible (e : Entries) : Prop :=
  ∀ h ∈ e.preorder, 1 ≤ h.level ∧ '\n' ∉ h.title.toList ∧ h.title ≠ untitled

/-- Entries can be read back from their text outline. -/
theorem ofText_text {e : Entries} (h : e.Legible) : ofText e.text = e := by
  have hlines : (Text.lines e.text).dropLast.map (fun line => Heading.ofTextLine line.toList) =
      e.depths 0 := by
    rw [lines_text fun x hx => (h x hx).2.1, List.dropLast_concat, textLines, List.map_map,
      List.map_map]
    refine (List.map_congr_left fun p hp => ?_).trans (List.map_id (e.depths 0))
    have hmem := Forest.mem_preorder_of_mem_depths hp
    rw [Function.comp_apply, Function.comp_apply, String.toList_ofList]
    exact Heading.ofTextLine_textLine (h p.2 hmem).1 (h p.2 hmem).2.2 p.1
  rw [ofText, hlines, Forest.ofDepths_depths]

/-- Entries with one text outline are the same entries. -/
theorem text_inj {a b : Entries} (ha : a.Legible) (hb : b.Legible) : a.text = b.text ↔ a = b := by
  constructor
  · intro htext
    calc a = ofText a.text := (ofText_text ha).symm
      _ = ofText b.text := by rw [htext]
      _ = b := ofText_text hb
  · exact congrArg Entries.text

/-- A title that looks like a hash sign and a title with a location after it. -/
theorem text_ne_marked :
    Legible (.cons ⟨"# b :7", 1, 2⟩ (.cons ⟨"", 2, 3⟩ .nil .nil) .nil) ∧
      Legible (.cons ⟨"b", 2, 7⟩ .nil (.cons ⟨"  ##", 2, 3⟩ .nil .nil)) ∧
      text (.cons ⟨"# b :7", 1, 2⟩ (.cons ⟨"", 2, 3⟩ .nil .nil) .nil) ≠
        text (.cons ⟨"b", 2, 7⟩ .nil (.cons ⟨"  ##", 2, 3⟩ .nil .nil)) := by
  have ha : Legible (.cons ⟨"# b :7", 1, 2⟩ (.cons ⟨"", 2, 3⟩ .nil .nil) .nil) := by
    unfold Legible
    decide
  have hb : Legible (.cons ⟨"b", 2, 7⟩ .nil (.cons ⟨"  ##", 2, 3⟩ .nil .nil)) := by
    unfold Legible
    decide
  refine ⟨ha, hb, fun heq => ?_⟩
  exact absurd ((text_inj ha hb).1 heq) (by decide)

end Entries

end DocOutline
