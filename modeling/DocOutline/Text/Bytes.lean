import Mathlib.Data.List.Forall2
import DocOutline.RawText
import DocOutline.Text.Tidy

/-! Texts as bytes.

Bytes that differ only in which blanks they have are both texts or neither is, since a
blank byte is never a part of another character, and the texts have the same words
(`exists_alike`, `words_congr`).
The marks of a text, which are its bytes below 128 but for blanks, are left when its
blanks are collapsed (`countP_isMark_congr`). -/
namespace DocOutline.Text

/-- The blanks that are one byte. -/
def blankBytes : List UInt8 := [9, 10, 11, 12, 13, 32]

def isBlankByte (b : UInt8) : Bool := blankBytes.contains b

/-- Whether a byte is a character, and not a blank. -/
def isMark (b : UInt8) : Bool := b < 128 && !isBlankByte b

/-! ### Blank bytes -/

theorem isBlankByte_ofNat {c : Char} (h : c.toNat < 128) :
    isBlankByte (UInt8.ofNat c.toNat) = isBlank c := by
  have hall : ∀ n < 128, isBlankByte (UInt8.ofNat n) = isBlank (Char.ofNat n) := by decide
  have hc := hall c.toNat h
  rwa [Char.ofNat_toNat] at hc

/-- A blank byte is a character, which is a blank. -/
theorem exists_char_of_isBlankByte {b : UInt8} (h : isBlankByte b = true) :
    ∃ c, String.utf8EncodeChar c = [b] ∧ isBlank c = true := by
  have hall : ∀ b ∈ blankBytes, String.utf8EncodeChar (Char.ofNat b.toNat) = [b] ∧
      isBlank (Char.ofNat b.toNat) = true := by decide +kernel
  exact ⟨Char.ofNat b.toNat, hall b (List.contains_iff_mem.1 h)⟩

theorem isBlankByte_eq_false {b : UInt8} (h : 128 ≤ b) : isBlankByte b = false := by
  have hall : ∀ b ∈ blankBytes, ¬ 128 ≤ b := by decide +kernel
  rw [Bool.eq_false_iff]
  intro hblank
  exact hall b (List.contains_iff_mem.1 hblank) h

/-! ### Other blanks -/

/-- Whether two bytes are one, or are blanks both. -/
def AlikeByte (x y : UInt8) : Prop := x = y ∨ isBlankByte x = true ∧ isBlankByte y = true

/-- Whether two characters are one, or are blanks both. -/
def Alike (c d : Char) : Prop := c = d ∨ isBlank c = true ∧ isBlank d = true

theorem AlikeByte.symm {x y : UInt8} (h : AlikeByte x y) : AlikeByte y x := h.imp Eq.symm And.symm

/-- Bytes that are no blanks stay where they are. -/
theorem forall₂_alikeByte_append {l m bs : List UInt8} (hl : ∀ b ∈ l, isBlankByte b = false)
    (h : List.Forall₂ AlikeByte (l ++ m) bs) :
    ∃ rest, bs = l ++ rest ∧ List.Forall₂ AlikeByte m rest := by
  induction l generalizing bs with
  | nil => exact ⟨bs, rfl, h⟩
  | cons x l ih =>
    rw [List.forall_mem_cons] at hl
    cases h with
    | cons hx h =>
      obtain ⟨rest, rfl, hrest⟩ := ih hl.2 h
      rcases hx with rfl | ⟨hx, -⟩
      · exact ⟨rest, rfl, hrest⟩
      · rw [hl.1] at hx
        cases hx

/-- Bytes with other blanks than those of a text are those of a text with other blanks. -/
theorem exists_alike {s : List Char} {bs : List UInt8} (h : List.Forall₂ AlikeByte (bytes s) bs) :
    ∃ t, bs = bytes t ∧ List.Forall₂ Alike s t := by
  induction s generalizing bs with
  | nil =>
    cases h
    exact ⟨[], rfl, .nil⟩
  | cons c s ih =>
    rw [bytes, List.flatMap_cons] at h
    by_cases hblank : ∃ x, String.utf8EncodeChar c = [x] ∧ isBlankByte x = true ∧ isBlank c = true
    · obtain ⟨x, hc, hx, hcblank⟩ := hblank
      rw [hc] at h
      cases h with
      | @cons _ y _ _ hxy h =>
        obtain ⟨t, rfl, ht⟩ := ih h
        have hy : isBlankByte y = true := by
          rcases hxy with rfl | ⟨-, hy⟩
          · exact hx
          · exact hy
        obtain ⟨d, hd, hdblank⟩ := exists_char_of_isBlankByte hy
        exact ⟨d :: t, by rw [bytes, bytes, List.flatMap_cons, hd]; rfl, .cons (.inr ⟨hcblank, hdblank⟩) ht⟩
    · have hnone : ∀ b ∈ String.utf8EncodeChar c, isBlankByte b = false := by
        rcases utf8EncodeChar_cases c with ⟨hlt, hc⟩ | ⟨-, hc⟩
        · rw [hc, List.forall_mem_singleton, Bool.eq_false_iff]
          intro hx
          exact hblank ⟨_, hc, hx, by rwa [isBlankByte_ofNat hlt] at hx⟩
        · exact fun b hb => isBlankByte_eq_false (hc b hb)
      obtain ⟨rest, rfl, hrest⟩ := forall₂_alikeByte_append hnone h
      obtain ⟨t, rfl, ht⟩ := ih hrest
      exact ⟨c :: t, rfl, .cons (.inl rfl) ht⟩

theorem Alike.isBlank_eq {c d : Char} (h : Alike c d) : isBlank c = isBlank d := by
  rcases h with rfl | ⟨hc, hd⟩
  · rfl
  · rw [hc, hd]

theorem wordsAfter_congr {s t : List Char} (h : List.Forall₂ Alike s t) (current : List Char) :
    wordsAfter current s = wordsAfter current t := by
  induction h generalizing current with
  | nil => rfl
  | @cons c d s t hcd _ ih =>
    have hblank := hcd.isBlank_eq
    rw [wordsAfter, wordsAfter, ← hblank, ih []]
    split
    · rfl
    next hc =>
      rcases hcd with rfl | ⟨hcblank, -⟩
      · exact ih (c :: current)
      · exact absurd hcblank hc

/-- Texts with other blanks have the same words. -/
theorem words_congr {s t : List Char} (h : List.Forall₂ Alike s t) : words s = words t :=
  wordsAfter_congr h []

/-! ### Marks -/

/-- Whether a character is one byte, and not a blank. -/
def isMarkChar (c : Char) : Bool := c.toNat < 128 && !isBlank c

/-- The marks of a text are characters of it. -/
theorem countP_isMark_bytes (s : List Char) : (bytes s).countP isMark = s.countP isMarkChar := by
  induction s with
  | nil => rfl
  | cons c s ih =>
    have hc : (String.utf8EncodeChar c).countP isMark = if isMarkChar c = true then 1 else 0 := by
      rcases utf8EncodeChar_cases c with ⟨hlt, hc⟩ | ⟨hle, hc⟩
      · have hbyte : UInt8.ofNat c.toNat < 128 := by
          rw [UInt8.lt_iff_toNat_lt, UInt8.toNat_ofNat', Nat.mod_eq_of_lt (by omega)]
          exact hlt
        rw [hc, List.countP_singleton, isMark, isMarkChar, isBlankByte_ofNat hlt, decide_eq_true hlt,
          decide_eq_true hbyte]
      · have hno : isMarkChar c = false := by simp [isMarkChar, Nat.not_lt.2 hle]
        rw [hno, if_neg Bool.false_ne_true, List.countP_eq_zero]
        intro b hb
        simp [isMark, UInt8.not_lt.2 (hc b hb)]
    rw [bytes, List.flatMap_cons, List.countP_append, hc, List.countP_cons, Nat.add_comm]
    exact congrArg (· + _) ih

/-- Texts that collapse to one have as many marks. -/
theorem countP_isMark_congr {s t : List Char} (h : collapse s = collapse t) :
    (bytes s).countP isMark = (bytes t).countP isMark := by
  have hcount (s : List Char) : s.countP isMarkChar =
      (s.filter fun c => !isBlank c).countP isMarkChar := by
    rw [List.countP_filter]
    congr 1
    funext c
    simp [isMarkChar]
  rw [countP_isMark_bytes, countP_isMark_bytes, hcount s, hcount t, ← filter_collapse s, h,
    filter_collapse]

/-- Where bytes are changed into ones that are no marks and there are as many marks as
before, no mark was changed. -/
theorem eq_of_countP_isMark_le {α : Type} {l : List α} {before after : α → UInt8}
    (h : ∀ x ∈ l, after x = before x ∨ isMark (after x) = false)
    (hcount : (l.map before).countP isMark ≤ (l.map after).countP isMark) :
    ∀ x ∈ l, isMark (before x) = true → after x = before x := by
  have hmono {l : List α} (h : ∀ x ∈ l, after x = before x ∨ isMark (after x) = false) :
      (l.map after).countP isMark ≤ (l.map before).countP isMark := by
    rw [List.countP_map, List.countP_map]
    apply List.countP_mono_left
    intro x hx hmark
    rcases h x hx with heq | hno
    · rwa [Function.comp_apply, ← heq]
    · rw [Function.comp_apply, hno] at hmark
      cases hmark
  induction l with
  | nil => simp
  | cons x l ih =>
    rw [List.forall_mem_cons] at h
    rw [List.map_cons, List.map_cons, List.countP_cons, List.countP_cons] at hcount
    have hle := hmono h.2
    rw [List.forall_mem_cons]
    rcases h.1 with heq | hno
    · refine ⟨fun _ => heq, ih h.2 ?_⟩
      rw [heq] at hcount
      exact Nat.le_of_add_le_add_right hcount
    · rw [hno, if_neg Bool.false_ne_true] at hcount
      cases hmark : isMark (before x) with
      | false =>
        rw [hmark, if_neg Bool.false_ne_true] at hcount
        exact ⟨fun hx => absurd hx Bool.false_ne_true, ih h.2 hcount⟩
      | true =>
        rw [hmark, if_pos rfl] at hcount
        omega

end DocOutline.Text
