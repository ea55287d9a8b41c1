import Mathlib.Data.List.Basic
import DocOutline.Entry.Json
import DocOutline.Text.Digit

/-! The texts of JSON values.

`Spells` says which texts there are of a value: a string stands in quotes, with each
character as itself or behind a backslash, a number in decimal digits without a zero in
front, and between brackets and commas there may be blanks. The pretty text of a value is
one of its texts (`spells_pretty`). -/
namespace DocOutline.Json

/-! ### The grammar -/

def isBlank (c : Char) : Bool := c = ' ' || c = '\t' || c = '\n' || c = '\r'

/-- Whether a text is one of blanks and line ends only, as may stand between the parts of
a value. -/
def Blank (s : List Char) : Prop := ∀ c ∈ s, isBlank c = true

/-- The letters that stand for a character behind a backslash. -/
def letters : List (Char × Char) :=
  [('"', '"'), ('\\', '\\'), ('/', '/'), ('b', '\x08'), ('f', '\x0c'), ('n', '\n'), ('r', '\r'),
    ('t', '\t')]

/-- The ways to write a character in a string. -/
inductive SpellsChar : Char → List Char → Prop where
  /-- The quote, the backslash and control characters cannot stand for themselves. -/
  | itself {c : Char} (hquote : c ≠ '"') (hslash : c ≠ '\\') (hcontrol : 32 ≤ c.toNat) :
      SpellsChar c [c]
  | letter {c l : Char} (h : (l, c) ∈ letters) : SpellsChar c ['\\', l]
  /-- Four hexadecimal digits give the code point. -/
  | code {c : Char} {digits : List Char} (hlen : digits.length = 4)
      (hdigits : ∀ d ∈ digits, Text.isDigit 16 d = true) (h : Text.ofDigits 16 digits = c.toNat) :
      SpellsChar c ('\\' :: 'u' :: digits)

inductive SpellsChars : List Char → List Char → Prop where
  | nil : SpellsChars [] []
  | cons {c : Char} {cs s t : List Char} (h : SpellsChar c s) (hr : SpellsChars cs t) :
      SpellsChars (c :: cs) (s ++ t)

/-- Whether a text is a string in quotes. -/
inductive SpellsString : String → List Char → Prop where
  | quoted {text : String} {s : List Char} (h : SpellsChars text.toList s) :
      SpellsString text ('"' :: (s ++ ['"']))

/-- The texts of a list between its brackets, where `spells` are the texts of its items:
these stand between commas. -/
inductive Listed {α : Type} (spells : α → List Char → Prop) : List α → List Char → Prop where
  | none {gap : List Char} (h : Blank gap) : Listed spells [] gap
  | last {x : α} {before s after : List Char} (hb : Blank before) (h : spells x s)
      (ha : Blank after) : Listed spells [x] (before ++ s ++ after)
  | more {x y : α} {rest : List α} {before s after t : List Char} (hb : Blank before)
      (h : spells x s) (ha : Blank after) (hr : Listed spells (y :: rest) t) :
      Listed spells (x :: y :: rest) (before ++ s ++ after ++ ',' :: t)

mutual

/-- The texts of a value. -/
inductive Spells : Json → List Char → Prop where
  | string {text : String} {s : List Char} (h : SpellsString text s) : Spells (.string text) s
  | number {digits : List Char} (hne : digits ≠ []) (hdigits : ∀ d ∈ digits, d.isDigit = true)
      (hzero : digits.head? = some '0' → digits = ['0']) :
      Spells (.number (Nat.ofDigitChars 10 digits 0)) digits
  | array {items : List Json} {s : List Char} (h : Listed Spells items s) :
      Spells (.array items) ('[' :: (s ++ [']']))
  | object {fields : List (String × Json)} {s : List Char} (h : Listed SpellsField fields s) :
      Spells (.object fields) ('\x7b' :: (s ++ ['\x7d']))

/-- The texts of a key with its value. -/
inductive SpellsField : String × Json → List Char → Prop where
  | pair {key : String} {value : Json} {k before after v : List Char} (hk : SpellsString key k)
      (hb : Blank before) (ha : Blank after) (hv : Spells value v) :
      SpellsField (key, value) (k ++ before ++ ':' :: (after ++ v))

end

/-! ### Parts of a pretty text -/

theorem digit?_hexDigit (n : Nat) : Text.digit? (hexDigit n) = some (n % 16) := by
  have hdigits : ∀ m < 16, Text.digit? (Nat.digitChar m) = some m := by decide
  exact hdigits (n % 16) (Nat.mod_lt n (by decide))

/-- The digits of a control character's escape. -/
theorem code_of_control {n : Nat} (h : n < 32) :
    (∀ d ∈ ['0', '0', hexDigit (n / 16), hexDigit n], Text.isDigit 16 d = true) ∧
      Text.ofDigits 16 ['0', '0', hexDigit (n / 16), hexDigit n] = n := by
  have hzero : Text.digit? '0' = some 0 := by decide
  constructor
  · simp [Text.isDigit, hzero, digit?_hexDigit, Nat.mod_lt]
  · simp only [Text.ofDigits, List.foldl_cons, List.foldl_nil, hzero, digit?_hexDigit,
      Option.getD_some]
    omega

theorem spellsChar_escapeChar (c : Char) : SpellsChar c (escapeChar c) := by
  have hletter (l : Char) (h : (l, c) ∈ letters) := SpellsChar.letter h
  unfold escapeChar
  split
  next h => exact hletter '"' (by subst h; decide)
  split
  next h => exact hletter '\\' (by subst h; decide)
  split
  next h => exact hletter 'b' (by subst h; decide)
  split
  next h => exact hletter 't' (by subst h; decide)
  split
  next h => exact hletter 'n' (by subst h; decide)
  split
  next h => exact hletter 'f' (by subst h; decide)
  split
  next h => exact hletter 'r' (by subst h; decide)
  split
  next h =>
    obtain ⟨hdigits, hvalue⟩ := code_of_control h
    exact .code rfl hdigits hvalue
  next hquote hslash _ _ _ _ _ hcontrol => exact .itself hquote hslash (Nat.not_lt.1 hcontrol)

theorem spellsString_quoted (text : String) : SpellsString text (quoted text) := by
  have hchars (cs : List Char) : SpellsChars cs (cs.flatMap escapeChar) := by
    induction cs with
    | nil => exact .nil
    | cons c cs ih => exact .cons (spellsChar_escapeChar c) ih
  exact .quoted (hchars text.toList)

/-- No number but zero is written with a zero in front. -/
theorem eq_zero_of_head?_toDigits {n : Nat} (h : (Nat.toDigits 10 n).head? = some '0') : n = 0 := by
  induction n using Nat.strongRecOn with
  | ind n ih =>
    rcases Nat.lt_or_ge n 10 with hlt | hge
    · rw [Nat.toDigits_of_lt_base hlt, List.head?_cons, Option.some.injEq] at h
      have hdigits : ∀ m < 10, Nat.digitChar m = '0' → m = 0 := by decide
      exact hdigits n hlt h
    · rw [Nat.toDigits_of_base_le (by decide) hge,
        List.head?_append_of_ne_nil _ Nat.toDigits_ne_nil] at h
      have hzero := ih (n / 10) (by omega) h
      omega

theorem spells_toDigits (n : Nat) : Spells (.number n) (Nat.toDigits 10 n) := by
  have hvalue : Nat.ofDigitChars 10 (Nat.toDigits 10 n) 0 = n :=
    Nat.ofDigitChars_toDigits (by decide) (by decide)
  have hspells : Spells (.number (Nat.ofDigitChars 10 (Nat.toDigits 10 n) 0)) (Nat.toDigits 10 n) := by
    refine .number Nat.toDigits_ne_nil
      (fun d hd => Nat.isDigit_of_mem_toDigits (by decide) (by decide) hd) fun hhead => ?_
    rw [eq_zero_of_head?_toDigits hhead]
    rfl
  rwa [hvalue] at hspells

theorem blank_nil : Blank [] := fun _ hc => absurd hc List.not_mem_nil

theorem blank_lineBreak (depth : Nat) : Blank (lineBreak depth) := by
  intro c hc
  rcases List.mem_cons.1 hc with rfl | hc
  · rfl
  · rw [List.eq_of_mem_replicate hc]
    rfl

theorem blank_closing {α : Type} (depth : Nat) (items : List α) : Blank (closing depth items) := by
  unfold closing
  split
  · exact blank_nil
  · exact blank_lineBreak depth

/-- Items that are each written on a line of their own, with a comma after all but the last. -/
theorem listed_lines {α : Type} {spells : α → List Char → Prop} {write : α → List Char}
    {lines : List α → List Char} {depth : Nat} (hnil : lines [] = [])
    (hcons : ∀ x rest, lines (x :: rest) = lineBreak depth ++ write x ++ separator rest ++ lines rest)
    {items : List α} (h : ∀ x ∈ items, spells x (write x)) {gap : List Char} (hgap : Blank gap) :
    Listed spells items (lines items ++ gap) := by
  induction items with
  | nil => simpa only [hnil, List.nil_append] using Listed.none hgap
  | cons x rest ih =>
    rw [List.forall_mem_cons] at h
    cases rest with
    | nil =>
      have hlast := Listed.last (blank_lineBreak depth) h.1 hgap
      simpa [hcons, hnil, separator] using hlast
    | cons y rest =>
      have hmore := Listed.more (blank_lineBreak depth) h.1 blank_nil (ih h.2)
      rw [hcons]
      simpa [separator] using hmore

/-! ### The pretty text -/

/-- What holds of a value if it holds of its items, or of the values of its fields. -/
@[elab_as_elim]
theorem members_induction {motive : Json → Prop} (string : ∀ text, motive (.string text))
    (number : ∀ n, motive (.number n))
    (array : ∀ items, (∀ item ∈ items, motive item) → motive (.array items))
    (object : ∀ fields, (∀ field ∈ fields, motive field.2) → motive (.object fields))
    (j : Json) : motive j :=
  @Json.rec motive (fun items => ∀ item ∈ items, motive item)
    (fun fields => ∀ field ∈ fields, motive field.2) (fun field => motive field.2)
    string number array object (fun _ h => absurd h List.not_mem_nil)
    (fun _ _ hitem hitems => List.forall_mem_cons.2 ⟨hitem, hitems⟩)
    (fun _ h => absurd h List.not_mem_nil)
    (fun _ _ hfield hfields => List.forall_mem_cons.2 ⟨hfield, hfields⟩) (fun _ _ h => h) j

theorem spells_prettyAt (j : Json) (depth : Nat) : Spells j (prettyAt depth j) := by
  induction j using members_induction generalizing depth with
  | string text => exact .string (spellsString_quoted text)
  | number n => exact spells_toDigits n
  | array items ih =>
    exact .array (listed_lines rfl (fun _ _ => rfl) (fun item hitem => ih item hitem (depth + 1))
      (blank_closing depth items))
  | object fields ih =>
    refine .object (listed_lines rfl (fun _ _ => rfl) (fun field hfield => ?_)
      (blank_closing depth fields))
    obtain ⟨key, value⟩ := field
    have hgap : Blank [' '] := by simp [Blank, isBlank]
    have hpair := SpellsField.pair (spellsString_quoted key) blank_nil hgap
      (ih (key, value) hfield (depth + 1))
    rw [prettyField]
    simpa using hpair

/-- The pretty text of a value is a text of it. -/
theorem spells_pretty (j : Json) : Spells j j.pretty.toList := by
  rw [toList_pretty]
  exact spells_prettyAt j 0

end DocOutline.Json
