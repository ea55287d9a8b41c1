import DocOutline.Proofs.JsonText
import DocOutline.Text.Cut

/-! A text is that of one value only.

Strings, arrays and objects end with what closes them, and a number ends where no digit
follows, so that where a text goes on after a value in two ways, the values are the same
(`eq_of_append`). The induction is on the value; the items between two brackets are
compared one after the other (`Listed.eq_of_append`). So no two forests of entries have
one pretty text (`Entries.prettyJson_inj`). -/
namespace DocOutline.Json
variable {r r' : List Char}

/-! ### Strings -/

theorem eq_of_letter : ∀ p ∈ letters, ∀ q ∈ letters, p.1 = q.1 → p.2 = q.2 := by decide

theorem ne_u_of_letter : ∀ p ∈ letters, p.1 ≠ 'u' := by decide

theorem SpellsChar.exists_first {c : Char} {s : List Char} (h : SpellsChar c s) :
    ∃ first rest, s = first :: rest ∧ first ≠ '"' := by
  cases h with
  | itself hquote => exact ⟨c, [], rfl, hquote⟩
  | letter => exact ⟨'\\', _, rfl, by decide⟩
  | code => exact ⟨'\\', _, rfl, by decide⟩

theorem SpellsChar.eq_of_append {c d : Char} {s t : List Char} (h : SpellsChar c s)
    (h' : SpellsChar d t) (heq : s ++ r = t ++ r') : c = d ∧ s = t := by
  cases h with
  | itself _ hslash =>
    cases h' with
    | itself =>
      obtain ⟨rfl, -⟩ := List.cons.inj heq
      exact ⟨rfl, rfl⟩
    | letter | code => exact absurd (List.cons.inj heq).1 hslash
  | letter h =>
    cases h' with
    | itself _ hslash => exact absurd (List.cons.inj heq).1.symm hslash
    | letter h' =>
      obtain ⟨rfl, -⟩ := List.cons.inj (List.cons.inj heq).2
      exact ⟨eq_of_letter _ h _ h' rfl, rfl⟩
    | code => exact absurd (List.cons.inj (List.cons.inj heq).2).1 (ne_u_of_letter _ h)
  | code hlen _ hvalue =>
    cases h' with
    | itself _ hslash => exact absurd (List.cons.inj heq).1.symm hslash
    | letter h' => exact absurd (List.cons.inj (List.cons.inj heq).2).1.symm (ne_u_of_letter _ h')
    | code hlen' _ hvalue' =>
      have hdigits := List.append_inj_left (List.cons.inj (List.cons.inj heq).2).2
        (hlen.trans hlen'.symm)
      subst hdigits
      exact ⟨Char.toNat_inj.1 (hvalue.symm.trans hvalue'), rfl⟩

theorem SpellsChars.eq_of_append {cs ds s t : List Char} (h : SpellsChars cs s)
    (h' : SpellsChars ds t) (heq : s ++ '"' :: r = t ++ '"' :: r') : cs = ds ∧ s = t := by
  induction h generalizing ds t with
  | nil =>
    cases h' with
    | nil => exact ⟨rfl, rfl⟩
    | cons h' _ =>
      obtain ⟨first, rest, rfl, hfirst⟩ := h'.exists_first
      exact absurd (List.cons.inj heq).1.symm hfirst
  | cons h _ ih =>
    cases h' with
    | nil =>
      obtain ⟨first, rest, rfl, hfirst⟩ := h.exists_first
      exact absurd (List.cons.inj heq).1 hfirst
    | cons h' hr' =>
      rw [List.append_assoc, List.append_assoc] at heq
      obtain ⟨rfl, rfl⟩ := h.eq_of_append h' heq
      obtain ⟨rfl, rfl⟩ := ih hr' (List.append_cancel_left heq)
      exact ⟨rfl, rfl⟩

theorem SpellsString.eq_of_append {a b : String} {s t : List Char} (h : SpellsString a s)
    (h' : SpellsString b t) (heq : s ++ r = t ++ r') : a = b ∧ s = t := by
  cases h with
  | quoted h =>
    cases h' with
    | quoted h' =>
      simp only [List.cons_append, List.append_assoc] at heq
      obtain ⟨htext, rfl⟩ := h.eq_of_append h' (List.cons.inj heq).2
      exact ⟨String.toList_inj.1 htext, rfl⟩

/-! ### Blanks and digits -/

/-- Blanks end where none follows. -/
theorem Blank.eq_of_append {gap gap' : List Char} {c d : Char} (h : Blank gap) (h' : Blank gap')
    (hc : isBlank c = false) (hd : isBlank d = false) (heq : gap ++ c :: r = gap' ++ d :: r') :
    gap = gap' ∧ c = d ∧ r = r' := by
  obtain ⟨hgap, hrest⟩ := Text.cut_unique h (by simpa using hc) h' (by simpa using hd) heq
  exact ⟨hgap, List.cons.inj hrest⟩

/-- Whether what follows a number does not go on with it. -/
def Apart (r : List Char) : Prop := ∀ c ∈ r.head?, c.isDigit = false

theorem apart_of_blank {gap : List Char} {c : Char} (h : Blank gap) (hc : c.isDigit = false) :
    Apart (gap ++ c :: r) := by
  cases gap with
  | nil => simpa [Apart] using hc
  | cons first gap =>
    have hfirst := h first List.mem_cons_self
    simp only [isBlank, Bool.or_eq_true, decide_eq_true_eq] at hfirst
    rcases hfirst with ((rfl | rfl) | rfl) | rfl <;> simp [Apart]

/-! ### Lists -/

/-- Whether a value with the texts `spells` is the only one with them, however the text goes
on after it. -/
def Alone {α : Type} (spells : α → List Char → Prop) (x : α) : Prop :=
  ∀ y s t r r', spells x s → spells y t → Apart r → Apart r' → s ++ r = t ++ r' → x = y ∧ s = t

/-- What a value or a field may begin with. -/
def isOpening (c : Char) : Bool := c = '"' || c.isDigit || c = '[' || c = '\x7b'

/-- What may stand after an item of a list. -/
def isStop (c : Char) : Bool := c = ',' || c = ']' || c = '\x7d'

theorem isBlank_of_isOpening {c : Char} (h : isOpening c = true) : isBlank c = false := by
  simp only [isOpening, Bool.or_eq_true, decide_eq_true_eq] at h
  rcases h with ((rfl | hdigit) | rfl) | rfl
  · rfl
  · rw [Bool.eq_false_iff]
    intro hblank
    simp only [isBlank, Bool.or_eq_true, decide_eq_true_eq] at hblank
    rcases hblank with ((rfl | rfl) | rfl) | rfl <;> cases hdigit
  · rfl
  · rfl

theorem of_isStop {c : Char} (h : isStop c = true) :
    isBlank c = false ∧ c.isDigit = false ∧ isOpening c = false := by
  simp only [isStop, Bool.or_eq_true, decide_eq_true_eq] at h
  rcases h with (rfl | rfl) | rfl <;> decide

section
variable {α : Type} {spells : α → List Char → Prop} {x y : α} {c d : Char}
  {before before' s t after after' : List Char}

/-- Whether each text begins as one of a value or a field may. -/
def Opening (spells : α → List Char → Prop) : Prop :=
  ∀ x s, spells x s → ∃ c rest, s = c :: rest ∧ isOpening c = true

/-- An item with the blanks around it, and what stands after it. -/
theorem Alone.item_eq (halone : Alone spells x) (hopening : Opening spells) (hb : Blank before)
    (hb' : Blank before') (h : spells x s) (h' : spells y t) (ha : Blank after) (ha' : Blank after')
    (hc : isStop c = true) (hd : isStop d = true)
    (heq : before ++ s ++ after ++ c :: r = before' ++ t ++ after' ++ d :: r') :
    x = y ∧ before ++ s ++ after = before' ++ t ++ after' ∧ c = d ∧ r = r' := by
  obtain ⟨first, rest, rfl, hfirst⟩ := hopening x s h
  obtain ⟨first', rest', rfl, hfirst'⟩ := hopening y t h'
  simp only [List.append_assoc, List.cons_append] at heq
  obtain ⟨rfl, rfl, hrest⟩ :=
    hb.eq_of_append hb' (isBlank_of_isOpening hfirst) (isBlank_of_isOpening hfirst') heq
  obtain ⟨rfl, htext⟩ := halone y _ _ _ _ h h' (apart_of_blank ha (of_isStop hc).2.1)
    (apart_of_blank ha' (of_isStop hd).2.1) (congrArg (first :: ·) hrest)
  obtain rfl := (List.cons.inj htext).2
  obtain ⟨rfl, rfl, rfl⟩ := ha.eq_of_append ha' (of_isStop hc).1 (of_isStop hd).1
    (List.append_cancel_left hrest)
  exact ⟨rfl, rfl, rfl, rfl⟩

/-- Blanks before what closes a list are not those before an item. -/
theorem ne_item_of_blank {gap : List Char} (hopening : Opening spells) (hgap : Blank gap)
    (hb : Blank before) (h : spells x s) (hc : isStop c = true) :
    gap ++ c :: r ≠ before ++ s ++ r' := by
  intro heq
  obtain ⟨first, rest, rfl, hfirst⟩ := hopening x s h
  simp only [List.append_assoc, List.cons_append] at heq
  obtain ⟨-, rfl, -⟩ := hgap.eq_of_append hb (of_isStop hc).1 (isBlank_of_isOpening hfirst) heq
  rw [(of_isStop hc).2.2] at hfirst
  cases hfirst

theorem Listed.eq_of_append {xs ys : List α} {close : Char} (hclose : isStop close = true)
    (hcomma : close ≠ ',') (hopening : Opening spells) (halone : ∀ x ∈ xs, Alone spells x)
    (h : Listed spells xs s) (h' : Listed spells ys t)
    (heq : s ++ close :: r = t ++ close :: r') : xs = ys ∧ s = t := by
  have hstop : isStop ',' = true := rfl
  induction h generalizing ys t with
  | none hgap =>
    cases h' with
    | none hgap' =>
      obtain ⟨rfl, -⟩ := hgap.eq_of_append hgap' (of_isStop hclose).1 (of_isStop hclose).1 heq
      exact ⟨rfl, rfl⟩
    | last hb h' =>
      rw [List.append_assoc] at heq
      exact absurd heq (ne_item_of_blank hopening hgap hb h' hclose)
    | more hb h' =>
      rw [List.append_assoc, List.append_assoc] at heq
      exact absurd heq (ne_item_of_blank hopening hgap hb h' hclose)
  | last hb h ha =>
    have hx := halone _ List.mem_cons_self
    cases h' with
    | none hgap' =>
      rw [List.append_assoc] at heq
      exact absurd heq.symm (ne_item_of_blank hopening hgap' hb h hclose)
    | last hb' h' ha' =>
      obtain ⟨rfl, htext, -⟩ := hx.item_eq hopening hb hb' h h' ha ha' hclose hclose heq
      exact ⟨rfl, htext⟩
    | more hb' h' ha' =>
      rw [List.append_assoc _ (',' :: _), List.cons_append] at heq
      obtain ⟨-, -, hc, -⟩ := hx.item_eq hopening hb hb' h h' ha ha' hclose hstop heq
      exact absurd hc hcomma
  | more hb h ha hr ih =>
    have hx := halone _ List.mem_cons_self
    rw [List.append_assoc _ (',' :: _), List.cons_append] at heq
    cases h' with
    | none hgap' =>
      rw [List.append_assoc] at heq
      exact absurd heq.symm (ne_item_of_blank hopening hgap' hb h hclose)
    | last hb' h' ha' =>
      obtain ⟨-, -, hc, -⟩ := hx.item_eq hopening hb hb' h h' ha ha' hstop hclose heq
      exact absurd hc.symm hcomma
    | more hb' h' ha' hr' =>
      rw [List.append_assoc _ (',' :: _) (close :: r'), List.cons_append] at heq
      obtain ⟨rfl, htext, -, hrest⟩ := hx.item_eq hopening hb hb' h h' ha ha' hstop hstop heq
      obtain ⟨hitems, rfl⟩ := ih (fun x hx => halone x (List.mem_cons_of_mem _ hx)) hr' hrest
      exact ⟨by rw [hitems], by rw [htext]⟩

end

/-! ### Values -/

theorem opening_spells : Opening Spells := by
  intro j s h
  cases h with
  | string h => cases h; exact ⟨'"', _, rfl, rfl⟩
  | number hne hdigits =>
    obtain ⟨d, digits, rfl⟩ := List.exists_cons_of_ne_nil hne
    exact ⟨d, digits, rfl, by simp [isOpening, hdigits d List.mem_cons_self]⟩
  | array => exact ⟨'[', _, rfl, rfl⟩
  | object => exact ⟨'\x7b', _, rfl, rfl⟩

theorem opening_spellsField : Opening SpellsField := by
  intro field s h
  cases h with
  | pair hk =>
    cases hk
    exact ⟨'"', _, rfl, rfl⟩

/-- What a value is, by the character that its texts begin with; a zero stands for all digits. -/
def opener : Json → Char
  | string _ => '"'
  | number _ => '0'
  | array _ => '['
  | object _ => '\x7b'

theorem Spells.exists_first {j : Json} {s : List Char} (h : Spells j s) :
    ∃ c rest, s = c :: rest ∧ (if c.isDigit then '0' else c) = opener j := by
  cases h with
  | string h => cases h; exact ⟨'"', _, rfl, rfl⟩
  | number hne hdigits =>
    obtain ⟨d, digits, rfl⟩ := List.exists_cons_of_ne_nil hne
    exact ⟨d, digits, rfl, if_pos (hdigits d List.mem_cons_self)⟩
  | array => exact ⟨'[', _, rfl, rfl⟩
  | object => exact ⟨'\x7b', _, rfl, rfl⟩

theorem opener_eq {j j' : Json} {s t : List Char} (h : Spells j s) (h' : Spells j' t)
    (heq : s ++ r = t ++ r') : opener j = opener j' := by
  obtain ⟨c, rest, rfl, hc⟩ := h.exists_first
  obtain ⟨c', rest', rfl, hc'⟩ := h'.exists_first
  obtain ⟨rfl, -⟩ := List.cons.inj heq
  exact hc.symm.trans hc'

/-- A field is alone with its texts if its value is. -/
theorem alone_field {field : String × Json} (h : Alone Spells field.2) : Alone SpellsField field := by
  intro other s t r r' hs ht hr hr' heq
  cases hs with
  | pair hk hb ha hv =>
    cases ht with
    | pair hk' hb' ha' hv' =>
      simp only [List.append_assoc, List.cons_append] at heq
      obtain ⟨rfl, rfl⟩ := hk.eq_of_append hk' heq
      obtain ⟨rfl, -, hrest⟩ := hb.eq_of_append hb' rfl rfl (List.append_cancel_left heq)
      obtain ⟨first, rest, rfl, hfirst⟩ := opening_spells _ _ hv
      obtain ⟨first', rest', rfl, hfirst'⟩ := opening_spells _ _ hv'
      obtain ⟨rfl, rfl, htext⟩ := ha.eq_of_append ha' (isBlank_of_isOpening hfirst)
        (isBlank_of_isOpening hfirst') hrest
      obtain ⟨rfl, htext⟩ := h _ _ _ _ _ hv hv' hr hr' (congrArg (first :: ·) htext)
      exact ⟨rfl, by rw [htext]⟩

/-- No two values have a text in common, even where it goes on after them in two ways. -/
theorem alone_spells (j : Json) : Alone Spells j := by
  induction j using members_induction with
  | string text =>
    intro j' s t r r' h h' _ _ heq
    have hkind := opener_eq h h' heq
    cases h' with
    | string h' =>
      cases h with
      | string h =>
        obtain ⟨rfl, rfl⟩ := h.eq_of_append h' heq
        exact ⟨rfl, rfl⟩
    | number | array | object => cases hkind
  | number n =>
    intro j' s t r r' h h' hr hr' heq
    have hkind := opener_eq h h' heq
    cases h' with
    | number _ hdigits' =>
      cases h with
      | number _ hdigits =>
        obtain ⟨rfl, -⟩ := Text.cut_unique hdigits hr hdigits' hr' heq
        exact ⟨rfl, rfl⟩
    | string | array | object => cases hkind
  | array items ih =>
    intro j' s t r r' h h' _ _ heq
    have hkind := opener_eq h h' heq
    cases h' with
    | array h' =>
      cases h with
      | array h =>
        simp only [List.cons_append, List.append_assoc] at heq
        obtain ⟨rfl, rfl⟩ := h.eq_of_append rfl (by decide) opening_spells ih h' (List.cons.inj heq).2
        exact ⟨rfl, rfl⟩
    | string | number | object => cases hkind
  | object fields ih =>
    intro j' s t r r' h h' _ _ heq
    have hkind := opener_eq h h' heq
    cases h' with
    | object h' =>
      cases h with
      | object h =>
        simp only [List.cons_append, List.append_assoc] at heq
        obtain ⟨rfl, rfl⟩ := h.eq_of_append rfl (by decide) opening_spellsField
          (fun field hfield => alone_field (ih field hfield)) h' (List.cons.inj heq).2
        exact ⟨rfl, rfl⟩
    | string | number | array => cases hkind

/-- A text is that of one value at most. -/
theorem Spells.unique {j j' : Json} {s : List Char} (h : Spells j s) (h' : Spells j' s) : j = j' := by
  have hend : Apart [] := fun c hc => absurd hc (Option.not_mem_none c)
  exact (alone_spells j j' s s [] [] h h' hend hend rfl).1

/-- A pretty text is that of its value alone. -/
theorem spells_pretty_iff {j j' : Json} : Spells j' j.pretty.toList ↔ j' = j := by
  constructor
  · intro h
    exact h.unique (spells_pretty j)
  · rintro rfl
    exact spells_pretty j'

end DocOutline.Json

namespace DocOutline.Entries

/-- A field that is left out stands for no children. -/
theorem toJson_eq_of_children {a b : Entries}
    (h : (if a.isEmpty then [] else [("children", Json.array a.toJson)]) =
      if b.isEmpty then [] else [("children", Json.array b.toJson)]) : a.toJson = b.toJson := by
  cases a with
  | nil =>
    cases b with
    | nil => rfl
    | cons => cases h
  | cons =>
    cases b with
    | nil => cases h
    | cons => exact Json.array.inj (Prod.mk.inj (List.cons.inj h).1).2

/-- Entries with one list of objects are the same entries. -/
theorem toJson_inj {a b : Entries} : a.toJson = b.toJson ↔ a = b := by
  refine ⟨fun h => ?_, congrArg toJson⟩
  induction a generalizing b with
  | nil =>
    cases b with
    | nil => rfl
    | cons => cases h
  | cons x below after ihb iha =>
    cases b with
    | nil => cases h
    | cons y below' after' =>
      simp only [toJson, List.cons.injEq, Json.object.injEq, List.cons_append, List.nil_append,
        Prod.mk.injEq, Json.string.injEq, Json.number.injEq, true_and] at h
      obtain ⟨⟨htitle, hlevel, hline, hchildren⟩, hafter⟩ := h
      have hheading : x = y := by
        obtain ⟨title, level, line⟩ := x
        obtain ⟨title', level', line'⟩ := y
        rw [Heading.mk.injEq]
        exact ⟨htitle, UInt8.toNat_inj.1 hlevel, hline⟩
      rw [hheading, ihb (toJson_eq_of_children hchildren), iha hafter]

/-- Entries with one pretty text are the same entries, whatever their titles hold. -/
theorem prettyJson_inj {a b : Entries} : a.prettyJson = b.prettyJson ↔ a = b := by
  constructor
  · intro htext
    have hspells : Json.Spells (.array a.toJson) b.prettyJson.toList := by
      rw [← htext]
      exact Json.spells_pretty _
    have harray : Json.array a.toJson = .array b.toJson := Json.spells_pretty_iff.1 hspells
    exact toJson_inj.1 (Json.array.inj harray)
  · exact congrArg prettyJson

end DocOutline.Entries
