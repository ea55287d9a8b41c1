import Mathlib.Data.List.Chain
import Mathlib.Data.List.DropRight
import DocOutline.Text.Blank

/-! Tidy texts: words with single spaces between them, and nothing else.

Collapsing the blanks of a text makes it tidy and leaves a tidy text as it is, so the
tidy texts are those that are their own words with single spaces between them
(`collapse_eq_self_iff`). What a tidy text begins with is tidy again where it does not
end in a blank (`Tidy.of_prefix`). All but the blanks of a text is left as it is
(`filter_collapse`). -/
namespace DocOutline.Text

/-- Whether the only blanks in a text are single spaces between words. -/
structure Tidy (s : List Char) : Prop where
  spaces : ∀ c ∈ s, isBlank c = true → c = ' '
  single : s.IsChain fun c d => isBlank c = false ∨ isBlank d = false
  first : ∀ c ∈ s.head?, isBlank c = false
  last : ∀ c ∈ s.getLast?, isBlank c = false

variable {s t w current : List Char}

theorem tidy_nil : Tidy [] where
  spaces := by simp
  single := .nil
  first := by simp
  last := by simp

/-- A word is tidy. -/
theorem tidy_of_word (h : ∀ c ∈ w, isBlank c = false) : Tidy w where
  spaces := fun c hc hblank => by rw [h c hc] at hblank; cases hblank
  single := (List.pairwise_of_forall_mem_list fun c hc _ _ => .inl (h c hc)).isChain
  first := fun c hc => h c (List.mem_of_mem_head? hc)
  last := fun c hc => h c (List.mem_of_mem_getLast? hc)

/-- A word, a space and a tidy text make a tidy text. -/
theorem Tidy.join (hs : Tidy s) (hw : ∀ c ∈ w, isBlank c = false) (hwne : w ≠ []) (hne : s ≠ []) :
    Tidy (w ++ ' ' :: s) where
  spaces := by
    intro c hc hblank
    rw [List.mem_append, List.mem_cons] at hc
    rcases hc with hc | rfl | hc
    · rw [hw c hc] at hblank
      cases hblank
    · rfl
    · exact hs.spaces c hc hblank
  single := by
    rw [List.isChain_append, List.isChain_cons]
    exact ⟨(tidy_of_word hw).single, ⟨fun c hc => .inr (hs.first c hc), hs.single⟩,
      fun c hc _ _ => .inl ((tidy_of_word hw).last c hc)⟩
  first := by
    rw [List.head?_append_of_ne_nil _ hwne]
    exact (tidy_of_word hw).first
  last := by
    rw [List.getLast?_append_of_ne_nil _ (List.cons_ne_nil _ _)]
    obtain ⟨c, rest, rfl⟩ := List.exists_cons_of_ne_nil hne
    rw [List.getLast?_cons_cons]
    exact hs.last

theorem tidy_intercalate {ws : List (List Char)}
    (h : ∀ w ∈ ws, w ≠ [] ∧ ∀ c ∈ w, isBlank c = false) :
    Tidy ([' '].intercalate ws) ∧ (ws ≠ [] → [' '].intercalate ws ≠ []) := by
  induction ws with
  | nil => exact ⟨tidy_nil, fun hne => absurd rfl hne⟩
  | cons w ws ih =>
    rw [List.forall_mem_cons] at h
    obtain ⟨⟨hwne, hw⟩, hws⟩ := h
    obtain ⟨htidy, hne⟩ := ih hws
    cases ws with
    | nil =>
      rw [List.intercalate_singleton]
      exact ⟨tidy_of_word hw, fun _ => hwne⟩
    | cons v ws =>
      rw [List.intercalate_cons_cons, List.append_assoc, List.singleton_append]
      exact ⟨htidy.join hw hwne (hne (List.cons_ne_nil v ws)), by simp⟩

/-- Collapsing the blanks of a text makes it tidy. -/
theorem tidy_collapse (s : List Char) : Tidy (collapse s) :=
  (tidy_intercalate fun _ hw => ⟨ne_nil_of_mem_words hw, isBlank_eq_false_of_mem_words hw⟩).1

/-- The words of a tidy text that goes on from `current` give the text again. -/
theorem intercalate_wordsAfter (hspaces : ∀ c ∈ s, isBlank c = true → c = ' ')
    (hsingle : s.IsChain fun c d => isBlank c = false ∨ isBlank d = false)
    (hfirst : current = [] → ∀ c ∈ s.head?, isBlank c = false)
    (hlast : ∀ c ∈ s.getLast?, isBlank c = false) :
    [' '].intercalate (wordsAfter current s) = current.reverse ++ s := by
  induction s generalizing current with
  | nil =>
    unfold wordsAfter
    cases current with
    | nil => rfl
    | cons c rest => simp
  | cons c s ih =>
    rw [List.forall_mem_cons] at hspaces
    rw [List.isChain_cons] at hsingle
    have hlast' : ∀ d ∈ s.getLast?, isBlank d = false := by
      intro d hd
      apply hlast
      rw [List.getLast?_cons, hd]
      rfl
    unfold wordsAfter
    cases hblank : isBlank c with
    | false =>
      rw [if_neg Bool.false_ne_true, ih hspaces.2 hsingle.2 (fun h => absurd h (List.cons_ne_nil _ _))
        hlast', List.reverse_cons, List.append_assoc, List.singleton_append]
    | true =>
      -- The blank stands between two words, since the text neither begins nor ends with it.
      have hcurrent : current ≠ [] := by
        intro hnil
        have hc := hfirst hnil c rfl
        rw [hblank] at hc
        cases hc
      have hne : s ≠ [] := by
        rintro rfl
        have hc := hlast c rfl
        rw [hblank] at hc
        cases hc
      have hrest : [' '].intercalate (wordsAfter [] s) = s := by
        refine ih hspaces.2 hsingle.2 (fun _ d hd => ?_) hlast'
        exact (hsingle.1 d hd).resolve_left (by rw [hblank]; decide)
      have hwords : wordsAfter [] s ≠ [] := by
        intro hnil
        rw [hnil] at hrest
        exact hne hrest.symm
      rw [if_pos rfl, if_neg (by simpa using hcurrent), List.intercalate_cons_of_ne_nil hwords, hrest,
        hspaces.1 hblank, List.append_assoc, List.singleton_append]

/-- A text is its own words with single spaces between them just if it is tidy. -/
theorem collapse_eq_self_iff : collapse s = s ↔ Tidy s := by
  constructor
  · intro h
    rw [← h]
    exact tidy_collapse s
  · intro h
    exact intercalate_wordsAfter h.spaces h.single (fun _ => h.first) h.last

theorem Tidy.of_prefix (h : Tidy t) (hp : s <+: t) (hlast : ∀ c ∈ s.getLast?, isBlank c = false) :
    Tidy s where
  spaces := fun c hc => h.spaces c (hp.subset hc)
  single := h.single.prefix hp
  first := by
    intro c hc
    obtain ⟨rest, rfl⟩ := hp
    apply h.first
    rw [List.head?_append, hc]
    rfl
  last := hlast

theorem Tidy.not_mem_newline (h : Tidy s) : '\n' ∉ s := by
  intro hmem
  have hspace := h.spaces '\n' hmem isBlank_newline
  cases hspace

theorem trimEnd_isPrefix (s : List Char) : trimEnd s <+: s := List.rdropWhile_prefix isBlank s

theorem isBlank_getLast?_trimEnd (s : List Char) : ∀ c ∈ (trimEnd s).getLast?, isBlank c = false := by
  intro c hc
  obtain ⟨hne, rfl⟩ := List.mem_getLast?_eq_getLast hc
  exact Bool.eq_false_iff.2 (List.rdropWhile_last_not isBlank s hne)

/-- What a tidy text begins with is tidy without the blanks at its end. -/
theorem Tidy.trimEnd (h : Tidy t) (hp : s <+: t) : Tidy (trimEnd s) :=
  h.of_prefix ((trimEnd_isPrefix s).trans hp) (isBlank_getLast?_trimEnd s)

/-! ### What is no blank -/

theorem flatten_wordsAfter (current s : List Char) :
    (wordsAfter current s).flatten = current.reverse ++ s.filter fun c => !isBlank c := by
  induction s generalizing current with
  | nil => cases current <;> simp [wordsAfter]
  | cons c s ih =>
    unfold wordsAfter
    cases hblank : isBlank c with
    | false => simp [ih, hblank]
    | true => cases current <;> simp [ih, hblank]

theorem filter_intercalate (ws : List (List Char)) :
    ([' '].intercalate ws).filter (fun c => !isBlank c) = ws.flatten.filter fun c => !isBlank c := by
  induction ws with
  | nil => rfl
  | cons w ws ih =>
    cases ws with
    | nil => rw [List.intercalate_singleton, List.flatten_singleton]
    | cons v ws =>
      rw [List.intercalate_cons_cons, List.flatten_cons, List.filter_append, List.filter_append, ih,
        List.filter_append, List.filter_singleton, isBlank_space]
      simp

/-- Collapsing the blanks of a text leaves everything else. -/
theorem filter_collapse (s : List Char) :
    (collapse s).filter (fun c => !isBlank c) = s.filter fun c => !isBlank c := by
  rw [collapse, words, filter_intercalate, flatten_wordsAfter, List.reverse_nil, List.nil_append,
    List.filter_filter]
  simp

end DocOutline.Text
