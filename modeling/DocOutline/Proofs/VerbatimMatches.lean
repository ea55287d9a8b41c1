import DocOutline.Proofs.FilteredEntries

/-! Entries that hold a keyword just as it is written.

Lower-casing is the same for a letter wherever it stands, but for the capital sigma,
which has a form of its own at the end of a word. So a part of a text has the
lower-case form that it has by itself just if each capital sigma of it ends a word in
the text and in the part alike (`Text.lowercaseBetween_eq_iff`), and an entry that
holds a keyword in this way is found (`Entries.filter_finds_verbatim`). Of a part that
begins or ends within a word this may fail, and then the entry can be lost, although it
holds the keyword letter for letter (`Entries.filter_loses_wordEnd`). -/
namespace DocOutline

namespace Text

/-- Whether a word ends with a letter between `before`, read backwards, and `after`. -/
def endsWord (before after : List Char) : Bool := leadsToCased before && !leadsToCased after

/-- Every capital sigma of `part` ends a word between `front` and `back` just if it ends
one in `part` alone. -/
def SigmasAgree (front part back : List Char) : Prop :=
  ∀ s t, part = s ++ 'Σ' :: t →
    endsWord (s.reverse ++ front.reverse) (t ++ back) = endsWord s.reverse t

/-- The lower-case form of a text that stands between `before`, read backwards, and `after`. -/
def lowercaseBetween (after before : List Char) : List Char → List Char
  | [] => []
  | c :: s => lowerAt before c (s ++ after) ++ lowercaseBetween after (c :: before) s

theorem lowercaseAfter_append (before s after : List Char) :
    lowercaseAfter before (s ++ after) =
      lowercaseBetween after before s ++ lowercaseAfter (s.reverse ++ before) after := by
  induction s generalizing before with
  | nil => rfl
  | cons c s ih =>
    rw [List.cons_append, lowercaseAfter, ih, lowercaseBetween, List.append_assoc,
      List.reverse_cons, List.append_assoc, List.singleton_append]

theorem lowercase_eq_between (s : List Char) : lowercase s = lowercaseBetween [] [] s := by
  have happend := lowercaseAfter_append [] s []
  rwa [List.append_nil, lowercaseAfter, List.append_nil] at happend

theorem lowerAt_sigma (before after : List Char) :
    lowerAt before 'Σ' after = if endsWord before after then ['ς'] else ['σ'] := rfl

theorem length_lowerAt (before before' after after' : List Char) (c : Char) :
    (lowerAt before c after).length = (lowerAt before' c after').length := by
  by_cases hc : c = 'Σ'
  · rw [hc, lowerAt_sigma, lowerAt_sigma]
    split <;> split <;> rfl
  · rw [lowerAt_of_ne hc, lowerAt_of_ne hc before']

theorem lowerAt_eq_iff {before before' after after' : List Char} {c : Char} :
    lowerAt before c after = lowerAt before' c after' ↔
      (c = 'Σ' → endsWord before after = endsWord before' after') := by
  by_cases hc : c = 'Σ'
  · rw [hc, lowerAt_sigma, lowerAt_sigma]
    cases endsWord before after <;> cases endsWord before' after' <;> decide
  · rw [lowerAt_of_ne hc, lowerAt_of_ne hc before']
    exact ⟨fun _ hsigma => absurd hsigma hc, fun _ => rfl⟩

/-- A text has one lower-case form at two places just if its capital sigmas end words at
both or at none. -/
theorem lowercaseBetween_eq_iff {part before before' after after' : List Char} :
    lowercaseBetween after before part = lowercaseBetween after' before' part ↔
      ∀ s t, part = s ++ 'Σ' :: t →
        endsWord (s.reverse ++ before) (t ++ after) =
          endsWord (s.reverse ++ before') (t ++ after') := by
  induction part generalizing before before' with
  | nil => simp [lowercaseBetween]
  | cons c part ih =>
    have hsplit : lowercaseBetween after before (c :: part) =
        lowercaseBetween after' before' (c :: part) ↔
        lowerAt before c (part ++ after) = lowerAt before' c (part ++ after') ∧
          lowercaseBetween after (c :: before) part =
            lowercaseBetween after' (c :: before') part := by
      rw [lowercaseBetween, lowercaseBetween]
      refine ⟨fun h => List.append_inj h (length_lowerAt ..), ?_⟩
      rintro ⟨hfirst, hrest⟩
      rw [hfirst, hrest]
    rw [hsplit, lowerAt_eq_iff, ih]
    constructor
    · rintro ⟨hfirst, hrest⟩ s t hpart
      cases s with
      | nil =>
        obtain ⟨rfl, rfl⟩ := List.cons.inj hpart
        exact hfirst rfl
      | cons d s =>
        obtain ⟨rfl, htail⟩ := List.cons.inj hpart
        simpa using hrest s t htail
    · intro h
      refine ⟨?_, fun s t hpart => ?_⟩
      · rintro rfl
        exact h [] part rfl
      · simpa using h (c :: s) t (congrArg (c :: ·) hpart)

theorem SigmasAgree.lowercase_infix {front part back : List Char}
    (h : SigmasAgree front part back) :
    lowercase part <:+: lowercase (front ++ part ++ back) := by
  have hpart : lowercaseBetween back front.reverse part = lowercase part := by
    rw [lowercase_eq_between, lowercaseBetween_eq_iff]
    intro s t hst
    rw [h s t hst, List.append_nil, List.append_nil]
  have hwhole : lowercase (front ++ part ++ back) =
      lowercaseBetween (part ++ back) [] front ++ lowercase part ++
        lowercaseAfter (part.reverse ++ front.reverse) back := by
    rw [← hpart, lowercase, List.append_assoc, lowercaseAfter_append, lowercaseAfter_append,
      List.append_nil, List.append_assoc]
  exact ⟨_, _, hwhole.symm⟩

/-- There is nothing to agree on without a capital sigma. -/
theorem sigmasAgree_of_not_mem {part : List Char} (h : 'Σ' ∉ part) (front back : List Char) :
    SigmasAgree front part back := by
  intro s t hpart
  exact absurd (hpart ▸ List.mem_append_right s List.mem_cons_self) h

theorem leadsToCased_append (s t : List Char) :
    leadsToCased (s ++ t) = if s.all isCaseIgnorable then leadsToCased t else leadsToCased s := by
  induction s with
  | nil => rfl
  | cons c s ih =>
    by_cases hc : isCaseIgnorable c = true
    · simpa [leadsToCased, hc] using ih
    · simp [leadsToCased, hc]

/-- A part that stands apart from the words around it agrees with itself. -/
theorem sigmasAgree_of_apart {front back : List Char} (hfront : leadsToCased front.reverse = false)
    (hback : leadsToCased back = false) (part : List Char) : SigmasAgree front part back := by
  have happend : ∀ s t : List Char, leadsToCased t = false →
      leadsToCased (s ++ t) = leadsToCased s := by
    intro s t ht
    have hnil := leadsToCased_append s []
    rw [List.append_nil] at hnil
    rw [leadsToCased_append, ht]
    exact hnil.symm
  intro s t _
  rw [endsWord, endsWord, happend _ _ hfront, happend _ _ hback]

end Text

/-- Whether the keyword, trimmed, stands in the shown text of the entry as it is
written, and ends words there where it does by itself. -/
def Heading.HoldsVerbatim (keyword : String) (h : Heading) : Prop :=
  ∃ front back, h.presentableText.toList = front ++ Text.trim keyword.toList ++ back ∧
    Text.SigmasAgree front (Text.trim keyword.toList) back

theorem Heading.HoldsVerbatim.matches {keyword : String} {h : Heading}
    (hholds : h.HoldsVerbatim keyword) : h.Matches keyword := by
  obtain ⟨front, back, htext, hagree⟩ := hholds
  rw [Heading.Matches, htext]
  exact .inl hagree.lowercase_infix

/-- A keyword without a capital sigma is held wherever it stands. -/
theorem Heading.holdsVerbatim_iff_infix {keyword : String}
    (h : 'Σ' ∉ Text.trim keyword.toList) {x : Heading} :
    x.HoldsVerbatim keyword ↔ Text.trim keyword.toList <:+: x.presentableText.toList := by
  constructor
  · rintro ⟨front, back, htext, -⟩
    exact ⟨front, back, htext.symm⟩
  · rintro ⟨front, back, htext⟩
    exact ⟨front, back, htext.symm, Text.sigmasAgree_of_not_mem h front back⟩

namespace Entries

/-- Whatever entries hold the keyword verbatim, filtering by it keeps them all, each
below the entries that it was below before. -/
theorem filter_finds_verbatim (keyword : String) (e : Entries)
    (found : List (List Heading × Branch Heading)) (hfound : found.Sublist (e.lineages []))
    (hholds : ∀ s ∈ found, s.2.label.HoldsVerbatim keyword) :
    (found.map fun s => (s.1, s.2.label)).Sublist
      (((Entries.filter keyword e).lineages []).map fun s => (s.1, s.2.label)) := by
  have hsurvives : ∀ s ∈ found, s.2.survives (Heading.hasKeyword (needle keyword)) = true := by
    intro s hs
    have hmatches := Heading.hasKeyword_iff.2 (hholds s hs).matches
    exact Branch.survives_iff.2 ⟨s.2.label, List.mem_cons_self, hmatches⟩
  have hkept : found.Sublist
      ((e.lineages []).filter fun s => s.2.survives (Heading.hasKeyword (needle keyword))) := by
    rw [← List.filter_eq_self.2 hsurvives]
    exact hfound.filter _
  rw [filter_eq_keep, Forest.lineages_keep, List.map_map]
  exact hkept.map _

/-- A heading that ends with a capital sigma, below another one. -/
def odyssey : Entries :=
  .cons ⟨"Βιβλίο", 1, 1⟩ (.cons ⟨"Ο ΛΟΓΟΣ", 2, 3⟩ .nil .nil) .nil

/-- A whole word is found with the heading above it. -/
theorem filter_finds_wholeWord :
    (⟨"Ο ΛΟΓΟΣ", 2, 3⟩ : Heading).HoldsVerbatim " ΛΟΓΟΣ" ∧
      ([⟨"Βιβλίο", 1, 1⟩], ⟨"Ο ΛΟΓΟΣ", 2, 3⟩) ∈
        ((Entries.filter " ΛΟΓΟΣ" odyssey).lineages []).map fun s => (s.1, s.2.label) := by
  have hholds : (⟨"Ο ΛΟΓΟΣ", 2, 3⟩ : Heading).HoldsVerbatim " ΛΟΓΟΣ" :=
    ⟨['Ο', ' '], [], by decide +kernel,
      Text.sigmasAgree_of_apart (by decide +kernel) (by decide +kernel) _⟩
  have hfound := filter_finds_verbatim " ΛΟΓΟΣ" odyssey
    [([⟨"Βιβλίο", 1, 1⟩], ⟨⟨"Ο ΛΟΓΟΣ", 2, 3⟩, .nil⟩)] (.cons _ (.refl _))
    (List.forall_mem_singleton.2 hholds)
  exact ⟨hholds, hfound.subset List.mem_cons_self⟩

/-- By itself a capital sigma is not at the end of a word, and so it is not found there. -/
theorem filter_loses_wordEnd :
    Text.trim "Σ".toList <:+: (Heading.presentableText ⟨"ΑΣ", 1, 1⟩).toList ∧
      Entries.filter "Σ" (.cons ⟨"ΑΣ", 1, 1⟩ .nil .nil) = .nil := by
  decide +kernel

end Entries

end DocOutline
