import DocOutline.Proofs.SortedFilter

/-! What is left of entries when they are filtered.

A tree survives if something in it is accepted (`Branch.survives_iff`), and what is
kept of a forest are its survivors, each below the labels it was below before
(`Forest.lineages_keep`). So filtering entries leaves the matches and what stands
above a match, in their order and at their depth (`Entries.depths_filter`). To keep
what a narrower test accepts, it makes no difference to keep what a wider test accepts
before or after (`Forest.keep_after_wider`, `Forest.keep_before_wider`), and a keyword
that holds another one is a narrower test (`Entries.filter_filter_of_infix`). -/
namespace DocOutline

namespace Forest
variable {α : Type*} {p q : α → Bool}

/-- Every tree in pre-order, with the labels that it stands below, the nearest first.
The forest itself stands below `above`. -/
def lineages (above : List α) : Forest α → List (List α × Branch α)
  | nil => []
  | cons a below after =>
    (above, ⟨a, below⟩) :: (below.lineages (a :: above) ++ after.lineages above)

theorem keep_eq_nil_iff {f : Forest α} : f.keep p = nil ↔ ∀ x ∈ f.preorder, p x = false := by
  induction f with
  | nil => simp [keep, preorder]
  | cons a below after ihb iha =>
    rw [keep, preorder, List.forall_mem_cons, List.forall_mem_append, ← ihb, ← iha]
    cases hp : p a <;> cases hkept : below.keep p <;> simp [isEmpty]

end Forest

namespace Branch
variable {α : Type*} {p : α → Bool}

theorem survives_iff {b : Branch α} : b.survives p = true ↔ ∃ x ∈ b.preorder, p x = true := by
  have hbelow : (!(b.below.keep p).isEmpty) = true ↔ ∃ x ∈ b.below.preorder, p x = true := by
    simp [← Bool.not_eq_true, Forest.isEmpty_iff, Forest.keep_eq_nil_iff]
  rw [survives, Bool.or_eq_true, hbelow, preorder, List.exists_mem_cons_iff]

end Branch

namespace Forest
variable {α : Type*} {p q : α → Bool}

/-- What is kept are the survivors, below what they were below before. -/
theorem lineages_keep (p : α → Bool) (f : Forest α) (above : List α) :
    (f.keep p).lineages above =
      ((f.lineages above).filter fun s => s.2.survives p).map fun s => (s.1, s.2.kept p) := by
  induction f generalizing above with
  | nil => rfl
  | cons a below after ihb iha =>
    have hsurvives : Branch.survives p ⟨a, below⟩ = (p a || !(below.keep p).isEmpty) := rfl
    rw [keep, lineages, List.filter_cons, hsurvives, List.filter_append]
    split
    · rw [lineages, ihb, iha, List.map_cons, List.map_append, Branch.kept]
    · rename_i hdropped
      -- Of a tree that is dropped nothing below survives.
      obtain ⟨-, hnil⟩ : p a = false ∧ below.keep p = nil := by simpa using hdropped
      have hnone := ihb (a :: above)
      rw [hnil, lineages] at hnone
      rw [List.map_append, ← hnone, List.nil_append, iha]

/-- Everything is kept if everything is accepted. -/
theorem keep_eq_self {f : Forest α} (h : ∀ a, p a = true) : f.keep p = f := by
  induction f with
  | nil => rfl
  | cons a below after ihb iha => rw [keep, h a, Bool.true_or, if_pos rfl, ihb, iha]

/-- What a narrower test accepts is all there after keeping what a wider one accepts. -/
theorem keep_after_wider (h : ∀ a, p a = true → q a = true) (f : Forest α) :
    (f.keep q).keep p = f.keep p := by
  induction f with
  | nil => rfl
  | cons a below after ihb iha =>
    by_cases hq : (q a || !(below.keep q).isEmpty) = true
    · rw [keep, if_pos hq, keep, ihb, iha, keep]
    · obtain ⟨hqa, hnil⟩ : q a = false ∧ below.keep q = nil := by simpa using hq
      have hpa : p a = false := by
        cases hpa : p a
        · rfl
        · rw [h a hpa] at hqa
          cases hqa
      have hbelow : below.keep p = nil := by rw [← ihb, hnil, keep]
      rw [keep, if_neg hq, iha, keep, hpa, hbelow]
      rfl

/-- What a narrower test keeps is all kept by a wider one. -/
theorem keep_before_wider (h : ∀ a, p a = true → q a = true) (f : Forest α) :
    (f.keep p).keep q = f.keep p := by
  induction f with
  | nil => rfl
  | cons a below after ihb iha =>
    rw [keep]
    split
    · rename_i hp
      have hq : (q a || !(below.keep p).isEmpty) = true := by
        rw [Bool.or_eq_true] at hp ⊢
        exact hp.imp_left (h a)
      rw [keep, ihb, iha, hq, if_pos rfl]
    · exact iha

end Forest

namespace Heading

/-- Whether a search for the keyword finds the entry: the keyword, trimmed and
lower-cased, stands in its shown text, lower-cased, or in its location. -/
def Matches (keyword : String) (h : Heading) : Prop :=
  needle keyword <:+: Text.lowercase h.presentableText.toList ∨
    needle keyword <:+: h.location.toList

theorem hasKeyword_iff {keyword : String} {h : Heading} :
    h.hasKeyword (needle keyword) = true ↔ h.Matches keyword := by
  rw [hasKeyword, Bool.or_eq_true, Text.occurs_iff, Text.occurs_iff, Matches]

instance (keyword : String) (h : Heading) : Decidable (h.Matches keyword) :=
  decidable_of_iff _ hasKeyword_iff

/-- What holds a text holds every part of it. -/
theorem hasKeyword_of_infix {part text : List Char} (hpart : part <:+: text) {h : Heading}
    (htext : h.hasKeyword text = true) : h.hasKeyword part = true := by
  simp only [hasKeyword, Bool.or_eq_true, Text.occurs_iff] at htext ⊢
  exact htext.imp hpart.trans hpart.trans

end Heading

namespace Entries

/-- A blank keyword is no exception: everything holds it. -/
theorem filter_eq_keep (keyword : String) (e : Entries) :
    Entries.filter keyword e = e.keep (Heading.hasKeyword (needle keyword)) := by
  rw [Entries.filter]
  split
  · rename_i hblank
    have hall : ∀ h : Heading, h.hasKeyword (needle keyword) = true := by
      intro h
      apply Heading.hasKeyword_iff.2
      rw [Heading.Matches, List.isEmpty_iff.1 hblank]
      exact .inl List.nil_infix
    rw [Forest.keep_eq_self hall]
  · rfl

/-- A heading with two below it, of which one has another below it. -/
def guide : Entries :=
  .cons ⟨"Guide", 1, 1⟩
    (.cons ⟨"Setup", 2, 3⟩ (.cons ⟨"Ports", 3, 5⟩ .nil .nil) (.cons ⟨"Use", 2, 9⟩ .nil .nil))
    (.cons ⟨"FAQ", 1, 12⟩ .nil .nil)

/-- A search within the matches of a part of the keyword finds the same, and so does a
search for that part within what the keyword finds. -/
theorem filter_filter_of_infix {part keyword : String} (h : needle part <:+: needle keyword)
    (e : Entries) :
    Entries.filter keyword (Entries.filter part e) = Entries.filter keyword e ∧
      Entries.filter part (Entries.filter keyword e) = Entries.filter keyword e := by
  have hwider := fun x : Heading => x.hasKeyword_of_infix h
  simp only [filter_eq_keep]
  exact ⟨Forest.keep_after_wider hwider e, Forest.keep_before_wider hwider e⟩

/-- The part stands in the location of another entry, too. -/
theorem filter_filter_guide :
    needle " 1" <:+: needle ":12" ∧
      Entries.filter ":12" (Entries.filter " 1" guide) = Entries.filter ":12" guide ∧
      Entries.filter " 1" (Entries.filter ":12" guide) = Entries.filter ":12" guide ∧
      Entries.filter " 1" guide ≠ Entries.filter ":12" guide := by
  have h : needle " 1" <:+: needle ":12" := by decide +kernel
  obtain ⟨hafter, hbefore⟩ := filter_filter_of_infix h guide
  exact ⟨h, hafter, hbefore, by decide +kernel⟩

end Entries

end DocOutline
