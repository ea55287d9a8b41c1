import DocOutline.Discovery
import DocOutline.Proofs.StableSort

/-! Paths in order, each once.

Components are ordered, lists of components by their first difference, and paths by
their components, so that two paths stand on one place exactly if they are the same by
components (`Path.same_iff_sortsBefore`). Arranging sorts and then drops repeats. What
comes of it increases strictly (`pairwise_arrange`), and of the spellings of one path it
holds the first that was there (`mem_arrange`). These two facts say all of it: it goes
with dropping whole paths (`arrange_filter`), and where each path has one spelling, it
does not depend on the order (`arrange_eq_of_members`). -/
namespace DocOutline

/-! ### Components -/

namespace Component
variable {a b c : Component}

theorem sortsBefore_iff : a.sortsBefore b = true ↔
    a.place < b.place ∨
      (a.place = b.place ∧ Text.sortsBefore UInt8.toNat a.text.bytes b.text.bytes = true) := by
  simp [sortsBefore]

theorem sortsBefore_total (a b : Component) : (a.sortsBefore b || b.sortsBefore a) = true := by
  rw [Bool.or_eq_true, sortsBefore_iff, sortsBefore_iff]
  rcases Nat.lt_trichotomy a.place b.place with h | h | h
  · exact .inl (.inl h)
  · have htotal := @Text.sortsBefore_total _ UInt8.toNat a.text.bytes b.text.bytes
    rcases Bool.or_eq_true_iff.1 htotal with ht | ht
    · exact .inl (.inr ⟨h, ht⟩)
    · exact .inr (.inr ⟨h.symm, ht⟩)
  · exact .inr (.inl h)

theorem sortsBefore_trans (hab : a.sortsBefore b = true) (hbc : b.sortsBefore c = true) :
    a.sortsBefore c = true := by
  rw [sortsBefore_iff] at *
  rcases hab with hab | ⟨hab, tab⟩ <;> rcases hbc with hbc | ⟨hbc, tbc⟩
  · exact .inl (Nat.lt_trans hab hbc)
  · exact .inl (hbc ▸ hab)
  · exact .inl (hab ▸ hbc)
  · exact .inr ⟨hab.trans hbc, Text.sortsBefore_trans tab tbc⟩

/-- The place and the text of a component are all that there is to it. -/
theorem eq_of_place_text (hp : a.place = b.place) (ht : a.text = b.text) : a = b := by
  cases a <;> cases b <;> simp_all [place, text]

theorem eq_of_sortsBefore (hab : a.sortsBefore b = true) (hba : b.sortsBefore a = true) :
    a = b := by
  rw [sortsBefore_iff] at hab hba
  have hp : a.place = b.place := by omega
  have hab' := (hab.resolve_left (by omega)).2
  have hba' := (hba.resolve_left (by omega)).2
  have ht : a.text.bytes = b.text.bytes := Text.eq_of_sortsBefore UInt8.toNat_inj.1 hab' hba'
  exact eq_of_place_text hp (congrArg RawText.mk ht)

end Component

namespace Path

/-! ### Paths -/

theorem componentsSort_total (as bs : List Component) :
    (componentsSort as bs || componentsSort bs as) = true := by
  induction as generalizing bs with
  | nil => rfl
  | cons a as ih =>
    cases bs with
    | nil => rfl
    | cons b bs =>
      by_cases h : a = b
      · subst h
        simpa [componentsSort] using ih bs
      · simpa [componentsSort, h, Ne.symm h] using Component.sortsBefore_total a b

theorem eq_of_componentsSort {as bs : List Component} (hab : componentsSort as bs = true)
    (hba : componentsSort bs as = true) : as = bs := by
  induction as generalizing bs with
  | nil =>
    cases bs with
    | nil => rfl
    | cons b bs => simp [componentsSort] at hba
  | cons a as ih =>
    cases bs with
    | nil => simp [componentsSort] at hab
    | cons b bs =>
      by_cases h : a = b
      · subst h
        simp only [componentsSort, if_true] at hab hba
        rw [ih hab hba]
      · simp only [componentsSort, h, Ne.symm h, if_false] at hab hba
        exact absurd (Component.eq_of_sortsBefore hab hba) h

theorem componentsSort_trans {as bs cs : List Component} (hab : componentsSort as bs = true)
    (hbc : componentsSort bs cs = true) : componentsSort as cs = true := by
  induction as generalizing bs cs with
  | nil => rfl
  | cons a as ih =>
    cases bs with
    | nil => simp [componentsSort] at hab
    | cons b bs =>
      cases cs with
      | nil => simp [componentsSort] at hbc
      | cons c cs =>
        -- Two of the heads may be equal; if all differ, the heads alone decide.
        by_cases hab' : a = b <;> by_cases hbc' : b = c
        · subst hab' hbc'
          simp only [componentsSort, if_true] at hab hbc ⊢
          exact ih hab hbc
        · subst hab'
          simpa only [componentsSort, hbc', if_false] using hbc
        · subst hbc'
          simpa only [componentsSort, hab', if_false] using hab
        · simp only [componentsSort, hab', hbc', if_false] at hab hbc
          have hac : a ≠ c := by
            rintro rfl
            exact hab' (Component.eq_of_sortsBefore hab hbc)
          simpa only [componentsSort, hac, if_false] using Component.sortsBefore_trans hab hbc

variable {a b c : RawText}

theorem sortsBefore_total (a b : RawText) : (sortsBefore a b || sortsBefore b a) = true :=
  componentsSort_total _ _

theorem sortsBefore_trans (hab : sortsBefore a b = true) (hbc : sortsBefore b c = true) :
    sortsBefore a c = true :=
  componentsSort_trans hab hbc

theorem same_iff_sortsBefore :
    same a b = true ↔ sortsBefore a b = true ∧ sortsBefore b a = true := by
  rw [same_iff]
  constructor
  · intro h
    simp [sortsBefore, h, componentsSort_refl]
  · rintro ⟨hab, hba⟩
    exact eq_of_componentsSort hab hba

@[simp] theorem same_self (a : RawText) : same a a = true := same_iff.2 rfl

theorem same_symm (h : same a b = true) : same b a = true := same_iff.2 (same_iff.1 h).symm

theorem same_comm (a b : RawText) : same a b = same b a :=
  Bool.eq_iff_iff.2 ⟨same_symm, same_symm⟩

theorem same_trans (hab : same a b = true) (hbc : same b c = true) : same a c = true :=
  same_iff.2 ((same_iff.1 hab).trans (same_iff.1 hbc))

/-- Where one of two paths that are the same may stand, the other may. -/
theorem same_congr_left (h : same a b = true) (c : RawText) : same a c = same b c := by
  rw [same, same, same_iff.1 h]

/-- Whether `a` comes before `b` and is not the same path. -/
def Before (a b : RawText) : Prop := sortsBefore a b = true ∧ same a b = false

theorem not_before_self (a : RawText) : ¬ Before a a := by simp [Before]

theorem Before.trans (hab : Before a b) (hbc : Before b c) : Before a c := by
  refine ⟨sortsBefore_trans hab.1 hbc.1, ?_⟩
  cases hac : same a c with
  | false => rfl
  | true =>
    -- Then `b` comes before `a` as well, so that it is the same path.
    have hba := sortsBefore_trans hbc.1 (same_iff_sortsBefore.1 hac).2
    have hsame : same a b = true := same_iff_sortsBefore.2 ⟨hab.1, hba⟩
    simp [hab.2] at hsame

theorem Before.not_before (hab : Before a b) : ¬ Before b a :=
  fun hba => not_before_self a (hab.trans hba)

/-- Strictly increasing lists of the same paths are equal. -/
theorem eq_of_pairwise_before {l m : List RawText} (hl : l.Pairwise Before) (hm : m.Pairwise Before)
    (h : ∀ path, path ∈ l ↔ path ∈ m) : l = m := by
  have hne : ∀ {n : List RawText}, n.Pairwise Before → n.Nodup := by
    intro n hn
    refine hn.imp ?_
    rintro a _ hab rfl
    exact not_before_self a hab
  have hperm : l.Perm m := (List.perm_ext_iff_of_nodup (hne hl) (hne hm)).2 h
  exact hperm.eq_of_pairwise (fun _ _ _ _ hab hba => absurd hba hab.not_before) hl hm

end Path

/-! ### Arranging -/

namespace Discovery
variable {path : RawText} {paths : List RawText}

/-- Sorting leaves the spellings of one path in their order. -/
theorem filter_same_mergeSort (path : RawText) (paths : List RawText) :
    (paths.mergeSort Path.sortsBefore).filter (Path.same path) = paths.filter (Path.same path) := by
  have htied : Path.same path = StableSort.tied Path.sortsBefore path := by
    funext p
    rw [Bool.eq_iff_iff, StableSort.tied_iff, Path.same_iff_sortsBefore]
  rw [htied]
  exact StableSort.filter_tied_mergeSort @Path.sortsBefore_trans Path.sortsBefore_total path paths

theorem find?_same_mergeSort (path : RawText) (paths : List RawText) :
    (paths.mergeSort Path.sortsBefore).find? (Path.same path) = paths.find? (Path.same path) := by
  rw [← List.head?_filter, ← List.head?_filter, filter_same_mergeSort]

theorem mem_go {last : RawText}
    (h : (last :: paths).Pairwise fun a b => Path.sortsBefore a b = true) :
    path ∈ dropRepeats.go last paths ↔
      Path.same last path = false ∧ paths.find? (Path.same path) = some path := by
  induction paths generalizing last with
  | nil => simp [dropRepeats.go]
  | cons next paths ih =>
    obtain ⟨hlast, hnext⟩ := List.pairwise_cons.1 h
    by_cases hsame : Path.same last next = true
    · have hrest : (last :: paths).Pairwise fun a b => Path.sortsBefore a b = true :=
        h.sublist ((List.sublist_cons_self next paths).cons_cons last)
      rw [dropRepeats.go, if_pos hsame, ih hrest, and_congr_right_iff]
      intro hne
      have hne' : Path.same path next = false := by
        rw [Bool.eq_false_iff] at hne ⊢
        exact fun hp => hne (Path.same_trans hsame (Path.same_symm hp))
      rw [List.find?_cons_of_neg (by simp [hne'])]
    · rw [dropRepeats.go, if_neg hsame, List.mem_cons, ih hnext]
      by_cases hp : Path.same path next = true
      · rw [List.find?_cons_of_pos hp]
        have hlp : Path.same last path = false := by
          rw [Bool.eq_false_iff]
          exact fun hp' => hsame (Path.same_trans hp' hp)
        simp [hlp, Path.same_symm hp, eq_comm]
      · rw [List.find?_cons_of_neg hp]
        have hne : path ≠ next := by
          rintro rfl
          exact hp (Path.same_self _)
        have hnp : Path.same next path = false := by
          rw [Path.same_comm]
          exact Bool.eq_false_iff.2 hp
        simp only [hne, hnp, false_or, true_and, iff_and_self]
        intro hfind
        rw [Bool.eq_false_iff]
        intro hlp
        -- What stands between two spellings of one path is that path.
        have hnext' := (List.pairwise_cons.1 hnext).1 path (List.mem_of_find?_eq_some hfind)
        have hnl := Path.sortsBefore_trans hnext' (Path.same_iff_sortsBefore.1 hlp).2
        exact hsame (Path.same_iff_sortsBefore.2 ⟨hlast next List.mem_cons_self, hnl⟩)

theorem pairwise_go {last : RawText}
    (h : (last :: paths).Pairwise fun a b => Path.sortsBefore a b = true) :
    (last :: dropRepeats.go last paths).Pairwise Path.Before := by
  induction paths generalizing last with
  | nil => exact List.pairwise_singleton _ _
  | cons next paths ih =>
    obtain ⟨hlast, hnext⟩ := List.pairwise_cons.1 h
    by_cases hsame : Path.same last next = true
    · rw [dropRepeats.go, if_pos hsame]
      exact ih (h.sublist ((List.sublist_cons_self next paths).cons_cons last))
    · rw [dropRepeats.go, if_neg hsame]
      have hrest := ih hnext
      have hbefore : Path.Before last next :=
        ⟨hlast next List.mem_cons_self, Bool.eq_false_iff.2 hsame⟩
      refine List.pairwise_cons.2 ⟨?_, hrest⟩
      rintro p (_ | ⟨_, hp⟩)
      · exact hbefore
      · exact hbefore.trans ((List.pairwise_cons.1 hrest).1 p hp)

theorem pairwise_sorted (paths : List RawText) :
    (paths.mergeSort Path.sortsBefore).Pairwise fun a b => Path.sortsBefore a b = true :=
  List.pairwise_mergeSort @Path.sortsBefore_trans Path.sortsBefore_total paths

/-- Of the spellings of one path, arranging holds on to the first. -/
theorem mem_arrange : path ∈ arrange paths ↔ paths.find? (Path.same path) = some path := by
  rw [arrange, ← find?_same_mergeSort]
  have hsorted := pairwise_sorted paths
  cases hs : paths.mergeSort Path.sortsBefore with
  | nil => simp [dropRepeats]
  | cons first rest =>
    rw [hs] at hsorted
    rw [dropRepeats, List.mem_cons, mem_go hsorted]
    by_cases hp : Path.same path first = true
    · simp [List.find?_cons_of_pos hp, Path.same_symm hp, eq_comm]
    · have hne : path ≠ first := by
        rintro rfl
        exact hp (Path.same_self _)
      have hfp : Path.same first path = false := by
        rw [Path.same_comm]
        exact Bool.eq_false_iff.2 hp
      simp [List.find?_cons_of_neg hp, hne, hfp]

/-- Arranged paths increase strictly. -/
theorem pairwise_arrange (paths : List RawText) : (arrange paths).Pairwise Path.Before := by
  have hsorted := pairwise_sorted paths
  rw [arrange]
  cases hs : paths.mergeSort Path.sortsBefore with
  | nil => exact List.Pairwise.nil
  | cons first rest =>
    rw [hs] at hsorted
    exact pairwise_go hsorted

theorem mem_of_mem_arrange (h : path ∈ arrange paths) : path ∈ paths :=
  List.mem_of_find?_eq_some (mem_arrange.1 h)

/-- Every path is there in one of its spellings. -/
theorem exists_mem_arrange (h : path ∈ paths) : ∃ p ∈ arrange paths, Path.same p path = true := by
  have hsome : (paths.find? (Path.same path)).isSome = true :=
    List.find?_isSome.2 ⟨path, h, Path.same_self path⟩
  obtain ⟨p, hp⟩ := Option.isSome_iff_exists.1 hsome
  have hsame : Path.same path p = true := by simpa using List.find?_some hp
  refine ⟨p, mem_arrange.2 ?_, Path.same_symm hsame⟩
  rw [show Path.same p = Path.same path from funext fun q =>
    (Path.same_congr_left hsame q).symm, hp]

/-- Dropping paths, each with all its spellings, goes with arranging. -/
theorem arrange_filter {p : RawText → Bool}
    (hp : ∀ {a b : RawText}, Path.same a b = true → p a = p b) (paths : List RawText) :
    arrange (paths.filter p) = (arrange paths).filter p := by
  refine Path.eq_of_pairwise_before (pairwise_arrange _)
    ((pairwise_arrange _).sublist List.filter_sublist) fun path => ?_
  rw [mem_arrange, List.mem_filter, mem_arrange, List.find?_filter]
  by_cases hpath : p path = true
  · have hcongr : (fun q => decide (p q = true ∧ Path.same path q = true)) = Path.same path := by
      funext q
      by_cases hq : Path.same path q = true
      · simp [hq, ← hp hq, hpath]
      · simp [hq]
    rw [hcongr, and_iff_left hpath]
  · have hnone : paths.find? (fun q => decide (p q = true ∧ Path.same path q = true)) = none := by
      rw [List.find?_eq_none]
      intro q _ hq
      rw [decide_eq_true_eq] at hq
      exact hpath (hp hq.2 ▸ hq.1)
    simp only [hnone, hpath, reduceCtorEq, and_false, Bool.false_eq_true]

/-- Where every path has one spelling only, what is arranged does not depend on the
order of the paths or on how often each stands there. -/
theorem arrange_eq_of_members {l m : List RawText}
    (hone : ∀ a ∈ l, ∀ b ∈ l, Path.same a b = true → a = b) (h : ∀ path, path ∈ l ↔ path ∈ m) :
    arrange l = arrange m := by
  have hmem : ∀ n : List RawText, (∀ path, path ∈ l ↔ path ∈ n) →
      ∀ path, path ∈ arrange n ↔ path ∈ l := by
    intro n hn path
    refine ⟨fun hp => (hn path).2 (mem_of_mem_arrange hp), fun hp => ?_⟩
    obtain ⟨q, hq, hsame⟩ := exists_mem_arrange ((hn path).1 hp)
    rwa [← hone q ((hn q).2 (mem_of_mem_arrange hq)) path hp hsame]
  exact Path.eq_of_pairwise_before (pairwise_arrange l) (pairwise_arrange m) fun path =>
    (hmem l (fun _ => Iff.rfl) path).trans (hmem m h path).symm

end Discovery

end DocOutline
