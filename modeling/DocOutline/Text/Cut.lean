import Mathlib.Data.List.TakeWhile

/-! Lists cut in two where a predicate first fails. -/
namespace DocOutline.Text
variable {α : Type} {p : α → Bool} {s front back front' back' : List α}

/-- A list is cut where a predicate first fails. -/
theorem cut_iff : (s.takeWhile p = front ∧ s.dropWhile p = back) ↔
    s = front ++ back ∧ (∀ c ∈ front, p c = true) ∧ ∀ c ∈ back.head?, p c = false := by
  constructor
  · rintro ⟨rfl, rfl⟩
    refine ⟨List.takeWhile_append_dropWhile.symm, fun c => List.mem_takeWhile_imp, fun c hc => ?_⟩
    rw [Option.mem_def, List.head?_eq_some_iff] at hc
    obtain ⟨rest, hrest⟩ := hc
    have hhead := List.head_dropWhile_not p (l := s) (by simp [hrest])
    simpa only [hrest, List.head_cons] using hhead
  · rintro ⟨rfl, hfront, hback⟩
    rw [List.takeWhile_append_of_pos hfront, List.dropWhile_append_of_pos hfront]
    cases back with
    | nil => simp
    | cons c rest =>
      have hc : ¬ p c = true := by simp [hback c rfl]
      rw [List.takeWhile_cons_of_neg hc, List.dropWhile_cons_of_neg hc, List.append_nil]
      exact ⟨rfl, rfl⟩

/-- There is one place only to cut at. -/
theorem cut_unique (hfront : ∀ c ∈ front, p c = true) (hback : ∀ c ∈ back.head?, p c = false)
    (hfront' : ∀ c ∈ front', p c = true) (hback' : ∀ c ∈ back'.head?, p c = false)
    (h : front ++ back = front' ++ back') : front = front' ∧ back = back' := by
  obtain ⟨htake, hdrop⟩ := cut_iff.2 ⟨Eq.refl (front ++ back), hfront, hback⟩
  obtain ⟨htake', hdrop'⟩ := cut_iff.2 ⟨h, hfront', hback'⟩
  exact ⟨htake.symm.trans htake', hdrop.symm.trans hdrop'⟩

end DocOutline.Text
