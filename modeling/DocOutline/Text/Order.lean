/-! Texts in order, the first difference deciding.

A text comes before all that it starts; else the first members that differ decide, by
their numbers: code points for characters, and the bytes themselves for bytes. The order
is total (`sortsBefore_total`), and two texts on one place are equal if different
members have different numbers (`eq_of_sortsBefore`). -/
namespace DocOutline.Text

variable {α : Type} {number : α → Nat} {s t u : List α}

/-- Whether `s` comes before `t` or is `t`. -/
def sortsBefore (number : α → Nat) : List α → List α → Bool
  | [], _ => true
  | _ :: _, [] => false
  | a :: s, b :: t =>
    number a < number b || (number a = number b && sortsBefore number s t)

theorem sortsBefore_refl (s : List α) : sortsBefore number s s = true := by
  induction s with
  | nil => rfl
  | cons a s ih => simp [sortsBefore, ih]

theorem sortsBefore_total (s t : List α) :
    (sortsBefore number s t || sortsBefore number t s) = true := by
  induction s generalizing t with
  | nil => rfl
  | cons a s ih =>
    cases t with
    | nil => rfl
    | cons b t =>
      rcases Nat.lt_trichotomy (number a) (number b) with h | h | h
      · simp [sortsBefore, h]
      · simpa [sortsBefore, h] using ih t
      · simp [sortsBefore, h]

theorem eq_of_sortsBefore (hnumber : ∀ {a b : α}, number a = number b → a = b)
    (hst : sortsBefore number s t = true) (hts : sortsBefore number t s = true) : s = t := by
  induction s generalizing t with
  | nil =>
    cases t with
    | nil => rfl
    | cons b t => simp [sortsBefore] at hts
  | cons a s ih =>
    cases t with
    | nil => simp [sortsBefore] at hst
    | cons b t =>
      simp only [sortsBefore, Bool.or_eq_true, decide_eq_true_eq, Bool.and_eq_true] at hst hts
      obtain ⟨hab, hst⟩ := hst.resolve_left (by omega)
      have hts := (hts.resolve_left (by omega)).2
      rw [hnumber hab, ih hst hts]

theorem sortsBefore_trans (hst : sortsBefore number s t = true)
    (htu : sortsBefore number t u = true) : sortsBefore number s u = true := by
  induction s generalizing t u with
  | nil => rfl
  | cons a s ih =>
    cases t with
    | nil => simp [sortsBefore] at hst
    | cons b t =>
      cases u with
      | nil => simp [sortsBefore] at htu
      | cons c u =>
        simp only [sortsBefore, Bool.or_eq_true, decide_eq_true_eq, Bool.and_eq_true] at hst htu ⊢
        rcases hst with hab | ⟨hab, hst⟩
        · exact .inl (by omega)
        · rcases htu with hbc | ⟨hbc, htu⟩
          · exact .inl (by omega)
          · exact .inr ⟨hab.trans hbc, ih hst htu⟩

/-- The order is the lexicographic one. -/
theorem sortsBefore_iff_lex (hnumber : ∀ {a b : α}, number a = number b → a = b) :
    sortsBefore number s t = true ↔ s = t ∨ List.Lex (fun a b => number a < number b) s t := by
  induction s generalizing t with
  | nil => cases t <;> simp [sortsBefore]
  | cons a s ih =>
    cases t with
    | nil => simp [sortsBefore]
    | cons b t =>
      simp only [sortsBefore, Bool.or_eq_true, decide_eq_true_eq, Bool.and_eq_true, ih]
      constructor
      · rintro (hlt | ⟨hab, rfl | hlex⟩)
        · exact .inr (.rel hlt)
        · exact .inl (by rw [hnumber hab])
        · exact .inr (hnumber hab ▸ .cons hlex)
      · rintro (heq | hlex)
        · obtain ⟨rfl, rfl⟩ := List.cons.inj heq
          exact .inr ⟨rfl, .inl rfl⟩
        · cases hlex with
          | rel hlt => exact .inl hlt
          | cons hlex => exact .inr ⟨rfl, .inr hlex⟩

end DocOutline.Text
