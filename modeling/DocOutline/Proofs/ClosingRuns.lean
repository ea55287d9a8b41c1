import DocOutline.Proofs.TidyTitles

/-! Which hash signs a title loses.

A text closes with a run of hash signs if it ends in hash signs that stand alone or after a
blank (`Markdown.Closes`). There is one such run at most (`Closes.dropClosing_eq`), and it is
what is taken off, with the blanks before it; a text that does not close is left as it is.
Taking a run off may leave a text that closes again, and that run stays. In the words of a
title this is to drop the last one if it is made of hash signs (`stripClosing_intercalate`),
so every other word of a heading keeps all of its signs (`stripClosing_takes_closing_run`). -/
namespace DocOutline

/-- One more word at the end. -/
theorem Text.intercalate_concat {ws : List (List Char)} (hws : ws ≠ []) (w : List Char) :
    [' '].intercalate (ws ++ [w]) = [' '].intercalate ws ++ ' ' :: w := by
  induction ws with
  | nil => exact absurd rfl hws
  | cons v ws ih =>
    cases ws with
    | nil => simp
    | cons v' ws =>
      rw [List.cons_append, List.intercalate_cons_of_ne_nil (by simp), ih (List.cons_ne_nil _ _),
        List.intercalate_cons_of_ne_nil (List.cons_ne_nil _ _), ← List.append_assoc]

/-- Blanks after a text that does not end in one are all that goes from its end. -/
theorem Text.trimEnd_append {s blanks : List Char} (hs : ∀ c ∈ s.getLast?, isBlank c = false)
    (hblanks : ∀ c ∈ blanks, isBlank c = true) : trimEnd (s ++ blanks) = s := by
  rw [trimEnd, List.reverse_append, List.dropWhile_append_of_pos (by simpa using hblanks)]
  cases hrev : s.reverse with
  | nil => simpa using hrev.symm
  | cons c rest =>
    have hc : isBlank c = false := hs c (by rw [← List.head?_reverse, hrev]; rfl)
    rw [List.dropWhile_cons_of_neg (by simp [hc]), ← hrev, List.reverse_reverse]

namespace Markdown
variable {text u : List Char}

/-- A text closes with a run of hash signs after `u`: these are all the hash signs it ends in,
and they stand alone or after a blank. -/
structure Closes (u text : List Char) : Prop where
  run : ∃ n, text = u ++ List.replicate (n + 1) '#'
  whole : u.getLast? ≠ some '#'
  apart : ∀ c ∈ u.getLast?, Text.isBlank c = true

/-! ### Texts -/

/-- No hash sign is left before a run that stands alone or after a blank. -/
theorem closes_of_apart {n : Nat} (hrun : text = u ++ List.replicate (n + 1) '#')
    (hapart : ∀ c ∈ u.getLast?, Text.isBlank c = true) : Closes u text where
  run := ⟨n, hrun⟩
  whole := fun hlast => absurd (hapart '#' hlast) (by decide)
  apart := hapart

theorem Closes.dropClosing_eq (h : Closes u text) : dropClosing text = u := by
  obtain ⟨n, rfl⟩ := h.run
  exact dropClosing_append_replicate u (n + 1) h.whole

/-- The closing run goes, and so do the blanks before it. -/
theorem Closes.stripClosing_eq (h : Closes u text) : stripClosing text = Text.trimEnd u := by
  have hlength : u.length ≠ text.length := by
    obtain ⟨n, rfl⟩ := h.run
    simp
  have hapart : (u.isEmpty || u.getLast?.any Text.isBlank) = true := by
    cases hlast : u.getLast? with
    | none => simp [List.getLast?_eq_none_iff.1 hlast]
    | some c => simp [h.apart c hlast]
  simp only [stripClosing, h.dropClosing_eq, if_neg hlength, if_pos hapart]

/-- What ends in hash signs that stand alone or after a blank closes with them. -/
theorem closes_dropClosing (hlength : (dropClosing text).length ≠ text.length)
    (hapart : ((dropClosing text).isEmpty || (dropClosing text).getLast?.any Text.isBlank) = true) :
    Closes (dropClosing text) text := by
  have hcut : dropClosing text ++ text.rtakeWhile (· == '#') = text :=
    List.rdropWhile_append_rtakeWhile
  have hrun : text.rtakeWhile (· == '#') = List.replicate (text.rtakeWhile (· == '#')).length '#' :=
    List.eq_replicate_of_mem fun c hc => by simpa using List.mem_rtakeWhile_imp hc
  have hpos : (text.rtakeWhile (· == '#')).length ≠ 0 := by
    intro hzero
    rw [List.length_eq_zero_iff.1 hzero, List.append_nil] at hcut
    exact hlength (congrArg List.length hcut)
  apply closes_of_apart (n := (text.rtakeWhile (· == '#')).length - 1)
  · rw [Nat.sub_add_cancel (Nat.one_le_iff_ne_zero.2 hpos), ← hrun, hcut]
  · intro c hc
    rw [Option.mem_def] at hc
    rcases Bool.or_eq_true_iff.1 hapart with hempty | hblank
    · rw [List.isEmpty_iff.1 hempty] at hc
      cases hc
    · rwa [hc, Option.any_some] at hblank

theorem stripClosing_of_not_closes (h : ∀ u, ¬ Closes u text) : stripClosing text = text := by
  unfold stripClosing
  dsimp only
  split
  · rfl
  · rename_i hlength
    split
    · rename_i hapart
      exact absurd (closes_dropClosing hlength hapart) (h _)
    · rfl

theorem stripClosing_isPrefix (text : List Char) : stripClosing text <+: text := by
  by_cases h : ∃ u, Closes u text
  · obtain ⟨u, hu⟩ := h
    rw [hu.stripClosing_eq]
    obtain ⟨n, rfl⟩ := hu.run
    exact (Text.trimEnd_isPrefix u).trans (List.prefix_append _ _)
  · exact ⟨[], by rw [stripClosing_of_not_closes (not_exists.1 h), List.append_nil]⟩

/-! ### Words -/

/-- The words but for the last one if it is made of hash signs. -/
def withoutClosing (ws : List (List Char)) : List (List Char) :=
  if ws.getLast?.any fun w => w.all (· == '#') then ws.dropLast else ws

/-- A text does not close if its last word has another character in it. -/
theorem not_closes_append {before w : List Char} (hw : ∀ c ∈ w, Text.isBlank c = false)
    (hother : ∃ c ∈ w, c ≠ '#') (u : List Char) : ¬ Closes u (before ++ w) := by
  intro h
  obtain ⟨d, hd, hne⟩ := hother
  obtain ⟨n, hrun⟩ := h.run
  have hsuffix : w <:+ u ++ List.replicate (n + 1) '#' := hrun ▸ List.suffix_append before w
  rcases List.suffix_or_suffix_of_suffix hsuffix (List.suffix_append u _) with hin | hin
  · -- The word would be a part of the run.
    exact hne (List.eq_of_mem_replicate (hin.subset hd))
  · -- The word goes on to the left of the run, so there is no blank.
    obtain ⟨v, rfl⟩ := hin
    rw [← List.append_assoc] at hrun
    have hu : before ++ v = u := List.append_cancel_right hrun
    subst hu
    cases hv : v.getLast? with
    | none =>
      rw [List.getLast?_eq_none_iff.1 hv, List.nil_append] at hd
      exact hne (List.eq_of_mem_replicate hd)
    | some c =>
      have hblank := h.apart c (by rw [Option.mem_def, List.getLast?_append, hv]; rfl)
      rw [hw c (List.mem_append_left _ (List.mem_of_getLast? hv))] at hblank
      cases hblank

/-- Words with single spaces between them lose the last one if it is made of hash signs. -/
theorem stripClosing_intercalate {ws : List (List Char)}
    (hws : ∀ w ∈ ws, w ≠ [] ∧ ∀ c ∈ w, Text.isBlank c = false) :
    stripClosing ([' '].intercalate ws) = [' '].intercalate (withoutClosing ws) := by
  rcases List.eq_nil_or_concat ws with rfl | ⟨before, w, rfl⟩
  · rfl
  rw [List.concat_eq_append] at hws ⊢
  have hbefore : ∀ v ∈ before, v ≠ [] ∧ ∀ c ∈ v, Text.isBlank c = false :=
    fun v hv => hws v (List.mem_append_left _ hv)
  obtain ⟨hne, hw⟩ := hws w (List.mem_append_right _ (List.mem_singleton_self w))
  obtain ⟨front, hjoin, hblank, htrim⟩ : ∃ front,
      [' '].intercalate (before ++ [w]) = front ++ w ∧
        (∀ c ∈ front.getLast?, Text.isBlank c = true) ∧
        Text.trimEnd front = [' '].intercalate before := by
    by_cases hnil : before = []
    · subst hnil
      exact ⟨[], by simp, by simp, rfl⟩
    · refine ⟨[' '].intercalate before ++ [' '], ?_, ?_, ?_⟩
      · rw [Text.intercalate_concat hnil, List.append_assoc, List.singleton_append]
      · simp [Text.isBlank_space]
      · exact Text.trimEnd_append (Text.tidy_intercalate hbefore).1.last (by simp [Text.isBlank_space])
  rw [withoutClosing, List.getLast?_concat, Option.any_some, List.dropLast_concat, hjoin]
  split
  · rename_i hall
    have hsigns : w = List.replicate w.length '#' :=
      List.eq_replicate_of_mem fun c hc => eq_of_beq (List.all_eq_true.1 hall c hc)
    have hlength : w.length - 1 + 1 = w.length := Nat.sub_add_cancel (List.length_pos_iff.2 hne)
    have hcloses : Closes front (front ++ w) :=
      closes_of_apart (n := w.length - 1) (by rw [hlength, ← hsigns]) hblank
    rw [hcloses.stripClosing_eq, htrim]
  · rename_i hall
    have hother : ∃ c ∈ w, c ≠ '#' := by simpa using hall
    rw [stripClosing_of_not_closes (not_closes_append hw hother), hjoin]

/-- A text loses the run of hash signs that it closes with and the blanks before the run, and
a text that does not close loses nothing. So a heading with leading hash signs loses its last
word, if that is a run, and no sign of any other word. -/
theorem stripClosing_takes_closing_run :
    (∀ text, stripClosing text <+: text ∧
      (∀ u, Closes u text → stripClosing text = Text.trimEnd u) ∧
      ((∀ u, ¬ Closes u text) → stripClosing text = text)) ∧
    ∀ (t : SyntaxTree) (source : String), t.kind = "atx_heading" →
      (title t source).toList =
        [' '].intercalate (withoutClosing (Text.words (collapsedTitle t source))) := by
  constructor
  · intro text
    exact ⟨stripClosing_isPrefix text, fun u => Closes.stripClosing_eq, stripClosing_of_not_closes⟩
  · intro t source hkind
    have hjoin : [' '].intercalate (Text.words (collapsedTitle t source)) = collapsedTitle t source :=
      Text.collapse_eq_self_iff.2 (tidy_collapsedTitle t source)
    have hstrip := stripClosing_intercalate fun w (hw : w ∈ Text.words (collapsedTitle t source)) =>
      ⟨Text.ne_nil_of_mem_words hw, Text.isBlank_eq_false_of_mem_words hw⟩
    rw [hjoin] at hstrip
    rw [title, if_pos hkind, String.toList_ofList, hstrip]

/-- A name with a hash sign of its own and two runs after it. -/
def namedHeading : SyntaxTree where
  label :=
    { kind := "atx_heading", startByte := 0, endByte := 10, row := 0, column := 0
      content? := some 2 }
  below :=
    .cons { kind := "atx_h1_marker", startByte := 0, endByte := 1, row := 0, column := 0 } .nil
      (.cons { kind := "inline", startByte := 2, endByte := 10, row := 0, column := 2 } .nil .nil)

theorem stripClosing_takes_closing_run_named :
    Closes "C# ## ".toList "C# ## #".toList ∧
      stripClosing "C# ## #".toList = "C# ##".toList ∧
      (∀ u, ¬ Closes u "C#".toList) ∧
      stripClosing "C#".toList = "C#".toList ∧
      (title namedHeading "# C#  ## #\n").toList = "C# ##".toList := by
  have hcloses : Closes "C# ## ".toList "C# ## #".toList := by
    apply closes_of_apart (n := 0) rfl
    intro c hc
    obtain rfl : ' ' = c := Option.some.inj hc
    exact Text.isBlank_space
  have hname : ∀ u, ¬ Closes u ([] ++ ['C', '#']) :=
    not_closes_append (List.forall_mem_cons.2 ⟨by decide, List.forall_mem_singleton.2 (by decide)⟩)
      ⟨'C', List.mem_cons_self, by decide⟩
  have hstrip := (stripClosing_takes_closing_run.1 "C# ## #".toList).2.1 _ hcloses
  have htitle := stripClosing_takes_closing_run.2 namedHeading "# C#  ## #\n" rfl
  exact ⟨hcloses, hstrip.trans (by decide +kernel), hname,
    (stripClosing_takes_closing_run.1 "C#".toList).2.2 hname, htitle.trans (by decide +kernel)⟩

end Markdown

end DocOutline
