import DocOutline.Text.Tidy
import DocOutline.Proofs.FilteredEntries
import DocOutline.Proofs.MarkdownSections
import DocOutline.Proofs.OutlineLines
import DocOutline.Proofs.SortedEntries

/-! Titles in markdown are tidy, and so every entry has a line to itself.

The text of a heading is collapsed, and taking a closing run of hash signs off leaves what
it begins with, without a blank at the end (`Markdown.tidy_title`). So no title has a
newline in it. Sorting and filtering bring in no new entries (`Entries.mem_of_mem_edited`),
and the text outline of what they leave has one newline for each entry
(`Document.ofSource_tidy`). -/
namespace DocOutline

/-! ### Titles -/

namespace Markdown

theorem dropClosing_isPrefix (text : List Char) : dropClosing text <+: text :=
  List.rdropWhile_prefix (· == '#') text

theorem tidy_stripClosing {text : List Char} (h : Text.Tidy text) : Text.Tidy (stripClosing text) := by
  unfold stripClosing
  dsimp only
  split
  · exact h
  split
  · exact h.trimEnd (dropClosing_isPrefix text)
  · exact h

theorem tidy_collapsedTitle (t : SyntaxTree) (source : String) :
    Text.Tidy (collapsedTitle t source) := by
  unfold collapsedTitle
  split
  · exact Text.tidy_nil
  · exact Text.tidy_collapse _

/-- A title is tidy, whatever blanks its heading has and wherever they stand. -/
theorem tidy_title (t : SyntaxTree) (source : String) : Text.Tidy (title t source).toList := by
  rw [title, String.toList_ofList]
  split
  · exact tidy_stripClosing (tidy_collapsedTitle t source)
  · exact tidy_collapsedTitle t source

end Markdown

/-- A block of a converted document has the title of a node of the syntax tree, or none. -/
theorem Format.title_of_block? {fmt : Format} {source : String} {t : SyntaxTree} {id : NodeId}
    {b : Block} (h : (fmt.document source t).block? id = some b) :
    b.title = "" ∨ ∃ s, b.title = fmt.title s source := by
  have hmem : some b ∈ (List.range (fmt.document source t).size).map
      (fmt.document source t).block? :=
    List.mem_map.2 ⟨id, List.mem_range.2 (Document.lt_size_of_block? h), h⟩
  rw [(fmt.holds_document source t).map_block?_range, ← fmt.map_block?_kept, List.mem_cons,
    List.mem_map] at hmem
  rcases hmem with hroot | ⟨s, -, hs⟩
  · obtain rfl := Option.some.inj hroot
    exact .inl rfl
  · rw [block?] at hs
    cases hshape : fmt.shape s.tree with
    | ignore => simp [hshape] at hs
    | flatten => simp [hshape] at hs
    | keep kind =>
      rw [hshape, Option.some.injEq] at hs
      subst hs
      cases hheader : kind.isHeader with
      | true => exact .inr ⟨s.tree, if_pos hheader⟩
      | false => exact .inl (if_neg (by rw [hheader]; decide))

theorem Markdown.tidy_block? {source : String} {t : SyntaxTree} {id : NodeId} {b : Block}
    (h : (markdown.document source t).block? id = some b) : Text.Tidy b.title.toList := by
  rcases Format.title_of_block? h with hempty | ⟨s, hs⟩
  · rw [hempty]
    exact Text.tidy_nil
  · rw [hs]
    exact tidy_title s source

/-! ### Sorts and filters -/

namespace Forest
variable {α : Type*}

theorem mem_preorder_ofBranches {bs : List (Branch α)} {x : α} :
    x ∈ (ofBranches bs).preorder ↔ ∃ b ∈ bs, x ∈ b.preorder := by
  induction bs with
  | nil => simp [ofBranches, preorder]
  | cons b bs ih => simp [ofBranches, preorder, Branch.preorder, ih, or_assoc]

/-- Sorting brings in no new labels. -/
theorem mem_preorder_of_mem_sort {le : α → α → Bool} {f : Forest α} {x : α}
    (h : x ∈ (f.sort le).preorder) : x ∈ f.preorder := by
  induction f using induction_below with
  | h f ih =>
    rw [sort_eq, mem_preorder_ofBranches] at h
    obtain ⟨b, hb, hx⟩ := h
    obtain ⟨c, hc, rfl⟩ := List.mem_map.1 hb
    have hc : c ∈ f.branches := (List.mergeSort_perm _ _).subset hc
    rw [← f.ofBranches_branches, mem_preorder_ofBranches]
    refine ⟨c, hc, ?_⟩
    rw [Branch.preorder, List.mem_cons] at hx ⊢
    exact hx.imp_right (ih c hc)

/-- Keeping some labels brings in no new ones. -/
theorem preorder_keep_sublist (p : α → Bool) (f : Forest α) :
    (f.keep p).preorder.Sublist f.preorder := by
  induction f with
  | nil => exact .slnil
  | cons a below after ihb iha =>
    rw [keep, preorder]
    split
    · exact (ihb.append iha).cons_cons a
    · exact ((List.nil_sublist _).append iha).cons a

end Forest

namespace Entries

/-- What may be done to entries before they are shown. -/
inductive Edit where
  | sort
  | filter (keyword : String)
  deriving DecidableEq, Repr

def edit (e : Entries) : Edit → Entries
  | .sort => e.sortAlphabetically
  | .filter keyword => Entries.filter keyword e

/-- The entries after some sorts and filters, in their order. -/
def edited (e : Entries) (edits : List Edit) : Entries := edits.foldl edit e

theorem mem_of_mem_edit {e : Entries} {change : Edit} {x : Heading}
    (h : x ∈ (e.edit change).preorder) : x ∈ e.preorder := by
  cases change with
  | sort => exact Forest.mem_preorder_of_mem_sort h
  | filter keyword =>
    rw [edit, filter_eq_keep] at h
    exact (Forest.preorder_keep_sublist _ e).subset h

/-- Sorts and filters bring in no new entries. -/
theorem mem_of_mem_edited {e : Entries} {edits : List Edit} {x : Heading}
    (h : x ∈ (e.edited edits).preorder) : x ∈ e.preorder := by
  induction edits generalizing e with
  | nil => exact h
  | cons change edits ih => exact mem_of_mem_edit (ih h)

/-- Where no title has a newline in it, the text has one newline for each entry. -/
theorem count_newline_text {e : Entries} (h : ∀ x ∈ e.preorder, '\n' ∉ x.title.toList) :
    e.text.toList.count '\n' = e.size := by
  have hone : ∀ l ∈ e.textLines, (l ++ ['\n']).count '\n' = 1 := by
    intro l hl
    rw [List.count_append, List.count_eq_zero.2 (newline_not_mem_of_mem_textLines h l hl)]
    rfl
  have hcounts : e.textLines.map (List.count '\n' ∘ fun l => l ++ ['\n']) =
      e.textLines.map fun _ => 1 := List.map_congr_left hone
  rw [text, String.toList_ofList, List.count_flatMap, hcounts, List.map_const',
    List.sum_replicate_nat, Nat.mul_one, length_textLines]

end Entries

/-- Entries have the titles of blocks, or none. -/
theorem Document.title_of_mem_entries {d : Document} {o : OutlineOptions} {x : Heading}
    (h : x ∈ (d.entries o).preorder) :
    x.title = "" ∨ ∃ id, ∃ b ∈ d.block? id, x.title = b.title := by
  rw [entries, preorder_entries] at h
  obtain ⟨id, -, rfl⟩ := List.mem_map.1 h
  cases hb : d.block? id with
  | none => exact .inl rfl
  | some b => exact .inr ⟨id, b, hb, rfl⟩

/-- Every title of a markdown document is its own words with single spaces between them,
so that the text outline has one newline for each entry, however the entries are sorted
and filtered. -/
theorem Document.ofSource_tidy {parser : Parser} {source : String} {t : SyntaxTree}
    (h : parser source = some t) (path : String) :
    ∃ d, ofSource parser markdown path source = .ok d ∧
      (∀ id, ∀ b ∈ d.block? id,
        Text.collapse b.title.toList = b.title.toList ∧ Text.Tidy b.title.toList) ∧
      ∀ (o : OutlineOptions) (edits : List Entries.Edit),
        (Entries.edited (d.entries o) edits).text.toList.count '\n' =
          (Entries.edited (d.entries o) edits).size := by
  refine ⟨markdown.document source t, by rw [ofSource, h], ?_, ?_⟩
  · intro id b hb
    have htidy := Markdown.tidy_block? hb
    exact ⟨Text.collapse_eq_self_iff.2 htidy, htidy⟩
  · intro o edits
    apply Entries.count_newline_text
    intro x hx
    rcases title_of_mem_entries (Entries.mem_of_mem_edited hx) with hempty | ⟨id, b, hb, htitle⟩
    · rw [hempty]
      decide
    · rw [htitle]
      exact (Markdown.tidy_block? hb).not_mem_newline

/-- A heading over two lines and one with two runs of hash signs after its text. -/
def spacedHeadings : SyntaxTree where
  label := { kind := "document", startByte := 0, endByte := 23, row := 0, column := 0 }
  below :=
    .cons
      { kind := "setext_heading", startByte := 0, endByte := 13, row := 0, column := 0
        content? := some 1 }
      (.cons { kind := "paragraph", startByte := 0, endByte := 9, row := 0, column := 0 } .nil
        (.cons { kind := "setext_h1_underline", startByte := 9, endByte := 12, row := 2, column := 0 }
          .nil .nil))
      (.cons
        { kind := "atx_heading", startByte := 13, endByte := 23, row := 3, column := 0
          content? := some 2 }
        (.cons { kind := "atx_h1_marker", startByte := 13, endByte := 14, row := 3, column := 0 } .nil
          (.cons { kind := "inline", startByte := 15, endByte := 22, row := 3, column := 2 }
            .nil .nil))
        .nil)

theorem Document.ofSource_tidy_spacedHeadings :
    ∃ d, ofSource (fun _ => some spacedHeadings) markdown "a.md"
        "A\u00a0b \n\tc\n===\n# d  ## #\n" = .ok d ∧
      (List.range d.size).map (fun id => (d.block? id).map Block.title) =
        [some "", some "A b c", some "d ##"] ∧
      (∀ b ∈ d.block? 1, Text.collapse b.title.toList = b.title.toList) ∧
      (Entries.edited (d.entries {}) [.filter "b", .sort]).text.toList.count '\n' = 1 := by
  obtain ⟨d, hd, htitles, hcount⟩ := @ofSource_tidy (fun _ => some spacedHeadings)
    "A\u00a0b \n\tc\n===\n# d  ## #\n" spacedHeadings rfl "a.md"
  refine ⟨d, hd, ?_, fun b hb => (htitles 1 b hb).1, (hcount _ _).trans ?_⟩
  · obtain rfl := Except.ok.inj hd
    decide +kernel
  · obtain rfl := Except.ok.inj hd
    decide +kernel

end DocOutline
