import DocOutline.Section
import DocOutline.Entry.Text
import DocOutline.Text.Lines
import DocOutline.Proofs.Indices

/-! The text outline of a document, line by line.

The entries of an outline and its sections are two ways to write the outline down.
The depth of an entry, by which its line is indented, is the number of parents above
its section (`Forest.climbs_of_getElem?_depths`), so each line of the text outline is
one of the sections (`lines_text_entries`). -/
namespace DocOutline

/-- The line of a section that has `depth` sections above it. -/
def Section.outlineLine (depth : Nat) (s : Section) : String :=
  String.join (List.replicate depth "  ") ++ String.join (List.replicate s.level.toNat "#") ++
    " " ++ (if s.title = "" then "<untitled>" else s.title) ++ " :" ++ toString s.line

theorem Text.toList_join_replicate {text : String} {count : Nat} {c : Char}
    (htext : text.toList = List.replicate count c) (n : Nat) :
    (String.join (List.replicate n text)).toList = List.replicate (n * count) c := by
  rw [String.toList_join, List.flatMap_replicate, htext, List.flatten_replicate_replicate]

namespace Heading

theorem newline_not_mem_textLine {h : Heading} (ht : '\n' ∉ h.title.toList) (depth : Nat) :
    '\n' ∉ h.textLine depth := by
  have htext : '\n' ∉ h.presentableText.toList := by
    unfold presentableText
    split
    · decide
    · exact ht
  have hdigits : '\n' ∉ Nat.toDigits 10 h.line := by
    intro hmem
    have := Nat.isDigit_of_mem_toDigits (by decide) (by decide) hmem
    revert this
    decide
  simp [textLine, location, htext, hdigits]

/-- The line of an entry is that of the section with the same fields. -/
theorem ofList_textLine (s : Section) (depth : Nat) :
    String.ofList (Heading.textLine depth ⟨s.title, s.level, s.line⟩) = s.outlineLine depth := by
  apply String.toList_injective
  have hindent : (String.join (List.replicate depth "  ")).toList =
      List.replicate (2 * depth) ' ' := by
    have htwo : "  ".toList = List.replicate 2 ' ' := rfl
    rw [Text.toList_join_replicate htwo, Nat.mul_comm]
  have hhashes : (String.join (List.replicate s.level.toNat "#")).toList =
      List.replicate s.level.toNat '#' := by
    have hone : "#".toList = List.replicate 1 '#' := rfl
    rw [Text.toList_join_replicate hone, Nat.mul_one]
  have htext : (if s.title = "" then "<untitled>" else s.title) =
      presentableText ⟨s.title, s.level, s.line⟩ := by
    simp only [presentableText, untitled, String.isEmpty_iff]
  simp [textLine, location, Section.outlineLine, hindent, hhashes, htext]

end Heading

/-- Where no title has a newline in it, no line has one. -/
theorem Entries.newline_not_mem_of_mem_textLines {e : Entries}
    (h : ∀ x ∈ e.preorder, '\n' ∉ x.title.toList) : ∀ l ∈ e.textLines, '\n' ∉ l := by
  intro l hl
  obtain ⟨p, hp, rfl⟩ := List.mem_map.1 hl
  exact Heading.newline_not_mem_textLine (h p.2 (Forest.mem_preorder_of_mem_depths hp)) p.1

/-- Where no title has a newline in it, the text is one line for each entry, with nothing
after the last one. -/
theorem Entries.lines_text {e : Entries} (h : ∀ x ∈ e.preorder, '\n' ∉ x.title.toList) :
    Text.lines e.text = e.textLines.map String.ofList ++ [""] :=
  Text.lines_ofList_flatMap (newline_not_mem_of_mem_textLines h)

section Document
variable (d : Document) (filePath : String) (o : OutlineOptions)

/-- The `i`-th entry has the fields of the `i`-th section and stands as deep as the
section has parents above it. -/
theorem getElem?_depths_entries {i : Nat} {s : Section}
    (hs : (Section.collect d filePath o)[i]? = some s) :
    ∃ depth, Forest.Climbs ((Section.collect d filePath o).map Section.parentIndex?) i depth ∧
      ((d.entries o).depths 0)[i]? = some (depth, ⟨s.title, s.level, s.line⟩) := by
  rw [Section.collect_eq, List.getElem?_map, Option.map_eq_some_iff] at hs
  obtain ⟨row, hrow, rfl⟩ := hs
  -- The heading of the row stands at the same place in pre-order with its depth.
  have hlabel : (((d.outline o).depths 0).map Prod.snd)[i]? = some row.label := by
    rw [Forest.map_snd_depths, ← Forest.map_label_numbered _ 0 none, List.getElem?_map, hrow,
      Option.map_some]
  rw [List.getElem?_map, Option.map_eq_some_iff] at hlabel
  obtain ⟨⟨depth, id⟩, hdepth, rfl⟩ := hlabel
  refine ⟨depth, ?_, ?_⟩
  · rw [Section.map_parentIndex?_collect]
    exact (d.outline o).climbs_of_getElem?_depths hdepth
  · rw [Document.entries, Outline.entries, Forest.depths_map, List.getElem?_map, hdepth,
      Option.map_some]
    rfl

/-- The text outline has one line for each section, ended by a newline: the
indentation by the number of parents above the section, its level in hash signs, its
title and its line. -/
theorem lines_text_entries
    (htitles : ∀ id < d.size, ∀ b ∈ d.block? id, '\n' ∉ b.title.toList) :
    ∃ ls : List String, Text.lines (d.entries o).text = ls ++ [""] ∧
      ls.length = (Section.collect d filePath o).length ∧
      ∀ (i : Nat) (s : Section), (Section.collect d filePath o)[i]? = some s →
        ∃ depth, Forest.Climbs ((Section.collect d filePath o).map Section.parentIndex?) i depth ∧
          ls[i]? = some (s.outlineLine depth) := by
  have hentries : ∀ x ∈ (d.entries o).preorder, '\n' ∉ x.title.toList := by
    intro x hx
    rw [Document.entries, preorder_entries] at hx
    obtain ⟨id, -, rfl⟩ := List.mem_map.1 hx
    cases hb : d.block? id with
    | none => decide
    | some b => exact htitles id (d.lt_size_of_block? hb) b hb
  refine ⟨(d.entries o).textLines.map String.ofList, Entries.lines_text hentries, ?_, ?_⟩
  · rw [List.length_map, Entries.length_textLines, Section.length_collect, Document.entries,
      size_entries]
  · intro i s hs
    obtain ⟨depth, hclimbs, hentry⟩ := getElem?_depths_entries d filePath o hs
    refine ⟨depth, hclimbs, ?_⟩
    rw [Entries.textLines, List.map_map, List.getElem?_map, hentry, Option.map_some,
      Function.comp_apply, Heading.ofList_textLine]

end Document

/-- A heading, and one without a title in a quote after it. -/
def quotedUntitled : List Step :=
  [.leaf { kind := .header 1, title := "A", line := 1 }, .opening { kind := .blockQuote, line := 3 },
    .leaf { kind := .header 2, line := 3 }]

theorem lines_text_quotedUntitled :
    Text.lines ((Document.build { kind := .document } quotedUntitled).entries {}).text =
      ["# A :1", "  ## <untitled> :3", ""] := by
  obtain ⟨ls, hls, hlength, hlines⟩ := lines_text_entries
    (Document.build { kind := .document } quotedUntitled) "a.md" {} (by decide +kernel)
  have hparents : (Section.collect (Document.build { kind := .document } quotedUntitled)
      "a.md" {}).map Section.parentIndex? = [none, some 0] := by decide +kernel
  rw [hparents] at hlines
  obtain ⟨m, hm, hfirst⟩ := hlines 0 ⟨"A", 1, 1, 0, 0, 0, "a.md", none, [1]⟩ (by decide +kernel)
  obtain ⟨n, hn, hsecond⟩ := hlines 1 ⟨"", 2, 3, 0, 0, 0, "a.md", some 0, []⟩ (by decide +kernel)
  rw [hm.unique (.top rfl)] at hfirst
  rw [hn.unique (.up rfl (.top rfl))] at hsecond
  have htwo : ls.length = 2 := by
    rw [hlength]
    decide +kernel
  have hall : ls = ["# A :1", "  ## <untitled> :3"] := by
    apply List.ext_getElem?
    rintro (_ | _ | i)
    · exact hfirst.trans (by decide +kernel)
    · exact hsecond.trans (by decide +kernel)
    · simp [htwo]
  rw [hls, hall]
  rfl

end DocOutline
