import DocOutline.Markdown
import DocOutline.Text.Bytes
import DocOutline.Proofs.Indices

/-! Titles, and the continuations of the blocks around their headings.

A heading of more than one line repeats on each line what the blocks around it begin their
lines with: blanks in a list, a sign and a blank in a quote. The grammar marks these bytes
as continuations below the node that holds the text, and a conversion leaves them out as
nodes, but the title is made of all bytes of the text. To put spaces over the
continuations makes no difference to it if they are blanks, as in lists; a sign of a quote
is in the title of an underlined heading and is gone without it (`Markdown.title_blankOut`,
`Markdown.title_has_quoteSigns`). -/
namespace DocOutline

/-! ### Bytes of a node -/

namespace SyntaxNode

/-- The bytes of a node. -/
def bytes (n : SyntaxNode) (source : String) : List UInt8 :=
  (source.toUTF8.extract n.startByte n.endByte).data.toList

theorem text?_eq_some_iff {n : SyntaxNode} {source text : String} :
    n.text? source = some text ↔ n.bytes source = Text.bytes text.toList := by
  have hbytes : Text.bytes text.toList = text.toUTF8.data.toList := by
    rw [String.toUTF8_eq_toByteArray, ← String.utf8Encode_toList, List.utf8Encode,
      List.toList_data_toByteArray]
    rfl
  rw [text?, bytes, hbytes]
  constructor
  · intro h
    unfold String.fromUTF8? at h
    split at h
    · obtain rfl := Option.some.inj h
      rfl
    · cases h
  · intro h
    have heq : source.toUTF8.extract n.startByte n.endByte = text.toUTF8 :=
      ByteArray.ext (Array.toList_inj.1 h)
    rw [heq, String.fromUTF8?, dif_pos (show text.toUTF8.IsValidUTF8 from text.isValidUTF8)]
    rfl

end SyntaxNode

/-- The bytes with a space in place of every one whose position is covered. -/
def blankOut (covered : Nat → Bool) (bytes : ByteArray) : ByteArray :=
  ⟨bytes.data.mapIdx fun i b => if covered i then 32 else b⟩

theorem SyntaxNode.bytes_blankOut {n : SyntaxNode} {covered : Nat → Bool} {source source' : String}
    (h : source'.toUTF8 = blankOut covered source.toUTF8) :
    n.bytes source' =
      ((n.bytes source).zipIdx n.startByte).map fun x => if covered x.2 then 32 else x.1 := by
  apply List.ext_getElem?
  intro i
  rw [bytes, bytes, h]
  simp only [blankOut, ByteArray.data_extract, Array.toList_extract, List.extract,
    Array.toList_mapIdx, List.getElem?_map, List.getElem?_zipIdx, List.getElem?_take,
    List.getElem?_drop, List.getElem?_mapIdx]
  split
  · rw [Option.map_map]
    rfl
  · rfl

namespace SyntaxTree

/-- Whether a byte is in a continuation below the node. -/
def continues (n : SyntaxTree) (position : Nat) : Bool :=
  n.below.preorder.any fun c =>
    c.kind = "block_continuation" && (c.startByte ≤ position && position < c.endByte)

/-- The bytes of a node that are in a continuation below it. -/
def continuationBytes (n : SyntaxTree) (source : String) : List UInt8 :=
  (((n.label.bytes source).zipIdx n.label.startByte).filter fun x => n.continues x.2).map Prod.fst

theorem forall_continuationBytes {n : SyntaxTree} {source : String} {P : UInt8 → Prop} :
    (∀ b ∈ n.continuationBytes source, P b) ↔
      ∀ x ∈ (n.label.bytes source).zipIdx n.label.startByte, n.continues x.2 = true → P x.1 := by
  simp only [continuationBytes, List.forall_mem_map, List.mem_filter, and_imp]

end SyntaxTree

/-! ### Titles -/

namespace Markdown

/-- The node that holds the text of a title, with what is below it. -/
def titleTree? (t : SyntaxTree) : Option SyntaxTree :=
  (t.label.content?.bind fun i => (t :: t.below.subtrees)[i]?) <|>
    t.below.branches.find? fun b => b.label.kind = "inline" ∨ b.label.kind = "paragraph"

theorem titleNode?_eq (t : SyntaxTree) : titleNode? t = (titleTree? t).map Branch.label := by
  have hpreorder : t.preorder = (t :: t.below.subtrees).map Branch.label := by
    rw [List.map_cons, Forest.map_label_subtrees, Branch.preorder]
  have hroots : ∀ f : Forest SyntaxNode, f.roots = f.branches.map Branch.label := by
    intro f
    induction f with
    | nil => rfl
    | cons a below after _ iha => rw [Forest.roots, Forest.branches, List.map_cons, iha]
  rw [titleNode?, titleTree?, SyntaxTree.headingContent?, SyntaxTree.findChild?, hpreorder, hroots,
    List.find?_map]
  cases t.label.content? with
  | none => rfl
  | some i =>
    rw [Option.bind_some, Option.bind_some, List.getElem?_map]
    cases (t :: t.below.subtrees)[i]? <;> rfl

/-- The characters of a node; none if its bytes are not well-formed. -/
def content (n : SyntaxNode) (source : String) : List Char := ((n.text? source).getD "").toList

variable {t n : SyntaxTree} {source source' : String}

theorem collapsedTitle_eq (hn : titleTree? t = some n) (source : String) :
    collapsedTitle t source = Text.collapse (content n.label source) := by
  rw [collapsedTitle, titleNode?_eq, hn]
  rfl

/-- The words of a node hang on no blanks among its bytes. -/
theorem collapse_content_congr {n : SyntaxNode}
    (h : List.Forall₂ Text.AlikeByte (n.bytes source) (n.bytes source')) :
    Text.collapse (content n source) = Text.collapse (content n source') := by
  have hsome {source source' text : String}
      (h : List.Forall₂ Text.AlikeByte (n.bytes source) (n.bytes source'))
      (htext : n.text? source = some text) :
      ∃ text', n.text? source' = some text' ∧ List.Forall₂ Text.Alike text.toList text'.toList := by
    rw [SyntaxNode.text?_eq_some_iff.1 htext] at h
    obtain ⟨s, hs, halike⟩ := Text.exists_alike h
    refine ⟨String.ofList s, SyntaxNode.text?_eq_some_iff.2 ?_, ?_⟩
    · rw [String.toList_ofList, hs]
    · rwa [String.toList_ofList]
  unfold content
  cases htext : n.text? source with
  | some text =>
    obtain ⟨text', htext', halike⟩ := hsome h htext
    rw [htext', Option.getD_some, Option.getD_some, Text.collapse, Text.collapse,
      Text.words_congr halike]
  | none =>
    cases htext' : n.text? source' with
    | none => rfl
    | some text' =>
      have hflip : List.Forall₂ Text.AlikeByte (n.bytes source') (n.bytes source) :=
        (h.imp fun _ _ hxy => hxy.symm).flip
      obtain ⟨text, htext'', -⟩ := hsome hflip htext'
      rw [htext] at htext''
      cases htext''

/-- A node whose words stay the same has no fewer marks. -/
theorem countP_isMark_le {n : SyntaxNode} (hsome : (n.text? source).isSome = true)
    (h : Text.collapse (content n source') = Text.collapse (content n source)) :
    (n.bytes source).countP Text.isMark ≤ (n.bytes source').countP Text.isMark := by
  obtain ⟨text, htext⟩ := Option.isSome_iff_exists.1 hsome
  have hcount := Text.countP_isMark_congr h
  rw [SyntaxNode.text?_eq_some_iff.1 htext]
  rw [content, content, htext, Option.getD_some] at hcount
  rw [← hcount]
  cases htext' : n.text? source' with
  | some text' =>
    rw [SyntaxNode.text?_eq_some_iff.1 htext']
    exact Nat.le_refl _
  | none => exact Nat.zero_le _

/-- With spaces over the continuations in its heading a title stays the same if they are
blanks. The title of an underlined heading does not if there is a mark among them. -/
theorem title_blankOut (hn : titleTree? t = some n)
    (hs : source'.toUTF8 = blankOut n.continues source.toUTF8) :
    ((∀ b ∈ n.continuationBytes source, Text.isBlankByte b = true) →
        title t source' = title t source) ∧
      (t.kind ≠ "atx_heading" → (n.label.text? source).isSome = true →
        title t source' = title t source →
        ∀ b ∈ n.continuationBytes source, Text.isMark b = false) := by
  let place := (n.label.bytes source).zipIdx n.label.startByte
  let after : UInt8 × Nat → UInt8 := fun x => if n.continues x.2 then 32 else x.1
  have hbefore : n.label.bytes source = place.map Prod.fst := (List.zipIdx_map_fst _ _).symm
  have hafter : n.label.bytes source' = place.map after := SyntaxNode.bytes_blankOut hs
  constructor
  · intro hblank
    rw [SyntaxTree.forall_continuationBytes] at hblank
    have halike : List.Forall₂ Text.AlikeByte (n.label.bytes source') (n.label.bytes source) := by
      rw [hafter, hbefore, List.forall₂_map_left_iff, List.forall₂_map_right_iff, List.forall₂_same]
      intro x hx
      by_cases hcovered : n.continues x.2 = true
      · exact .inr ⟨by simp [after, hcovered, Text.isBlankByte, Text.blankBytes], hblank x hx hcovered⟩
      · exact .inl (if_neg hcovered)
    rw [title, title, collapsedTitle_eq hn, collapsedTitle_eq hn, collapse_content_congr halike]
  · intro hkind hsome htitle
    rw [SyntaxTree.forall_continuationBytes]
    intro x hx hcovered
    rw [title, title, if_neg hkind, if_neg hkind, String.ofList_inj, collapsedTitle_eq hn,
      collapsedTitle_eq hn] at htitle
    have hcount := countP_isMark_le hsome htitle
    rw [hbefore, hafter] at hcount
    have hspace : after x = 32 := if_pos hcovered
    cases hmark : Text.isMark x.1 with
    | false => rfl
    | true =>
      -- No mark was changed, and a space is none.
      have hsame : after x = x.1 := by
        refine Text.eq_of_countP_isMark_le (fun y _ => ?_) hcount x hx hmark
        by_cases hy : n.continues y.2 = true
        · exact .inr (by rw [show after y = 32 from if_pos hy]; rfl)
        · exact .inl (if_neg hy)
      rw [← hsame, hspace] at hmark
      cases hmark

/-- The text of an underlined heading of two lines. Continuations of `width` bytes stand
before its second line, at `second`, and before the underline. -/
def twoLines (second underline width : Nat) : SyntaxTree where
  label := { kind := "paragraph", startByte := 2, endByte := underline, row := 0, column := 2 }
  below :=
    .cons
      { kind := "inline", startByte := 2, endByte := underline - width - 1, row := 0, column := 2 }
      (.cons
        { kind := "block_continuation", startByte := second, endByte := second + width, row := 1
          column := 0 }
        .nil .nil)
      (.cons
        { kind := "block_continuation", startByte := underline - width, endByte := underline
          row := 2, column := 0 }
        .nil .nil)

/-- The heading with that text, underlined by three dashes. -/
def underlined (text : SyntaxTree) : SyntaxTree where
  label :=
    { kind := "setext_heading", startByte := 2, endByte := text.label.endByte + 4, row := 0
      column := 2, content? := some 1 }
  below :=
    .cons text.label text.below
      (.cons
        { kind := "setext_h2_underline", startByte := text.label.endByte
          endByte := text.label.endByte + 3, row := 2, column := 2 }
        .nil .nil)

/-- In a list the lines go on with blanks, here with tabs. -/
theorem title_blankOut_listed :
    titleTree? (underlined (twoLines 4 8 1)) = some (twoLines 4 8 1) ∧
      "- a\n b\n ---\n".toUTF8 =
        blankOut (twoLines 4 8 1).continues "- a\n\tb\n\t---\n".toUTF8 ∧
      title (underlined (twoLines 4 8 1)) "- a\n b\n ---\n" =
        title (underlined (twoLines 4 8 1)) "- a\n\tb\n\t---\n" ∧
      ∀ b ∈ (twoLines 4 8 1).continuationBytes "- a\n\tb\n\t---\n", Text.isMark b = false := by
  have htree : titleTree? (underlined (twoLines 4 8 1)) = some (twoLines 4 8 1) := by decide
  have hsource : "- a\n b\n ---\n".toUTF8 =
      blankOut (twoLines 4 8 1).continues "- a\n\tb\n\t---\n".toUTF8 := by rfl
  obtain ⟨hsame, hmarks⟩ := title_blankOut htree hsource
  have htitle := hsame (by decide +kernel)
  exact ⟨htree, hsource, htitle, hmarks (by decide) (by decide) htitle⟩

/-- In a quote the lines go on with its sign, which stands in the title of the heading. -/
theorem title_has_quoteSigns :
    shape (underlined (twoLines 5 11 2)) = .keep (.header 2) ∧
      titleTree? (underlined (twoLines 5 11 2)) = some (twoLines 5 11 2) ∧
      "> Se\n  x\n  ---\n".toUTF8 =
        blankOut (twoLines 5 11 2).continues "> Se\n> x\n> ---\n".toUTF8 ∧
      title (underlined (twoLines 5 11 2)) "> Se\n> x\n> ---\n" = "Se > x >" ∧
      title (underlined (twoLines 5 11 2)) "> Se\n  x\n  ---\n" = "Se x" :=
  ⟨by decide, by decide, by rfl, by decide, by decide⟩

end Markdown

end DocOutline
