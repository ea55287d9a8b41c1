import DocOutline.Proofs.Walks

/-! The outline of a standing forest in one pass.

An outline is found by walking: a scan gives the topmost headings of a chain, and
each of them is expanded by a scan of the siblings after it. `Forest.outline`
finds the same from the forest of blocks alone, by recursion on it: the forest
below a heading that is taken is the outline of what follows it, bounded by its
level. `scanChain_heads` says this of one scan and `expand_roots` of the full
expansion, so that `Holds.outline` gives the outline of a whole document with no
links and no bound on its generations. -/
namespace DocOutline

namespace Forest

/-- The outline of some placed siblings. It ends at a heading within `bound?`;
`peak?` is the broadest level so far. -/
def outline (o : OutlineOptions) (bound? peak? : Option UInt8) :
    Forest (NodeId × Block) → Outline
  | .nil => .nil
  | .cons x below after =>
    match x.2.kind.level? with
    | some level =>
      if bound?.any (level ≤ ·) then .nil
      else if peak?.all (level ≤ ·) then
        let later := outline o bound? (some level) after
        if level ≤ o.maxLevel then .cons x.1 (outline o (some level) none after) later else later
      else outline o bound? peak? after
    | none =>
      let later := outline o bound? peak? after
      if x.2.kind.isTransparent && peak?.isNone then (outline o none none below).append later
      else later

end Forest

namespace Document

section Scan
variable {d : Document} {o : OutlineOptions} {inside : NodeId → List NodeId}
  {bound? peak? : Option UInt8} {id : NodeId} {rest : List NodeId} {k : Kind}
  (hk : d.kind? id = some k)
include hk

/-- A scan ends at a heading within the bound, and takes one that is a peak if it is shown. -/
theorem scanChain_cons_of_level? {level : UInt8} (hl : k.level? = some level) :
    d.scanChain o inside bound? peak? (id :: rest) =
      if bound?.any (level ≤ ·) then []
      else if peak?.all (level ≤ ·) then
        if level ≤ o.maxLevel then id :: d.scanChain o inside bound? (some level) rest
        else d.scanChain o inside bound? (some level) rest
      else d.scanChain o inside bound? peak? rest := by
  rw [Kind.eq_header_of_level? hl] at hk
  simp only [scanChain, hk, Kind.sameLevelOrHigher_header, OutlineOptions.isPresentable_header,
    decide_eq_true_eq]

/-- A scan passes over what is no heading, and goes into it if it is a container
before the first heading. -/
theorem scanChain_cons_of_level?_eq_none (hl : k.level? = none) :
    d.scanChain o inside bound? peak? (id :: rest) =
      if k.isTransparent && peak?.isNone then inside id ++ d.scanChain o inside bound? peak? rest
      else d.scanChain o inside bound? peak? rest := by
  cases k <;> simp_all [scanChain]

end Scan

theorem expand_append (d : Document) (o : OutlineOptions) (fuel : Nat) (as bs : List NodeId) :
    d.expand o fuel (as ++ bs) = (d.expand o fuel as).append (d.expand o fuel bs) := by
  cases fuel with
  | zero => rfl
  | succ fuel => exact Forest.grow_append _ as bs

theorem kind?_cons {d : Document} {parent : NodeId} {x : NodeId × Block}
    {below after : Forest (NodeId × Block)} (h : Stands d.nodes parent (.cons x below after)) :
    d.kind? x.1 = some x.2.kind := by
  have hnode : d.node? x.1 = _ := h.1
  simp [kind?, block?, hnode]

namespace Ordered
variable {d : Document} (hd : d.Ordered) {parent : Nat} {g : Forest (NodeId × Block)}
include hd

/-- A scan of a standing forest takes the roots of its outline. -/
theorem scanChain_heads (h : Stands d.nodes parent g) (o : OutlineOptions)
    (bound? peak? : Option UInt8) (depth : Nat) (hdepth : g.size ≤ depth) :
    d.scanChain o (d.scanInside o depth) bound? peak? g.heads =
      (g.outline o bound? peak?).roots := by
  induction g generalizing parent bound? peak? depth with
  | nil => rfl
  | cons x below after ihb iha =>
    have hkind := kind?_cons h
    have hafter := fun bound? peak? =>
      iha h.2.2 bound? peak? depth (by rw [Forest.size] at hdepth; omega)
    rw [Forest.heads_cons, Forest.outline]
    cases hl : x.2.kind.level? with
    | some level =>
      rw [scanChain_cons_of_level? hkind hl]
      simp only [hafter]
      split
      · rfl
      · split
        · split <;> rfl
        · rfl
    | none =>
      rw [scanChain_cons_of_level?_eq_none hkind hl, hafter]
      dsimp only
      split
      · obtain ⟨depth, rfl⟩ : ∃ k, depth = k + 1 :=
          ⟨depth - 1, by rw [Forest.size] at hdepth; omega⟩
        rw [Forest.roots_append, scanInside, hd.children_cons h,
          ihb h.2.1 none none depth (by rw [Forest.size] at hdepth; omega)]
      · rfl

theorem scan_heads (h : Stands d.nodes parent g) (o : OutlineOptions) (bound? : Option UInt8)
    (hsize : g.size ≤ d.size) : d.scan o bound? g.heads = (g.outline o bound? none).roots :=
  hd.scanChain_heads h o bound? none d.size hsize

/-- Below a heading stand the roots of the outline of what follows it. -/
theorem outlineChildren_cons {x : NodeId × Block} {below after : Forest (NodeId × Block)}
    (h : Stands d.nodes parent (.cons x below after)) (hp : parent < d.size)
    (hc : (parent :: d.ancestors parent).any d.isContainer = true) {level : UInt8}
    (hl : x.2.kind.level? = some level) (hsize : after.size ≤ d.size) (o : OutlineOptions) :
    d.outlineChildren o x.1 = (after.outline o (some level) none).roots := by
  have hkind := kind?_cons h
  rw [Kind.eq_header_of_level? hl] at hkind
  obtain ⟨container, hcontainer⟩ : ∃ c, d.container? x.1 = some c := by
    rw [← Option.isSome_iff_exists, container?, hd.ancestors_cons h hp, List.find?_isSome]
    simpa using hc
  simp only [outlineChildren, hkind, hcontainer, Kind.level?_header, hd.following_cons h]
  exact hd.scan_heads h.2.2 o _ hsize

/-- Expanding the roots of the outline of a standing forest gives all of it. -/
theorem expand_roots (h : Stands d.nodes parent g) (hp : parent < d.size)
    (hc : (parent :: d.ancestors parent).any d.isContainer = true) (hsize : g.size ≤ d.size)
    (o : OutlineOptions) (bound? peak? : Option UInt8) {fuel : Nat} (hfuel : g.size ≤ fuel) :
    d.expand o fuel (g.outline o bound? peak?).roots = g.outline o bound? peak? := by
  induction g generalizing parent bound? peak? fuel with
  | nil => cases fuel <;> rfl
  | cons x below after ihb iha =>
    rw [Forest.size] at hsize hfuel
    obtain ⟨fuel, rfl⟩ : ∃ k, fuel = k + 1 := ⟨fuel - 1, by omega⟩
    have hafter := fun bound? peak? (fuel : Nat) (hf : after.size ≤ fuel) =>
      iha h.2.2 hp hc (by omega) bound? peak? hf
    rw [Forest.outline]
    cases hl : x.2.kind.level? with
    | some level =>
      dsimp only
      split
      · rfl
      · split
        · split
          · have hbelow : d.expand o fuel (d.outlineChildren o x.1) =
                after.outline o (some level) none := by
              rw [hd.outlineChildren_cons h hp hc hl (by omega) o]
              exact hafter _ _ fuel (by omega)
            have hlater := hafter bound? (some level) (fuel + 1) (by omega)
            rw [Forest.roots, expand, Forest.grow, hbelow]
            exact congrArg _ hlater
          · exact hafter _ _ _ (by omega)
        · exact hafter _ _ _ (by omega)
    | none =>
      dsimp only
      split
      · rename_i ht
        have hx : d.isContainer x.1 = true := by
          rw [isContainer, kind?_cons h]
          exact (Bool.and_eq_true_iff.1 ht).1
        rw [Forest.roots_append, expand_append, hafter _ _ _ (by omega),
          ihb h.2.1 (h.lt_size_of_head? rfl) (by simp [hx]) (by omega) none none (by omega)]
      · exact hafter _ _ _ (by omega)

end Ordered

/-- The outline of a document is the outline of the forest it holds. -/
theorem Holds.outline {d : Document} {root : Block} {f : Forest Block} (h : d.Holds root f)
    (hroot : root.kind = .document) (o : OutlineOptions) :
    d.outline o = (f.placed 1).outline o none none := by
  have hkind : d.kind? Document.root = some .document := by rw [h.kind?_root, hroot]
  have hsize : (f.placed 1).size ≤ d.size := by
    rw [Forest.size_placed, h.size]
    omega
  have hchildren : d.outlineChildren o Document.root =
      ((f.placed 1).outline o none none).roots := by
    simp only [outlineChildren, hkind, h.children_root]
    exact h.ordered.scan_heads h.stands o none hsize
  have hc : (Document.root :: d.ancestors Document.root).any d.isContainer = true := by
    rw [List.any_cons, h.isContainer_root hroot, Bool.true_or]
  rw [Document.outline, outlineBelow, hchildren]
  exact h.ordered.expand_roots h.stands d.root_lt hc hsize o none none hsize

end Document

end DocOutline
