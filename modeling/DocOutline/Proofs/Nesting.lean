import DocOutline.Forest.Edges
import DocOutline.Proofs.OnePass

/-! Which heading a heading hangs under, said on forests of blocks.

`Forest.hanging` gives the visible headings of some siblings in document order,
each with the one it hangs under: the nearest broader heading before it among its
siblings, or else what the siblings as a whole hang under. An outline has these
edges and no others (`edges_outline`). It finds them out of order, by scans that
stop (`upTo`) and that have gone on to a new peak (`fromLevel`): what follows a
heading up to its level hangs under it, and what comes from there on does not
know of it (`hanging_upTo`). -/
namespace DocOutline

namespace Forest

/-- The visible headings with what each hangs under. The headings before them
among their siblings are `earlier`, the nearest first; without a broader one a
heading hangs under `around?`. -/
def hanging (around? : Option NodeId) (earlier : List (NodeId × UInt8)) :
    Forest (NodeId × Block) → List (Option NodeId × NodeId)
  | .nil => []
  | .cons x below after =>
    match x.2.kind.level? with
    | some level =>
      (((earlier.find? (·.2 < level)).map Prod.fst).or around?, x.1) ::
        hanging around? ((x.1, level) :: earlier) after
    | none =>
      (if x.2.kind.isTransparent then hanging ((earlier.head?.map Prod.fst).or around?) [] below
        else []) ++ hanging around? earlier after

/-- The siblings before the first heading within `bound?`. -/
def upTo (bound? : Option UInt8) : Forest (NodeId × Block) → Forest (NodeId × Block)
  | .nil => .nil
  | .cons x below after =>
    if x.2.kind.level?.any fun level => bound?.any (level ≤ ·) then .nil
    else .cons x below (upTo bound? after)

/-- The siblings from the first heading at `level` or broader on. -/
def fromLevel (level : UInt8) : Forest (NodeId × Block) → Forest (NodeId × Block)
  | .nil => .nil
  | .cons x below after =>
    if x.2.kind.level?.any (· ≤ level) then .cons x below after else fromLevel level after

@[simp] theorem upTo_none (g : Forest (NodeId × Block)) : g.upTo none = g := by
  induction g with
  | nil => rfl
  | cons x below after _ iha => simp [upTo, iha]

/-! ### Earlier headings -/

section Earlier
variable {near far : List (NodeId × UInt8)} {level l : UInt8}

/-- Headings before one that is as broad as they are are not the nearest broader one. -/
theorem find?_append_of_le {c : NodeId × UInt8} (hc : c ∈ near) (hfar : ∀ e ∈ far, c.2 ≤ e.2) :
    (near ++ far).find? (·.2 < level) = near.find? (·.2 < level) := by
  rw [List.find?_append]
  cases hn : near.find? (·.2 < level) with
  | some e => rfl
  | none =>
    have hcl : ¬ c.2 < level := by simpa using List.find?_eq_none.1 hn c hc
    apply List.find?_eq_none.2
    intro e he hlt
    have hle := hfar e he
    exact hcl (UInt8.lt_of_le_of_lt hle (of_decide_eq_true hlt))

variable (id : NodeId)

theorem find?_append_singleton (near : List (NodeId × UInt8)) (hlt : level < l) :
    ((near ++ [(id, level)]).find? (·.2 < l)).map Prod.fst =
      ((near.find? (·.2 < l)).map Prod.fst).or (some id) := by
  rw [List.find?_append]
  cases near.find? (·.2 < l) <;> simp [hlt]

variable (hnear : ∀ e ∈ near, level < e.2)
include hnear

theorem le_of_mem_append_singleton {e : NodeId × UInt8} (he : e ∈ near ++ [(id, level)]) :
    level ≤ e.2 := by
  rcases List.mem_append.1 he with he | he
  · exact UInt8.le_of_lt (hnear e he)
  · rw [List.mem_singleton.1 he]
    exact UInt8.le_refl _

/-- Nothing is broader than a heading as broad as the broadest. -/
theorem find?_append_singleton_eq_none (hle : l ≤ level) :
    (near ++ [(id, level)]).find? (·.2 < l) = none := by
  apply List.find?_eq_none.2
  intro e he
  have hlevel := le_of_mem_append_singleton id hnear he
  simpa using UInt8.not_lt.2 (UInt8.le_trans hle hlevel)

end Earlier

/-- Headings before one that is as broad as they are do not count. -/
theorem hanging_append (g : Forest (NodeId × Block)) (around? : Option NodeId)
    (near : List (NodeId × UInt8)) {far : List (NodeId × UInt8)}
    (h : ∃ c ∈ near, ∀ e ∈ far, c.2 ≤ e.2) :
    g.hanging around? (near ++ far) = g.hanging around? near := by
  induction g generalizing near with
  | nil => rfl
  | cons x below after _ iha =>
    obtain ⟨c, hc, hfar⟩ := h
    rw [hanging, hanging]
    cases hl : x.2.kind.level? with
    | some level =>
      have hrest := iha ((x.1, level) :: near) ⟨c, List.mem_cons_of_mem _ hc, hfar⟩
      simp only [find?_append_of_le hc hfar]
      exact congrArg _ hrest
    | none =>
      have hhead : (near ++ far).head? = near.head? := by
        cases near with
        | nil => cases hc
        | cons e near => rfl
      simp only [hhead, iha near ⟨c, hc, hfar⟩]

/-- What follows a heading up to a bound broader than it: what comes up to its own
level hangs under it, and what comes from there on does not know of it. -/
theorem hanging_upTo (g : Forest (NodeId × Block)) (around? : Option NodeId) {bound? : Option UInt8}
    (id : NodeId) {level : UInt8} (hbound : bound?.all (· < level) = true)
    (near : List (NodeId × UInt8)) (hnear : ∀ e ∈ near, level < e.2) :
    (g.upTo bound?).hanging around? (near ++ [(id, level)]) =
      (g.upTo (some level)).hanging (some id) near ++
        ((g.upTo bound?).fromLevel level).hanging around? [] := by
  induction g generalizing near with
  | nil => rfl
  | cons x below after _ iha =>
    rw [upTo, upTo]
    cases hl : x.2.kind.level? with
    | none =>
      have hhead : ((near ++ [(id, level)]).head?.map Prod.fst).or around? =
          (near.head?.map Prod.fst).or (some id) := by
        cases near <;> rfl
      simp only [Option.any_none, Bool.false_eq_true, if_false, hanging, fromLevel, hl, hhead,
        iha near hnear, List.append_assoc]
    | some l =>
      by_cases hstop : bound?.any (l ≤ ·) = true
      · -- Within the bound, so within the level as well.
        obtain ⟨b, rfl, hb⟩ := (Option.any_eq_true _ _).1 hstop
        have hle : l ≤ level := by
          simp only [Option.all_some, decide_eq_true_eq] at hbound hb
          exact UInt8.le_of_lt (UInt8.lt_of_le_of_lt hb hbound)
        simp [hb, hle, hanging, fromLevel]
      · by_cases hle : l ≤ level
        · -- As broad as the heading: from here on neither it nor what came since counts.
          have hfind := find?_append_singleton_eq_none id hnear hle
          have hfar : ∃ c ∈ [(x.1, l)], ∀ e ∈ near ++ [(id, level)], c.2 ≤ e.2 := by
            refine ⟨_, List.mem_singleton_self _, ?_⟩
            intro e he
            exact UInt8.le_trans hle (le_of_mem_append_singleton id hnear he)
          have hrest := hanging_append (after.upTo bound?) around? [(x.1, l)] hfar
          simp only [Option.any_some, hstop, hle, decide_true, if_true, if_false,
            Bool.false_eq_true, hanging, fromLevel, hl, hfind, List.nil_append] at hrest ⊢
          exact congrArg _ hrest
        · have hlt : level < l := UInt8.not_le.1 hle
          have hfind := find?_append_singleton id near hlt
          have hnear' : ∀ e ∈ (x.1, l) :: near, level < e.2 := by
            intro e he
            rcases List.mem_cons.1 he with rfl | he
            · exact hlt
            · exact hnear e he
          have hrest := iha ((x.1, l) :: near) hnear'
          simp only [Option.any_some, hstop, hle, decide_false, if_false, Bool.false_eq_true,
            hanging, fromLevel, hl, hfind, Option.or_assoc, Option.some_or,
            List.cons_append] at hrest ⊢
          exact congrArg _ hrest

/-- An outline that shows every level has the visible headings up to its bound,
and each stands below what it hangs under. Once there is a peak it has those from
the first heading that is as broad. -/
theorem edges_outline (g : Forest (NodeId × Block)) (o : OutlineOptions)
    (hlevels : ∀ x ∈ g.preorder, ∀ level ∈ x.2.kind.level?, level ≤ o.maxLevel)
    (around? : Option NodeId) (bound? : Option UInt8) :
    (g.outline o bound? none).edges around? = (g.upTo bound?).hanging around? [] ∧
      ∀ peak, bound?.all (· < peak) = true → (g.outline o bound? (some peak)).edges around? =
        ((g.upTo bound?).fromLevel peak).hanging around? [] := by
  induction g generalizing around? bound? with
  | nil => exact ⟨rfl, fun _ _ => rfl⟩
  | cons x below after ihb iha =>
    have hbelow := ihb fun y hy => hlevels y (List.mem_cons_of_mem _ (List.mem_append_left _ hy))
    have hafter := iha fun y hy => hlevels y (List.mem_cons_of_mem _ (List.mem_append_right _ hy))
    cases hl : x.2.kind.level? with
    | none =>
      have hcons : (Forest.cons x below after).upTo bound? = .cons x below (after.upTo bound?) := by
        simp [upTo, hl]
      rw [hcons]
      constructor
      · have hin := (hbelow around? none).1
        have hrest := (hafter around? bound?).1
        rw [upTo_none] at hin
        cases ht : x.2.kind.isTransparent <;>
          simp [outline, hanging, hl, ht, edges_append, hin, hrest]
      · intro peak hpeak
        have hrest := (hafter around? bound?).2 peak hpeak
        simpa [outline, hl, fromLevel] using hrest
    | some level =>
      have hshown : level ≤ o.maxLevel := hlevels x List.mem_cons_self level hl
      by_cases hstop : bound?.any (level ≤ ·) = true
      · simp [outline, upTo, hl, hstop, edges, hanging, fromLevel]
      · have hcons : (Forest.cons x below after).upTo bound? =
            .cons x below (after.upTo bound?) := by
          simp [upTo, hl, hstop]
        have hbound : bound?.all (· < level) = true := by
          cases bound? with
          | none => rfl
          | some b => simpa [UInt8.not_le] using hstop
        -- What the heading and those after it add, if it is taken.
        have htaken : (Forest.cons x.1 (after.outline o (some level) none)
            (after.outline o bound? (some level))).edges around? =
              (Forest.cons x below (after.upTo bound?)).hanging around? [] := by
          have hunder := (hafter (some x.1) (some level)).1
          have hlater := (hafter around? bound?).2 level hbound
          have hsplit := hanging_upTo after around? x.1 hbound [] (by simp)
          rw [List.nil_append] at hsplit
          rw [edges, hunder, hlater, ← hsplit]
          simp [hanging, hl]
        rw [hcons]
        refine ⟨by simpa [outline, hl, hstop, hshown] using htaken, ?_⟩
        intro peak hpeak
        by_cases hle : level ≤ peak
        · simpa [outline, hl, hstop, hshown, hle, fromLevel] using htaken
        · have hrest := (hafter around? bound?).2 peak hpeak
          simpa [outline, hl, hstop, hle, fromLevel] using hrest

end Forest

end DocOutline
