import DocOutline.Outline.Peaks
import DocOutline.Proofs.DepthLimit
import DocOutline.Proofs.Extents

/-! What a scan finds, in closed form.

A scan looks at its chain up to where its bound ends it (`upTo`). It goes into the
containers before the first heading there and takes the headings that are as broad as every
heading before them (`scanChain_eq`): its running peak is the broadest of the earlier levels,
which is the invariant of `scanChain_of_peak`. In a built document the containers are
scanned by the same scan (`Holds.scanInside_eq`), so that there is no limit to how deep they
lie. `Document.ScansPeaks` adds what follows for the chain: its headings come from deep to
broad, nothing counts after the end, and of what follows the first heading only headings do. -/
namespace DocOutline.Document
variable (d : Document)

/-! ### One node of a chain -/

theorem upTo_cons (bound? : Option UInt8) (id : NodeId) (rest : List NodeId) :
    d.upTo bound? (id :: rest) =
      if (d.level? id).any fun level => bound?.any (level ≤ ·) then []
      else id :: d.upTo bound? rest := by
  rw [upTo, List.takeWhile_cons, any_endsScope]
  split <;> rename_i h
  · rw [if_neg (by simpa using h)]
    rfl
  · rw [if_pos (by simpa using h)]

theorem beforeHeading_cons (id : NodeId) (rest : List NodeId) :
    d.beforeHeading (id :: rest) =
      if (d.level? id).isSome then [] else id :: d.beforeHeading rest := by
  rw [beforeHeading, List.takeWhile_cons, isHeading_eq_isSome_level?]
  cases d.level? id <;> rfl

variable {d} {o : OutlineOptions} {inside : NodeId → List NodeId} {bound? peak? : Option UInt8}
  {earlier : List UInt8} {id : NodeId} {rest : List NodeId} {level : UInt8}

section Heading
variable (hl : d.level? id = some level)
include hl

theorem isWithin_of_level? (m : UInt8) : d.isWithin m id = decide (level ≤ m) := by
  rw [isWithin, hl, Option.any_some]

theorem scanChain_cons_of_heading :
    d.scanChain o inside bound? peak? (id :: rest) =
      if bound?.any (level ≤ ·) then []
      else if peak?.all (level ≤ ·) then
        if level ≤ o.maxLevel then id :: d.scanChain o inside bound? (some level) rest
        else d.scanChain o inside bound? (some level) rest
      else d.scanChain o inside bound? peak? rest := by
  obtain ⟨kind, hk, hlevel⟩ := Option.bind_eq_some_iff.1 hl
  exact scanChain_cons_of_level? hk hlevel

theorem peaksAfter_cons_of_heading :
    d.peaksAfter earlier (id :: rest) =
      if earlier.all (level ≤ ·) then id :: d.peaksAfter (level :: earlier) rest
      else d.peaksAfter (level :: earlier) rest := by
  simp only [peaksAfter, hl]

end Heading

section NoHeading
variable (hl : d.level? id = none)
include hl

theorem scanChain_cons_of_not_heading :
    d.scanChain o inside bound? peak? (id :: rest) =
      if d.isContainer id && peak?.isNone then
        inside id ++ d.scanChain o inside bound? peak? rest
      else d.scanChain o inside bound? peak? rest := by
  cases hk : d.kind? id with
  | none => simp [scanChain, isContainer, hk]
  | some kind =>
    have hlevel : kind.level? = none := by rwa [level?, hk] at hl
    rw [scanChain_cons_of_level?_eq_none hk hlevel, isContainer, hk, Option.any_some]

theorem peaksAfter_cons_of_not_heading :
    d.peaksAfter earlier (id :: rest) = d.peaksAfter earlier rest := by
  simp only [peaksAfter, hl]

end NoHeading

/-! ### The closed form -/

/-- The broadest of some levels, with one that is as broad, is that one. -/
theorem all_le_cons_of_le {peak : UInt8} (hpeak : ∀ l, earlier.all (l ≤ ·) = decide (l ≤ peak))
    (hle : level ≤ peak) (l : UInt8) : (level :: earlier).all (l ≤ ·) = decide (l ≤ level) := by
  rw [List.all_cons, hpeak, ← Bool.decide_and, decide_eq_decide]
  exact ⟨And.left, fun h => ⟨h, UInt8.le_trans h hle⟩⟩

/-- The broadest of some levels, with a deeper one, is as it was. -/
theorem all_le_cons_of_lt {peak : UInt8} (hpeak : ∀ l, earlier.all (l ≤ ·) = decide (l ≤ peak))
    (hlt : peak < level) (l : UInt8) : (level :: earlier).all (l ≤ ·) = decide (l ≤ peak) := by
  rw [List.all_cons, hpeak, ← Bool.decide_and, decide_eq_decide]
  exact ⟨And.right, fun h => ⟨UInt8.le_of_lt (UInt8.lt_of_le_of_lt h hlt), h⟩⟩

/-- From its first heading on a scan takes the peaks. The peak that it carries is the
broadest of the earlier levels. -/
theorem scanChain_of_peak {peak : UInt8} (hpeak : ∀ l, earlier.all (l ≤ ·) = decide (l ≤ peak))
    (ids : List NodeId) :
    d.scanChain o inside bound? (some peak) ids =
      (d.peaksAfter earlier (d.upTo bound? ids)).filter (d.isWithin o.maxLevel) := by
  induction ids generalizing peak earlier with
  | nil => rfl
  | cons id rest ih =>
    rw [upTo_cons]
    cases hl : d.level? id with
    | none =>
      rw [scanChain_cons_of_not_heading hl, ih hpeak, Option.any_none,
        if_neg Bool.false_ne_true, peaksAfter_cons_of_not_heading hl]
      simp
    | some level =>
      rw [scanChain_cons_of_heading hl, Option.any_some, Option.all_some]
      split
      · rfl
      · rw [peaksAfter_cons_of_heading hl, hpeak]
        by_cases hle : level ≤ peak
        · rw [if_pos (decide_eq_true hle), if_pos (decide_eq_true hle),
            ih (all_le_cons_of_le hpeak hle), List.filter_cons, isWithin_of_level? hl]
          simp
        · rw [if_neg (by simpa using hle), if_neg (by simpa using hle),
            ih (all_le_cons_of_lt hpeak (UInt8.not_le.1 hle))]

/-- A scan finds what is inside the containers before its first heading, and then the peaks. -/
theorem scanChain_eq (ids : List NodeId) :
    d.scanChain o inside bound? none ids =
      ((d.beforeHeading (d.upTo bound? ids)).filter d.isContainer).flatMap inside ++
        (d.peaks (d.upTo bound? ids)).filter (d.isWithin o.maxLevel) := by
  induction ids with
  | nil => rfl
  | cons id rest ih =>
    rw [upTo_cons]
    cases hl : d.level? id with
    | none =>
      rw [scanChain_cons_of_not_heading hl, ih, Option.any_none, if_neg Bool.false_ne_true,
        beforeHeading_cons, hl, Option.isSome_none, if_neg Bool.false_ne_true, peaks, peaks,
        peaksAfter_cons_of_not_heading hl, List.filter_cons]
      cases d.isContainer id with
      | false => rfl
      | true => exact (List.append_assoc _ _ _).symm
    | some level =>
      have hfirst : ∀ l : UInt8, [level].all (l ≤ ·) = decide (l ≤ level) := fun l => by simp
      have hrest : d.scanChain o inside bound? (some level) rest = _ := scanChain_of_peak hfirst rest
      rw [scanChain_cons_of_heading hl, Option.any_some]
      split
      · rfl
      · rw [beforeHeading_cons, hl, peaks, peaksAfter_cons_of_heading hl]
        simp [hrest, List.filter_cons, isWithin_of_level? hl]

/-! ### What does and does not count -/

/-- Nothing counts from a heading within the bound on. -/
theorem upTo_append_of_endsScope {bound : UInt8} {stop : NodeId} (hstop : d.endsScope bound stop = true)
    (before after : List NodeId) :
    d.upTo (some bound) (before ++ stop :: after) = d.upTo (some bound) before := by
  induction before with
  | nil =>
    have hlevel : (d.level? stop).any (fun level => (some bound).any (level ≤ ·)) = true := hstop
    rw [List.nil_append, upTo_cons, if_pos hlevel]
    rfl
  | cons id before ih => rw [List.cons_append, upTo_cons, upTo_cons, ih]

/-- After its first heading a scan sees nothing but headings. -/
theorem scanChain_filter_isHeading (peak : UInt8) (ids : List NodeId) :
    d.scanChain o inside bound? (some peak) ids =
      d.scanChain o inside bound? (some peak) (ids.filter d.isHeading) := by
  induction ids generalizing peak with
  | nil => rfl
  | cons id rest ih =>
    rw [List.filter_cons, isHeading_eq_isSome_level?]
    cases hl : d.level? id with
    | none =>
      rw [scanChain_cons_of_not_heading hl, Option.isSome_none, if_neg Bool.false_ne_true,
        Option.isNone_some, Bool.and_false, if_neg Bool.false_ne_true]
      exact ih peak
    | some level =>
      rw [Option.isSome_some, if_pos rfl, scanChain_cons_of_heading hl, scanChain_cons_of_heading hl,
        ← ih, ← ih]

theorem scanChain_after_heading {heading : NodeId} (hheading : d.isHeading heading = true)
    (peak? : Option UInt8) (before after : List NodeId) :
    d.scanChain o inside bound? peak? (before ++ heading :: after) =
      d.scanChain o inside bound? peak? (before ++ heading :: after.filter d.isHeading) := by
  induction before generalizing peak? with
  | nil =>
    rw [isHeading_eq_isSome_level?] at hheading
    obtain ⟨level, hl⟩ := Option.isSome_iff_exists.1 hheading
    rw [List.nil_append, List.nil_append, scanChain_cons_of_heading hl,
      scanChain_cons_of_heading hl, ← scanChain_filter_isHeading level after]
    cases peak? with
    | none => rfl
    | some peak => rw [← scanChain_filter_isHeading peak after]
  | cons id before ih =>
    rw [List.cons_append, List.cons_append]
    cases hl : d.level? id with
    | none => rw [scanChain_cons_of_not_heading hl, scanChain_cons_of_not_heading hl, ih]
    | some level =>
      rw [scanChain_cons_of_heading hl, scanChain_cons_of_heading hl, ih (some level), ih peak?]

/-- A peak is a heading at least as broad as the earlier ones. -/
theorem level?_of_mem_peaksAfter {ids : List NodeId} {x : NodeId}
    (hx : x ∈ d.peaksAfter earlier ids) :
    ∃ level, d.level? x = some level ∧ ∀ l ∈ earlier, level ≤ l := by
  induction ids generalizing earlier with
  | nil => cases hx
  | cons id rest ih =>
    cases hl : d.level? id with
    | none =>
      rw [peaksAfter_cons_of_not_heading hl] at hx
      exact ih hx
    | some level =>
      have hlater : x ∈ d.peaksAfter (level :: earlier) rest →
          ∃ level, d.level? x = some level ∧ ∀ l ∈ earlier, level ≤ l := by
        intro hx
        obtain ⟨l, hlx, hle⟩ := ih hx
        exact ⟨l, hlx, fun e he => hle e (List.mem_cons_of_mem _ he)⟩
      rw [peaksAfter_cons_of_heading hl] at hx
      split at hx
      · rename_i hall
        rcases List.mem_cons.1 hx with rfl | hx
        · exact ⟨level, hl, by simpa using hall⟩
        · exact hlater hx
      · exact hlater hx

/-- The levels of the peaks go from deep to broad. -/
theorem pairwise_level?_peaksAfter (earlier : List UInt8) (ids : List NodeId) :
    (d.peaksAfter earlier ids).Pairwise fun a b =>
      ∀ l, d.level? a = some l → ∀ l', d.level? b = some l' → l ≥ l' := by
  induction ids generalizing earlier with
  | nil => exact .nil
  | cons id rest ih =>
    cases hl : d.level? id with
    | none =>
      rw [peaksAfter_cons_of_not_heading hl]
      exact ih earlier
    | some level =>
      rw [peaksAfter_cons_of_heading hl]
      split
      · refine List.pairwise_cons.2 ⟨?_, ih _⟩
        intro x hx l hlid l' hlx
        obtain ⟨lx, hlx', hle⟩ := level?_of_mem_peaksAfter hx
        obtain rfl := Option.some.inj (hl.symm.trans hlid)
        obtain rfl := Option.some.inj (hlx'.symm.trans hlx)
        exact hle level List.mem_cons_self
      · exact ih _

/-! ### Scans of built documents -/

section Holds
variable {root : Block} {f : Forest Block} (h : d.Holds root f)
include h

/-- What is inside a container is what a scan of its children finds, however deep it lies. -/
theorem Holds.scanInside_eq (o : OutlineOptions) (hid : id < d.size) :
    d.scanInside o d.size id = d.scan o none (d.children id) := by
  obtain ⟨g, hg⟩ := h.exists_below hid
  have hsize := hg.size_lt
  obtain ⟨depth, hdepth⟩ : ∃ k, d.size = k + 1 := ⟨d.size - 1, by omega⟩
  have hscan := h.ordered.scan_heads hg.stands o none (Nat.le_of_lt hsize)
  have hinside := h.ordered.scanChain_heads hg.stands o none none depth (by omega)
  rw [hg.children, hscan, ← hinside, hdepth, scanInside, hg.children]

theorem Holds.scan_eq_peaks (o : OutlineOptions) (bound? : Option UInt8) (ids : List NodeId) :
    d.scan o bound? ids =
      ((d.beforeHeading (d.upTo bound? ids)).filter d.isContainer).flatMap
          (fun id => d.scan o none (d.children id)) ++
        (d.peaks (d.upTo bound? ids)).filter (d.isWithin o.maxLevel) := by
  have hinside : ∀ id ∈ (d.beforeHeading (d.upTo bound? ids)).filter d.isContainer,
      d.scanInside o d.size id = d.scan o none (d.children id) := by
    intro id hid
    exact h.scanInside_eq o (lt_size_of_isContainer (List.mem_filter.1 hid).2)
  rw [scan, scanChain_eq, List.flatMap_def, List.map_congr_left hinside, ← List.flatMap_def]

end Holds

/-- What the scans of a document find, whatever nodes they look at in turn. -/
structure ScansPeaks (d : Document) (o : OutlineOptions) : Prop where
  /-- What is inside the containers before the first heading, and then the peaks that are
  shown, of the chain up to where the bound ends it. -/
  scan_eq : ∀ bound? ids, d.scan o bound? ids =
    ((d.beforeHeading (d.upTo bound? ids)).filter d.isContainer).flatMap
        (fun id => d.scan o none (d.children id)) ++
      (d.peaks (d.upTo bound? ids)).filter (d.isWithin o.maxLevel)
  /-- The headings of the chain itself come from deep to broad. -/
  levels : ∀ bound? ids, (((d.peaks (d.upTo bound? ids)).filter (d.isWithin o.maxLevel)).filterMap
    d.level?).Pairwise (· ≥ ·)
  /-- Nothing counts from the heading on that ends the scan. -/
  ends : ∀ bound stop, d.endsScope bound stop = true → ∀ before after,
    d.scan o (some bound) (before ++ stop :: after) = d.scan o (some bound) before
  /-- After a heading, shown or not, nothing counts but headings. -/
  headingsAfter : ∀ bound? heading, d.isHeading heading = true → ∀ before after,
    d.scan o bound? (before ++ heading :: after) =
      d.scan o bound? (before ++ heading :: after.filter d.isHeading)

/-- In a built document every scan finds the peaks of its chain, after what the containers
before its first heading hold. -/
theorem scansPeaks_build (root : Block) (steps : List Step) (o : OutlineOptions) :
    (build root steps).ScansPeaks o := by
  have h := holds_build root steps
  refine ⟨h.scan_eq_peaks o, ?_, ?_, ?_⟩
  · intro bound? ids
    rw [List.pairwise_filterMap]
    exact (pairwise_level?_peaksAfter [] _).sublist List.filter_sublist
  · intro bound stop hstop before after
    rw [h.scan_eq_peaks, h.scan_eq_peaks, upTo_append_of_endsScope hstop]
  · intro bound? heading hheading before after
    exact scanChain_after_heading hheading none before after

/-- A deeper heading is no peak, and one that the limit hides is not shown but still counts. -/
example :
    (build { kind := .document } [.leaf { kind := .header 3 }, .leaf { kind := .header 2 },
      .leaf { kind := .header 3 }, .leaf { kind := .header 2 }, .leaf { kind := .header 1 }]).scan
        { maxLevel := 2 } none [1, 2, 3, 4, 5] = [2, 4, 5] := by
  decide

end DocOutline.Document
