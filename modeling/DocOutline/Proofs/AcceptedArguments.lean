import DocOutline.CommandLine.Arguments

/-! What every accepted command line has.

Arguments are read one at a time: a path is added, an option gets its value, or a
flag is set. What each of these keeps, an accepted command line has
(`Kept.of_parseFrom`). So a level that is asked for is one that headings have
(`levelInRange_of_parse`), and the limit of the outlines is that level, or else the
configured one brought into the range of levels (`maxLevel_override`). -/
namespace DocOutline.Arguments

/-- A property that the arguments have after each step of reading them if they had
it before. -/
structure Kept (P : Arguments → Prop) : Prop where
  addPath : ∀ {a b : Arguments} {path : RawText}, a.addPath path = .ok b → P a → P b
  set : ∀ {a b : Arguments} {switch : Switch} {value : String},
    a.set switch value = .ok b → P a → P b
  enable : ∀ {a b : Arguments} {switch : Switch}, a.enable switch = .ok b → P a → P b

theorem bind_eq_ok {ε α β : Type} {x : Except ε α} {f : α → Except ε β} {b : β} :
    x >>= f = .ok b ↔ ∃ a, x = .ok a ∧ f a = .ok b := by
  cases x <;> simp [bind, Except.bind]

/-- A path is added, and the arguments after it are read. -/
theorem parseFrom_cons_of_path {a : Arguments} {path : RawText} {rest : List RawText}
    (h : Token.ofArgument path = .path) (hne : path.bytes ≠ []) :
    a.parseFrom (path :: rest) = { a with paths := a.paths ++ [path] }.parseFrom rest := by
  simp [parseFrom, h, addPath, hne, bind, Except.bind]

section Kept
variable {P : Arguments → Prop} (hP : Kept P)
include hP

theorem Kept.of_addPaths {a b : Arguments} {paths : List RawText} (h : a.addPaths paths = .ok b)
    (ha : P a) : P b := by
  induction paths generalizing a with
  | nil => exact Except.ok.inj h ▸ ha
  | cons path paths ih =>
    obtain ⟨next, hnext, hrest⟩ := bind_eq_ok.1 h
    exact ih hrest (hP.addPath hnext ha)

theorem Kept.of_parseFrom {a b : Arguments} {arguments : List RawText}
    (h : a.parseFrom arguments = .ok (.outline b)) (ha : P a) : P b := by
  fun_induction Arguments.parseFrom a arguments with
  | case1 a => cases h; exact ha
  | case2 a argument rest =>
    cases hpaths : a.addPaths rest with
    | error e => rw [hpaths] at h; cases h
    | ok last => rw [hpaths] at h; cases h; exact hP.of_addPaths hpaths ha
  | case5 a argument rest _ ih =>
    obtain ⟨next, hnext, hrest⟩ := bind_eq_ok.1 h
    exact ih next hrest (hP.addPath hnext ha)
  | case6 a argument rest switch value _ ih =>
    obtain ⟨next, hnext, hrest⟩ := bind_eq_ok.1 h
    exact ih next hrest (hP.set hnext ha)
  | case10 a argument switch _ _ _ value rest _ text _ ih =>
    obtain ⟨next, hnext, hrest⟩ := bind_eq_ok.1 h
    exact ih next hrest (hP.set hnext ha)
  | case12 a argument rest switch _ _ _ ih =>
    obtain ⟨next, hnext, hrest⟩ := bind_eq_ok.1 h
    exact ih next hrest (hP.enable hnext ha)
  -- Help and what is not accepted make no arguments.
  | case3 | case4 | case7 | case8 | case9 | case11 => cases h

end Kept

/-- The level that is asked for, if any, is one that headings have. -/
def LevelInRange (a : Arguments) : Prop :=
  ∀ level ∈ a.maxLevel?, 1 ≤ level ∧ level ≤ maxHeaderLevel

theorem levelOf?_bounds {text : String} {level : UInt8} (h : levelOf? text = some level) :
    1 ≤ level ∧ level ≤ maxHeaderLevel := by
  unfold levelOf? at h
  extract_lets digits n at h
  split at h
  · cases h
  · split at h
    · rename_i hn
      cases h
      rw [UInt8.le_iff_toNat_le, UInt8.le_iff_toNat_le, Nat.toUInt8, UInt8.toNat_ofNat']
      simp only [maxHeaderLevel, UInt8.reduceToNat]
      omega
    · cases h

theorem kept_levelInRange : Kept LevelInRange where
  addPath {a b path} h ha := by
    unfold Arguments.addPath at h
    split at h <;> cases h
    exact ha
  set {a b switch value} h ha := by
    cases switch with
    | ext => cases h; exact ha
    | maxLevel =>
      simp only [Arguments.set] at h
      split at h
      · cases h
      · split at h
        · rename_i level hlevel
          cases h
          intro l hl
          obtain rfl := Option.some.inj hl
          exact levelOf?_bounds hlevel
        · cases h
    | filter =>
      simp only [Arguments.set] at h
      split at h <;> cases h
      exact ha
    | sort | json | help => cases h
  enable {a b switch} h ha := by
    cases switch with
    | sort | json =>
      simp only [Arguments.enable] at h
      split at h <;> cases h
      exact ha
    | ext | maxLevel | filter | help => cases h

theorem levelInRange_of_parse {arguments : List RawText} {a : Arguments}
    (h : parse arguments = .ok (.outline a)) : a.LevelInRange := by
  apply kept_levelInRange.of_parseFrom h
  intro level hlevel
  cases hlevel

/-- The limit of an outline is the configured one, brought into the range of levels. -/
theorem maxLevel_outlineOptions (c : Config) :
    c.outlineOptions.maxLevel = max 1 (min maxHeaderLevel c.maxLevel) := by
  unfold Config.outlineOptions
  show _ = if 1 ≤ (if maxHeaderLevel ≤ c.maxLevel then maxHeaderLevel else c.maxLevel) then
    (if maxHeaderLevel ≤ c.maxLevel then maxHeaderLevel else c.maxLevel) else 1
  grind [maxHeaderLevel]

/-- A limit that is asked for stands in place of the configured one. -/
theorem maxLevel_override {a : Arguments} (h : a.LevelInRange) (c : Config) :
    (a.override c).outlineOptions.maxLevel =
      a.maxLevel?.getD (max 1 (min maxHeaderLevel c.maxLevel)) := by
  rw [← maxLevel_outlineOptions]
  cases hl : a.maxLevel? with
  | none => simp [Arguments.override, Config.outlineOptions, hl]
  | some level =>
    obtain ⟨hlow, hhigh⟩ := h level hl
    have hlow' : ¬ level < 1 := UInt8.not_lt.2 hlow
    have hhigh' : ¬ maxHeaderLevel < level := UInt8.not_lt.2 hhigh
    simp only [Arguments.override, Config.outlineOptions, hl, Option.getD_some, if_neg hlow',
      if_neg hhigh']

end DocOutline.Arguments
