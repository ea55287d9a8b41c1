import DocOutline.Proofs.Spelling

/-! What paths lead to.

Following a path goes from directory to directory, and `Reaches` says each way to go on;
it holds exactly of what a path leads to (`follow_eq_ok_iff`), so that facts about paths
are shown by going through these ways. Pieces that take no step may be left out
(`Reaches.of_skips`). What a path leads to below a directory is decided in that directory
alone (`Reaches.append`). In a proper file system, each file below a directory is where
its names lead to (`follow_hasFile`), so that every document that is found stands at a
file (`atFile_of_stands`), and a given path finds it in one spelling
(`Stands.eq_of_same`). -/
namespace DocOutline

/-! ### Proper directories -/

namespace Directory

/-- Whether the items of a directory, and of those below it, have names that are not too
long, and no two in one directory have the same. -/
def Proper : Directory → Prop
  | .nil => True
  | .cons item below after =>
    Path.IsName item.name ∧ item.name.bytes.length ≤ FileSystem.maxName ∧
      (∀ branch ∈ after.branches, branch.label.name ≠ item.name) ∧ Proper below ∧ Proper after

variable {d : Directory} {branch : Branch Item} {name : RawText}

theorem mem_of_find? (h : d.find? name = some branch) :
    branch ∈ d.branches ∧ branch.label.name = name := by
  induction d with
  | nil => cases h
  | cons item below after _ iha =>
    rw [find?] at h
    split at h
    · cases h
      exact ⟨List.mem_cons_self, ‹_›⟩
    · exact ⟨List.mem_cons_of_mem _ (iha h).1, (iha h).2⟩

theorem Proper.of_mem (hd : d.Proper) (h : branch ∈ d.branches) :
    Path.IsName branch.label.name ∧ branch.label.name.bytes.length ≤ FileSystem.maxName ∧
      Proper branch.below := by
  induction d with
  | nil => exact absurd h List.not_mem_nil
  | cons item below after _ iha =>
    obtain ⟨hname, hlen, -, hbelow, hafter⟩ := hd
    rcases List.mem_cons.1 h with rfl | h
    · exact ⟨hname, hlen, hbelow⟩
    · exact iha hafter h

theorem Proper.find?_eq (hd : d.Proper) (h : branch ∈ d.branches) :
    d.find? branch.label.name = some branch := by
  induction d with
  | nil => exact absurd h List.not_mem_nil
  | cons item below after _ iha =>
    obtain ⟨-, -, hne, -, hafter⟩ := hd
    rw [find?]
    rcases List.mem_cons.1 h with rfl | h
    · exact if_pos rfl
    · rw [if_neg fun heq => hne branch h heq.symm]
      exact iha hafter h

/-- On the way to a file there are names only. -/
theorem HasFile.isName {names : List RawText} (h : d.HasFile names) (hd : d.Proper) :
    ∀ name ∈ names, Path.IsName name ∧ name.bytes.length ≤ FileSystem.maxName := by
  induction h with
  | file hmem =>
    obtain ⟨hname, hlen, -⟩ := hd.of_mem hmem
    simpa using ⟨hname, hlen⟩
  | directory hmem _ ih =>
    obtain ⟨hname, hlen, hbelow⟩ := hd.of_mem hmem
    exact List.forall_mem_cons.2 ⟨⟨hname, hlen⟩, ih hbelow⟩

end Directory

namespace FileSystem

/-! ### The ways to follow a path -/

/-- Whether a piece may be the name of an item. -/
def Naming (piece : RawText) : Prop :=
  Path.stepping piece = true ∧ piece ≠ Path.parent ∧ piece.bytes.length ≤ maxName

/-- What the pieces lead to over at most `links` links, from the innermost directory of
`trail` on. -/
inductive Reaches (top : Directory) : Nat → List Directory → List RawText → Target → Prop where
  | done {links : Nat} {trail : List Directory} :
      Reaches top links trail [] (.directory (trail.headD top))
  | stay {links : Nat} {trail : List Directory} {piece : RawText} {rest : List RawText}
      {target : Target} (h : Path.stepping piece = false)
      (hr : Reaches top links trail rest target) :
      Reaches top links trail (piece :: rest) target
  | up {links : Nat} {trail : List Directory} {rest : List RawText} {target : Target}
      (hr : Reaches top links trail.tail rest target) :
      Reaches top links trail (Path.parent :: rest) target
  | enter {links : Nat} {trail : List Directory} {piece name : RawText} {items : Directory}
      {rest : List RawText} {target : Target} (h : Naming piece)
      (hf : (trail.headD top).find? piece = some ⟨⟨name, .directory⟩, items⟩)
      (hr : Reaches top links (items :: trail) rest target) :
      Reaches top links trail (piece :: rest) target
  | file {links : Nat} {trail : List Directory} {piece name : RawText} {bytes : ByteArray}
      {below : Directory} (h : Naming piece)
      (hf : (trail.headD top).find? piece = some ⟨⟨name, .file bytes⟩, below⟩) :
      Reaches top links trail [piece] (.file bytes)
  | link {links : Nat} {trail : List Directory} {piece name aim : RawText} {below : Directory}
      {rest : List RawText} {target : Target} (h : Naming piece)
      (hf : (trail.headD top).find? piece = some ⟨⟨name, .link aim⟩, below⟩)
      (hr : Reaches top links (if aim.bytes.head? = some Path.slash then [] else trail)
        (Path.piecesOf aim ++ rest) target) :
      Reaches top (links + 1) trail (piece :: rest) target

variable {top : Directory} {links : Nat} {trail : List Directory} {pieces : List RawText}
  {target : Target}

theorem naming_iff {piece : RawText} :
    Naming piece ↔ ¬ (piece.bytes = [] ∨ piece = Path.current) ∧ piece ≠ Path.parent ∧
      ¬ maxName < piece.bytes.length := by
  rw [Naming, ← Path.stepping_eq_false_iff, Bool.not_eq_false, Nat.not_lt]

section Equations
variable {piece name : RawText} {rest : List RawText} {below : Directory}

theorem follow_stay (h : Path.stepping piece = false) :
    follow top links trail (piece :: rest) = follow top links trail rest := by
  rw [follow, if_pos (Path.stepping_eq_false_iff.1 h)]

theorem follow_up :
    follow top links trail (Path.parent :: rest) = follow top links trail.tail rest := by
  rw [follow, if_neg (by decide), if_pos rfl]

theorem follow_enter (h : Naming piece)
    (hf : (trail.headD top).find? piece = some ⟨⟨name, .directory⟩, below⟩) :
    follow top links trail (piece :: rest) = follow top links (below :: trail) rest := by
  obtain ⟨hblank, hup, hlen⟩ := naming_iff.1 h
  rw [follow, if_neg hblank, if_neg hup, if_neg hlen, hf]

theorem follow_file {bytes : ByteArray} (h : Naming piece)
    (hf : (trail.headD top).find? piece = some ⟨⟨name, .file bytes⟩, below⟩) :
    follow top links trail [piece] = .ok (.file bytes) := by
  obtain ⟨hblank, hup, hlen⟩ := naming_iff.1 h
  rw [follow, if_neg hblank, if_neg hup, if_neg hlen, hf]
  rfl

theorem follow_link {aim : RawText} (h : Naming piece)
    (hf : (trail.headD top).find? piece = some ⟨⟨name, .link aim⟩, below⟩) :
    follow top (links + 1) trail (piece :: rest) =
      follow top links (if aim.bytes.head? = some Path.slash then [] else trail)
        (Path.piecesOf aim ++ rest) := by
  obtain ⟨hblank, hup, hlen⟩ := naming_iff.1 h
  rw [follow, if_neg hblank, if_neg hup, if_neg hlen, hf]

theorem follow_missing (h : Naming piece) (hf : (trail.headD top).find? piece = none) :
    follow top links trail (piece :: rest) = .error .notFound := by
  obtain ⟨hblank, hup, hlen⟩ := naming_iff.1 h
  rw [follow, if_neg hblank, if_neg hup, if_neg hlen, hf]

end Equations

/-- Following a path leads where these ways go, and nowhere else. -/
theorem follow_eq_ok_iff : follow top links trail pieces = .ok target ↔
    Reaches top links trail pieces target := by
  constructor
  · intro h
    fun_induction follow top links trail pieces with
    | case1 => cases h; exact .done
    | case2 _ _ _ _ hblank ih => exact .stay (Path.stepping_eq_false_iff.2 hblank) (ih h)
    | case3 _ _ _ _ ih => exact .up (ih h)
    | case6 _ _ _ _ hblank hup hlen _ _ hfind ih =>
      exact .enter (naming_iff.2 ⟨hblank, hup, hlen⟩) hfind (ih h)
    | case7 _ _ _ rest hblank hup hlen _ _ _ hfind hrest =>
      cases h
      obtain rfl := List.isEmpty_iff.1 hrest
      exact .file (naming_iff.2 ⟨hblank, hup, hlen⟩) hfind
    | case10 _ _ _ hblank hup hlen _ _ _ hfind _ ih =>
      exact .link (naming_iff.2 ⟨hblank, hup, hlen⟩) hfind (ih h)
    -- In the other cases something goes wrong.
    | case4 | case5 | case8 | case9 => cases h
  · intro h
    induction h with
    | done => rw [follow]
    | stay hblank _ ih => rw [follow_stay hblank, ih]
    | up _ ih => rw [follow_up, ih]
    | enter hname hfind _ ih => rw [follow_enter hname hfind, ih]
    | file hname hfind => exact follow_file hname hfind
    | link hname hfind _ ih => rw [follow_link hname hfind, ih]

theorem headD_proper (htop : top.Proper) (htrail : ∀ d ∈ trail, Directory.Proper d) :
    Directory.Proper (trail.headD top) := by
  cases trail with
  | nil => exact htop
  | cons d trail => exact htrail d List.mem_cons_self

/-- From proper directories one comes to proper directories. -/
theorem Reaches.proper {items : Directory} (h : Reaches top links trail pieces (.directory items))
    (htop : top.Proper) (htrail : ∀ d ∈ trail, Directory.Proper d) : items.Proper := by
  generalize htarget : Target.directory items = target at h
  induction h with
  | done =>
    cases htarget
    exact headD_proper htop htrail
  | stay _ _ ih => exact ih htrail htarget
  | up _ ih => exact ih (fun d hd => htrail d (List.mem_of_mem_tail hd)) htarget
  | enter _ hfind _ ih =>
    have hhead := headD_proper htop htrail
    have hbelow := (hhead.of_mem (Directory.mem_of_find? hfind).1).2.2
    exact ih (List.forall_mem_cons.2 ⟨hbelow, htrail⟩) htarget
  | file => cases htarget
  | link _ _ _ ih =>
    refine ih ?_ htarget
    split
    · exact fun d hd => absurd hd List.not_mem_nil
    · exact htrail

/-! ### Leaving out pieces -/

/-- Whether a list of pieces is another one without some pieces that take no step. -/
inductive Skips : List RawText → List RawText → Prop where
  | nil : Skips [] []
  | skip {piece : RawText} {long short : List RawText} (h : Path.stepping piece = false)
      (hr : Skips long short) : Skips (piece :: long) short
  | keep {piece : RawText} {long short : List RawText} (hr : Skips long short) :
      Skips (piece :: long) (piece :: short)

theorem Skips.append_left {long short : List RawText} (h : Skips long short)
    (front : List RawText) : Skips (front ++ long) (front ++ short) := by
  induction front with
  | nil => exact h
  | cons piece front ih => exact .keep ih

theorem skips_filter (pieces : List RawText) : Skips pieces (pieces.filter Path.stepping) := by
  induction pieces with
  | nil => exact .nil
  | cons piece pieces ih =>
    cases hp : Path.stepping piece with
    | false =>
      simpa only [List.filter_cons, hp, Bool.false_eq_true, if_false] using Skips.skip hp ih
    | true => simpa only [List.filter_cons, hp, if_true] using Skips.keep ih

/-- What takes no step is not needed to come to where a path leads. -/
theorem Reaches.of_skips (h : Reaches top links trail pieces target) {short : List RawText}
    (hs : Skips pieces short) : Reaches top links trail short target := by
  induction h generalizing short with
  | done => cases hs; exact .done
  | stay hblank _ ih =>
    cases hs with
    | skip _ hr => exact ih hr
    | keep hr => exact .stay hblank (ih hr)
  | up _ ih =>
    cases hs with
    | skip h => cases h
    | keep hr => exact .up (ih hr)
  | enter hname hfind _ ih =>
    cases hs with
    | skip h => simp [hname.1] at h
    | keep hr => exact .enter hname hfind (ih hr)
  | file hname hfind =>
    cases hs with
    | skip h => simp [hname.1] at h
    | keep hr => cases hr; exact .file hname hfind
  | link hname hfind _ ih =>
    cases hs with
    | skip h => simp [hname.1] at h
    | keep hr => exact .link hname hfind (ih (hr.append_left _))

/-! ### Below a directory -/

/-- Where a path leads to a directory, a longer path goes on from there. -/
theorem Reaches.append {items : Directory} (h : Reaches top links trail pieces (.directory items)) :
    ∃ links' trail', trail'.headD top = items ∧ ∀ more,
      follow top links trail (pieces ++ more) = follow top links' trail' more := by
  generalize htarget : Target.directory items = target at h
  induction h with
  | done =>
    cases htarget
    exact ⟨_, _, rfl, fun _ => rfl⟩
  | stay hblank _ ih =>
    obtain ⟨links', trail', hitems, hmore⟩ := ih htarget
    exact ⟨links', trail', hitems, fun more => by rw [List.cons_append, follow_stay hblank, hmore]⟩
  | up _ ih =>
    obtain ⟨links', trail', hitems, hmore⟩ := ih htarget
    exact ⟨links', trail', hitems, fun more => by rw [List.cons_append, follow_up, hmore]⟩
  | enter hname hfind _ ih =>
    obtain ⟨links', trail', hitems, hmore⟩ := ih htarget
    exact ⟨links', trail', hitems, fun more => by
      rw [List.cons_append, follow_enter hname hfind, hmore]⟩
  | file => cases htarget
  | link hname hfind _ ih =>
    obtain ⟨links', trail', hitems, hmore⟩ := ih htarget
    exact ⟨links', trail', hitems, fun more => by
      rw [List.cons_append, follow_link hname hfind, ← List.append_assoc, hmore]⟩

theorem naming_of_visible {name : RawText} (h : Path.IsName name)
    (hlen : name.bytes.length ≤ maxName) (hv : ¬ Path.Hidden name) : Naming name :=
  ⟨Path.stepping_of_visible h hv, Path.ne_parent_of_visible hv, hlen⟩

/-- A file below a directory is where its names lead to. -/
theorem follow_hasFile (links : Nat) {items : Directory} {names : List RawText}
    (hitems : trail.headD top = items) (hf : items.HasFile names) (hp : items.Proper)
    (hv : ∀ name ∈ names, ¬ Path.Hidden name) :
    ∃ bytes, follow top links trail names = .ok (.file bytes) := by
  induction hf generalizing trail with
  | file hmem =>
    obtain ⟨hname, hlen, -⟩ := hp.of_mem hmem
    have hfind := hp.find?_eq hmem
    rw [← hitems] at hfind
    exact ⟨_, follow_file (naming_of_visible hname hlen (hv _ List.mem_cons_self)) hfind⟩
  | directory hmem _ ih =>
    obtain ⟨hname, hlen, hbelow⟩ := hp.of_mem hmem
    rw [List.forall_mem_cons] at hv
    have hfind := hp.find?_eq hmem
    rw [← hitems] at hfind
    rw [follow_enter (naming_of_visible hname hlen hv.1) hfind]
    exact ih rfl hbelow hv.2

/-! ### Resolving -/

variable {fs : FileSystem} {path : RawText}

theorem resolve_eq_ok_iff : fs.resolve path = .ok target ↔
    0 ∉ path.bytes ∧ path.bytes ≠ [] ∧ path.bytes.length ≤ maxPath ∧
      Reaches fs maxLinks [] (Path.piecesOf path) target := by
  rw [resolve, ← follow_eq_ok_iff]
  by_cases hnul : 0 ∈ path.bytes
  · simp [hnul]
  by_cases hempty : path.bytes = []
  · simp [hempty]
  by_cases hlen : maxPath < path.bytes.length
  · simp [hnul, hempty, hlen, Nat.not_le.2 hlen]
  · simp [hnul, hempty, hlen, Nat.not_lt.1 hlen]

/-- The working directory is what a single dot leads to. -/
theorem resolve_current (fs : FileSystem) : fs.resolve Path.current = .ok (.directory fs) := by
  refine resolve_eq_ok_iff.2 ⟨by decide, by decide, by decide, ?_⟩
  have hpieces : Path.piecesOf Path.current = [Path.current] := by decide
  rw [hpieces]
  exact .stay rfl .done

/-- A path is decided by the steps it takes, if it is not cut short for its length. -/
theorem reaches_steps_of_resolve (h : fs.resolve path = .ok target) :
    Reaches fs maxLinks [] (Path.steps path) target :=
  (resolve_eq_ok_iff.1 h).2.2.2.of_skips (skips_filter _)

theorem proper_of_resolve {items : Directory} (hfs : fs.Proper)
    (h : fs.resolve path = .ok (.directory items)) : items.Proper :=
  (resolve_eq_ok_iff.1 h).2.2.2.proper hfs fun _ hd => absurd hd List.not_mem_nil

/-- Whether the steps of a path lead to a file, however long the path is. -/
def AtFile (fs : FileSystem) (path : RawText) : Prop :=
  ∃ bytes, Reaches fs maxLinks [] (Path.steps path) (.file bytes)

instance (fs : FileSystem) (path : RawText) : Decidable (fs.AtFile path) :=
  match h : follow fs maxLinks [] (Path.steps path) with
  | .ok (.file bytes) => .isTrue ⟨bytes, follow_eq_ok_iff.1 h⟩
  | .ok (.directory _) => .isFalse fun ⟨_, hr⟩ => by
      rw [follow_eq_ok_iff.2 hr] at h
      cases h
  | .error _ => .isFalse fun ⟨_, hr⟩ => by
      rw [follow_eq_ok_iff.2 hr] at h
      cases h

theorem atFile_congr {a b : RawText} (h : Path.same a b = true) : AtFile fs a ↔ AtFile fs b := by
  rw [AtFile, AtFile, Path.steps_eq_of_same h]

theorem atFile_of_isFile (h : fs.isFile path = true) : fs.AtFile path := by
  rw [isFile] at h
  split at h
  next bytes hr => exact ⟨bytes, reaches_steps_of_resolve hr⟩
  next => cases h

end FileSystem

namespace Discovery
variable {fs : FileSystem} {wanted : List String} {path document other : RawText}

/-- The names from a given path down to a document are names, and none is hidden. -/
theorem names_of_wanted {items : Directory} {names : List RawText} (hfs : fs.Proper)
    (h : fs.resolve path = .ok (.directory items)) (hf : items.HasFile names)
    (hw : Wanted Path.Hidden wanted names) :
    (∀ name ∈ names, Path.IsName name) ∧ ∀ name ∈ names, ¬ Path.Hidden name :=
  ⟨fun name hname => (hf.isName (FileSystem.proper_of_resolve hfs h) name hname).1, hw.1⟩

/-- Every document that is found stands at a file. -/
theorem atFile_of_stands (hfs : fs.Proper) (h : Stands Path.Hidden fs wanted path document) :
    fs.AtFile document := by
  cases h with
  | itself h => exact ⟨_, FileSystem.reaches_steps_of_resolve h⟩
  | below h hf hw =>
    obtain ⟨hnames, hvisible⟩ := names_of_wanted hfs h hf hw
    obtain ⟨links, trail, hitems, hmore⟩ := (FileSystem.reaches_steps_of_resolve h).append
    obtain ⟨bytes, hbytes⟩ :=
      FileSystem.follow_hasFile links hitems hf (FileSystem.proper_of_resolve hfs h) hvisible
    refine ⟨bytes, FileSystem.follow_eq_ok_iff.1 ?_⟩
    rw [steps_joinAll hnames hvisible, hmore, hbytes]

/-- A given path finds a document in one spelling only. -/
theorem Stands.eq_of_same (hfs : fs.Proper) (h : Stands Path.Hidden fs wanted path document)
    (ho : Stands Path.Hidden fs wanted path other) (hsame : Path.same document other = true) :
    document = other := by
  cases h with
  | itself h =>
    cases ho with
    | itself => rfl
    | below ho => rw [h] at ho; cases ho
  | below h hf hw =>
    cases ho with
    | itself ho => rw [h] at ho; cases ho
    | below ho hfo hwo =>
      rw [h] at ho
      cases ho
      have hpath := (FileSystem.resolve_eq_ok_iff.1 h).2.1
      obtain ⟨hnames, hvisible⟩ := names_of_wanted hfs h hf hw
      obtain ⟨hnames', hvisible'⟩ := names_of_wanted hfs h hfo hwo
      rw [Path.same_iff, components_joinAll hnames hvisible hpath,
        components_joinAll hnames' hvisible' hpath, List.append_cancel_left_eq] at hsame
      rw [List.map_injective_iff.2 (fun a b hab => Component.name.inj hab) hsame]

end Discovery

end DocOutline
