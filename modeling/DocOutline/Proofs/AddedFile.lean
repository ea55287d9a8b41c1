import DocOutline.Proofs.Documents

/-! A file system with one file more.

Where the file is added, a name leads to it that led nowhere before; every other name
leads where it led, to a directory that has perhaps the file below it (`Grown.find?`). So
a path that leads somewhere still leads there (`Reaches.grown`), and one that leads
somewhere only now leads to the file (`Reaches.of_grown`). A search takes what it took,
in the same order, and at one place in between the file if its names are wanted
(`Adds.search`). What it took stands at files of the file system before, and the file does
not (`not_atFile_of_discovers`), so that the documents found before are those found now
that stand at a file of the file system before (`filter_taken`). -/
namespace DocOutline

/-! ### Directories -/

namespace Directory

/-- Whether a directory has one file more than another, at a path of names over
directories that both have. -/
inductive Adds (bytes : ByteArray) : List RawText → Directory → Directory → Prop where
  | here {name : RawText} {d : Directory} :
      Adds bytes [name] d (.cons ⟨name, .file bytes⟩ .nil d)
  | inside {name : RawText} {names : List RawText} {d d' after : Directory}
      (h : Adds bytes names d d') :
      Adds bytes (name :: names) (.cons ⟨name, .directory⟩ d after)
        (.cons ⟨name, .directory⟩ d' after)
  | past {names : List RawText} {item : Item} {below d d' : Directory} (h : Adds bytes names d d') :
      Adds bytes names (.cons item below d) (.cons item below d')

variable {bytes : ByteArray} {name other path : RawText} {names more : List RawText}
  {d d' : Directory}

theorem Adds.ne_nil (h : Adds bytes names d d') : names ≠ [] := by
  induction h with
  | here => exact List.cons_ne_nil _ _
  | inside => exact List.cons_ne_nil _ _
  | past _ ih => exact ih

/-- All items but those on the way to the file are as they were. -/
theorem Adds.mem_of_mem (h : Adds bytes names d d') {branch : Branch Item}
    (hb : branch ∈ d.branches) :
    ∃ branch' ∈ d'.branches, branch'.label = branch.label := by
  induction h with
  | here => exact ⟨branch, List.mem_cons_of_mem _ hb, rfl⟩
  | inside =>
    rcases List.mem_cons.1 hb with rfl | hb
    · exact ⟨_, List.mem_cons_self, rfl⟩
    · exact ⟨branch, List.mem_cons_of_mem _ hb, rfl⟩
  | past _ ih =>
    rcases List.mem_cons.1 hb with rfl | hb
    · exact ⟨_, List.mem_cons_self, rfl⟩
    · obtain ⟨branch', hb', hlabel⟩ := ih hb
      exact ⟨branch', List.mem_cons_of_mem _ hb', hlabel⟩

/-- A directory was proper before if it is with the file. -/
theorem Adds.proper (h : Adds bytes names d d') (hd : d'.Proper) : d.Proper := by
  induction h with
  | here => exact hd.2.2.2.2
  | inside _ ih =>
    obtain ⟨hname, hlen, hne, hbelow, hafter⟩ := hd
    exact ⟨hname, hlen, hne, ih hbelow, hafter⟩
  | past h ih =>
    obtain ⟨hname, hlen, hne, hbelow, hafter⟩ := hd
    refine ⟨hname, hlen, fun branch hb => ?_, hbelow, ih hafter⟩
    obtain ⟨branch', hb', hlabel⟩ := h.mem_of_mem hb
    exact hlabel ▸ hne branch' hb'

theorem find?_eq_none (h : ∀ branch ∈ d.branches, branch.label.name ≠ name) :
    d.find? name = none := by
  induction d with
  | nil => rfl
  | cons item below after _ iha =>
    rw [find?, if_neg (h ⟨item, below⟩ List.mem_cons_self)]
    exact iha fun branch hb => h branch (List.mem_cons_of_mem _ hb)

/-- Other names lead where they led. -/
theorem Adds.find?_of_ne (h : Adds bytes (name :: more) d d') (hne : name ≠ other) :
    d'.find? other = d.find? other := by
  generalize hnames : name :: more = names at h
  induction h with
  | here =>
    obtain ⟨rfl, -⟩ := List.cons.inj hnames
    rw [find?, if_neg hne]
  | inside =>
    obtain ⟨rfl, -⟩ := List.cons.inj hnames
    rw [find?, find?, if_neg hne, if_neg hne]
  | past _ ih => rw [find?, find?, ih hnames]

/-- The first name on the way leads to the new file, where it led nowhere, or to a
directory that has the file below it. -/
theorem Adds.find?_first (h : Adds bytes (name :: more) d d') (hd : d'.Proper) :
    (more = [] ∧ d.find? name = none ∧ d'.find? name = some ⟨⟨name, .file bytes⟩, .nil⟩) ∨
      ∃ below below', Adds bytes more below below' ∧
        d.find? name = some ⟨⟨name, .directory⟩, below⟩ ∧
          d'.find? name = some ⟨⟨name, .directory⟩, below'⟩ := by
  generalize hnames : name :: more = names at h
  induction h with
  | here =>
    obtain ⟨rfl, rfl⟩ := List.cons.inj hnames
    exact .inl ⟨rfl, find?_eq_none hd.2.2.1, if_pos rfl⟩
  | inside h =>
    obtain ⟨rfl, rfl⟩ := List.cons.inj hnames
    exact .inr ⟨_, _, h, if_pos rfl, if_pos rfl⟩
  | @past _ item _ _ d' _ ih =>
    obtain ⟨-, -, hne, -, hafter⟩ := hd
    have hskip (branch : Branch Item) (hfind : d'.find? name = some branch) : item.name ≠ name := by
      obtain ⟨hmem, hname⟩ := mem_of_find? hfind
      exact hname ▸ (hne branch hmem).symm
    rcases ih hafter hnames with ⟨hmore, hnone, hsome⟩ | ⟨below, below', hadds, hfind, hfind'⟩
    · refine .inl ⟨hmore, ?_, ?_⟩
      · rw [find?, if_neg (hskip _ hsome), hnone]
      · rw [find?, if_neg (hskip _ hsome), hsome]
    · refine .inr ⟨below, below', hadds, ?_, ?_⟩
      · rw [find?, if_neg (hskip _ hfind'), hfind]
      · rw [find?, if_neg (hskip _ hfind'), hfind']

/-- The files are those from before and the new one. -/
theorem Adds.hasFile_iff (h : Adds bytes names d d') (ns : List RawText) :
    d'.HasFile ns ↔ d.HasFile ns ∨ ns = names := by
  induction h generalizing ns with
  | here => simp [hasFile_cons, or_comm]
  | inside h ih =>
    simp only [hasFile_cons, ih, reduceCtorEq, exists_false, false_and, false_or, true_and]
    constructor
    · rintro (⟨more, rfl, h | rfl⟩ | h)
      · exact .inl (.inl ⟨more, rfl, h⟩)
      · exact .inr rfl
      · exact .inl (.inr h)
    · rintro ((⟨more, rfl, h⟩ | h) | rfl)
      · exact .inl ⟨more, rfl, .inl h⟩
      · exact .inr h
      · exact .inl ⟨_, rfl, .inr rfl⟩
  | past _ ih => simp only [hasFile_cons, ih, or_assoc]

/-- A search comes to the same directories. -/
theorem Adds.unopened (h : Adds bytes names d d') (path : RawText) :
    d'.unopened path = d.unopened path := by
  induction h generalizing path with
  | here => simp [Directory.unopened]
  | inside _ ih => simp only [Directory.unopened, ih]
  | past _ ih => simp only [Directory.unopened, ih]

/-- A search takes what it took, and at one place in between the new file, if its names
are wanted. -/
theorem Adds.search (h : Adds bytes names d d') (wanted : List String) (path : RawText) :
    ∃ before after, d.search wanted path = before ++ after ∧
      ((Discovery.Wanted Path.Hidden wanted names ∧
          d'.search wanted path = before ++ Discovery.joinAll path names :: after) ∨
        (¬ Discovery.Wanted Path.Hidden wanted names ∧
          d'.search wanted path = before ++ after)) := by
  induction h generalizing path with
  | @here name d =>
    refine ⟨[], d.search wanted path, rfl, ?_⟩
    rw [Discovery.wanted_singleton]
    rw [← Path.isHidden_eq_false_iff]
    by_cases hidden : Path.isHidden name = true
    · simp [Directory.search, hidden]
    · by_cases hext : Path.hasExtension name wanted = true
      · simp [Directory.search, hidden, hext, Discovery.joinAll]
      · simp [Directory.search, hidden, hext]
  | @inside name names d d' rest h ih =>
    rw [Discovery.wanted_cons h.ne_nil, ← Path.isHidden_eq_false_iff]
    by_cases hidden : Path.isHidden name = true
    · exact ⟨[], rest.search wanted path, by simp [Directory.search, hidden], .inr (by
        simp [Directory.search, hidden])⟩
    · obtain ⟨before, after, hsearch, hcases⟩ := ih (Path.join path name)
      refine ⟨before, after ++ rest.search wanted path, ?_, ?_⟩
      · simp [Directory.search, hidden, hsearch]
      · rcases hcases with ⟨hwanted, hsearch'⟩ | ⟨hwanted, hsearch'⟩
        · left
          simp [Directory.search, hidden, hwanted, hsearch', Discovery.joinAll]
        · right
          simp [Directory.search, hwanted, hidden, hsearch']
  | @past names item below d d' h ih =>
    obtain ⟨before, after, hsearch, hcases⟩ := ih path
    refine ⟨Directory.search wanted path (.cons item below .nil) ++ before, after, ?_, ?_⟩
    · simp [Directory.search, hsearch]
    · rcases hcases with ⟨hwanted, hsearch'⟩ | ⟨hwanted, hsearch'⟩
      · left
        simp [Directory.search, hwanted, hsearch']
      · right
        simp [Directory.search, hwanted, hsearch']

/-- Whether a proper directory is another one, or that with the file added somewhere. -/
def Grown (bytes : ByteArray) (d d' : Directory) : Prop :=
  d'.Proper ∧ (d' = d ∨ ∃ names, Adds bytes names d d')

/-- What a name leads to in a directory that may have the file more. -/
theorem Grown.find? (h : Grown bytes d d') (name : RawText) :
    (d.find? name = none ∧
        (d'.find? name = none ∨ d'.find? name = some ⟨⟨name, .file bytes⟩, .nil⟩)) ∨
      ∃ item below below', d.find? name = some ⟨item, below⟩ ∧
        d'.find? name = some ⟨item, below'⟩ ∧ Grown bytes below below' := by
  obtain ⟨hd, hadds⟩ := h
  have hsame : d'.find? name = d.find? name →
      (d.find? name = none ∧
          (d'.find? name = none ∨ d'.find? name = some ⟨⟨name, .file bytes⟩, .nil⟩)) ∨
        ∃ item below below', d.find? name = some ⟨item, below⟩ ∧
          d'.find? name = some ⟨item, below'⟩ ∧ Grown bytes below below' := by
    intro heq
    cases hfind : d.find? name with
    | none => exact .inl ⟨rfl, .inl (heq.trans hfind)⟩
    | some branch =>
      have hfind' := heq.trans hfind
      have hproper := (hd.of_mem (mem_of_find? hfind').1).2.2
      exact .inr ⟨branch.label, branch.below, branch.below, rfl, hfind', hproper, .inl rfl⟩
  rcases hadds with rfl | ⟨names, hadds⟩
  · exact hsame rfl
  · cases names with
    | nil => exact absurd rfl hadds.ne_nil
    | cons first more =>
      by_cases hname : first = name
      · subst hname
        rcases hadds.find?_first hd with ⟨-, hnone, hsome⟩ | ⟨below, below', hbelow, hfind, hfind'⟩
        · exact .inl ⟨hnone, .inr hsome⟩
        · have hproper := (hd.of_mem (mem_of_find? hfind').1).2.2
          exact .inr ⟨_, below, below', hfind, hfind', hproper, .inr ⟨more, hbelow⟩⟩
      · exact hsame (hadds.find?_of_ne hname)

theorem Grown.find?_grown (h : Grown bytes d d') {item : Item} {below : Directory}
    (hfind : d.find? name = some ⟨item, below⟩) :
    ∃ below', d'.find? name = some ⟨item, below'⟩ ∧ Grown bytes below below' := by
  rcases h.find? name with ⟨hnone, -⟩ | ⟨item', _, below', hsome, hfind', hbelow⟩
  · rw [hnone] at hfind
    cases hfind
  · rw [hsome] at hfind
    cases hfind
    exact ⟨below', hfind', hbelow⟩

theorem Grown.find?_of_grown (h : Grown bytes d d') {item : Item} {below' : Directory}
    (hfind' : d'.find? name = some ⟨item, below'⟩) :
    item = ⟨name, .file bytes⟩ ∨
      ∃ below, d.find? name = some ⟨item, below⟩ ∧ Grown bytes below below' := by
  rcases h.find? name with ⟨-, hnone | hnew⟩ | ⟨_, below, _, hfind, hsome, hbelow⟩
  · rw [hnone] at hfind'
    cases hfind'
  · rw [hnew] at hfind'
    cases hfind'
    exact .inl rfl
  · rw [hsome] at hfind'
    cases hfind'
    exact .inr ⟨below, hfind, hbelow⟩

end Directory

/-! ### Paths -/

/-- Whether a target is another one, or a directory that has the file more. -/
inductive Target.Grown (bytes : ByteArray) : Target → Target → Prop where
  | file (content : ByteArray) : Target.Grown bytes (.file content) (.file content)
  | directory {items items' : Directory} (h : Directory.Grown bytes items items') :
      Target.Grown bytes (.directory items) (.directory items')

namespace FileSystem
open Directory (Grown Adds)

variable {bytes : ByteArray} {top top' : Directory} {links : Nat} {trail trail' : List Directory}
  {pieces : List RawText} {target target' : Target}

theorem grown_headD (htop : Grown bytes top top')
    (htrail : List.Forall₂ (Grown bytes) trail trail') :
    Grown bytes (trail.headD top) (trail'.headD top') := by
  cases htrail with
  | nil => exact htop
  | cons h _ => exact h

theorem forall₂_tail (htrail : List.Forall₂ (Grown bytes) trail trail') :
    List.Forall₂ (Grown bytes) trail.tail trail'.tail := by
  cases htrail with
  | nil => exact .nil
  | cons _ h => exact h

theorem forall₂_restart (htrail : List.Forall₂ (Grown bytes) trail trail') (aim : RawText) :
    List.Forall₂ (Grown bytes) (if aim.bytes.head? = some Path.slash then [] else trail)
      (if aim.bytes.head? = some Path.slash then [] else trail') := by
  split
  · exact .nil
  · exact htrail

/-- What a path leads to, it still leads to. -/
theorem Reaches.grown (h : Reaches top links trail pieces target) (htop : Grown bytes top top')
    (htrail : List.Forall₂ (Grown bytes) trail trail') :
    ∃ target', Reaches top' links trail' pieces target' ∧ Target.Grown bytes target target' := by
  induction h generalizing trail' with
  | done => exact ⟨_, .done, .directory (grown_headD htop htrail)⟩
  | stay hblank _ ih =>
    obtain ⟨target', hr, hgrown⟩ := ih htrail
    exact ⟨target', .stay hblank hr, hgrown⟩
  | up _ ih =>
    obtain ⟨target', hr, hgrown⟩ := ih (forall₂_tail htrail)
    exact ⟨target', .up hr, hgrown⟩
  | enter hname hfind _ ih =>
    obtain ⟨below', hfind', hbelow⟩ := (grown_headD htop htrail).find?_grown hfind
    obtain ⟨target', hr, hgrown⟩ := ih (.cons hbelow htrail)
    exact ⟨target', .enter hname hfind' hr, hgrown⟩
  | file hname hfind =>
    obtain ⟨below', hfind', -⟩ := (grown_headD htop htrail).find?_grown hfind
    exact ⟨_, .file hname hfind', .file _⟩
  | @link _ _ _ _ aim _ _ _ hname hfind _ ih =>
    obtain ⟨below', hfind', -⟩ := (grown_headD htop htrail).find?_grown hfind
    obtain ⟨target', hr, hgrown⟩ := ih (forall₂_restart htrail aim)
    exact ⟨target', .link hname hfind' hr, hgrown⟩

/-- What a path leads to now it led to before, or it is the new file. -/
theorem Reaches.of_grown (h : Reaches top' links trail' pieces target') (htop : Grown bytes top top')
    (htrail : List.Forall₂ (Grown bytes) trail trail') :
    target' = .file bytes ∨
      ∃ target, Reaches top links trail pieces target ∧ Target.Grown bytes target target' := by
  induction h generalizing trail with
  | done => exact .inr ⟨_, .done, .directory (grown_headD htop htrail)⟩
  | stay hblank _ ih =>
    rcases ih htrail with hnew | ⟨target, hr, hgrown⟩
    · exact .inl hnew
    · exact .inr ⟨target, .stay hblank hr, hgrown⟩
  | up _ ih =>
    rcases ih (forall₂_tail htrail) with hnew | ⟨target, hr, hgrown⟩
    · exact .inl hnew
    · exact .inr ⟨target, .up hr, hgrown⟩
  | enter hname hfind' _ ih =>
    rcases (grown_headD htop htrail).find?_of_grown hfind' with hnew | ⟨below, hfind, hbelow⟩
    · cases hnew
    · rcases ih (.cons hbelow htrail) with hnew | ⟨target, hr, hgrown⟩
      · exact .inl hnew
      · exact .inr ⟨target, .enter hname hfind hr, hgrown⟩
  | file hname hfind' =>
    rcases (grown_headD htop htrail).find?_of_grown hfind' with hnew | ⟨below, hfind, -⟩
    · cases hnew
      exact .inl rfl
    · exact .inr ⟨_, .file hname hfind, .file _⟩
  | @link _ _ _ _ aim _ _ _ hname hfind' _ ih =>
    rcases (grown_headD htop htrail).find?_of_grown hfind' with hnew | ⟨below, hfind, -⟩
    · cases hnew
    · rcases ih (forall₂_restart htrail aim) with hnew | ⟨target, hr, hgrown⟩
      · exact .inl hnew
      · exact .inr ⟨target, .link hname hfind hr, hgrown⟩

/-- The names of the new file led nowhere. -/
theorem follow_missing_of_adds {names : List RawText} {items items' : Directory}
    (h : Adds bytes names items items') (hitems' : items'.Proper) (hnames : ∀ name ∈ names, Naming name)
    (hitems : trail.headD top = items) : follow top links trail names = .error .notFound := by
  induction names generalizing items items' trail with
  | nil => exact absurd rfl h.ne_nil
  | cons name more ih =>
    rw [List.forall_mem_cons] at hnames
    subst hitems
    rcases h.find?_first hitems' with ⟨-, hnone, -⟩ | ⟨below, below', hbelow, hfind, hfind'⟩
    · exact follow_missing hnames.1 hnone
    · rw [follow_enter hnames.1 hfind]
      exact ih hbelow (hitems'.of_mem (Directory.mem_of_find? hfind').1).2.2 hnames.2 rfl

variable {fs fs' : FileSystem} {path : RawText}

theorem resolve_grown (h : Grown bytes fs fs') (hr : fs.resolve path = .ok target) :
    ∃ target', fs'.resolve path = .ok target' ∧ Target.Grown bytes target target' := by
  obtain ⟨hnul, hempty, hlen, hreach⟩ := resolve_eq_ok_iff.1 hr
  obtain ⟨target', hreach', hgrown⟩ := hreach.grown h .nil
  exact ⟨target', resolve_eq_ok_iff.2 ⟨hnul, hempty, hlen, hreach'⟩, hgrown⟩

theorem resolve_of_grown (h : Grown bytes fs fs') (hr : fs'.resolve path = .ok target') :
    target' = .file bytes ∨
      ∃ target, fs.resolve path = .ok target ∧ Target.Grown bytes target target' := by
  obtain ⟨hnul, hempty, hlen, hreach'⟩ := resolve_eq_ok_iff.1 hr
  rcases hreach'.of_grown h .nil with hnew | ⟨target, hreach, hgrown⟩
  · exact .inl hnew
  · exact .inr ⟨target, resolve_eq_ok_iff.2 ⟨hnul, hempty, hlen, hreach⟩, hgrown⟩

/-- If the new file is no text, every path leads to the text that it led to. -/
theorem toOption_readText_grown (h : Grown bytes fs fs') (hbytes : String.fromUTF8? bytes = none)
    (path : RawText) : (fs'.readText path).toOption = (fs.readText path).toOption := by
  cases hr : fs.resolve path with
  | ok target =>
    obtain ⟨target', hr', hgrown⟩ := resolve_grown h hr
    cases hgrown with
    | file | directory => rw [readText, readText, hr, hr']
  | error e =>
    rw [readText, readText, hr]
    cases hr' : fs'.resolve path with
    | error => rfl
    | ok target' =>
      rcases resolve_of_grown h hr' with rfl | ⟨target, hsome, -⟩
      · simp only [hbytes]
        rfl
      · rw [hr] at hsome
        cases hsome

theorem isFile_grown (h : Grown bytes fs fs') (hr : fs.resolve path = .ok target) :
    fs'.isFile path = fs.isFile path := by
  obtain ⟨target', hr', hgrown⟩ := resolve_grown h hr
  cases hgrown with
  | file | directory => rw [isFile, isFile, hr, hr']

end FileSystem

/-! ### Documents -/

namespace Discovery
open Directory (Grown Adds)

/-- Whether a search from a given path takes the new file, and under which path. -/
inductive Discovers (bytes : ByteArray) (fs fs' : FileSystem) (wanted : List String)
    (given : RawText) : RawText → Prop where
  | below {items items' : Directory} {names : List RawText}
      (h : fs.resolve given = .ok (.directory items))
      (h' : fs'.resolve given = .ok (.directory items')) (hadds : Adds bytes names items items')
      (hw : Wanted Path.Hidden wanted names) :
      Discovers bytes fs fs' wanted given (joinAll given names)

variable {bytes : ByteArray} {fs fs' : FileSystem} {wanted : List String} {paths : List RawText}
  {given document : RawText}

theorem stands_of_discovers (h : Discovers bytes fs fs' wanted given document) :
    Stands Path.Hidden fs' wanted given document := by
  cases h with
  | below _ h' hadds hw => exact .below h' ((hadds.hasFile_iff _).2 (.inr rfl)) hw

/-- The paths under which the new file is found led to no file before. -/
theorem not_atFile_of_discovers (hfs : Grown bytes fs fs')
    (h : Discovers bytes fs fs' wanted given document) : ¬ fs.AtFile document := by
  cases h with
  | @below items items' names h h' hadds hw =>
    have hproper := FileSystem.proper_of_resolve hfs.1 h'
    have hnames := ((hadds.hasFile_iff names).2 (.inr rfl)).isName hproper
    have hnaming : ∀ name ∈ names, FileSystem.Naming name := fun name hname =>
      FileSystem.naming_of_visible (hnames name hname).1 (hnames name hname).2 (hw.1 name hname)
    obtain ⟨links, trail, hitems, hmore⟩ := (FileSystem.reaches_steps_of_resolve h).append
    intro hat
    obtain ⟨content, hreaches⟩ := hat
    rw [← FileSystem.follow_eq_ok_iff, steps_joinAll (fun name hname => (hnames name hname).1) hw.1,
      hmore, FileSystem.follow_missing_of_adds hadds hproper hnaming hitems] at hreaches
    cases hreaches

/-- What a given path stands for now it stood for before, or it is the new file. -/
theorem Stands.of_grown (hfs : Grown bytes fs fs') (hs : Searchable fs given)
    (h : Stands Path.Hidden fs' wanted given document) :
    Stands Path.Hidden fs wanted given document ∨ Discovers bytes fs fs' wanted given document := by
  obtain ⟨⟨target, htarget⟩, -⟩ := hs
  obtain ⟨target', htarget', hgrown⟩ := FileSystem.resolve_grown hfs htarget
  cases h with
  | itself h =>
    rw [htarget'] at h
    cases h
    cases hgrown
    exact .inl (.itself htarget)
  | below h hf hw =>
    rw [htarget'] at h
    cases h
    cases hgrown with
    | directory hgrown =>
      rcases hgrown.2 with rfl | ⟨names, hadds⟩
      · exact .inl (.below htarget hf hw)
      · rcases (hadds.hasFile_iff _).1 hf with hf | rfl
        · exact .inl (.below htarget hf hw)
        · exact .inr (.below htarget htarget' hadds hw)

/-- What could be searched can be searched. -/
theorem searchable_grown (hfs : Grown bytes fs fs') (hs : Searchable fs given) :
    Searchable fs' given := by
  obtain ⟨⟨target, htarget⟩, hread⟩ := hs
  obtain ⟨target', htarget', hgrown⟩ := FileSystem.resolve_grown hfs htarget
  refine ⟨⟨target', htarget'⟩, fun items' hitems' => ?_⟩
  rw [htarget'] at hitems'
  cases hitems'
  cases hgrown with
  | directory hgrown =>
    have hopen := hread _ htarget
    rcases hgrown.2 with rfl | ⟨names, hadds⟩
    · exact hopen
    · rwa [← unopened_eq_nil_iff, hadds.unopened, unopened_eq_nil_iff]

/-- Of the documents that a given path stands for, those that stood at a file before are the
ones that it stood for. -/
theorem filter_taken (hfs : Grown bytes fs fs') (hproper : fs.Proper) (hs : Searchable fs given) :
    (taken fs' wanted given).filter (fun d => decide (fs.AtFile d)) = taken fs wanted given := by
  have hkeep : (taken fs wanted given).filter (fun d => decide (fs.AtFile d)) =
      taken fs wanted given := by
    refine List.filter_eq_self.2 fun d hd => decide_eq_true ?_
    exact atFile_of_stands hproper ((mem_taken hs).1 hd)
  have hs' := searchable_grown hfs hs
  obtain ⟨⟨target, htarget⟩, hread⟩ := hs
  obtain ⟨target', htarget', hgrown⟩ := FileSystem.resolve_grown hfs htarget
  cases hgrown with
  | file =>
    rw [← hkeep, taken, taken, expand_of_file htarget, expand_of_file htarget']
  | @directory items items' hgrown =>
    have htaken : taken fs wanted given = items.search wanted given := by
      rw [taken, expand_of_open htarget (hread _ htarget)]
      rfl
    have htaken' : taken fs' wanted given = items'.search wanted given := by
      rw [taken, expand_of_open htarget' (hs'.2 _ htarget')]
      rfl
    rw [htaken] at hkeep ⊢
    rw [htaken']
    rcases hgrown.2 with rfl | ⟨names, hadds⟩
    · exact hkeep
    · obtain ⟨before, after, hsearch, hcases⟩ := hadds.search wanted given
      rcases hcases with ⟨hwanted, hsearch'⟩ | ⟨-, hsearch'⟩
      · have hnew := not_atFile_of_discovers hfs (.below htarget htarget' hadds hwanted)
        rw [hsearch', List.filter_append, List.filter_cons_of_neg (by simpa using hnew),
          ← List.filter_append, ← hsearch, hkeep]
      · rw [hsearch', ← hsearch, hkeep]

/-- What comes of finding documents where the new file is there as well. -/
structure FindsMore (bytes : ByteArray) (fs fs' : FileSystem) (wanted : List String)
    (paths documents : List RawText) : Prop where
  ordered : documents.Pairwise Path.Before
  /-- Of what is found now, what stood at a file before was found before. -/
  kept : documents.filter (fun d => decide (fs.AtFile d)) =
    arrange ((rootsOf paths).flatMap (taken fs wanted))
  /-- The rest are the paths under which the new file is found. -/
  added : ∀ path, (∃ d ∈ documents, ¬ fs.AtFile d ∧ Path.same d path = true) ↔
    ∃ given ∈ rootsOf paths, ∃ d, Discovers bytes fs fs' wanted given d ∧ Path.same d path = true

theorem findsMore (hfs : Grown bytes fs fs') (hproper : fs.Proper)
    (hs : ∀ p ∈ rootsOf paths, Searchable fs p) :
    FindsMore bytes fs fs' wanted paths (arrange ((rootsOf paths).flatMap (taken fs' wanted))) := by
  have hs' : ∀ p ∈ rootsOf paths, Searchable fs' p := fun p hp => searchable_grown hfs (hs p hp)
  constructor
  case ordered => exact pairwise_arrange _
  case kept =>
    have hcongr {a b : RawText} (hsame : Path.same a b = true) :
        decide (fs.AtFile a) = decide (fs.AtFile b) :=
      decide_eq_decide.2 (FileSystem.atFile_congr hsame)
    rw [← arrange_filter hcongr, List.filter_flatMap]
    exact congrArg arrange (List.flatMap_congr fun given hgiven =>
      filter_taken hfs hproper (hs given hgiven))
  case added =>
    intro path
    constructor
    · intro h
      obtain ⟨d, hd, hnew, hsame⟩ := h
      obtain ⟨given, hgiven, hmem⟩ := List.mem_flatMap.1 (mem_of_mem_arrange hd)
      have hstands := (mem_taken (hs' given hgiven)).1 hmem
      rcases hstands.of_grown hfs (hs given hgiven) with hold | hdiscovers
      · exact absurd (atFile_of_stands hproper hold) hnew
      · exact ⟨given, hgiven, d, hdiscovers, hsame⟩
    · intro h
      obtain ⟨given, hgiven, d, hdiscovers, hsame⟩ := h
      have hmem := (mem_taken (hs' given hgiven)).2 (stands_of_discovers hdiscovers)
      obtain ⟨kept, hkept, hkd⟩ := exists_mem_arrange (List.mem_flatMap.2 ⟨given, hgiven, hmem⟩)
      refine ⟨kept, hkept, ?_, Path.same_trans hkd hsame⟩
      rw [FileSystem.atFile_congr hkd]
      exact not_atFile_of_discovers hfs hdiscovers

end Discovery

end DocOutline
