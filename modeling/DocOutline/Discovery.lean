import DocOutline.FileSystem

/-! Finding documents.

A given path that leads to a file is a document, whatever its name. One that
leads to a directory stands for the files below it with a wanted extension; texts
that start with a dot are passed over as names, with what is below them, and so are
links. A directory is opened by its path, so that the search stops where one has
a path longer than paths may be. The documents come in path order, and of several
spellings of one path the first found stays. -/
namespace DocOutline

/-- The paths of the files that a search of a directory takes, where `path` leads
to the directory. -/
def Directory.search (wanted : List String) (path : RawText) : Directory → List RawText
  | .nil => []
  | .cons item below after =>
    let here :=
      if Path.isHidden item.name then []
      else
        match item.content with
        | .file _ => if Path.hasExtension item.name wanted then [Path.join path item.name] else []
        | .link _ => []
        | .directory => search wanted (Path.join path item.name) below
    here ++ search wanted path after

/-- The paths of the directories that a search comes to and cannot open, where
`path` leads to the directory that is searched. -/
def Directory.unopened (path : RawText) : Directory → List RawText
  | .nil => []
  | .cons item below after =>
    let next := Path.join path item.name
    let here :=
      if Path.isHidden item.name then []
      else
        match item.content with
        | .directory =>
          if FileSystem.maxPath < next.bytes.length then [next] else unopened next below
        | _ => []
    here ++ unopened path after

namespace Discovery

/-- The documents that a given path stands for. A directory is searched in path
order, so that the first in that order of what cannot be opened is the error. -/
def expand (fs : FileSystem) (wanted : List String) (path : RawText) :
    Except LoadError (List RawText) :=
  match fs.resolve path with
  | .error e => .error (.io e)
  | .ok (.file _) => .ok [path]
  | .ok (.directory items) =>
    match (items.unopened path).mergeSort Path.sortsBefore with
    | [] => .ok (items.search wanted path)
    | first :: _ => .error (.walk first .nameTooLong)

/-- What all the given paths stand for, in their order; what goes wrong with the
first that stands for nothing is the error. -/
def expandAll (fs : FileSystem) (wanted : List String) :
    List RawText → Except LoadError (List RawText)
  | [] => .ok []
  | path :: paths => do
    let found ← expand fs wanted path
    let more ← expandAll fs wanted paths
    pure (found ++ more)

/-- The paths that are not the path just before them. -/
def dropRepeats : List RawText → List RawText
  | [] => []
  | path :: paths => path :: go path paths
where
  go (last : RawText) : List RawText → List RawText
    | [] => []
    | path :: paths => if Path.same last path then go last paths else path :: go path paths

/-- The paths in path order, each once. -/
def arrange (paths : List RawText) : List RawText := dropRepeats (paths.mergeSort Path.sortsBefore)

/-- The documents that the given paths stand for; with none given, those of the
working directory. -/
def find (fs : FileSystem) (paths : List RawText) (wanted : List String) :
    Except LoadError (List RawText) :=
  (expandAll fs wanted (if paths.isEmpty then [Path.current] else paths)).map arrange

/-- Where every directory can be opened, the search goes through. -/
theorem expand_directory {fs : FileSystem} {path : RawText} {items : Directory}
    (h : fs.resolve path = .ok (.directory items)) (ho : items.unopened path = [])
    (wanted : List String) : expand fs wanted path = .ok (items.search wanted path) := by
  simp [expand, h, ho]

theorem expandAll_nil (fs : FileSystem) (wanted : List String) : expandAll fs wanted [] = .ok [] :=
  rfl

theorem expandAll_cons_error {fs : FileSystem} {wanted : List String} {path : RawText}
    {e : LoadError} (h : expand fs wanted path = .error e) (paths : List RawText) :
    expandAll fs wanted (path :: paths) = .error e := by
  simp [expandAll, h, bind, Except.bind]

theorem expandAll_cons_ok {fs : FileSystem} {wanted : List String} {path : RawText}
    {found : List RawText} (h : expand fs wanted path = .ok found) (paths : List RawText) :
    expandAll fs wanted (path :: paths) = (expandAll fs wanted paths).map (found ++ ·) := by
  simp only [expandAll, h, bind, Except.bind]
  cases expandAll fs wanted paths <;> rfl

end Discovery

end DocOutline
