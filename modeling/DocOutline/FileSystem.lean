import DocOutline.Error
import DocOutline.Forest
import DocOutline.Path

/-! File systems as values.

A directory is a forest of named items: files with their bytes, symbolic links
with their targets, and directories with what is below them. A path is resolved
from left to right, as a system does it: a link is replaced by its target, a
double dot leads back to the directory that the last name was found in, and the
first thing that goes wrong is the error.

The working directory is the root as well: a path that starts with a slash starts in it,
and there is nothing above it. Everything may be read, and there are no devices, pipes or
sockets, so that what can go wrong with an item is its kind or the length of a name or a
path. -/
namespace DocOutline

/-- What an item of a directory is. -/
inductive Content where
  | file (bytes : ByteArray)
  | link (target : RawText)
  | directory

/-- A named item of a directory. -/
structure Item where
  name : RawText
  content : Content

/-- The items of a directory, each directory with its own below it. -/
abbrev Directory := Forest Item

namespace Directory

/-- The item of that name. -/
def find? (name : RawText) : Directory → Option (Branch Item)
  | .nil => none
  | .cons item below after => if item.name = name then some ⟨item, below⟩ else find? name after

/-- The directory with the item of that name as `change` makes it from what was there. -/
def alter (name : RawText) (change : Option (Branch Item) → Branch Item) : Directory → Directory
  | .nil =>
    let made := change none
    .cons made.label made.below .nil
  | .cons item below after =>
    if item.name = name then
      let made := change (some ⟨item, below⟩)
      .cons made.label made.below after
    else .cons item below (alter name change after)

/-- What stands below an item, if there was one. -/
def belowOf (old : Option (Branch Item)) : Directory := old.elim .nil Branch.below

/-- The directory with an item at a path of names, and with directories on the
way to it. -/
def insert (content : Content) : List RawText → Directory → Directory
  | [], d => d
  | [name], d => d.alter name fun old => ⟨⟨name, content⟩, belowOf old⟩
  | name :: next :: names, d =>
    d.alter name fun old =>
      ⟨⟨name, .directory⟩, insert content (next :: names) (belowOf old)⟩

end Directory

/-- A file system is its top directory, in which relative paths start. -/
abbrev FileSystem := Directory

/-- What a path leads to. -/
inductive Target where
  | file (bytes : ByteArray)
  | directory (items : Directory)

namespace FileSystem

/-- The longest name, in bytes. -/
def maxName : Nat := 255

/-- The longest path, in bytes. -/
def maxPath : Nat := 4095

/-- The most links that one path may lead over. -/
def maxLinks : Nat := 40

/-- What the pieces lead to over at most `links` links, where `trail` holds the
directories entered so far below `top`, the innermost first. Empty pieces and
single dots stay where they are. -/
def follow (top : Directory) (links : Nat) (trail : List Directory) :
    List RawText → Except IoError Target
  | [] => .ok (.directory (trail.headD top))
  | piece :: rest =>
    if piece.bytes = [] ∨ piece = Path.current then follow top links trail rest
    else if piece = Path.parent then follow top links trail.tail rest
    else if maxName < piece.bytes.length then .error .nameTooLong
    else
      match (trail.headD top).find? piece with
      | none => .error .notFound
      | some ⟨⟨_, .directory⟩, items⟩ => follow top links (items :: trail) rest
      | some ⟨⟨_, .file bytes⟩, _⟩ =>
        if rest.isEmpty then .ok (.file bytes) else .error .notDirectory
      | some ⟨⟨_, .link target⟩, _⟩ =>
        match links with
        | 0 => .error .tooManyLinks
        | links + 1 =>
          follow top links (if target.bytes.head? = some Path.slash then [] else trail)
            (Path.piecesOf target ++ rest)
termination_by pieces => (links, pieces.length)

/-- What a path leads to. -/
def resolve (fs : FileSystem) (path : RawText) : Except IoError Target :=
  if path.bytes.contains 0 then .error .nulByte
  else if path.bytes.isEmpty then .error .notFound
  else if maxPath < path.bytes.length then .error .nameTooLong
  else follow fs maxLinks [] (Path.piecesOf path)

/-- Whether a path leads to a file. -/
def isFile (fs : FileSystem) (path : RawText) : Bool :=
  match fs.resolve path with
  | .ok (.file _) => true
  | _ => false

/-- The text of the file that a path leads to. -/
def readText (fs : FileSystem) (path : RawText) : Except IoError String :=
  match fs.resolve path with
  | .error e => .error e
  | .ok (.directory _) => .error .isDirectory
  | .ok (.file bytes) =>
    match String.fromUTF8? bytes with
    | some text => .ok text
    | none => .error .invalidUtf8

end FileSystem

end DocOutline
