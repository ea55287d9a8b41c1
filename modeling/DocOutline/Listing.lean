import DocOutline.FileSystem
import DocOutline.SyntaxTree

/-! Listings of a working directory, in lines of fields with tabs between them.

Neither walking a directory nor parsing a document is this library's work, so
both come in as text. A line names a directory, a link with its target, or a
file; the lines of a file's syntax nodes, in pre-order and each with its depth,
follow the file's own. -/
namespace DocOutline

/-- A file and the nodes of its syntax tree, each with its depth. -/
structure ListedFile where
  path : String
  nodes : List (Nat × SyntaxNode)
  deriving Repr

inductive ListingLine where
  | directory (path : String)
  | link (path target : String)
  | file (path : String)
  | node (depth : Nat) (node : SyntaxNode)
  deriving Repr

namespace ListingLine

/-- The node that some fields describe; a dash stands for no heading content. -/
def nodeOf? : List String → Option ListingLine
  | [depth, kind, startByte, endByte, row, column, content] => do
    let depth ← depth.toNat?
    let startByte ← startByte.toNat?
    let endByte ← endByte.toNat?
    let row ← row.toNat?
    let column ← column.toNat?
    let content? ← if content = "-" then some none else content.toNat?.map some
    some (.node depth { kind, startByte, endByte, row, column, content? })
  | _ => none

def ofText? (line : String) : Option ListingLine :=
  match line.splitOn "\t" with
  | ["directory", path] => some (.directory path)
  | ["link", path, target] => some (.link path target)
  | ["file", path] => some (.file path)
  | "node" :: fields => nodeOf? fields
  | _ => none

end ListingLine

structure Listing where
  directories : List String := []
  links : List (String × String) := []
  /-- The files, the latest first, each with its nodes, the latest first. -/
  files : List ListedFile := []
  deriving Repr

namespace Listing

def add (l : Listing) : ListingLine → Listing
  | .directory path => { l with directories := path :: l.directories }
  | .link path target => { l with links := (path, target) :: l.links }
  | .file path => { l with files := ⟨path, []⟩ :: l.files }
  | .node depth node =>
    match l.files with
    | [] => l
    | f :: rest => { l with files := { f with nodes := (depth, node) :: f.nodes } :: rest }

/-- The listing that some lines make; lines that say nothing are passed over. -/
def ofLines (lines : List String) : Listing :=
  (lines.filterMap ListingLine.ofText?).foldl add {}

/-- The file system that is listed, with the files' contents. -/
def fileSystem (l : Listing) (contents : List (String × ByteArray)) : FileSystem :=
  let names (path : String) : List RawText :=
    (Path.piecesOf path).filter fun piece => piece.bytes ≠ [] && piece ≠ Path.current
  let directories := l.directories.foldr
    (fun path fs => Directory.insert .directory (names path) fs) Forest.nil
  let linked := l.links.foldr
    (fun p fs => Directory.insert (.link p.2) (names p.1) fs) directories
  contents.foldl (fun fs p => Directory.insert (.file p.2) (names p.1) fs) linked

/-- The parser that knows the listed trees of the files with these contents. -/
def parser (l : Listing) (contents : List (String × ByteArray)) : Parser :=
  Parser.ofTable <| l.files.filterMap fun f => do
    let bytes ← (contents.find? fun p => p.1 = f.path).map Prod.snd
    let text ← String.fromUTF8? bytes
    let tree ← SyntaxTree.ofDepths? f.nodes.reverse
    some (text, tree)

end Listing

end DocOutline
