import DocOutline.FileSystem
import DocOutline.Format
import DocOutline.Section

/-! Documents and sections of files. -/
namespace DocOutline

/-- The document of a source text; `path` is what an error speaks of. -/
def Document.ofSource (parser : Parser) (fmt : Format) (path : RawText) (source : String) :
    Except LoadError Document :=
  match parser source with
  | some t => .ok (fmt.document source t)
  | none => .error (.parse path)

/-- The document in the file that a path leads to. -/
def Document.load (fs : FileSystem) (parser : Parser) (fmt : Format) (path : RawText) :
    Except LoadError Document :=
  match fs.readText path with
  | .error e => .error (.io e)
  | .ok source => Document.ofSource parser fmt path source

/-- The sections of the file that a path leads to. -/
def Section.extract (fs : FileSystem) (parser : Parser) (fmt : Format) (path : RawText)
    (o : OutlineOptions) : Except LoadError (List Section) :=
  (Document.load fs parser fmt path).map fun d => Section.collect d path.shown o

end DocOutline
