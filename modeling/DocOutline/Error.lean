import DocOutline.RawText

/-! Everything that can go wrong between a path and a parsed document, and what
is said about it. -/
namespace DocOutline

/-- Why a file or a directory could not be read. -/
inductive IoError where
  | notFound
  | notDirectory
  | isDirectory
  | nameTooLong
  | tooManyLinks
  | nulByte
  | invalidUtf8
  | custom (text : String)
  deriving DecidableEq, Repr

def IoError.message : IoError → String
  | notFound => "No such file or directory (os error 2)"
  | notDirectory => "Not a directory (os error 20)"
  | isDirectory => "Is a directory (os error 21)"
  | nameTooLong => "File name too long (os error 36)"
  | tooManyLinks => "Too many levels of symbolic links (os error 40)"
  | nulByte => "file name contained an unexpected NUL byte"
  | invalidUtf8 => "stream did not contain valid UTF-8"
  | custom text => text

inductive LoadError where
  /-- A path could not be resolved or read. -/
  | io (cause : IoError)
  /-- The search of a directory stopped at `path`. -/
  | walk (path : RawText) (cause : IoError)
  /-- The parser gave up on the document. -/
  | parse (path : RawText)
  deriving DecidableEq, Repr

def LoadError.message : LoadError → String
  | io cause => "I/O error: " ++ cause.message
  | walk path cause =>
    "failed to walk directory: IO error for operation on " ++ path.shown ++ ": " ++ cause.message
  | parse path => "failed to parse " ++ path.shown

end DocOutline
