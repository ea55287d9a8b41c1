import DocOutline.CommandLine.Run
import DocOutline.Listing

/-! The program: reads a listing of the working directory from the standard
input and the listed files from disk, and does what its arguments say. -/
namespace DocOutline

/-- The lines of a stream up to its end. -/
partial def readLines (input : IO.FS.Stream) : IO (List String) := do
  let line ← input.getLine
  if line.isEmpty then return []
  let text := if line.endsWith "\n" then (line.dropEnd 1).toString else line
  return text :: (← readLines input)

/-- Puts out what a run leaves, and gives its exit code. -/
def Outcome.put (outcome : Outcome) : IO UInt32 := do
  IO.print outcome.output
  for report in outcome.reports do
    IO.eprintln report
  for warning in outcome.warnings do
    IO.eprintln ("WARN " ++ warning.message)
  return outcome.code.toUInt32

end DocOutline

def main (arguments : List String) : IO UInt32 := do
  let listing := DocOutline.Listing.ofLines (← DocOutline.readLines (← IO.getStdin))
  let contents ← listing.files.mapM fun f => do
    let bytes ← IO.FS.readBinFile f.path
    return (f.path, bytes)
  let fs := listing.fileSystem contents
  (DocOutline.CommandLine.execute fs (listing.parser contents)
    (arguments.map DocOutline.RawText.ofString)).put
