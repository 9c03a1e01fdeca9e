import AnnotatedApi.CommandLine.Run

/-!
# The program

Connects a run to the file system and to the standard streams.
-/

namespace AnnotatedApi.CommandLine

set_option autoImplicit false

/-- How deep the resolution of one type may recurse. -/
def resolutionDepth : Nat := 10000

def pathAndAbove (path : String) : Nat → List String
  | 0 => [path]
  | depth + 1 =>
    let directory := (splitPath path).1
    if directory.isEmpty then [path, "/"] else path :: pathAndAbove directory depth

def systemFiles : Files IO where
  read path := do
    try
      return some (← IO.FS.readFile path)
    catch _ => return none
  isFile path := do
    try
      let real ← IO.FS.realPath path
      return (← real.metadata).type == .file
    catch _ => return false
  directoriesAround path := do
    let real ← IO.FS.realPath path
    let parts := pathParts real.toString
    return (pathAndAbove real.toString parts.length).drop 1
  write path text := do
    try
      IO.FS.writeFile path text
      return true
    catch _ => return false

end AnnotatedApi.CommandLine

def main (texts : List String) : IO UInt32 := do
  let outcome ←
    AnnotatedApi.CommandLine.execute AnnotatedApi.CommandLine.systemFiles
      AnnotatedApi.CommandLine.resolutionDepth texts
  IO.print outcome.output
  for line in outcome.errors do
    IO.eprintln line
  return outcome.exitCode.toUInt32
