import AnnotatedApi.CommandLine.Arguments
import AnnotatedApi.CommandLine.Files
import AnnotatedApi.CommandLine.Report
import AnnotatedApi.Compilation.Document
import AnnotatedApi.Extraction
import AnnotatedApi.Handlers.Document
import AnnotatedApi.Json.Printer
import AnnotatedApi.Project

/-!
# A run of the program

A run reads a compilation and the project file around it, extracts the operations, prints the
diagnostics, and writes the manifest. Errors keep the manifest from being written unless the run is
lenient; the exit code tells of them either way.
-/

namespace AnnotatedApi.CommandLine

set_option autoImplicit false

/-- What a run leaves behind: the exit code, the text on standard output, and the lines on standard
error. -/
structure Outcome where
  exitCode : Nat
  output : String
  errors : List String
deriving DecidableEq, Repr

namespace Outcome

def failed (message : String) : Outcome := ⟨1, "", ["error: " ++ message]⟩

/-- The outcome with something printed before. -/
def after (o : Outcome) (output : String) (errors : List String) : Outcome :=
  { o with output := output ++ o.output, errors := errors ++ o.errors }

end Outcome

structure LocatedProject where
  project : Project
  directory : String

structure Setup where
  extractor : Extractor
  project : Option LocatedProject
  directory : String

variable {m : Type → Type} [Monad m] (files : Files m)

/-! ## Reading -/

def readCompilation (path : String) : m (Except String Compilation) := do
  match ← files.read path with
  | none => return .error ("could not read '" ++ path ++ "'")
  | some text =>
    match Compilation.ofText? text with
    | some c => return .ok c
    | none => return .error ("'" ++ path ++ "' is not a compiled unit")

def readProject (path : String) : m (Except String LocatedProject) := do
  match ← files.read path with
  | none => return .error ("failed to read " ++ Project.fileName)
  | some text =>
    match Project.parse text with
    | .ok project => return .ok ⟨project, (splitPath path).1⟩
    | .error fault => return .error fault.message

/-- The project file in the first of some directories that has one. -/
def findProject : List String → m (Option String)
  | [] => return none
  | directory :: rest => do
    let path := joinPath directory Project.fileName
    if ← files.isFile path then return some path else findProject rest

/-- Reads the given project file, or the one found in the directories around the input; there need
not be one. -/
def locateProject (given : Option String) (directories : List String) :
    m (Except String (Option LocatedProject)) := do
  let path ← match given with
    | some path => pure (some path)
    | none => findProject files directories
  match path with
  | none => return .ok none
  | some path => return (← readProject files path).map some

def extractorFor (c : Compilation) (project : Option Project) : Except String Extractor :=
  let declared := (project.map (·.annotations)).getD []
  let options := (project.map (·.options)).getD .default
  let registration := Annotation.Catalog.registerAll declared
  match registration.run .standard with
  | .ok _ catalog => .ok (.fresh catalog c.classes c.types options)
  | .error e _ => .error e.message

def prepare (a : Arguments) : m (Except String Setup) := do
  match ← readCompilation files a.input with
  | .error message => return .error message
  | .ok c =>
    let directories ← files.directoriesAround a.input
    match ← locateProject files a.project directories with
    | .error message => return .error message
    | .ok project =>
      match extractorFor c (project.map (·.project)) with
      | .error message => return .error message
      | .ok extractor => return .ok ⟨extractor, project, directories.head?.getD "."⟩

/-! ## Printing -/

/-- The text of the first of some files that can be read. -/
def readFirst : List String → m (Option String)
  | [] => return none
  | path :: rest => do
    match ← files.read path with
    | some text => return some text
    | none => readFirst rest

/-- Where the file of a diagnostic may be: in the directory of the input, in that of the project, or
where the program runs. -/
def sourcePaths (s : Setup) (file : String) : List String :=
  joinPath s.directory file ::
    ((s.project.map fun p => joinPath p.directory file).toList ++ [file])

def printed (s : Setup) (d : Diagnostic) : m (List String) := do
  match sourceSpan? d with
  | none => return diagnosticLines d none
  | some span => return diagnosticLines d (← readFirst files (sourcePaths s span.file))

def allPrinted (a : Arguments) (s : Setup) (ds : List Diagnostic) : m (List String) := do
  return (← (ds.filter fun d => d.isError || !a.has .quiet).mapM (printed files s)).flatten

/-! ## Writing -/

def outputPath (a : Arguments) : String := a.output.getD (withExtension a.input "api.json")

def writeManifest (a : Arguments) (s : Setup) (x : Extraction) : m Outcome := do
  let manifest := x.manifest (s.project.map (·.project.name))
  let path := outputPath a
  if ← files.write path manifest.toJson.pretty then
    return ⟨if x.isSuccess then 0 else 1,
      "Extracted " ++ toString x.operations.length ++ " definitions from " ++ a.input ++ " -> " ++
        path ++ "\n", []⟩
  else return .failed ("could not write '" ++ path ++ "'")

def conclude (a : Arguments) (s : Setup) (x : Extraction) : m Outcome := do
  if a.has .check then
    if x.isSuccess then
      return ⟨0, "No errors found (" ++ toString x.operations.length ++ " definitions).\n", []⟩
    else return ⟨1, "", []⟩
  else if !x.isSuccess && !a.has .lenient then
    return .failed ("extraction failed with " ++ toString (errorCount x.diagnostics) ++
      " error(s); no manifest written (use --partial to write anyway)")
  else writeManifest files a s x

/-! ## All together -/

/-- A run with the given arguments, resolving types to at most the given depth. -/
def run (depth : Nat) (a : Arguments) : m Outcome := do
  match ← prepare files a with
  | .error message => return .failed message
  | .ok s =>
    match (s.extractor.run depth).1 with
    | .error abort => return ⟨2, "", ["internal error: " ++ abort.message]⟩
    | .ok x =>
      let errors ← allPrinted files a s x.diagnostics
      let tree := if a.has .tree then x.linked.toJson.pretty ++ "\n" else ""
      return (← conclude files a s x).after tree errors

def versionText : String := "waypointc 0.1.0\n"

def usageText : String :=
  "Usage: waypointc [OPTIONS] <INPUT>\n\n" ++
  "  -o, --output <OUTPUT>      Where the manifest is written\n" ++
  "      --check                Report only, write no manifest\n" ++
  "  -q, --quiet                Leave out warnings\n" ++
  "      --partial              Write the manifest in spite of errors\n" ++
  "      --emit-tree            Print the linked handler tree\n" ++
  "      --manifest <MANIFEST>  The project file\n" ++
  "  -v, --verbose              Log more\n" ++
  "  -h, --help                 Print help\n" ++
  "  -V, --version              Print version\n"

/-- A run of the program with the given words on its command line. -/
def execute (depth : Nat) (texts : List String) : m Outcome :=
  match Arguments.parse texts with
  | .ok a => run files depth a
  | .error .help => return ⟨0, usageText, []⟩
  | .error .version => return ⟨0, versionText, []⟩
  | .error .malformed => return ⟨2, "", ["error: invalid arguments", "", usageText]⟩

end AnnotatedApi.CommandLine
