import AnnotatedApi.Table

/-!
# Files

What a run needs to know and change of the file system, and a file system in memory that behaves
like a directory with nothing around it: its own paths are relative, and a path that is absolute or
leads out of it finds nothing. Only the null device is there, which is empty and keeps nothing.
-/

namespace AnnotatedApi.CommandLine

set_option autoImplicit false

/-! ## Paths -/

/-- The path of a file in a directory; an absolute path stays what it is. -/
def joinPath (directory file : String) : String :=
  if directory.isEmpty || file.toList.head? = some '/' then file else directory ++ "/" ++ file

def pathParts (path : String) : List String := path.splitOn "/"

/-- The directory part of a path, empty if there is none, and the rest. -/
def splitPath (path : String) : String × String :=
  let parts := pathParts path
  (String.intercalate "/" parts.dropLast, parts.getLast?.getD "")

/-- A file name without its extension: the part before the last point, unless that part is empty. -/
def stem (name : String) : String :=
  let parts := name.splitOn "."
  match parts.dropLast with
  | [] | [""] => name
  | before => String.intercalate "." before

def withExtension (path extension : String) : String :=
  let (directory, name) := splitPath path
  (if (pathParts path).length = 1 then "" else directory ++ "/") ++ stem name ++ "." ++ extension

/-! ## File systems -/

/-- What a run can do with files. -/
structure Files (m : Type → Type) where
  read : String → m (Option String)
  isFile : String → m Bool
  /-- The directories around a file, the innermost first. -/
  directoriesAround : String → m (List String)
  /-- Writes a file; tells whether that could be done. -/
  write : String → String → m Bool

/-! ## In memory -/

/-- Files in memory: the directories that lead to each, its name, and its text. -/
structure FileTree where
  files : List (List String × String)

namespace FileTree

def isDirectory (t : FileTree) (place : List String) : Bool :=
  place.isEmpty || t.files.any fun (file, _) => place.isPrefixOf file && place != file

def text? (t : FileTree) (place : List String) : Option String :=
  (t.files.find? (·.1 == place)).map (·.2)

/-- Where the parts of a path lead, seen from a place; all but the last part have to lead to
directories. -/
def follow? (t : FileTree) (place : List String) : List String → Option (List String)
  | [] => some place
  | part :: rest =>
    if t.isDirectory place then
      if part = "" ∨ part = "." then follow? t place rest
      else if part = ".." then if place.isEmpty then none else follow? t place.dropLast rest
      else follow? t (place ++ [part]) rest
    else none

def locate? (t : FileTree) (path : String) : Option (List String) :=
  if path.isEmpty || path.toList.head? = some '/' then none else t.follow? [] (pathParts path)

def nullDevice : String := "/dev/null"

def read (t : FileTree) (path : String) : Option String :=
  if path = nullDevice then some "" else (t.locate? path).bind t.text?

/-- Writes a file in place, or a new one after the others. -/
def put (t : FileTree) (place : List String) (text : String) : FileTree :=
  if t.files.any (·.1 == place) then
    ⟨t.files.map fun (file, old) => (file, if file = place then text else old)⟩
  else ⟨t.files ++ [(place, text)]⟩

/-- Writes a file, if its directory is there and it is none itself. -/
def write? (t : FileTree) (path text : String) : Option FileTree :=
  if path = nullDevice then some t
  else
    (t.locate? path).bind fun place =>
      if t.isDirectory place then none else some (t.put place text)

def directoriesAround (t : FileTree) (path : String) : List String :=
  match t.locate? path with
  | none => []
  | some place =>
    (List.range place.length).reverse.map fun n => String.intercalate "/" (place.take n)

def operations : Files (StateM FileTree) where
  read path := do return (← get).read path
  isFile path := do return ((← get).read path).isSome
  directoriesAround path := do return (← get).directoriesAround path
  write path text := do
    match (← get).write? path text with
    | some t =>
      set t
      return true
    | none => return false

end FileTree

end AnnotatedApi.CommandLine
