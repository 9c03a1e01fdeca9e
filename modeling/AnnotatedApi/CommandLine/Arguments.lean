/-!
# Command line arguments

One input file, flags, and two options with a value. A flag has a long name, some also a letter;
letters may be run together, and the last of them may be an option whose value follows in the same
word or the next one. After `--` every word is a file. Every flag and option may be given once, and
no file name may be empty.
-/

namespace AnnotatedApi.CommandLine

set_option autoImplicit false

inductive Flag where
  /-- Report only, write no manifest. -/
  | check
  /-- Leave out warnings. -/
  | quiet
  /-- Write the manifest in spite of errors. -/
  | lenient
  /-- Print the linked handler forest. -/
  | tree
  /-- Has no effect on what is printed. -/
  | verbose
deriving DecidableEq, Repr

inductive Setting where
  | output
  /-- The project file, instead of the one around the input. -/
  | project
deriving DecidableEq, Repr

structure Arguments where
  input : String
  output : Option String
  project : Option String
  flags : List Flag
deriving DecidableEq, Repr

def Arguments.has (a : Arguments) (flag : Flag) : Bool := a.flags.contains flag

inductive NoRun where
  | help
  | version
  | malformed
deriving DecidableEq, Repr

/-! ## Words -/

/-- One word of the command line, as it looks by itself. The flags before an option or a request are
those that are run together with it. -/
inductive Word where
  | file (name : String)
  | flags (flags : List Flag)
  | setting (flags : List Flag) (setting : Setting) (value : Option String)
  | noRun (flags : List Flag) (reason : NoRun)
  | endOfOptions
deriving DecidableEq, Repr

def longFlag? (name : String) : Option Flag :=
  match name with
  | "check" => some .check
  | "quiet" => some .quiet
  | "partial" => some .lenient
  | "emit-tree" => some .tree
  | "verbose" => some .verbose
  | _ => none

def longSetting? (name : String) : Option Setting :=
  match name with
  | "output" => some .output
  | "manifest" => some .project
  | _ => none

def longWord (name : String) (value : Option String) : Word :=
  match longFlag? name, longSetting? name, name, value with
  | some flag, _, _, none => .flags [flag]
  | _, some setting, _, value => .setting [] setting value
  | _, _, "help", none => .noRun [] .help
  | _, _, "version", none => .noRun [] .version
  | _, _, _, _ => .noRun [] .malformed

def letters (flags : List Flag) : List Char → Word
  | [] => .flags flags
  | 'q' :: rest => letters (flags ++ [.quiet]) rest
  | 'v' :: rest => letters (flags ++ [.verbose]) rest
  | ['o'] => .setting flags .output none
  | 'o' :: '=' :: value => .setting flags .output (some (String.ofList value))
  | 'o' :: value => .setting flags .output (some (String.ofList value))
  | 'h' :: _ => .noRun flags .help
  | 'V' :: _ => .noRun flags .version
  | _ => .noRun flags .malformed

def word (text : String) : Word :=
  match text.toList with
  | ['-', '-'] => .endOfOptions
  | '-' :: '-' :: rest =>
    match rest.span (· != '=') with
    | (name, []) => longWord (String.ofList name) none
    | (name, _ :: value) => longWord (String.ofList name) (some (String.ofList value))
  | '-' :: c :: rest => letters [] (c :: rest)
  | _ => .file text

/-! ## Command lines -/

structure Given where
  files : List String
  output : Option String
  project : Option String
  flags : List Flag

namespace Given

def none : Given := ⟨[], .none, .none, []⟩

def addFlags (g : Given) : List Flag → Except NoRun Given
  | [] => .ok g
  | flag :: rest =>
    if g.flags.contains flag then .error .malformed
    else addFlags { g with flags := g.flags ++ [flag] } rest

def addFile (g : Given) (name : String) : Except NoRun Given :=
  if name.isEmpty then .error .malformed else .ok { g with files := g.files ++ [name] }

def set (g : Given) (setting : Setting) (value : String) : Except NoRun Given :=
  if value.isEmpty then .error .malformed
  else
    match setting with
    | .output => if g.output.isSome then .error .malformed else .ok { g with output := some value }
    | .project =>
      if g.project.isSome then .error .malformed else .ok { g with project := some value }

/-- The run that the words ask for: of exactly one file. -/
def arguments (g : Given) : Except NoRun Arguments :=
  match g.files with
  | [input] => .ok ⟨input, g.output, g.project, g.flags⟩
  | _ => .error .malformed

end Given

/-- Takes in the words from left to right; the first that does not fit decides. -/
def takeIn (g : Given) : List String → Except NoRun Given
  | [] => .ok g
  | text :: rest =>
    match word text with
    | .file name => do takeIn (← g.addFile name) rest
    | .flags flags => do takeIn (← g.addFlags flags) rest
    | .noRun flags reason => do
      let _ ← g.addFlags flags
      .error reason
    | .endOfOptions => rest.foldlM Given.addFile g
    | .setting flags setting (some value) => do
      takeIn (← (← g.addFlags flags).set setting value) rest
    | .setting flags setting none =>
      match rest with
      | [] => .error .malformed
      | value :: rest =>
        match word value with
        | .file value => do takeIn (← (← g.addFlags flags).set setting value) rest
        | _ => .error .malformed

def Arguments.parse (texts : List String) : Except NoRun Arguments := do
  (← takeIn .none texts).arguments

end AnnotatedApi.CommandLine
