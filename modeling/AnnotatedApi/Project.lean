import AnnotatedApi.Annotation.Document
import AnnotatedApi.Resolve.Resolver
import AnnotatedApi.Toml.Reader

/-!
# Projects

A project file names the project, sets up the resolver, and declares annotations of its own. Each of
these has to be sound, and no two may share a name; whether they clash with the standard ones is
for the catalog to say.
-/

namespace AnnotatedApi

set_option autoImplicit false

open Annotation (Definition)

structure Project where
  name : String
  version : Option String
  options : Resolve.Options
  annotations : List Definition

namespace Project

def fileName : String := "Waypoint.toml"

inductive Fault where
  /-- The text is no document, or the document lacks something. -/
  | malformed
  | zeroDepth
  | unsound (name : String) (fault : Annotation.Fault)
  | declaredTwice (name : String)
deriving DecidableEq, Repr

/-- The fault as a message; of what is wrong with a document, the message says no more than that it
is none. -/
def Fault.message (fault : Fault) : String :=
  "invalid " ++ fileName ++ ": " ++
    match fault with
    | malformed => "TOML parse error"
    | zeroDepth => "[resolver] max_depth must be at least 1"
    | unsound name fault => "annotation `" ++ name ++ "`: " ++ fault.message
    | declaredTwice name => "annotation `" ++ name ++ "` is declared more than once"

/-! ## Documents -/

def optionsOfJson? (v : Json) : Option Resolve.Options := do
  let fields ← v.record? .settings ["opaque_types", "max_depth"]
  return {
    nameOnly := ← fields.orElse "opaque_types" [] (Json.list? Json.asString?)
    maxDepth := ← fields.orElse "max_depth" Resolve.defaultMaxDepth Json.asNat? }

def titleOfJson? (v : Json) : Option (String × Option String) := do
  let fields ← v.record? .settings ["name", "version"]
  return (← fields.needed "name" Json.asString?, ← fields.optional "version" Json.asString?)

def ofJson? (v : Json) : Option Project := do
  let fields ← v.record? .settings ["project", "resolver", "annotations"]
  let (name, version) ← fields.needed "project" titleOfJson?
  return {
    name := name
    version := version
    options := ← fields.orElse "resolver" .default optionsOfJson?
    annotations := ← fields.orElse "annotations" [] (Json.list? (Definition.ofJson? .settings)) }

/-! ## Checking -/

/-- What is wrong with the first definition that is not sound or has a name in `seen` or of an
earlier one. -/
def definitionsFault? (seen : List String) : List Definition → Option Fault
  | [] => none
  | d :: rest =>
    match d.fault? with
    | some fault => some (.unsound d.name fault)
    | none =>
      if seen.contains d.name then some (.declaredTwice d.name)
      else definitionsFault? (d.name :: seen) rest

def fault? (p : Project) : Option Fault :=
  if p.options.maxDepth = 0 then some .zeroDepth else definitionsFault? [] p.annotations

def parse (text : String) : Except Fault Project :=
  match (Toml.parse? text).bind ofJson? with
  | none => .error .malformed
  | some p =>
    match p.fault? with
    | some fault => .error fault
    | none => .ok p

end Project

end AnnotatedApi
