import AnnotatedApi.Api.Assembly
import AnnotatedApi.Handlers.Walk

/-!
# Extraction

An extraction takes the classes of a compilation to the operations of an API in three steps: the
handler forest, the linked forest, the operations. What the resolver remembers stays for further
runs until it is reset.
-/

namespace AnnotatedApi

set_option autoImplicit false

structure Extraction where
  operations : List Api.Operation
  routes : List Api.RouteGroup
  diagnostics : List Diagnostic
  linked : LinkedForest

namespace Extraction

/-- Whether nothing was lost. -/
def isSuccess (x : Extraction) : Bool := !x.diagnostics.any Diagnostic.isError

def manifest (x : Extraction) (project : Option String) : Api.Manifest :=
  ⟨Api.currentVersion, project, x.operations, x.routes⟩

end Extraction

/-- What an extraction starts from. -/
structure Extractor where
  catalog : Annotation.Catalog
  classes : List ClassDecl
  resolver : Resolver

namespace Extractor

/-- An extractor for some classes; their types are looked up among `types`. -/
def fresh (catalog : Annotation.Catalog) (classes : List ClassDecl) (types : List TypeDecl)
    (options : Resolve.Options) : Extractor :=
  ⟨catalog, classes, .fresh types options⟩

def reset (e : Extractor) : Extractor := { e with resolver := e.resolver.reset }

def walk (e : Extractor) (depth : Nat) :
    Except Abort (Forest × List Diagnostic) × Extractor :=
  match Walk.forest e.catalog depth e.classes e.resolver with
  | .ok result resolver => (.ok result, { e with resolver := resolver })
  | .error abort resolver => (.error abort, { e with resolver := resolver })

/-- Runs an extraction with at most the given depth of recursion in each type. -/
def run (e : Extractor) (depth : Nat) : Except Abort Extraction × Extractor :=
  match e.walk depth with
  | (.error abort, e) => (.error abort, e)
  | (.ok (forest, walkDiagnostics), e) =>
    let (linked, linkDiagnostics) := forest.link
    let assembled := Api.assemble linked
    (.ok {
      operations := assembled.operations
      routes := assembled.routes
      diagnostics := walkDiagnostics ++ linkDiagnostics ++ assembled.diagnostics
      linked := linked }, e)

end Extractor

end AnnotatedApi
