import AnnotatedApi.Annotation.Definition

/-!
# The standard annotations

Route annotations for every verb, bindings for every place a value can come from, and the markers
that go with them.
-/

namespace AnnotatedApi.Annotation

set_option autoImplicit false

/-! ## Metadata keys -/

namespace MetadataKey

def basePath : String := "basePath"

def path : String := "path"

def method : String := "method"

def status : String := "status"

def description : String := "description"

def name : String := "name"

def validator : String := "validator"

end MetadataKey

/-! ## Definitions -/

/-- An optional route, empty by default. -/
def routeArgument (name key : String) : ArgumentSpec :=
  { name := name, type := .string, optional := true, validator := some .routePath,
    metadata := some key, default := some (.string "") }

def nameArgument (name : String) (type : ArgumentType) (optional : Bool)
    (metadata : Option String) : ArgumentSpec :=
  { name := name, type := type, optional := optional, validator := some .nonEmpty,
    metadata := metadata }

def bindingName (optional : Bool) : ArgumentSpec :=
  nameArgument "name" .string optional (some MetadataKey.name)

def verbDefinition (name : String) (verb : Verb) : Definition :=
  { name := name, targets := [.method], role := .route verb,
    arguments := [routeArgument "path" MetadataKey.path] }

def scalars : List Restriction := [.string, .number, .boolean, .date]

def standardDefinitions : List Definition := [
  { name := "Api", targets := [.classDeclaration], provides := ["api"],
    arguments := [routeArgument "basePath" MetadataKey.basePath] },
  { name := "Provide", targets := [.classDeclaration],
    arguments := [nameArgument "tag" .identifier false none],
    providesArgument := some 0, repeatable := true },
  verbDefinition "Get" .get,
  verbDefinition "Post" .post,
  verbDefinition "Put" .put,
  verbDefinition "Patch" .patch,
  verbDefinition "Delete" .delete,
  verbDefinition "Head" .head,
  verbDefinition "Options" .options,
  { name := "Route", targets := [.method], role := .route .any,
    arguments := [
      { name := "method", type := .identifier, validator := some .httpMethod,
        metadata := some MetadataKey.method },
      routeArgument "path" MetadataKey.path] },
  { name := "Status", targets := [.method],
    arguments := [
      { name := "code", type := .number, validator := some .httpStatus,
        metadata := some MetadataKey.status }] },
  { name := "Description", targets := [.classDeclaration, .method, .parameter],
    arguments := [
      { name := "text", type := .string, metadata := some MetadataKey.description }] },
  { name := "Uses", targets := [.method],
    arguments := [nameArgument "tag" .identifier false none],
    dependencies := [⟨.providerArgument 0, .enclosing⟩], repeatable := true },
  { name := "Query", targets := [.parameter], role := .binding .query,
    arguments := [bindingName true], restrictions := scalars ++ scalars.map .arrayOf },
  { name := "Path", targets := [.parameter], role := .binding .path,
    arguments := [bindingName true], restrictions := [.string, .number, .date] },
  { name := "Header", targets := [.parameter], role := .binding .header,
    arguments := [bindingName false], restrictions := [.string, .number, .boolean] },
  { name := "Body", targets := [.parameter], role := .binding .body },
  { name := "Callback", targets := [.parameter], role := .binding .callback,
    arguments := [bindingName true], resolution := .nameOnly },
  { name := "Transport", targets := [.parameter], role := .binding .transport,
    resolution := .nameOnly },
  { name := "Inject", targets := [.parameter, .constructorParameter],
    role := .binding .dependency,
    arguments := [nameArgument "token" .identifier true (some MetadataKey.name)],
    dependencies := [⟨.providerArgument 0, .enclosing⟩], resolution := .nameOnly },
  { name := "DependsOn", targets := [.parameter],
    arguments := [nameArgument "parameter" .identifier false none],
    dependencies := [⟨.declarationArgument 0, .peer⟩], repeatable := true },
  { name := "Validate", targets := [.parameter],
    arguments := [nameArgument "validator" .identifier false (some MetadataKey.validator)] }]

end AnnotatedApi.Annotation
