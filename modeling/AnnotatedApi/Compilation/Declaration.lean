import AnnotatedApi.Annotation.Argument
import AnnotatedApi.Compilation.TypeExpr

/-!
# Declarations

What the host's compiler reports about one compilation: the classes that may expose handlers, and
the type declarations that their signatures refer to.
-/

namespace AnnotatedApi

set_option autoImplicit false

/-! ## Types -/

structure TypeParameter where
  name : String
  default : Option TypeExpr

structure EnumMember where
  name : String
  value : Json
deriving Repr

inductive TypeBody where
  /-- An interface, or a class that is used as a shape of data. -/
  | interface (bases : List TypeExpr) (fields : List (FieldDecl TypeExpr))
  /-- Another name for a type. -/
  | synonym (target : TypeExpr)
  | enumeration (members : List EnumMember)

structure TypeDecl where
  name : String
  /-- The name together with its module. -/
  qualifiedName : String
  parameters : List TypeParameter
  body : TypeBody
  span : Span

/-- The declaration that a name refers to: the one with this qualified name, else the first with
this simple name. -/
def lookupType (types : List TypeDecl) (name : String) : Option TypeDecl :=
  (types.find? (·.qualifiedName == name)).or (types.find? (·.name == name))

theorem mem_of_lookupType {types : List TypeDecl} {name : String} {d : TypeDecl}
    (h : lookupType types name = some d) : d ∈ types := by
  rcases Option.or_eq_some_iff.mp h with h | ⟨_, h⟩
  · exact List.mem_of_find?_eq_some h
  · exact List.mem_of_find?_eq_some h

/-! ## Classes -/

structure Annotation.Use where
  name : String
  arguments : List Annotation.Argument
  span : Span

structure ParameterDecl where
  name : String
  annotations : List Annotation.Use
  type : Option TypeExpr
  optional : Bool
  default : Option Json
  doc : Option String
  span : Span

/-- A method; one without a return type returns nothing. -/
structure MethodDecl where
  name : String
  annotations : List Annotation.Use
  parameters : List ParameterDecl
  returnType : Option TypeExpr
  doc : Option String
  span : Span

structure ConstructorDecl where
  parameters : List ParameterDecl
  span : Span

structure ClassDecl where
  name : String
  qualifiedName : String
  annotations : List Annotation.Use
  constructor : Option ConstructorDecl
  methods : List MethodDecl
  span : Span

structure Compilation where
  sourceFiles : List String
  classes : List ClassDecl
  types : List TypeDecl

def Compilation.empty : Compilation := ⟨[], [], []⟩

end AnnotatedApi
