import AnnotatedApi.Compilation.Declaration
import AnnotatedApi.Resolve.Cache
import AnnotatedApi.Resolve.Context
import AnnotatedApi.WireType.Name

/-!
# Resolving types

Resolution turns a type expression into a wire type. A declaration is expanded once for every list
of type arguments and then remembered; one that is met again while it is being expanded becomes a
reference back to the enclosing object.

`resolveStep` says what happens to one type expression, given how the expressions inside it are
resolved. `resolveType` ties the knot up to a depth of recursion, which is its first argument; every
rule about resolution is a rule about one step. Nothing but that depth bounds the recursion: a type
parameter whose default is its own declaration never comes to an end.
-/

namespace AnnotatedApi.Resolve

set_option autoImplicit false

structure Options where
  /-- Names of types that are kept by name only. -/
  nameOnly : List String
  /-- How many generic declarations may be expanded inside each other. -/
  maxDepth : Nat

def defaultMaxDepth : Nat := 32

def Options.default : Options := ⟨[], defaultMaxDepth⟩

/-- What a resolver can see: the declarations and its settings. -/
structure Scope where
  types : List TypeDecl
  options : Options

structure State where
  cache : Cache
  context : Context

/-- A resolution under way: it may fail, and what it changed stays changed when it does. -/
abbrev Resolving := EStateM Failure State

variable {α : Type}

/-! ## Moving through the context -/

/-- Runs the body in a changed context and changes the context back, however the body ends. -/
def within (enter leave : Context → Context) (body : Resolving α) : Resolving α := fun s =>
  match body { s with context := enter s.context } with
  | .ok a s => .ok a { s with context := leave s.context }
  | .error e s => .error e { s with context := leave s.context }

def inField (name : String) (body : Resolving α) : Resolving α :=
  within (Context.pushField name) Context.popField body

def inEnvironment (environment : Table WireType) (body : Resolving α) : Resolving α := do
  let outer := (← get).context.environment
  within ({ · with environment := environment }) ({ · with environment := outer }) body

def inFrame (frame : Frame) (environment : Table WireType) (body : Resolving α) :
    Resolving α := do
  let outer := (← get).context
  within (Context.enter frame environment) (Context.leave outer.environment outer.fieldPath) body

def unsupported (type : String) (reason : Reason) : Resolving α :=
  throw (.unsupported ⟨type, reason⟩)

/-! ## Keywords and built-in types -/

def keywordPrimitive (name : String) : Except Reason Primitive :=
  match name with
  | "string" => .ok .string
  | "number" => .ok .number
  | "boolean" => .ok .boolean
  | "null" => .ok .null
  | "undefined" | "void" => .ok .void
  | "any" | "unknown" | "object" => .ok .any
  | "never" | "symbol" | "bigint" => .error .unserializable
  | _ => .error .unknownKeyword

/-- The type constructors that need no declaration. -/
inductive Builtin where
  | scalar (p : Primitive)
  | promise
  | list
  | dictionary
deriving DecidableEq, Repr

def builtin? (name : String) : Option Builtin :=
  match name with
  | "Date" => some (.scalar .date)
  | "String" => some (.scalar .string)
  | "Number" => some (.scalar .number)
  | "Boolean" => some (.scalar .boolean)
  | "Promise" => some .promise
  | "Array" | "ReadonlyArray" | "Set" => some .list
  | "Record" | "Map" => some .dictionary
  | _ => none

def Builtin.arity : Builtin → Nat
  | scalar _ => 0
  | promise => 1
  | list => 1
  | dictionary => 2

def Builtin.apply (name : String) : Builtin → List WireType → WireType
  | scalar p, _ => .primitive p
  | promise, t :: _ => .promise t
  | list, t :: _ => .array t
  | _, arguments => .generic name arguments

/-! ## Fields -/

/-- Adds a field; a later declaration of a field replaces an earlier one in its place. -/
def mergeField (fields : List (Field WireType)) (field : Field WireType) :
    List (Field WireType) :=
  match fields with
  | [] => [field]
  | f :: rest => if f.name = field.name then field :: rest else f :: mergeField rest field

def mergeFields (fields added : List (Field WireType)) : List (Field WireType) :=
  added.foldl mergeField fields

section Step

variable (scope : Scope) (resolve : TypeExpr → Resolving WireType)

/-- Resolves a field. An undefined member of a union makes the field optional and is dropped. -/
def resolveField (f : FieldDecl TypeExpr) : Resolving (Field WireType) := do
  let (type, undefined) := f.type.stripUndefined
  let resolved ← inField f.name (resolve type)
  return ⟨f.name, resolved, !(f.optional || f.default.isSome || undefined), f.description⟩

def resolveFields (fields : List (FieldDecl TypeExpr)) : Resolving (List (Field WireType)) :=
  fields.mapM (resolveField resolve)

def resolveBases (declaration : String) :
    List TypeExpr → List (Field WireType) → Resolving (List (Field WireType))
  | [], merged => return merged
  | base :: rest, merged => do
    match ← resolve base with
    | .object _ _ _ fields => resolveBases declaration rest (mergeFields merged fields)
    | _ => unsupported declaration (.baseNotObject base.display)

/-- The objects of an intersection: their identities, their names, and their fields merged. -/
def resolveMembers (text : String) :
    List TypeExpr → List (Field WireType) →
      Resolving (List String × List String × List (Field WireType))
  | [], merged => return ([], [], merged)
  | member :: rest, merged => do
    match ← resolve member with
    | .object identity name arguments fields =>
      let (identities, names, merged) ← resolveMembers text rest (mergeFields merged fields)
      return (identity :: identities,
        (WireType.object identity name arguments fields).display :: names, merged)
    | _ => unsupported text .intersectionMember

/-! ## Declarations -/

/-- The values of the type parameters. Arguments mean what they mean to the caller; a default may
refer to earlier parameters. A parameter with neither stays unbound and stands for itself. -/
def bindParameters :
    List TypeParameter → List TypeExpr → Table WireType →
      Resolving (Table WireType × List WireType)
  | [], _, environment => return (environment, [])
  | p :: rest, arguments, environment => do
    let bound ← match arguments, p.default with
      | argument :: _, _ => some <$> resolve argument
      | [], some default => some <$> inEnvironment environment (resolve default)
      | [], none => pure none
    match bound with
    | some t =>
      let (environment, values) ←
        bindParameters rest arguments.tail (environment.put p.name t)
      return (environment, t :: values)
    | none =>
      let (environment, values) ← bindParameters rest arguments.tail environment
      return (environment, .generic p.name [] :: values)

def enumLiterals (declaration : String) (members : List EnumMember) :
    Except Unsupported (List Literal) :=
  members.mapM fun m =>
    match Literal.ofJson? m.value with
    | some literal => .ok literal
    | none => .error ⟨declaration, .enumMember m.name⟩

/-- Expands a declaration whose frame is entered. The flag tells whether the result may be
remembered under the identity of the declaration. -/
def expand (d : TypeDecl) (identity : String) (arguments : List WireType) :
    Resolving (WireType × Bool) := do
  match d.body with
  | .interface bases fields =>
    let inherited ← resolveBases resolve d.name bases []
    let own ← resolveFields resolve fields
    return (.object identity (some d.name) arguments (mergeFields inherited own), true)
  | .synonym (.object fields) =>
    return (.object identity (some d.name) arguments (← resolveFields resolve fields), true)
  | .synonym target =>
    let t ← resolve target
    if t.openReferences.contains identity then unsupported d.name .recursiveSynonym
    else return (t, false)
  | .enumeration members =>
    match enumLiterals d.name members with
    | .error cause => throw (.unsupported cause)
    | .ok [] => unsupported d.name .emptyEnum
    | .ok literals => return (WireType.unionOf (literals.map .literal), true)

/-- The identity of a declaration with its type arguments. -/
def instanceIdentity (d : TypeDecl) (arguments : List WireType) : String :=
  if d.parameters.isEmpty then d.qualifiedName
  else d.qualifiedName ++ "<" ++ String.intercalate ", " (arguments.map WireType.key) ++ ">"

def remembered? (identity : String) : Resolving (Option WireType) := fun s =>
  match s.cache.find identity with
  | .ok (found, cache) => .ok found { s with cache := cache }
  | .error fault => .error (.invariant fault) s

def remember (identity : String) (t : WireType) : Resolving Unit := fun s =>
  match s.cache.insert identity t with
  | .ok cache => .ok () { s with cache := cache }
  | .error fault => .error (.invariant fault) s

/-- Expands an instance that is neither being expanded nor remembered, and remembers it if it
can be shared. -/
def expandInstance (d : TypeDecl) (identity : String) (environment : Table WireType)
    (arguments : List WireType) : Resolving WireType := do
  let generic := !d.parameters.isEmpty
  if generic && scope.options.maxDepth ≤ (← get).context.genericDepth then
    unsupported d.name (.tooDeep scope.options.maxDepth)
  else
    let (t, shareable) ←
      inFrame ⟨identity, generic⟩ environment (expand resolve d identity arguments)
    -- A type with open references means nothing outside the expansions around it.
    if shareable && t.isClosed then remember identity t
    return t

def resolveDeclaration (d : TypeDecl) (arguments : List TypeExpr) : Resolving WireType := do
  if d.parameters.length < arguments.length then
    unsupported d.name (.tooManyArguments d.parameters.length arguments.length)
  else
    let (environment, values) ← bindParameters resolve d.parameters arguments []
    let identity := instanceIdentity d values
    if (← get).context.isExpanding identity then return .back identity
    else
      match ← remembered? identity with
      | some t => return t
      | none => expandInstance scope resolve d identity environment values

def resolveBuiltin (name : String) (arguments : List TypeExpr) : Resolving WireType := do
  match builtin? name with
  | none => unsupported name .undeclared
  | some b =>
    if arguments.length = b.arity then return b.apply name (← arguments.mapM resolve)
    else unsupported name (.argumentCount b.arity arguments.length)

def parameterValue? (name : String) : Resolving (Option WireType) :=
  return (← get).context.environment.get? name

/-- Resolves a reference: a bare name may be a type parameter; then come the types kept by name
only, the declarations, and the built-in types. -/
def resolveReference (name : String) (arguments : List TypeExpr) : Resolving WireType := do
  -- A type parameter takes no arguments.
  let bound ← if arguments.isEmpty then parameterValue? name else pure none
  match bound with
  | some t => return t
  | none =>
    if scope.options.nameOnly.contains name then return .unexpanded name
    else
      match lookupType scope.types name with
      | some d => resolveDeclaration scope resolve d arguments
      | none => resolveBuiltin resolve name arguments

/-! ## Type expressions -/

/-- Resolves one type expression, given how those inside it are resolved. -/
def resolveStep (t : TypeExpr) : Resolving WireType := do
  match t with
  | .keyword name =>
    match keywordPrimitive name with
    | .ok p => return .primitive p
    | .error reason => unsupported name reason
  | .literal value =>
    match Literal.ofJson? value, value with
    | some literal, _ => return .literal literal
    | none, .null => return .primitive .null
    | none, value => unsupported value.compact .literalKind
  | .array element => return .array (← inField "[]" (resolve element))
  | .tuple [] => unsupported "[]" .emptyTuple
  | .tuple elements => return .array (WireType.unionOf (← elements.mapM resolve))
  | .union members => return WireType.unionOf (← members.mapM resolve)
  | .intersection members =>
    let (identities, names, fields) ← resolveMembers resolve t.display members []
    return .object (String.intercalate " & " identities) (some (String.intercalate " & " names)) []
      fields
  | .parameter name =>
    match ← parameterValue? name with
    | some t => return t
    | none => return .generic name []
  | .reference name arguments => resolveReference scope resolve name arguments
  | .object fields =>
    let identity := (← get).context.inlineIdentity
    return .object identity none [] (← resolveFields resolve fields)
  | .function _ _ => unsupported t.display .functionType

end Step

/-- Resolves a type expression with at most the given depth of recursion. -/
def resolveType (scope : Scope) : Nat → TypeExpr → Resolving WireType
  | 0, _ => throw .exhausted
  | depth + 1, t => resolveStep scope (resolveType scope depth) t

end Resolve

/-! ## Resolvers -/

/-- A resolver for one compilation: what it can see and what it remembers. -/
structure Resolver where
  scope : Resolve.Scope
  cache : Resolve.Cache

namespace Resolver

open Resolve

def fresh (types : List TypeDecl) (options : Options) : Resolver :=
  ⟨⟨types, options⟩, .empty⟩

def reset (r : Resolver) : Resolver := { r with cache := .empty }

/-- Resolves a type expression in a context. The result comes with the context and the resolver
afterwards; an expansion that is still entered is a broken invariant. -/
def resolve (r : Resolver) (depth : Nat) (t : TypeExpr) (context : Context) :
    Except Failure WireType × Context × Resolver :=
  let settle (result : Except Failure WireType) (s : State) :=
    let result := if s.context.depth = context.depth then result
      else .error (.invariant (.unbalanced t.display context.depth s.context.depth))
    (result, s.context, { r with cache := s.cache })
  match resolveType r.scope depth t ⟨r.cache, context⟩ with
  | .ok w s => settle (.ok w) s
  | .error e s => settle (.error e) s

def nameOnly (t : TypeExpr) : WireType := .unexpanded t.display

end Resolver

end AnnotatedApi
