import AnnotatedApi.Text.Quoted

/-!
# Why a type is not resolved

A type may have no wire form, which is a fault of the input. Two further failures are no fault of
the input: a broken invariant of the resolver, and a recursion deeper than the caller allows.
-/

namespace AnnotatedApi.Resolve

set_option autoImplicit false

inductive Reason where
  | literalKind
  | emptyTuple
  | functionType
  | unserializable
  | unknownKeyword
  | undeclared
  | argumentCount (expected given : Nat)
  | tooManyArguments (most given : Nat)
  | tooDeep (limit : Nat)
  | baseNotObject (base : String)
  | recursiveSynonym
  | enumMember (name : String)
  | emptyEnum
  | intersectionMember
deriving DecidableEq, Repr

def Reason.message : Reason → String
  | literalKind => "only string, number, and boolean literal types are supported"
  | emptyTuple => "empty tuple"
  | functionType => "function types have no serializable representation"
  | unserializable => "no serializable representation"
  | unknownKeyword => "unknown keyword type"
  | undeclared => "no declaration with this name"
  | argumentCount expected given =>
    "expects " ++ toString expected ++ " type argument(s), got " ++ toString given
  | tooManyArguments most given =>
    "expects at most " ++ toString most ++ " type argument(s), got " ++ toString given
  | tooDeep limit =>
    "type instantiation is excessively deep (more than " ++ toString limit ++
      " nested generic instances)"
  | baseNotObject base => "base type `" ++ base ++ "` is not an object shape"
  | recursiveSynonym => "a recursive alias must be an object shape"
  | enumMember name => "enum member `" ++ name ++ "` is not a string or number"
  | emptyEnum => "enum has no members"
  | intersectionMember => "only intersections of object shapes are supported"

structure Unsupported where
  type : String
  reason : Reason
deriving DecidableEq, Repr

def Unsupported.message (u : Unsupported) : String :=
  "unsupported type `" ++ u.type ++ "`: " ++ u.reason.message

inductive InvariantFault where
  /-- An expansion was entered and not left, or the other way round. -/
  | unbalanced (type : String) (before after : Nat)
  /-- A type with open references was to be remembered. -/
  | openEntry (key : String) (pending : List String)
  /-- An object was remembered under an identity that it does not have. -/
  | foreignEntry (key identity : String)
deriving DecidableEq, Repr

def InvariantFault.message : InvariantFault → String
  | unbalanced type before after =>
    "identity stack unbalanced after resolving `" ++ type ++ "` (" ++ toString before ++ " -> " ++
      toString after ++ ")"
  | openEntry key pending =>
    "refusing to cache `" ++ key ++ "` with unterminated recursive references to " ++
      Text.quotedSet pending
  | foreignEntry key identity =>
    "cache entry `" ++ key ++ "` holds object `" ++ identity ++ "`"

inductive Failure where
  | unsupported (cause : Unsupported)
  | invariant (fault : InvariantFault)
  /-- The allowed depth of recursion is used up. -/
  | exhausted
deriving DecidableEq, Repr

def Failure.message : Failure → String
  | unsupported cause => cause.message
  | invariant fault => "type resolver invariant violated: " ++ fault.message
  | exhausted => "type resolution does not come to an end"

end AnnotatedApi.Resolve
