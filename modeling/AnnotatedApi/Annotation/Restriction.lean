import AnnotatedApi.Text.Blank
import AnnotatedApi.WireType.Basic

/-!
# Type restrictions

A binding may restrict the types of the parameters that it binds. A restriction is written as one
of six names or as `array<...>` around another restriction, with white space allowed around each.

A union is permitted when every member that is neither `null` nor `void` is accepted, and there is
one: these two only say that the value may be missing.
-/

namespace AnnotatedApi

set_option autoImplicit false

inductive Restriction where
  | string
  | number
  | boolean
  | date
  | object
  /-- A type of which only the name is kept. -/
  | unexpanded
  | arrayOf (element : Restriction)
deriving DecidableEq, Repr

/-- A text that is no restriction: what is left of it inside all `array<...>`. -/
structure UnknownRestriction where
  text : String
deriving DecidableEq, Repr

def UnknownRestriction.message (u : UnknownRestriction) : String :=
  "unknown type restriction `" ++ u.text ++ "`"

namespace Restriction

/-! ## Text -/

def display : Restriction → String
  | string => "string"
  | number => "number"
  | boolean => "boolean"
  | date => "date"
  | object => "object"
  | unexpanded => "opaque"
  | arrayOf element => "array<" ++ element.display ++ ">"

def simple : List Restriction := [string, number, boolean, date, object, unexpanded]

/-- What stands between `array<` and a final `>`. -/
def elementChars? (cs : List Char) : Option (List Char) :=
  match cs with
  | 'a' :: 'r' :: 'r' :: 'a' :: 'y' :: '<' :: rest =>
    if rest.getLast? = some '>' then some rest.dropLast else none
  | _ => none

theorem length_elementChars?_lt {cs inner : List Char} (h : elementChars? cs = some inner) :
    inner.length < cs.length := by
  unfold elementChars? at h
  split at h
  · split at h
    · cases h
      simp
      omega
    · cases h
  · cases h

theorem length_trimChars_le (cs : List Char) : (Text.trimChars cs).length ≤ cs.length := by
  have hd : ∀ ds : List Char, (ds.dropWhile Text.isBlank).length ≤ ds.length :=
    fun ds => (List.dropWhile_sublist _).length_le
  have h := hd (cs.dropWhile Text.isBlank).reverse
  have h' := hd cs
  simp only [List.length_reverse] at h
  simp only [Text.trimChars, List.length_reverse]
  omega

def ofChars (cs : List Char) : Except UnknownRestriction Restriction :=
  match _h : elementChars? (Text.trimChars cs) with
  | some inner => (ofChars inner).map arrayOf
  | none =>
    let text := String.ofList (Text.trimChars cs)
    match simple.find? (·.display == text) with
    | some r => .ok r
    | none => .error ⟨text⟩
termination_by cs.length
decreasing_by
  have := length_elementChars?_lt _h
  have := length_trimChars_le cs
  omega

def ofText (text : String) : Except UnknownRestriction Restriction := ofChars text.toList

/-! ## Meaning -/

def widensTo (p : Primitive) : WireType → Bool
  | .primitive q => q == p
  | .literal v => v.primitive == p
  | _ => false

/-- Whether a type says no more than that the value may be missing. -/
def isAbsence (t : WireType) : Bool := t.isPrimitive .null || t.isPrimitive .void

/-- Whether a type, or every member of a union that is not an absence, is accepted. -/
def permittedBy (accepts : WireType → Bool) : WireType → Bool
  | .union members =>
    let valued := members.filter (!isAbsence ·)
    !valued.isEmpty && valued.all accepts
  | t => accepts t

/-- Whether a type that is not a union has the shape. Any shape accepts `any`. -/
def accepts : Restriction → WireType → Bool
  | _, .primitive .any => true
  | string, t => widensTo .string t
  | number, t => widensTo .number t
  | boolean, t => widensTo .boolean t
  | date, t => t.isPrimitive .date
  | object, .object _ _ _ _ => true
  | object, .generic _ _ => true
  | object, .back _ => true
  | unexpanded, .unexpanded _ => true
  | arrayOf element, .array t => permittedBy (fun t => element.accepts t) t
  | _, _ => false

end Restriction

/-- Whether a type has one of the shapes; without restrictions every type does. -/
def permits (restrictions : List Restriction) (t : WireType) : Bool :=
  restrictions.isEmpty ||
    Restriction.permittedBy (fun t => restrictions.any (·.accepts t)) t

end AnnotatedApi
