import AnnotatedApi.Json.Printer
import AnnotatedApi.Source.Span

/-!
# Type expressions

A type as the host's type checker writes it: keywords, references to declarations, and the operators
that combine them.
-/

namespace AnnotatedApi

set_option autoImplicit false

structure FieldDecl (α : Type) where
  name : String
  type : α
  optional : Bool
  default : Option Json
  description : Option String
  span : Span

inductive TypeExpr where
  | keyword (name : String)
  | literal (value : Json)
  | array (element : TypeExpr)
  | tuple (elements : List TypeExpr)
  | union (members : List TypeExpr)
  | intersection (members : List TypeExpr)
  | reference (name : String) (arguments : List TypeExpr)
  /-- A type parameter of the enclosing declaration. -/
  | parameter (name : String)
  /-- An inline object type. -/
  | object (fields : List (FieldDecl TypeExpr))
  | function (parameters : List TypeExpr) (result : TypeExpr)

namespace TypeExpr

/-- Whether the type says no more than that there is no value. -/
def isUndefined : TypeExpr → Bool
  | keyword name => name == "undefined" || name == "void"
  | _ => false

/-- The type without the undefined members of a union, and whether there were any. -/
def stripUndefined : TypeExpr → TypeExpr × Bool
  | union members =>
    if members.any isUndefined then
      match members.filter (!isUndefined ·) with
      | [] => (keyword "undefined", true)
      | [single] => (single, true)
      | rest => (union rest, true)
    else (union members, false)
  | t => (t, false)

/-- Whether the type is a union with a member that says that there is no value. -/
def MayBeUndefined (t : TypeExpr) : Prop :=
  ∃ members, t = union members ∧ ∃ m ∈ members, m.isUndefined = true

theorem stripUndefined_iff {t : TypeExpr} : t.stripUndefined.2 = true ↔ t.MayBeUndefined := by
  cases t with
  | union members =>
    have hany : (union members).stripUndefined.2 = members.any isUndefined := by
      rw [stripUndefined]
      split
      · rename_i h
        rw [h]
        split <;> rfl
      · rename_i h
        exact (Bool.eq_false_iff.mpr h).symm
    simp [hany, MayBeUndefined]
  | _ => simp [stripUndefined, MayBeUndefined]

mutual

def display : TypeExpr → String
  | keyword name => name
  | literal value => value.compact
  | array e => display e ++ "[]"
  | tuple elements => "[" ++ String.intercalate ", " (displayList elements) ++ "]"
  | union members => String.intercalate " | " (displayList members)
  | intersection members => String.intercalate " & " (displayList members)
  | reference name [] => name
  | reference name (a :: rest) =>
    name ++ "<" ++ String.intercalate ", " (display a :: displayList rest) ++ ">"
  | parameter name => name
  | object _ => "\x7b ... \x7d"
  | function _ _ => "function"

def displayList : List TypeExpr → List String
  | [] => []
  | t :: rest => display t :: displayList rest

end

end TypeExpr

end AnnotatedApi
