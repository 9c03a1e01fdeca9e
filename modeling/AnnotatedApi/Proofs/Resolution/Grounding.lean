import AnnotatedApi.Proofs.Resolution.Fault

/-!
# Defaults that lead back to themselves

The default of a type parameter is resolved where the declaration is mentioned, before its expansion
is entered. Nothing keeps count of defaults, so one that mentions its own declaration without the
type argument is resolved over and over. A type expression is grounded if this does not happen: each
of its parts is, and so is each default that it falls back on. `Grounded` knows which names are
those of bound type parameters, for these mean no declaration.
-/

namespace AnnotatedApi

set_option autoImplicit false

open Resolve

/-! ## Defaults -/

/-- The defaults of type parameters that are given no argument, each with the names of the parameters
that are bound before it. -/
def TypeParameter.fallbacks : List String → List TypeParameter → List (List String × TypeExpr)
  | _, [] => []
  | names, p :: rest =>
    match p.default with
    | some u => (names, u) :: fallbacks (names ++ [p.name]) rest
    | none => fallbacks names rest

/-- The names of the type parameters that have a default. -/
def TypeParameter.defaulted (parameters : List TypeParameter) : List String :=
  (parameters.filter (·.default.isSome)).map (·.name)

namespace TypeDecl

/-- The names of the first type parameters, which have arguments. -/
def givenNames (d : TypeDecl) (given : Nat) : List String :=
  (d.parameters.take given).map (·.name)

/-- The defaults that a reference with so many type arguments falls back on. -/
def fallbacks (d : TypeDecl) (given : Nat) : List (List String × TypeExpr) :=
  TypeParameter.fallbacks (d.givenNames given) (d.parameters.drop given)

/-- The names that are bound in the expansion of a reference with so many type arguments. -/
def boundNames (d : TypeDecl) (given : Nat) : List String :=
  d.givenNames given ++ TypeParameter.defaulted (d.parameters.drop given)

end TypeDecl

/-! ## Grounded type expressions -/

namespace TypeExpr

variable (scope : Scope)

/-- Whether the type expression refers to a declaration, with so many type arguments, where the names
are those of bound type parameters. -/
inductive Mentions (names : List String) : TypeExpr → TypeDecl → Nat → Prop where
  | reference {name : String} {args : List TypeExpr} {d : TypeDecl} :
    scope.declaration? (.reference name args) = some d → (args = [] → name ∉ names) →
      Mentions names (.reference name args) d args.length

/-- Whether the defaults that the type expression falls back on come to an end. -/
inductive Grounded : List String → TypeExpr → Prop where
  | intro {names : List String} {t : TypeExpr} :
    (∀ u, t.Part scope u → Grounded names u) →
    (∀ d given, t.Mentions scope names d given → ∀ x ∈ d.fallbacks given, Grounded x.1 x.2) →
      Grounded names t

/-- What may have to be resolved for a type expression, in declarations that it leads to as well. -/
inductive Reaches : List String → TypeExpr → List String → TypeExpr → Prop where
  | refl {names : List String} {t : TypeExpr} : Reaches names t names t
  | part {names more : List String} {t u v : TypeExpr} :
    t.Part scope u → Reaches names u more v → Reaches names t more v
  | default {names more : List String} {t v : TypeExpr} {d : TypeDecl} {given : Nat}
    {x : List String × TypeExpr} :
    t.Mentions scope names d given → x ∈ d.fallbacks given → Reaches x.1 x.2 more v →
      Reaches names t more v
  | inside {names more : List String} {t u v : TypeExpr} {d : TypeDecl} {given : Nat} :
    t.Mentions scope names d given → u ∈ d.body.needs → Reaches (d.boundNames given) u more v →
      Reaches names t more v

/-- Whether all that the type expression leads to is grounded. -/
def AllGrounded (names : List String) (t : TypeExpr) : Prop :=
  ∀ more u, t.Reaches scope names more u → u.Grounded scope more

variable {scope : Scope} {names : List String} {t u : TypeExpr} {d : TypeDecl} {given : Nat}

namespace AllGrounded

theorem grounded (h : t.AllGrounded scope names) : t.Grounded scope names := h names t .refl

theorem part (h : t.AllGrounded scope names) (hpart : t.Part scope u) : u.AllGrounded scope names :=
  fun more v hv => h more v (.part hpart hv)

theorem default (h : t.AllGrounded scope names) (hd : t.Mentions scope names d given)
    {x : List String × TypeExpr} (hx : x ∈ d.fallbacks given) : x.2.AllGrounded scope x.1 :=
  fun more v hv => h more v (.default hd hx hv)

theorem inside (h : t.AllGrounded scope names) (hd : t.Mentions scope names d given)
    (hu : u ∈ d.body.needs) : u.AllGrounded scope (d.boundNames given) :=
  fun more v hv => h more v (.inside hd hu hv)

end AllGrounded

namespace Grounded

theorem part (h : t.Grounded scope names) (hpart : t.Part scope u) : u.Grounded scope names := by
  cases h with
  | intro hparts _ => exact hparts u hpart

theorem fallback (h : t.Grounded scope names) (hd : t.Mentions scope names d given)
    {x : List String × TypeExpr} (hx : x ∈ d.fallbacks given) : x.2.Grounded scope x.1 := by
  cases h with
  | intro _ hdefaults => exact hdefaults d given hd x hx

/-- What is no reference to a declaration is grounded if its parts are. -/
theorem of_parts (hd : scope.declaration? t = none)
    (h : ∀ u, t.Part scope u → u.Grounded scope names) : t.Grounded scope names := by
  refine .intro h fun d given hmentions => ?_
  cases hmentions with
  | reference hd' => simp [hd] at hd'

theorem stripUndefined (h : t.Grounded scope names) : t.stripUndefined.1.Grounded scope names := by
  cases t with
  | union ms =>
    have hkept : ∀ m ∈ ms.filter (!·.isUndefined), m.Grounded scope names :=
      fun m hm => h.part (.alternative (List.mem_filter.mp hm).1)
    rw [TypeExpr.stripUndefined]
    split
    · split
      · exact of_parts rfl fun u hu => by cases hu
      · rename_i single heq
        exact hkept single (by rw [heq]; exact List.mem_cons_self ..)
      · refine of_parts rfl fun u hu => ?_
        cases hu with
        | alternative hm => exact hkept u hm
    · exact h
  | _ => exact h

end Grounded

variable (scope) in
/-- Whether the defaults of all declarations are grounded. -/
def DefaultsGrounded : Prop :=
  ∀ d ∈ scope.types, ∀ given, ∀ x ∈ d.fallbacks given, x.2.Grounded scope x.1

theorem DefaultsGrounded.of_parts (h : DefaultsGrounded scope)
    (hparts : ∀ u, t.Part scope u → u.Grounded scope names) : t.Grounded scope names := by
  refine .intro hparts fun d given hd x hx => ?_
  cases hd with
  | reference hd _ => exact h d (Scope.mem_of_declaration? hd) _ x hx

mutual

/-- If the defaults of all declarations are grounded, everything is. -/
theorem DefaultsGrounded.grounded (h : DefaultsGrounded scope) (names : List String) :
    ∀ t : TypeExpr, t.Grounded scope names
  | .array e => h.of_parts fun _ hu => by
      cases hu
      exact DefaultsGrounded.grounded h names e
  | .tuple es => h.of_parts fun _ hu => by
      cases hu with
      | component he => exact DefaultsGrounded.groundedList h names es _ he
  | .union ms => h.of_parts fun _ hu => by
      cases hu with
      | alternative hm => exact DefaultsGrounded.groundedList h names ms _ hm
  | .intersection ms => h.of_parts fun _ hu => by
      cases hu with
      | member hm => exact DefaultsGrounded.groundedList h names ms _ hm
  | .reference _ args => h.of_parts fun _ hu => by
      cases hu with
      | argument _ ha => exact DefaultsGrounded.groundedList h names args _ ha
  | .object fs => h.of_parts fun _ hu => by
      cases hu with
      | field hf => exact (DefaultsGrounded.groundedFields h names fs _ hf).stripUndefined
  | .keyword _ => .of_parts rfl fun _ hu => by cases hu
  | .literal _ => .of_parts rfl fun _ hu => by cases hu
  | .parameter _ => .of_parts rfl fun _ hu => by cases hu
  | .function _ _ => .of_parts rfl fun _ hu => by cases hu

theorem DefaultsGrounded.groundedList (h : DefaultsGrounded scope) (names : List String) :
    ∀ ts : List TypeExpr, ∀ t ∈ ts, t.Grounded scope names
  | [] => by simp
  | t :: ts => List.forall_mem_cons.mpr
      ⟨DefaultsGrounded.grounded h names t, DefaultsGrounded.groundedList h names ts⟩

theorem DefaultsGrounded.groundedFields (h : DefaultsGrounded scope) (names : List String) :
    ∀ fs : List (FieldDecl TypeExpr), ∀ f ∈ fs, f.type.Grounded scope names
  | [] => by simp
  | ⟨_, t, _, _, _, _⟩ :: fs => List.forall_mem_cons.mpr
      ⟨DefaultsGrounded.grounded h names t, DefaultsGrounded.groundedFields h names fs⟩

end

end TypeExpr

end AnnotatedApi
