import AnnotatedApi.Resolve.Resolver

/-!
# What is wrong with a type

Whether a type has a wire form can be read off the declarations: it has none if somewhere in what it
needs there is a keyword without a wire form, a name that means nothing, or the like. Declarations may
lead back to themselves, so this is a matter of paths: a type is faulty if one leads from it to a
fault. Some declarations may be left out of account; `Faulty.cut` says when that makes no difference.
-/

namespace AnnotatedApi

set_option autoImplicit false

namespace Resolve

/-- The declaration that a type expression refers to. A name that is kept as it is refers to none. -/
def Scope.declaration? (scope : Scope) : TypeExpr → Option TypeDecl
  | .reference name _ =>
    if scope.options.nameOnly.contains name then none else lookupType scope.types name
  | _ => none

theorem Scope.declaration?_kept {scope : Scope} {name : String}
    (h : scope.options.nameOnly.contains name = true) (args : List TypeExpr) :
    scope.declaration? (.reference name args) = none :=
  if_pos h

theorem Scope.declaration?_free {scope : Scope} {name : String}
    (h : scope.options.nameOnly.contains name = false) (args : List TypeExpr) :
    scope.declaration? (.reference name args) = lookupType scope.types name :=
  if_neg (by simpa using h)

theorem Scope.mem_of_declaration? {scope : Scope} {t : TypeExpr} {d : TypeDecl}
    (h : scope.declaration? t = some d) : d ∈ scope.types := by
  unfold Scope.declaration? at h
  split at h
  · split at h
    · cases h
    · exact mem_of_lookupType h
  · cases h

end Resolve

open Resolve

namespace TypeBody

/-- The declared fields, if the declaration stands for an object of its own. -/
def fields? : TypeBody → Option (List (FieldDecl TypeExpr))
  | interface _ fields => some fields
  | synonym (.object fields) => some fields
  | _ => none

/-- The type expressions of which only the value is used, not the type itself: the base types of an
interface, and what a synonym stands for. -/
def opened : TypeBody → List TypeExpr
  | interface bases _ => bases
  | synonym (.object _) => []
  | synonym target => [target]
  | enumeration _ => []

/-- The type expressions that a declaration is made of. -/
def needs (b : TypeBody) : List TypeExpr := (b.fields?.map TypeExpr.object).toList ++ b.opened

theorem needs_of_fields? {b : TypeBody} {fs : List (FieldDecl TypeExpr)} (h : b.fields? = some fs) :
    b.needs = .object fs :: b.opened := by
  rw [needs, h]
  rfl

theorem opened_of_synonym {b : TypeBody} {target : TypeExpr} (h : b = .synonym target)
    (hnone : b.fields? = none) : b.opened = [target] := by
  subst h
  cases target with
  | object fs => cases hnone
  | _ => rfl

end TypeBody

/-- An enumeration without members, or with a member that is no literal. -/
def TypeDecl.EnumFault (d : TypeDecl) : Prop :=
  ∃ members, d.body = .enumeration members ∧ ∀ l ls, enumLiterals d.name members ≠ .ok (l :: ls)

theorem TypeDecl.not_enumFault {d : TypeDecl} (h : ∀ members, d.body ≠ .enumeration members) :
    ¬ d.EnumFault :=
  fun ⟨members, hbody, _⟩ => h members hbody

namespace TypeExpr

variable (scope : Scope)

/-- What has to be resolved for a type expression before any declaration is expanded. -/
inductive Part : TypeExpr → TypeExpr → Prop where
  | element {e : TypeExpr} : Part (.array e) e
  | component {es : List TypeExpr} {e : TypeExpr} : e ∈ es → Part (.tuple es) e
  | alternative {ms : List TypeExpr} {m : TypeExpr} : m ∈ ms → Part (.union ms) m
  | member {ms : List TypeExpr} {m : TypeExpr} : m ∈ ms → Part (.intersection ms) m
  | argument {name : String} {args : List TypeExpr} {a : TypeExpr} :
    scope.options.nameOnly.contains name = false → a ∈ args → Part (.reference name args) a
  | field {fs : List (FieldDecl TypeExpr)} {f : FieldDecl TypeExpr} :
    f ∈ fs → Part (.object fs) f.type.stripUndefined.1

/-- A fault of the type expression itself, whatever there is inside it. -/
inductive Fault : TypeExpr → Prop where
  | keyword {name : String} {reason : Reason} :
    keywordPrimitive name = .error reason → Fault (.keyword name)
  | literal {value : Json} : Literal.ofJson? value = none → value ≠ .null → Fault (.literal value)
  | emptyTuple : Fault (.tuple [])
  | function {ps : List TypeExpr} {result : TypeExpr} : Fault (.function ps result)
  | tooManyArguments {name : String} {args : List TypeExpr} {d : TypeDecl} :
    scope.declaration? (.reference name args) = some d → d.parameters.length < args.length →
      Fault (.reference name args)
  /-- The name is neither declared nor that of a built-in type with so many type arguments. -/
  | unknown {name : String} {args : List TypeExpr} :
    scope.options.nameOnly.contains name = false → lookupType scope.types name = none →
      (∀ b, builtin? name = some b → args.length ≠ b.arity) → Fault (.reference name args)

/-- A fault can be reached from the type expression without a look inside the declarations in
`avoid`. -/
inductive Faulty (avoid : TypeDecl → Prop) : TypeExpr → Prop where
  | here {t : TypeExpr} : Fault scope t → Faulty avoid t
  | part {t u : TypeExpr} : Part scope t u → Faulty avoid u → Faulty avoid t
  | default {name : String} {args : List TypeExpr} {d : TypeDecl} {p : TypeParameter} {u : TypeExpr} :
    scope.declaration? (.reference name args) = some d → p ∈ d.parameters.drop args.length →
      p.default = some u → Faulty avoid u → Faulty avoid (.reference name args)
  | inside {t : TypeExpr} {d : TypeDecl} {u : TypeExpr} :
    scope.declaration? t = some d → ¬ avoid d → u ∈ d.body.needs → Faulty avoid u → Faulty avoid t
  | enumeration {t : TypeDecl} {u : TypeExpr} :
    scope.declaration? u = some t → ¬ avoid t → t.EnumFault → Faulty avoid u

end TypeExpr

/-- A fault can be reached from inside the declaration. -/
def TypeDecl.Faulty (scope : Scope) (avoid : TypeDecl → Prop) (d : TypeDecl) : Prop :=
  d.EnumFault ∨ ∃ u ∈ d.body.needs, u.Faulty scope avoid

variable {scope : Scope} {avoid avoid' : TypeDecl → Prop} {t : TypeExpr} {d : TypeDecl}

namespace TypeExpr.Faulty

theorem mono (h : t.Faulty scope avoid) (hle : ∀ d, avoid' d → avoid d) : t.Faulty scope avoid' := by
  induction h with
  | here h => exact .here h
  | part hpart _ ih => exact .part hpart ih
  | default hd hp hdefault _ ih => exact .default hd hp hdefault ih
  | inside hd hnot hu _ ih => exact .inside hd (mt (hle _) hnot) hu ih
  | enumeration hd hnot h => exact .enumeration hd (mt (hle _) hnot) h

/-- A path to a fault can be cut where it enters a declaration for the last time. -/
theorem cut (h : t.Faulty scope avoid) (d : TypeDecl) :
    t.Faulty scope (fun e => e = d ∨ avoid e) ∨ d.Faulty scope (fun e => e = d ∨ avoid e) := by
  induction h with
  | here h => exact .inl (.here h)
  | part hpart _ ih => exact ih.imp_left (.part hpart)
  | default hd hp hdefault _ ih => exact ih.imp_left (.default hd hp hdefault)
  | @inside t e u hd hnot hu _ ih =>
    rcases ih with ih | ih
    · by_cases he : e = d
      · exact .inr (.inr ⟨u, he ▸ hu, ih⟩)
      · exact .inl (.inside hd (not_or.mpr ⟨he, hnot⟩) hu ih)
    · exact .inr ih
  | @enumeration e u hd hnot h =>
    by_cases he : e = d
    · exact .inr (.inl (he ▸ h))
    · exact .inl (.enumeration hd (not_or.mpr ⟨he, hnot⟩) h)

theorem not_of_parts (hd : scope.declaration? t = none) (hfault : ¬ t.Fault scope)
    (hparts : ∀ u, t.Part scope u → ¬ u.Faulty scope avoid) : ¬ t.Faulty scope avoid := by
  intro h
  cases h with
  | here h => exact hfault h
  | part hpart h => exact hparts _ hpart h
  | default hd' => simp [hd'] at hd
  | inside hd' => simp [hd'] at hd
  | enumeration hd' => simp [hd'] at hd

theorem not_of_declaration {name : String} {args : List TypeExpr}
    (hd : scope.declaration? (.reference name args) = some d)
    (hlength : args.length ≤ d.parameters.length) (hargs : ∀ a ∈ args, ¬ a.Faulty scope avoid)
    (hdefaults : ∀ p ∈ d.parameters.drop args.length, ∀ u, p.default = some u →
      ¬ u.Faulty scope avoid)
    (hbody : avoid d ∨ ¬ d.Faulty scope avoid) :
    ¬ (TypeExpr.reference name args).Faulty scope avoid := by
  have hsame : ∀ e, scope.declaration? (.reference name args) = some e → e = d := by
    intro e he
    rw [he] at hd
    exact Option.some.inj hd
  intro h
  cases h with
  | here h =>
    cases h with
    | tooManyArguments he hlt =>
      rw [hsame _ he] at hlt
      exact absurd hlt (Nat.not_lt.mpr hlength)
    | unknown hname hlookup => simp [Scope.declaration?, hlookup] at hd
  | part hpart h =>
    cases hpart with
    | argument _ ha => exact hargs _ ha h
  | default he hp hdefault h =>
    rw [hsame _ he] at hp
    exact hdefaults _ hp _ hdefault h
  | inside he hnot hu h =>
    rw [hsame _ he] at hnot hu
    exact hbody.elim hnot fun hnot => hnot (.inr ⟨_, hu, h⟩)
  | enumeration he hnot h =>
    rw [hsame _ he] at hnot h
    exact hbody.elim hnot fun hnot => hnot (.inl h)

end TypeExpr.Faulty

namespace TypeDecl.Faulty

theorem mono (h : d.Faulty scope avoid) (hle : ∀ d, avoid' d → avoid d) : d.Faulty scope avoid' :=
  h.imp_right fun ⟨u, hu, hfaulty⟩ => ⟨u, hu, hfaulty.mono hle⟩

theorem cut (h : d.Faulty scope avoid) : d.Faulty scope (fun e => e = d ∨ avoid e) := by
  rcases h with h | ⟨u, hu, hfaulty⟩
  · exact .inl h
  · exact (hfaulty.cut d).elim (fun h => .inr ⟨u, hu, h⟩) id

end TypeDecl.Faulty

end AnnotatedApi
