import AnnotatedApi.Proofs.Resolution.Fault
import AnnotatedApi.Proofs.WireType.OpenReferences

/-!
# References and declarations, case by case

The rules for references and for declarations decide between several cases in one go. Here each case
has its own equation.
-/

namespace AnnotatedApi

set_option autoImplicit false

open Resolve

/-- What a declaration comes down to when it is expanded. -/
inductive TypeDecl.Form (d : TypeDecl) : Prop where
  | interface {bases : List TypeExpr} {fs : List (FieldDecl TypeExpr)} :
    d.body = .interface bases fs → Form d
  | object {fs : List (FieldDecl TypeExpr)} : d.body = .synonym (.object fs) → Form d
  | synonym {target : TypeExpr} : d.body = .synonym target → d.body.fields? = none → Form d
  | enumeration {members : List EnumMember} {l : Literal} {ls : List Literal} :
    d.body = .enumeration members → enumLiterals d.name members = .ok (l :: ls) → Form d
  | fault : d.EnumFault → Form d

theorem TypeDecl.form (d : TypeDecl) : d.Form := by
  cases hbody : d.body with
  | interface bases fs => exact .interface hbody
  | synonym target =>
    cases target with
    | object fs => exact .object hbody
    | _ => exact .synonym hbody (by rw [hbody]; rfl)
  | enumeration members =>
    by_cases h : ∃ l ls, enumLiterals d.name members = .ok (l :: ls)
    · obtain ⟨l, ls, h⟩ := h
      exact .enumeration hbody h
    · exact .fault ⟨members, hbody, fun l ls heq => h ⟨l, ls, heq⟩⟩

namespace Resolve

/-- The values of an enumeration are those of its members. -/
theorem exists_of_mem_enumLiterals {name : String} {members : List EnumMember} {literals : List Literal}
    (h : enumLiterals name members = .ok literals) :
    ∀ l ∈ literals, ∃ m ∈ members, Literal.ofJson? m.value = some l := by
  induction members generalizing literals with
  | nil =>
    cases h
    simp
  | cons m members ih =>
    rw [enumLiterals, List.mapM_cons] at h
    cases hl : Literal.ofJson? m.value with
    | none => simp [hl, bind, Except.bind] at h
    | some l =>
      cases hrest : enumLiterals name members with
      | error cause =>
        rw [enumLiterals] at hrest
        simp [hl, hrest, bind, Except.bind] at h
      | ok rest =>
        have hmembers := ih hrest
        rw [enumLiterals] at hrest
        obtain rfl : l :: rest = literals := by
          simpa [hl, hrest, bind, Except.bind, pure, Except.pure] using h
        refine List.forall_mem_cons.mpr ⟨⟨m, List.mem_cons_self .., hl⟩, fun l' hl' => ?_⟩
        obtain ⟨m', hm', hvalue⟩ := hmembers l' hl'
        exact ⟨m', List.mem_cons_of_mem _ hm', hvalue⟩

/-! ## References -/

section

variable (scope : Scope) (resolve : TypeExpr → Resolving WireType) (name : String) (args : List TypeExpr)

/-- What a name means unless it is that of a type parameter. -/
def resolveGlobal : Resolving WireType :=
  if scope.options.nameOnly.contains name then pure (.unexpanded name)
  else match lookupType scope.types name with
    | some d => resolveDeclaration scope resolve d args
    | none => resolveBuiltin resolve name args

theorem resolveGlobal_unexpanded (h : scope.options.nameOnly.contains name = true) :
    resolveGlobal scope resolve name args = pure (.unexpanded name) :=
  if_pos h

theorem resolveGlobal_declared (h : scope.options.nameOnly.contains name = false) {d : TypeDecl}
    (hd : lookupType scope.types name = some d) :
    resolveGlobal scope resolve name args = resolveDeclaration scope resolve d args := by
  simp only [resolveGlobal, h, hd, Bool.false_eq_true, if_false]

theorem resolveGlobal_builtin (h : scope.options.nameOnly.contains name = false)
    (hd : lookupType scope.types name = none) :
    resolveGlobal scope resolve name args = resolveBuiltin resolve name args := by
  simp only [resolveGlobal, h, hd, Bool.false_eq_true, if_false]

theorem resolveReference_bare :
    resolveReference scope resolve name [] = parameterValue? name >>= fun bound =>
      bound.elim (resolveGlobal scope resolve name []) pure := by
  refine congrArg (parameterValue? name >>= ·) (funext fun bound => ?_)
  cases bound <;> rfl

/-- With type arguments the name is no type parameter. -/
theorem resolveReference_applied {args : List TypeExpr} (h : args ≠ []) :
    resolveReference scope resolve name args = resolveGlobal scope resolve name args := by
  obtain ⟨a, args, rfl⟩ := List.exists_cons_of_ne_nil h
  rfl

end

/-! ## Parameters one by one -/

section

variable (resolve : TypeExpr → Resolving WireType) (p : TypeParameter) (rest : List TypeParameter)
  (environment : Table WireType)

theorem bindParameters_argument (a : TypeExpr) (args : List TypeExpr) :
    bindParameters resolve (p :: rest) (a :: args) environment = resolve a >>= fun t =>
      bindParameters resolve rest args (environment.put p.name t) >>= fun r =>
        pure (r.1, t :: r.2) := by
  rw [bindParameters.eq_def]
  simp only [map_eq_pure_bind, bind_assoc, pure_bind]
  rfl

theorem bindParameters_default {u : TypeExpr} (hu : p.default = some u) :
    bindParameters resolve (p :: rest) [] environment =
      inEnvironment environment (resolve u) >>= fun t =>
        bindParameters resolve rest [] (environment.put p.name t) >>= fun r =>
          pure (r.1, t :: r.2) := by
  rw [bindParameters.eq_def]
  simp only [hu, map_eq_pure_bind, bind_assoc, pure_bind]
  rfl

theorem bindParameters_unbound (hp : p.default = none) :
    bindParameters resolve (p :: rest) [] environment =
      bindParameters resolve rest [] environment >>= fun r =>
        pure (r.1, .generic p.name [] :: r.2) := by
  rw [bindParameters.eq_def]
  simp only [hp, pure_bind]
  rfl

end

/-! ## Expansions -/

section

variable (resolve : TypeExpr → Resolving WireType) {d : TypeDecl} (identity : String)
  (arguments : List WireType)

/-- The expansion of a synonym of something that is no inline object. -/
def expandSynonym (d : TypeDecl) (target : TypeExpr) : Resolving (WireType × Bool) :=
  resolve target >>= fun t =>
    if t.openReferences.contains identity then unsupported d.name .recursiveSynonym
    else pure (t, false)

theorem expand_interface {bases : List TypeExpr} {fs : List (FieldDecl TypeExpr)}
    (hbody : d.body = .interface bases fs) :
    expand resolve d identity arguments = resolveBases resolve d.name bases [] >>= fun inherited =>
      resolveFields resolve fs >>= fun own =>
        pure (.object identity (some d.name) arguments (mergeFields inherited own), true) := by
  rw [expand, hbody]

theorem expand_object {fs : List (FieldDecl TypeExpr)} (hbody : d.body = .synonym (.object fs)) :
    expand resolve d identity arguments = resolveFields resolve fs >>= fun gs =>
      pure (.object identity (some d.name) arguments gs, true) := by
  rw [expand, hbody]

theorem expand_synonym {target : TypeExpr} (hbody : d.body = .synonym target)
    (hnone : d.body.fields? = none) :
    expand resolve d identity arguments = expandSynonym resolve identity d target := by
  rw [expand, hbody]
  cases target with
  | object fs => simp [hbody, TypeBody.fields?] at hnone
  | _ => rfl

theorem expand_enumeration {members : List EnumMember} {l : Literal} {ls : List Literal}
    (hbody : d.body = .enumeration members) (h : enumLiterals d.name members = .ok (l :: ls)) :
    expand resolve d identity arguments =
      pure (WireType.unionOf ((l :: ls).map .literal), true) := by
  simp only [expand, hbody, h]

theorem expand_fault (h : d.EnumFault) : ∃ cause, ∀ resolve identity arguments,
    expand resolve d identity arguments = throw (.unsupported cause) := by
  obtain ⟨members, hbody, h⟩ := h
  cases hliterals : enumLiterals d.name members with
  | error cause => exact ⟨cause, fun _ _ _ => by simp only [expand, hbody, hliterals]⟩
  | ok literals =>
    cases literals with
    | nil => exact ⟨_, fun _ _ _ => by simp only [expand, hbody, hliterals]; rfl⟩
    | cons l ls => exact absurd hliterals (h l ls)

end

/-! ## Built-in types -/

namespace Builtin

variable (b : Builtin) (name : String) {arguments : List WireType}

theorem apply_ne_object (i : String) (name' : Option String) (as : List WireType)
    (fields : List (Field WireType)) : b.apply name arguments ≠ .object i name' as fields := by
  unfold apply
  split <;> simp

theorem apply_ne_back (i : String) : b.apply name arguments ≠ .back i := by
  unfold apply
  split <;> simp

theorem apply_ne_union (members : List WireType) : b.apply name arguments ≠ .union members := by
  unfold apply
  split <;> simp

theorem apply_ne_void {key : String} (hb : builtin? key = some b) :
    b.apply name arguments ≠ .primitive .void := by
  cases b with
  | scalar p =>
    unfold builtin? at hb
    split at hb <;> cases hb <;> simp [apply]
  | _ => unfold apply; split <;> simp_all

theorem mem_of_mem_children_apply {v : WireType} (h : v ∈ (b.apply name arguments).children) :
    v ∈ arguments := by
  unfold apply at h
  split at h <;> simp_all [WireType.children]

theorem mem_children_apply (hlength : arguments.length = b.arity) {v : WireType}
    (h : v ∈ arguments) : v ∈ (b.apply name arguments).children := by
  unfold apply
  split <;> simp_all [WireType.children, arity]

end Builtin

end Resolve

end AnnotatedApi
