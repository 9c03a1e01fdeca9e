import AnnotatedApi.Proofs.Resolution.History
import AnnotatedApi.Proofs.Resolution.Naming
import AnnotatedApi.Proofs.WireType.Members
import Mathlib.Data.Option.Basic

/-!
# Where undefined goes

The undefined members of the union that a field is declared with are dropped before the type is resolved.
Undefined may also hide: in a union inside the union, behind a synonym, in what a type parameter stands for.
What hides is not dropped, and becomes a member `void` of the field's type. `AdmitsUndefined` says of a type
expression, with what its type parameters stand for, whether undefined is among its alternatives, hidden or
not. What is resolved has the member `void` only if its type expression admits undefined, and so every field
is traced to a declared one; where names tell declarations apart, the member is there unless the expansion
goes round in a circle.
-/

namespace AnnotatedApi

set_option autoImplicit false

open Resolve

/-! ## Types that may be void -/

namespace WireType

/-- Whether the type says that there may be no value: it is `void`, or a union with this member. -/
def MayBeVoid (t : WireType) : Prop := .primitive .void ∈ t.alternatives

/-- Whether the type is a reference back, or a union with one among its members. -/
def GoesBack (t : WireType) : Prop := ∃ i, .back i ∈ t.alternatives

variable {types : List WireType}

theorem mayBeVoid_unionOf (h : ∀ t ∈ types, t.IsFlat) :
    (unionOf types).MayBeVoid ↔ ∃ t ∈ types, t.MayBeVoid := by
  rw [MayBeVoid, alternatives_unionOf h]
  exact mem_unionMembers_iff (fun u hu => same_primitive.mp (same_symm _ _ hu)) rfl (by simp)

theorem goesBack_unionOf (h : ∀ t ∈ types, t.IsFlat) {t : WireType} (ht : t ∈ types)
    (hback : t.GoesBack) : (unionOf types).GoesBack := by
  obtain ⟨i, hi⟩ := hback
  refine ⟨i, ?_⟩
  rw [alternatives_unionOf h]
  exact (mem_unionMembers_iff (fun u hu => same_back.mp (same_symm _ _ hu)) rfl (by simp)).mpr ⟨t, ht, hi⟩

theorem mayBeVoid_iff_of_not_union {t : WireType} (h : ∀ inner, t ≠ .union inner) :
    t.MayBeVoid ↔ t = .primitive .void := by
  rw [MayBeVoid, alternatives_of_not_union h, List.mem_singleton, eq_comm]

end WireType

/-! ## Type expressions in their surroundings -/

/-- A type expression and, for each type parameter around it, the type expression that it stands for. -/
inductive Closure where
  | mk (environment : List (String × Closure)) (type : TypeExpr)

/-- What the type parameters of a declaration stand for in a reference to it, and all that is resolved to
find out. An argument means what it means to the caller; a default may refer to the parameters before it. -/
def closeParameters (outer : Table Closure) :
    List TypeParameter → List TypeExpr → Table Closure → Table Closure × List Closure
  | [], _, inner => (inner, [])
  | p :: rest, a :: args, inner =>
    let (closed, resolved) := closeParameters outer rest args (inner.put p.name ⟨outer, a⟩)
    (closed, ⟨outer, a⟩ :: resolved)
  | p :: rest, [], inner =>
    match p.default with
    | some u =>
      let (closed, resolved) := closeParameters outer rest [] (inner.put p.name ⟨inner, u⟩)
      (closed, ⟨inner, u⟩ :: resolved)
    | none => closeParameters outer rest [] inner

/-- A synonym of something that is no inline object. -/
def TypeDecl.IsAlias (d : TypeDecl) (target : TypeExpr) : Prop :=
  d.body = .synonym target ∧ d.body.fields? = none

section

variable (scope : Scope)

/-- Whether undefined is among the alternatives of what a type expression stands for. -/
inductive AdmitsUndefined : Closure → Prop where
  | undefined {σ : Table Closure} {t : TypeExpr} : t.isUndefined = true → AdmitsUndefined ⟨σ, t⟩
  | alternative {σ : Table Closure} {ms : List TypeExpr} {m : TypeExpr} : m ∈ ms →
    AdmitsUndefined ⟨σ, m⟩ → AdmitsUndefined ⟨σ, .union ms⟩
  | parameter {σ : Table Closure} {name : String} {κ : Closure} : σ.get? name = some κ →
    AdmitsUndefined κ → AdmitsUndefined ⟨σ, .parameter name⟩
  | bare {σ : Table Closure} {name : String} {κ : Closure} : σ.get? name = some κ →
    AdmitsUndefined κ → AdmitsUndefined ⟨σ, .reference name []⟩
  | synonym {σ : Table Closure} {name : String} {args : List TypeExpr} {d : TypeDecl} {target : TypeExpr} :
    (args = [] → σ.get? name = none) → scope.declaration? (.reference name args) = some d →
    d.IsAlias target → AdmitsUndefined ⟨(closeParameters σ d.parameters args []).1, target⟩ →
    AdmitsUndefined ⟨σ, .reference name args⟩

/-- Whether a type expression comes up in certain surroundings when the type expressions `asked` are
resolved. -/
inductive Arises (asked : TypeExpr → Prop) : Closure → Prop where
  | asked {t : TypeExpr} : asked t → Arises asked ⟨[], t⟩
  | part {σ : Table Closure} {t u : TypeExpr} : Arises asked ⟨σ, t⟩ → t.Part scope u → Arises asked ⟨σ, u⟩
  | bound {σ : Table Closure} {name : String} {args : List TypeExpr} {d : TypeDecl} {κ : Closure} :
    Arises asked ⟨σ, .reference name args⟩ → (args = [] → σ.get? name = none) →
    scope.declaration? (.reference name args) = some d →
    κ ∈ (closeParameters σ d.parameters args []).2 → Arises asked κ
  | inside {σ : Table Closure} {name : String} {args : List TypeExpr} {d : TypeDecl} {u : TypeExpr} :
    Arises asked ⟨σ, .reference name args⟩ → (args = [] → σ.get? name = none) →
    scope.declaration? (.reference name args) = some d → u ∈ d.body.needs →
    Arises asked ⟨(closeParameters σ d.parameters args []).1, u⟩

/-- What is known of a type that a type expression is resolved to, as far as undefined goes. -/
structure FollowsUndefined (κ : Closure) (w : WireType) : Prop where
  admits : w.MayBeVoid → AdmitsUndefined scope κ
  mayBeVoid : scope.WellNamed → AdmitsUndefined scope κ → w.MayBeVoid ∨ w.GoesBack

/-- Whether a field is one that a type expression declares: it may be left out as the declaration says,
and its type is what is left of the declared one without undefined, where that may still hide. -/
def Declared (asked : TypeExpr → Prop) (g : Field WireType) : Prop :=
  ∃ σ fs f, Arises scope asked ⟨σ, .object fs⟩ ∧ f ∈ fs ∧ g.name = f.name ∧
    (g.required = false ↔ f.optional = true ∨ f.default.isSome = true ∨ f.type.MayBeUndefined) ∧
    FollowsUndefined scope ⟨σ, f.type.stripUndefined.1⟩ g.type

/-- Whether every field of every object inside a type is declared. -/
def WireType.IsDeclared (asked : TypeExpr → Prop) (w : WireType) : Prop :=
  ∀ o : ObjectType, w.Contains o.type → ∀ g ∈ o.fields, Declared scope asked g

/-- Whether undefined has come from a type expression into what it is resolved to, and into the fields
inside that from the fields that were declared. -/
structure TracesUndefined (asked : TypeExpr → Prop) (t : TypeExpr) (w : WireType) : Prop where
  whole : FollowsUndefined scope ⟨[], t⟩ w
  fields : w.IsDeclared scope asked

end

variable {scope : Scope} {asked : TypeExpr → Prop} {σ : Table Closure}

theorem AdmitsUndefined.shape {t : TypeExpr} (h : AdmitsUndefined scope ⟨σ, t⟩) :
    (∃ name, t = .keyword name) ∨ (∃ ms, t = .union ms) ∨ (∃ name, t = .parameter name) ∨
      ∃ name args, t = .reference name args := by
  cases h with
  | undefined h => cases t <;> simp_all [TypeExpr.isUndefined]
  | _ => simp

/-- A reference admits undefined only as another name for what does. -/
theorem AdmitsUndefined.exists_alias {name : String} {args : List TypeExpr}
    (h : AdmitsUndefined scope ⟨σ, .reference name args⟩) (hfree : args = [] → σ.get? name = none) :
    ∃ d target, scope.declaration? (.reference name args) = some d ∧ d.IsAlias target ∧
      AdmitsUndefined scope ⟨(closeParameters σ d.parameters args []).1, target⟩ := by
  cases h with
  | undefined h => cases h
  | bare hκ => simp [hfree rfl] at hκ
  | synonym _ hd halias h => exact ⟨_, _, hd, halias, h⟩

theorem admitsUndefined_bare {name : String} {κ : Closure} (hκ : σ.get? name = some κ) :
    AdmitsUndefined scope ⟨σ, .reference name []⟩ ↔ AdmitsUndefined scope κ := by
  refine ⟨fun h => ?_, .bare hκ⟩
  cases h with
  | undefined h => cases h
  | bare hκ' h => exact Option.some.inj (hκ'.symm.trans hκ) ▸ h
  | synonym hfree => simp [hfree rfl] at hκ

theorem admitsUndefined_parameter {name : String} {κ : Closure} (hκ : σ.get? name = some κ) :
    AdmitsUndefined scope ⟨σ, .parameter name⟩ ↔ AdmitsUndefined scope κ := by
  refine ⟨fun h => ?_, .parameter hκ⟩
  cases h with
  | undefined h => cases h
  | parameter hκ' h => exact Option.some.inj (hκ'.symm.trans hκ) ▸ h

/-- A keyword admits undefined if it stands for no value at all. -/
theorem admitsUndefined_keyword {name : String} {p : Primitive} (hp : keywordPrimitive name = .ok p) :
    AdmitsUndefined scope ⟨σ, .keyword name⟩ ↔ p = .void := by
  have hiff : AdmitsUndefined scope ⟨σ, .keyword name⟩ ↔ (TypeExpr.keyword name).isUndefined = true :=
    ⟨fun h => by cases h; assumption, .undefined⟩
  rw [hiff]
  unfold keywordPrimitive at hp
  split at hp <;> cases hp <;> simp_all [TypeExpr.isUndefined]

namespace WireType.IsDeclared

variable {w : WireType}

theorem child {u : WireType} (h : w.IsDeclared scope asked) (hu : u ∈ w.children) :
    u.IsDeclared scope asked :=
  fun o ho => h o (.child hu ho)

theorem of_children (hw : ∀ o : ObjectType, w ≠ o.type)
    (h : ∀ u ∈ w.children, u.IsDeclared scope asked) : w.IsDeclared scope asked := by
  intro o ho
  generalize hv : o.type = v at ho
  cases ho with
  | self => exact absurd hv.symm (hw o)
  | child hu ho => exact h _ hu o (hv ▸ ho)

/-- A type without parts has no fields. -/
theorem leaf (h : w.children = []) : w.IsDeclared scope asked := by
  intro o ho
  generalize hv : o.type = v at ho
  cases ho with
  | self =>
    subst hv
    have hfields : o.fields = [] := (List.append_eq_nil_iff.mp h).2 |> List.map_eq_nil_iff.mp
    simp [hfields]
  | child hu _ => simp [h] at hu

/-- A field as it is known inside an object. -/
def Known (scope : Scope) (asked : TypeExpr → Prop) (g : Field WireType) : Prop :=
  Declared scope asked g ∧ g.type.IsDeclared scope asked

theorem known {o : ObjectType} (h : o.type.IsDeclared scope asked) :
    ∀ g ∈ o.fields, Known scope asked g :=
  fun g hg => ⟨h o .self g hg, h.child (List.mem_append_right _ (List.mem_map_of_mem hg))⟩

theorem object {o : ObjectType} (hargs : ∀ t ∈ o.arguments, t.IsDeclared scope asked)
    (hfields : ∀ g ∈ o.fields, Known scope asked g) : o.type.IsDeclared scope asked := by
  intro p hp
  generalize hv : p.type = v at hp
  cases hp with
  | self =>
    obtain rfl := ObjectType.type_injective hv
    exact fun g hg => (hfields g hg).1
  | child hu hp =>
    subst hv
    rcases List.mem_append.mp hu with hu | hu
    · exact hargs _ hu p hp
    · obtain ⟨g, hg, rfl⟩ := List.mem_map.mp hu
      exact (hfields g hg).2 p hp

theorem unionOf {types : List WireType} (h : ∀ t ∈ types, t.IsDeclared scope asked) :
    (WireType.unionOf types).IsDeclared scope asked := by
  intro o ho
  rcases ho.of_unionOf with ⟨t, ht, ho⟩ | hboolean | ⟨_, hunion⟩
  · exact h t ht o ho
  · cases hboolean
  · cases hunion

end WireType.IsDeclared

/-! ## What a resolution keeps -/

/-- What a type expression in its surroundings is resolved to. -/
structure Answers (scope : Scope) (asked : TypeExpr → Prop) (κ : Closure) (w : WireType) : Prop
    extends FollowsUndefined scope κ w where
  flat : w.IsFlat
  declared : w.IsDeclared scope asked

/-- What is remembered: never something that may be void, nor under the identity of another name. -/
structure Remembered (scope : Scope) (asked : TypeExpr → Prop) (key : String) (w : WireType) : Prop where
  flat : w.IsFlat
  valued : ¬ w.MayBeVoid
  declared : w.IsDeclared scope asked
  own : ∃ d ∈ scope.types, ∃ arguments, key = instanceIdentity d arguments ∧ ∀ target, ¬ d.IsAlias target

/-- Whether the values of type parameters are what the type expressions are resolved to for which they
stand. -/
def Represents (scope : Scope) (asked : TypeExpr → Prop) : Table Closure → Table WireType → Prop :=
  List.Forall₂ fun k e => k.1 = e.1 ∧ Answers scope asked k.2 e.2

theorem Represents.put {ρ : Table WireType} (h : Represents scope asked σ ρ) (name : String)
    {κ : Closure} {w : WireType} (hw : Answers scope asked κ w) :
    Represents scope asked (σ.put name κ) (ρ.put name w) := by
  induction h with
  | nil => exact .cons ⟨rfl, hw⟩ .nil
  | @cons k e σ ρ hke hrest ih =>
    obtain ⟨s, κ'⟩ := k
    obtain ⟨s', w'⟩ := e
    obtain ⟨rfl, hold⟩ := hke
    simp only [Table.put]
    split
    · exact .cons ⟨rfl, hw⟩ hrest
    · exact .cons ⟨rfl, hold⟩ ih

theorem Represents.get? {ρ : Table WireType} (h : Represents scope asked σ ρ) (name : String) :
    Option.Rel (Answers scope asked) (σ.get? name) (ρ.get? name) := by
  induction h with
  | nil => exact .none
  | @cons k e σ ρ hke hrest ih =>
    obtain ⟨s, κ⟩ := k
    obtain ⟨s', w⟩ := e
    obtain ⟨rfl, hw⟩ := hke
    simp only [Table.get?]
    split
    · exact .some hw
    · exact ih

namespace Answers

variable {κ : Closure} {w : WireType}

theorem of_valued (hflat : w.IsFlat) (hvalued : ¬ w.MayBeVoid)
    (hdeclared : w.IsDeclared scope asked) (hκ : scope.WellNamed → ¬ AdmitsUndefined scope κ) :
    Answers scope asked κ w :=
  ⟨⟨fun h => absurd h hvalued, fun hs h => absurd h (hκ hs)⟩, hflat, hdeclared⟩

theorem of_not_union (hunion : ∀ inner, w ≠ .union inner) (hvoid : w ≠ .primitive .void)
    (hdeclared : w.IsDeclared scope asked) (hκ : ¬ AdmitsUndefined scope κ) :
    Answers scope asked κ w :=
  .of_valued (WireType.isFlat_of_not_union hunion)
    (mt (WireType.mayBeVoid_iff_of_not_union hunion).mp hvoid) hdeclared fun _ => hκ

theorem of_iff {κ' : Closure} (h : Answers scope asked κ w)
    (hiff : AdmitsUndefined scope κ' ↔ AdmitsUndefined scope κ) : Answers scope asked κ' w :=
  ⟨⟨fun hvoid => hiff.mpr (h.admits hvoid), fun hs hadmits => h.mayBeVoid hs (hiff.mp hadmits)⟩, h.flat,
    h.declared⟩

theorem union {ms : List TypeExpr} {ws : List WireType}
    (h : List.Forall₂ (fun m w => Answers scope asked ⟨σ, m⟩ w) ms ws) :
    Answers scope asked ⟨σ, .union ms⟩ (.unionOf ws) := by
  have hflat : ∀ w ∈ ws, w.IsFlat := fun w hw =>
    let ⟨_, _, hm⟩ := exists_of_mem_right h hw
    hm.flat
  refine ⟨⟨fun hvoid => ?_, fun hs hadmits => ?_⟩, .unionOf hflat, .unionOf fun w hw => ?_⟩
  · obtain ⟨w, hw, hvoid⟩ := (WireType.mayBeVoid_unionOf hflat).mp hvoid
    obtain ⟨m, hm, hanswer⟩ := exists_of_mem_right h hw
    exact .alternative hm (hanswer.admits hvoid)
  · cases hadmits with
    | undefined hundefined => cases hundefined
    | alternative hm hadmits =>
      obtain ⟨w, hw, hanswer⟩ := exists_of_mem_right h.flip hm
      exact (hanswer.mayBeVoid hs hadmits).imp
        (fun hvoid => (WireType.mayBeVoid_unionOf hflat).mpr ⟨w, hw, hvoid⟩)
        (WireType.goesBack_unionOf hflat hw)
  · obtain ⟨m, -, hanswer⟩ := exists_of_mem_right h hw
    exact hanswer.declared

end Answers

/-- Whether a way to resolve types keeps track of undefined. -/
def Tracks (scope : Scope) (asked : TypeExpr → Prop) (resolve : TypeExpr → Resolving WireType) : Prop :=
  ∀ c (σ : Table Closure) t, Arises scope asked ⟨σ, t⟩ → Represents scope asked σ c.environment →
    Steady (Cache.Records (Remembered scope asked)) c (resolve t) (Answers scope asked ⟨σ, t⟩)
      fun _ => True

variable {c : Context} {d : TypeDecl} {resolve : TypeExpr → Resolving WireType}

namespace Tracks

open WireType.IsDeclared (Known)

theorem resolveAll (h : Tracks scope asked resolve) (hρ : Represents scope asked σ c.environment)
    {ts : List TypeExpr} (ht : ∀ t ∈ ts, Arises scope asked ⟨σ, t⟩) :
    Steady (Cache.Records (Remembered scope asked)) c (ts.mapM resolve)
      (List.Forall₂ (fun t w => Answers scope asked ⟨σ, t⟩ w) ts) fun _ => True :=
  Keeps.mapM ts fun t hmem => h c σ t (ht t hmem) hρ

theorem resolveFields (h : Tracks scope asked resolve) (hρ : Represents scope asked σ c.environment)
    {fs : List (FieldDecl TypeExpr)} (ht : Arises scope asked ⟨σ, .object fs⟩) :
    Steady (Cache.Records (Remembered scope asked)) c (resolveFields resolve fs)
      (fun gs => ∀ g ∈ gs, Known scope asked g) fun _ => True := by
  refine (Keeps.mapM_all fs fun f hf => ?_).weaken fun gs hgs => hgs.2
  refine Keeps.bind (Steady.inField (h (c.pushField f.name) σ _ (ht.part (.field hf)) hρ))
    fun w hw => .pure ⟨?_, hw.declared⟩
  exact ⟨σ, fs, f, ht, hf, rfl, required_resolved f w, hw.toFollowsUndefined⟩

theorem resolveBases (h : Tracks scope asked resolve) (hρ : Represents scope asked σ c.environment)
    (declaration : String) {bases : List TypeExpr} (ht : ∀ t ∈ bases, Arises scope asked ⟨σ, t⟩)
    {merged : List (Field WireType)} (hmerged : ∀ g ∈ merged, Known scope asked g) :
    Steady (Cache.Records (Remembered scope asked)) c (resolveBases resolve declaration bases merged)
      (fun fields => ∀ g ∈ fields, Known scope asked g) fun _ => True := by
  induction bases generalizing merged with
  | nil => exact .pure hmerged
  | cons base bases ih =>
    obtain ⟨ht, hts⟩ := List.forall_mem_cons.mp ht
    refine Keeps.bind (h c σ base ht hρ) fun w hw => ?_
    cases w with
    | object identity name arguments fields =>
      have hfields : ∀ g ∈ fields, Known scope asked g :=
        WireType.IsDeclared.known (o := ⟨identity, name, arguments, fields⟩) hw.declared
      exact ih hts (forall_mem_mergeFields hmerged hfields)
    | _ => exact .throw trivial

theorem resolveMembers (h : Tracks scope asked resolve) (hρ : Represents scope asked σ c.environment)
    (text : String) {members : List TypeExpr} (ht : ∀ t ∈ members, Arises scope asked ⟨σ, t⟩)
    {merged : List (Field WireType)} (hmerged : ∀ g ∈ merged, Known scope asked g) :
    Steady (Cache.Records (Remembered scope asked)) c (resolveMembers resolve text members merged)
      (fun r => ∀ g ∈ r.2.2, Known scope asked g) fun _ => True := by
  induction members generalizing merged with
  | nil => exact .pure hmerged
  | cons member members ih =>
    obtain ⟨ht, hts⟩ := List.forall_mem_cons.mp ht
    refine Keeps.bind (h c σ member ht hρ) fun w hw => ?_
    cases w with
    | object identity name arguments fields =>
      have hfields : ∀ g ∈ fields, Known scope asked g :=
        WireType.IsDeclared.known (o := ⟨identity, name, arguments, fields⟩) hw.declared
      exact (ih hts (forall_mem_mergeFields hmerged hfields)).bind fun r hr => .pure hr
    | _ => exact .throw trivial

/-! ## Declarations -/

theorem bindParameters (h : Tracks scope asked resolve) (hρ : Represents scope asked σ c.environment)
    (ps : List TypeParameter) (args : List TypeExpr) {inner : Table Closure} {environment : Table WireType}
    (hinner : Represents scope asked inner environment)
    (ht : ∀ κ ∈ (closeParameters σ ps args inner).2, Arises scope asked κ) :
    Steady (Cache.Records (Remembered scope asked)) c (bindParameters resolve ps args environment)
      (fun r => Represents scope asked (closeParameters σ ps args inner).1 r.1 ∧
        ∀ v ∈ r.2, v.IsDeclared scope asked) fun _ => True := by
  induction ps generalizing args inner environment with
  | nil => exact .pure ⟨hinner, by simp⟩
  | cons p ps ih =>
    cases args with
    | cons a args =>
      obtain ⟨ha, hrest⟩ := List.forall_mem_cons.mp ht
      rw [bindParameters_argument]
      refine Keeps.bind (h c σ a ha hρ) fun v hv => ?_
      refine (ih args (hinner.put p.name hv) hrest).bind fun r hr => .pure ⟨hr.1, ?_⟩
      exact List.forall_mem_cons.mpr ⟨hv.declared, hr.2⟩
    | nil =>
      cases hu : p.default with
      | some u =>
        simp only [closeParameters, hu] at ht ⊢
        obtain ⟨hdefault, hrest⟩ := List.forall_mem_cons.mp ht
        rw [bindParameters_default _ _ _ _ hu]
        refine Keeps.bind (Steady.inEnvironment (h _ inner u hdefault hinner)) fun v hv => ?_
        refine (ih [] (hinner.put p.name hv) hrest).bind fun r hr => .pure ⟨hr.1, ?_⟩
        exact List.forall_mem_cons.mpr ⟨hv.declared, hr.2⟩
      | none =>
        simp only [closeParameters, hu] at ht ⊢
        rw [bindParameters_unbound _ _ _ _ hu]
        exact (ih [] hinner ht).bind fun r hr =>
          .pure ⟨hr.1, List.forall_mem_cons.mpr ⟨.leaf rfl, hr.2⟩⟩

/-- What the expansion of a declaration yields, and whether it may be remembered. -/
inductive Expanded (scope : Scope) (asked : TypeExpr → Prop) (d : TypeDecl) (σ : Table Closure)
    (identity : String) : WireType × Bool → Prop where
  | own {w : WireType} : (∀ target, ¬ d.IsAlias target) → w.IsFlat → ¬ w.MayBeVoid →
    w.IsDeclared scope asked → (∀ o : ObjectType, w = o.type → o.identity = identity) →
    Expanded scope asked d σ identity (w, true)
  | synonym {target : TypeExpr} {w : WireType} : d.IsAlias target → Answers scope asked ⟨σ, target⟩ w →
    Expanded scope asked d σ identity (w, false)

/-- A declaration with fields is no other name for a type. -/
theorem Expanded.object {fs : List (FieldDecl TypeExpr)} (hfields : d.body.fields? = some fs)
    {o : ObjectType} (h : o.type.IsDeclared scope asked) :
    Expanded scope asked d σ o.identity (o.type, true) := by
  have halias : ∀ target, ¬ d.IsAlias target := fun target hd => by simp [TypeDecl.IsAlias, hfields] at hd
  have hnot : ∀ inner, o.type ≠ .union inner := by simp [ObjectType.type]
  refine .own halias (WireType.isFlat_of_not_union hnot) ?_ h fun p hp =>
    congrArg ObjectType.identity (ObjectType.type_injective hp).symm
  rw [WireType.mayBeVoid_iff_of_not_union hnot]
  simp [ObjectType.type]

theorem expand (h : Tracks scope asked resolve) {environment : Table WireType}
    (hρ : Represents scope asked σ environment)
    (ht : ∀ u ∈ d.body.needs, Arises scope asked ⟨σ, u⟩) {frame : Frame} (identity : String)
    {values : List WireType} (hvalues : ∀ v ∈ values, v.IsDeclared scope asked) :
    Steady (Cache.Records (Remembered scope asked)) (c.enter frame environment)
      (expand resolve d identity values) (Expanded scope asked d σ identity) fun _ => True := by
  cases d.form with
  | @interface bases fs hbody =>
    have hfields : d.body.fields? = some fs := by rw [hbody]; rfl
    rw [TypeBody.needs_of_fields? hfields] at ht
    obtain ⟨hobject, hbases⟩ := List.forall_mem_cons.mp ht
    rw [hbody] at hbases
    rw [expand_interface _ _ _ hbody]
    refine Keeps.bind (h.resolveBases hρ d.name hbases (by simp)) fun inherited hinherited => ?_
    refine Keeps.bind (h.resolveFields hρ hobject) fun own hown => .pure ?_
    refine .object hfields (o := ⟨identity, some d.name, values, mergeFields inherited own⟩) ?_
    exact .object hvalues (forall_mem_mergeFields hinherited hown)
  | @object fs hbody =>
    have hfields : d.body.fields? = some fs := by rw [hbody]; rfl
    rw [TypeBody.needs_of_fields? hfields] at ht
    rw [expand_object _ _ _ hbody]
    refine Keeps.bind (h.resolveFields hρ (List.forall_mem_cons.mp ht).1) fun gs hgs => .pure ?_
    exact .object hfields (o := ⟨identity, some d.name, values, gs⟩) (.object hvalues hgs)
  | @synonym target hbody hnone =>
    have htarget : target ∈ d.body.needs := by
      rw [TypeBody.needs, TypeBody.opened_of_synonym hbody hnone]
      simp
    rw [expand_synonym _ _ _ hbody hnone]
    refine Keeps.bind (h (c.enter frame environment) σ target (ht target htarget) hρ) fun w hw => ?_
    split
    · exact .throw trivial
    · exact .pure (.synonym ⟨hbody, hnone⟩ hw)
  | @enumeration members l ls hbody hliterals =>
    have halias : ∀ target, ¬ d.IsAlias target := fun target hd => by simp [TypeDecl.IsAlias, hbody] at hd
    rw [expand_enumeration _ _ _ hbody hliterals]
    have hflat : ∀ t ∈ (l :: ls).map WireType.literal, t.IsFlat := by
      intro t ht
      obtain ⟨v, -, rfl⟩ := List.mem_map.mp ht
      exact WireType.isFlat_of_not_union (by simp)
    refine .pure (.own halias (.unionOf hflat) ?_ (.unionOf fun t ht => ?_) fun o ho =>
      absurd ho Lawful.unionOf_literals_ne_object)
    · rw [WireType.mayBeVoid_unionOf hflat]
      rintro ⟨t, ht, hvoid⟩
      obtain ⟨v, -, rfl⟩ := List.mem_map.mp ht
      simp [WireType.MayBeVoid, WireType.alternatives] at hvoid
    · obtain ⟨v, -, rfl⟩ := List.mem_map.mp ht
      exact .leaf rfl
  | fault hfault =>
    obtain ⟨cause, hcause⟩ := expand_fault hfault
    rw [hcause]
    exact .throw trivial

/-- What a reference is resolved to if it names a declaration that is expanded. -/
theorem Expanded.answers {name : String} {args : List TypeExpr}
    (hfree : args = [] → σ.get? name = none) (hd : scope.declaration? (.reference name args) = some d)
    {identity : String} {w : WireType} {shareable : Bool}
    (h : Expanded scope asked d (closeParameters σ d.parameters args []).1 identity (w, shareable)) :
    Answers scope asked ⟨σ, .reference name args⟩ w := by
  cases h with
  | own halias hflat hvalued hdeclared _ =>
    refine .of_valued hflat hvalued hdeclared fun _ hadmits => ?_
    obtain ⟨e, target, he, htarget, -⟩ := hadmits.exists_alias hfree
    obtain rfl : d = e := Option.some.inj (hd.symm.trans he)
    exact halias target htarget
  | synonym halias hw =>
    refine ⟨⟨fun hvoid => .synonym hfree hd halias (hw.admits hvoid), fun hs hadmits => ?_⟩, hw.flat,
      hw.declared⟩
    obtain ⟨e, target, he, htarget, hadmits⟩ := hadmits.exists_alias hfree
    obtain rfl : d = e := Option.some.inj (hd.symm.trans he)
    obtain rfl := TypeBody.synonym.inj (halias.1.symm.trans htarget.1)
    exact hw.mayBeVoid hs hadmits

theorem expandInstance (h : Tracks scope asked resolve) {name : String} {args : List TypeExpr}
    (ht : Arises scope asked ⟨σ, .reference name args⟩) (hfree : args = [] → σ.get? name = none)
    (hd : scope.declaration? (.reference name args) = some d) {environment : Table WireType}
    (hρ : Represents scope asked (closeParameters σ d.parameters args []).1 environment)
    {values : List WireType} (hvalues : ∀ v ∈ values, v.IsDeclared scope asked) :
    Steady (Cache.Records (Remembered scope asked)) c
      (expandInstance scope resolve d (instanceIdentity d values) environment values)
      (Answers scope asked ⟨σ, .reference name args⟩) fun _ => True := by
  refine Steady.get fun _ => ?_
  dsimp only
  split
  · exact .throw trivial
  · refine Keeps.bind (Steady.inFrame (h.expand hρ (fun u hu => ht.inside hfree hd hu) _ hvalues))
      fun (w, shareable) hw => ?_
    have hanswers := hw.answers hfree hd
    dsimp only
    split
    · rename_i hs
      rw [Bool.and_eq_true] at hs
      cases hw with
      | own halias hflat hvalued hdeclared hown =>
        have hshareable : Shareable (instanceIdentity d values) w :=
          ⟨hs.2, fun i name as fields hobject => hown ⟨i, name, as, fields⟩ hobject⟩
        refine (steady_remember c hshareable ⟨hflat, hvalued, hdeclared, d,
          Scope.mem_of_declaration? hd, values, rfl, halias⟩).bind fun _ _ => .pure hanswers
      | synonym => cases hs.1
    · exact .pure hanswers

theorem resolveDeclaration (h : Tracks scope asked resolve) (hρ : Represents scope asked σ c.environment)
    {name : String} {args : List TypeExpr} (ht : Arises scope asked ⟨σ, .reference name args⟩)
    (hfree : args = [] → σ.get? name = none)
    (hd : scope.declaration? (.reference name args) = some d) :
    Steady (Cache.Records (Remembered scope asked)) c (resolveDeclaration scope resolve d args)
      (Answers scope asked ⟨σ, .reference name args⟩) fun _ => True := by
  have hmem := Scope.mem_of_declaration? hd
  unfold Resolve.resolveDeclaration
  split
  · exact .throw trivial
  · refine Keeps.bind (h.bindParameters hρ d.parameters args .nil fun κ hκ => ht.bound hfree hd hκ) ?_
    rintro ⟨environment, values⟩ ⟨henvironment, hvalues⟩
    refine Steady.get fun _ => ?_
    dsimp only
    split
    · -- The reference back is all that is left of what the declaration may admit.
      have hnot : ∀ inner, WireType.back (instanceIdentity d values) ≠ .union inner := by simp
      refine .pure ⟨⟨fun hvoid => ?_, fun _ _ => .inr ⟨_, List.mem_singleton.mpr rfl⟩⟩,
        WireType.isFlat_of_not_union hnot, .leaf rfl⟩
      rw [WireType.mayBeVoid_iff_of_not_union hnot] at hvoid
      cases hvoid
    · refine Keeps.bind (steady_remembered? c _) fun found hfound => ?_
      cases found with
      | some w =>
        obtain ⟨-, hw⟩ := hfound w rfl
        refine .pure (.of_valued hw.flat hw.valued hw.declared fun hs hadmits => ?_)
        -- What is remembered under the identity belongs to the same declaration, which is no other name.
        obtain ⟨e, target, he, htarget, -⟩ := hadmits.exists_alias hfree
        obtain rfl : d = e := Option.some.inj (hd.symm.trans he)
        obtain ⟨e, he, arguments, hkey, halias⟩ := hw.own
        obtain rfl := hs.eq_of_instanceIdentity_eq hmem he hkey
        exact halias target htarget
      | none => exact h.expandInstance ht hfree hd henvironment hvalues

/-! ## Other references -/

theorem resolveBuiltin (h : Tracks scope asked resolve) (hρ : Represents scope asked σ c.environment)
    {name : String} {args : List TypeExpr} (ht : ∀ a ∈ args, Arises scope asked ⟨σ, a⟩)
    (hnot : ¬ AdmitsUndefined scope ⟨σ, .reference name args⟩) :
    Steady (Cache.Records (Remembered scope asked)) c (resolveBuiltin resolve name args)
      (Answers scope asked ⟨σ, .reference name args⟩) fun _ => True := by
  unfold Resolve.resolveBuiltin
  cases hb : builtin? name with
  | none => exact .throw trivial
  | some b =>
    dsimp only
    split
    · refine (h.resolveAll hρ ht).bind fun ws hws => .pure ?_
      refine .of_not_union (Builtin.apply_ne_union b name) (Builtin.apply_ne_void b name hb) ?_ hnot
      refine .of_children (fun o => Builtin.apply_ne_object b name _ _ _ _) fun u hu => ?_
      obtain ⟨t, -, ht⟩ := exists_of_mem_right hws (Builtin.mem_of_mem_children_apply b name hu)
      exact ht.declared
    · exact .throw trivial

theorem resolveGlobal (h : Tracks scope asked resolve) (hρ : Represents scope asked σ c.environment)
    {name : String} {args : List TypeExpr} (ht : Arises scope asked ⟨σ, .reference name args⟩)
    (hfree : args = [] → σ.get? name = none) :
    Steady (Cache.Records (Remembered scope asked)) c (resolveGlobal scope resolve name args)
      (Answers scope asked ⟨σ, .reference name args⟩) fun _ => True := by
  cases hkept : scope.options.nameOnly.contains name with
  | true =>
    rw [resolveGlobal_unexpanded _ _ _ _ hkept]
    refine .pure (.of_not_union (by simp) (by simp) (.leaf rfl) fun hadmits => ?_)
    obtain ⟨d, target, hd, -⟩ := hadmits.exists_alias hfree
    rw [Scope.declaration?_kept hkept] at hd
    cases hd
  | false =>
    cases hd : lookupType scope.types name with
    | some d =>
      rw [resolveGlobal_declared _ _ _ _ hkept hd]
      exact h.resolveDeclaration hρ ht hfree (by rw [Scope.declaration?_free hkept, hd])
    | none =>
      rw [resolveGlobal_builtin _ _ _ _ hkept hd]
      refine h.resolveBuiltin hρ (fun a ha => ht.part (.argument hkept ha)) fun hadmits => ?_
      obtain ⟨d, target, hd', -⟩ := hadmits.exists_alias hfree
      rw [Scope.declaration?_free hkept, hd] at hd'
      cases hd'

theorem resolveReference (h : Tracks scope asked resolve) (hρ : Represents scope asked σ c.environment)
    {name : String} {args : List TypeExpr} (ht : Arises scope asked ⟨σ, .reference name args⟩) :
    Steady (Cache.Records (Remembered scope asked)) c (resolveReference scope resolve name args)
      (Answers scope asked ⟨σ, .reference name args⟩) fun _ => True := by
  cases args with
  | nil =>
    rw [resolveReference_bare]
    refine Keeps.bind (Q := fun found => found = c.environment.get? name)
      (Steady.get fun _ => .pure rfl) fun bound hbound => ?_
    have hget := hρ.get? name
    rw [← hbound] at hget
    generalize hσ : σ.get? name = closure at hget
    cases hget with
    | some hw => exact .pure (hw.of_iff (admitsUndefined_bare hσ))
    | none => exact h.resolveGlobal hρ ht fun _ => hσ
  | cons a args =>
    rw [resolveReference_applied _ _ _ (List.cons_ne_nil a args)]
    exact h.resolveGlobal hρ ht fun hnil => by cases hnil

/-! ## Type expressions -/

theorem resolveStep (h : Tracks scope asked resolve) : Tracks scope asked (resolveStep scope resolve) := by
  intro c σ t ht hρ
  cases t with
  | keyword name =>
    dsimp only [Resolve.resolveStep]
    cases hname : keywordPrimitive name with
    | ok p =>
      have hunion : ∀ inner, WireType.primitive p ≠ .union inner := by simp
      have hiff : AdmitsUndefined scope ⟨σ, .keyword name⟩ ↔ p = .void := admitsUndefined_keyword hname
      have hvoid : (WireType.primitive p).MayBeVoid ↔ p = .void := by
        rw [WireType.mayBeVoid_iff_of_not_union hunion, WireType.primitive.injEq]
      exact .pure ⟨⟨fun h => hiff.mpr (hvoid.mp h), fun _ h => .inl (hvoid.mpr (hiff.mp h))⟩,
        WireType.isFlat_of_not_union hunion, .leaf rfl⟩
    | error reason => exact .throw trivial
  | literal value =>
    have hnot : ¬ AdmitsUndefined scope ⟨σ, .literal value⟩ := fun h => by simpa using h.shape
    dsimp only [Resolve.resolveStep]
    split
    · exact .pure (.of_not_union (by simp) (by simp) (.leaf rfl) hnot)
    · exact .pure (.of_not_union (by simp) (by simp) (.leaf rfl) hnot)
    · exact .throw trivial
  | array element =>
    have hnot : ¬ AdmitsUndefined scope ⟨σ, .array element⟩ := fun h => by simpa using h.shape
    refine Keeps.bind (Steady.inField (h (c.pushField "[]") σ element (ht.part .element) hρ))
      fun w hw => .pure (.of_not_union (by simp) (by simp) ?_ hnot)
    exact .of_children (by simp [ObjectType.type]) (by simpa [WireType.children] using hw.declared)
  | tuple elements =>
    have hnot : ¬ AdmitsUndefined scope ⟨σ, .tuple elements⟩ := fun h => by simpa using h.shape
    cases elements with
    | nil => exact .throw trivial
    | cons e es =>
      refine (h.resolveAll hρ fun _ hu => ht.part (.component hu)).bind fun ws hws =>
        .pure (.of_not_union (by simp) (by simp) ?_ hnot)
      exact .of_children (by simp [ObjectType.type])
        (by simpa [WireType.children] using (Answers.union hws).declared)
  | union members =>
    exact (h.resolveAll hρ fun _ hu => ht.part (.alternative hu)).bind fun ws hws => .pure (.union hws)
  | intersection members =>
    have hnot : ¬ AdmitsUndefined scope ⟨σ, .intersection members⟩ := fun h => by simpa using h.shape
    refine Keeps.bind (h.resolveMembers hρ _ (fun _ hu => ht.part (.member hu)) (by simp))
      fun (identities, names, fields) hfields => .pure (.of_not_union (by simp) (by simp) ?_ hnot)
    exact .object (o := ⟨_, some _, [], fields⟩) (by simp) hfields
  | reference name args => exact h.resolveReference hρ ht
  | parameter name =>
    refine Keeps.bind (Q := fun found => found = c.environment.get? name)
      (Steady.get fun _ => .pure rfl) fun found hfound => ?_
    have hget := hρ.get? name
    rw [← hfound] at hget
    generalize hσ : σ.get? name = closure at hget
    cases hget with
    | some hw => exact .pure (hw.of_iff (admitsUndefined_parameter hσ))
    | none =>
      refine .pure (.of_not_union (by simp) (by simp) (.leaf rfl) fun hadmits => ?_)
      cases hadmits with
      | undefined h => cases h
      | parameter hκ => simp [hσ] at hκ
  | object fields =>
    have hnot : ¬ AdmitsUndefined scope ⟨σ, .object fields⟩ := fun h => by simpa using h.shape
    refine Steady.get fun _ => (h.resolveFields hρ ht).bind fun gs hgs =>
      .pure (.of_not_union (by simp) (by simp) ?_ hnot)
    exact .object (o := ⟨_, none, [], gs⟩) (by simp) hgs
  | function parameters result => exact .throw trivial

end Tracks

theorem resolveType_tracks (scope : Scope) (asked : TypeExpr → Prop) (depth : Nat) :
    Tracks scope asked (resolveType scope depth) := by
  induction depth with
  | zero => exact fun c σ t _ _ => .throw trivial
  | succ depth ih => exact ih.resolveStep

/-- Where only certain type expressions have ever been asked for, undefined comes from them. -/
theorem Resolver.UsedFor.yields_tracesUndefined {types : List TypeDecl} {options : Options} {r : Resolver}
    (h : UsedFor (fun t _ => asked t) types options r) {t : TypeExpr} (ht : asked t) {depth : Nat}
    {origin : String} {w : WireType} (hw : (r.resolve depth t (.ofOrigin origin)).1 = .ok w) :
    TracesUndefined ⟨types, options⟩ asked t w := by
  have hanswers : Answers ⟨types, options⟩ asked ⟨[], t⟩ w :=
    h.yields_of_steady Cache.records_empty (fun depth t _ ht =>
      resolveType_tracks ⟨types, options⟩ asked depth _ [] t (.asked ht) .nil) ht hw
  exact ⟨hanswers.toFollowsUndefined, hanswers.declared⟩

end AnnotatedApi
