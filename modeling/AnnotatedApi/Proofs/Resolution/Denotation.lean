import AnnotatedApi.Proofs.Resolution.Layers
import AnnotatedApi.Proofs.Resolution.Meaning

/-!
# What type expressions denote

What a resolver may answer, apart from its memory and the limits it works under: `Denotes` has one rule
for each kind of type expression. A reference to a declaration denotes an instance of it, or points
back to one. The instance need not be made for this reference, but its type arguments are those of
the reference, and its fields are what the declared fields denote where the type parameters have the
values in the instance.
-/

namespace AnnotatedApi

set_option autoImplicit false

open Resolve TypeTerm

/-- Whether a reference by a bare name is left to the declarations: the name is no type parameter. -/
def TypeExpr.Unbound (environment : Table WireType) (t : TypeExpr) : Prop :=
  ∀ name ∈ t.bareName?, environment.get? name = none

mutual

/-- Whether a type expression may become a wire type where type parameters have certain values. -/
inductive Denotes (scope : Scope) : Table WireType → TypeExpr → WireType → Prop where
  | keyword {ρ : Table WireType} {name : String} {p : Primitive} :
    keywordPrimitive name = .ok p → Denotes scope ρ (.keyword name) (.primitive p)
  | literal {ρ : Table WireType} {value : Json} {l : Literal} :
    Literal.ofJson? value = some l → Denotes scope ρ (.literal value) (.literal l)
  | null {ρ : Table WireType} : Denotes scope ρ (.literal .null) (.primitive .null)
  | array {ρ : Table WireType} {e : TypeExpr} {w : WireType} :
    Denotes scope ρ e w → Denotes scope ρ (.array e) (.array w)
  | tuple {ρ : Table WireType} {es : List TypeExpr} {ws : List WireType} :
    es ≠ [] → DenoteAll scope ρ es ws → Denotes scope ρ (.tuple es) (.array (.unionOf ws))
  | union {ρ : Table WireType} {ms : List TypeExpr} {ws : List WireType} :
    DenoteAll scope ρ ms ws → Denotes scope ρ (.union ms) (.unionOf ws)
  | intersection {ρ : Table WireType} {ms : List TypeExpr} {os : List ObjectType} :
    DenoteObjects scope ρ ms os → Denotes scope ρ (.intersection ms) (ObjectType.meet os).type
  | object {ρ : Table WireType} {fs : List (FieldDecl TypeExpr)} {fields : List (Field WireType)}
    {i : String} : DenoteFields scope ρ fs fields → Denotes scope ρ (.object fs) (.object i none [] fields)
  | bound {ρ : Table WireType} {name : String} {w : WireType} :
    ρ.get? name = some w → Denotes scope ρ (.parameter name) w
  | unbound {ρ : Table WireType} {name : String} :
    ρ.get? name = none → Denotes scope ρ (.parameter name) (.generic name [])
  | bare {ρ : Table WireType} {name : String} {w : WireType} :
    ρ.get? name = some w → Denotes scope ρ (.reference name []) w
  | unexpanded {ρ : Table WireType} {name : String} {args : List TypeExpr} :
    (TypeExpr.reference name args).Unbound ρ → name ∈ scope.options.nameOnly →
      Denotes scope ρ (.reference name args) (.unexpanded name)
  | builtin {ρ : Table WireType} {name : String} {args : List TypeExpr} {b : Builtin}
    {ws : List WireType} : (TypeExpr.reference name args).Unbound ρ →
      name ∉ scope.options.nameOnly → lookupType scope.types name = none → builtin? name = some b →
      args.length = b.arity → DenoteAll scope ρ args ws →
      Denotes scope ρ (.reference name args) (b.apply name ws)
  /-- The instance has the type arguments of the reference. -/
  | declared {ρ bound : Table WireType} {name : String} {args : List TypeExpr} {d : TypeDecl}
    {values arguments : List WireType} {w : WireType} : (TypeExpr.reference name args).Unbound ρ →
      scope.declaration? (.reference name args) = some d →
      Binds scope ρ d.parameters args [] bound values →
      List.Forall₂ (SameType scope) values arguments → Instance scope d arguments w →
      Denotes scope ρ (.reference name args) w
  | synonym {ρ bound : Table WireType} {name : String} {args : List TypeExpr} {d : TypeDecl}
    {target : TypeExpr} {values : List WireType} {w : WireType} :
      (TypeExpr.reference name args).Unbound ρ →
      scope.declaration? (.reference name args) = some d → d.body = .synonym target →
      d.body.fields? = none → Binds scope ρ d.parameters args [] bound values →
      Denotes scope bound target w → Denotes scope ρ (.reference name args) w
  | enumeration {ρ : Table WireType} {name : String} {args : List TypeExpr} {d : TypeDecl}
    {members : List EnumMember} {literals : List Literal} :
      (TypeExpr.reference name args).Unbound ρ →
      scope.declaration? (.reference name args) = some d → d.body = .enumeration members →
      enumLiterals d.name members = .ok literals →
      Denotes scope ρ (.reference name args) (.unionOf (literals.map .literal))

inductive DenoteAll (scope : Scope) : Table WireType → List TypeExpr → List WireType → Prop where
  | nil {ρ : Table WireType} : DenoteAll scope ρ [] []
  | cons {ρ : Table WireType} {t : TypeExpr} {ts : List TypeExpr} {w : WireType} {ws : List WireType} :
    Denotes scope ρ t w → DenoteAll scope ρ ts ws → DenoteAll scope ρ (t :: ts) (w :: ws)

inductive DenoteObjects (scope : Scope) : Table WireType → List TypeExpr → List ObjectType → Prop where
  | nil {ρ : Table WireType} : DenoteObjects scope ρ [] []
  | cons {ρ : Table WireType} {t : TypeExpr} {ts : List TypeExpr} {o : ObjectType}
    {os : List ObjectType} : Denotes scope ρ t o.type → DenoteObjects scope ρ ts os →
      DenoteObjects scope ρ (t :: ts) (o :: os)

inductive DenoteFields (scope : Scope) :
    Table WireType → List (FieldDecl TypeExpr) → List (Field WireType) → Prop where
  | nil {ρ : Table WireType} : DenoteFields scope ρ [] []
  | cons {ρ : Table WireType} {f : FieldDecl TypeExpr} {fs : List (FieldDecl TypeExpr)} {w : WireType}
    {fields : List (Field WireType)} : Denotes scope ρ f.type.stripUndefined.1 w →
      DenoteFields scope ρ fs fields → DenoteFields scope ρ (f :: fs) (f.resolved w :: fields)

/-- What type parameters stand for. An argument means what it means to the caller; a default may
refer to the parameters before it. -/
inductive Binds (scope : Scope) : Table WireType → List TypeParameter → List TypeExpr →
    Table WireType → Table WireType → List WireType → Prop where
  | nil {ρ env : Table WireType} {args : List TypeExpr} : Binds scope ρ [] args env env []
  | argument {ρ env bound : Table WireType} {p : TypeParameter} {ps : List TypeParameter}
    {a : TypeExpr} {args : List TypeExpr} {v : WireType} {vs : List WireType} :
    Denotes scope ρ a v → Binds scope ρ ps args (env.put p.name v) bound vs →
      Binds scope ρ (p :: ps) (a :: args) env bound (v :: vs)
  | default {ρ env bound : Table WireType} {p : TypeParameter} {ps : List TypeParameter}
    {u : TypeExpr} {v : WireType} {vs : List WireType} : p.default = some u → Denotes scope env u v →
      Binds scope ρ ps [] (env.put p.name v) bound vs → Binds scope ρ (p :: ps) [] env bound (v :: vs)
  | unbound {ρ env bound : Table WireType} {p : TypeParameter} {ps : List TypeParameter}
    {vs : List WireType} : p.default = none → Binds scope ρ ps [] env bound vs →
      Binds scope ρ (p :: ps) [] env bound (.generic p.name [] :: vs)

/-- An instance of a declaration that stands for an object: the object, or a reference back to it. Its
fields are what the declared ones denote where the type parameters stand for its type arguments. -/
inductive Instance (scope : Scope) : TypeDecl → List WireType → WireType → Prop where
  | back {d : TypeDecl} {arguments : List WireType} :
    Instance scope d arguments (.back (instanceIdentity d arguments))
  | interface {d : TypeDecl} {bases : List TypeExpr} {fs : List (FieldDecl TypeExpr)}
    {ρ bound : Table WireType} {args : List TypeExpr} {arguments : List WireType}
    {os : List ObjectType} {own : List (Field WireType)} : d.body = .interface bases fs →
      Binds scope ρ d.parameters args [] bound arguments → DenoteObjects scope bound bases os →
      DenoteFields scope bound fs own →
      Instance scope d arguments (.object (instanceIdentity d arguments) (some d.name) arguments
        (mergeFields (ObjectType.mergeAll os []) own))
  | object {d : TypeDecl} {fs : List (FieldDecl TypeExpr)} {ρ bound : Table WireType}
    {args : List TypeExpr} {arguments : List WireType} {fields : List (Field WireType)} :
      d.body = .synonym (.object fs) → Binds scope ρ d.parameters args [] bound arguments →
      DenoteFields scope bound fs fields →
      Instance scope d arguments (.object (instanceIdentity d arguments) (some d.name) arguments fields)

end

/-! ## Legible type expressions -/

namespace TypeExpr

variable (scope : Scope)

/-- Whether the type expression becomes an object that is known by names of declarations: an instance of
one, or an intersection. -/
inductive NamesObject : TypeExpr → Prop where
  | intersection {ms : List TypeExpr} : NamesObject (.intersection ms)
  | declared {t : TypeExpr} {d : TypeDecl} :
    scope.declaration? t = some d → d.body.fields?.isSome = true → NamesObject t
  | synonym {t u : TypeExpr} {d : TypeDecl} :
    scope.declaration? t = some d → d.body = .synonym u → NamesObject u → NamesObject t

/-- A JSON value that is no infinite number and no NaN, which JSON text cannot spell. -/
def FiniteLiteral (value : Json) : Prop :=
  ∀ x, Literal.ofJson? value = some (.number x) → x.isFinite = true

/-- Whether the type expression itself spoils no key. A bare name is none of `names`, which are those
of the type parameters around. -/
def LegibleHere (names : List String) : TypeExpr → Prop
  | literal value => FiniteLiteral value
  | parameter name => scope.Free name
  | reference name [] => name ∉ names
  | object fs => ∀ f ∈ fs, IsFieldName f.name
  | intersection ms => 2 ≤ ms.length ∧ ∀ m ∈ ms, m.NamesObject scope
  | _ => True

/-- Whether keys can be read that the type expression has a part in. -/
def Legible (names : List String) (t : TypeExpr) : Prop := t.Everywhere (LegibleHere scope names)

end TypeExpr

open TypeExpr

/-- Whether the keys of types can be read that come from the declarations. -/
structure Resolve.Scope.Legible (scope : Scope) : Prop extends scope.Named where
  parameters : ∀ d ∈ scope.types, ∀ p ∈ d.parameters, scope.Free p.name
  legible : ∀ d ∈ scope.types, ∀ u ∈ d.body.needs ++ d.defaults,
    u.Legible scope (d.parameters.map (·.name))
  members : ∀ d ∈ scope.types, ∀ members, d.body = .enumeration members →
    ∀ m ∈ members, FiniteLiteral m.value

variable {scope : Scope}

namespace TypeExpr.Legible

variable {t : TypeExpr} {names : List String}

theorem stripUndefined (h : t.Legible scope names) : t.stripUndefined.1.Legible scope names :=
  Everywhere.stripUndefined ⟨fun _ => trivial, fun _ => trivial⟩ h

theorem field {fs : List (FieldDecl TypeExpr)} (h : (object fs).Legible scope names)
    {f : FieldDecl TypeExpr} (hf : f ∈ fs) : f.type.stripUndefined.1.Legible scope names :=
  stripUndefined (h.inner (List.mem_map_of_mem hf))

end TypeExpr.Legible

/-- The names of type parameters and their values, where keys can be read. -/
structure Readable (scope : Scope) (ρ : Table WireType) (names : List String) : Prop where
  values : ∀ entry ∈ ρ, Meaningful scope entry.2
  keys : ∀ s ∈ ρ.keys, s ∈ names

theorem Readable.put {ρ : Table WireType} {names : List String} (h : Readable scope ρ names) {s : String}
    (hs : s ∈ names) {w : WireType} (hw : Meaningful scope w) : Readable scope (ρ.put s w) names where
  values := Table.forall_values_put h.values hw s
  keys := Table.forall_keys_put h.keys hs w

/-- A term that is an intersection of instances, or one. -/
def TypeTerm.IsNamed : TypeTerm scope → Prop
  | .of a more n => n = 0 ∧ ∀ b ∈ a :: more, ∃ d hd ts, b = instanceOf d hd ts

theorem TypeTerm.isNamed_instanceOf (d : TypeDecl) (hd : d ∈ scope.types) (ts : List (TypeTerm scope)) :
    (atom (instanceOf d hd ts)).IsNamed :=
  ⟨rfl, fun _ hb => ⟨d, hd, ts, List.mem_singleton.mp hb⟩⟩

/-- What an object stands for in an intersection: the instances that it is made of. -/
structure ObjectType.MadeOf (o : ObjectType) (ps : List ObjectType) : Prop where
  ne_nil : ps ≠ []
  identity : o.identity = joinedIdentity ps
  name : o.type.display = joinedName ps
  fields : ∀ merged, mergeFields merged o.fields = mergeAll ps merged

namespace ObjectType

theorem mergeFields_mergeAll (os : List ObjectType) {added fields : List (Field WireType)}
    (h : (added.map (·.name)).Nodup) :
    mergeFields fields (mergeAll os added) = mergeAll os (mergeFields fields added) := by
  induction os generalizing added with
  | nil => rfl
  | cons o os ih =>
    calc mergeFields fields (mergeAll (o :: os) added)
        = mergeAll os (mergeFields fields (mergeFields added o.fields)) := ih (nodup_mergeFields h _)
      _ = mergeAll (o :: os) (mergeFields fields added) := by rw [mergeFields_assoc h]; rfl

theorem madeOf_self (o : ObjectType) : o.MadeOf [o] :=
  ⟨by simp, by simp [joinedIdentity], by simp [joinedName], fun _ => rfl⟩

theorem madeOf_meet {os : List ObjectType} (h : os ≠ []) : (meet os).MadeOf os where
  ne_nil := h
  identity := rfl
  name := by simp [meet, type, WireType.display, WireType.displayList, WireType.withArguments]
  fields _ := mergeFields_mergeAll os (by simp)

theorem mergeAll_eq (os : List ObjectType) (fields : List (Field WireType)) :
    mergeAll os fields = mergeFields fields (mergeAll os []) :=
  (@mergeFields_mergeAll os [] fields List.nodup_nil).symm

/-- An intersection may as well be made of what the objects in it are made of. -/
theorem meet_cons {o : ObjectType} {os ps qs : List ObjectType} (ho : o.MadeOf ps)
    (hos : meet os = meet qs) (hnil : os = [] ↔ qs = []) : meet (o :: os) = meet (ps ++ qs) := by
  have hparts : joinedIdentity os = joinedIdentity qs ∧ joinedName os = joinedName qs ∧
      mergeAll os [] = mergeAll qs [] := by
    simpa [meet] using hos
  obtain ⟨hidentity, hname, hfields⟩ := hparts
  have hmerged : mergeAll (o :: os) [] = mergeAll (ps ++ qs) [] := by
    calc mergeAll (o :: os) []
        = mergeFields (mergeFields [] o.fields) (mergeAll os []) := mergeAll_eq os _
      _ = mergeFields (mergeAll ps []) (mergeAll qs []) := by rw [ho.fields, hfields]
      _ = mergeAll qs (mergeAll ps []) := (mergeAll_eq qs _).symm
      _ = mergeAll (ps ++ qs) [] := by rw [mergeAll, mergeAll, mergeAll, List.foldl_append]
  cases os with
  | nil =>
    obtain rfl := hnil.mp rfl
    simp only [meet, ObjectType.mk.injEq, true_and]
    exact ⟨by simpa [joinedIdentity] using ho.identity, by simpa [joinedName] using ho.name, hmerged⟩
  | cons o' os =>
    have hqs : qs ≠ [] := fun h => by simpa using hnil.mpr h
    have hidentities : joinedIdentity (o :: o' :: os) = joinedIdentity (ps ++ qs) := by
      rw [joinedIdentity, joinedIdentity, List.map_append, List.map_cons,
        String.intercalate_cons_of_ne_nil (by simp),
        String.intercalate_append_of_ne_nil (by simp [ho.ne_nil]) (by simp [hqs])]
      rw [ho.identity, joinedIdentity]
      exact congrArg _ hidentity
    have hnames : joinedName (o :: o' :: os) = joinedName (ps ++ qs) := by
      rw [joinedName, joinedName, List.map_append, List.map_cons,
        String.intercalate_cons_of_ne_nil (by simp),
        String.intercalate_append_of_ne_nil (by simp [ho.ne_nil]) (by simp [hqs])]
      rw [ho.name, joinedName]
      exact congrArg _ hname
    rw [meet, meet, hidentities, hnames, hmerged]

end ObjectType

/-- An object that means an intersection of instances is made of these. -/
theorem Means.exists_madeOf {o : ObjectType} {t : TypeTerm scope} (h : Means scope o.type t)
    (ht : t.IsNamed) : ∃ ps as, o.MadeOf ps ∧ MeansInstances scope ps as := by
  generalize ho : o.type = w at h
  cases h with
  | inline h =>
    obtain ⟨d, hd, ts, heq⟩ := ht.2 _ (List.mem_cons_self ..)
    cases ts <;> cases heq
  | named h =>
    obtain rfl := ObjectType.type_injective ho
    exact ⟨[o], _, o.madeOf_self, .cons h .nil⟩
  | meet h =>
    obtain rfl := ObjectType.type_injective ho
    exact ⟨_, _, ObjectType.madeOf_meet (by simp), h⟩
  | _ => cases ho

theorem MeansInstances.append {ps qs : List ObjectType} {as bs : List (TypeAtom scope)}
    (h : MeansInstances scope ps as) (h' : MeansInstances scope qs bs) :
    MeansInstances scope (ps ++ qs) (as ++ bs) := by
  induction ps generalizing as with
  | nil => cases h; exact h'
  | cons p ps ih => cases h with | cons hp hps => exact .cons hp (ih hps)

theorem MeansInstances.isInstance {ps : List ObjectType} {as : List (TypeAtom scope)}
    (h : MeansInstances scope ps as) : ∀ a ∈ as, ∃ d hd ts, a = instanceOf d hd ts := by
  induction ps generalizing as with
  | nil => cases h; simp
  | cons p ps ih =>
    cases h with
    | cons hp hps =>
      cases hp with
      | of hd _ _ => exact List.forall_mem_cons.mpr ⟨⟨_, hd, _, rfl⟩, ih hps⟩

theorem MeansInstances.length_eq {ps : List ObjectType} {as : List (TypeAtom scope)}
    (h : MeansInstances scope ps as) : ps.length = as.length := by
  induction ps generalizing as with
  | nil => cases h; rfl
  | cons p ps ih => cases h with | cons hp hps => simp [ih hps]

/-- The intersection of at least two objects, all of them made of instances. -/
theorem MeansInstances.exists_means_meet {ps : List ObjectType} {as : List (TypeAtom scope)}
    (h : MeansInstances scope ps as) (hlength : 2 ≤ ps.length) :
    ∃ t, Means scope (ObjectType.meet ps).type t ∧ t.IsNamed := by
  have hinstances := h.isInstance
  cases h with
  | nil => simp at hlength
  | cons hp hps =>
    cases hps with
    | nil => simp at hlength
    | cons hq hqs => exact ⟨_, .meet (.cons hp (.cons hq hqs)), rfl, hinstances⟩

/-! ## What is denoted has a meaning -/

section

variable {ρ env bound : Table WireType} {names : List String} {t : TypeExpr} {w : WireType}
  {d : TypeDecl}

theorem Binds.length_eq {ps : List TypeParameter} {args : List TypeExpr} {vs : List WireType}
    (h : Binds scope ρ ps args env bound vs) : vs.length = ps.length := by
  induction ps generalizing args env vs with
  | nil => cases h; rfl
  | cons p ps ih =>
    cases h with
    | argument _ h => simp [ih h]
    | default _ _ h => simp [ih h]
    | unbound _ h => simp [ih h]

/-- What a type parameter needs so that its value can be read. -/
structure ReadableParameter (scope : Scope) (names : List String) (p : TypeParameter) : Prop where
  name : p.name ∈ names
  free : scope.Free p.name
  default : ∀ u, p.default = some u → u.Legible scope names

theorem Resolve.Scope.Legible.parameter (hs : scope.Legible) (hd : d ∈ scope.types) :
    ∀ p ∈ d.parameters, ReadableParameter scope (d.parameters.map (·.name)) p := by
  intro p hp
  refine ⟨List.mem_map_of_mem hp, hs.parameters d hd p hp, fun u hu => ?_⟩
  exact hs.legible d hd u (List.mem_append_right _ (List.mem_filterMap.mpr ⟨p, hp, hu⟩))

theorem Instance.identity_eq {arguments as : List WireType} {i : String} {name : Option String}
    {fields : List (Field WireType)} (h : Instance scope d arguments (.object i name as fields)) :
    i = instanceIdentity d arguments := by
  cases h <;> rfl

theorem Instance.meaningful (hd : d ∈ scope.types) {arguments : List WireType}
    (h : Instance scope d arguments w) (hlength : arguments.length = d.parameters.length)
    (ha : ∀ v ∈ arguments, Meaningful scope v) : ∃ t, Means scope w t ∧ t.IsNamed := by
  obtain ⟨ts, hts⟩ := exists_meansAll.mpr ha
  refine ⟨atom (instanceOf d hd ts), ?_, isNamed_instanceOf d hd ts⟩
  have hobject : ∀ fields, Means scope (.object (instanceIdentity d arguments) (some d.name) arguments
      fields) (atom (instanceOf d hd ts)) := fun fields =>
    .named (o := ⟨instanceIdentity d arguments, some d.name, arguments, fields⟩)
      (.of hd ⟨rfl, rfl, hlength⟩ hts)
  cases h with
  | back => exact .back hd hlength hts
  | interface => exact hobject _
  | object => exact hobject _

theorem not_namesObject (hd : scope.declaration? t = none) (ht : ∀ ms, t ≠ .intersection ms) :
    ¬ t.NamesObject scope := by
  intro h
  cases h with
  | intersection => exact ht _ rfl
  | declared he => simp [hd] at he
  | synonym he => simp [hd] at he

/-- What a synonym stands for is known by names if the synonym is. -/
theorem namesObject_target {target : TypeExpr} (hd : scope.declaration? t = some d)
    (ht : ∀ ms, t ≠ .intersection ms) (hbody : d.body = .synonym target) (hnone : d.body.fields? = none)
    (h : t.NamesObject scope) : target.NamesObject scope := by
  cases h with
  | intersection => exact absurd rfl (ht _)
  | declared he hfields =>
    obtain rfl : d = _ := Option.some.inj (hd.symm.trans he)
    simp [hnone] at hfields
  | synonym he hbody' h =>
    obtain rfl : d = _ := Option.some.inj (hd.symm.trans he)
    obtain rfl : target = _ := by simpa using hbody.symm.trans hbody'
    exact h

theorem not_namesObject_of_enumeration {members : List EnumMember} (hd : scope.declaration? t = some d)
    (ht : ∀ ms, t ≠ .intersection ms) (hbody : d.body = .enumeration members) :
    ¬ t.NamesObject scope := by
  intro h
  cases h with
  | intersection => exact absurd rfl (ht _)
  | declared he hfields =>
    obtain rfl : d = _ := Option.some.inj (hd.symm.trans he)
    simp [hbody, TypeBody.fields?] at hfields
  | synonym he hbody' h =>
    obtain rfl : d = _ := Option.some.inj (hd.symm.trans he)
    simp [hbody] at hbody'

/-- The literals of an enumeration have a meaning. -/
theorem meaningful_literals {members : List EnumMember} {name : String} {literals : List Literal}
    (h : enumLiterals name members = .ok literals) (hfinite : ∀ m ∈ members, FiniteLiteral m.value) :
    ∀ v ∈ literals.map WireType.literal, Meaningful scope v := by
  intro v hv
  obtain ⟨l, hl, rfl⟩ := List.mem_map.mp hv
  obtain ⟨m, hm, hvalue⟩ := exists_of_mem_enumLiterals h l hl
  cases l with
  | boolean b => exact ⟨_, .boolean b⟩
  | number x => exact ⟨_, .number (hfinite m hm x hvalue)⟩
  | string s => exact ⟨_, .string s⟩

theorem TypeBody.synonym_mem_needs {target : TypeExpr} (hbody : d.body = .synonym target)
    (hnone : d.body.fields? = none) : target ∈ d.body.needs := by
  have hopened := TypeBody.opened_of_synonym hbody hnone
  simp [TypeBody.needs, hopened]

theorem Resolve.Scope.Legible.target (hs : scope.Legible) (hd : d ∈ scope.types) {target : TypeExpr}
    (hbody : d.body = .synonym target) (hnone : d.body.fields? = none) :
    target.Legible scope (d.parameters.map (·.name)) :=
  hs.legible d hd target (List.mem_append_left d.defaults (TypeBody.synonym_mem_needs hbody hnone))

theorem declaration?_of_lookup {name : String} (h : lookupType scope.types name = none)
    (args : List TypeExpr) : scope.declaration? (.reference name args) = none := by
  simp [Scope.declaration?, h]

theorem Builtin.meaningful {b : Builtin} {name : String} (hb : builtin? name = some b)
    {ws : List WireType} (hlength : ws.length = b.arity) (h : ∀ v ∈ ws, Meaningful scope v) :
    Meaningful scope (b.apply name ws) := by
  cases b with
  | scalar p => exact ⟨_, .primitive p⟩
  | promise =>
    obtain ⟨v, rfl⟩ := List.length_eq_one_iff.mp hlength
    obtain ⟨t, ht⟩ := h v (List.mem_cons_self ..)
    exact ⟨_, .promise ht⟩
  | list =>
    obtain ⟨v, rfl⟩ := List.length_eq_one_iff.mp hlength
    obtain ⟨t, ht⟩ := h v (List.mem_cons_self ..)
    exact ⟨_, .array ht⟩
  | dictionary =>
    obtain ⟨ts, hts⟩ := exists_meansAll.mpr h
    cases hts with
    | nil => cases hlength
    | cons hw hws => exact ⟨_, .dictionary hb (.cons hw hws)⟩

theorem DenoteAll.length_eq {ts : List TypeExpr} {ws : List WireType} (h : DenoteAll scope ρ ts ws) :
    ws.length = ts.length := by
  induction ts generalizing ws with
  | nil => cases h; rfl
  | cons t ts ih => cases h with | cons _ h => simp [ih h]

/-- Whether a wire type has a meaning, and a named one if the type expression says so. -/
def MeaningfulFor (scope : Scope) (t : TypeExpr) (w : WireType) : Prop :=
  ∃ T, Means scope w T ∧ (t.NamesObject scope → T.IsNamed)

theorem MeaningfulFor.meaningful (h : MeaningfulFor scope t w) : Meaningful scope w :=
  h.imp fun _ h => h.1

theorem MeaningfulFor.of_not_namesObject (h : Meaningful scope w) (ht : ¬ t.NamesObject scope) :
    MeaningfulFor scope t w :=
  h.imp fun _ h => ⟨h, fun hnames => absurd hnames ht⟩

mutual

/-- What a legible type expression denotes has a meaning. -/
theorem Denotes.meaningful (hs : scope.Legible) : ∀ {ρ : Table WireType} {names : List String}
    {t : TypeExpr} {w : WireType}, Denotes scope ρ t w → t.Legible scope names →
      Readable scope ρ names → MeaningfulFor scope t w
  | _, _, _, _, .keyword _, _, _ =>
    .of_not_namesObject ⟨_, .primitive _⟩ (not_namesObject rfl (by simp))
  | _, _, _, .literal (.boolean b), .literal _, _, _ =>
    .of_not_namesObject ⟨_, .boolean b⟩ (not_namesObject rfl (by simp))
  | _, _, _, .literal (.number x), .literal hl, ht, _ =>
    .of_not_namesObject ⟨_, .number (ht.self x hl)⟩ (not_namesObject rfl (by simp))
  | _, _, _, .literal (.string s), .literal _, _, _ =>
    .of_not_namesObject ⟨_, .string s⟩ (not_namesObject rfl (by simp))
  | _, _, _, _, .null, _, _ =>
    .of_not_namesObject ⟨_, .primitive _⟩ (not_namesObject rfl (by simp))
  | _, _, _, _, .array h, ht, hρ => by
    obtain ⟨T, hT, _⟩ := h.meaningful hs (ht.inner (by simp [TypeExpr.inner])) hρ
    exact .of_not_namesObject ⟨_, .array hT⟩ (not_namesObject rfl (by simp))
  | _, _, _, _, .tuple _ h, ht, hρ => by
    obtain ⟨T, hT⟩ := Meaningful.unionOf (h.meaningful hs (fun _ hu => ht.inner hu) hρ)
    exact .of_not_namesObject ⟨_, .array hT⟩ (not_namesObject rfl (by simp))
  | _, _, _, _, .union h, ht, hρ =>
    .of_not_namesObject (.unionOf (h.meaningful hs (fun _ hu => ht.inner hu) hρ))
      (not_namesObject rfl (by simp))
  | _, _, _, _, .intersection h, ht, hρ => by
    obtain ⟨ps, as, hmeet, _, hlength, hps⟩ :=
      h.exists_instances hs (fun _ hu => ht.inner hu) ht.self.2 hρ
    obtain ⟨T, hT, hnamed⟩ := hps.exists_means_meet (ht.self.1.trans hlength)
    rw [hmeet]
    exact ⟨T, hT, fun _ => hnamed⟩
  | _, _, _, _, .object h, ht, hρ => by
    obtain ⟨fs, hfs⟩ := h.exists_means hs ht.self (fun _ hf => ht.field hf) hρ
    exact .of_not_namesObject ⟨_, .inline hfs⟩ (not_namesObject rfl (by simp))
  | _, _, _, _, .bound hget, _, hρ =>
    .of_not_namesObject (hρ.values _ (Table.mem_of_get? hget)) (not_namesObject rfl (by simp))
  | _, _, _, _, .unbound _, ht, _ =>
    .of_not_namesObject ⟨_, .unbound ht.self⟩ (not_namesObject rfl (by simp))
  | _, _, _, _, .bare hget, ht, hρ =>
    absurd (hρ.keys _ (List.mem_map_of_mem (Table.mem_of_get? hget))) ht.self
  | _, _, _, _, .unexpanded _ hname, _, _ =>
    .of_not_namesObject ⟨_, .unexpanded hname⟩
      (not_namesObject (Scope.declaration?_kept (by simpa using hname) _) (by simp))
  | _, _, _, _, .builtin _ _ hnone hb hlength h, ht, hρ => by
    have hws := h.meaningful hs (fun _ hu => ht.inner hu) hρ
    exact .of_not_namesObject (Builtin.meaningful hb (h.length_eq.trans hlength) hws)
      (not_namesObject (declaration?_of_lookup hnone _) (by simp))
  | _, _, _, _, .declared _ hd hbinds hsame h, _, _ => by
    have harguments := fun v hv =>
      let ⟨_, _, T, _, hT⟩ := exists_of_mem_right hsame hv
      (⟨T, hT⟩ : Meaningful scope v)
    obtain ⟨T, hT, hnamed⟩ := h.meaningful (Scope.mem_of_declaration? hd)
      (hsame.length_eq.symm.trans hbinds.length_eq) harguments
    exact ⟨T, hT, fun _ => hnamed⟩
  | _, _, _, _, .synonym _ hd hbody hnone hbinds h, ht, hρ => by
    have hmem := Scope.mem_of_declaration? hd
    obtain ⟨hbound, _⟩ := hbinds.readable hs (hs.parameter hmem) (fun _ hu => ht.inner hu) hρ
      ⟨by simp, by simp [Table.keys]⟩
    obtain ⟨T, hT, hnamed⟩ := h.meaningful hs (hs.target hmem hbody hnone) hbound
    exact ⟨T, hT, fun hn => hnamed (namesObject_target hd (by simp) hbody hnone hn)⟩
  | _, _, _, _, .enumeration _ hd hbody hliterals, _, _ =>
    .of_not_namesObject (.unionOf (meaningful_literals hliterals
        (hs.members _ (Scope.mem_of_declaration? hd) _ hbody)))
      (not_namesObject_of_enumeration hd (by simp) hbody)

theorem DenoteAll.meaningful (hs : scope.Legible) : ∀ {ρ : Table WireType} {names : List String}
    {ts : List TypeExpr} {ws : List WireType}, DenoteAll scope ρ ts ws →
      (∀ t ∈ ts, t.Legible scope names) → Readable scope ρ names → ∀ w ∈ ws, Meaningful scope w
  | _, _, _, _, .nil, _, _ => by simp
  | _, _, _, _, .cons h hrest, ht, hρ => by
    obtain ⟨ht, hts⟩ := List.forall_mem_cons.mp ht
    exact List.forall_mem_cons.mpr ⟨(h.meaningful hs ht hρ).meaningful, hrest.meaningful hs hts hρ⟩

/-- Objects that are known by names are made of instances. -/
theorem DenoteObjects.exists_instances (hs : scope.Legible) : ∀ {ρ : Table WireType}
    {names : List String} {ts : List TypeExpr} {os : List ObjectType}, DenoteObjects scope ρ ts os →
      (∀ t ∈ ts, t.Legible scope names) → (∀ t ∈ ts, t.NamesObject scope) → Readable scope ρ names →
      ∃ ps as, ObjectType.meet os = ObjectType.meet ps ∧ (os = [] ↔ ps = []) ∧
        ts.length ≤ ps.length ∧ MeansInstances scope ps as
  | _, _, _, _, .nil, _, _, _ => ⟨[], [], rfl, Iff.rfl, le_rfl, .nil⟩
  | _, _, _, _, .cons h hrest, ht, hn, hρ => by
    obtain ⟨ht, hts⟩ := List.forall_mem_cons.mp ht
    obtain ⟨hn, hns⟩ := List.forall_mem_cons.mp hn
    obtain ⟨T, hT, hnamed⟩ := h.meaningful hs ht hρ
    obtain ⟨ps, as, hmade, hps⟩ := hT.exists_madeOf (hnamed hn)
    obtain ⟨qs, bs, hmeet, hnil, hlength, hqs⟩ := hrest.exists_instances hs hts hns hρ
    have hpos := List.length_pos_of_ne_nil hmade.ne_nil
    refine ⟨ps ++ qs, as ++ bs, ObjectType.meet_cons hmade hmeet hnil, by simp [hmade.ne_nil], ?_,
      hps.append hqs⟩
    rw [List.length_cons, List.length_append]
    omega

theorem DenoteFields.exists_means (hs : scope.Legible) : ∀ {ρ : Table WireType} {names : List String}
    {fs : List (FieldDecl TypeExpr)} {fields : List (Field WireType)}, DenoteFields scope ρ fs fields →
      (∀ f ∈ fs, IsFieldName f.name) → (∀ f ∈ fs, f.type.stripUndefined.1.Legible scope names) →
      Readable scope ρ names → ∃ gs, MeansFields scope fields gs
  | _, _, _, _, .nil, _, _, _ => ⟨[], .nil⟩
  | _, _, _, _, .cons h hrest, hn, ht, hρ => by
    obtain ⟨hn, hns⟩ := List.forall_mem_cons.mp hn
    obtain ⟨ht, hts⟩ := List.forall_mem_cons.mp ht
    obtain ⟨T, hT⟩ := (h.meaningful hs ht hρ).meaningful
    obtain ⟨gs, hgs⟩ := hrest.exists_means hs hns hts hρ
    exact ⟨_, .cons hn hT hgs⟩

/-- The values of type parameters have a meaning. -/
theorem Binds.readable (hs : scope.Legible) : ∀ {ρ env bound : Table WireType}
    {names names' : List String} {ps : List TypeParameter} {args : List TypeExpr} {vs : List WireType},
      Binds scope ρ ps args env bound vs → (∀ p ∈ ps, ReadableParameter scope names' p) →
      (∀ a ∈ args, a.Legible scope names) → Readable scope ρ names → Readable scope env names' →
      Readable scope bound names' ∧ ∀ v ∈ vs, Meaningful scope v
  | _, _, _, _, _, _, _, _, .nil, _, _, _, henv => ⟨henv, by simp⟩
  | _, _, _, _, _, _, _, _, .argument h hrest, hps, ht, hρ, henv => by
    obtain ⟨hp, hps⟩ := List.forall_mem_cons.mp hps
    obtain ⟨ht, hts⟩ := List.forall_mem_cons.mp ht
    have hv := (h.meaningful hs ht hρ).meaningful
    obtain ⟨hbound, hvs⟩ := hrest.readable hs hps hts hρ (henv.put hp.name hv)
    exact ⟨hbound, List.forall_mem_cons.mpr ⟨hv, hvs⟩⟩
  | _, _, _, _, _, _, _, _, .default hu h hrest, hps, _, hρ, henv => by
    obtain ⟨hp, hps⟩ := List.forall_mem_cons.mp hps
    have hv := (h.meaningful hs (hp.default _ hu) henv).meaningful
    obtain ⟨hbound, hvs⟩ := hrest.readable hs hps (by simp) hρ (henv.put hp.name hv)
    exact ⟨hbound, List.forall_mem_cons.mpr ⟨hv, hvs⟩⟩
  | _, _, _, _, _, _, _, _, .unbound _ hrest, hps, _, hρ, henv => by
    obtain ⟨hp, hps⟩ := List.forall_mem_cons.mp hps
    obtain ⟨hbound, hvs⟩ := hrest.readable hs hps (by simp) hρ henv
    exact ⟨hbound, List.forall_mem_cons.mpr ⟨⟨_, .unbound hp.free⟩, hvs⟩⟩

end

end

end AnnotatedApi
