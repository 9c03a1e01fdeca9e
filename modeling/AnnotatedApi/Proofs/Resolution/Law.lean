import AnnotatedApi.Proofs.Resolution.Equations
import AnnotatedApi.Proofs.Resolution.Fault
import AnnotatedApi.Proofs.Resolution.Objects
import AnnotatedApi.Proofs.Resolution.Steady
import AnnotatedApi.Proofs.WireType.Union

/-!
# Laws of resolution

A law is a property of types, in the midst of some expansions, that is kept by everything that a
resolution does: by each way of putting types together, by entering and leaving an expansion, and by
what goes into the cache and comes out of it. A law holds of everything that is ever resolved, and
with it whatever it says of the cache and of failures; `resolveType_lawful` proves this once for all
laws, by one lemma for each function of the resolver. A law with places also relies on what is known
of the places at which type expressions are resolved, and the law of a step on what the step resolves
on the way.
-/

namespace AnnotatedApi.Resolve

set_option autoImplicit false

/-- The field belongs to an object with a property; `identity` is that of the object. -/
def TakenFrom (Q : WireType → Prop) (identity : String) (f : Field WireType) : Prop :=
  ∃ name arguments fields, Q (.object identity name arguments fields) ∧ f ∈ fields

/-- Whether a field of a declared object can only come from a base type: there are base types, and the
declaration does not declare the field itself. -/
def Inherited (d : TypeDecl) (field : String) : Prop :=
  ∃ bases own, d.body = .interface bases own ∧ bases ≠ [] ∧ field ∉ own.map (·.name)

/-- Whether the type may be remembered under an identity. -/
structure Shareable (identity : String) (t : WireType) : Prop where
  closed : t.isClosed = true
  own : ∀ i name arguments fields, t = .object i name arguments fields → i = identity

/-- Whether the type is what a declaration becomes that may be remembered: an object with the identity, or
the union of the values of an enumeration. -/
inductive Kept (identity : String) : WireType → Prop where
  | object (name : String) (arguments : List WireType) (fields : List (Field WireType)) :
    Kept identity (.object identity (some name) arguments fields)
  | enumeration (literals : List Literal) : Kept identity (.unionOf (literals.map .literal))

/-- The frame of a declaration with some type arguments. -/
def frameOf (d : TypeDecl) (arguments : List WireType) : Frame :=
  ⟨instanceIdentity d arguments, !d.parameters.isEmpty⟩

/-- A property `P` of types, in expansions of which the frames are known, that every step of a
resolution keeps, together with an invariant `I` of the cache and a property `F` of failures. -/
structure Law (scope : Scope) (I : Cache → Prop) (F : Failure → Prop)
    (P : List Frame → WireType → Prop) : Prop where
  unsupported : ∀ cause, F (.unsupported cause)
  exhausted : F .exhausted
  primitive : ∀ frames p, P frames (.primitive p)
  literal : ∀ frames value, P frames (.literal value)
  unexpanded : ∀ frames name, P frames (.unexpanded name)
  unbound : ∀ frames name, P frames (.generic name [])
  array : ∀ frames t, P frames t → P frames (.array t)
  builtin : ∀ frames name b arguments, builtin? name = some b → arguments.length = b.arity →
    (∀ t ∈ arguments, P frames t) → P frames (b.apply name arguments)
  union : ∀ frames types, (∀ t ∈ types, P frames t) → P frames (.unionOf types)
  back : ∀ (c : Context) identity, c.isExpanding identity = true → P c.frames (.back identity)
  inline : ∀ (c : Context) fields, (∀ f ∈ fields, P c.frames f.type) →
    P c.frames (.object c.inlineIdentity none [] fields)
  /-- Every field of an intersection comes from one of its members. -/
  intersection : ∀ frames identities (name : String) fields,
    (∀ f ∈ fields, ∃ i ∈ identities, TakenFrom (P frames) i f) →
      P frames (.object (String.intercalate " & " identities) (some name) [] fields)
  /-- The type arguments are known inside the expansion too. -/
  enter : ∀ frames (d : TypeDecl) arguments, d ∈ scope.types →
    arguments.length = d.parameters.length → (∀ t ∈ arguments, P frames t) →
      ∀ t ∈ arguments, P (frameOf d arguments :: frames) t
  /-- Every field of a declared object is declared or comes from a base type. -/
  declared : ∀ frames (d : TypeDecl) arguments fields, d ∈ scope.types →
    (∀ t ∈ arguments, P frames t) →
    (∀ f ∈ fields, P (frameOf d arguments :: frames) f.type ∨
      Inherited d f.name ∧ ∃ i, TakenFrom (P (frameOf d arguments :: frames)) i f) →
    P frames (.object (instanceIdentity d arguments) (some d.name) arguments fields)
  /-- Another name for a type does not point back to itself. -/
  leave : ∀ frames (d : TypeDecl) arguments t, d ∈ scope.types →
    P (frameOf d arguments :: frames) t → instanceIdentity d arguments ∉ t.openReferences →
      P frames t
  found : ∀ (c : Context) (d : TypeDecl) arguments, d ∈ scope.types →
    (∀ t ∈ arguments, P c.frames t) → c.isExpanding (instanceIdentity d arguments) = false →
    Steady I c (remembered? (instanceIdentity d arguments)) (fun found => ∀ t ∈ found, P c.frames t) F
  store : ∀ (c : Context) (d : TypeDecl) arguments t, d ∈ scope.types →
    (∀ t ∈ arguments, P c.frames t) → P c.frames t → Shareable (instanceIdentity d arguments) t →
    Kept (instanceIdentity d arguments) t →
    Steady I c (remember (instanceIdentity d arguments) t) (fun _ => True) F

/-! ## Places -/

/-- Which type expressions are resolved for one, and in which contexts. Where a declaration is expanded,
the property is known of its type arguments. -/
inductive Leads (scope : Scope) (P : List Frame → WireType → Prop) (c : Context) :
    TypeExpr → Context → TypeExpr → Prop where
  | element {e : TypeExpr} : Leads scope P c (.array e) (c.pushField "[]") e
  | component {es : List TypeExpr} {e : TypeExpr} : e ∈ es → Leads scope P c (.tuple es) c e
  | alternative {ms : List TypeExpr} {m : TypeExpr} : m ∈ ms → Leads scope P c (.union ms) c m
  | member {ms : List TypeExpr} {m : TypeExpr} : m ∈ ms → Leads scope P c (.intersection ms) c m
  | field {fs : List (FieldDecl TypeExpr)} {f : FieldDecl TypeExpr} : f ∈ fs →
    Leads scope P c (.object fs) (c.pushField f.name) f.type.stripUndefined.1
  | argument {name : String} {args : List TypeExpr} {a : TypeExpr} : a ∈ args →
    Leads scope P c (.reference name args) c a
  | default {name : String} {args : List TypeExpr} {d : TypeDecl} {p : TypeParameter} {u : TypeExpr}
    (environment : Table WireType) : scope.declaration? (.reference name args) = some d →
      p ∈ d.parameters.drop args.length → p.default = some u →
      Leads scope P c (.reference name args) { c with environment := environment } u
  | opened {name : String} {args : List TypeExpr} {d : TypeDecl} {arguments : List WireType}
    {u : TypeExpr} (environment : Table WireType) :
      scope.declaration? (.reference name args) = some d → (∀ t ∈ arguments, P c.frames t) →
      u ∈ d.body.opened →
      Leads scope P c (.reference name args) (c.enter (frameOf d arguments) environment) u
  | declared {name : String} {args : List TypeExpr} {d : TypeDecl} {arguments : List WireType}
    {fs : List (FieldDecl TypeExpr)} {f : FieldDecl TypeExpr} (environment : Table WireType) :
      scope.declaration? (.reference name args) = some d → (∀ t ∈ arguments, P c.frames t) →
      d.body.fields? = some fs → f ∈ fs →
      Leads scope P c (.reference name args)
        ((c.enter (frameOf d arguments) environment).pushField f.name) f.type.stripUndefined.1

/-- What a step keeps, apart from the objects it puts together: the step is for a type expression and in a
state of `B`, and what it resolves is in places of `A`. -/
structure Rules (scope : Scope) (B : State → TypeExpr → Prop) (A : Context → TypeExpr → Prop)
    (I : Cache → Prop) (F : Failure → Prop) (P : List Frame → WireType → Prop) : Prop where
  leads : ∀ S t c' u, B S t → Leads scope P S.context t c' u → A c' u
  unsupported : ∀ cause, F (.unsupported cause)
  exhausted : F .exhausted
  primitive : ∀ frames p, P frames (.primitive p)
  literal : ∀ (S : State) value l, B S (.literal value) → Literal.ofJson? value = some l →
    P S.context.frames (.literal l)
  constant : ∀ frames, ∀ d ∈ scope.types, ∀ members, d.body = .enumeration members →
    ∀ m ∈ members, ∀ l, Literal.ofJson? m.value = some l → P frames (.literal l)
  unexpanded : ∀ frames, ∀ name ∈ scope.options.nameOnly, P frames (.unexpanded name)
  unbound : ∀ (S : State) name, B S (.parameter name) → P S.context.frames (.generic name [])
  missing : ∀ frames, ∀ d ∈ scope.types, ∀ p ∈ d.parameters, P frames (.generic p.name [])
  array : ∀ frames t, P frames t → P frames (.array t)
  builtin : ∀ frames name b arguments, builtin? name = some b → arguments.length = b.arity →
    (∀ t ∈ arguments, P frames t) → P frames (b.apply name arguments)
  union : ∀ frames types, (∀ t ∈ types, P frames t) → P frames (.unionOf types)
  back : ∀ (c : Context) (d : TypeDecl) arguments, d ∈ scope.types → (∀ t ∈ arguments, P c.frames t) →
    c.isExpanding (instanceIdentity d arguments) = true → P c.frames (.back (instanceIdentity d arguments))
  inline : ∀ (S : State) fs fields, B S (.object fs) →
    fields.map (·.name) = fs.map (·.name) → (∀ f ∈ fields, P S.context.frames f.type) →
    P S.context.frames (.object S.context.inlineIdentity none [] fields)
  enter : ∀ frames (d : TypeDecl) arguments, d ∈ scope.types →
    arguments.length = d.parameters.length → (∀ t ∈ arguments, P frames t) →
      ∀ t ∈ arguments, P (frameOf d arguments :: frames) t
  leave : ∀ frames (d : TypeDecl) arguments t, d ∈ scope.types → (∀ t ∈ arguments, P frames t) →
    P (frameOf d arguments :: frames) t → instanceIdentity d arguments ∉ t.openReferences →
      P frames t
  found : ∀ (c : Context) (d : TypeDecl) arguments, d ∈ scope.types →
    (∀ t ∈ arguments, P c.frames t) → c.isExpanding (instanceIdentity d arguments) = false →
    Steady I c (remembered? (instanceIdentity d arguments)) (fun found => ∀ t ∈ found, P c.frames t) F
  store : ∀ (c : Context) (d : TypeDecl) arguments t, d ∈ scope.types →
    (∀ t ∈ arguments, P c.frames t) → P c.frames t → Shareable (instanceIdentity d arguments) t →
    Kept (instanceIdentity d arguments) t →
    Steady I c (remember (instanceIdentity d arguments) t) (fun _ => True) F

/-- A law that relies on `A` for the places at which type expressions are resolved, and on what the
declarations and the type expressions say there. -/
structure PlacedLaw (scope : Scope) (A : Context → TypeExpr → Prop) (I : Cache → Prop)
    (F : Failure → Prop) (P : List Frame → WireType → Prop) : Prop
    extends Rules scope (fun S => A S.context) A I F P where
  intersection : ∀ (c : Context) ms identities (name : String) fields, A c (.intersection ms) →
    identities.length = ms.length →
    (∀ i ∈ identities, ∃ name arguments fields, P c.frames (.object i name arguments fields)) →
    (∀ f ∈ fields, ∃ i ∈ identities, TakenFrom (P c.frames) i f) →
    P c.frames (.object (String.intercalate " & " identities) (some name) [] fields)
  declared : ∀ frames (d : TypeDecl) arguments fields, d ∈ scope.types → d.body.fields?.isSome = true →
    arguments.length = d.parameters.length → (∀ t ∈ arguments, P frames t) →
    (∀ f ∈ fields, P (frameOf d arguments :: frames) f.type ∨
      Inherited d f.name ∧ ∃ i, TakenFrom (P (frameOf d arguments :: frames)) i f) →
    P frames (.object (instanceIdentity d arguments) (some d.name) arguments fields)

/-- A law that needs to know nothing of places. -/
theorem Law.placed {scope : Scope} {I : Cache → Prop} {F : Failure → Prop}
    {P : List Frame → WireType → Prop} (law : Law scope I F P) :
    PlacedLaw scope (fun _ _ => True) I F P where
  leads _ _ _ _ _ _ := trivial
  unsupported := law.unsupported
  exhausted := law.exhausted
  primitive := law.primitive
  literal S _ l _ _ := law.literal S.context.frames l
  constant frames _ _ _ _ _ _ l _ := law.literal frames l
  unexpanded frames name _ := law.unexpanded frames name
  unbound S name _ := law.unbound S.context.frames name
  missing frames _ _ p _ := law.unbound frames p.name
  array := law.array
  builtin := law.builtin
  union := law.union
  back c _ _ _ _ := law.back c _
  inline S _ fields _ _ := law.inline S.context fields
  intersection c _ identities name fields _ _ _ := law.intersection c.frames identities name fields
  enter := law.enter
  declared frames d arguments fields hd _ _ := law.declared frames d arguments fields hd
  leave frames d arguments t hd _ := law.leave frames d arguments t hd
  found := law.found
  store := law.store

/-! ## Laws of a step -/

/-- Whether a step comes to expand a declaration in a context: a reference that the step is for leads to
it, binding the type parameters has left the cache, which does not have the instance, and neither is the
instance being expanded. The type arguments and the cache obey the law. -/
structure Expands (scope : Scope) (resolve : TypeExpr → Resolving WireType)
    (B : State → TypeExpr → Prop) (I : Cache → Prop) (P : List Frame → WireType → Prop) (cache : Cache)
    (c : Context) (d : TypeDecl) (arguments : List WireType) (environment : Table WireType) : Prop where
  referred : ∃ S name args, S.context = c ∧ B S (.reference name args) ∧
    scope.declaration? (.reference name args) = some d ∧
    bindParameters resolve d.parameters args [] S = .ok (environment, arguments) ⟨cache, c⟩
  length : arguments.length = d.parameters.length
  lawful : ∀ t ∈ arguments, P c.frames t
  bound : ∀ entry ∈ environment, entry.2 ∈ arguments
  outside : c.isExpanding (instanceIdentity d arguments) = false
  unknown : cache.contains (instanceIdentity d arguments) = false
  cached : I cache

theorem Expands.mem {scope : Scope} {resolve : TypeExpr → Resolving WireType}
    {B : State → TypeExpr → Prop} {I : Cache → Prop} {P : List Frame → WireType → Prop} {cache : Cache}
    {c : Context} {d : TypeDecl} {arguments : List WireType} {environment : Table WireType}
    (h : Expands scope resolve B I P cache c d arguments environment) : d ∈ scope.types := by
  obtain ⟨_, _, _, _, _, hd, _⟩ := h.referred
  exact Scope.mem_of_declaration? hd

/-- Whether a type is what the expansion of a declaration ends with, if the declaration is entered with
a cache. -/
def ExpandsTo (resolve : TypeExpr → Resolving WireType) (cache : Cache) (c : Context) (d : TypeDecl)
    (arguments : List WireType) (environment : Table WireType) (t : WireType) : Prop :=
  ∃ shareable next, expand resolve d (instanceIdentity d arguments) arguments
    ⟨cache, c.enter (frameOf d arguments) environment⟩ = .ok (t, shareable) next

/-- A law of a step, which relies on what its objects are put together from: `resolve` is how the step
resolves type expressions. -/
structure StepLaw (scope : Scope) (resolve : TypeExpr → Resolving WireType)
    (B : State → TypeExpr → Prop) (A : Context → TypeExpr → Prop) (I : Cache → Prop)
    (F : Failure → Prop) (P : List Frame → WireType → Prop) : Prop extends Rules scope B A I F P where
  intersection : ∀ (S : State) ms os, B S (.intersection ms) → os.length = ms.length →
    (∀ o ∈ os, P S.context.frames o.type) → P S.context.frames (ObjectType.meet os).type
  /-- The base types are resolved one after the other when the declaration has been entered. -/
  interface : ∀ cache c d arguments environment bases fs os gs,
    Expands scope resolve B I P cache c d arguments environment → d.body = .interface bases fs →
    InTurn (Yields resolve) bases ⟨cache, c.enter (frameOf d arguments) environment⟩ os →
    (∀ o ∈ os, P (frameOf d arguments :: c.frames) o.type) →
    Become (P (frameOf d arguments :: c.frames)) fs gs →
    ExpandsTo resolve cache c d arguments environment
      (.object (instanceIdentity d arguments) (some d.name) arguments
        (mergeFields (ObjectType.mergeAll os []) gs)) →
    P c.frames (.object (instanceIdentity d arguments) (some d.name) arguments
      (mergeFields (ObjectType.mergeAll os []) gs))
  record : ∀ cache c d arguments environment fs gs,
    Expands scope resolve B I P cache c d arguments environment → d.body = .synonym (.object fs) →
    Become (P (frameOf d arguments :: c.frames)) fs gs →
    ExpandsTo resolve cache c d arguments environment
      (.object (instanceIdentity d arguments) (some d.name) arguments gs) →
    P c.frames (.object (instanceIdentity d arguments) (some d.name) arguments gs)

/-- A law with places is one of every step. -/
theorem PlacedLaw.step {scope : Scope} {A : Context → TypeExpr → Prop} {I : Cache → Prop}
    {F : Failure → Prop} {P : List Frame → WireType → Prop} (law : PlacedLaw scope A I F P)
    (resolve : TypeExpr → Resolving WireType) :
    StepLaw scope resolve (fun S => A S.context) A I F P where
  toRules := law.toRules
  intersection S ms os hplace hlength hos := by
    refine law.intersection S.context ms _ _ _ hplace (by rw [List.length_map, hlength]) (fun i hi => ?_)
      fun f hf => ?_
    · obtain ⟨o, ho, rfl⟩ := List.mem_map.mp hi
      exact ⟨o.name, o.arguments, o.fields, hos o ho⟩
    · obtain ⟨o, ho, hf⟩ := ObjectType.exists_of_mem_mergeAll hf
      exact ⟨o.identity, List.mem_map_of_mem ho, o.name, o.arguments, o.fields, hos o ho, hf⟩
  interface _ c d arguments environment bases fs os gs hexpands hbody hinTurn hos hgs _ := by
    refine law.declared c.frames d arguments _ hexpands.mem (by rw [hbody]; rfl) hexpands.length
      hexpands.lawful fun f hf => ?_
    -- A base type's field that is left after merging is not declared again.
    rcases mem_mergeFields (ObjectType.nodup_mergeAll os) hf with hf | ⟨hf, hnot⟩
    · exact .inl (hgs.types f hf)
    · rw [hgs.names] at hnot
      obtain ⟨o, ho, hf⟩ := ObjectType.exists_of_mem_mergeAll hf
      have hbases : bases ≠ [] := by
        rintro rfl
        rw [List.eq_nil_of_length_eq_zero hinTurn.length_eq] at ho
        cases ho
      exact .inr ⟨⟨bases, fs, hbody, hbases, hnot⟩, o.identity, o.name, o.arguments, o.fields, hos o ho, hf⟩
  record _ c d arguments environment fs gs hexpands hbody hgs _ :=
    law.declared c.frames d arguments gs hexpands.mem (by rw [hbody]; rfl) hexpands.length
      hexpands.lawful fun f hf => .inl (hgs.types f hf)

/-- Whether the values of all type parameters have a property. -/
def Context.Binds (P : List Frame → WireType → Prop) (c : Context) : Prop :=
  ∀ entry ∈ c.environment, P c.frames entry.2

/-- Whether there is a value with a property for each type parameter, and what is bound in the end was
so in the beginning or is one of the values. -/
structure Supplied (p : WireType → Prop) (parameters : List TypeParameter)
    (environment : Table WireType) (r : Table WireType × List WireType) : Prop where
  length : r.2.length = parameters.length
  values : ∀ t ∈ r.2, p t
  entries : ∀ entry ∈ r.1, entry ∈ environment ∨ entry.2 ∈ r.2

namespace Supplied

variable {p : WireType → Prop} {parameters : List TypeParameter} {environment : Table WireType}
  {r : Table WireType × List WireType} {q : TypeParameter} {t : WireType}

theorem nil : Supplied p [] environment (environment, []) :=
  ⟨rfl, fun _ ht => (by cases ht), fun _ hentry => .inl hentry⟩

theorem cons (ht : p t) (h : Supplied p parameters environment r) :
    Supplied p (q :: parameters) environment (r.1, t :: r.2) where
  length := congrArg (· + 1) h.length
  values := List.forall_mem_cons.mpr ⟨ht, h.values⟩
  entries entry hentry := (h.entries entry hentry).imp_right (List.mem_cons_of_mem _)

theorem put (ht : p t) (h : Supplied p parameters (environment.put q.name t) r) :
    Supplied p (q :: parameters) environment (r.1, t :: r.2) where
  length := congrArg (· + 1) h.length
  values := List.forall_mem_cons.mpr ⟨ht, h.values⟩
  entries entry hentry := by
    rcases h.entries entry hentry with hput | hvalue
    · rcases Table.mem_put hput with hbefore | rfl
      · exact .inl hbefore
      · exact .inr (List.mem_cons_self ..)
    · exact .inr (List.mem_cons_of_mem _ hvalue)

end Supplied

/-- Whether a way to resolve types obeys a law in every place of the law whose values do. -/
def Lawful (A : Context → TypeExpr → Prop) (I : Cache → Prop) (F : Failure → Prop)
    (P : List Frame → WireType → Prop) (resolve : TypeExpr → Resolving WireType) : Prop :=
  ∀ t c, A c t → c.Binds P → Steady I c (resolve t) (P c.frames) F

namespace Lawful

variable {scope : Scope} {B : State → TypeExpr → Prop} {A : Context → TypeExpr → Prop}
  {I : Cache → Prop} {F : Failure → Prop} {P : List Frame → WireType → Prop}
  {resolve : TypeExpr → Resolving WireType} {c : Context}

/-! ## Fields -/

theorem resolveField (h : Lawful A I F P resolve) (hc : c.Binds P) {f : FieldDecl TypeExpr}
    (hplace : A (c.pushField f.name) f.type.stripUndefined.1) :
    Steady I c (resolveField resolve f) (fun g => ∃ w, g = f.resolved w ∧ P c.frames w) F :=
  Keeps.bind (Steady.inField (h _ (c.pushField f.name) hplace hc)) fun w hw => .pure ⟨w, rfl, hw⟩

theorem resolveFields (h : Lawful A I F P resolve) (hc : c.Binds P) {fields : List (FieldDecl TypeExpr)}
    (hplaces : ∀ f ∈ fields, A (c.pushField f.name) f.type.stripUndefined.1) :
    Steady I c (resolveFields resolve fields) (Become (P c.frames) fields) F :=
  Keeps.mapM fields fun f hf => h.resolveField hc (hplaces f hf)

/-! ## Objects that are taken apart -/

/-- Objects that type expressions are resolved to one after the other obey the law. -/
theorem inTurn (h : Lawful A I F P resolve) (hc : c.Binds P) {ts : List TypeExpr}
    (hplaces : ∀ t ∈ ts, A c t) {s : State} (hs : s.context = c ∧ I s.cache) {os : List ObjectType}
    (hos : InTurn (Yields resolve) ts s os) : ∀ o ∈ os, P c.frames o.type := by
  induction hos with
  | nil => simp
  | cons ho _ ih =>
    obtain ⟨hplace, hplaces⟩ := List.forall_mem_cons.mp hplaces
    obtain ⟨hnext, hP⟩ := (h _ c hplace hc).ok hs ho
    exact List.forall_mem_cons.mpr ⟨hP, ih hplaces hnext⟩

theorem resolveBases (h : Lawful A I F P resolve) (hF : ∀ cause, F (.unsupported cause))
    (hc : c.Binds P) (declaration : String) {bases : List TypeExpr} (hplaces : ∀ b ∈ bases, A c b)
    (merged : List (Field WireType)) :
    Steady I c (resolveBases resolve declaration bases merged) (fun _ => True) F := by
  induction bases generalizing merged with
  | nil => exact .pure trivial
  | cons base rest ih =>
    obtain ⟨hplace, hplaces⟩ := List.forall_mem_cons.mp hplaces
    refine (h base c hplace hc).bind fun t _ => ?_
    cases t with
    | object identity name arguments fields => exact ih hplaces _
    | _ => exact .throw (hF _)

theorem resolveMembers (h : Lawful A I F P resolve) (hF : ∀ cause, F (.unsupported cause))
    (hc : c.Binds P) (text : String) {members : List TypeExpr} (hplaces : ∀ m ∈ members, A c m)
    (merged : List (Field WireType)) :
    Steady I c (resolveMembers resolve text members merged) (fun (identities, names, gs) => ∃ os,
      os.length = members.length ∧ (∀ o ∈ os, P c.frames o.type) ∧
        identities = os.map (·.identity) ∧ names = os.map (·.type.display) ∧
        gs = ObjectType.mergeAll os merged) F := by
  have hkeeps : ∀ merged, Steady I c (Resolve.resolveMembers resolve text members merged)
      (fun _ => True) F := by
    induction members with
    | nil => exact fun _ => .pure trivial
    | cons member rest ih =>
      intro merged
      obtain ⟨hplace, hplaces⟩ := List.forall_mem_cons.mp hplaces
      refine (h member c hplace hc).bind fun t _ => ?_
      cases t with
      | object identity name arguments fields =>
        exact (ih hplaces _).bind fun _ _ => .pure trivial
      | _ => exact .throw (hF _)
  refine (hkeeps merged).run.weaken ?_
  rintro ⟨identities, names, gs⟩ ⟨-, ⟨cache, _⟩, _, hs, hrun⟩
  obtain ⟨rfl, hI⟩ := hs
  obtain ⟨os, hos, hidentities, hnames, hgs⟩ := inTurn_of_resolveMembers hrun
  exact ⟨os, hos.length_eq, h.inTurn hc hplaces ⟨rfl, hI⟩ hos, hidentities, hnames, hgs⟩

/-! ## Declarations -/

/-- There is a value for each type parameter. The values are among the type arguments, and these obey
the law. -/
theorem bindParameters (h : Lawful A I F P resolve) (hc : c.Binds P) {parameters : List TypeParameter}
    (hmissing : ∀ p ∈ parameters, P c.frames (.generic p.name [])) {arguments : List TypeExpr}
    (hplaces : ∀ a ∈ arguments, A c a)
    (hdefaults : ∀ p ∈ parameters.drop arguments.length, ∀ u, p.default = some u →
      ∀ environment, A { c with environment := environment } u) (environment : Table WireType)
    (he : ∀ entry ∈ environment, P c.frames entry.2) :
    Steady I c (bindParameters resolve parameters arguments environment)
      (Supplied (P c.frames) parameters environment) F := by
  induction parameters generalizing arguments environment with
  | nil => exact .pure .nil
  | cons p rest ih =>
    obtain ⟨hp, hmissing⟩ := List.forall_mem_cons.mp hmissing
    have hput : ∀ t, P c.frames t → ∀ entry ∈ environment.put p.name t, P c.frames entry.2 :=
      fun t ht => Table.forall_values_put he ht p.name
    cases arguments with
    | cons argument arguments =>
      obtain ⟨hplace, hplaces⟩ := List.forall_mem_cons.mp hplaces
      rw [bindParameters_argument]
      refine (h argument c hplace hc).bind fun t ht => ?_
      exact (ih hmissing hplaces hdefaults _ (hput t ht)).bind fun r hr => .pure (.put ht hr)
    | nil =>
      have hrest : ∀ q ∈ rest.drop ([] : List TypeExpr).length, ∀ u, q.default = some u →
          ∀ environment, A { c with environment := environment } u := fun q hq =>
        hdefaults q (List.mem_cons_of_mem _ hq)
      cases hdefault : p.default with
      | none =>
        rw [bindParameters_unbound _ _ _ _ hdefault]
        exact (ih hmissing hplaces hrest _ he).bind fun r hr => .pure (.cons hp hr)
      | some default =>
        have hplace := hdefaults p (List.mem_cons_self ..) default hdefault environment
        have hvalue := h default { c with environment := environment } hplace he
        rw [bindParameters_default _ _ _ _ hdefault]
        refine (Steady.inEnvironment hvalue).bind fun t ht => ?_
        exact (ih hmissing hplaces hrest _ (hput t ht)).bind fun r hr => .pure (.put ht hr)

theorem unionOf_literals_ne_object {literals : List Literal} {i : String} {name : Option String}
    {arguments : List WireType} {fields : List (Field WireType)} :
    WireType.unionOf (literals.map .literal) ≠ .object i name arguments fields := by
  intro h
  rcases WireType.unionOf_eq (literals.map .literal) with heq | hmem
  · simp [heq] at h
  · rw [h] at hmem
    rcases WireType.mem_unionMembers hmem with ⟨u, hu, hobject⟩ | hobject
    · obtain ⟨l, _, rfl⟩ := List.mem_map.mp hu
      simp [WireType.alternatives] at hobject
    · simp at hobject

/-- What is kept of a declaration has its identity if it is an object. -/
theorem own_of_kept {identity : String} {t : WireType} (h : Kept identity t) :
    ∀ i name arguments fields, t = .object i name arguments fields → i = identity := by
  intro i name arguments fields ht
  cases h with
  | object =>
    injection ht with hi
    exact hi.symm
  | enumeration => exact absurd ht unionOf_literals_ne_object

/-- What an expansion yields is lawful outside it, and if it is to be remembered it is what the declaration
is to become. -/
theorem expand (h : Lawful A I F P resolve) (law : StepLaw scope resolve B A I F P) {cache : Cache}
    {d : TypeDecl} {arguments : List WireType} {environment : Table WireType}
    (hexpands : Expands scope resolve B I P cache c d arguments environment) :
    EndsIn I (c.enter (frameOf d arguments) environment)
      (fun (t, shareable) => P c.frames t ∧ (shareable = true → Kept (instanceIdentity d arguments) t)) F
      (expand resolve d (instanceIdentity d arguments) arguments
        ⟨cache, c.enter (frameOf d arguments) environment⟩) := by
  have hc : (c.enter (frameOf d arguments) environment).Binds P := fun entry hentry =>
    law.enter c.frames d arguments hexpands.mem hexpands.length hexpands.lawful _
      (hexpands.bound entry hentry)
  have hs : (⟨cache, c.enter (frameOf d arguments) environment⟩ : State).context =
      c.enter (frameOf d arguments) environment ∧ I cache := ⟨rfl, hexpands.cached⟩
  obtain ⟨S, name, args, rfl, hplace, hd, _⟩ := hexpands.referred
  have hopened : ∀ u ∈ d.body.opened, A (S.context.enter (frameOf d arguments) environment) u :=
    fun u hu => law.leads S _ _ _ hplace (.opened environment hd hexpands.lawful hu)
  have hdeclared : ∀ fs, d.body.fields? = some fs → ∀ f ∈ fs,
      A ((S.context.enter (frameOf d arguments) environment).pushField f.name) f.type.stripUndefined.1 :=
    fun fs hfs f hf => law.leads S _ _ _ hplace (.declared environment hd hexpands.lawful hfs hf)
  cases d.form with
  | @interface bases fields hbody =>
    have hbases : ∀ b ∈ bases, A (S.context.enter (frameOf d arguments) environment) b := fun b hb =>
      hopened b (by rw [hbody]; exact hb)
    have hexpand := expand_interface resolve (instanceIdentity d arguments) arguments hbody
    rw [hexpand]
    refine (h.resolveBases law.unsupported hc d.name hbases [] _ hs).bind
      fun inherited s hinherited hs' _ => ?_
    refine (h.resolveFields hc (hdeclared fields (by rw [hbody]; rfl)) s hs').bind
      fun own next hrun hnext hown => Keeps.pure ⟨?_, fun _ => .object ..⟩ next hnext
    obtain ⟨os, hos, rfl⟩ := inTurn_of_resolveBases hinherited
    refine law.interface cache S.context d arguments environment bases fields os own hexpands hbody hos
      (h.inTurn hc hbases hs hos) hown ⟨true, next, ?_⟩
    rw [hexpand, bind_of_ok hinherited, bind_of_ok hrun]
    rfl
  | @object fields hbody =>
    have hexpand := expand_object resolve (instanceIdentity d arguments) arguments hbody
    rw [hexpand]
    refine (h.resolveFields hc (hdeclared fields (by rw [hbody]; rfl)) _ hs).bind
      fun gs next hrun hnext hgs => Keeps.pure ⟨?_, fun _ => .object ..⟩ next hnext
    refine law.record cache S.context d arguments environment fields gs hexpands hbody hgs
      ⟨true, next, ?_⟩
    rw [hexpand, bind_of_ok hrun]
    rfl
  | @synonym target hbody hnone =>
    have htarget := TypeBody.opened_of_synonym hbody hnone
    rw [expand_synonym _ _ _ hbody hnone]
    refine (h target _ (hopened target (by simp [htarget])) hc _ hs).bind fun t s _ hs' ht => ?_
    by_cases hopen : t.openReferences.contains (instanceIdentity d arguments) = true
    · rw [if_pos hopen]
      exact Keeps.throw (law.unsupported _) s hs'
    · rw [if_neg hopen]
      refine Keeps.pure ⟨law.leave _ d arguments t hexpands.mem hexpands.lawful ht
        (by simpa using hopen), fun hshareable => ?_⟩ s hs'
      cases hshareable
  | enumeration hbody hliterals =>
    rw [expand_enumeration _ _ _ hbody hliterals]
    refine Keeps.pure ⟨law.union _ _ fun t ht => ?_, fun _ => .enumeration _⟩ _ hs
    obtain ⟨l, hl, rfl⟩ := List.mem_map.mp ht
    obtain ⟨m, hm, hvalue⟩ := exists_of_mem_enumLiterals hliterals l hl
    exact law.constant _ d hexpands.mem _ hbody m hm l hvalue
  | fault hfault =>
    obtain ⟨cause, hcause⟩ := expand_fault hfault
    rw [hcause]
    exact Keeps.throw (law.unsupported _) _ hs

/-- The fields of an object that an expansion ends with obey the laws of the expansion, if those do that
are taken over from base types. -/
theorem fields_of_expandsTo (h : Lawful A I F P resolve) (hF : ∀ cause, F (.unsupported cause))
    {cache : Cache} {d : TypeDecl} {arguments : List WireType} {environment : Table WireType}
    (hcache : I cache) (hc : (c.enter (frameOf d arguments) environment).Binds P)
    (hplaces : ∀ (c' : Context) u, c'.frames = frameOf d arguments :: c.frames → A c' u)
    (htaken : ∀ o : ObjectType, P (frameOf d arguments :: c.frames) o.type →
      ∀ f ∈ o.fields, P (frameOf d arguments :: c.frames) f.type)
    (hdeclares : d.body.fields?.isSome = true) {o : ObjectType}
    (ho : ExpandsTo resolve cache c d arguments environment o.type) :
    ∀ f ∈ o.fields, P (frameOf d arguments :: c.frames) f.type := by
  have hs : (⟨cache, c.enter (frameOf d arguments) environment⟩ : State).context =
      c.enter (frameOf d arguments) environment ∧ I cache := ⟨rfl, hcache⟩
  obtain ⟨identity, name, args, all⟩ := o
  obtain ⟨shareable, next, hrun⟩ := ho
  cases d.form with
  | @interface bases fields hbody =>
    rw [expand_interface _ _ _ hbody] at hrun
    obtain ⟨inherited, s, hinherited, hrun⟩ := exists_of_bind_eq_ok hrun
    obtain ⟨own, s', hown, hrun⟩ := exists_of_bind_eq_ok hrun
    have hobject := WireType.object.inj (congrArg Prod.fst (EStateM.Result.ok.inj hrun).1)
    obtain rfl : mergeFields inherited own = all := hobject.2.2.2
    have hbases : ∀ b ∈ bases, A (c.enter (frameOf d arguments) environment) b := fun _ _ =>
      hplaces _ _ rfl
    obtain ⟨hs', -⟩ := (h.resolveBases hF hc d.name hbases []).ok hs hinherited
    have hgs := ((h.resolveFields hc fun _ _ => hplaces _ _ rfl).ok hs' hown).2
    obtain ⟨os, hos, rfl⟩ := inTurn_of_resolveBases hinherited
    intro f hf
    rcases mem_or_mem_of_mem_mergeFields hf with hf | hf
    · obtain ⟨o, ho, hf⟩ := ObjectType.exists_of_mem_mergeAll hf
      exact htaken o (h.inTurn hc hbases hs hos o ho) f hf
    · exact hgs.types f hf
  | @object fields hbody =>
    rw [expand_object _ _ _ hbody] at hrun
    obtain ⟨gs, s, hgs, hrun⟩ := exists_of_bind_eq_ok hrun
    have hobject := WireType.object.inj (congrArg Prod.fst (EStateM.Result.ok.inj hrun).1)
    obtain rfl : gs = all := hobject.2.2.2
    exact ((h.resolveFields hc fun _ _ => hplaces _ _ rfl).ok hs hgs).2.types
  | synonym hbody hnone =>
    rw [hnone] at hdeclares
    cases hdeclares
  | enumeration hbody hliterals =>
    rw [hbody] at hdeclares
    cases hdeclares
  | fault hfault =>
    obtain ⟨cause, hcause⟩ := expand_fault hfault
    rw [hcause] at hrun
    cases hrun

theorem expandInstance (h : Lawful A I F P resolve) (law : StepLaw scope resolve B A I F P)
    {cache : Cache} {d : TypeDecl} {arguments : List WireType} {environment : Table WireType}
    (hexpands : Expands scope resolve B I P cache c d arguments environment) :
    EndsIn I c (P c.frames) F
      (expandInstance scope resolve d (instanceIdentity d arguments) environment arguments ⟨cache, c⟩) := by
  refine EndsIn.get ?_
  dsimp only
  split
  · exact Keeps.throw (law.unsupported _) _ ⟨rfl, hexpands.cached⟩
  · refine (EndsIn.inFrame (h.expand law hexpands)).bind fun (t, shareable) s _ hs ⟨ht, hkept⟩ => ?_
    dsimp only
    split
    · rename_i hshareable
      rw [Bool.and_eq_true] at hshareable
      refine (law.store c d arguments t hexpands.mem hexpands.lawful ht
        ⟨hshareable.2, own_of_kept (hkept hshareable.1)⟩ (hkept hshareable.1)).bind
          (fun _ _ => .pure ht) s hs
    · exact Keeps.pure ht s hs

theorem of_remembered?_eq_none {identity : String} {s next : State}
    (h : remembered? identity s = .ok none next) : next = s ∧ s.cache.contains identity = false := by
  unfold remembered? Cache.find at h
  cases hget : s.cache.entries.get? identity with
  | none =>
    rw [hget] at h
    cases h
    exact ⟨rfl, by simp [Cache.contains, Table.has, hget]⟩
  | some t =>
    rw [hget] at h
    cases t with
    | object i name arguments fields =>
      by_cases hi : i = identity
      · simp [hi] at h
      · simp [hi] at h
    | _ => cases h

theorem resolveDeclaration (h : Lawful A I F P resolve) (law : StepLaw scope resolve B A I F P)
    {S : State} (hc : S.context.Binds P) (hI : I S.cache) {name : String} {args : List TypeExpr}
    (hplace : B S (.reference name args)) {d : TypeDecl}
    (hd : scope.declaration? (.reference name args) = some d) :
    EndsIn I S.context (P S.context.frames) F (resolveDeclaration scope resolve d args S) := by
  have hmem := Scope.mem_of_declaration? hd
  have hleads : ∀ {c' : Context} {u : TypeExpr},
      Leads scope P S.context (.reference name args) c' u → A c' u :=
    fun hu => law.leads S _ _ _ hplace hu
  unfold Resolve.resolveDeclaration
  split
  · exact Keeps.throw (law.unsupported _) S ⟨rfl, hI⟩
  · have hbind := h.bindParameters hc (law.missing S.context.frames d hmem)
      (fun a ha => hleads (.argument ha))
      (fun p hp u hu environment => hleads (.default environment hd hp hu)) [] (by simp)
    refine (hbind S ⟨rfl, hI⟩).bind ?_
    rintro ⟨environment, values⟩ ⟨cache, c⟩ hrun ⟨hcontext, hcache⟩ ⟨hlength, hvalues, henv⟩
    obtain rfl : c = S.context := hcontext
    refine EndsIn.get ?_
    have he : ∀ entry ∈ environment, entry.2 ∈ values := fun entry hentry =>
      (henv entry hentry).resolve_left (by simp)
    dsimp only
    cases hexp : S.context.isExpanding (instanceIdentity d values) with
    | true => exact Keeps.pure (law.back S.context d values hmem hvalues hexp) _ ⟨rfl, hcache⟩
    | false =>
      refine (law.found S.context d values hmem hvalues hexp ⟨cache, S.context⟩ ⟨rfl, hcache⟩).bind
        fun found s hrun' hs hfound => ?_
      cases found with
      | some t => exact Keeps.pure (hfound t rfl) s hs
      | none =>
        obtain ⟨rfl, hunknown⟩ := of_remembered?_eq_none hrun'
        exact h.expandInstance law
          ⟨⟨S, name, args, rfl, hplace, hd, hrun⟩, hlength, hvalues, he, hexp, hunknown, hcache⟩

/-! ## Other references -/

theorem resolveBuiltin (h : Lawful A I F P resolve) (law : StepLaw scope resolve B A I F P) (hc : c.Binds P)
    (name : String) {args : List TypeExpr} (hplaces : ∀ a ∈ args, A c a) :
    Steady I c (resolveBuiltin resolve name args) (P c.frames) F := by
  unfold Resolve.resolveBuiltin
  cases hb : builtin? name with
  | none => exact .throw (law.unsupported _)
  | some b =>
    dsimp only
    split
    · rename_i harity
      refine (Keeps.mapM_all args fun t ht => h t c (hplaces t ht) hc).bind
        fun ws ⟨hlength, hws⟩ => .pure ?_
      exact law.builtin c.frames name b ws hb (by rw [hlength, harity]) hws
    · exact .throw (law.unsupported _)

theorem parameterValue? (hc : c.Binds P) (name : String) :
    Steady I c (parameterValue? name) (fun found => ∀ t ∈ found, P c.frames t) F :=
  Steady.get fun _ => .pure fun _ ht => hc _ (Table.mem_of_get? ht)

theorem resolveGlobal (h : Lawful A I F P resolve) (law : StepLaw scope resolve B A I F P)
    {S : State} (hc : S.context.Binds P) (hI : I S.cache) {name : String} {args : List TypeExpr}
    (hplace : B S (.reference name args)) :
    EndsIn I S.context (P S.context.frames) F (resolveGlobal scope resolve name args S) := by
  cases hkept : scope.options.nameOnly.contains name with
  | true =>
    rw [resolveGlobal_unexpanded _ _ _ _ hkept]
    exact Keeps.pure (law.unexpanded _ _ (by simpa using hkept)) S ⟨rfl, hI⟩
  | false =>
    cases hd : lookupType scope.types name with
    | some d =>
      rw [resolveGlobal_declared _ _ _ _ hkept hd]
      exact h.resolveDeclaration law hc hI hplace (by rw [Scope.declaration?_free hkept, hd])
    | none =>
      rw [resolveGlobal_builtin _ _ _ _ hkept hd]
      exact h.resolveBuiltin law hc name (fun a ha => law.leads S _ _ _ hplace (.argument ha)) S
        ⟨rfl, hI⟩

theorem resolveReference (h : Lawful A I F P resolve) (law : StepLaw scope resolve B A I F P)
    {S : State} (hc : S.context.Binds P) (hI : I S.cache) {name : String} {args : List TypeExpr}
    (hplace : B S (.reference name args)) :
    EndsIn I S.context (P S.context.frames) F (resolveReference scope resolve name args S) := by
  cases args with
  | nil =>
    rw [resolveReference_bare]
    refine (parameterValue? hc name S ⟨rfl, hI⟩).bind fun bound s hrun hs hbound => ?_
    cases bound with
    | some t => exact Keeps.pure (hbound t rfl) s hs
    | none =>
      obtain rfl : S = s := (EStateM.Result.ok.inj hrun).2
      exact h.resolveGlobal law hc hI hplace
  | cons a args =>
    rw [resolveReference_applied _ _ _ (List.cons_ne_nil a args)]
    exact h.resolveGlobal law hc hI hplace

/-! ## Type expressions -/

/-- A step for a type expression in a state of `B` obeys its law. -/
theorem resolveStep (h : Lawful A I F P resolve) (law : StepLaw scope resolve B A I F P) {t : TypeExpr}
    {S : State} (hplace : B S t) (hc : S.context.Binds P) (hI : I S.cache) :
    EndsIn I S.context (P S.context.frames) F (resolveStep scope resolve t S) := by
  have hs : S.context = S.context ∧ I S.cache := ⟨rfl, hI⟩
  have hleads : ∀ {c' : Context} {u : TypeExpr}, Leads scope P S.context t c' u → A c' u :=
    fun hu => law.leads S _ _ _ hplace hu
  cases t with
  | keyword name =>
    dsimp only [Resolve.resolveStep]
    cases keywordPrimitive name with
    | ok p => exact Keeps.pure (law.primitive _ _) S hs
    | error reason => exact Keeps.throw (law.unsupported _) S hs
  | literal value =>
    refine (?_ : Steady I S.context (Resolve.resolveStep scope resolve (.literal value)) _ F) S hs
    dsimp only [Resolve.resolveStep]
    split
    · rename_i l hl
      exact .pure (law.literal S _ l hplace hl)
    · exact .pure (law.primitive _ _)
    · exact .throw (law.unsupported _)
  | array element =>
    have helement := Steady.inField (h element (S.context.pushField "[]") (hleads .element) hc)
    exact helement.bind (fun t ht => .pure (law.array _ _ ht)) S hs
  | tuple elements =>
    cases elements with
    | nil => exact Keeps.throw (law.unsupported _) S hs
    | cons e elements =>
      refine (Keeps.mapM_all (e :: elements) fun t ht =>
        h t S.context (hleads (.component ht)) hc).bind (fun ts ⟨_, hts⟩ => .pure ?_) S hs
      exact law.array _ _ (law.union _ _ hts)
  | union members =>
    refine (Keeps.mapM_all members fun t ht => h t S.context (hleads (.alternative ht)) hc).bind
      (fun ts ⟨_, hts⟩ => .pure ?_) S hs
    exact law.union _ _ hts
  | intersection members =>
    refine (h.resolveMembers law.unsupported hc _ (fun m hm => hleads (.member hm)) []).bind ?_ S hs
    rintro ⟨_, _, _⟩ ⟨os, hlength, hos, rfl, rfl, rfl⟩
    exact .pure (law.intersection S members os hplace hlength hos)
  | reference name arguments => exact h.resolveReference law hc hI hplace
  | parameter name =>
    refine (parameterValue? hc name).bind (fun found hfound => ?_) S hs
    cases found with
    | some t => exact .pure (hfound t rfl)
    | none => exact .pure (law.unbound S name hplace)
  | object fields =>
    refine EndsIn.get ((h.resolveFields hc fun f hf => hleads (.field hf)).bind
      (fun gs hgs => .pure ?_) S hs)
    exact law.inline S fields gs hplace hgs.names hgs.types
  | function parameters result => exact Keeps.throw (law.unsupported _) S hs

end Lawful

section

variable {scope : Scope} {I : Cache → Prop} {F : Failure → Prop} {P : List Frame → WireType → Prop}

/-- A law of every step holds of everything that is resolved in its places. -/
theorem resolveType_lawful_step {A : Context → TypeExpr → Prop}
    (law : ∀ resolve, StepLaw scope resolve (fun S => A S.context) A I F P) (depth : Nat) :
    Lawful A I F P (resolveType scope depth) := by
  induction depth with
  | zero => exact fun t c _ _ => .throw (law (resolveType scope 0)).exhausted
  | succ depth ih =>
    rintro t c hplace hc S ⟨rfl, hI⟩
    exact ih.resolveStep (law _) hplace hc hI

/-- A law with places holds of everything that is resolved in its places. -/
theorem resolveType_lawful_placed {A : Context → TypeExpr → Prop} (law : PlacedLaw scope A I F P)
    (depth : Nat) : Lawful A I F P (resolveType scope depth) :=
  resolveType_lawful_step law.step depth

/-- Every law holds of everything that is resolved. -/
theorem resolveType_lawful (law : Law scope I F P) (depth : Nat) (t : TypeExpr) (c : Context)
    (hc : c.Binds P) : Steady I c (resolveType scope depth t) (P c.frames) F :=
  resolveType_lawful_placed law.placed depth t c trivial hc

end

end AnnotatedApi.Resolve
