import AnnotatedApi.Proofs.Handlers.Walk
import AnnotatedApi.Proofs.Resolution.Numbers

/-!
# What nodes take from declarations

A node has its place and its default from the declaration, and its types from the resolver. What is known
of each type that is resolved is so known of the types in the forest. Where the classes and the types of a
compilation hold JSON values, what the nodes of the forest have can be written: the resolver keeps all
numbers finite from one type to the next.
-/

namespace AnnotatedApi

set_option autoImplicit false

open Json (IsValue)

/-- Whether what a node of a parameter has can be written; the defaults are as `P` tells. -/
structure ParameterNode.Writable (P : Json → Prop) (n : ParameterNode) : Prop where
  type : n.type.HasFiniteNumbers
  default : ∀ d ∈ n.default, P d

structure MemberNode.Writable (P : Json → Prop) (m : MemberNode) : Prop where
  returnType : ∀ w doc, m.kind = .method w doc → w.HasFiniteNumbers
  parameters : ∀ p ∈ m.parameters, p.Writable P
  span : m.site.span.Writable

def ClassNode.Writable (P : Json → Prop) (c : ClassNode) : Prop := ∀ m ∈ c.members, m.Writable P

/-! ## Declarations -/

/-- The type of the values of a parameter: the declared one without undefined. -/
def ParameterDecl.valueType (p : ParameterDecl) : TypeExpr :=
  (p.type.getD (.keyword "any")).stripUndefined.1

def MethodDecl.result (m : MethodDecl) : TypeExpr := m.returnType.getD (.keyword "void")

/-- Whether the literals in a declared parameter are values, and its default is as `P` tells. -/
structure ParameterDecl.Valid (P : Json → Prop) (p : ParameterDecl) : Prop where
  type : ∀ t ∈ p.type, t.Valid
  default : ∀ d ∈ p.default, P d

/-- The parameters of the constructor and of the methods. -/
def ClassDecl.parameters (c : ClassDecl) : List ParameterDecl :=
  c.constructor.toList.flatMap (·.parameters) ++ c.methods.flatMap (·.parameters)

theorem ClassDecl.mem_parameters_of_constructor {c : ClassDecl} {k : ConstructorDecl}
    (hk : c.constructor = some k) {p : ParameterDecl} (hp : p ∈ k.parameters) : p ∈ c.parameters :=
  List.mem_append_left _ (List.mem_flatMap.mpr ⟨k, by simp [hk], hp⟩)

theorem ClassDecl.mem_parameters_of_method {c : ClassDecl} {m : MethodDecl} (hm : m ∈ c.methods)
    {p : ParameterDecl} (hp : p ∈ m.parameters) : p ∈ c.parameters :=
  List.mem_append_right _ (List.mem_flatMap.mpr ⟨m, hm, hp⟩)

/-- Whether the literals in a class are values, its defaults are as `P` tells, and its places fit their
words. -/
structure ClassDecl.Valid (P : Json → Prop) (c : ClassDecl) : Prop where
  parameters : ∀ p ∈ c.parameters, p.Valid P
  results : ∀ m ∈ c.methods, ∀ t ∈ m.returnType, t.Valid
  methods : ∀ m ∈ c.methods, m.span.Writable
  constructor : ∀ k ∈ c.constructor, k.span.Writable

theorem ClassDecl.Valid.of_writable {c : ClassDecl} (h : c.Writable IsValue) :
    c.Valid fun d => IsValue d ∧ d ≠ .null := by
  have hparameters : ∀ p ∈ c.parameters, p.Writable IsValue := by
    intro p hp
    simp only [ClassDecl.parameters, List.mem_append, List.mem_flatMap, Option.mem_toList] at hp
    obtain ⟨k, hk, hp⟩ | ⟨m, hm, hp⟩ := hp
    · exact (h.constructor k hk).parameters p hp
    · exact (h.methods m hm).parameters p hp
  exact {
    parameters p hp := ⟨fun t ht => .of_writable ((hparameters p hp).type t ht), (hparameters p hp).default⟩
    results m hm t ht := .of_writable ((h.methods m hm).returnType t ht)
    methods m hm := (h.methods m hm).span
    constructor k hk := (h.constructor k hk).span }

/-- Whether a type is one of those that the walk over a class resolves. -/
def ClassDecl.Asks (c : ClassDecl) (t : TypeExpr) : Prop :=
  (∃ p ∈ c.parameters, t = p.valueType) ∨ ∃ m ∈ c.methods, t = m.result

/-- Whether a type is what the type of a parameter becomes. Where it is resolved, `Q` tells. -/
def Annotation.Resolution.Gives (Q : TypeExpr → WireType → Prop) (t : TypeExpr) (w : WireType) :
    Annotation.Resolution → Prop
  | .nameOnly => w = Resolver.nameOnly t
  | .full => Q t w

/-- Whether a node is that of a declared parameter, with a type as its binding asks for. -/
structure ParameterNode.DeclaredBy (Q : TypeExpr → WireType → Prop) (p : ParameterDecl)
    (n : ParameterNode) : Prop where
  name : n.site.name = p.name
  default : n.default = p.default
  required : n.required = false ↔
    p.optional = true ∨ p.default.isSome = true ∨ ∃ t, p.type = some t ∧ t.MayBeUndefined
  type : ∃ kind a, n.site.binding? = some (kind, a) ∧
    a.definition.resolution.Gives Q p.valueType n.type

/-- Whether a node is that of a method or of the constructor of a class. -/
structure MemberNode.DeclaredBy (Q : TypeExpr → WireType → Prop) (c : ClassDecl) (m : MemberNode) :
    Prop where
  parameters : ∀ n ∈ m.parameters, ∃ p ∈ c.parameters, n.DeclaredBy Q p
  returnType : ∀ w doc, m.kind = .method w doc → ∃ d ∈ c.methods, Q d.result w
  span : (∃ d ∈ c.methods, m.site.span = d.span) ∨
    ∃ k, c.constructor = some k ∧ m.site.span = k.span

/-! ## Verdicts -/

/-- Whether the result has a property if it is not withheld. -/
def Verdict.Gives {α : Type} (P : α → Prop) (v : Verdict α) : Prop := ∀ a ∈ v.value, P a

section Verdicts

variable {α : Type} {P : α → Prop}

theorem Verdict.gives_none (ds : List Diagnostic) : Verdict.Gives P ⟨none, ds⟩ := by
  intro a ha
  cases ha

theorem Verdict.gives_some {a : α} (ha : P a) (ds : List Diagnostic) :
    Verdict.Gives P ⟨some a, ds⟩ := by
  rintro _ ⟨⟩
  exact ha

theorem of_mem_filterMap_value {vs : List (Verdict α)} (h : ∀ v ∈ vs, v.Gives P) :
    ∀ a ∈ vs.filterMap (·.value), P a := by
  intro a ha
  obtain ⟨v, hv, hvalue⟩ := List.mem_filterMap.mp ha
  exact h v hv a hvalue

theorem Verdict.gives_mapM {vs : List (Verdict α)} (h : ∀ v ∈ vs, v.Gives P) (ds : List Diagnostic) :
    Verdict.Gives (fun as => ∀ a ∈ as, P a) ⟨vs.mapM (·.value), ds⟩ := by
  intro as has a ha
  obtain ⟨v, hv, hvalue⟩ := exists_of_mem_mapM has a ha
  exact h v hv a hvalue

end Verdicts

namespace Walk

open Annotation (Catalog Target Use)

variable {catalog : Catalog} {depth : Nat} {R : Resolver → Prop} {asked : TypeExpr → Prop}
  {Q : TypeExpr → WireType → Prop}

/-- Whether resolving any of the types that are asked for, for whatever site, keeps an invariant and
yields what `Q` holds of. -/
def Yields (depth : Nat) (R : Resolver → Prop) (asked : TypeExpr → Prop)
    (Q : TypeExpr → WireType → Prop) : Prop :=
  ∀ site t, asked t → ∀ r, R r → R (r.resolve depth t (.ofOrigin site)).2.2 ∧
    ∀ w, (r.resolve depth t (.ofOrigin site)).1 = .ok w → Q t w

theorem Yields.resolveAt (h : Yields depth R asked Q) (site : String) {t : TypeExpr} (ht : asked t) :
    Keeps R (resolveAt depth site t) (fun result => ∀ w, result = .ok w → Q t w) fun _ => True := by
  intro r hr
  obtain ⟨hnext, hyields⟩ := h site t ht r hr
  unfold Walk.resolveAt
  generalize r.resolve depth t (.ofOrigin site) = answer at hnext hyields ⊢
  obtain ⟨result, c, next⟩ := answer
  cases result with
  | ok w => exact ⟨hnext, fun _ h => Except.ok.inj h ▸ hyields w rfl⟩
  | error e =>
    cases e with
    | unsupported cause => exact ⟨hnext, by simp⟩
    | invariant fault => exact ⟨hnext, trivial⟩
    | exhausted => exact ⟨hnext, trivial⟩

/-! ## Parameters -/

theorem parameterType_yields (h : Yields depth R asked Q) (owner : String) (p : ParameterDecl)
    (binding : Applied) {t : TypeExpr} (ht : asked t) :
    Keeps R (parameterType depth owner p binding t)
      (fun result => ∀ w, result = .ok w → binding.definition.resolution.Gives Q t w)
      fun _ => True := by
  unfold parameterType
  generalize binding.definition.resolution = resolution
  cases resolution with
  | nameOnly => exact .pure fun w hw => (Except.ok.inj hw).symm
  | full =>
    refine (h.resolveAt _ ht).bind fun result hresult => ?_
    cases result with
    | ok w => exact .pure fun _ hw => hresult _ (Except.ok.inj hw ▸ rfl)
    | error cause => exact .pure (by simp)

theorem parameter_declared (h : Yields depth R asked Q) (owner : String) (position : Nat)
    {p : ParameterDecl} (hp : asked p.valueType) (target : Target) :
    Keeps R (parameter catalog depth owner position p target)
      (Verdict.Gives fun n => n.DeclaredBy Q p) fun _ => True := by
  unfold parameter
  obtain ⟨applied, faults⟩ := applyUses catalog target p.annotations
  cases applied with
  | none => exact .pure (Verdict.gives_none _)
  | some annotations =>
    dsimp only
    cases hbinding : theBinding owner p annotations with
    | error fault => exact .pure (Verdict.gives_none _)
    | ok binding =>
      refine (parameterType_yields h owner p binding hp).bind fun result hresult => ?_
      cases result with
      | error fault => exact .pure (Verdict.gives_none _)
      | ok w =>
        dsimp only
        cases typeFault? owner p binding w with
        | some fault => exact .pure (Verdict.gives_none _)
        | none =>
          obtain ⟨kind, -, hkind⟩ := binding?_of_filter
            (s := ⟨p.name, p.span, annotations, _⟩) (filter_of_theBinding hbinding)
          refine .pure (Verdict.gives_some ⟨rfl, rfl, ?_, kind, binding, hkind, hresult w rfl⟩ _)
          simp only [← mayBeUndefined_iff, Bool.not_eq_false', Bool.or_eq_true, or_assoc]

variable {c : ClassDecl}

/-- The nodes of parameters of a class. -/
theorem parameters_declared (h : Yields depth R asked Q) (hc : ∀ t, c.Asks t → asked t)
    (owner : String) (target : Target) {ps : List (ParameterDecl × Nat)}
    (hps : ∀ x ∈ ps, x.1 ∈ c.parameters) :
    Keeps R (ps.mapM fun x => parameter catalog depth owner x.2 x.1 target)
      (fun verdicts => ∀ v ∈ verdicts, v.Gives fun n => ∃ p ∈ c.parameters, n.DeclaredBy Q p)
      fun _ => True := by
  refine (Keeps.mapM_all ps fun x hx => ?_).weaken fun _ hverdicts => hverdicts.2
  refine (parameter_declared h owner x.2 (hc _ (.inl ⟨x.1, hps x hx, rfl⟩)) target).weaken ?_
  exact fun v hv n hn => ⟨x.1, hps x hx, hv n hn⟩

/-! ## Members -/

theorem returnType_yields (h : Yields depth R asked Q) (handler : String) {m : MethodDecl}
    (hm : asked m.result) : Keeps R (returnType depth handler m)
      (fun result => ∀ w, result = .ok w → Q m.result w) fun _ => True := by
  refine (h.resolveAt _ hm).bind fun result hresult => ?_
  cases result with
  | ok w => exact .pure fun _ hw => hresult _ (Except.ok.inj hw ▸ rfl)
  | error cause => exact .pure (by simp)

theorem method_declared (h : Yields depth R asked Q) (hc : ∀ t, c.Asks t → asked t) {m : MethodDecl}
    (hm : m ∈ c.methods) : Keeps R (method catalog depth c m)
      (Verdict.Gives fun node => node.DeclaredBy Q c) fun _ => True := by
  have hps : ∀ x ∈ m.parameters.zipIdx, x.1 ∈ c.parameters := fun x hx =>
    c.mem_parameters_of_method hm (List.fst_mem_of_mem_zipIdx hx)
  unfold method
  dsimp only
  refine (returnType_yields h _ (hc _ (.inr ⟨m, hm, rfl⟩))).bind fun returned hreturned => ?_
  refine (parameters_declared h hc _ .parameter hps).bind fun verdicts hverdicts => ?_
  cases returned with
  | error fault => exact .pure (Verdict.gives_none _)
  | ok w =>
    dsimp only
    split
    · refine .pure (Verdict.gives_some
        ⟨of_mem_filterMap_value hverdicts, ?_, .inl ⟨m, hm, rfl⟩⟩ _)
      rintro _ _ ⟨⟩
      exact ⟨m, hm, hreturned w rfl⟩
    · exact .pure (Verdict.gives_none _)

theorem constructor_declared (h : Yields depth R asked Q) (hc : ∀ t, c.Asks t → asked t) :
    Keeps R (constructor catalog depth c)
      (Verdict.Gives fun built => ∀ m ∈ built, m.DeclaredBy Q c) fun _ => True := by
  unfold constructor
  cases hk : c.constructor with
  | none => exact .pure (Verdict.gives_some (by simp) _)
  | some k =>
    have hps : ∀ x ∈ k.parameters.zipIdx.filter (!·.1.annotations.isEmpty), x.1 ∈ c.parameters :=
      fun x hx => c.mem_parameters_of_constructor hk
        (List.fst_mem_of_mem_zipIdx (List.mem_filter.mp hx).1)
    refine ((parameters_declared h hc _ _ hps).bind fun verdicts hverdicts =>
      .pure (Verdict.gives_mapM hverdicts _)).bind fun ⟨nodes, faults⟩ hnodes => ?_
    dsimp only
    split
    · exact .pure (Verdict.gives_none _)
    · exact .pure (Verdict.gives_some (by simp) _)
    · rename_i nodes _
      refine .pure (Verdict.gives_some ?_ _)
      rintro m ⟨⟩
      exact ⟨hnodes nodes rfl, by simp, .inr ⟨k, hk, rfl⟩⟩

/-! ## Classes -/

theorem members_declared (h : Yields depth R asked Q) (hc : ∀ t, c.Asks t → asked t)
    {routed : List MethodDecl} (hrouted : routed ⊆ c.methods) (annotations : List Applied) :
    Keeps R (members catalog depth c routed annotations)
      (Verdict.Gives fun node => ∀ m ∈ node.members, m.DeclaredBy Q c) fun _ => True := by
  unfold members
  refine (constructor_declared h hc).bind fun ⟨built, faults⟩ hbuilt => ?_
  cases built with
  | none => exact .pure (Verdict.gives_none _)
  | some built =>
    refine (Keeps.mapM_all routed fun m hm => method_declared h hc (hrouted hm)).bind
      fun verdicts ⟨_, hverdicts⟩ => ?_
    have hmethods := of_mem_filterMap_value hverdicts
    dsimp only
    split
    · exact .pure (Verdict.gives_none _)
    · refine .pure (Verdict.gives_some (fun m hm => ?_) _)
      rcases List.mem_append.mp hm with hm | hm
      · exact hbuilt built rfl m (Option.mem_toList.mp hm)
      · exact hmethods m hm

theorem classTree_declared (h : Yields depth R asked Q) (hc : ∀ t, c.Asks t → asked t) :
    Keeps R (classTree catalog depth c)
      (Verdict.Gives fun node => ∀ m ∈ node.members, m.DeclaredBy Q c) fun _ => True := by
  unfold classTree
  dsimp only
  split
  · exact .pure (Verdict.gives_none _)
  · obtain ⟨applied, faults⟩ := applyUses catalog .classDeclaration c.annotations
    cases applied with
    | none => exact .pure (Verdict.gives_none _)
    | some annotations => exact members_declared h hc List.filter_sublist.subset annotations

/-- Every node of the forest is declared, and has what is known of the types that were resolved. -/
theorem forest_declared (h : Yields depth R asked Q) {classes : List ClassDecl}
    (hclasses : ∀ c ∈ classes, ∀ t, c.Asks t → asked t) :
    Keeps R (forest catalog depth classes)
      (fun (f, _) => ∀ node ∈ f, ∃ c ∈ classes, ∀ m ∈ node.members, m.DeclaredBy Q c)
      fun _ => True := by
  refine (Keeps.mapM_all classes fun c hc => ?_).bind fun verdicts ⟨_, hverdicts⟩ =>
    .pure (of_mem_filterMap_value hverdicts)
  exact (classTree_declared h (hclasses c hc)).weaken fun v hv node hnode => ⟨c, hc, hv node hnode⟩

/-! ## Numbers -/

/-- What a resolver is like that has resolved nothing but types with values for literals. -/
def Finite (types : List TypeDecl) (options : Resolve.Options) (r : Resolver) : Prop :=
  r.scope = ⟨types, options⟩ ∧ r.cache.Holds WireType.HasFiniteNumbers

variable {types : List TypeDecl} {options : Resolve.Options}

theorem yields_finite (htypes : ∀ d ∈ types, d.Valid) (depth : Nat) :
    Yields depth (Finite types options) TypeExpr.Valid fun _ w => w.HasFiniteNumbers := by
  rintro site t ht ⟨scope, cache⟩ ⟨rfl, hcache⟩
  obtain ⟨result, next, hresolve, hnext, hresult⟩ :=
    Resolver.resolve_lawful_placed (r := ⟨⟨types, options⟩, cache⟩) (Resolve.finiteLaw htypes) hcache
      depth ht (Resolver.binds_ofOrigin site)
  rw [hresolve]
  refine ⟨⟨rfl, hnext⟩, fun w hw => ?_⟩
  obtain rfl : result = .ok w := hw
  exact hresult

variable {P : Json → Prop}

theorem valid_of_asks (hc : c.Valid P) {t : TypeExpr} (ht : c.Asks t) : t.Valid := by
  obtain ⟨p, hp, rfl⟩ | ⟨m, hm, rfl⟩ := ht
  · refine TypeExpr.Valid.stripUndefined ?_
    cases h : p.type with
    | none => exact .keyword _
    | some t => exact (hc.parameters p hp).type t h
  · unfold MethodDecl.result
    cases h : m.returnType with
    | none => exact .keyword _
    | some t => exact hc.results m hm t h

theorem writable_of_declaredBy (hc : c.Valid P) {m : MemberNode}
    (h : m.DeclaredBy (fun _ w => w.HasFiniteNumbers) c) : m.Writable P := by
  refine ⟨fun w doc hkind => ?_, fun n hn => ?_, ?_⟩
  · obtain ⟨d, -, hw⟩ := h.returnType w doc hkind
    exact hw
  · obtain ⟨p, hp, hdeclared⟩ := h.parameters n hn
    refine ⟨?_, hdeclared.default ▸ (hc.parameters p hp).default⟩
    obtain ⟨kind, a, -, htype⟩ := hdeclared.type
    generalize a.definition.resolution = resolution at htype
    cases resolution with
    | full => exact htype
    | nameOnly =>
      -- A type that is kept by name has no numbers.
      rw [show n.type = Resolver.nameOnly p.valueType from htype]
      exact .of_children (by simp [Resolver.nameOnly]) (by simp [Resolver.nameOnly, WireType.children])
  · obtain ⟨d, hd, hspan⟩ | ⟨k, hk, hspan⟩ := h.span
    · exact hspan ▸ hc.methods d hd
    · exact hspan ▸ hc.constructor k hk

/-- The forest of classes with values for literals has only nodes that can be written. -/
theorem forest_writable (htypes : ∀ d ∈ types, d.Valid) {classes : List ClassDecl}
    (hclasses : ∀ c ∈ classes, c.Valid P) :
    Keeps (Finite types options) (forest catalog depth classes)
      (fun (f, _) => ∀ c ∈ f, c.Writable P) fun _ => True := by
  refine (forest_declared (yields_finite htypes depth)
    fun c hc t => valid_of_asks (hclasses c hc)).weaken fun (f, _) hf node hnode m hm => ?_
  obtain ⟨c, hc, hdeclared⟩ := hf node hnode
  exact writable_of_declaredBy (hclasses c hc) (hdeclared m hm)

end Walk

end AnnotatedApi
