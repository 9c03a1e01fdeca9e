import AnnotatedApi.Proofs.Resolution.Denotation
import AnnotatedApi.Proofs.Resolution.History

/-!
# Instances and their identities

Instances are remembered under a text. Where keys can be read, this is sound: whatever a resolver has
been asked before, what it answers is denoted by the type expression, and two answers have one key
only if they are the same type. In general two instances may get one identity, and then the one that
was resolved first stands for the other.
-/

namespace AnnotatedApi

set_option autoImplicit false

open Resolve

namespace Resolve

variable (scope : Scope)

/-- What is known of a type that is remembered: it is an instance of a declaration, or an enumeration. -/
inductive Stored : String → WireType → Prop where
  | declared {d : TypeDecl} {arguments : List WireType} {w : WireType} :
    d ∈ scope.types → arguments.length = d.parameters.length →
      (∀ v ∈ arguments, Meaningful scope v) → Instance scope d arguments w →
      Stored (instanceIdentity d arguments) w
  | enumeration {d : TypeDecl} {arguments : List WireType} {members : List EnumMember}
    {literals : List Literal} : d ∈ scope.types → arguments.length = d.parameters.length →
      (∀ v ∈ arguments, Meaningful scope v) → d.body = .enumeration members →
      enumLiterals d.name members = .ok literals →
      Stored (instanceIdentity d arguments) (.unionOf (literals.map .literal))

/-- What the expansion of a declaration yields, and whether it may be remembered. -/
inductive Expansion (d : TypeDecl) (bound : Table WireType) (values : List WireType) :
    WireType × Bool → Prop where
  | declared {w : WireType} : Instance scope d values w → Expansion d bound values (w, true)
  | synonym {target : TypeExpr} {w : WireType} : d.body = .synonym target → d.body.fields? = none →
      Denotes scope bound target w → Expansion d bound values (w, false)
  | enumeration {members : List EnumMember} {literals : List Literal} :
      d.body = .enumeration members → enumLiterals d.name members = .ok literals →
      Expansion d bound values (.unionOf (literals.map .literal), true)

/-- Whether a way to resolve types answers only what legible type expressions denote. -/
def Sound (resolve : TypeExpr → Resolving WireType) : Prop :=
  ∀ c names t, t.Legible scope names → Readable scope c.environment names →
    Steady (Cache.Records (Stored scope)) c (resolve t) (Denotes scope c.environment t) fun _ => True

variable {scope} {c : Context} {names : List String} {d : TypeDecl}
  {resolve : TypeExpr → Resolving WireType}

namespace Sound

theorem resolveAll (h : Sound scope resolve) (hρ : Readable scope c.environment names)
    {ts : List TypeExpr} (ht : ∀ t ∈ ts, t.Legible scope names) :
    Steady (Cache.Records (Stored scope)) c (ts.mapM resolve) (DenoteAll scope c.environment ts)
      fun _ => True := by
  refine (Keeps.mapM ts fun t hmem => h c names t (ht t hmem) hρ).weaken fun ws hws => ?_
  clear ht
  induction hws with
  | nil => exact .nil
  | cons hw _ ih => exact .cons hw ih

theorem resolveFields (h : Sound scope resolve) (hρ : Readable scope c.environment names)
    {fs : List (FieldDecl TypeExpr)} (ht : (TypeExpr.object fs).Legible scope names) :
    Steady (Cache.Records (Stored scope)) c (resolveFields resolve fs)
      (DenoteFields scope c.environment fs) fun _ => True := by
  have hfield : ∀ f ∈ fs, Steady (Cache.Records (Stored scope)) c (resolveField resolve f)
      (fun g => ∃ w, g = f.resolved w ∧ Denotes scope c.environment f.type.stripUndefined.1 w)
      fun _ => True := fun f hf =>
    Keeps.bind (Steady.inField (h (c.pushField f.name) names _ (ht.field hf) hρ))
      fun w hw => .pure ⟨w, rfl, hw⟩
  refine (Keeps.mapM fs hfield).weaken fun gs hgs => ?_
  clear ht hfield
  induction hgs with
  | nil => exact .nil
  | cons hg _ ih =>
    obtain ⟨w, rfl, hw⟩ := hg
    exact .cons hw ih

theorem resolveBases (h : Sound scope resolve) (hρ : Readable scope c.environment names)
    (declaration : String) {bases : List TypeExpr} (ht : ∀ t ∈ bases, t.Legible scope names)
    (merged : List (Field WireType)) :
    Steady (Cache.Records (Stored scope)) c (resolveBases resolve declaration bases merged)
      (fun fields => ∃ os, DenoteObjects scope c.environment bases os ∧
        fields = ObjectType.mergeAll os merged) fun _ => True := by
  induction bases generalizing merged with
  | nil => exact .pure ⟨[], .nil, rfl⟩
  | cons base bases ih =>
    obtain ⟨ht, hts⟩ := List.forall_mem_cons.mp ht
    refine Keeps.bind (h c names base ht hρ) fun w hw => ?_
    cases w with
    | object identity name arguments fields =>
      refine (ih hts (mergeFields merged fields)).weaken fun gs ⟨os, hos, hgs⟩ => ?_
      exact ⟨⟨identity, name, arguments, fields⟩ :: os, .cons hw hos, hgs⟩
    | _ => exact .throw trivial

theorem resolveMembers (h : Sound scope resolve) (hρ : Readable scope c.environment names)
    (text : String) {members : List TypeExpr} (ht : ∀ t ∈ members, t.Legible scope names)
    (merged : List (Field WireType)) :
    Steady (Cache.Records (Stored scope)) c (resolveMembers resolve text members merged)
      (fun (identities, displays, fields) => ∃ os, DenoteObjects scope c.environment members os ∧
        identities = os.map (·.identity) ∧ displays = os.map (·.type.display) ∧
        fields = ObjectType.mergeAll os merged) fun _ => True := by
  induction members generalizing merged with
  | nil => exact .pure ⟨[], .nil, rfl, rfl, rfl⟩
  | cons member members ih =>
    obtain ⟨ht, hts⟩ := List.forall_mem_cons.mp ht
    refine Keeps.bind (h c names member ht hρ) fun w hw => ?_
    cases w with
    | object identity name arguments fields =>
      refine Keeps.bind (ih hts (mergeFields merged fields)) fun (identities, displays, gs)
        ⟨os, hos, hidentities, hdisplays, hgs⟩ => .pure ?_
      exact ⟨⟨identity, name, arguments, fields⟩ :: os, .cons hw hos, by rw [hidentities]; rfl,
        by rw [hdisplays]; rfl, hgs⟩
    | _ => exact .throw trivial

/-! ## Declarations -/

theorem bindParameters (h : Sound scope resolve) (hs : scope.Legible) {names' : List String}
    (hρ : Readable scope c.environment names) (ps : List TypeParameter)
    (hps : ∀ p ∈ ps, ReadableParameter scope names' p) (args : List TypeExpr)
    (ht : ∀ a ∈ args, a.Legible scope names) (env : Table WireType)
    (henv : Readable scope env names') :
    Steady (Cache.Records (Stored scope)) c (bindParameters resolve ps args env)
      (fun r => Binds scope c.environment ps args env r.1 r.2) fun _ => True := by
  induction ps generalizing args env with
  | nil => exact .pure .nil
  | cons p ps ih =>
    obtain ⟨hp, hps⟩ := List.forall_mem_cons.mp hps
    have hput : ∀ v, Meaningful scope v → Readable scope (env.put p.name v) names' := fun v hv =>
      henv.put hp.name hv
    cases args with
    | cons a args =>
      obtain ⟨ht, hts⟩ := List.forall_mem_cons.mp ht
      rw [bindParameters_argument]
      refine Keeps.bind (h c names a ht hρ) fun v hv => ?_
      have hnext := ih hps args hts _ (hput v (hv.meaningful hs ht hρ).meaningful)
      exact hnext.bind fun r hbinds => .pure (.argument hv hbinds)
    | nil =>
      cases hu : p.default with
      | some u =>
        have hlegible := hp.default u hu
        rw [bindParameters_default _ _ _ _ hu]
        refine Keeps.bind (Steady.inEnvironment
          (h { c with environment := env } names' u hlegible henv)) fun v hv => ?_
        have hnext := ih hps [] (by simp) _ (hput v (hv.meaningful hs hlegible henv).meaningful)
        exact hnext.bind fun r hbinds => .pure (.default hu hv hbinds)
      | none =>
        have hnext := ih hps [] (by simp) env henv
        rw [bindParameters_unbound _ _ _ _ hu]
        exact hnext.bind fun r hbinds => .pure (.unbound hu hbinds)

theorem expand (h : Sound scope resolve) (hs : scope.Legible) (hd : d ∈ scope.types)
    {ρ bound : Table WireType} {args : List TypeExpr} {values : List WireType}
    (hbinds : Binds scope ρ d.parameters args [] bound values)
    (hbound : Readable scope bound (d.parameters.map (·.name))) {frame : Frame} :
    Steady (Cache.Records (Stored scope)) (c.enter frame bound)
      (expand resolve d (instanceIdentity d values) values) (Expansion scope d bound values)
      fun _ => True := by
  have hneeds : ∀ u ∈ d.body.needs, u.Legible scope (d.parameters.map (·.name)) := fun u hu =>
    hs.legible d hd u (List.mem_append_left _ hu)
  cases d.form with
  | @interface bases fs hbody =>
    have hfields : d.body.fields? = some fs := by rw [hbody]; rfl
    have hall := TypeBody.needs_of_fields? hfields ▸ hneeds
    obtain ⟨hobject, hbases⟩ := List.forall_mem_cons.mp hall
    rw [hbody] at hbases
    rw [expand_interface _ _ _ hbody]
    refine Keeps.bind (h.resolveBases hbound d.name hbases []) fun inherited ⟨os, hos, hinherited⟩ => ?_
    refine Keeps.bind (h.resolveFields hbound hobject) fun own hown => .pure ?_
    rw [hinherited]
    exact .declared (.interface hbody hbinds hos hown)
  | @object fs hbody =>
    have hfields : d.body.fields? = some fs := by rw [hbody]; rfl
    have hall := TypeBody.needs_of_fields? hfields ▸ hneeds
    rw [expand_object _ _ _ hbody]
    refine Keeps.bind (h.resolveFields hbound (List.forall_mem_cons.mp hall).1) fun gs hgs => .pure ?_
    exact .declared (.object hbody hbinds hgs)
  | @synonym target hbody hnone =>
    rw [expand_synonym _ _ _ hbody hnone]
    refine Keeps.bind (h (c.enter frame bound) _ target (hs.target hd hbody hnone) hbound) fun w hw => ?_
    split
    · exact .throw trivial
    · exact .pure (.synonym hbody hnone hw)
  | enumeration hbody hliterals =>
    rw [expand_enumeration _ _ _ hbody hliterals]
    exact .pure (.enumeration hbody hliterals)
  | fault hfault =>
    obtain ⟨cause, hcause⟩ := expand_fault hfault
    rw [hcause]
    exact .throw trivial

theorem expandInstance (h : Sound scope resolve) (hs : scope.Legible) {name : String}
    {args : List TypeExpr} (hunbound : (TypeExpr.reference name args).Unbound c.environment)
    (hd : scope.declaration? (.reference name args) = some d) {bound : Table WireType}
    {values : List WireType} (hbinds : Binds scope c.environment d.parameters args [] bound values)
    (hbound : Readable scope bound (d.parameters.map (·.name)))
    (hvalues : ∀ v ∈ values, Meaningful scope v) :
    Steady (Cache.Records (Stored scope)) c
      (expandInstance scope resolve d (instanceIdentity d values) bound values)
      (Denotes scope c.environment (.reference name args)) fun _ => True := by
  have hmem := Scope.mem_of_declaration? hd
  refine Steady.get fun _ => ?_
  dsimp only
  split
  · exact .throw trivial
  · refine Keeps.bind (Steady.inFrame (h.expand hs hmem hbinds hbound)) fun (w, shareable) hw => ?_
    have hdenotes : Denotes scope c.environment (.reference name args) w := by
      cases hw with
      | declared hw =>
        obtain ⟨ts, hts⟩ := exists_meansAll.mpr hvalues
        exact .declared hunbound hd hbinds (hts.same hts) hw
      | synonym hbody hnone hw => exact .synonym hunbound hd hbody hnone hbinds hw
      | enumeration hbody hliterals => exact .enumeration hunbound hd hbody hliterals
    dsimp only
    split
    · rename_i hs
      rw [Bool.and_eq_true] at hs
      have hstored : Stored scope (instanceIdentity d values) w := by
        cases hw with
        | declared hw => exact .declared hmem hbinds.length_eq hvalues hw
        | synonym => cases hs.1
        | enumeration hbody hliterals =>
          exact .enumeration hmem hbinds.length_eq hvalues hbody hliterals
      have hown : ∀ i name as fields, w = .object i name as fields → i = instanceIdentity d values := by
        intro i name as fields hobject
        cases hw with
        | declared hw => exact (hobject ▸ hw).identity_eq
        | synonym => cases hs.1
        | enumeration => exact absurd hobject Lawful.unionOf_literals_ne_object
      exact (steady_remember c ⟨hs.2, hown⟩ hstored).bind fun _ _ => .pure hdenotes
    · exact .pure hdenotes

/-- What is remembered under the identity of a reference is denoted by it. -/
theorem denotes_of_stored (hs : scope.Legible) {ρ bound : Table WireType} {name : String}
    {args : List TypeExpr} (hunbound : (TypeExpr.reference name args).Unbound ρ)
    (hd : scope.declaration? (.reference name args) = some d) {values : List WireType}
    (hbinds : Binds scope ρ d.parameters args [] bound values)
    (hvalues : ∀ v ∈ values, Meaningful scope v) {w : WireType}
    (hw : Stored scope (instanceIdentity d values) w) : Denotes scope ρ (.reference name args) w := by
  have hmem := Scope.mem_of_declaration? hd
  generalize hidentity : instanceIdentity d values = identity at hw
  cases hw with
  | declared he hlength has hw =>
    obtain ⟨rfl, hsame⟩ := eq_of_instanceIdentity_eq hs.toNamed hmem he hbinds.length_eq hlength hvalues
      has hidentity
    exact .declared hunbound hd hbinds hsame hw
  | enumeration he hlength has hbody hliterals =>
    obtain ⟨rfl, hsame⟩ := eq_of_instanceIdentity_eq hs.toNamed hmem he hbinds.length_eq hlength hvalues
      has hidentity
    exact .enumeration hunbound hd hbody hliterals

theorem resolveDeclaration (h : Sound scope resolve) (hs : scope.Legible)
    (hρ : Readable scope c.environment names) {name : String} {args : List TypeExpr}
    (ht : ∀ a ∈ args, a.Legible scope names)
    (hunbound : (TypeExpr.reference name args).Unbound c.environment)
    (hd : scope.declaration? (.reference name args) = some d) :
    Steady (Cache.Records (Stored scope)) c (resolveDeclaration scope resolve d args)
      (Denotes scope c.environment (.reference name args)) fun _ => True := by
  have hmem := Scope.mem_of_declaration? hd
  have hparameters := hs.parameter hmem
  unfold Resolve.resolveDeclaration
  split
  · exact .throw trivial
  · refine Keeps.bind (h.bindParameters hs hρ d.parameters hparameters args ht []
      ⟨by simp, by simp [Table.keys]⟩) ?_
    rintro ⟨bound, values⟩ hbinds
    refine Steady.get fun _ => ?_
    obtain ⟨hbound, hvalues⟩ := hbinds.readable hs hparameters ht hρ ⟨by simp, by simp [Table.keys]⟩
    obtain ⟨ts, hts⟩ := exists_meansAll.mpr hvalues
    dsimp only
    cases c.isExpanding (instanceIdentity d values) with
    | true => exact .pure (.declared hunbound hd hbinds (hts.same hts) .back)
    | false =>
      refine Keeps.bind (steady_remembered? c _) fun found hfound => ?_
      cases found with
      | some w => exact .pure (denotes_of_stored hs hunbound hd hbinds hvalues (hfound w rfl).2)
      | none => exact h.expandInstance hs hunbound hd hbinds hbound hvalues

/-! ## Other references -/

theorem resolveBuiltin (h : Sound scope resolve) (hρ : Readable scope c.environment names)
    {name : String} {args : List TypeExpr} (ht : ∀ a ∈ args, a.Legible scope names)
    (hunbound : (TypeExpr.reference name args).Unbound c.environment)
    (hkept : name ∉ scope.options.nameOnly) (hd : lookupType scope.types name = none) :
    Steady (Cache.Records (Stored scope)) c (resolveBuiltin resolve name args)
      (Denotes scope c.environment (.reference name args)) fun _ => True := by
  unfold Resolve.resolveBuiltin
  cases hb : builtin? name with
  | none => exact .throw trivial
  | some b =>
    dsimp only
    split
    · rename_i harity
      exact (h.resolveAll hρ ht).bind fun ws hws => .pure (.builtin hunbound hkept hd hb harity hws)
    · exact .throw trivial

theorem resolveGlobal (h : Sound scope resolve) (hs : scope.Legible)
    (hρ : Readable scope c.environment names) {name : String} {args : List TypeExpr}
    (ht : ∀ a ∈ args, a.Legible scope names)
    (hunbound : (TypeExpr.reference name args).Unbound c.environment) :
    Steady (Cache.Records (Stored scope)) c (resolveGlobal scope resolve name args)
      (Denotes scope c.environment (.reference name args)) fun _ => True := by
  cases hkept : scope.options.nameOnly.contains name with
  | true =>
    rw [resolveGlobal_unexpanded _ _ _ _ hkept]
    exact .pure (.unexpanded hunbound (by simpa using hkept))
  | false =>
    have hnot : name ∉ scope.options.nameOnly := by simpa using hkept
    cases hd : lookupType scope.types name with
    | some d =>
      rw [resolveGlobal_declared _ _ _ _ hkept hd]
      exact h.resolveDeclaration hs hρ ht hunbound (by rw [Scope.declaration?_free hkept, hd])
    | none =>
      rw [resolveGlobal_builtin _ _ _ _ hkept hd]
      exact h.resolveBuiltin hρ ht hunbound hnot hd

theorem resolveReference (h : Sound scope resolve) (hs : scope.Legible)
    (hρ : Readable scope c.environment names) {name : String} {args : List TypeExpr}
    (ht : (TypeExpr.reference name args).Legible scope names) :
    Steady (Cache.Records (Stored scope)) c (resolveReference scope resolve name args)
      (Denotes scope c.environment (.reference name args)) fun _ => True := by
  have hargs : ∀ a ∈ args, a.Legible scope names := fun a ha => ht.inner ha
  cases args with
  | nil =>
    rw [resolveReference_bare]
    refine Keeps.bind (Q := fun found => found = c.environment.get? name)
      (Steady.get fun _ => .pure rfl) fun bound hbound => ?_
    cases bound with
    | some w => exact .pure (.bare hbound.symm)
    | none =>
      exact h.resolveGlobal hs hρ hargs (by simp [TypeExpr.Unbound, TypeExpr.bareName?, hbound.symm])
  | cons a args =>
    rw [resolveReference_applied _ _ _ (List.cons_ne_nil a args)]
    exact h.resolveGlobal hs hρ hargs (by simp [TypeExpr.Unbound, TypeExpr.bareName?])

/-! ## Type expressions -/

theorem resolveStep (h : Sound scope resolve) (hs : scope.Legible) :
    Sound scope (resolveStep scope resolve) := by
  intro c names t ht hρ
  cases t with
  | keyword name =>
    dsimp only [Resolve.resolveStep]
    cases hname : keywordPrimitive name with
    | ok p => exact .pure (.keyword hname)
    | error reason => exact .throw trivial
  | literal value =>
    dsimp only [Resolve.resolveStep]
    split
    · rename_i l hl
      exact .pure (.literal hl)
    · exact .pure .null
    · exact .throw trivial
  | array element =>
    exact Keeps.bind (Steady.inField (h (c.pushField "[]") names element
      (ht.inner (List.mem_singleton.mpr rfl)) hρ)) fun w hw => .pure (.array hw)
  | tuple elements =>
    cases elements with
    | nil => exact .throw trivial
    | cons e es =>
      exact (h.resolveAll hρ fun _ hu => ht.inner hu).bind fun ws hws => .pure (.tuple (by simp) hws)
  | union members =>
    exact (h.resolveAll hρ fun _ hu => ht.inner hu).bind fun ws hws => .pure (.union hws)
  | intersection members =>
    refine Keeps.bind (h.resolveMembers hρ _ (fun _ hu => ht.inner hu) []) fun (identities, displays, gs)
      ⟨os, hos, hidentities, hdisplays, hgs⟩ => .pure ?_
    rw [hidentities, hdisplays, hgs]
    exact .intersection hos
  | reference name args => exact h.resolveReference hs hρ ht
  | parameter name =>
    refine Keeps.bind (Q := fun found => found = c.environment.get? name)
      (Steady.get fun _ => .pure rfl) fun found hfound => ?_
    cases found with
    | some w => exact .pure (.bound hfound.symm)
    | none => exact .pure (.unbound hfound.symm)
  | object fields =>
    exact Steady.get fun _ => (h.resolveFields hρ ht).bind fun gs hgs => .pure (.object hgs)
  | function parameters result => exact .throw trivial

end Sound

theorem resolveType_sound (hs : scope.Legible) (depth : Nat) : Sound scope (resolveType scope depth) := by
  induction depth with
  | zero => exact fun c names t _ _ => .throw trivial
  | succ depth ih => exact ih.resolveStep hs

end Resolve

namespace Resolver

/-! ## Calls for legible type expressions -/

variable {types : List TypeDecl} {options : Options} {r : Resolver}

/-- A resolver that has been used only for type expressions whose keys can be read. -/
def LegiblyUsed (types : List TypeDecl) (options : Options) : Resolver → Prop :=
  UsedFor (fun t _ => t.Legible ⟨types, options⟩ []) types options

theorem steady_ofOrigin {scope : Scope} (hs : scope.Legible) (depth : Nat) {t : TypeExpr}
    (ht : t.Legible scope []) (origin : String) : Steady (Cache.Records (Stored scope)) (.ofOrigin origin)
      (resolveType scope depth t) (Denotes scope [] t) fun _ => True :=
  resolveType_sound hs depth (.ofOrigin origin) [] t ht
    ⟨by simp [Context.ofOrigin], by simp [Context.ofOrigin, Table.keys]⟩

/-- A resolver answers what the type expression denotes. -/
theorem LegiblyUsed.denotes (h : LegiblyUsed types options r) (hs : Scope.Legible ⟨types, options⟩)
    {t : TypeExpr} (ht : t.Legible ⟨types, options⟩ []) {depth : Nat} {origin : String} {w : WireType}
    (hw : (r.resolve depth t (.ofOrigin origin)).1 = .ok w) : Denotes ⟨types, options⟩ [] t w :=
  h.yields_of_steady Cache.records_empty
    (fun depth _ origin ht => steady_ofOrigin hs depth ht origin) ht hw

/-- Where keys can be read, what a resolver answers is denoted by the type expression, so that an
instance has the type arguments of the reference, and answers with one key are the same type. Objects
of one identity have the same type arguments. -/
theorem LegiblyUsed.key_eq_iff_same (hs : Scope.Legible ⟨types, options⟩)
    {r r' : Resolver} (h : LegiblyUsed types options r) (h' : LegiblyUsed types options r')
    {t u : TypeExpr} (ht : t.Legible ⟨types, options⟩ []) (hu : u.Legible ⟨types, options⟩ [])
    {depth depth' : Nat} {origin origin' : String} {a b : WireType}
    (ha : (r.resolve depth t (.ofOrigin origin)).1 = .ok a)
    (hb : (r'.resolve depth' u (.ofOrigin origin')).1 = .ok b) :
    Denotes ⟨types, options⟩ [] t a ∧ (a.key = b.key ↔ SameType ⟨types, options⟩ a b) ∧
      ∀ o p : ObjectType, a = o.type → b = p.type → o.name.isSome = true → p.name.isSome = true →
        o.identity = p.identity → List.Forall₂ (SameType ⟨types, options⟩) o.arguments p.arguments := by
  have hreadable : Readable ⟨types, options⟩ [] [] := ⟨by simp, by simp [Table.keys]⟩
  have hta := h.denotes hs ht ha
  have hiff := SameType.iff_key_eq hs.toNamed (hta.meaningful hs ht hreadable).meaningful
    ((h'.denotes hs hu hb).meaningful hs hu hreadable).meaningful
  refine ⟨hta, hiff.symm, ?_⟩
  rintro o p rfl rfl ho hp hidentity
  obtain ⟨n, hn⟩ := Option.isSome_iff_exists.mp ho
  obtain ⟨m, hm⟩ := Option.isSome_iff_exists.mp hp
  refine SameType.arguments (hiff.mpr ?_) ho hp
  rw [ObjectType.key_type hn, ObjectType.key_type hm, hidentity]

/-- A box of things. -/
def boxed : List TypeDecl :=
  let span : Span := ⟨"m.ts", .zero, .zero⟩
  [⟨"Box", "m.ts#Box", [⟨"T", none⟩], .interface []
    [⟨"items", .array (.parameter "T"), false, none, none, span⟩], span⟩]

def boxOf (content : TypeExpr) : TypeExpr := .reference "Box" [content]

theorem boxed_legible : Scope.Legible ⟨boxed, .default⟩ where
  distinct := by simp [boxed]
  ordinary := by simp only [boxed, List.mem_singleton, forall_eq]; decide
  applied := by simp only [boxed, List.mem_singleton, forall_eq]; decide
  nameOnly := by decide
  parameters := by
    simp only [boxed, List.mem_singleton, forall_eq]
    exact ⟨by decide, by decide, by simp⟩
  legible := by
    simp only [boxed, List.mem_singleton, forall_eq]
    intro u hu
    obtain rfl := List.mem_singleton.mp hu
    have hname : IsFieldName "items" := by decide
    exact ⟨by simpa [TypeExpr.LegibleHere] using hname, ⟨trivial, by decide, by decide, by simp⟩, trivial⟩
  members := by simp [boxed]

theorem boxOf_legible (name : String) :
    (boxOf (.keyword name)).Legible ⟨boxed, .default⟩ [] :=
  ⟨trivial, trivial, trivial⟩

theorem key_eq_iff_same_boxed : ∃ a b : WireType,
    ((fresh boxed .default).resolve 9 (boxOf (.keyword "string")) (.ofOrigin "probe")).1 = .ok a ∧
    (((fresh boxed .default).resolve 9 (boxOf (.keyword "string")) (.ofOrigin "probe")).2.2.resolve 9
      (boxOf (.keyword "number")) (.ofOrigin "probe")).1 = .ok b ∧
    Denotes ⟨boxed, .default⟩ [] (boxOf (.keyword "string")) a ∧ ¬ SameType ⟨boxed, .default⟩ a b := by
  obtain ⟨a, b, ha, hb, hne⟩ : ∃ a b : WireType,
      ((fresh boxed .default).resolve 9 (boxOf (.keyword "string")) (.ofOrigin "probe")).1 = .ok a ∧
      (((fresh boxed .default).resolve 9 (boxOf (.keyword "string")) (.ofOrigin "probe")).2.2.resolve 9
        (boxOf (.keyword "number")) (.ofOrigin "probe")).1 = .ok b ∧ a.key ≠ b.key :=
    ⟨_, _, rfl, rfl, by decide +kernel⟩
  obtain ⟨hdenotes, hiff, -⟩ := LegiblyUsed.key_eq_iff_same boxed_legible UsedFor.fresh
    (UsedFor.resolve 9 (boxOf_legible "string") .fresh) (boxOf_legible "string") (boxOf_legible "number") ha hb
  exact ⟨a, b, ha, hb, hdenotes, fun hsame => hne (hiff.mpr hsame)⟩

/-- The intersection of two inline objects with one field each. -/
def meetOf (first second content : String) : TypeExpr :=
  let span : Span := ⟨"m.ts", .zero, .zero⟩
  let field (name : String) : TypeExpr := .object [⟨name, .keyword content, false, none, none, span⟩]
  .intersection [field first, field second]

/-- The key of an intersection of inline objects tells only where these stand, so that two boxes get one
identity, and the resolver answers the second question with the first box. -/
theorem meets_share_identity : ∃ a b c : WireType,
    ((fresh boxed .default).resolve 9 (boxOf (meetOf "a" "b" "string")) (.ofOrigin "probe")).1 = .ok a ∧
    ((fresh boxed .default).resolve 9 (boxOf (meetOf "c" "d" "number")) (.ofOrigin "probe")).1 = .ok b ∧
    (((fresh boxed .default).resolve 9 (boxOf (meetOf "a" "b" "string")) (.ofOrigin "probe")).2.2.resolve 9
      (boxOf (meetOf "c" "d" "number")) (.ofOrigin "probe")).1 = .ok c ∧
    a.key = b.key ∧ a.display ≠ b.display ∧ c = a :=
  ⟨_, _, _, rfl, rfl, rfl, by decide +kernel, by decide +kernel, rfl⟩

end Resolver

end AnnotatedApi
