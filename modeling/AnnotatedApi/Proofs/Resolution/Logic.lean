import AnnotatedApi.Proofs.Resolution.Grounding
import AnnotatedApi.Proofs.Resolution.Restoring

/-!
# Reasoning about all depths of recursion

What is resolved depends on the depth of recursion that is allowed. A logic says something of a
resolution at all depths at once, in one context, by rules for each way in which resolutions are put
together. `Logic.resolveStep` goes through the resolver once for all logics: what a logic says of the
type expressions that a step resolves, it says of the step.
-/

namespace AnnotatedApi.Resolve

set_option autoImplicit false

variable {α β : Type}

/-- The same place, seen from a resolution that another site has asked for. -/
def Context.movedTo (c : Context) (origin : String) : Context := { c with origin := origin }

/-- Whether a change of the context has nothing to do with the origin. -/
def SparesOrigin (change : Context → Context) : Prop :=
  ∀ c origin, change (c.movedTo origin) = (change c).movedTo origin

/-- A way to speak of resolutions at all depths of recursion, which start and end in the same context;
what it says of failures that are faults of the input is true. The origin counts only for inline objects,
and a logic need not speak of these in every context. -/
structure Logic where
  Holds : ∀ {α : Type}, Context → (Nat → Resolving α) → (α → Prop) → Prop
  /-- The contexts in which the logic speaks of inline objects. -/
  Inline : Context → Prop
  pure : ∀ {α : Type} {c : Context} {a : α} {Q : α → Prop}, Q a → Holds c (fun _ => Pure.pure a) Q
  unsupported : ∀ {α : Type} {c : Context} {cause : Unsupported} {Q : α → Prop},
    Holds c (fun _ => throw (.unsupported cause)) Q
  bind : ∀ {α β : Type} {c : Context} {x : Nat → Resolving α} {f : Nat → α → Resolving β}
    {Q : α → Prop} {R : β → Prop}, Holds c x Q → (∀ a, Q a → Holds c (fun n => f n a) R) →
      Holds c (fun n => x n >>= f n) R
  get : ∀ {α : Type} {c : Context} {f : Nat → State → Resolving α} {Q : α → Prop},
    (∀ n cache origin, f n ⟨cache, c.movedTo origin⟩ = f n ⟨cache, c⟩) →
      (∀ cache, Holds c (fun n => f n ⟨cache, c⟩) Q) → Holds c (fun n => MonadState.get >>= f n) Q
  inline : ∀ {α : Type} {c : Context} {f : Nat → String → Resolving α} {Q : α → Prop}, Inline c →
    Holds c (fun n => f n c.inlineIdentity) Q →
      Holds c (fun n => MonadState.get >>= fun s => f n s.context.inlineIdentity) Q
  within : ∀ {α : Type} {c : Context} {x : Nat → Resolving α} {Q : α → Prop}
    {enter leave : Context → Context}, SparesOrigin enter → SparesOrigin leave → leave (enter c) = c →
      Holds (enter c) x Q → Holds c (fun n => Resolve.within enter leave (x n)) Q
  remembered? : ∀ {c : Context} {identity : String},
    Holds c (fun _ => Resolve.remembered? identity) fun _ => True
  remember : ∀ {c : Context} {identity : String} {t : WireType}, t.isClosed = true →
    Holds c (fun _ => Resolve.remember identity t) fun _ => True

/-! ## The names of type parameters -/

/-- Whether the names are those that the environment gives a value to. -/
def Names (environment : Table WireType) (names : List String) : Prop :=
  ∀ name, environment.has name = true ↔ name ∈ names

theorem names_keys (environment : Table WireType) : Names environment environment.keys := by
  intro name
  rw [Table.has, ← not_iff_not, Bool.not_eq_true, Option.isSome_eq_false_iff,
    Option.isNone_iff_eq_none, Table.get?_eq_none_iff]

theorem Names.put {environment : Table WireType} {names : List String} (h : Names environment names)
    (key : String) (t : WireType) : Names (environment.put key t) (names ++ [key]) := by
  intro name
  rw [List.mem_append, List.mem_singleton, ← h name, Table.has, Table.has]
  by_cases hname : name = key
  · subst hname
    simp
  · rw [Table.get?_put_of_ne _ hname]
    simp [hname]

/-- Whether an instance of a declaration may be expanded inside other expansions. -/
structure MayEnter (scope : Scope) (frames : List Frame) (d : TypeDecl) (frame : Frame) : Prop where
  isInstance : ∃ arguments, frame = frameOf d arguments
  new : frames.any (·.identity == frame.identity) = false
  shallow : frame.generic = true → frames.countP Frame.generic < scope.options.maxDepth

namespace Logic

variable (L : Logic) {c : Context} {Q : α → Prop} {R : β → Prop}

theorem weaken {x : Nat → Resolving α} {Q' : α → Prop} (h : L.Holds c x Q) (hQ : ∀ a, Q a → Q' a) :
    L.Holds c x Q' := by
  have hbind : L.Holds c (fun n => x n >>= Pure.pure) Q' :=
    L.bind (f := fun _ => Pure.pure) h fun a ha => L.pure (hQ a ha)
  simpa only [bind_pure] using hbind

theorem mapM {f : Nat → α → Resolving β} {P : α → Prop} (l : List α)
    (h : ∀ a ∈ l, L.Holds c (fun n => f n a) fun _ => P a) :
    L.Holds c (fun n => l.mapM (f n)) fun _ => ∀ a ∈ l, P a := by
  induction l with
  | nil =>
    simp only [List.mapM_nil]
    exact L.pure (by simp)
  | cons a l ih =>
    simp only [List.mapM_cons]
    refine L.bind (h a (List.mem_cons_self ..)) fun b hb => ?_
    refine L.bind (ih fun a' ha' => h a' (List.mem_cons_of_mem _ ha')) fun bs hbs => ?_
    exact L.pure (List.forall_mem_cons.mpr ⟨hb, hbs⟩)

theorem inField {x : Nat → Resolving α} {name : String} (h : L.Holds (c.pushField name) x Q) :
    L.Holds c (fun n => inField name (x n)) Q :=
  L.within (fun _ _ => rfl) (fun _ _ => rfl) rfl h

theorem inEnvironment {x : Nat → Resolving α} {environment : Table WireType}
    (h : L.Holds { c with environment := environment } x Q) :
    L.Holds c (fun n => inEnvironment environment (x n)) Q :=
  L.get (fun _ _ _ => rfl) fun _ => L.within (fun _ _ => rfl) (fun _ _ => rfl) rfl h

theorem inFrame {x : Nat → Resolving α} {frame : Frame} {environment : Table WireType}
    (h : L.Holds (c.enter frame environment) x Q) :
    L.Holds c (fun n => inFrame frame environment (x n)) Q :=
  L.get (fun _ _ _ => rfl) fun _ => L.within (fun _ _ => rfl) (fun _ _ => rfl) rfl h

/-! ## The resolver -/

variable {scope : Scope} {resolve : Nat → TypeExpr → Resolving WireType}
  {G : List String → TypeExpr → Prop} {frames : List Frame} {names : List String}

/-- Whether the logic says of a type expression, in every context with these expansions and these
names of type parameters, that it is resolved only if it has the property. -/
def Handles (resolve : Nat → TypeExpr → Resolving WireType) (G : List String → TypeExpr → Prop)
    (frames : List Frame) (names : List String) (t : TypeExpr) : Prop :=
  ∀ c : Context, c.frames = frames → Names c.environment names →
    L.Holds c (fun n => resolve n t) fun _ => G names t

/-- Whether the logic says so of all that a declaration is made of. -/
structure HandlesBody (resolve : Nat → TypeExpr → Resolving WireType)
    (G : List String → TypeExpr → Prop) (frames : List Frame) (names : List String) (d : TypeDecl) :
    Prop where
  opened : ∀ u ∈ d.body.opened, L.Handles resolve G frames names u
  fields : ∀ fs, d.body.fields? = some fs → ∀ f ∈ fs,
    L.Handles resolve G frames names f.type.stripUndefined.1

section

variable (hframes : c.frames = frames) (hnames : Names c.environment names)

include hframes hnames

theorem resolveFields {fields : List (FieldDecl TypeExpr)}
    (h : ∀ f ∈ fields, L.Handles resolve G frames names f.type.stripUndefined.1) :
    L.Holds c (fun n => resolveFields (resolve n) fields)
      fun _ => ∀ f ∈ fields, G names f.type.stripUndefined.1 := by
  refine L.mapM fields fun f hf => ?_
  exact L.bind (L.inField (h f hf (c.pushField f.name) hframes hnames)) fun _ ht => L.pure ht

theorem resolveBases (declaration : String) (bases : List TypeExpr) (merged : List (Field WireType))
    (h : ∀ b ∈ bases, L.Handles resolve G frames names b) :
    L.Holds c (fun n => resolveBases (resolve n) declaration bases merged) fun _ => True := by
  induction bases generalizing merged with
  | nil => exact L.pure trivial
  | cons base rest ih =>
    refine L.bind (h base (List.mem_cons_self ..) c hframes hnames) fun t _ => ?_
    cases t with
    | object identity name arguments fields =>
      exact ih _ fun b hb => h b (List.mem_cons_of_mem _ hb)
    | _ => exact L.unsupported

theorem resolveMembers (text : String) {members : List TypeExpr} (merged : List (Field WireType))
    (h : ∀ m ∈ members, L.Handles resolve G frames names m) :
    L.Holds c (fun n => resolveMembers (resolve n) text members merged)
      fun _ => ∀ m ∈ members, G names m := by
  induction members generalizing merged with
  | nil => exact L.pure (by simp)
  | cons member rest ih =>
    refine L.bind (h member (List.mem_cons_self ..) c hframes hnames) fun t ht => ?_
    cases t with
    | object identity name arguments fields =>
      refine L.bind (ih _ fun m hm => h m (List.mem_cons_of_mem _ hm)) fun _ hrest => ?_
      exact L.pure (List.forall_mem_cons.mpr ⟨ht, hrest⟩)
    | _ => exact L.unsupported

/-- Arguments have the names of the caller, and each default those of the parameters before it. -/
theorem bindParameters {parameters : List TypeParameter} {args : List TypeExpr}
    {environment : Table WireType} {bound : List String} (hbound : Names environment bound)
    (hlength : args.length ≤ parameters.length)
    (hargs : ∀ a ∈ args, L.Handles resolve G frames names a)
    (hfallbacks : ∀ x ∈ TypeParameter.fallbacks
      (bound ++ (parameters.take args.length).map (·.name)) (parameters.drop args.length),
      L.Handles resolve G frames x.1 x.2) :
    L.Holds c (fun n => bindParameters (resolve n) parameters args environment) fun r =>
      Names r.1 (bound ++ (parameters.take args.length).map (·.name) ++
        TypeParameter.defaulted (parameters.drop args.length)) ∧
      (∀ a ∈ args, G names a) ∧
      ∀ x ∈ TypeParameter.fallbacks (bound ++ (parameters.take args.length).map (·.name))
        (parameters.drop args.length), G x.1 x.2 := by
  induction parameters generalizing args environment bound with
  | nil =>
    obtain rfl : args = [] := List.eq_nil_of_length_eq_zero (Nat.le_zero.mp hlength)
    refine L.pure ⟨?_, by simp, by simp [TypeParameter.fallbacks]⟩
    simpa [TypeParameter.defaulted] using hbound
  | cons p rest ih =>
    cases args with
    | cons a args =>
      simp only [bindParameters_argument]
      have happend : bound ++ ((p :: rest).take (args.length + 1)).map (·.name) =
          bound ++ [p.name] ++ (rest.take args.length).map (·.name) := by simp
      rw [List.length_cons, happend, List.drop_succ_cons] at hfallbacks ⊢
      refine L.bind (hargs a (List.mem_cons_self ..) c hframes hnames) fun t ha => ?_
      refine L.bind (ih (hbound.put p.name t) (Nat.le_of_succ_le_succ hlength)
        (fun a' ha' => hargs a' (List.mem_cons_of_mem _ ha')) hfallbacks) fun r hr => ?_
      exact L.pure ⟨hr.1, List.forall_mem_cons.mpr ⟨ha, hr.2.1⟩, hr.2.2⟩
    | nil =>
      simp only [List.length_nil, List.take_zero, List.map_nil, List.append_nil, List.drop_zero]
        at ih hfallbacks ⊢
      cases hp : p.default with
      | some u =>
        have hcons : TypeParameter.fallbacks bound (p :: rest) =
            (bound, u) :: TypeParameter.fallbacks (bound ++ [p.name]) rest := by
          simp [TypeParameter.fallbacks, hp]
        have hdefaulted : bound ++ TypeParameter.defaulted (p :: rest) =
            bound ++ [p.name] ++ TypeParameter.defaulted rest := by
          simp [TypeParameter.defaulted, hp]
        rw [hcons] at hfallbacks ⊢
        simp only [bindParameters_default _ _ _ _ hp, hdefaulted]
        have hu := hfallbacks _ (List.mem_cons_self ..) { c with environment := environment } hframes hbound
        refine L.bind (L.inEnvironment hu) fun t ht => ?_
        refine L.bind (@ih [] _ _ (hbound.put p.name t) (Nat.zero_le _) (by simp)
          fun x hx => hfallbacks x (List.mem_cons_of_mem _ (by simpa using hx))) fun r hr => ?_
        simp only [List.length_nil, List.take_zero, List.map_nil, List.append_nil, List.drop_zero] at hr
        exact L.pure ⟨hr.1, by simp, List.forall_mem_cons.mpr ⟨ht, hr.2.2⟩⟩
      | none =>
        have hcons : TypeParameter.fallbacks bound (p :: rest) = TypeParameter.fallbacks bound rest := by
          simp [TypeParameter.fallbacks, hp]
        have hdefaulted : TypeParameter.defaulted (p :: rest) = TypeParameter.defaulted rest := by
          simp [TypeParameter.defaulted, hp]
        rw [hcons] at hfallbacks ⊢
        simp only [bindParameters_unbound _ _ _ _ hp, hdefaulted]
        refine L.bind (@ih [] _ _ hbound (Nat.zero_le _) (by simp)
          fun x hx => hfallbacks x (by simpa using hx)) fun r hr => ?_
        simp only [List.length_nil, List.take_zero, List.map_nil, List.append_nil, List.drop_zero] at hr
        exact L.pure hr

theorem expand {d : TypeDecl} (identity : String) (arguments : List WireType)
    (h : L.HandlesBody resolve G frames names d) :
    L.Holds c (fun n => expand (resolve n) d identity arguments) fun _ => True := by
  have hfields : ∀ fs, d.body.fields? = some fs →
      L.Holds c (fun n => Resolve.resolveFields (resolve n) fs) fun _ => True := fun fs hfs =>
    L.weaken (L.resolveFields hframes hnames (h.fields fs hfs)) fun _ _ => trivial
  cases d.form with
  | @interface bases fields hbody =>
    have hopened : d.body.opened = bases := by rw [hbody]; rfl
    have hbases := L.resolveBases hframes hnames d.name bases [] fun b hb =>
      h.opened b (hopened ▸ hb)
    simp only [expand_interface _ _ _ hbody]
    refine L.bind hbases fun inherited _ => ?_
    exact L.bind (hfields fields (by rw [hbody]; rfl)) fun own _ => L.pure trivial
  | @object fields hbody =>
    simp only [expand_object _ _ _ hbody]
    exact L.bind (hfields fields (by rw [hbody]; rfl)) fun gs _ => L.pure trivial
  | @synonym target hbody hnone =>
    have hopened := TypeBody.opened_of_synonym hbody hnone
    simp only [expand_synonym _ _ _ hbody hnone, expandSynonym]
    refine L.bind (h.opened target (by simp [hopened]) c hframes hnames) fun t _ => ?_
    by_cases hopen : t.openReferences.contains identity = true
    · simp only [if_pos hopen]
      exact L.unsupported
    · simp only [if_neg hopen]
      exact L.pure trivial
  | enumeration hbody hliterals =>
    simp only [expand_enumeration _ _ _ hbody hliterals]
    exact L.pure trivial
  | fault hfault =>
    obtain ⟨cause, hcause⟩ := expand_fault hfault
    simp only [hcause]
    exact L.unsupported

omit hnames in
theorem expandInstance {d : TypeDecl} {arguments : List WireType} {environment : Table WireType}
    {bound : List String} (hbound : Names environment bound)
    (hnew : c.isExpanding (instanceIdentity d arguments) = false)
    (h : MayEnter scope frames d (frameOf d arguments) →
      L.HandlesBody resolve G (frameOf d arguments :: frames) bound d) :
    L.Holds c (fun n => expandInstance scope (resolve n) d (instanceIdentity d arguments) environment
      arguments) fun _ => True := by
  unfold Resolve.expandInstance
  refine L.get (fun _ _ _ => rfl) fun _ => ?_
  by_cases hdeep : (!d.parameters.isEmpty && scope.options.maxDepth ≤ c.genericDepth) = true
  · simp only [if_pos hdeep]
    exact L.unsupported
  · have henter : MayEnter scope frames d (frameOf d arguments) := by
      refine ⟨⟨arguments, rfl⟩, by rw [← hframes]; exact hnew, fun hgeneric => ?_⟩
      have hgeneric : (!d.parameters.isEmpty) = true := hgeneric
      rw [hgeneric, Bool.true_and, decide_eq_true_eq, Nat.not_le] at hdeep
      rwa [← hframes]
    simp only [if_neg hdeep]
    have hexpand := L.expand (c := c.enter (frameOf d arguments) environment)
      (congrArg (_ :: ·) hframes) hbound
      (instanceIdentity d arguments) arguments (h henter)
    refine L.bind (L.inFrame hexpand) ?_
    rintro ⟨t, shareable⟩ -
    by_cases hs : (shareable && t.isClosed) = true
    · simp only [if_pos hs]
      exact L.bind (L.remember (Bool.and_eq_true_iff.mp hs).2) fun _ _ => L.pure trivial
    · simp only [if_neg hs]
      exact L.pure trivial

theorem resolveDeclaration {d : TypeDecl} {args : List TypeExpr}
    (hargs : ∀ a ∈ args, L.Handles resolve G frames names a)
    (hfallbacks : ∀ x ∈ d.fallbacks args.length, L.Handles resolve G frames x.1 x.2)
    (h : ∀ frame, MayEnter scope frames d frame →
      L.HandlesBody resolve G (frame :: frames) (d.boundNames args.length) d) :
    L.Holds c (fun n => resolveDeclaration scope (resolve n) d args) fun _ =>
      (∀ a ∈ args, G names a) ∧ ∀ x ∈ d.fallbacks args.length, G x.1 x.2 := by
  unfold Resolve.resolveDeclaration
  by_cases hlength : d.parameters.length < args.length
  · simp only [if_pos hlength]
    exact L.unsupported
  · simp only [if_neg hlength]
    have hempty : Names [] [] := fun name => by simp [Table.has, Table.get?]
    have hbind := L.bindParameters hframes hnames hempty (Nat.not_lt.mp hlength) hargs hfallbacks
    refine L.bind hbind ?_
    rintro ⟨environment, values⟩ ⟨hbound, hG⟩
    refine L.get (fun _ _ _ => rfl) fun _ => ?_
    dsimp only
    cases hnew : c.isExpanding (instanceIdentity d values) with
    | true => exact L.pure hG
    | false =>
      refine L.bind L.remembered? fun found _ => ?_
      cases found with
      | some t => exact L.pure hG
      | none => exact L.weaken (L.expandInstance hframes hbound hnew (h _)) fun _ _ => hG

theorem resolveBuiltin (name : String) {args : List TypeExpr}
    (hargs : ∀ a ∈ args, L.Handles resolve G frames names a) :
    L.Holds c (fun n => resolveBuiltin (resolve n) name args) fun _ => ∀ a ∈ args, G names a := by
  unfold Resolve.resolveBuiltin
  cases builtin? name with
  | none => exact L.unsupported
  | some b =>
    by_cases harity : args.length = b.arity
    · simp only [if_pos harity]
      refine L.bind (L.mapM args fun a ha => hargs a ha c hframes hnames) fun ws hws => L.pure hws
    · simp only [if_neg harity]
      exact L.unsupported

/-- What a name means unless it is that of a type parameter. -/
theorem resolveGlobal {name : String} {args : List TypeExpr}
    (hargs : scope.options.nameOnly.contains name = false →
      ∀ a ∈ args, L.Handles resolve G frames names a)
    (hfallbacks : ∀ d, scope.declaration? (.reference name args) = some d →
      ∀ x ∈ d.fallbacks args.length, L.Handles resolve G frames x.1 x.2)
    (h : ∀ d, scope.declaration? (.reference name args) = some d → ∀ frame,
      MayEnter scope frames d frame →
        L.HandlesBody resolve G (frame :: frames) (d.boundNames args.length) d) :
    L.Holds c (fun n => resolveGlobal scope (resolve n) name args) fun _ =>
      (scope.options.nameOnly.contains name = false → ∀ a ∈ args, G names a) ∧
      ∀ d, scope.declaration? (.reference name args) = some d →
        ∀ x ∈ d.fallbacks args.length, G x.1 x.2 := by
  cases hkept : scope.options.nameOnly.contains name with
  | true =>
    simp only [resolveGlobal_unexpanded _ _ _ _ hkept, Scope.declaration?_kept hkept]
    exact L.pure ⟨fun hfalse => (by cases hfalse), by simp⟩
  | false =>
    have hargs := hargs hkept
    simp only [Scope.declaration?_free hkept] at hfallbacks h ⊢
    cases hlookup : lookupType scope.types name with
    | some d =>
      simp only [resolveGlobal_declared _ _ _ _ hkept hlookup]
      refine L.weaken (L.resolveDeclaration hframes hnames hargs (hfallbacks d hlookup)
        (h d hlookup)) fun _ hG => ⟨fun _ => hG.1, ?_⟩
      rintro _ ⟨⟩
      exact hG.2
    | none =>
      simp only [resolveGlobal_builtin _ _ _ _ hkept hlookup]
      exact L.weaken (L.resolveBuiltin hframes hnames name hargs) fun _ hG => ⟨fun _ => hG, by simp⟩

omit hframes in
theorem parameterValue? (name : String) :
    L.Holds c (fun _ => parameterValue? name) fun found => found.isSome = true ↔ name ∈ names :=
  L.get (f := fun _ s => Pure.pure (s.context.environment.get? name)) (fun _ _ _ => rfl) fun _ =>
    L.pure (hnames name)

theorem resolveReference {name : String} {args : List TypeExpr}
    (hargs : scope.options.nameOnly.contains name = false →
      ∀ a ∈ args, L.Handles resolve G frames names a)
    (hfallbacks : ∀ d given, (TypeExpr.reference name args).Mentions scope names d given →
      ∀ x ∈ d.fallbacks given, L.Handles resolve G frames x.1 x.2)
    (h : ∀ d given, (TypeExpr.reference name args).Mentions scope names d given → ∀ frame,
      MayEnter scope frames d frame →
        L.HandlesBody resolve G (frame :: frames) (d.boundNames given) d) :
    L.Holds c (fun n => resolveReference scope (resolve n) name args) fun _ =>
      (scope.options.nameOnly.contains name = false → ∀ a ∈ args, G names a) ∧
      ∀ d given, (TypeExpr.reference name args).Mentions scope names d given →
        ∀ x ∈ d.fallbacks given, G x.1 x.2 := by
  -- A name that is not that of a bound type parameter.
  have hglobal : (args = [] → name ∉ names) → L.Holds c (fun n =>
      Resolve.resolveGlobal scope (resolve n) name args) fun _ =>
      (scope.options.nameOnly.contains name = false → ∀ a ∈ args, G names a) ∧
      ∀ d given, (TypeExpr.reference name args).Mentions scope names d given →
        ∀ x ∈ d.fallbacks given, G x.1 x.2 := by
    intro hfree
    refine L.weaken (L.resolveGlobal hframes hnames hargs
      (fun d hd => hfallbacks d _ (.reference hd hfree))
      fun d hd => h d _ (.reference hd hfree)) fun _ hG => ⟨hG.1, ?_⟩
    rintro d _ (⟨hd, _⟩)
    exact hG.2 d hd
  cases args with
  | nil =>
    simp only [resolveReference_bare]
    refine L.bind (L.parameterValue? hnames name) fun bound hbound => ?_
    cases bound with
    | none => exact hglobal fun _ hmem => by simpa using hbound.mpr hmem
    | some t =>
      refine L.pure ⟨by simp, ?_⟩
      rintro d _ (⟨_, hfree⟩)
      exact absurd (hbound.mp rfl) (hfree rfl)
  | cons a args =>
    simp only [resolveReference_applied _ _ _ (List.cons_ne_nil a args)]
    exact hglobal (by simp)

/-! ## Type expressions -/

/-- What a logic says of all that a type expression needs, it says of the type expression; if that is
resolved, all that has to be resolved before any expansion has the property. -/
theorem resolveStep (t : TypeExpr) (hinline : ∀ fs, t = .object fs → L.Inline c)
    (hparts : ∀ u, t.Part scope u → L.Handles resolve G frames names u)
    (hfallbacks : ∀ d given, t.Mentions scope names d given →
      ∀ x ∈ d.fallbacks given, L.Handles resolve G frames x.1 x.2)
    (h : ∀ d given, t.Mentions scope names d given → ∀ frame, MayEnter scope frames d frame →
      L.HandlesBody resolve G (frame :: frames) (d.boundNames given) d) :
    L.Holds c (fun n => resolveStep scope (resolve n) t) fun _ =>
      (∀ u, t.Part scope u → G names u) ∧
      ∀ d given, t.Mentions scope names d given → ∀ x ∈ d.fallbacks given, G x.1 x.2 := by
  have hnot : ∀ {t : TypeExpr}, scope.declaration? t = none → ∀ d given,
      t.Mentions scope names d given → ∀ x ∈ d.fallbacks given, G x.1 x.2 := by
    rintro _ hnone d _ (⟨hd, _⟩)
    simp [hnone] at hd
  cases t with
  | keyword name =>
    dsimp only [Resolve.resolveStep]
    cases keywordPrimitive name with
    | ok p => exact L.pure ⟨fun _ hu => (by cases hu), hnot rfl⟩
    | error reason => exact L.unsupported
  | literal value =>
    dsimp only [Resolve.resolveStep]
    split
    · exact L.pure ⟨fun _ hu => (by cases hu), hnot rfl⟩
    · exact L.pure ⟨fun _ hu => (by cases hu), hnot rfl⟩
    · exact L.unsupported
  | array element =>
    have helement := hparts element .element (c.pushField "[]") hframes hnames
    refine L.bind (L.inField helement) fun t ht => L.pure ⟨?_, hnot rfl⟩
    rintro _ (_ | _)
    exact ht
  | tuple elements =>
    cases elements with
    | nil => exact L.unsupported
    | cons e es =>
      refine L.bind (L.mapM (e :: es) fun e' he => hparts e' (.component he) c hframes hnames)
        fun ts hts => L.pure ⟨?_, hnot rfl⟩
      rintro u hu
      cases hu with
      | component he => exact hts u he
  | union members =>
    refine L.bind (L.mapM members fun m hm => hparts m (.alternative hm) c hframes hnames)
      fun ts hts => L.pure ⟨?_, hnot rfl⟩
    rintro u hu
    cases hu with
    | alternative hm => exact hts u hm
  | intersection members =>
    refine L.bind (L.resolveMembers hframes hnames _ [] fun m hm => hparts m (.member hm))
      fun r hr => L.pure ⟨?_, hnot rfl⟩
    rintro u hu
    cases hu with
    | member hm => exact hr u hm
  | reference name args =>
    refine L.weaken (L.resolveReference hframes hnames
      (fun hname a ha => hparts a (.argument hname ha)) hfallbacks h) fun _ hG => ⟨?_, hG.2⟩
    rintro u hu
    cases hu with
    | argument hname ha => exact hG.1 hname u ha
  | parameter name =>
    refine L.bind (L.parameterValue? hnames name) fun found _ => ?_
    cases found with
    | some t => exact L.pure ⟨fun _ hu => (by cases hu), hnot rfl⟩
    | none => exact L.pure ⟨fun _ hu => (by cases hu), hnot rfl⟩
  | object fields =>
    refine L.inline (f := fun n identity => Resolve.resolveFields (resolve n) fields >>= fun gs =>
      Pure.pure (WireType.object identity none [] gs)) (hinline fields rfl) ?_
    refine L.bind (L.resolveFields hframes hnames fun f hf => hparts _ (.field hf))
      fun gs hgs => L.pure ⟨?_, hnot rfl⟩
    rintro u hu
    cases hu with
    | field hf => exact hgs _ hf
  | function parameters result => exact L.unsupported

end

end Logic

end AnnotatedApi.Resolve
