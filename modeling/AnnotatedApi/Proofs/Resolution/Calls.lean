import AnnotatedApi.Proofs.Resolution.Equations
import AnnotatedApi.Proofs.Resolution.Objects

/-!
# The calls that a step makes

A step resolves the type expressions inside a type expression by a function that it is given. Which
calls it makes of this function can be seen from outside: it makes a call if it fails with whatever the
call fails with. A step depends on nothing but its calls, for two functions that it is given behave
alike up to the first call at which they differ.
-/

namespace AnnotatedApi.Resolve

set_option autoImplicit false

variable {α β : Type}

/-- A way to resolve types, but for one call, which fails. -/
noncomputable def failing (resolve : TypeExpr → Resolving WireType) (u : TypeExpr) (s : State)
    (e : Failure) : TypeExpr → Resolving WireType := fun t s' =>
  open Classical in if t = u ∧ s' = s then .error e s' else resolve t s'

/-- Whether a resolution that is built on `resolve` makes a call when it starts in the state `S`: it
fails with whatever the call fails with. -/
def Asks (x : (TypeExpr → Resolving WireType) → Resolving α) (resolve : TypeExpr → Resolving WireType)
    (S : State) (u : TypeExpr) (s : State) : Prop :=
  ∀ e, ∃ s', x (failing resolve u s e) S = .error e s'

/-- A way to resolve types that only some calls may be made of. -/
noncomputable def restricted (resolve : TypeExpr → Resolving WireType)
    (K : TypeExpr → State → Prop) : TypeExpr → Resolving WireType := fun t s =>
  open Classical in if K t s then resolve t s else .error .exhausted s

theorem restricted_of {resolve : TypeExpr → Resolving WireType} {K : TypeExpr → State → Prop}
    {t : TypeExpr} {s : State} (h : K t s) : restricted resolve K t s = resolve t s :=
  if_pos h

theorem restricted_of_not {resolve : TypeExpr → Resolving WireType} {K : TypeExpr → State → Prop}
    {t : TypeExpr} {s : State} (h : ¬ K t s) : restricted resolve K t s = .error .exhausted s :=
  if_neg h

theorem of_restricted_eq_ok {resolve : TypeExpr → Resolving WireType} {K : TypeExpr → State → Prop}
    {t : TypeExpr} {s next : State} {w : WireType} (h : restricted resolve K t s = .ok w next) :
    K t s ∧ resolve t s = .ok w next := by
  by_cases hK : K t s
  · exact ⟨hK, (restricted_of hK).symm.trans h⟩
  · rw [restricted_of_not hK] at h
    cases h

/-- Whether a resolution depends on its calls alone: where two functions make a difference to it, it makes
a call at which they differ. -/
def Sequential (x : (TypeExpr → Resolving WireType) → Resolving α) : Prop :=
  ∀ f g S, x f S = x g S ∨ ∃ u s, f u s ≠ g u s ∧ Asks x f S u s

namespace Sequential

variable {x : (TypeExpr → Resolving WireType) → Resolving α}

/-- A resolution does the same if only the calls may be made that it makes. -/
theorem restricted_eq (h : Sequential x) (resolve : TypeExpr → Resolving WireType) (S : State) :
    x (restricted resolve (Asks x resolve S)) S = x resolve S := by
  rcases h resolve (restricted resolve (Asks x resolve S)) S with heq | ⟨u, s, hne, hasks⟩
  · exact heq.symm
  · exact absurd (restricted_of hasks).symm hne

/-- What succeeds with some calls only does so with all of them. -/
theorem of_restricted_eq_ok (h : Sequential x) {resolve : TypeExpr → Resolving WireType}
    {K : TypeExpr → State → Prop} {S S' : State} {a : α} (ha : x (restricted resolve K) S = .ok a S') :
    x resolve S = .ok a S' := by
  rcases h (restricted resolve K) resolve S with heq | ⟨u, s, hne, hasks⟩
  · exact heq.symm.trans ha
  · have hK : ¬ K u s := fun hK => hne (restricted_of hK)
    have hfailing : failing (restricted resolve K) u s .exhausted = restricted resolve K := by
      funext t s'
      by_cases hcall : t = u ∧ s' = s
      · obtain ⟨rfl, rfl⟩ := hcall
        exact (if_pos ⟨rfl, rfl⟩).trans (restricted_of_not hK).symm
      · exact if_neg hcall
    -- The step would fail with the call that it may not make.
    obtain ⟨s', hs'⟩ := hasks .exhausted
    rw [hfailing, ha] at hs'
    cases hs'

/-! ## How resolutions are put together -/

theorem const (x : Resolving α) : Sequential fun _ => x := fun _ _ _ => .inl rfl

theorem call (t : TypeExpr) : Sequential fun resolve => resolve t := by
  intro f g S
  by_cases heq : f t S = g t S
  · exact .inl heq
  · exact .inr ⟨t, S, heq, fun e => ⟨S, if_pos ⟨rfl, rfl⟩⟩⟩

theorem bind {k : (TypeExpr → Resolving WireType) → α → Resolving β} (hx : Sequential x)
    (hk : ∀ a, Sequential fun resolve => k resolve a) :
    Sequential fun resolve => x resolve >>= k resolve := by
  intro f g S
  have hfirst : ∀ {u s}, Asks x f S u s → Asks (fun resolve => x resolve >>= k resolve) f S u s := by
    intro u s hasks e
    obtain ⟨s', hs'⟩ := hasks e
    exact ⟨s', bind_of_error hs'⟩
  rcases hx f g S with heq | ⟨u, s, hne, hasks⟩
  · cases hf : x f S with
    | error e S' => exact .inl ((bind_of_error hf).trans (bind_of_error (heq ▸ hf)).symm)
    | ok a S' =>
      rcases hk a f g S' with heq' | ⟨u, s, hne, hasks⟩
      · exact .inl ((bind_of_ok hf).trans (heq'.trans (bind_of_ok (heq ▸ hf)).symm))
      · refine .inr ⟨u, s, hne, fun e => ?_⟩
        -- The first part comes to the second one also if the call fails, unless it makes the call itself.
        rcases hx f (failing f u s e) S with hsame | ⟨v, r, hdiffer, hasks'⟩
        · obtain ⟨s', hs'⟩ := hasks e
          exact ⟨s', (bind_of_ok (hsame ▸ hf)).trans hs'⟩
        · have hcall : v = u ∧ r = s := by
            by_contra hnot
            exact hdiffer (if_neg hnot).symm
          obtain ⟨rfl, rfl⟩ := hcall
          exact hfirst hasks' e
  · exact .inr ⟨u, s, hne, hfirst hasks⟩

theorem within {enter leave : Context → Context} (hx : Sequential x) :
    Sequential fun resolve => Resolve.within enter leave (x resolve) := by
  intro f g S
  rcases hx f g { S with context := enter S.context } with heq | ⟨u, s, hne, hasks⟩
  · exact .inl (by simp only [Resolve.within, heq])
  · refine .inr ⟨u, s, hne, fun e => ?_⟩
    obtain ⟨s', hs'⟩ := hasks e
    exact ⟨{ s' with context := leave s'.context }, by simp only [Resolve.within, hs']⟩

theorem get {k : (TypeExpr → Resolving WireType) → State → Resolving β}
    (hk : ∀ s, Sequential fun resolve => k resolve s) :
    Sequential fun resolve => MonadState.get >>= k resolve :=
  (const MonadState.get).bind hk

theorem inField {name : String} (hx : Sequential x) :
    Sequential fun resolve => inField name (x resolve) :=
  hx.within

theorem inEnvironment {environment : Table WireType} (hx : Sequential x) :
    Sequential fun resolve => inEnvironment environment (x resolve) :=
  .get fun _ => hx.within

theorem inFrame {frame : Frame} {environment : Table WireType} (hx : Sequential x) :
    Sequential fun resolve => inFrame frame environment (x resolve) :=
  .get fun _ => hx.within

theorem mapM {k : (TypeExpr → Resolving WireType) → α → Resolving β}
    (hk : ∀ a, Sequential fun resolve => k resolve a) (l : List α) :
    Sequential fun resolve => l.mapM (k resolve) := by
  induction l with
  | nil => exact const (pure [])
  | cons a l ih =>
    simp only [List.mapM_cons]
    exact (hk a).bind fun b => ih.bind fun bs => const (pure (b :: bs))

/-! ## The resolver -/

variable (scope : Scope)

theorem resolveField (f : FieldDecl TypeExpr) : Sequential fun resolve => resolveField resolve f :=
  (call f.type.stripUndefined.1).inField.bind fun w => const (pure (f.resolved w))

theorem resolveFields (fields : List (FieldDecl TypeExpr)) :
    Sequential fun resolve => resolveFields resolve fields :=
  mapM resolveField fields

theorem resolveBases (declaration : String) (bases : List TypeExpr) (merged : List (Field WireType)) :
    Sequential fun resolve => resolveBases resolve declaration bases merged := by
  induction bases generalizing merged with
  | nil => exact const (pure merged)
  | cons base rest ih =>
    refine (call base).bind fun t => ?_
    cases t with
    | object identity name arguments fields => exact ih _
    | _ => exact const (Resolve.unsupported _ _)

theorem resolveMembers (text : String) (members : List TypeExpr) (merged : List (Field WireType)) :
    Sequential fun resolve => resolveMembers resolve text members merged := by
  induction members generalizing merged with
  | nil => exact const (pure ([], [], merged))
  | cons member rest ih =>
    refine (call member).bind fun t => ?_
    cases t with
    | object identity name arguments fields => exact (ih _).bind fun _ => const (pure _)
    | _ => exact const (Resolve.unsupported _ _)

theorem bindParameters (parameters : List TypeParameter) (arguments : List TypeExpr)
    (environment : Table WireType) :
    Sequential fun resolve => bindParameters resolve parameters arguments environment := by
  induction parameters generalizing arguments environment with
  | nil => exact const (pure (environment, []))
  | cons p rest ih =>
    cases arguments with
    | cons argument arguments =>
      simp only [bindParameters_argument]
      exact (call argument).bind fun t => (ih _ _).bind fun r => const (pure _)
    | nil =>
      cases hp : p.default with
      | some default =>
        simp only [bindParameters_default _ _ _ _ hp]
        exact (call default).inEnvironment.bind fun t => (ih _ _).bind fun r => const (pure _)
      | none =>
        simp only [bindParameters_unbound _ _ _ _ hp]
        exact (ih _ _).bind fun r => const (pure _)

theorem expand (d : TypeDecl) (identity : String) (arguments : List WireType) :
    Sequential fun resolve => expand resolve d identity arguments := by
  cases d.form with
  | @interface bases fields hbody =>
    simp only [expand_interface _ _ _ hbody]
    exact (resolveBases _ _ _).bind fun inherited => (resolveFields fields).bind fun own =>
      const (pure _)
  | @object fields hbody =>
    simp only [expand_object _ _ _ hbody]
    exact (resolveFields fields).bind fun own => const (pure _)
  | @synonym target hbody hnone =>
    simp only [expand_synonym _ _ _ hbody hnone]
    exact (call target).bind fun t => const _
  | enumeration hbody hliterals =>
    simp only [expand_enumeration _ _ _ hbody hliterals]
    exact const _
  | fault hfault =>
    obtain ⟨cause, hcause⟩ := expand_fault hfault
    simp only [hcause]
    exact const _

theorem expandInstance (d : TypeDecl) (identity : String) (environment : Table WireType)
    (arguments : List WireType) :
    Sequential fun resolve => expandInstance scope resolve d identity environment arguments := by
  refine get fun s => ?_
  dsimp only
  split
  · exact const _
  · exact (expand d identity arguments).inFrame.bind fun r => const _

theorem resolveDeclaration (d : TypeDecl) (arguments : List TypeExpr) :
    Sequential fun resolve => resolveDeclaration scope resolve d arguments := by
  unfold Resolve.resolveDeclaration
  split
  · exact const _
  · refine (bindParameters d.parameters arguments []).bind fun (environment, values) => get fun s => ?_
    split
    · exact const _
    · refine (const _).bind fun found => ?_
      cases found with
      | some t => exact const _
      | none => exact expandInstance scope d _ _ _

theorem resolveBuiltin (name : String) (arguments : List TypeExpr) :
    Sequential fun resolve => resolveBuiltin resolve name arguments := by
  unfold Resolve.resolveBuiltin
  cases builtin? name with
  | none => exact const _
  | some b =>
    dsimp only
    split
    · exact (mapM call arguments).bind fun ws => const _
    · exact const _

theorem resolveGlobal (name : String) (arguments : List TypeExpr) :
    Sequential fun resolve => resolveGlobal scope resolve name arguments := by
  unfold Resolve.resolveGlobal
  split
  · exact const _
  · split
    · exact resolveDeclaration scope _ arguments
    · exact resolveBuiltin name arguments

theorem resolveReference (name : String) (arguments : List TypeExpr) :
    Sequential fun resolve => resolveReference scope resolve name arguments := by
  cases arguments with
  | nil =>
    simp only [resolveReference_bare]
    refine (const _).bind fun bound => ?_
    cases bound with
    | some t => exact const _
    | none => exact resolveGlobal scope name []
  | cons a arguments =>
    simp only [resolveReference_applied _ _ _ (List.cons_ne_nil a arguments)]
    exact resolveGlobal scope name _

/-- A step depends on its calls alone. -/
theorem resolveStep (t : TypeExpr) : Sequential fun resolve => resolveStep scope resolve t := by
  cases t with
  | keyword name => exact const _
  | literal value => exact const _
  | array element => exact (call element).inField.bind fun t => const _
  | tuple elements =>
    cases elements with
    | nil => exact const _
    | cons e elements => exact (mapM call (e :: elements)).bind fun ts => const _
  | union members => exact (mapM call members).bind fun ts => const _
  | intersection members => exact (resolveMembers _ members []).bind fun r => const _
  | parameter name => exact const _
  | reference name arguments => exact resolveReference scope name arguments
  | object fields => exact get fun s => (resolveFields fields).bind fun gs => const _
  | function parameters result => exact const _

end Sequential

end AnnotatedApi.Resolve
