import AnnotatedApi.Proofs.Resolution.Logic

/-!
# When resolution comes to an end

Expansions cannot go on for ever: a declaration without type parameters is expanded once at a time,
and instances of generic ones are counted. Inside one expansion a type expression leads to its parts,
which are smaller, and to defaults of type parameters, which may be anything. So resolution comes to
an end if all that a type expression leads to is grounded; and if it is not grounded itself, no depth
of recursion yields a type.
-/

namespace AnnotatedApi

set_option autoImplicit false

namespace Resolve

/-! ## Two logics -/

/-- From some depth of recursion on, the resolution does the same in every state with this context: it
succeeds or fails, but not for want of depth. -/
def Ends {α : Type} (c : Context) (x : Nat → Resolving α) (Q : α → Prop) : Prop :=
  ∀ cache, ∃ depth result, (∀ more, depth ≤ more → x more ⟨cache, c⟩ = result) ∧
    match result with
    | .ok a s => s.context = c ∧ Q a
    | .error e s => s.context = c ∧ e ≠ .exhausted

namespace Ends

variable {α β : Type} {c : Context} {Q : α → Prop} {R : β → Prop}

theorem of_steady {x : Resolving α} (h : Steady (fun _ => True) c x Q (· ≠ .exhausted)) :
    Ends c (fun _ => x) Q := by
  intro cache
  refine ⟨0, _, fun _ _ => rfl, ?_⟩
  have hs : (⟨cache, c⟩ : State).context = c ∧ True := ⟨rfl, trivial⟩
  cases hx : x ⟨cache, c⟩ with
  | ok a s =>
    obtain ⟨hcontext, ha⟩ := h.ok hs hx
    exact ⟨hcontext.1, ha⟩
  | error e s =>
    obtain ⟨hcontext, he⟩ := h.error hs hx
    exact ⟨hcontext.1, he⟩

theorem bind {x : Nat → Resolving α} {f : Nat → α → Resolving β} (hx : Ends c x Q)
    (hf : ∀ a, Q a → Ends c (fun n => f n a) R) : Ends c (fun n => x n >>= f n) R := by
  intro cache
  obtain ⟨depth, result, hresult, hends⟩ := hx cache
  cases result with
  | ok a s =>
    obtain ⟨cache', c'⟩ := s
    obtain ⟨rfl, ha⟩ := hends
    obtain ⟨depth', result', hresult', hends'⟩ := hf a ha cache'
    refine ⟨max depth depth', result', fun more hmore => ?_, hends'⟩
    exact (bind_of_ok (hresult more (by omega))).trans (hresult' more (by omega))
  | error e s =>
    exact ⟨depth, .error e s, fun more hmore => bind_of_error (hresult more hmore), hends⟩

theorem within {x : Nat → Resolving α} {enter leave : Context → Context}
    (hc : leave (enter c) = c) (hx : Ends (enter c) x Q) :
    Ends c (fun n => Resolve.within enter leave (x n)) Q := by
  intro cache
  obtain ⟨depth, result, hresult, hends⟩ := hx cache
  cases result with
  | ok a s =>
    refine ⟨depth, .ok a { s with context := leave s.context }, fun more hmore => ?_, ?_, hends.2⟩
    · simp only [Resolve.within, hresult more hmore]
    · rw [hends.1, hc]
  | error e s =>
    refine ⟨depth, .error e { s with context := leave s.context }, fun more hmore => ?_, ?_, hends.2⟩
    · simp only [Resolve.within, hresult more hmore]
    · rw [hends.1, hc]

/-- One step more makes no difference. -/
theorem of_succ {x : Nat → Resolving α} (h : Ends c (fun n => x (n + 1)) Q) : Ends c x Q := by
  intro cache
  obtain ⟨depth, result, hresult, hends⟩ := h cache
  refine ⟨depth + 1, result, fun more hmore => ?_, hends⟩
  obtain ⟨n, rfl⟩ : ∃ n, more = n + 1 := ⟨more - 1, by omega⟩
  exact hresult n (by omega)

end Ends

/-- The logic of resolutions that come to an end. -/
def endings : Logic where
  Holds := Ends
  Inline _ := True
  pure ha := .of_steady (.pure ha)
  unsupported := .of_steady (.throw (by simp))
  bind := .bind
  get _ h := fun cache => h cache cache
  inline _ h := h
  within _ _ := .within
  remembered? := .of_steady (steady_remembered?_of_foreign _ _ (by simp))
  remember ht := .of_steady (steady_remember_of_closed _ _ ht)

/-- The logic of what is known of a type expression once it is resolved. -/
def successes : Logic where
  Holds c x Q := ∀ n, Steady (fun _ => True) c (x n) Q fun _ => True
  Inline _ := True
  pure ha _ := .pure ha
  unsupported _ := .throw trivial
  bind hx hf n := Keeps.bind (hx n) fun a ha => hf a ha n
  get _ h n := .get fun cache => h cache n
  inline _ h n := .get fun _ => h n
  within _ _ hc hx n := (hx n).within hc
  remembered? _ := steady_remembered?_of_foreign _ _ (by simp)
  remember ht _ := steady_remember_of_closed _ _ ht

/-! ## How many expansions there can be -/

theorem countP_lt {α : Type} {p q : α → Bool} {l : List α} {a : α} (hpq : ∀ b, p b = true → q b = true)
    (ha : a ∈ l) (hp : p a = false) (hq : q a = true) : l.countP p < l.countP q := by
  obtain ⟨before, after, rfl⟩ := List.append_of_mem ha
  have hbefore : before.countP p ≤ before.countP q := List.countP_mono_left fun b _ => hpq b
  have hafter : after.countP p ≤ after.countP q := List.countP_mono_left fun b _ => hpq b
  rw [List.countP_append, List.countP_append, List.countP_cons_of_neg (by simp [hp]),
    List.countP_cons_of_pos hq]
  omega

/-- Whether a declaration without type parameters is not being expanded. -/
def idle (frames : List Frame) (d : TypeDecl) : Bool :=
  d.parameters.isEmpty && !frames.any (·.identity == d.qualifiedName)

/-- How many expansions can still be entered inside the given ones. -/
def vacancies (scope : Scope) (frames : List Frame) : Nat :=
  scope.types.countP (idle frames) + (scope.options.maxDepth - frames.countP Frame.generic)

theorem vacancies_lt {scope : Scope} {frames : List Frame} {d : TypeDecl} {frame : Frame}
    (hd : d ∈ scope.types) (h : MayEnter scope frames d frame) :
    vacancies scope (frame :: frames) < vacancies scope frames := by
  obtain ⟨⟨arguments, rfl⟩, hnew, hshallow⟩ := h
  have hidle : ∀ e, idle (frameOf d arguments :: frames) e = true → idle frames e = true := by
    intro e he
    simp only [idle, List.any_cons, Bool.and_eq_true, Bool.not_eq_true', Bool.or_eq_false_iff] at he ⊢
    exact ⟨he.1, he.2.2⟩
  cases hgeneric : d.parameters.isEmpty with
  | false =>
    -- An instance of a generic declaration is counted.
    have hframe : (frameOf d arguments).generic = true := by simp [frameOf, hgeneric]
    have hlt := hshallow hframe
    have hle : scope.types.countP (idle (frameOf d arguments :: frames)) ≤
        scope.types.countP (idle frames) := List.countP_mono_left fun e _ => hidle e
    rw [vacancies, vacancies, List.countP_cons_of_pos hframe]
    omega
  | true =>
    -- Any other declaration was idle and is so no longer.
    have hframe : ¬ (frameOf d arguments).generic = true := by simp [frameOf, hgeneric]
    have hidentity : (frameOf d arguments).identity = d.qualifiedName := by
      simp [frameOf, instanceIdentity, hgeneric]
    have hbusy : idle (frameOf d arguments :: frames) d = false := by simp [idle, hidentity]
    have hfree : idle frames d = true := by
      rw [hidentity] at hnew
      simp [idle, hgeneric, hnew]
    have hlt := countP_lt hidle hd hbusy hfree
    rw [vacancies, vacancies, List.countP_cons_of_neg hframe]
    omega

/-! ## The resolver -/

variable {scope : Scope}

/-- A type expression that is resolved at some depth of recursion is grounded. -/
theorem successes_resolveType (depth : Nat) (frames : List Frame) (names : List String)
    (t : TypeExpr) :
    successes.Handles (fun _ => resolveType scope depth) (TypeExpr.Grounded scope) frames names t := by
  induction depth generalizing frames names t with
  | zero => exact fun c _ _ _ => .throw trivial
  | succ depth ih =>
    intro c hframes hnames
    refine successes.weaken (successes.resolveStep hframes hnames t (fun _ _ => trivial)
      (fun u _ => ih frames names u) (fun _ _ _ x _ => ih frames x.1 x.2)
      fun d given _ frame _ => ?_) fun _ hG => .intro hG.1 hG.2
    exact ⟨fun u _ => ih _ _ u, fun _ _ f _ => ih _ _ _⟩

/-- A type expression is resolved to an end if all that it leads to is grounded. The induction is on
the expansions that can still be entered, and inside one expansion on what the type expression
demands. -/
theorem endings_resolveType (frames : List Frame) (names : List String) (t : TypeExpr)
    (h : t.AllGrounded scope names) :
    endings.Handles (resolveType scope) (fun _ _ => True) frames names t := by
  induction hn : vacancies scope frames using Nat.strongRecOn generalizing frames names t with
  | ind n outer =>
    subst hn
    have hgrounded := h.grounded
    induction hgrounded with
    | @intro names t _ _ hparts hfallbacks =>
      intro c hframes hnames
      refine Ends.of_succ (endings.weaken (endings.resolveStep hframes hnames t (fun _ _ => trivial)
        (fun u hu => hparts u hu (h.part hu))
        (fun d given hd x hx => hfallbacks d given hd x hx (h.default hd hx))
        fun d given hd frame henter => ?_) fun _ _ => trivial)
      have hmem : d ∈ scope.types := by
        cases hd with
        | reference hd _ => exact Scope.mem_of_declaration? hd
      have hlt := vacancies_lt hmem henter
      constructor
      · intro u hu
        exact outer _ hlt _ _ u (h.inside hd (List.mem_append_right _ hu)) rfl
      · intro fs hfs f hf
        have hneeds : TypeExpr.object fs ∈ d.body.needs := by
          rw [TypeBody.needs_of_fields? hfs]
          exact List.mem_cons_self ..
        exact outer _ hlt _ _ _ ((h.inside hd hneeds).part (.field hf)) rfl

end Resolve

open Resolve

namespace Resolver

/-- A call comes to an end, with the same answer at every greater depth of recursion, if all that the
type expression leads to is grounded. A type comes out only if the type expression is grounded. -/
theorem resolve_ends (r : Resolver) (t : TypeExpr) (c : Context) :
    (t.AllGrounded r.scope c.environment.keys → ∃ depth result cache, result ≠ .error .exhausted ∧
      ∀ more, depth ≤ more → r.resolve more t c = (result, c, { r with cache := cache })) ∧
    ∀ depth w, (r.resolve depth t c).1 = .ok w → t.Grounded r.scope c.environment.keys := by
  have hnames := names_keys c.environment
  constructor
  · intro h
    obtain ⟨depth, result, hresult, hends⟩ :=
      endings_resolveType c.frames _ t h c rfl hnames r.cache
    cases result with
    | ok w s =>
      refine ⟨depth, .ok w, s.cache, by simp, fun more hmore => ?_⟩
      simp [Resolver.resolve, hresult more hmore, hends.1]
    | error e s =>
      refine ⟨depth, .error e, s.cache, by simpa using hends.2, fun more hmore => ?_⟩
      simp [Resolver.resolve, hresult more hmore, hends.1]
  · intro depth w hw
    have hs : (⟨r.cache, c⟩ : State).context = c ∧ True := ⟨rfl, trivial⟩
    unfold Resolver.resolve at hw
    cases hresult : resolveType r.scope depth t ⟨r.cache, c⟩ with
    | ok w' s => exact ((successes_resolveType depth c.frames _ t c rfl hnames 0).ok hs hresult).2
    | error e s =>
      rw [hresult] at hw
      dsimp only at hw
      split at hw <;> cases hw

/-- Trees, and pages of something that is trees unless something else is asked for. -/
def paged : List TypeDecl :=
  let span : Span := ⟨"m.ts", .zero, .zero⟩
  [⟨"Tree", "m.ts#Tree", [], .interface []
      [⟨"children", .array (.reference "Tree" []), false, none, none, span⟩], span⟩,
    ⟨"Page", "m.ts#Page", [⟨"Item", some (.reference "Tree" [])⟩], .interface []
      [⟨"items", .array (.reference "Item" []), false, none, none, span⟩,
        ⟨"next", .reference "Page" [], true, none, none, span⟩], span⟩]

theorem paged_grounded : TypeExpr.DefaultsGrounded ⟨paged, .default⟩ := by
  have htree : (TypeExpr.reference "Tree" []).Grounded ⟨paged, .default⟩ [] := by
    refine .intro (fun u hu => ?_) fun d given hd x hx => ?_
    · cases hu with
      | argument _ ha => cases ha
    · cases hd with
      | reference hd _ =>
        cases hd
        cases hx
  intro d hd given x hx
  rcases Nat.eq_zero_or_pos given with rfl | hgiven
  · simp only [paged, List.mem_cons, List.not_mem_nil, or_false] at hd
    rcases hd with rfl | rfl
    · cases hx
    · obtain rfl : x = ([], .reference "Tree" []) := List.mem_singleton.mp hx
      exact htree
  · have hle : d.parameters.length ≤ given := by
      revert d
      simp [paged]
      omega
    rw [TypeDecl.fallbacks, List.drop_eq_nil_of_le hle] at hx
    cases hx

theorem paged_resolves : ∃ w,
    ((fresh paged .default).resolve 9 (.reference "Page" []) (.ofOrigin "probe")).1 = .ok w := by
  have hok : ((fresh paged .default).resolve 9 (.reference "Page" []) (.ofOrigin "probe")).1.isOk =
      true := by decide +kernel
  cases h : ((fresh paged .default).resolve 9 (.reference "Page" []) (.ofOrigin "probe")).1 with
  | ok w => exact ⟨w, rfl⟩
  | error e =>
    rw [h] at hok
    cases hok

theorem resolve_ends_paged :
    (∃ depth result cache, result ≠ .error .exhausted ∧ ∀ more, depth ≤ more →
      (fresh paged .default).resolve more (.reference "Page" []) (.ofOrigin "probe") =
        (result, .ofOrigin "probe", { fresh paged .default with cache := cache })) ∧
      (TypeExpr.reference "Page" []).Grounded ⟨paged, .default⟩ [] := by
  obtain ⟨hends, hgrounded⟩ :=
    resolve_ends (fresh paged .default) (.reference "Page" []) (.ofOrigin "probe")
  obtain ⟨w, hw⟩ := paged_resolves
  exact ⟨hends fun names u _ => paged_grounded.grounded names u, hgrounded 9 w hw⟩

/-- An interface whose type parameter stands for the interface unless something else is asked for. -/
def looping : TypeDecl :=
  ⟨"A", "m.ts#A", [⟨"T", some (.reference "A" [])⟩], .interface [] [], ⟨"m.ts", .zero, .zero⟩⟩

theorem not_grounded_looping {names : List String} (hfree : "A" ∉ names) :
    ¬ (TypeExpr.reference "A" []).Grounded ⟨[looping], .default⟩ names := by
  intro h
  generalize ht : TypeExpr.reference "A" [] = t at h
  induction h with
  | @intro names t _ _ _ ih =>
    subst ht
    exact ih looping 0 (.reference rfl fun _ => hfree) ([], .reference "A" []) (.head _) (by simp) rfl

theorem steady_looping (depth : Nat) (c : Context) (hfree : c.environment.get? "A" = none) :
    Steady (fun _ => True) c (resolveType ⟨[looping], .default⟩ depth (.reference "A" []))
      (fun _ => False) (· = .exhausted) := by
  induction depth generalizing c with
  | zero => exact .throw rfl
  | succ depth ih =>
    have hbound : Steady (fun _ => True) c (parameterValue? "A") (· = none) (· = .exhausted) :=
      Steady.get (f := fun s => Pure.pure (s.context.environment.get? "A")) fun _ => .pure hfree
    refine Keeps.bind hbound ?_
    rintro _ rfl
    have hlookup : lookupType [looping] "A" = some looping := rfl
    have hname : Options.default.nameOnly.contains "A" = false := rfl
    simp only [hlookup, hname, Bool.false_eq_true, if_false]
    -- Before anything else the default is resolved, which is the same reference.
    refine Keeps.bind (Q := fun _ => False) ?_ fun _ h => h.elim
    rw [looping, bindParameters_default _ _ _ _ rfl]
    exact Keeps.bind (Steady.inEnvironment (ih _ rfl)) fun _ h => h.elim

/-- No depth of recursion is enough to resolve the interface: its default always asks for more. -/
theorem exhausted_looping : ¬ (TypeExpr.reference "A" []).Grounded ⟨[looping], .default⟩ [] ∧
    ∀ depth, ((fresh [looping] .default).resolve depth (.reference "A" []) (.ofOrigin "probe")).1 =
      .error .exhausted := by
  refine ⟨not_grounded_looping (by simp), fun depth => ?_⟩
  have hsteady := steady_looping depth (.ofOrigin "probe") rfl
  have hs : (⟨.empty, .ofOrigin "probe"⟩ : State).context = .ofOrigin "probe" ∧ True := ⟨rfl, trivial⟩
  unfold Resolver.resolve
  cases h : resolveType ⟨[looping], .default⟩ depth (.reference "A" []) ⟨.empty, .ofOrigin "probe"⟩ with
  | ok w s => exact (hsteady.ok hs h).2.elim
  | error e s =>
    obtain ⟨⟨hcontext, _⟩, rfl⟩ := hsteady.error hs h
    simp [fresh, h, hcontext]

end Resolver

end AnnotatedApi
