import AnnotatedApi.Proofs.Resolution.Logic
import Mathlib.Logic.Relation

/-!
# The site that asks for a type

An inline object inside a declaration is owned by that declaration, and the site that asks for a type owns only
what stands outside all of them. So a type expression without inline objects comes to the same for every site,
whatever there is inside the declarations that it leads to. The exception are defaults of type parameters: they
are resolved before their declaration is entered, so that an inline object in one is owned by the site.
-/

namespace AnnotatedApi

set_option autoImplicit false

open Resolve

/-! ## What stands outside declarations -/

namespace TypeExpr

variable (scope : Scope)

/-- Whether the type expression contains no inline object, itself or in its parts. -/
def Plain (t : TypeExpr) : Prop :=
  ∀ u, Relation.ReflTransGen (Part scope) t u → ∀ fields, u ≠ .object fields

/-- The defaults that are resolved for a type expression before any declaration is expanded, where the names are
those of bound type parameters. -/
inductive FallsBackOn : List String → TypeExpr → TypeExpr → Prop where
  | default {names : List String} {t : TypeExpr} {d : TypeDecl} {given : Nat} {x : List String × TypeExpr} :
    t.Mentions scope names d given → x ∈ d.fallbacks given → FallsBackOn names t x.2
  | part {names : List String} {t u v : TypeExpr} :
    t.Part scope u → FallsBackOn names u v → FallsBackOn names t v
  | further {names : List String} {t v : TypeExpr} {d : TypeDecl} {given : Nat} {x : List String × TypeExpr} :
    t.Mentions scope names d given → x ∈ d.fallbacks given → FallsBackOn x.1 x.2 v → FallsBackOn names t v

/-- Whether all inline objects that the type expression leads to stand inside declarations. -/
structure InlineInside (names : List String) (t : TypeExpr) : Prop where
  plain : t.Plain scope
  defaults : ∀ u, t.FallsBackOn scope names u → u.Plain scope

variable {scope : Scope} {names : List String} {t u : TypeExpr} {d : TypeDecl} {given : Nat}

theorem Plain.part (h : t.Plain scope) (hu : t.Part scope u) : u.Plain scope :=
  fun v hv => h v (.head hu hv)

theorem Plain.of_parts (h : ∀ fields, t ≠ .object fields) (hparts : ∀ u, t.Part scope u → u.Plain scope) :
    t.Plain scope := by
  intro v hv
  rcases Relation.ReflTransGen.cases_head hv with rfl | ⟨u, hu, huv⟩
  · exact h
  · exact hparts u hu v huv

namespace InlineInside

theorem part (h : t.InlineInside scope names) (hu : t.Part scope u) : u.InlineInside scope names :=
  ⟨h.plain.part hu, fun v hv => h.defaults v (.part hu hv)⟩

theorem default (h : t.InlineInside scope names) (hd : t.Mentions scope names d given)
    {x : List String × TypeExpr} (hx : x ∈ d.fallbacks given) : x.2.InlineInside scope x.1 :=
  ⟨h.defaults x.2 (.default hd hx), fun v hv => h.defaults v (.further hd hx hv)⟩

end InlineInside

end TypeExpr

theorem TypeParameter.exists_of_mem_fallbacks {x : List String × TypeExpr} {names : List String}
    {parameters : List TypeParameter} (hx : x ∈ fallbacks names parameters) :
    ∃ p ∈ parameters, p.default = some x.2 := by
  induction parameters generalizing names with
  | nil => cases hx
  | cons p rest ih =>
    rw [fallbacks] at hx
    cases hp : p.default with
    | none =>
      rw [hp] at hx
      obtain ⟨q, hq, hdefault⟩ := ih hx
      exact ⟨q, List.mem_cons_of_mem _ hq, hdefault⟩
    | some u =>
      rw [hp] at hx
      rcases List.mem_cons.mp hx with rfl | hx
      · exact ⟨p, List.mem_cons_self .., hp⟩
      · obtain ⟨q, hq, hdefault⟩ := ih hx
        exact ⟨q, List.mem_cons_of_mem _ hq, hdefault⟩

/-- What a type expression falls back on is the default of a declared type parameter. -/
theorem TypeExpr.FallsBackOn.exists_default {scope : Scope} {names : List String} {t u : TypeExpr}
    (h : t.FallsBackOn scope names u) : ∃ d ∈ scope.types, ∃ p ∈ d.parameters, p.default = some u := by
  induction h with
  | default hd hx =>
    cases hd with
    | reference hd _ =>
      obtain ⟨p, hp, hdefault⟩ := TypeParameter.exists_of_mem_fallbacks hx
      exact ⟨_, Scope.mem_of_declaration? hd, p, List.mem_of_mem_drop hp, hdefault⟩
  | part _ _ ih => exact ih
  | further _ _ _ ih => exact ih

namespace Resolve

variable {α β : Type} {depth : Nat} {c : Context} {Q : α → Prop} {R : β → Prop}

/-- What is inside a declaration is not owned by the site. -/
theorem Context.inlineIdentity_movedTo (h : c.frames ≠ []) (origin : String) :
    (c.movedTo origin).inlineIdentity = c.inlineIdentity := by
  obtain ⟨frame, frames, hframes⟩ := List.exists_cons_of_ne_nil h
  simp only [inlineIdentity, movedTo, hframes]

/-! ## Resolutions that do not see the site -/

/-- What the resolution does at a depth of recursion it does for every site: it yields one type, or one failure,
and leaves one cache behind. -/
def Blind (depth : Nat) (c : Context) (x : Nat → Resolving α) (Q : α → Prop) : Prop :=
  ∀ cache,
    (∃ a cache', Q a ∧ ∀ origin, x depth ⟨cache, c.movedTo origin⟩ = .ok a ⟨cache', c.movedTo origin⟩) ∨
    ∃ e cache', ∀ origin, x depth ⟨cache, c.movedTo origin⟩ = .error e ⟨cache', c.movedTo origin⟩

namespace Blind

theorem bind {x : Nat → Resolving α} {f : Nat → α → Resolving β} (hx : Blind depth c x Q)
    (hf : ∀ a, Q a → Blind depth c (fun n => f n a) R) : Blind depth c (fun n => x n >>= f n) R := by
  intro cache
  rcases hx cache with ⟨a, cache', ha, hfirst⟩ | ⟨e, cache', hfirst⟩
  · rcases hf a ha cache' with ⟨b, last, hb, hsecond⟩ | ⟨e, last, hsecond⟩
    · exact .inl ⟨b, last, hb, fun origin => (bind_of_ok (hfirst origin)).trans (hsecond origin)⟩
    · exact .inr ⟨e, last, fun origin => (bind_of_ok (hfirst origin)).trans (hsecond origin)⟩
  · exact .inr ⟨e, cache', fun origin => bind_of_error (hfirst origin)⟩

/-- A look at the state is blind if the site plays no part in what follows from it. -/
theorem get {f : Nat → State → Resolving α}
    (hf : ∀ n cache origin, f n ⟨cache, c.movedTo origin⟩ = f n ⟨cache, c⟩)
    (h : ∀ cache, Blind depth c (fun n => f n ⟨cache, c⟩) Q) :
    Blind depth c (fun n => MonadState.get >>= f n) Q := by
  intro cache
  rcases h cache cache with ⟨a, cache', ha, hall⟩ | ⟨e, cache', hall⟩
  · exact .inl ⟨a, cache', ha, fun origin => (congrFun (hf depth cache origin) _).trans (hall origin)⟩
  · exact .inr ⟨e, cache', fun origin => (congrFun (hf depth cache origin) _).trans (hall origin)⟩

theorem within {x : Nat → Resolving α} {enter leave : Context → Context} (henter : SparesOrigin enter)
    (hleave : SparesOrigin leave) (hc : leave (enter c) = c) (hx : Blind depth (enter c) x Q) :
    Blind depth c (fun n => Resolve.within enter leave (x n)) Q := by
  intro cache
  rcases hx cache with ⟨a, cache', ha, hinner⟩ | ⟨e, cache', hinner⟩
  · exact .inl ⟨a, cache', ha, fun origin => by
      simp only [Resolve.within, henter c origin, hinner origin, hleave _ origin, hc]⟩
  · exact .inr ⟨e, cache', fun origin => by
      simp only [Resolve.within, henter c origin, hinner origin, hleave _ origin, hc]⟩

theorem remembered? (identity : String) :
    Blind depth c (fun _ => Resolve.remembered? identity) fun _ => True := by
  intro cache
  cases hfind : cache.find identity with
  | ok found => exact .inl ⟨found.1, found.2, trivial, fun _ => by simp only [Resolve.remembered?, hfind]⟩
  | error fault => exact .inr ⟨.invariant fault, cache, fun _ => by simp only [Resolve.remembered?, hfind]⟩

theorem remember (identity : String) (t : WireType) :
    Blind depth c (fun _ => Resolve.remember identity t) fun _ => True := by
  intro cache
  cases hinsert : cache.insert identity t with
  | ok next => exact .inl ⟨(), next, trivial, fun _ => by simp only [Resolve.remember, hinsert]⟩
  | error fault => exact .inr ⟨.invariant fault, cache, fun _ => by simp only [Resolve.remember, hinsert]⟩

end Blind

/-- The logic of what is the same for every site. It speaks of inline objects only inside declarations. -/
def blind (depth : Nat) : Logic where
  Holds := Blind depth
  Inline c := c.frames ≠ []
  pure ha := fun cache => .inl ⟨_, cache, ha, fun _ => rfl⟩
  unsupported := fun cache => .inr ⟨_, cache, fun _ => rfl⟩
  bind := .bind
  get := .get
  inline hc h := .get (fun _ _ origin => congrArg _ (Context.inlineIdentity_movedTo hc origin)) fun _ => h
  within := .within
  remembered? := .remembered? _
  remember _ := .remember _ _

variable {scope : Scope}

/-- Inside a declaration everything is resolved in the same way for every site, and outside of all of them what
has its inline objects inside. The induction is on the depth of recursion, for all expansions at once: parts and
defaults stay in the same ones, and the body of a declaration is in one more. -/
theorem blind_resolveType (depth : Nat) (frames : List Frame) (names : List String) (t : TypeExpr)
    (h : frames = [] → t.InlineInside scope names) :
    (blind depth).Handles (resolveType scope) (fun _ _ => True) frames names t := by
  induction depth generalizing frames names t with
  | zero => exact fun c _ _ cache => .inr ⟨.exhausted, cache, fun _ => rfl⟩
  | succ depth ih =>
    intro c hframes hnames cache
    -- An inline object is resolved only inside a declaration.
    have howned : ∀ fields, t = .object fields → c.frames ≠ [] := fun fields ht hempty =>
      (h (hframes.symm.trans hempty)).plain t .refl fields ht
    have hstep : (blind depth).Holds c (fun n => resolveStep scope (resolveType scope n) t) _ :=
      (blind depth).resolveStep hframes hnames t howned
        (fun u hu => ih frames names u fun hempty => (h hempty).part hu)
        (fun _ _ hd x hx => ih frames x.1 x.2 fun hempty => (h hempty).default hd hx)
        fun _ _ _ _ _ => ⟨fun u _ => ih _ _ u (by simp), fun _ _ f _ => ih _ _ _ (by simp)⟩
    exact (hstep cache).imp_left fun ⟨w, cache', _, hall⟩ => ⟨w, cache', trivial, hall⟩

end Resolve

namespace Resolver

/-- A type expression without inline objects comes to the same for every site, with the identities of the inline
objects inside declarations, if there are none in the defaults that are resolved for it outside of declarations
either; a failure is the same as well, and so is what is remembered. -/
theorem resolve_ignores_origin (r : Resolver) {t : TypeExpr} (ht : t.Plain r.scope)
    (hdefaults : ∀ u, t.FallsBackOn r.scope [] u → u.Plain r.scope) (depth : Nat) :
    ∃ result cache, ∀ origin,
      r.resolve depth t (.ofOrigin origin) = (result, .ofOrigin origin, { r with cache := cache }) := by
  have hnames : Names (Context.ofOrigin "").environment [] := names_keys []
  rcases blind_resolveType depth [] [] t (fun _ => ⟨ht, hdefaults⟩) (.ofOrigin "") rfl hnames r.cache with
    ⟨w, cache, -, hall⟩ | ⟨e, cache, hall⟩
  · exact ⟨.ok w, cache, fun origin => resolve_of_ok (hall origin)⟩
  · exact ⟨.error e, cache, fun origin => resolve_of_error (hall origin)⟩

/-- Pages of summaries, unless something else is asked for; a summary has an inline object. -/
def summaries : List TypeDecl :=
  let span : Span := ⟨"m.ts", .zero, .zero⟩
  let author : TypeExpr := .object [⟨"name", .keyword "string", false, none, none, span⟩]
  [⟨"Summary", "m.ts#Summary", [], .interface [] [⟨"author", author, false, none, none, span⟩], span⟩,
    ⟨"Page", "m.ts#Page", [⟨"Item", some (.reference "Summary" [])⟩], .interface []
      [⟨"items", .array (.parameter "Item"), false, none, none, span⟩], span⟩]

theorem plain_bare (scope : Scope) (name : String) : (TypeExpr.reference name []).Plain scope :=
  .of_parts (by simp) fun u hu => by
    cases hu with
    | argument _ ha => cases ha

theorem resolve_ignores_origin_summaries : ∃ arguments fields, ∀ origin,
    ((fresh summaries .default).resolve 9 (.reference "Page" []) (.ofOrigin origin)).1 =
      .ok (.object "m.ts#Page<m.ts#Summary>" (some "Page") arguments fields) := by
  obtain ⟨result, cache, hall⟩ := resolve_ignores_origin (fresh summaries .default)
    (plain_bare _ "Page") (fun u hu => by
      obtain ⟨d, hd, p, hp, hdefault⟩ := hu.exists_default
      obtain rfl : .reference "Summary" [] = u := by
        revert p
        simp only [fresh, summaries, List.mem_cons, List.not_mem_nil, or_false] at hd
        rcases hd with rfl | rfl <;> simp
      exact plain_bare _ "Summary") 9
  obtain ⟨arguments, fields, hprobe⟩ : ∃ arguments fields,
      ((fresh summaries .default).resolve 9 (.reference "Page" []) (.ofOrigin "probe")).1 =
        .ok (.object "m.ts#Page<m.ts#Summary>" (some "Page") arguments fields) := ⟨_, _, rfl⟩
  refine ⟨arguments, fields, fun origin => ?_⟩
  rw [hall] at hprobe ⊢
  exact hprobe

/-- An interface whose type parameter stands for an inline object unless something else is asked for. -/
def boxOfInline : TypeDecl :=
  let span : Span := ⟨"m.ts", .zero, .zero⟩
  ⟨"Box", "m.ts#Box", [⟨"T", some (.object [⟨"id", .keyword "string", false, none, none, span⟩])⟩],
    .interface [] [⟨"value", .parameter "T", false, none, none, span⟩], span⟩

/-- The box with the inline object of its default, owned by a site. -/
def boxOwnedBy (site : String) : WireType :=
  let content : WireType := .object site none [] [⟨"id", .primitive .string, true, none⟩]
  .object "m.ts#Box<{ id: string }>" (some "Box") [content] [⟨"value", content, true, none⟩]

/-- The site owns the inline object in the default, so that two sites get two types; and a resolver that is asked
by both answers the second one with what the first one owns. -/
theorem site_owns_default : (TypeExpr.reference "Box" []).Plain ⟨[boxOfInline], .default⟩ ∧
    ((fresh [boxOfInline] .default).resolve 3 (.reference "Box" []) (.ofOrigin "A.a(p)")).1 =
      .ok (boxOwnedBy "A.a(p)") ∧
    ((fresh [boxOfInline] .default).resolve 3 (.reference "Box" []) (.ofOrigin "B.b(p)")).1 =
      .ok (boxOwnedBy "B.b(p)") ∧
    boxOwnedBy "A.a(p)" ≠ boxOwnedBy "B.b(p)" ∧
    (((fresh [boxOfInline] .default).resolve 3 (.reference "Box" []) (.ofOrigin "A.a(p)")).2.2.resolve 3
      (.reference "Box" []) (.ofOrigin "B.b(p)")).1 = .ok (boxOwnedBy "A.a(p)") :=
  ⟨plain_bare _ "Box", rfl, rfl, by simp [boxOwnedBy], rfl⟩

end Resolver

end AnnotatedApi
