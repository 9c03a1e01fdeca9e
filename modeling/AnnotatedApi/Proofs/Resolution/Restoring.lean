import AnnotatedApi.Proofs.Resolution.History

/-!
# Resolution restores its context

The expansions, the values of the type parameters and the fields that lead to the current place are
after a resolution what they were before it, whatever is resolved, in whatever context and with
whatever is remembered, and whether a type or a failure comes out. An expansion that stays entered
could only be reported if this failed.
-/

namespace AnnotatedApi

set_option autoImplicit false

namespace Resolve

/-- A failure that does not report an expansion that stayed entered. -/
def Failure.Balanced (e : Failure) : Prop :=
  ∀ type before after, e ≠ .invariant (.unbalanced type before after)

section

variable {F : Failure → Prop} (c : Context) (identity : String)

/-- A lookup keeps the context even in a cache that refuses it. -/
theorem steady_remembered?_of_foreign (hF : ∀ key other, F (.invariant (.foreignEntry key other))) :
    Steady (fun _ => True) c (remembered? identity) (fun _ => True) F := by
  rintro ⟨cache, _⟩ ⟨rfl, -⟩
  unfold remembered?
  cases hfind : cache.find identity with
  | ok found => exact ⟨⟨rfl, trivial⟩, trivial⟩
  | error fault =>
    refine ⟨⟨rfl, trivial⟩, ?_⟩
    unfold Cache.find at hfind
    split at hfind
    · cases hfind
    · split at hfind
      · cases hfind
      · cases hfind
        exact hF _ _
    · cases hfind

theorem steady_remember_of_closed {t : WireType} (ht : t.isClosed = true) :
    Steady (fun _ => True) c (remember identity t) (fun _ => True) F := by
  rintro ⟨cache, _⟩ ⟨rfl, -⟩
  simp only [remember, Cache.insert, if_pos ht]
  exact ⟨⟨rfl, trivial⟩, trivial⟩

end

/-- The law that asks nothing of types and of the cache: all there is to it is the context. -/
theorem contextLaw (scope : Scope) :
    Law scope (fun _ => True) Failure.Balanced fun _ _ => True where
  unsupported := by simp [Failure.Balanced]
  exhausted := by simp [Failure.Balanced]
  primitive _ _ := trivial
  literal _ _ := trivial
  unexpanded _ _ := trivial
  unbound _ _ := trivial
  array _ _ _ := trivial
  builtin _ _ _ _ _ _ _ := trivial
  union _ _ _ := trivial
  back _ _ _ := trivial
  inline _ _ _ := trivial
  intersection _ _ _ _ _ := trivial
  enter _ _ _ _ _ _ _ _ := trivial
  declared _ _ _ _ _ _ _ := trivial
  leave _ _ _ _ _ _ _ := trivial
  found c d arguments _ _ _ :=
    (steady_remembered?_of_foreign c _ (by simp [Failure.Balanced])).weaken fun _ _ _ _ => trivial
  store c _ _ _ _ _ _ hs _ := steady_remember_of_closed c _ hs.closed

/-- Every context satisfies the law: it asks nothing of the values of type parameters. -/
theorem binds_contextLaw (c : Context) : c.Binds fun _ _ => True :=
  fun _ _ => trivial

end Resolve

open Resolve

/-- A resolution ends in the context in which it began, at every depth of recursion and in every
state; only the cache of a resolver changes by it, and it never reports an expansion that stayed
entered. -/
theorem Resolver.resolve_restores (r : Resolver) (depth : Nat) (t : TypeExpr) (c : Context) :
    (∀ cache, match resolveType r.scope depth t ⟨cache, c⟩ with
      | .ok _ s => s.context = c
      | .error _ s => s.context = c) ∧
    (r.resolve depth t c).2.1 = c ∧
    (r.resolve depth t c).2.2.scope = r.scope ∧
    ∀ type before after,
      (r.resolve depth t c).1 ≠ .error (.invariant (.unbalanced type before after)) := by
  refine ⟨fun cache => ?_, ?_⟩
  · have hsteady := resolveType_lawful (contextLaw r.scope) depth t c (binds_contextLaw c)
    have hs : (⟨cache, c⟩ : State).context = c ∧ True := ⟨rfl, trivial⟩
    cases h : resolveType r.scope depth t ⟨cache, c⟩ with
    | ok w s => exact (hsteady.ok hs h).1.1
    | error e s => exact (hsteady.error hs h).1.1
  · obtain ⟨result, cache, hresolve, -, hresult⟩ :=
      Resolver.resolve_lawful (contextLaw r.scope) trivial depth t c (binds_contextLaw c)
    rw [hresolve]
    refine ⟨rfl, rfl, fun type before after heq => ?_⟩
    obtain rfl : result = .error (.invariant (.unbalanced type before after)) := heq
    exact hresult type before after rfl

end AnnotatedApi
