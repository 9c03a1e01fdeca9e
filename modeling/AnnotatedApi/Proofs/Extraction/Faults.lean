import AnnotatedApi.Proofs.Extraction.Handlers
import AnnotatedApi.Proofs.Resolution.History

/-!
# The resolver keeps its own invariants

With whatever history, a resolver remembers closed types only, each object under its own identity. So
the cache never refuses an access, no call reports a broken invariant, and an extraction comes to an
end unless the depth of recursion is not enough for it.
-/

namespace AnnotatedApi

set_option autoImplicit false

open Resolve

namespace Resolver

variable {types : List TypeDecl} {options : Options} {r : Resolver}

theorem Reachable.cache_holds (h : Reachable types options r) :
    r.scope = ⟨types, options⟩ ∧ r.cache.Holds fun _ => True :=
  h.invariant (cacheLaw _) Cache.holds_empty

theorem Reachable.resolve_ordinary (h : Reachable types options r) (depth : Nat) (t : TypeExpr)
    (origin : String) : ∃ result cache,
      r.resolve depth t (.ofOrigin origin) = (result, .ofOrigin origin, { r with cache := cache }) ∧
      ∀ e, result = .error e → e.Ordinary := by
  obtain ⟨result, cache, hresolve, _, hresult⟩ :=
    resolve_lawful (cacheLaw r.scope) h.cache_holds.2 depth t (.ofOrigin origin)
      (binds_ofOrigin origin)
  refine ⟨result, cache, hresolve, fun e he => ?_⟩
  subst he
  exact hresult

/-- While a walk goes on, its resolver only gets a longer history, and the walk ends early only for
want of depth. -/
theorem resolvesWithin_reachable (depth : Nat) : Walk.ResolvesWithin depth (Reachable types options)
    fun abort => ∃ site, abort = .exhausted site := by
  intro site t r hr
  have hnext := hr.resolve depth t site
  obtain ⟨result, cache, hresolve, hordinary⟩ := hr.resolve_ordinary depth t site
  unfold Walk.resolveAt
  rw [hresolve] at hnext ⊢
  cases result with
  | ok w => exact ⟨hnext, trivial⟩
  | error e =>
    cases e with
    | unsupported cause => exact ⟨hnext, trivial⟩
    | invariant fault => exact absurd rfl (hordinary _ rfl fault)
    | exhausted => exact ⟨hnext, site, rfl⟩

/-- Whatever a resolver has been used for: its cache holds closed types and every object under its own
identity; looking up does not fail then, nor does anything that is done to the cache in the course of
a call; no call reports a broken invariant, and neither does an extraction. -/
theorem Reachable.keeps_invariants (h : Reachable types options r) :
    (∀ key t, (key, t) ∈ r.cache.entries → t.isClosed = true ∧
      ∀ identity name arguments fields, t = .object identity name arguments fields → identity = key) ∧
    (∀ key, ∃ found, r.cache.find key = .ok found) ∧
    (∀ depth t c cache e s, cache.Holds (fun _ => True) →
      resolveType r.scope depth t ⟨cache, c⟩ = .error e s → e.Ordinary) ∧
    (∀ depth t origin fault, (r.resolve depth t (.ofOrigin origin)).1 ≠ .error (.invariant fault)) ∧
    ∀ e : Extractor, e.resolver = r → ∀ depth,
      (∀ site fault, (e.run depth).1 ≠ .error (.invariant site fault)) ∧
        Reachable types options (e.run depth).2.resolver := by
  have hcache := h.cache_holds.2
  refine ⟨fun key t hmem => ?_, fun key => ?_, ?_, ?_, ?_⟩
  · have hs := (hcache key t hmem).1
    exact ⟨hs.closed, hs.own⟩
  · obtain ⟨found, hits, hfind, _⟩ := hcache.find key
    exact ⟨_, hfind⟩
  · intro depth t c cache e s hI hfail
    have hc : c.Binds fun _ _ => True := fun _ _ => trivial
    exact ((resolveType_lawful (cacheLaw r.scope) depth t c hc).error ⟨rfl, hI⟩ hfail).2
  · intro depth t origin fault hfault
    obtain ⟨result, cache, hresolve, hordinary⟩ := h.resolve_ordinary depth t origin
    rw [hresolve] at hfault
    exact hordinary _ hfault fault rfl
  · rintro e rfl depth
    obtain ⟨hnext, hresult⟩ := e.run_keeps (resolvesWithin_reachable depth) h
    refine ⟨fun site fault hfault => ?_, hnext⟩
    rw [hfault] at hresult
    obtain ⟨site', hsite⟩ := hresult
    cases hsite

def chain : List TypeDecl :=
  let span : Span := ⟨"m.ts", .zero, .zero⟩
  [⟨"Node", "m.ts#Node", [], .interface [] [⟨"next", .reference "Node" [], false, none, none, span⟩],
    span⟩]

/-- A resolver that has been asked for a type without a declaration and then for a recursive one. -/
def usedOnChain : Resolver :=
  (((fresh chain .default).resolve 3 (.reference "Leaf" []) (.ofOrigin "C.a(p)")).2.2.resolve 3
    (.reference "Node" []) (.ofOrigin "C.b(p)")).2.2

theorem keeps_invariants_usedOnChain : usedOnChain.cache.entries.keys = ["m.ts#Node"] ∧
    Reachable chain .default usedOnChain ∧
    (∀ key t, (key, t) ∈ usedOnChain.cache.entries → t.isClosed = true ∧
      ∀ identity name arguments fields, t = .object identity name arguments fields → identity = key) ∧
    ∃ found, usedOnChain.cache.find "m.ts#Node" = .ok found := by
  have h : Reachable chain .default usedOnChain := .resolve _ _ _ (.resolve _ _ _ .fresh)
  have hkeeps := h.keeps_invariants
  exact ⟨by decide, h, hkeeps.1, hkeeps.2.1 _⟩

end Resolver

end AnnotatedApi
