import AnnotatedApi.Proofs.Resolution.Law

/-!
# Resolvers with a history

A resolver that is in use has resolved some types, with success or without, and has been reset now
and then. Whatever its history is, its cache satisfies the invariant of every law; in particular,
what is remembered is closed and carries its own identity, so that the cache never refuses an access.
-/

namespace AnnotatedApi

set_option autoImplicit false

namespace Resolve

/-! ## The cache -/

/-- A failure that is no broken invariant. -/
def Failure.Ordinary (e : Failure) : Prop := ∀ fault, e ≠ .invariant fault

/-- Every remembered type may be shared under its key, and it has a property there. -/
def Cache.Records (P : String → WireType → Prop) (cache : Cache) : Prop :=
  ∀ key t, (key, t) ∈ cache.entries → Shareable key t ∧ P key t

/-- Every remembered type may be shared under its key, and it has a property. -/
def Cache.Holds (P : WireType → Prop) (cache : Cache) : Prop :=
  ∀ key t, (key, t) ∈ cache.entries → Shareable key t ∧ P t

namespace Cache

variable {P : String → WireType → Prop} {cache : Cache}

theorem records_empty : empty.Records P := fun _ _ h => by cases h

theorem holds_empty {P : WireType → Prop} : empty.Holds P := fun _ _ h => by cases h

theorem Records.find (h : cache.Records P) (key : String) :
    ∃ found hits, cache.find key = .ok (found, { cache with hits := hits }) ∧
      ∀ t ∈ found, Shareable key t ∧ P key t := by
  unfold Cache.find
  cases hget : cache.entries.get? key with
  | none => exact ⟨none, cache.hits, rfl, by simp⟩
  | some t =>
    have ht := h key t (Table.mem_of_get? hget)
    refine ⟨some t, cache.hits + 1, ?_, fun u hu => ?_⟩
    · cases t with
      | object identity name arguments fields =>
        have hown := ht.1.own identity name arguments fields rfl
        simp [hown]
      | _ => rfl
    · obtain rfl : t = u := by simpa using hu
      exact ht

theorem Records.insert (h : cache.Records P) {key : String} {t : WireType} (hs : Shareable key t)
    (ht : P key t) : ∃ next : Cache, cache.insert key t = .ok next ∧ next.Records P := by
  refine ⟨{ cache with entries := cache.entries.put key t }, ?_, fun key' t' hmem => ?_⟩
  · rw [Cache.insert, if_pos hs.closed]
  · rcases Table.mem_put hmem with hmem | heq
    · exact h key' t' hmem
    · cases heq
      exact ⟨hs, ht⟩

theorem Holds.find {P : WireType → Prop} (h : cache.Holds P) (key : String) :
    ∃ found hits, cache.find key = .ok (found, { cache with hits := hits }) ∧
      ∀ t ∈ found, Shareable key t ∧ P t :=
  Records.find h key

end Cache

section

variable {P : String → WireType → Prop} {F : Failure → Prop}

theorem steady_remembered? (c : Context) (identity : String) :
    Steady (Cache.Records P) c (remembered? identity)
      (fun found => ∀ t ∈ found, Shareable identity t ∧ P identity t) F := by
  rintro ⟨cache, _⟩ ⟨rfl, hI⟩
  obtain ⟨found, hits, hfind, hfound⟩ := hI.find identity
  simp only [remembered?, hfind]
  exact ⟨⟨rfl, hI⟩, hfound⟩

theorem steady_remember (c : Context) {identity : String} {t : WireType}
    (hs : Shareable identity t) (ht : P identity t) :
    Steady (Cache.Records P) c (remember identity t) (fun _ => True) F := by
  rintro ⟨cache, _⟩ ⟨rfl, hI⟩
  obtain ⟨next, hinsert, hnext⟩ := hI.insert hs ht
  simp only [remember, hinsert]
  exact ⟨⟨rfl, hnext⟩, trivial⟩

end

/-- The law that asks nothing of types: all there is to it is the cache. -/
theorem cacheLaw (scope : Scope) :
    Law scope (Cache.Holds fun _ => True) Failure.Ordinary fun _ _ => True where
  unsupported := by simp [Failure.Ordinary]
  exhausted := by simp [Failure.Ordinary]
  primitive _ _ := trivial
  literal _ _ := trivial
  unexpanded _ _ := trivial
  unbound _ _ := trivial
  array _ _ _ := trivial
  builtin _ _ _ _ _ _ _ := trivial
  union _ _ _ := trivial
  back _ _ _ := trivial
  inline _ _ _ := trivial
  intersection _ _ _ _ _ := trivial
  enter _ _ _ _ _ _ _ _ := trivial
  declared _ _ _ _ _ _ _ := trivial
  leave _ _ _ _ _ _ _ := trivial
  found c d arguments _ _ _ := (steady_remembered? c _).weaken fun _ _ _ _ => trivial
  store c _ _ _ _ _ _ hs _ := steady_remember c hs trivial

end Resolve

open Resolve

namespace Resolver

/-! ## Histories -/

/-- A resolver for some declarations that was new once and has been used since. A call counts however
it ends, and if the depth of recursion was not enough for it. -/
inductive Reachable (types : List TypeDecl) (options : Options) : Resolver → Prop where
  | fresh : Reachable types options (.fresh types options)
  | resolve {r : Resolver} (depth : Nat) (t : TypeExpr) (origin : String) :
    Reachable types options r → Reachable types options (r.resolve depth t (.ofOrigin origin)).2.2
  | reset {r : Resolver} : Reachable types options r → Reachable types options r.reset

/-- A resolver with such a history in which only certain type expressions were asked for, and for
certain sites. -/
inductive UsedFor (asked : TypeExpr → String → Prop) (types : List TypeDecl) (options : Options) :
    Resolver → Prop where
  | fresh : UsedFor asked types options (.fresh types options)
  | resolve {r : Resolver} (depth : Nat) {t : TypeExpr} {origin : String} : asked t origin →
    UsedFor asked types options r →
      UsedFor asked types options (r.resolve depth t (.ofOrigin origin)).2.2
  | reset {r : Resolver} : UsedFor asked types options r → UsedFor asked types options r.reset

variable {types : List TypeDecl} {options : Options} {r : Resolver} {A : Context → TypeExpr → Prop}
  {I : Cache → Prop} {F : Failure → Prop} {P : List Frame → WireType → Prop}

theorem Reachable.usedFor (h : Reachable types options r) :
    UsedFor (fun _ _ => True) types options r := by
  induction h with
  | fresh => exact .fresh
  | resolve depth t origin _ ih => exact .resolve depth trivial ih
  | reset _ ih => exact .reset ih

theorem resolve_of_ok {depth : Nat} {t : TypeExpr} {c : Context} {cache : Cache} {w : WireType}
    (h : resolveType r.scope depth t ⟨r.cache, c⟩ = .ok w ⟨cache, c⟩) :
    r.resolve depth t c = (.ok w, c, { r with cache := cache }) := by
  simp [Resolver.resolve, h]

theorem resolve_of_error {depth : Nat} {t : TypeExpr} {c : Context} {cache : Cache} {e : Failure}
    (h : resolveType r.scope depth t ⟨r.cache, c⟩ = .error e ⟨cache, c⟩) :
    r.resolve depth t c = (.error e, c, { r with cache := cache }) := by
  simp [Resolver.resolve, h]

/-- What is known of a resolution is known of what a resolver yields. The context comes back as it was,
so that no expansion stays entered. -/
theorem resolve_of_steady {depth : Nat} {t : TypeExpr} {c : Context} {Q : WireType → Prop}
    (hsteady : Steady I c (resolveType r.scope depth t) Q F) (hI : I r.cache) :
    ∃ result cache, r.resolve depth t c = (result, c, { r with cache := cache }) ∧ I cache ∧
      match result with
      | .ok w => Q w
      | .error e => F e := by
  have hs : (⟨r.cache, c⟩ : State).context = c ∧ I r.cache := ⟨rfl, hI⟩
  cases h : resolveType r.scope depth t ⟨r.cache, c⟩ with
  | ok w s =>
    obtain ⟨⟨rfl, hcache⟩, hw⟩ := hsteady.ok hs h
    exact ⟨.ok w, s.cache, resolve_of_ok h, hcache, hw⟩
  | error e s =>
    obtain ⟨⟨rfl, hcache⟩, he⟩ := hsteady.error hs h
    exact ⟨.error e, s.cache, resolve_of_error h, hcache, he⟩

/-- What is resolved by a law is what a resolver yields. -/
theorem resolve_of_lawful {depth : Nat} (hlawful : Lawful A I F P (resolveType r.scope depth))
    (hI : I r.cache) {t : TypeExpr} {c : Context} (hplace : A c t) (hc : c.Binds P) :
    ∃ result cache, r.resolve depth t c = (result, c, { r with cache := cache }) ∧ I cache ∧
      match result with
      | .ok w => P c.frames w
      | .error e => F e :=
  resolve_of_steady (hlawful t c hplace hc) hI

/-- A law with places holds of what a resolver yields in one of these. -/
theorem resolve_lawful_placed (law : PlacedLaw r.scope A I F P) (hI : I r.cache) (depth : Nat)
    {t : TypeExpr} {c : Context} (hplace : A c t) (hc : c.Binds P) :
    ∃ result cache, r.resolve depth t c = (result, c, { r with cache := cache }) ∧ I cache ∧
      match result with
      | .ok w => P c.frames w
      | .error e => F e :=
  resolve_of_lawful (resolveType_lawful_placed law depth) hI hplace hc

theorem resolve_lawful (law : Law r.scope I F P) (hI : I r.cache) (depth : Nat) (t : TypeExpr)
    (c : Context) (hc : c.Binds P) :
    ∃ result cache, r.resolve depth t c = (result, c, { r with cache := cache }) ∧ I cache ∧
      match result with
      | .ok w => P c.frames w
      | .error e => F e :=
  resolve_lawful_placed law.placed hI depth trivial hc

theorem binds_ofOrigin (origin : String) : (Context.ofOrigin origin).Binds P :=
  fun _ h => by cases h

theorem UsedFor.invariant_of_steady {asked : TypeExpr → String → Prop} {Q : TypeExpr → WireType → Prop}
    (h : UsedFor asked types options r) (hempty : I .empty)
    (hsteady : ∀ depth t origin, asked t origin →
      Steady I (.ofOrigin origin) (resolveType ⟨types, options⟩ depth t) (Q t) F) :
    r.scope = ⟨types, options⟩ ∧ I r.cache := by
  induction h with
  | fresh => exact ⟨rfl, hempty⟩
  | resolve depth hasked _ ih =>
    obtain ⟨hscope, hI⟩ := ih
    obtain ⟨result, cache, hresolve, hcache, _⟩ :=
      resolve_of_steady (hscope ▸ hsteady depth _ _ hasked) hI
    rw [hresolve]
    exact ⟨hscope, hcache⟩
  | reset _ ih => exact ⟨ih.1, hempty⟩

/-- What a resolver yields has what is known of every resolution that is asked for. -/
theorem UsedFor.yields_of_steady {asked : TypeExpr → String → Prop} {Q : TypeExpr → WireType → Prop}
    (h : UsedFor asked types options r) (hempty : I .empty)
    (hsteady : ∀ depth t origin, asked t origin →
      Steady I (.ofOrigin origin) (resolveType ⟨types, options⟩ depth t) (Q t) F)
    {t : TypeExpr} {origin : String} (hasked : asked t origin) {depth : Nat} {w : WireType}
    (hw : (r.resolve depth t (.ofOrigin origin)).1 = .ok w) : Q t w := by
  obtain ⟨hscope, hI⟩ := h.invariant_of_steady hempty hsteady
  obtain ⟨result, cache, hresolve, -, hresult⟩ :=
    resolve_of_steady (hscope ▸ hsteady depth t origin hasked) hI
  rw [hresolve] at hw
  obtain rfl : result = .ok w := hw
  exact hresult

theorem UsedFor.invariant_of_lawful {asked : TypeExpr → String → Prop}
    (h : UsedFor asked types options r)
    (hlawful : ∀ depth, Lawful A I F P (resolveType ⟨types, options⟩ depth)) (hempty : I .empty)
    (hplaces : ∀ t origin, asked t origin → A (.ofOrigin origin) t) :
    r.scope = ⟨types, options⟩ ∧ I r.cache :=
  h.invariant_of_steady (Q := fun _ => P []) hempty fun depth t origin hasked =>
    hlawful depth t _ (hplaces t origin hasked) (binds_ofOrigin origin)

theorem UsedFor.invariant {asked : TypeExpr → String → Prop} (h : UsedFor asked types options r)
    (law : PlacedLaw ⟨types, options⟩ A I F P) (hempty : I .empty)
    (hplaces : ∀ t origin, asked t origin → A (.ofOrigin origin) t) :
    r.scope = ⟨types, options⟩ ∧ I r.cache :=
  h.invariant_of_lawful (resolveType_lawful_placed law) hempty hplaces

theorem Reachable.invariant (h : Reachable types options r) (law : Law ⟨types, options⟩ I F P)
    (hempty : I .empty) : r.scope = ⟨types, options⟩ ∧ I r.cache :=
  h.usedFor.invariant law.placed hempty fun _ _ _ => trivial

end Resolver

end AnnotatedApi
