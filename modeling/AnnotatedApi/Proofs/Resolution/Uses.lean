import AnnotatedApi.Proofs.Resolution.Calls
import AnnotatedApi.Proofs.Resolution.History
import AnnotatedApi.Proofs.WireType.OpenReferences
import Mathlib.Data.List.Induction

/-!
# Histories, use by use

What is true of an answer may depend on what happened long before it came out of the cache. So a history
is taken apart call by call: `Asked` says what a resolver is asked in the course of it, and in which
state. If every step for something that is asked obeys its law, then so does every answer
(`yields_of_asked`). The law of a step may rely on what the calls of this step obey, and not by that law
alone: several laws can be shown together.
-/

namespace AnnotatedApi

set_option autoImplicit false

open Resolve

/-! ## Properties that depend on objects -/

/-- Whether a property of types can be lost by objects only: what is no object has it if its parts do, and
a union has it if the types do that it is made of. -/
structure Structural (P : WireType → Prop) : Prop where
  of_children : ∀ {w : WireType}, (∀ o : ObjectType, w ≠ o.type) → (∀ u ∈ w.children, P u) → P w
  unionOf : ∀ {ws : List WireType}, (∀ w ∈ ws, P w) → P (.unionOf ws)

theorem Structural.of_childless {P : WireType → Prop} (h : Structural P) {w : WireType}
    (hw : ∀ o : ObjectType, w ≠ o.type) (hnone : w.children = []) : P w :=
  h.of_children hw (by simp [hnone])

theorem ObjectType.mem_children {o : ObjectType} {w : WireType} :
    w ∈ o.type.children ↔ w ∈ o.arguments ∨ ∃ f ∈ o.fields, f.type = w :=
  List.mem_append.trans (or_congr Iff.rfl List.mem_map)

/-- Whether all objects in a type have a property. -/
def AllObjects (p : ObjectType → Prop) (w : WireType) : Prop :=
  ∀ o : ObjectType, w.Contains o.type → p o

namespace AllObjects

variable {p : ObjectType → Prop} {o : ObjectType} {w : WireType}

theorem of_children (h : ∀ o : ObjectType, w = o.type → p o)
    (hchildren : ∀ u ∈ w.children, AllObjects p u) : AllObjects p w := by
  intro o ho
  cases ho with
  | self => exact h o rfl
  | child hu ho => exact hchildren _ hu o ho

theorem object (h : p o) (harguments : ∀ w ∈ o.arguments, AllObjects p w)
    (hfields : ∀ f ∈ o.fields, AllObjects p f.type) : AllObjects p o.type := by
  refine of_children (fun o' heq => ObjectType.type_injective heq ▸ h) fun u hu => ?_
  rcases ObjectType.mem_children.mp hu with hu | ⟨f, hf, rfl⟩
  · exact harguments u hu
  · exact hfields f hf

theorem field (h : AllObjects p o.type) {f : Field WireType} (hf : f ∈ o.fields) :
    AllObjects p f.type :=
  fun o' ho' => h o' (.child (ObjectType.mem_children.mpr (.inr ⟨f, hf, rfl⟩)) ho')

/-- Every field of an intersection is one of its members' fields. -/
theorem meet {os : List ObjectType} (h : p (ObjectType.meet os)) (hos : ∀ o ∈ os, AllObjects p o.type) :
    AllObjects p (ObjectType.meet os).type := by
  refine object h (by simp [ObjectType.meet]) fun f hf => ?_
  obtain ⟨o, ho, hf⟩ := ObjectType.exists_of_mem_mergeAll hf
  exact (hos o ho).field hf

theorem unionOf {ws : List WireType} (h : ∀ w ∈ ws, AllObjects p w) : AllObjects p (.unionOf ws) := by
  intro o ho
  rcases ho.of_unionOf with ⟨w, hw, ho⟩ | hboolean | ⟨_, hself⟩
  · exact h w hw o ho
  · cases hboolean
  · cases hself

theorem structural (p : ObjectType → Prop) : Structural (AllObjects p) where
  of_children hw := of_children fun o heq => absurd heq (hw o)
  unionOf := unionOf

end AllObjects

/-- A step keeps such a property of types, and the cache has it, if the objects that it puts together have
it. -/
theorem Structural.rules {P : WireType → Prop} (h : Structural P) {scope : Scope}
    {B : State → TypeExpr → Prop} {A : Context → TypeExpr → Prop}
    (hleads : ∀ S t c' u, B S t → Leads scope (fun _ => P) S.context t c' u → A c' u)
    (hinline : ∀ identity fields, (∀ f ∈ fields, P f.type) → P (.object identity none [] fields)) :
    Rules scope B A (Cache.Holds P) (fun _ => True) fun _ => P where
  leads := hleads
  unsupported _ := trivial
  exhausted := trivial
  primitive _ _ := h.of_childless (by simp [ObjectType.type]) rfl
  literal _ _ _ _ _ := h.of_childless (by simp [ObjectType.type]) rfl
  constant _ _ _ _ _ _ _ _ _ := h.of_childless (by simp [ObjectType.type]) rfl
  unexpanded _ _ _ := h.of_childless (by simp [ObjectType.type]) rfl
  unbound _ _ _ := h.of_childless (by simp [ObjectType.type]) rfl
  missing _ _ _ _ _ := h.of_childless (by simp [ObjectType.type]) rfl
  back _ _ _ _ _ _ := h.of_childless (by simp [ObjectType.type]) rfl
  array _ w hw := h.of_children (by simp [ObjectType.type]) (by simpa [WireType.children] using hw)
  builtin _ name b _ _ _ hws :=
    h.of_children (fun o => b.apply_ne_object name _ _ _ _) fun u hu =>
      hws u (b.mem_of_mem_children_apply name hu)
  union _ _ hws := h.unionOf hws
  inline S _ fields _ _ hfields := hinline S.context.inlineIdentity fields hfields
  enter _ _ _ _ _ hws := hws
  leave _ _ _ _ _ _ hw _ := hw
  found c _ _ _ _ _ := (steady_remembered? c _).weaken fun _ hfound w hw => (hfound w hw).2
  store c _ _ _ _ _ hw hs _ := steady_remember c hs hw

namespace Resolve

/-- What is lawful where some calls may be made is lawful where only some of them may be made. -/
theorem Lawful.restricted_mono {A : Context → TypeExpr → Prop} {I : Cache → Prop}
    {F : Failure → Prop} {P : List Frame → WireType → Prop} {resolve : TypeExpr → Resolving WireType}
    {K K' : TypeExpr → State → Prop} (h : Lawful A I F P (restricted resolve K))
    (hexhausted : F .exhausted) (hK : ∀ t s, K' t s → K t s) :
    Lawful A I F P (restricted resolve K') := by
  intro t c hplace hc s hs
  by_cases hK' : K' t s
  · have hresolved := h t c hplace hc s hs
    rw [restricted_of hK']
    rwa [restricted_of (hK t s hK')] at hresolved
  · rw [restricted_of_not hK']
    exact ⟨hs, hexhausted⟩

/-- What a step for a type expression in a state resolves type expressions by, if it can make no other
calls than it makes. -/
noncomputable def ownCalls (scope : Scope) (depth : Nat) (t : TypeExpr) (S : State) :
    TypeExpr → Resolving WireType :=
  restricted (resolveType scope depth) (Asks (resolveStep scope · t) (resolveType scope depth) S)

end Resolve

namespace Resolver

/-! ## Histories -/

inductive Use where
  | resolve (depth : Nat) (t : TypeExpr) (origin : String)
  | reset

def use (r : Resolver) : Use → Resolver
  | .resolve depth t origin => (r.resolve depth t (.ofOrigin origin)).2.2
  | .reset => r.reset

def afterUses (r : Resolver) (uses : List Use) : Resolver := uses.foldl use r

/-- What a resolver is asked in the course of its history, at which depth of recursion and in which
state: what it is used for, and what a step for something that it is asked resolves on the way. -/
inductive Asked (types : List TypeDecl) (options : Options) (uses : List Use) :
    Nat → TypeExpr → State → Prop where
  | use {before after : List Use} {depth : Nat} {t : TypeExpr} {origin : String} :
    uses = before ++ .resolve depth t origin :: after →
      Asked types options uses depth t
        ⟨((fresh types options).afterUses before).cache, .ofOrigin origin⟩
  | call {depth : Nat} {t u : TypeExpr} {S s : State} : Asked types options uses (depth + 1) t S →
    Asks (resolveStep ⟨types, options⟩ · t) (resolveType ⟨types, options⟩ depth) S u s →
      Asked types options uses depth u s

/-! ## What is asked obeys the laws -/

section

variable {types : List TypeDecl} {options : Options} {uses : List Use} {F : Failure → Prop}

/-- Several laws at once, one for each `g`: if they hold of every step for something that is asked, where
they hold of the calls of the step, then they hold of everything that is asked. The induction is on the
depth of recursion: what a step calls for is asked at the depth below it. -/
theorem asked_lawful {ι : Type} {A : ι → Context → TypeExpr → Prop} {I : ι → Cache → Prop}
    {P : ι → List Frame → WireType → Prop} (hexhausted : F .exhausted)
    (law : ∀ depth t S, Asked types options uses (depth + 1) t S →
      (∀ g, Lawful (A g) (I g) F (P g) (ownCalls ⟨types, options⟩ depth t S)) →
      ∀ g, A g S.context t → StepLaw ⟨types, options⟩ (ownCalls ⟨types, options⟩ depth t S)
        (fun s u => s = S ∧ u = t) (A g) (I g) F (P g)) (depth : Nat) :
    ∀ g, Lawful (A g) (I g) F (P g)
      (restricted (resolveType ⟨types, options⟩ depth) (Asked types options uses depth)) := by
  induction depth with
  | zero =>
    intro g t c _ _ s hs
    by_cases hasked : Asked types options uses 0 t s
    · rw [restricted_of hasked]
      exact ⟨hs, hexhausted⟩
    · rw [restricted_of_not hasked]
      exact ⟨hs, hexhausted⟩
  | succ depth ih =>
    rintro g t c hplace hc S ⟨rfl, hI⟩
    by_cases hasked : Asked types options uses (depth + 1) t S
    -- The step would do the same if it could make no other calls than it makes; and these are asked for.
    · have hcalls : ∀ g, Lawful (A g) (I g) F (P g) (ownCalls ⟨types, options⟩ depth t S) := fun g =>
        (ih g).restricted_mono hexhausted fun u s hasks => hasked.call hasks
      have hstep := (hcalls g).resolveStep (law depth t S hasked hcalls g hplace) ⟨rfl, rfl⟩ hc hI
      rw [restricted_of hasked]
      rwa [ownCalls, (Sequential.resolveStep ⟨types, options⟩ t).restricted_eq] at hstep
    · rw [restricted_of_not hasked]
      exact ⟨⟨rfl, hI⟩, hexhausted⟩

variable {A : Context → TypeExpr → Prop} {I : Cache → Prop} {P : List Frame → WireType → Prop}
  (hlawful : ∀ depth, Lawful A I F P
    (restricted (resolveType ⟨types, options⟩ depth) (Asked types options uses depth)))

include hlawful

theorem resolve_asked {cache : Cache} (hcache : I cache) {depth : Nat} {t : TypeExpr} {origin : String}
    (hplace : A (.ofOrigin origin) t) (hasked : Asked types options uses depth t ⟨cache, .ofOrigin origin⟩) :
    ∃ result next, Resolver.resolve ⟨⟨types, options⟩, cache⟩ depth t (.ofOrigin origin) =
        (result, .ofOrigin origin, ⟨⟨types, options⟩, next⟩) ∧
      I next ∧ ∀ w, result = .ok w → P [] w := by
  have hresolved := hlawful depth t (.ofOrigin origin) hplace (binds_ofOrigin origin)
  have hs : (⟨cache, .ofOrigin origin⟩ : State).context = .ofOrigin origin ∧ I cache := ⟨rfl, hcache⟩
  unfold Resolver.resolve
  cases hrun : resolveType ⟨types, options⟩ depth t ⟨cache, .ofOrigin origin⟩ with
  | ok w next =>
    obtain ⟨⟨hcontext, hnext⟩, hw⟩ := hresolved.ok hs ((restricted_of hasked).trans hrun)
    refine ⟨.ok w, next.cache, by simp [hcontext], hnext, ?_⟩
    rintro _ ⟨⟩
    exact hw
  | error e next =>
    obtain ⟨⟨hcontext, hnext⟩, _⟩ := hresolved.error hs ((restricted_of hasked).trans hrun)
    exact ⟨.error e, next.cache, by simp [hcontext], hnext, by simp⟩

/-- At each point of the history the cache satisfies the invariant. -/
theorem invariant_of_asked (hempty : I .empty) (hplaces : ∀ t origin, A (.ofOrigin origin) t)
    (before : List Use) : ∀ after, uses = before ++ after →
      ∃ cache, (fresh types options).afterUses before = ⟨⟨types, options⟩, cache⟩ ∧ I cache := by
  induction before using List.reverseRecOn with
  | nil => exact fun _ _ => ⟨.empty, rfl, hempty⟩
  | append_singleton before u ih =>
    intro after heq
    rw [List.append_assoc, List.singleton_append] at heq
    obtain ⟨cache, hcache, hI⟩ := ih _ heq
    have hafter : (fresh types options).afterUses (before ++ [u]) =
        use ⟨⟨types, options⟩, cache⟩ u := by
      rw [afterUses, List.foldl_append, ← hcache]
      rfl
    rw [hafter]
    cases u with
    | reset => exact ⟨.empty, rfl, hempty⟩
    | resolve depth t origin =>
      have hasked : Asked types options uses depth t
          ⟨((fresh types options).afterUses before).cache, .ofOrigin origin⟩ := .use heq
      rw [hcache] at hasked
      obtain ⟨result, next, hresolve, hnext, _⟩ :=
        resolve_asked hlawful hI (hplaces t origin) hasked
      exact ⟨next, by rw [use, hresolve], hnext⟩

omit hlawful in
/-- An answer obeys a law that holds of everything that is asked, the question itself included. -/
theorem yields_of_asked {depth : Nat} {t : TypeExpr} {origin : String} {w : WireType}
    (hlawful : ∀ depth', Lawful A I F P (restricted (resolveType ⟨types, options⟩ depth')
      (Asked types options (uses ++ [.resolve depth t origin]) depth')))
    (hempty : I .empty) (hplaces : ∀ t origin, A (.ofOrigin origin) t)
    (hw : (((fresh types options).afterUses uses).resolve depth t (.ofOrigin origin)).1 = .ok w) :
    P [] w := by
  obtain ⟨cache, hcache, hI⟩ := invariant_of_asked hlawful hempty hplaces uses _ rfl
  have hasked : Asked types options (uses ++ [.resolve depth t origin]) depth t
      ⟨((fresh types options).afterUses uses).cache, .ofOrigin origin⟩ := .use rfl
  rw [hcache] at hasked
  obtain ⟨result, next, hresolve, _, hresult⟩ :=
    resolve_asked hlawful hI (hplaces t origin) hasked
  rw [hcache, hresolve] at hw
  exact hresult w hw

end

end Resolver

end AnnotatedApi
