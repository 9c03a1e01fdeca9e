import AnnotatedApi.Proofs.Resolution.History
import AnnotatedApi.Proofs.WireType.NormalForm

/-!
# Every answer is in normal form

To be in normal form is a law of resolution: unions are built by `unionOf` only, and everything else
is put together from types that are in normal form already, those from the cache included.
-/

namespace AnnotatedApi

set_option autoImplicit false

open WireType

namespace Resolve

theorem isNormal_of_taken {identity : String} {f : Field WireType}
    (h : TakenFrom IsNormal identity f) : f.type.IsNormal := by
  obtain ⟨name, arguments, fields, hobject, hf⟩ := h
  exact hobject.child (List.mem_append_right _ (List.mem_map_of_mem hf))

theorem normalLaw (scope : Scope) :
    Law scope (Cache.Holds IsNormal) Failure.Ordinary fun _ => IsNormal where
  unsupported := by simp [Failure.Ordinary]
  exhausted := by simp [Failure.Ordinary]
  primitive _ _ := .of_children (by simp) (by simp [children])
  literal _ _ := .of_children (by simp) (by simp [children])
  unexpanded _ _ := .of_children (by simp) (by simp [children])
  unbound _ _ := .of_children (by simp) (by simp [children])
  array _ _ ht := .of_children (by simp) (by simpa [children] using ht)
  builtin _ name b _ _ _ h :=
    .of_children (b.apply_ne_union name) fun t ht => h t (b.mem_of_mem_children_apply name ht)
  union _ _ h := .unionOf h
  back _ _ _ := .of_children (by simp) (by simp [children])
  inline _ _ h := .object (by simp) h
  intersection _ _ _ _ h := .object (by simp) fun f hf =>
    let ⟨_, _, htaken⟩ := h f hf
    isNormal_of_taken htaken
  enter _ _ _ _ _ h := h
  declared _ _ _ _ _ hargs h := .object hargs fun f hf =>
    (h f hf).elim id fun ⟨_, _, htaken⟩ => isNormal_of_taken htaken
  leave _ _ _ _ _ h _ := h
  found c d arguments _ _ _ := (steady_remembered? c _).weaken fun _ h t ht => (h t ht).2
  store c _ _ _ _ _ ht hs _ := steady_remember c hs ht

end Resolve

open Resolve

namespace Resolver

variable {types : List TypeDecl} {options : Options} {r : Resolver}

/-- Whatever has been resolved before, an answer is in normal form, and so is everything that the
resolver remembers before and after the call. -/
theorem Reachable.isNormal (h : Reachable types options r) (depth : Nat) (t : TypeExpr)
    (origin : String) :
    (∀ w, (r.resolve depth t (.ofOrigin origin)).1 = .ok w → w.IsNormal) ∧
      (∀ entry ∈ r.cache.entries, entry.2.IsNormal) ∧
        ∀ entry ∈ (r.resolve depth t (.ofOrigin origin)).2.2.cache.entries, entry.2.IsNormal := by
  obtain ⟨hscope, hcache⟩ := h.invariant (normalLaw _) Cache.holds_empty
  obtain ⟨result, cache, hresolve, hafter, hresult⟩ :=
    resolve_lawful (normalLaw r.scope) hcache depth t _ (binds_ofOrigin origin)
  simp only [hresolve]
  refine ⟨?_, fun entry hentry => (hcache _ _ hentry).2, fun entry hentry => (hafter _ _ hentry).2⟩
  rintro w rfl
  exact hresult

/-- An enumeration of both truth values, and a generic pair of alternatives. -/
def choices : List TypeDecl :=
  let span : Span := ⟨"m.ts", .zero, .zero⟩
  [⟨"Answer", "m.ts#Answer", [], .enumeration [⟨"yes", .bool true⟩, ⟨"no", .bool false⟩], span⟩,
    ⟨"Either", "m.ts#Either", [⟨"L", none⟩, ⟨"R", none⟩],
      .interface [] [⟨"value", .union [.parameter "L", .parameter "R"], false, none, none, span⟩],
      span⟩]

/-- A union of an enumeration and a literal becomes flat when it is given for a type parameter. -/
theorem isNormal_either : ∃ w, ((fresh choices .default).resolve 6
      (.reference "Either" [.union [.reference "Answer" [], .literal (.bool true)],
        .keyword "string"]) (.ofOrigin "m")).1 = .ok w ∧
    w.Contains (.union [.primitive .boolean, .literal (.boolean true), .primitive .string]) ∧
      w.IsNormal := by
  have hresolved : ∃ w, ((fresh choices .default).resolve 6
      (.reference "Either" [.union [.reference "Answer" [], .literal (.bool true)],
        .keyword "string"]) (.ofOrigin "m")).1 = .ok w ∧
      WireType.union [.primitive .boolean, .literal (.boolean true), .primitive .string] ∈ w.children :=
    ⟨_, rfl, .tail _ (.tail _ (.head _))⟩
  obtain ⟨w, hw, hunion⟩ := hresolved
  exact ⟨w, hw, .child hunion .self, (Reachable.isNormal .fresh 6 _ "m").1 w hw⟩

end Resolver

end AnnotatedApi
