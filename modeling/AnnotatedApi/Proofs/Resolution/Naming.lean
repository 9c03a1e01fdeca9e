import AnnotatedApi.Proofs.Resolution.Law
import AnnotatedApi.Proofs.Text.Brackets
import Mathlib.Data.List.TakeWhile

/-!
# What identities tell

The identity of an instance begins with the qualified name of its declaration, up to the bracket
around the type arguments. If qualified names have no such bracket, an identity tells the declaration,
and an object in the fields of a declaration never has the identity of an instance.
-/

namespace AnnotatedApi

set_option autoImplicit false

open Resolve

/-- Whether a name has none of the brackets that stand around type arguments. -/
def Plain (s : String) : Prop := '<' ∉ s.toList ∧ '>' ∉ s.toList

instance (s : String) : Decidable (Plain s) :=
  inferInstanceAs <| Decidable <| '<' ∉ s.toList ∧ '>' ∉ s.toList

namespace Resolve

/-- Whether the names of declarations tell them apart, also inside the identities of their instances
and of the objects in their fields. -/
structure Scope.WellNamed (scope : Scope) : Prop where
  distinct : ∀ d ∈ scope.types, ∀ e ∈ scope.types, d.qualifiedName = e.qualifiedName → d = e
  plain : ∀ d ∈ scope.types, '<' ∉ d.qualifiedName.toList
  nested : ∀ d ∈ scope.types, ∀ e ∈ scope.types,
    ¬ (d.qualifiedName.toList ++ ['.']) <+: e.qualifiedName.toList

/-- Whether a frame is that of an instance of the declaration. -/
def Frame.Of (f : Frame) (d : TypeDecl) : Prop := ∃ arguments, f = frameOf d arguments

theorem frameOf_of (d : TypeDecl) (arguments : List WireType) : (frameOf d arguments).Of d :=
  ⟨arguments, rfl⟩

/-- The characters of an identity: the qualified name, and the type arguments in brackets. -/
theorem toList_instanceIdentity (d : TypeDecl) (arguments : List WireType) :
    (instanceIdentity d arguments).toList = d.qualifiedName.toList ∨
      ∃ text, (instanceIdentity d arguments).toList = d.qualifiedName.toList ++ '<' :: (text ++ ['>']) := by
  unfold instanceIdentity
  split
  · exact .inl rfl
  · refine .inr ⟨(String.intercalate ", " (arguments.map WireType.key)).toList, ?_⟩
    simp [String.toList_append]

theorem plain_intercalate {separator : String} (hs : Plain separator) {names : List String}
    (h : ∀ s ∈ names, Plain s) : Plain (String.intercalate separator names) := by
  have hiff : ∀ s : String, Plain s ↔ ∀ c ∈ s.toList, c ≠ '<' ∧ c ≠ '>' := by
    intro s
    exact ⟨fun ⟨hopen, hclose⟩ c hc => ⟨fun heq => hopen (heq ▸ hc), fun heq => hclose (heq ▸ hc)⟩,
      fun h => ⟨fun hc => (h _ hc).1 rfl, fun hc => (h _ hc).2 rfl⟩⟩
  rw [hiff] at hs ⊢
  exact Text.forall_mem_intercalate hs fun t ht => (hiff t).mp (h t ht)

namespace Scope.WellNamed

variable {scope : Scope} {d e : TypeDecl} {as bs : List WireType}

theorem takeWhile_instanceIdentity (h : scope.WellNamed) (hd : d ∈ scope.types) (as : List WireType) :
    (instanceIdentity d as).toList.takeWhile (· != '<') = d.qualifiedName.toList := by
  have hplain : ∀ c ∈ d.qualifiedName.toList, (c != '<') = true := by
    intro c hc
    rw [bne_iff_ne]
    rintro rfl
    exact h.plain d hd hc
  rcases toList_instanceIdentity d as with heq | ⟨text, heq⟩
  · rw [heq, List.takeWhile_eq_self_iff.mpr hplain]
  · rw [heq, List.takeWhile_append_of_pos hplain, List.takeWhile_cons_of_neg (by simp), List.append_nil]

/-- The identity of an instance tells the declaration. -/
theorem eq_of_instanceIdentity_eq (h : scope.WellNamed) (hd : d ∈ scope.types) (he : e ∈ scope.types)
    (heq : instanceIdentity d as = instanceIdentity e bs) : d = e := by
  refine h.distinct d hd e he (String.toList_inj.mp ?_)
  rw [← h.takeWhile_instanceIdentity hd as, heq, h.takeWhile_instanceIdentity he bs]

theorem eq_of_frame (h : scope.WellNamed) (hd : d ∈ scope.types) (he : e ∈ scope.types) {f : Frame}
    (hf : f.Of e) (heq : f.identity = instanceIdentity d as) : e = d := by
  obtain ⟨bs, rfl⟩ := hf
  exact h.eq_of_instanceIdentity_eq he hd heq

/-- An object in a field of a declaration never has the identity of an instance. -/
theorem inlineIdentity_ne (h : scope.WellNamed) {c : Context} {top f : Frame} {rest : List Frame}
    (hframes : c.frames = top :: rest) (hd : d ∈ scope.types) (htop : top.Of d) (he : e ∈ scope.types)
    (hf : f.Of e) (hpath : c.fieldPath ≠ []) (hplain : ∀ s ∈ c.fieldPath, Plain s) :
    c.inlineIdentity ≠ f.identity := by
  obtain ⟨as, rfl⟩ := htop
  obtain ⟨bs, rfl⟩ := hf
  have hpath' : Plain (String.intercalate "." c.fieldPath.reverse) :=
    plain_intercalate (by decide) fun s hs => hplain s (List.mem_reverse.mp hs)
  intro heq
  have hinline : c.inlineIdentity =
      instanceIdentity d as ++ ("." ++ String.intercalate "." c.fieldPath.reverse) := by
    simp [Context.inlineIdentity, hframes, hpath, frameOf, String.append_assoc]
  rw [hinline] at heq
  generalize String.intercalate "." c.fieldPath.reverse = path at hpath' heq
  have hchars := congrArg String.toList heq
  rw [String.toList_append, String.toList_append] at hchars
  change _ ++ ('.' :: path.toList) = (instanceIdentity e bs).toList at hchars
  have hbracket : '<' ∉ d.qualifiedName.toList ++ '.' :: path.toList := by
    simp [h.plain d hd, hpath'.1]
  rcases toList_instanceIdentity d as with hd' | ⟨text, hd'⟩ <;>
    rcases toList_instanceIdentity e bs with he' | ⟨text', he'⟩ <;> rw [hd', he'] at hchars
  · exact h.nested d hd e he ⟨path.toList, by rw [← hchars, List.append_assoc]; rfl⟩
  · exact hbracket (by rw [hchars]; simp)
  · exact h.plain e he (by rw [← hchars]; simp)
  -- Behind the type arguments there is a plain path, which does not end in a bracket.
  · have hlast : ('.' :: path.toList).getLast? = some '>' := by
      have := congrArg List.getLast? hchars
      simpa [List.getLast?_append, List.getLast?_cons] using this
    have hmem := List.mem_of_getLast? hlast
    simp [hpath'.2] at hmem

end Scope.WellNamed

end Resolve

end AnnotatedApi
