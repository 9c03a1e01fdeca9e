import AnnotatedApi.Proofs.WireType.Equality

/-!
# The normal form of unions

A union in normal form is flat, names no member twice, has several members or none, and does not
spell `boolean` out as two literals. `unionOf` brings the members into this form, whatever it is
given, provided that what it is given is in normal form itself.
-/

namespace AnnotatedApi

set_option autoImplicit false

namespace WireType

/-! ## What collapsing leaves -/

/-- Two types that are not equal, whichever of them one starts with. -/
def Differ (t u : WireType) : Prop := same t u = false ∧ same u t = false

theorem differ_of_not_same {t u : WireType} (h : ¬ same t u = true) : Differ t u :=
  ⟨Bool.eq_false_iff.mpr h, Bool.eq_false_iff.mpr fun hback => h (same_symm u t hback)⟩

theorem pairwise_pushDistinct {members : List WireType} (h : members.Pairwise Differ)
    (candidate : WireType) : (pushDistinct members candidate).Pairwise Differ := by
  unfold pushDistinct
  split
  · exact h
  · rename_i hnone
    simp only [List.any_eq_true, not_exists, not_and] at hnone
    refine List.pairwise_append.mpr ⟨h, List.pairwise_singleton _ _, fun t ht u hu => ?_⟩
    obtain rfl := List.mem_singleton.mp hu
    exact differ_of_not_same (hnone t ht)

theorem pairwise_distinct (types : List WireType) : (distinct types).Pairwise Differ := by
  suffices hfold : ∀ members : List WireType, members.Pairwise Differ →
      (types.foldl pushDistinct members).Pairwise Differ from hfold [] .nil
  induction types with
  | nil => exact fun _ h => h
  | cons t types ih => exact fun members h => ih _ (pairwise_pushDistinct h t)

theorem isBooleanLiteral_widenBoolean (t : WireType) : t.widenBoolean.isBooleanLiteral = false := by
  unfold widenBoolean
  split
  · rfl
  · rename_i h
    exact Bool.eq_false_iff.mpr h

/-- Where a boolean literal is found, there is one. -/
theorem exists_isBooleanLiteral {types : List WireType} {b : Bool}
    (h : hasLiteral types (.boolean b) = true) : ∃ t ∈ types, t.isBooleanLiteral = true := by
  obtain ⟨t, ht, hsame⟩ := List.any_eq_true.mp h
  refine ⟨t, ht, ?_⟩
  split at hsame
  · rename_i v
    cases v <;> simp_all [Literal.same, isBooleanLiteral]
  · cases hsame

/-! ## Unions -/

/-- The members of a union in normal form. -/
structure InNormalForm (members : List WireType) : Prop where
  /-- No member is a union itself. -/
  flat : ∀ t ∈ members, ∀ inner, t ≠ .union inner
  /-- No two members are equal. -/
  distinct : members.Pairwise Differ
  several : members.length ≠ 1
  /-- The literals `true` and `false` are not both there. -/
  widened : ¬ (hasLiteral members (.boolean true) = true ∧ hasLiteral members (.boolean false) = true)

/-- Whether every union in the type, at any depth, is in normal form. -/
def IsNormal (w : WireType) : Prop := ∀ members, w.Contains (.union members) → InNormalForm members

theorem IsNormal.child {t u : WireType} (h : t.IsNormal) (hu : u ∈ t.children) : u.IsNormal :=
  fun members hmembers => h members (.child hu hmembers)

/-- Whether the type is no union, or one without unions among its members. -/
def IsFlat (t : WireType) : Prop := ∀ u ∈ t.alternatives, ∀ inner, u ≠ .union inner

theorem IsNormal.isFlat {t : WireType} (h : t.IsNormal) : t.IsFlat := by
  intro u hu
  cases t with
  | union members => exact (h members .self).flat u hu
  | _ => simp_all [alternatives]

/-- A type other than a union is in normal form if the types are of which it is made up. -/
theorem IsNormal.of_children {t : WireType} (ht : ∀ members, t ≠ .union members)
    (h : ∀ u ∈ t.children, u.IsNormal) : t.IsNormal := by
  intro members hmembers
  cases hmembers with
  | self => exact absurd rfl (ht members)
  | child hu hmembers => exact h _ hu members hmembers

theorem IsNormal.object {identity : String} {name : Option String} {args : List WireType}
    {fields : List (Field WireType)} (hargs : ∀ t ∈ args, t.IsNormal)
    (hfields : ∀ f ∈ fields, f.type.IsNormal) : (object identity name args fields).IsNormal := by
  refine .of_children (by simp) fun u hu => ?_
  rcases List.mem_append.mp hu with hu | hu
  · exact hargs u hu
  · obtain ⟨f, hf, rfl⟩ := List.mem_map.mp hu
    exact hfields f hf

section

variable {types : List WireType}

theorem flat_unionMembers (h : ∀ t ∈ types, t.IsFlat) {t : WireType} (ht : t ∈ unionMembers types)
    (inner : List WireType) : t ≠ .union inner := by
  rintro rfl
  rcases mem_unionMembers ht with ⟨u, hu, ht⟩ | heq
  · exact h u hu _ ht inner rfl
  · cases heq

theorem pairwise_unionMembers (types : List WireType) : (unionMembers types).Pairwise Differ := by
  simp only [unionMembers]
  split <;> exact pairwise_distinct _

theorem widened_unionMembers (types : List WireType) :
    ¬ (hasLiteral (unionMembers types) (.boolean true) = true ∧
      hasLiteral (unionMembers types) (.boolean false) = true) := by
  simp only [unionMembers]
  split
  · rintro ⟨htrue, -⟩
    obtain ⟨t, ht, hliteral⟩ := exists_isBooleanLiteral htrue
    obtain ⟨u, _, rfl⟩ := List.mem_map.mp (mem_of_mem_distinct ht)
    rw [isBooleanLiteral_widenBoolean] at hliteral
    cases hliteral
  · rename_i hnot
    rwa [Bool.and_eq_true] at hnot

theorem length_unionMembers (h : unionOf types = .union (unionMembers types))
    (hflat : ∀ t ∈ unionMembers types, ∀ inner, t ≠ .union inner) :
    (unionMembers types).length ≠ 1 := by
  intro hlength
  obtain ⟨t, ht⟩ := List.length_eq_one_iff.mp hlength
  rw [unionOf, ht] at h
  exact hflat t (by simp [ht]) _ h

/-- The union of types in normal form is in normal form. -/
theorem IsNormal.unionOf (h : ∀ t ∈ types, t.IsNormal) : (unionOf types).IsNormal := by
  intro members hmembers
  rcases hmembers.of_unionOf with ⟨t, ht, hmembers⟩ | hboolean | ⟨heq, hself⟩
  · exact h t ht members hmembers
  · cases hboolean
  · cases hself
    have hflat := fun t (ht : t ∈ unionMembers types) =>
      flat_unionMembers (fun u hu => (h u hu).isFlat) ht
    exact ⟨hflat, pairwise_unionMembers types, length_unionMembers heq hflat,
      widened_unionMembers types⟩

end

end WireType

end AnnotatedApi
