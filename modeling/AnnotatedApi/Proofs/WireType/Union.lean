import AnnotatedApi.WireType.Basic

/-!
# Where the members of a union come from

Building a union makes up no types: its members are members of the types that go into it, or the
scalar that stands for both boolean literals.
-/

namespace AnnotatedApi.WireType

set_option autoImplicit false

theorem mem_of_mem_distinct {types : List WireType} {t : WireType} (h : t ∈ distinct types) :
    t ∈ types := by
  suffices hfold : ∀ members, t ∈ types.foldl pushDistinct members → t ∈ members ∨ t ∈ types by
    exact (hfold [] h).resolve_left (by simp)
  clear h
  induction types with
  | nil => exact fun members h => .inl h
  | cons u types ih =>
    intro members h
    rcases ih (pushDistinct members u) h with h | h
    · by_cases hu : members.any (same · u) = true
      · rw [pushDistinct, if_pos hu] at h
        exact .inl h
      · rw [pushDistinct, if_neg hu, List.mem_append, List.mem_singleton] at h
        rcases h with h | rfl
        · exact .inl h
        · exact .inr (List.mem_cons_self ..)
    · exact .inr (List.mem_cons_of_mem _ h)

theorem mem_unionMembers {types : List WireType} {t : WireType} (h : t ∈ unionMembers types) :
    (∃ u ∈ types, t ∈ u.alternatives) ∨ t = .primitive .boolean := by
  have hflat : ∀ u, u ∈ distinct (types.flatMap alternatives) → ∃ v ∈ types, u ∈ v.alternatives := by
    intro u hu
    exact List.mem_flatMap.mp (mem_of_mem_distinct hu)
  simp only [unionMembers] at h
  split at h
  · obtain ⟨u, hu, rfl⟩ := List.mem_map.mp (mem_of_mem_distinct h)
    by_cases hb : u.isBooleanLiteral = true
    · exact .inr (by rw [widenBoolean, if_pos hb])
    · rw [widenBoolean, if_neg hb]
      exact .inl (hflat u hu)
  · exact .inl (hflat t h)

/-- A union has several members or none; a single one stands for itself. -/
theorem unionOf_eq (types : List WireType) :
    unionOf types = .union (unionMembers types) ∨ unionOf types ∈ unionMembers types := by
  rw [unionOf]
  split
  · rename_i single h
    exact .inr (h ▸ List.mem_singleton.mpr rfl)
  · exact .inl rfl

end AnnotatedApi.WireType
