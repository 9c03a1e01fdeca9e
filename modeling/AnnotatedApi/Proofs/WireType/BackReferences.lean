import AnnotatedApi.Proofs.WireType.OpenReferences

/-!
# References back, in whatever is built

A type points back wherever there is a reference in it, whether some object around it catches the
reference or not. Unions and built-in types lose no open reference of what they are built from.
-/

namespace AnnotatedApi

set_option autoImplicit false

namespace WireType

variable {b : String}

/-- Somewhere in the type there is a reference back to `b`. -/
inductive PointsBack (b : String) : WireType → Prop where
  | here : PointsBack b (.back b)
  | child {t u : WireType} : u ∈ t.children → PointsBack b u → PointsBack b t

theorem PointsBack.contains {t : WireType} (h : t.PointsBack b) : t.Contains (.back b) := by
  induction h with
  | here => exact .self
  | child hu _ ih => exact .child hu ih

theorem Contains.pointsBack {t : WireType} (h : t.Contains (.back b)) : t.PointsBack b := by
  generalize hu : WireType.back b = u at h
  induction h with
  | self => exact hu ▸ .here
  | child hmem _ ih => exact .child hmem (ih hu)

theorem PointsBack.exists_child {t : WireType} (h : t.PointsBack b) (ht : ∀ i, t ≠ .back i) :
    ∃ u ∈ t.children, u.PointsBack b := by
  cases h with
  | here => exact absurd rfl (ht b)
  | child hu h => exact ⟨_, hu, h⟩

theorem PointsBack.of_mem_openReferences (t : WireType) (h : b ∈ t.openReferences) :
    t.PointsBack b := by
  induction t using induction_children with
  | step t ih =>
    rcases mem_openReferences_iff_child.mp h with rfl | ⟨-, u, hu, hb⟩
    · exact .here
    · exact .child hu (ih u hu hb)

/-- Only an object catches references. -/
theorem mem_openReferences_of_child {t u : WireType} (hu : u ∈ t.children) (hb : b ∈ u.openReferences)
    (ht : ∀ i name args fields, t ≠ .object i name args fields) : b ∈ t.openReferences := by
  refine mem_openReferences_iff_child.mpr (.inr ⟨fun hidentity => ?_, u, hu, hb⟩)
  cases t with
  | object i name args fields => exact ht i name args fields rfl
  | _ => cases hidentity

/-! ## Unions -/

mutual

/-- Equal types have the same open references. -/
theorem openReferences_eq_of_same : ∀ t u : WireType, same t u = true →
    t.openReferences = u.openReferences
  | .primitive _, u, h => by cases u <;> simp_all [same, openReferences]
  | .literal _, u, h => by cases u <;> simp_all [same, openReferences]
  | .unexpanded _, u, h => by cases u <;> simp_all [same, openReferences]
  | .back _, u, h => by cases u <;> simp_all [same, openReferences]
  | .array t, u, h => by
    cases u with
    | array u => exact openReferences_eq_of_same t u (by simpa only [same] using h)
    | _ => simp [same] at h
  | .promise t, u, h => by
    cases u with
    | promise u => exact openReferences_eq_of_same t u (by simpa only [same] using h)
    | _ => simp [same] at h
  | .union ts, u, h => by
    cases u with
    | union us => exact openOfList_eq_of_same ts us (by simpa only [same] using h)
    | _ => simp [same] at h
  | .generic _ ts, u, h => by
    cases u with
    | generic _ us =>
      simp only [same, Bool.and_eq_true] at h
      exact openOfList_eq_of_same ts us h.2
    | _ => simp [same] at h
  | .object _ _ ts fs, u, h => by
    cases u with
    | object _ _ us gs =>
      simp only [same, Bool.and_eq_true, beq_iff_eq] at h
      rw [openReferences, openReferences, openOfList_eq_of_same ts us h.1.2,
        openOfFields_eq_of_same fs gs h.2, h.1.1.1]
    | _ => simp [same] at h

theorem openOfList_eq_of_same : ∀ ts us : List WireType, sameList ts us = true →
    openOfList ts = openOfList us
  | [], [], _ => rfl
  | [], _ :: _, h => by simp [sameList] at h
  | _ :: _, [], h => by simp [sameList] at h
  | t :: ts, u :: us, h => by
    simp only [sameList, Bool.and_eq_true] at h
    rw [openOfList, openOfList, openReferences_eq_of_same t u h.1, openOfList_eq_of_same ts us h.2]

theorem openOfFields_eq_of_same : ∀ fs gs : List (Field WireType), sameFields fs gs = true →
    openOfFields fs = openOfFields gs
  | [], [], _ => rfl
  | [], _ :: _, h => by simp [sameFields] at h
  | _ :: _, [], h => by simp [sameFields] at h
  | ⟨_, t, _, _⟩ :: fs, ⟨_, u, _, _⟩ :: gs, h => by
    simp only [sameFields, Bool.and_eq_true] at h
    rw [openOfFields, openOfFields, openReferences_eq_of_same t u h.1.1.1.2,
      openOfFields_eq_of_same fs gs h.2]

end

theorem mem_openOfList_distinct {types : List WireType} :
    b ∈ openOfList (distinct types) ↔ b ∈ openOfList types := by
  suffices hfold : ∀ members, b ∈ openOfList (types.foldl pushDistinct members) ↔
      b ∈ openOfList members ∨ b ∈ openOfList types by
    have hall := hfold []
    rwa [openOfList, List.mem_nil_iff, false_or] at hall
  induction types with
  | nil => simp [openOfList]
  | cons t types ih =>
    intro members
    have hpush : b ∈ openOfList (pushDistinct members t) ↔
        b ∈ openOfList members ∨ b ∈ t.openReferences := by
      unfold pushDistinct
      split
      · rename_i hany
        obtain ⟨u, hu, hsame⟩ := List.any_eq_true.mp hany
        refine ⟨.inl, fun h => h.elim id fun h => mem_openOfList.mpr ⟨u, hu, ?_⟩⟩
        rwa [openReferences_eq_of_same u t hsame]
      · simp only [mem_openOfList, List.mem_append, List.mem_singleton, or_and_right, exists_or,
          exists_eq_left]
    rw [List.foldl_cons, ih, hpush, openOfList, List.mem_append, or_assoc]

theorem openReferences_widenBoolean (t : WireType) :
    t.widenBoolean.openReferences = t.openReferences := by
  unfold widenBoolean
  split
  · rename_i h
    unfold isBooleanLiteral at h
    split at h
    · rfl
    · cases h
  · rfl

theorem openOfList_map_widenBoolean (types : List WireType) :
    openOfList (types.map widenBoolean) = openOfList types := by
  induction types with
  | nil => rfl
  | cons t types ih =>
    rw [List.map_cons, openOfList, openOfList, openReferences_widenBoolean, ih]

theorem mem_openReferences_unionOf {types : List WireType} :
    b ∈ (unionOf types).openReferences ↔ ∃ t ∈ types, b ∈ t.openReferences := by
  have hflat : b ∈ openOfList (types.flatMap alternatives) ↔ ∃ t ∈ types, b ∈ t.openReferences := by
    have halternatives : ∀ t : WireType, b ∈ openOfList t.alternatives ↔ b ∈ t.openReferences := by
      intro t
      cases t <;> simp [alternatives, openOfList, openReferences]
    simp only [mem_openOfList, List.mem_flatMap] at halternatives ⊢
    constructor
    · rintro ⟨u, ⟨t, ht, hu⟩, hb⟩
      exact ⟨t, ht, (halternatives t).mp ⟨u, hu, hb⟩⟩
    · rintro ⟨t, ht, hb⟩
      obtain ⟨u, hu, hb⟩ := (halternatives t).mpr hb
      exact ⟨u, ⟨t, ht, hu⟩, hb⟩
  have hmembers : b ∈ openOfList (unionMembers types) ↔ ∃ t ∈ types, b ∈ t.openReferences := by
    simp only [unionMembers]
    split
    · rw [mem_openOfList_distinct, openOfList_map_widenBoolean, mem_openOfList_distinct, hflat]
    · rw [mem_openOfList_distinct, hflat]
  rw [unionOf]
  split
  · rename_i single h
    rw [← hmembers, h]
    simp [openOfList]
  · exact hmembers

theorem PointsBack.of_unionOf {types : List WireType} (h : (unionOf types).PointsBack b) :
    ∃ t ∈ types, t.PointsBack b := by
  rcases h.contains.of_unionOf with ⟨t, ht, hb⟩ | hboolean | ⟨-, hself⟩
  · exact ⟨t, ht, hb.pointsBack⟩
  · cases hboolean
  · cases hself

end WireType

end AnnotatedApi
