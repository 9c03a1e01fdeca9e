import AnnotatedApi.Annotation.Restriction
import AnnotatedApi.Proofs.WireType.Members

/-!
# Restricting a union is restricting its members

Building a union may drop a member, widen a boolean literal or leave a single member bare. No restriction
tells equal types apart, nor a boolean literal from the scalar, so what the restrictions say of the union is
what they say of the alternatives that went into it. More restrictions only permit more.
-/

namespace AnnotatedApi

set_option autoImplicit false

namespace Restriction

open WireType

/-! ## Permission by alternatives -/

theorem accepts_of_isAbsence (r : Restriction) {t : WireType} (h : isAbsence t = true) :
    r.accepts t = false := by
  cases t with
  | primitive p => cases p <;> cases r <;> first | rfl | cases h
  | _ => cases h

theorem permittedBy_of_not_union {t : WireType} (accepts : WireType → Bool)
    (h : ∀ members, t ≠ .union members) : permittedBy accepts t = accepts t := by
  cases t with
  | union members => exact absurd rfl (h members)
  | _ => rfl

/-- A single type is permitted like a union of which it is the only member. -/
theorem permittedBy_iff {accepts : WireType → Bool}
    (habsence : ∀ t, isAbsence t = true → accepts t = false) (t : WireType) :
    permittedBy accepts t = true ↔ (∃ u ∈ t.alternatives, isAbsence u = false) ∧
      ∀ u ∈ t.alternatives, isAbsence u = false → accepts u = true := by
  by_cases hunion : ∃ members, t = .union members
  · obtain ⟨members, rfl⟩ := hunion
    simp only [permittedBy, alternatives, Bool.and_eq_true, Bool.not_eq_true', List.all_eq_true,
      List.isEmpty_eq_false_iff_exists_mem, List.mem_filter, and_imp]
  · have hnot : ∀ members, t ≠ .union members := fun members h => hunion ⟨members, h⟩
    rw [permittedBy_of_not_union accepts hnot, alternatives_of_not_union hnot]
    simp only [List.mem_singleton, exists_eq_left, forall_eq]
    constructor
    · intro h
      refine ⟨Bool.eq_false_iff.mpr fun ht => ?_, fun _ => h⟩
      rw [habsence t ht] at h
      cases h
    · exact fun h => h.2 h.1

/-- Whether a list has something other than absences, and all of that has one of the shapes. -/
def Fits (restrictions : List Restriction) (types : List WireType) : Prop :=
  (∃ t ∈ types, isAbsence t = false) ∧
    ∀ t ∈ types, isAbsence t = false → ∃ r ∈ restrictions, r.accepts t = true

theorem permits_iff {restrictions : List Restriction} (h : restrictions ≠ []) (t : WireType) :
    permits restrictions t = true ↔ Fits restrictions t.alternatives := by
  rw [permits, List.isEmpty_eq_false_iff.mpr h, Bool.false_or, permittedBy_iff, Fits]
  · simp only [List.any_eq_true]
  · exact fun u hu => List.any_eq_false.mpr fun r _ => by simp [accepts_of_isAbsence r hu]

theorem accepts_arrayOf (element : Restriction) (t : WireType) :
    (arrayOf element).accepts (.array t) = permits [element] t := by
  simp [accepts, permits]

theorem Fits.mono {restrictions more : List Restriction} {types : List WireType}
    (h : Fits restrictions types) (hmore : restrictions ⊆ more) : Fits more types :=
  ⟨h.1, fun t ht hvalue =>
    let ⟨r, hr, haccepts⟩ := h.2 t ht hvalue
    ⟨r, hmore hr, haccepts⟩⟩

/-! ## What restrictions cannot tell apart -/

/-- Two types that the restrictions do not tell apart. -/
structure Alike (restrictions : List Restriction) (t u : WireType) : Prop where
  absence : isAbsence t = isAbsence u
  accepts : ∀ r ∈ restrictions, r.accepts t = r.accepts u

/-- Lists that cover each other up to what is told apart fit alike. -/
theorem fits_congr {restrictions : List Restriction} {ts us : List WireType}
    (hto : ∀ t ∈ ts, ∃ u ∈ us, Alike restrictions t u)
    (hfrom : ∀ u ∈ us, ∃ t ∈ ts, Alike restrictions t u) :
    Fits restrictions ts ↔ Fits restrictions us := by
  constructor
  · rintro ⟨⟨t, ht, hvalue⟩, hall⟩
    obtain ⟨u, hu, halike⟩ := hto t ht
    refine ⟨⟨u, hu, halike.absence ▸ hvalue⟩, fun u hu hvalue => ?_⟩
    obtain ⟨t, ht, halike⟩ := hfrom u hu
    obtain ⟨r, hr, haccepts⟩ := hall t ht (halike.absence.trans hvalue)
    exact ⟨r, hr, (halike.accepts r hr).symm.trans haccepts⟩
  · rintro ⟨⟨u, hu, hvalue⟩, hall⟩
    obtain ⟨t, ht, halike⟩ := hfrom u hu
    refine ⟨⟨t, ht, halike.absence.trans hvalue⟩, fun t ht hvalue => ?_⟩
    obtain ⟨u, hu, halike⟩ := hto t ht
    obtain ⟨r, hr, haccepts⟩ := hall u hu (halike.absence ▸ hvalue)
    exact ⟨r, hr, (halike.accepts r hr).trans haccepts⟩

theorem isAbsence_of_same {t u : WireType} (h : same t u = true) : isAbsence t = isAbsence u := by
  cases t with
  | primitive p => rw [same_primitive.mp h]
  | _ => cases u <;> first | rfl | simp [same] at h

theorem exists_same_of_sameList {ts us : List WireType} (h : sameList ts us = true) :
    ∀ t ∈ ts, ∃ u ∈ us, same t u = true := by
  induction ts generalizing us with
  | nil => simp
  | cons t ts ih =>
    cases us with
    | nil => simp [sameList] at h
    | cons u us =>
      simp only [sameList, Bool.and_eq_true] at h
      exact List.forall_mem_cons.mpr ⟨⟨u, List.mem_cons_self .., h.1⟩, fun v hv =>
        (ih h.2 v hv).imp fun w hw => ⟨List.mem_cons_of_mem _ hw.1, hw.2⟩⟩

theorem exists_same_alternative {t u : WireType} (h : same t u = true) :
    ∀ a ∈ t.alternatives, ∃ b ∈ u.alternatives, same a b = true := by
  by_cases hunion : ∃ members, t = .union members
  · obtain ⟨members, rfl⟩ := hunion
    obtain ⟨others, rfl, hlist⟩ := same_union.mp h
    exact exists_same_of_sameList hlist
  · have ht : ∀ members, t ≠ .union members := fun members heq => hunion ⟨members, heq⟩
    have hu : ∀ members, u ≠ .union members := by
      rintro members rfl
      obtain ⟨others, rfl, -⟩ := same_union.mp (same_symm _ _ h)
      exact ht others rfl
    rw [alternatives_of_not_union ht, alternatives_of_not_union hu]
    simpa using h

theorem primitive_of_same {a b : Literal} (h : a.same b = true) : a.primitive = b.primitive := by
  cases a <;> cases b <;> first | rfl | cases h

/-- No restriction tells equal types apart. -/
theorem accepts_of_same (r : Restriction) {t u : WireType} (h : same t u = true) :
    r.accepts t = r.accepts u := by
  induction r generalizing t u with
  | arrayOf element ih =>
    cases t with
    | primitive p => rw [same_primitive.mp h]
    | array e =>
      obtain ⟨e', rfl, he⟩ := same_array.mp h
      have halike : ∀ a b, same a b = true → Alike [element] a b := fun a b hab =>
        ⟨isAbsence_of_same hab, by simpa using ih hab⟩
      rw [accepts_arrayOf, accepts_arrayOf, Bool.eq_iff_iff, permits_iff (List.cons_ne_nil _ _),
        permits_iff (List.cons_ne_nil _ _)]
      refine fits_congr (fun a ha => ?_) fun b hb => ?_
      · obtain ⟨b, hb, hab⟩ := exists_same_alternative he a ha
        exact ⟨b, hb, halike a b hab⟩
      · obtain ⟨a, ha, hba⟩ := exists_same_alternative (same_symm _ _ he) b hb
        exact ⟨a, ha, halike a b (same_symm _ _ hba)⟩
    | _ => cases u <;> first | rfl | simp [same] at h
  | _ =>
    cases t with
    | primitive p => rw [same_primitive.mp h]
    | literal a =>
      obtain ⟨b, rfl, hab⟩ := same_literal.mp h
      simp [accepts, widensTo, primitive_of_same hab, isPrimitive]
    | _ => cases u <;> first | rfl | simp [same] at h

variable {restrictions : List Restriction}

theorem Alike.of_same {t u : WireType} (h : same t u = true) : Alike restrictions t u :=
  ⟨isAbsence_of_same h, fun r _ => accepts_of_same r h⟩

/-- A boolean literal passes where the scalar does. -/
theorem Alike.widenBoolean (t : WireType) : Alike restrictions t t.widenBoolean := by
  by_cases hb : ∃ b, t = .literal (.boolean b)
  · obtain ⟨b, rfl⟩ := hb
    rw [widenBoolean_literal]
    exact ⟨rfl, fun r _ => by cases r <;> rfl⟩
  · rw [widenBoolean_of_ne fun b heq => hb ⟨b, heq⟩]
    exact ⟨rfl, fun _ _ => rfl⟩

theorem fits_widened (types : List WireType) :
    Fits restrictions (widened types) ↔ Fits restrictions types := by
  unfold widened
  split
  · refine (fits_congr (fun t ht => ?_) fun u hu => ?_).symm
    · exact ⟨_, List.mem_map_of_mem ht, .widenBoolean t⟩
    · obtain ⟨t, ht, rfl⟩ := List.mem_map.mp hu
      exact ⟨t, ht, .widenBoolean t⟩
  · exact Iff.rfl

theorem fits_distinct (types : List WireType) :
    Fits restrictions (distinct types) ↔ Fits restrictions types := by
  refine fits_congr (fun t ht => ?_) fun u hu => ?_
  · exact ⟨t, mem_of_mem_distinct ht, rfl, fun _ _ => rfl⟩
  · obtain ⟨t, ht, rfl | hsame⟩ := kept_of_mem hu
    · exact ⟨t, ht, rfl, fun _ _ => rfl⟩
    · exact ⟨t, ht, .of_same hsame⟩

/-- A union is permitted if and only if some alternative of its types says more than that the value
may be missing, and each that does is accepted. Further restrictions reject nothing that was permitted. -/
theorem permits_unionOf {types : List WireType} (h : restrictions ≠ [])
    (hflat : ∀ t ∈ types, t.IsFlat) :
    (permits restrictions (unionOf types) = true ↔
      (∃ t ∈ types.flatMap alternatives, isAbsence t = false) ∧
        ∀ t ∈ types.flatMap alternatives, isAbsence t = false →
          ∃ r ∈ restrictions, r.accepts t = true) ∧
      ∀ more : List Restriction, restrictions ⊆ more →
        ∀ t, permits restrictions t = true → permits more t = true := by
  constructor
  · rw [permits_iff h, alternatives_unionOf hflat, unionMembers_eq, fits_distinct, fits_widened, Fits]
  · intro more hmore t ht
    have hmore' : more ≠ [] := fun hnil => h (List.subset_nil.mp (hnil ▸ hmore))
    exact (permits_iff hmore' t).mpr (((permits_iff h t).mp ht).mono hmore)

/-- Two boolean literals, an array of a union and an absence, given in two layers. -/
theorem permits_unionOf_nested :
    let restrictions := [arrayOf (arrayOf string), boolean]
    let types : List WireType :=
      [.union [.primitive .null, .literal (.boolean true)], .literal (.boolean false),
        .array (.array (.union [.literal (.string "a"), .primitive .void]))]
    restrictions ≠ [] ∧ (∀ t ∈ types, t.IsFlat) ∧ permits restrictions (unionOf types) = true ∧
      permits (date :: restrictions) (unionOf types) = true := by
  intro restrictions types
  have hne : restrictions ≠ [] := List.cons_ne_nil _ _
  have hflat : ∀ t ∈ types, t.IsFlat := by simp [types, IsFlat, alternatives]
  have hpermits : permits restrictions (unionOf types) = true := by
    refine (permits_unionOf hne hflat).1.mpr
      ⟨⟨.literal (.boolean true), by simp [types, alternatives], rfl⟩, fun t ht hvalue => ?_⟩
    simp only [types, alternatives, List.flatMap_cons, List.flatMap_nil, List.mem_append,
      List.mem_cons, List.not_mem_nil, or_false] at ht
    rcases ht with (rfl | rfl) | rfl | rfl
    · cases hvalue
    · exact ⟨boolean, by simp [restrictions], rfl⟩
    · exact ⟨boolean, by simp [restrictions], rfl⟩
    · exact ⟨arrayOf (arrayOf string), by simp [restrictions], rfl⟩
  exact ⟨hne, hflat, hpermits,
    (permits_unionOf hne hflat).2 _ (List.subset_cons_self ..) _ hpermits⟩

end Restriction

end AnnotatedApi
