import AnnotatedApi.Proofs.WireType.Parts
import Mathlib.Data.List.Basic

/-!
# References that nothing catches

A walk through a type comes to each of its parts by one way, from the type itself down to what is directly around
the part. A type is open towards an identity just if the walk comes to a reference back to it by a way on which no
object has the identity.
-/

namespace AnnotatedApi.WireType

set_option autoImplicit false

variable {t u : WireType} {i : String}

/-! ## The ways of a walk -/

theorem sizeOf_lt_of_mem_children (hu : u ∈ t.children) : sizeOf u < sizeOf t := by
  cases t with
  | array e =>
    obtain rfl := List.mem_singleton.mp hu
    simp only [array.sizeOf_spec]
    omega
  | promise t =>
    obtain rfl := List.mem_singleton.mp hu
    simp only [promise.sizeOf_spec]
    omega
  | union members =>
    have hlt : sizeOf u < sizeOf members := List.sizeOf_lt_of_mem hu
    simp only [union.sizeOf_spec]
    omega
  | generic name args =>
    have hlt : sizeOf u < sizeOf args := List.sizeOf_lt_of_mem hu
    simp only [generic.sizeOf_spec]
    omega
  | object identity name args fields =>
    simp only [object.sizeOf_spec]
    rcases List.mem_append.mp hu with hu | hu
    · have hlt : sizeOf u < sizeOf args := List.sizeOf_lt_of_mem hu
      omega
    · obtain ⟨⟨field, type, required, description⟩, hf, rfl⟩ := List.mem_map.mp hu
      have hlt := List.sizeOf_lt_of_mem hf
      simp only [Field.mk.sizeOf_spec] at hlt ⊢
      omega
  | _ => cases hu

/-- What a walk comes to, each part before what it contains, with the types on the way to it from the outside in. -/
def visits (t : WireType) : List (List WireType × WireType) :=
  ([], t) :: t.children.attach.flatMap fun u => (visits u.1).map fun x => (t :: x.1, x.2)
termination_by t
decreasing_by exact sizeOf_lt_of_mem_children u.2

theorem visits_eq (t : WireType) :
    t.visits = ([], t) :: t.children.flatMap fun u => u.visits.map fun x => (t :: x.1, x.2) := by
  rw [visits]
  simp only [List.flatMap_subtype, List.unattach_attach]

/-- A walk comes to the parts of the type, in their order. -/
theorem map_snd_visits (t : WireType) : t.visits.map (·.2) = t.parts := by
  induction t using induction_children with
  | step t ih =>
    rw [visits_eq, parts_eq, List.map_cons, List.map_flatMap]
    congr 1
    refine List.flatMap_congr fun u hu => ?_
    rw [List.map_map, ← ih u hu]
    rfl

theorem mem_visits_iff {around : List WireType} : (around, u) ∈ t.visits ↔
    around = [] ∧ u = t ∨ ∃ v ∈ t.children, ∃ rest, around = t :: rest ∧ (rest, u) ∈ v.visits := by
  rw [visits_eq, List.mem_cons, List.mem_flatMap, Prod.mk.injEq]
  refine or_congr_right (exists_congr fun v => and_congr_right fun _ => ?_)
  rw [List.mem_map]
  constructor
  · rintro ⟨⟨rest, w⟩, hmem, heq⟩
    obtain ⟨rfl, rfl⟩ := Prod.mk.inj heq
    exact ⟨rest, rfl, hmem⟩
  · rintro ⟨rest, rfl, hmem⟩
    exact ⟨(rest, u), hmem, rfl⟩

/-! ## What is open -/

/-- The open references of a type are the references back in it that no object around them catches, the type
itself included. -/
theorem mem_openReferences_iff_uncaught (t : WireType) (i : String) :
    t.visits.map (·.2) = t.parts ∧ (i ∈ t.openReferences ↔
      ∃ around, (around, .back i) ∈ t.visits ∧ ∀ u ∈ around, u.identity? ≠ some i) := by
  refine ⟨map_snd_visits t, ?_⟩
  induction t using induction_children with
  | step t ih =>
    rw [mem_openReferences_iff_child]
    constructor
    · rintro (rfl | ⟨hidentity, u, hu, hopen⟩)
      · exact ⟨[], mem_visits_iff.mpr (.inl ⟨rfl, rfl⟩), by simp⟩
      · obtain ⟨around, hvisit, haround⟩ := (ih u hu).mp hopen
        refine ⟨t :: around, mem_visits_iff.mpr (.inr ⟨u, hu, around, rfl, hvisit⟩), ?_⟩
        exact List.forall_mem_cons.mpr ⟨hidentity, haround⟩
    · rintro ⟨around, hmem, haround⟩
      rcases mem_visits_iff.mp hmem with ⟨-, rfl⟩ | ⟨u, hu, rest, rfl, hvisit⟩
      · exact .inl rfl
      · obtain ⟨hidentity, hrest⟩ := List.forall_mem_cons.mp haround
        exact .inr ⟨hidentity, u, hu, (ih u hu).mpr ⟨rest, hvisit, hrest⟩⟩

/-- The reference back to `B` is caught in the object, but not beside it. -/
example :
    let owned := object "B" none [] [⟨"next", back "B", true, none⟩, ⟨"owner", back "A", true, none⟩]
    (generic "Map" [owned, array (back "B")]).openReferences = ["A", "B"] := by
  decide

end AnnotatedApi.WireType
