import AnnotatedApi.Proofs.WireType.OpenReferences

/-!
# The parts of a type, listed

`parts` lists a type and everything inside it. What it lists is what the type contains, so whether a type
contains something of a certain kind can be computed.
-/

namespace AnnotatedApi.WireType

set_option autoImplicit false

theorem partsOfList_eq_flatMap (ts : List WireType) : partsOfList ts = ts.flatMap parts := by
  induction ts with
  | nil => rfl
  | cons t ts ih => rw [partsOfList, ih, List.flatMap_cons]

theorem partsOfFields_eq_flatMap (fields : List (Field WireType)) :
    partsOfFields fields = (fields.map (·.type)).flatMap parts := by
  induction fields with
  | nil => rfl
  | cons f fields ih => rw [partsOfFields, ih, List.map_cons, List.flatMap_cons]

/-- A type is listed before the parts of what it is made up of. -/
theorem parts_eq (t : WireType) : t.parts = t :: t.children.flatMap parts := by
  cases t with
  | object i name args fields =>
    rw [parts, children, partsOfList_eq_flatMap, partsOfFields_eq_flatMap, List.flatMap_append]
  | union members => rw [parts, children, partsOfList_eq_flatMap]
  | generic name args => rw [parts, children, partsOfList_eq_flatMap]
  | array e => simp [parts, children]
  | promise t => simp [parts, children]
  | _ => rfl

/-- The parts of a type are what it contains. -/
theorem mem_parts (t u : WireType) : u ∈ t.parts ↔ t.Contains u := by
  induction t using induction_children with
  | step t ih =>
    rw [parts_eq, List.mem_cons, List.mem_flatMap]
    constructor
    · rintro (rfl | ⟨v, hv, hu⟩)
      · exact .self
      · exact .child hv ((ih v hv).mp hu)
    · intro h
      cases h with
      | self => exact .inl rfl
      | child hv hu => exact .inr ⟨_, hv, (ih _ hv).mpr hu⟩

end AnnotatedApi.WireType
