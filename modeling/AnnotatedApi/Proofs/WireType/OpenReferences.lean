import AnnotatedApi.Proofs.WireType.Union

/-!
# Open references, part by part

A type is open towards an identity if one of its parts is and no object around the part has that
identity. Induction over the parts of a type is set up here once for the whole nested data type.
-/

namespace AnnotatedApi.WireType

set_option autoImplicit false

/-- The types of which a type is made up directly. -/
def children : WireType → List WireType
  | array e => [e]
  | promise t => [t]
  | union members => members
  | generic _ args => args
  | object _ _ args fields => args ++ fields.map (·.type)
  | _ => []

mutual

theorem induction_children {motive : WireType → Prop}
    (step : ∀ t, (∀ u ∈ t.children, motive u) → motive t) : ∀ t, motive t
  | array e => step _ (by simpa [children] using induction_children step e)
  | promise t => step _ (by simpa [children] using induction_children step t)
  | union members => step _ (induction_list step members)
  | generic _ args => step _ (induction_list step args)
  | object _ _ args fields => step _ (by
      intro u hu
      rcases List.mem_append.mp hu with hu | hu
      · exact induction_list step args u hu
      · obtain ⟨f, hf, rfl⟩ := List.mem_map.mp hu
        exact induction_fields step fields f hf)
  | primitive _ => step _ (by simp [children])
  | literal _ => step _ (by simp [children])
  | unexpanded _ => step _ (by simp [children])
  | back _ => step _ (by simp [children])

theorem induction_list {motive : WireType → Prop}
    (step : ∀ t, (∀ u ∈ t.children, motive u) → motive t) :
    ∀ types : List WireType, ∀ t ∈ types, motive t
  | [] => by simp
  | t :: types => List.forall_mem_cons.mpr ⟨induction_children step t, induction_list step types⟩

theorem induction_fields {motive : WireType → Prop}
    (step : ∀ t, (∀ u ∈ t.children, motive u) → motive t) :
    ∀ fields : List (Field WireType), ∀ f ∈ fields, motive f.type
  | [] => by simp
  | ⟨_, t, _, _⟩ :: fields =>
    List.forall_mem_cons.mpr ⟨induction_children step t, induction_fields step fields⟩

end

/-- Whether a type is somewhere in another one. -/
inductive Contains : WireType → WireType → Prop where
  | self {t : WireType} : Contains t t
  | child {t u v : WireType} : u ∈ t.children → Contains u v → Contains t v

/-- What is in a union is in one of the types it is made of, is the scalar that stands for both boolean
literals, or is the union itself. -/
theorem Contains.of_unionOf {types : List WireType} {u : WireType} (h : (unionOf types).Contains u) :
    (∃ t ∈ types, t.Contains u) ∨ u = .primitive .boolean ∨
      unionOf types = .union (unionMembers types) ∧ u = .union (unionMembers types) := by
  have hmember : ∀ t ∈ unionMembers types, t.Contains u →
      (∃ t ∈ types, t.Contains u) ∨ u = .primitive .boolean := by
    intro t ht hu
    rcases mem_unionMembers ht with ⟨s, hs, ht⟩ | rfl
    · cases s with
      | union members => exact .inl ⟨_, hs, .child ht hu⟩
      | _ =>
        obtain rfl := List.mem_singleton.mp ht
        exact .inl ⟨_, hs, hu⟩
    · cases hu with
      | self => exact .inr rfl
      | child hmem _ => cases hmem
  rcases unionOf_eq types with heq | hmem
  · rw [heq] at h
    cases h with
    | self => exact .inr (.inr ⟨heq, rfl⟩)
    | child hu h => exact (hmember _ hu h).imp_right .inl
  · exact (hmember _ hmem h).imp_right .inl

variable {b : String}

theorem mem_openOfList {types : List WireType} :
    b ∈ openOfList types ↔ ∃ t ∈ types, b ∈ t.openReferences := by
  induction types with
  | nil => simp [openOfList]
  | cons t types ih => simp [openOfList, ih]

theorem mem_openOfFields {fields : List (Field WireType)} :
    b ∈ openOfFields fields ↔ ∃ f ∈ fields, b ∈ f.type.openReferences := by
  induction fields with
  | nil => simp [openOfFields]
  | cons f fields ih => simp [openOfFields, ih]

theorem mem_openReferences_object {identity : String} {name : Option String}
    {args : List WireType} {fields : List (Field WireType)} :
    b ∈ (object identity name args fields).openReferences ↔
      b ≠ identity ∧ ((∃ t ∈ args, b ∈ t.openReferences) ∨ ∃ f ∈ fields, b ∈ f.type.openReferences) := by
  rw [openReferences, List.mem_filter, List.mem_append, mem_openOfList, mem_openOfFields, bne_iff_ne,
    and_comm]

/-- The identity of an object; no other type has one. -/
def identity? : WireType → Option String
  | object identity _ _ _ => some identity
  | _ => none

/-- A type is open towards what it is a reference to, or else towards what one of its parts is open to, unless it
is the object in question. -/
theorem mem_openReferences_iff_child {t : WireType} : b ∈ t.openReferences ↔
    t = .back b ∨ t.identity? ≠ some b ∧ ∃ u ∈ t.children, b ∈ u.openReferences := by
  cases t with
  | back i => simp [openReferences, children, eq_comm]
  | object i name args fields =>
    rw [mem_openReferences_object]
    constructor
    · rintro ⟨hne, ⟨t, ht, hb⟩ | ⟨f, hf, hb⟩⟩
      · exact .inr ⟨by simp [identity?, Ne.symm hne], t, List.mem_append_left _ ht, hb⟩
      · exact .inr ⟨by simp [identity?, Ne.symm hne], f.type,
          List.mem_append_right _ (List.mem_map_of_mem hf), hb⟩
    · rintro (hback | ⟨hne, u, hu, hb⟩)
      · cases hback
      · refine ⟨fun heq => hne (congrArg some heq.symm), ?_⟩
        rcases List.mem_append.mp hu with hu | hu
        · exact .inl ⟨u, hu, hb⟩
        · obtain ⟨f, hf, rfl⟩ := List.mem_map.mp hu
          exact .inr ⟨f, hf, hb⟩
  | array e => simp [openReferences, identity?, children]
  | promise t => simp [openReferences, identity?, children]
  | union members => simp [openReferences, identity?, children, mem_openOfList]
  | generic name args => simp [openReferences, identity?, children, mem_openOfList]
  | _ => simp [openReferences, children]

end AnnotatedApi.WireType
