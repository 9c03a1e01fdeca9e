import AnnotatedApi.Json.Value

/-!
# What is inside JSON values

An object of a JSON text may repeat a name. `settled` keeps the last value of each; what it leaves
alone are the values in which no object repeats a name. Text may also spell a number that is too large
for a double. Whatever is inside a value is nested less deeply than the value.
-/

namespace AnnotatedApi

set_option autoImplicit false

namespace Json

/-! ## Names -/

/-- Whether each name stands once in every object, as in every value that is more than text. -/
def IsSettled (v : Json) : Prop := v.settled = v

variable {items : List Json} {members : List (String × Json)} {table : Table Json}

theorem settledItems_eq_map (items : List Json) : settledItems items = items.map settled := by
  induction items with
  | nil => rfl
  | cons item rest ih => rw [settledItems, ih, List.map_cons]

theorem isSettled_array_iff : (array items).IsSettled ↔ ∀ v ∈ items, v.IsSettled := by
  have hmap : (array items).IsSettled ↔ items.map settled = items := by
    simp only [IsSettled, settled, array.injEq, settledItems_eq_map]
  rw [hmap]
  exact ⟨fun h v hv => List.map_inj_left.mp (h.trans (List.map_id items).symm) v hv,
    fun h => (List.map_congr_left h).trans (List.map_id items)⟩

theorem nodup_settledMembers (h : table.keys.Nodup) : (settledMembers members table).keys.Nodup := by
  induction members generalizing table with
  | nil => exact h
  | cons m rest ih => exact ih (Table.nodup_keys_put h m.1 _)

/-- New names are put at the end. -/
theorem settledMembers_of_nodup (table : Table Json) (h : (table.keys ++ members.map Prod.fst).Nodup)
    (hvalues : ∀ m ∈ members, m.2.IsSettled) : settledMembers members table = table ++ members := by
  induction members generalizing table with
  | nil => rw [settledMembers, List.append_nil]
  | cons m rest ih =>
    obtain ⟨name, value⟩ := m
    obtain ⟨hvalue, hvalues⟩ := List.forall_mem_cons.mp hvalues
    have hname : name ∉ table.keys := fun hmem =>
      (List.nodup_append.mp h).2.2 name hmem name (List.mem_cons_self ..) rfl
    have hkeys : (table.put name value).keys = table.keys ++ [name] := by
      rw [Table.keys_put, if_neg hname]
    have hput : settledMembers rest (table.put name value) = table.put name value ++ rest :=
      ih _ (by simpa [hkeys] using h) hvalues
    rw [settledMembers, show value.settled = value from hvalue, hput, Table.put_of_notMem hname,
      List.append_assoc, List.singleton_append]

mutual

theorem isSettled_settled : ∀ v : Json, v.settled.IsSettled
  | .null | .bool _ | .number _ | .string _ => rfl
  | .array items => isSettled_array_iff.mpr (isSettled_of_mem_settledItems items)
  | .object members => by
    have hnodup : (settledMembers members []).keys.Nodup := nodup_settledMembers List.nodup_nil
    have hself := settledMembers_of_nodup [] hnodup
      (isSettled_of_mem_settledMembers members [] (by simp))
    simpa [IsSettled, settled] using hself

theorem isSettled_of_mem_settledItems : ∀ items : List Json, ∀ v ∈ settledItems items, v.IsSettled
  | [] => by simp [settledItems]
  | item :: rest =>
    List.forall_mem_cons.mpr ⟨isSettled_settled item, isSettled_of_mem_settledItems rest⟩

theorem isSettled_of_mem_settledMembers : ∀ (members : List (String × Json)) (table : Table Json),
    (∀ e ∈ table, e.2.IsSettled) → ∀ e ∈ settledMembers members table, e.2.IsSettled
  | [], _, h => h
  | (_, value) :: rest, _, h =>
    isSettled_of_mem_settledMembers rest _ (Table.forall_values_put h (isSettled_settled value) _)

end

theorem isSettled_object_iff :
    (object members).IsSettled ↔ (members.map Prod.fst).Nodup ∧ ∀ m ∈ members, m.2.IsSettled := by
  constructor
  · intro h
    have hself : settledMembers members [] = members := by simpa [IsSettled, settled] using h
    rw [← hself]
    exact ⟨nodup_settledMembers List.nodup_nil, isSettled_of_mem_settledMembers members [] (by simp)⟩
  · rintro ⟨hnodup, hvalues⟩
    have hself := settledMembers_of_nodup [] hnodup hvalues
    simpa [IsSettled, settled] using hself

theorem settled_eq_null_iff {v : Json} : v.settled = .null ↔ v = .null := by
  cases v <;> simp [settled]

/-! ## Numbers -/

mutual

/-- The numbers in a value, however deeply they are nested. -/
def numbers : Json → List Number
  | .number n => [n]
  | .array items => numbersOfItems items
  | .object members => numbersOfMembers members
  | _ => []

def numbersOfItems : List Json → List Number
  | [] => []
  | item :: rest => numbers item ++ numbersOfItems rest

def numbersOfMembers : List (String × Json) → List Number
  | [] => []
  | (_, value) :: rest => numbers value ++ numbersOfMembers rest

end

theorem numbers_item_subset {v : Json} (h : v ∈ items) : v.numbers ⊆ (array items).numbers := by
  induction items with
  | nil => cases h
  | cons item rest ih =>
    rcases List.mem_cons.mp h with rfl | hrest
    · exact List.subset_append_left ..
    · exact List.subset_append_of_subset_right _ (ih hrest)

theorem numbers_member_subset {m : String × Json} (h : m ∈ members) :
    m.2.numbers ⊆ (object members).numbers := by
  induction members with
  | nil => cases h
  | cons member rest ih =>
    rcases List.mem_cons.mp h with rfl | hrest
    · exact List.subset_append_left ..
    · exact List.subset_append_of_subset_right _ (ih hrest)

/-- Whether this is more than text: each name stands once in every object, and every number is finite. -/
structure IsValue (v : Json) : Prop where
  isSettled : v.IsSettled
  finite : ∀ n ∈ v.numbers, n.toReal.isFinite = true

/-! ## Depth -/

theorem depth_le_depthOfItems {v : Json} (h : v ∈ items) : v.depth ≤ depthOfItems items := by
  induction items with
  | nil => cases h
  | cons item rest ih =>
    rcases List.mem_cons.mp h with rfl | hrest
    · exact Nat.le_max_left ..
    · exact Nat.le_trans (ih hrest) (Nat.le_max_right ..)

theorem depth_le_depthOfMembers {m : String × Json} (h : m ∈ members) :
    m.2.depth ≤ depthOfMembers members := by
  induction members with
  | nil => cases h
  | cons member rest ih =>
    rcases List.mem_cons.mp h with rfl | hrest
    · exact Nat.le_max_left ..
    · exact Nat.le_trans (ih hrest) (Nat.le_max_right ..)

theorem depth_item_lt {v : Json} (h : v ∈ items) : v.depth < (array items).depth :=
  Nat.lt_succ_of_le (depth_le_depthOfItems h)

theorem depth_member_lt (name : String) {v : Json} (h : (name, v) ∈ members) :
    v.depth < (object members).depth :=
  Nat.lt_succ_of_le (depth_le_depthOfMembers h)

/-! ## Natural numbers -/

/-- A double is no natural number, whatever its value. -/
theorem asNat?_eq_some_iff {v : Json} {n : Nat} : v.asNat? = some n ↔ v = ofNat n := by
  constructor
  · intro h
    cases v with
    | number m =>
      cases m with
      | integer k =>
        obtain ⟨hk, rfl⟩ : 0 ≤ k ∧ k.toNat = n := by simpa [asNat?] using h
        rw [ofNat, Int.toNat_of_nonneg hk]
      | real x => cases h
    | _ => cases h
  · rintro rfl
    simp [ofNat, asNat?]

end Json

end AnnotatedApi
