import AnnotatedApi.Proofs.Lists
import AnnotatedApi.Resolve.Resolver
import Mathlib.Data.List.Nodup

/-!
# Merged fields

Merging keeps the names of fields apart: a field that is added takes the place of the one with its
name. So a merged field is one of those that were added last or one whose name they do not have.
-/

namespace AnnotatedApi.Resolve

set_option autoImplicit false

variable {fields added : List (Field WireType)} {f g : Field WireType}

theorem map_name_mergeField (fields : List (Field WireType)) (f : Field WireType) :
    (mergeField fields f).map (·.name) = if f.name ∈ fields.map (·.name) then fields.map (·.name)
      else fields.map (·.name) ++ [f.name] := by
  induction fields with
  | nil => simp [mergeField]
  | cons f' fields ih =>
    by_cases hn : f'.name = f.name
    · simp [mergeField, hn]
    · have hn' : f.name ≠ f'.name := Ne.symm hn
      simp only [mergeField, hn, if_false, List.map_cons, ih, List.mem_cons, hn', false_or]
      split <;> rfl

theorem nodup_mergeField (h : (fields.map (·.name)).Nodup) (f : Field WireType) :
    ((mergeField fields f).map (·.name)).Nodup := by
  rw [map_name_mergeField]
  split
  · exact h
  · rename_i hn
    exact List.nodup_append'.mpr ⟨h, List.nodup_singleton _, by simpa using hn⟩

theorem nodup_mergeFields (h : (fields.map (·.name)).Nodup) (added : List (Field WireType)) :
    ((mergeFields fields added).map (·.name)).Nodup := by
  induction added generalizing fields with
  | nil => exact h
  | cons f added ih => exact ih (nodup_mergeField h f)

/-- The names of merged fields stand in the order in which they occur first. -/
theorem map_name_mergeFields (h : (fields.map (·.name)).Nodup) (added : List (Field WireType)) :
    (mergeFields fields added).map (·.name) =
      (fields.map (·.name) ++ added.map (·.name)).eraseDups := by
  induction added generalizing fields with
  | nil => simp [mergeFields, eraseDups_of_nodup h]
  | cons f added ih =>
    have hstep : (mergeFields fields (f :: added)).map (·.name) =
        ((mergeField fields f).map (·.name) ++ added.map (·.name)).eraseDups :=
      ih (nodup_mergeField h f)
    rw [hstep, map_name_mergeField, List.map_cons]
    split
    · rename_i hmem
      rw [eraseDups_append_cons_of_mem hmem]
    · rw [List.append_assoc, List.singleton_append]

theorem mergeField_of_notMem (h : f.name ∉ fields.map (·.name)) : mergeField fields f = fields ++ [f] := by
  induction fields with
  | nil => rfl
  | cons f' fields ih =>
    rw [List.map_cons, List.mem_cons, not_or] at h
    rw [mergeField, if_neg (Ne.symm h.1), ih h.2, List.cons_append]

/-- Fields with different names are merged as they stand. -/
theorem mergeFields_of_nodup (h : ((fields ++ added).map (·.name)).Nodup) :
    mergeFields fields added = fields ++ added := by
  induction added generalizing fields with
  | nil => exact (List.append_nil fields).symm
  | cons f added ih =>
    have hnew : f.name ∉ fields.map (·.name) := by
      rw [List.map_append, List.map_cons] at h
      exact fun hmem => List.disjoint_of_nodup_append h hmem (List.mem_cons_self ..)
    calc mergeFields fields (f :: added)
        = mergeFields (fields ++ [f]) added := by rw [← mergeField_of_notMem hnew]; rfl
      _ = fields ++ [f] ++ added := ih (by simpa using h)
      _ = fields ++ f :: added := by rw [List.append_assoc, List.singleton_append]

theorem mem_mergeField (h : (fields.map (·.name)).Nodup) (hg : g ∈ mergeField fields f) :
    g = f ∨ g ∈ fields ∧ g.name ≠ f.name := by
  induction fields with
  | nil => exact .inl (List.mem_singleton.mp hg)
  | cons f' fields ih =>
    rw [List.map_cons, List.nodup_cons] at h
    by_cases hn : f'.name = f.name
    · simp only [mergeField, hn, if_true, List.mem_cons] at hg
      rcases hg with rfl | hg
      · exact .inl rfl
      · refine .inr ⟨List.mem_cons_of_mem _ hg, fun heq => h.1 ?_⟩
        rw [hn, ← heq]
        exact List.mem_map_of_mem hg
    · simp only [mergeField, hn, if_false, List.mem_cons] at hg
      rcases hg with rfl | hg
      · exact .inr ⟨List.mem_cons_self .., hn⟩
      · rcases ih h.2 hg with rfl | ⟨hg, hne⟩
        · exact .inl rfl
        · exact .inr ⟨List.mem_cons_of_mem _ hg, hne⟩

theorem mem_mergeFields (h : (fields.map (·.name)).Nodup) (hg : g ∈ mergeFields fields added) :
    g ∈ added ∨ g ∈ fields ∧ g.name ∉ added.map (·.name) := by
  induction added generalizing fields with
  | nil => exact .inr ⟨hg, by simp⟩
  | cons f added ih =>
    rcases ih (nodup_mergeField h f) hg with hg | ⟨hg, hn⟩
    · exact .inl (List.mem_cons_of_mem _ hg)
    · rcases mem_mergeField h hg with rfl | ⟨hg, hne⟩
      · exact .inl (List.mem_cons_self ..)
      · exact .inr ⟨hg, by simp [hne, hn]⟩

theorem mem_or_eq_of_mem_mergeField (hg : g ∈ mergeField fields f) : g ∈ fields ∨ g = f := by
  induction fields with
  | nil => exact .inr (List.mem_singleton.mp hg)
  | cons f' fields ih =>
    rw [mergeField] at hg
    split at hg
    · exact (List.mem_cons.mp hg).symm.imp_left (List.mem_cons_of_mem _)
    · rcases List.mem_cons.mp hg with rfl | hg
      · exact .inl (List.mem_cons_self ..)
      · exact (ih hg).imp_left (List.mem_cons_of_mem _)

theorem mem_or_mem_of_mem_mergeFields (hg : g ∈ mergeFields fields added) :
    g ∈ fields ∨ g ∈ added := by
  induction added generalizing fields with
  | nil => exact .inl hg
  | cons f added ih =>
    rcases ih hg with hg | hg
    · rcases mem_or_eq_of_mem_mergeField hg with hg | rfl
      · exact .inl hg
      · exact .inr (List.mem_cons_self ..)
    · exact .inr (List.mem_cons_of_mem _ hg)

theorem forall_mem_mergeFields {P : Field WireType → Prop} (h : ∀ g ∈ fields, P g)
    (hadded : ∀ g ∈ added, P g) : ∀ g ∈ mergeFields fields added, P g :=
  fun g hg => (mem_or_mem_of_mem_mergeFields hg).elim (h g) (hadded g)

theorem mem_mergeField_self (fields : List (Field WireType)) (f : Field WireType) :
    f ∈ mergeField fields f := by
  induction fields with
  | nil => exact List.mem_singleton.mpr rfl
  | cons f' fields ih =>
    rw [mergeField]
    split
    · exact List.mem_cons_self ..
    · exact List.mem_cons_of_mem _ ih

theorem mem_mergeField_of_ne (hg : g ∈ fields) (hne : g.name ≠ f.name) : g ∈ mergeField fields f := by
  induction fields with
  | nil => cases hg
  | cons f' fields ih =>
    rw [mergeField]
    rcases List.mem_cons.mp hg with rfl | hg
    · rw [if_neg hne]
      exact List.mem_cons_self ..
    · split
      · exact List.mem_cons_of_mem _ hg
      · exact List.mem_cons_of_mem _ (ih hg)

theorem mem_mergeFields_of_notMem (hg : g ∈ fields) (hnot : g.name ∉ added.map (·.name)) :
    g ∈ mergeFields fields added := by
  induction added generalizing fields with
  | nil => exact hg
  | cons f added ih =>
    rw [List.map_cons, List.mem_cons, not_or] at hnot
    exact ih (mem_mergeField_of_ne hg hnot.1) hnot.2

/-- The last field that is added under its name is there afterwards. -/
theorem mem_mergeFields_last (before : List (Field WireType)) {after : List (Field WireType)}
    (hnot : g.name ∉ after.map (·.name)) : g ∈ mergeFields fields (before ++ g :: after) := by
  have heq : mergeFields fields (before ++ g :: after) =
      mergeFields (mergeField (mergeFields fields before) g) after := by
    rw [mergeFields, List.foldl_append]
    rfl
  rw [heq]
  exact mem_mergeFields_of_notMem (mem_mergeField_self _ g) hnot

/-- Fields that are added under different names are all there afterwards. -/
theorem mem_mergeFields_of_mem (h : (added.map (·.name)).Nodup) (hg : g ∈ added) :
    g ∈ mergeFields fields added := by
  obtain ⟨before, after, rfl⟩ := List.append_of_mem hg
  refine mem_mergeFields_last before fun hmem => ?_
  rw [List.map_append, List.map_cons] at h
  exact (List.nodup_cons.mp h.of_append_right).1 hmem

/-! ## Merging in several steps -/

theorem mergeField_mergeField_of_eq (hn : g.name = f.name) :
    mergeField (mergeField fields g) f = mergeField fields f := by
  induction fields with
  | nil => simp [mergeField, hn]
  | cons f' fields ih =>
    by_cases hf' : f'.name = f.name
    · simp [mergeField, hn, hf']
    · simp [mergeField, hn, hf', ih]

/-- A field whose name is there already may as well be merged before another one. -/
theorem mergeField_comm (hf : f.name ∈ fields.map (·.name)) (hn : g.name ≠ f.name) :
    mergeField (mergeField fields g) f = mergeField (mergeField fields f) g := by
  induction fields with
  | nil => cases hf
  | cons f' fields ih =>
    by_cases hf' : f'.name = f.name
    · have hg : f'.name ≠ g.name := fun h => hn (h ▸ hf')
      simp [mergeField, hf', hf' ▸ hg]
    · have hrest : f.name ∈ fields.map (·.name) := by
        simpa [Ne.symm hf'] using hf
      by_cases hg : f'.name = g.name
      · simp [mergeField, hg, hn]
      · simp [mergeField, hg, hf', ih hrest]

theorem mergeField_mergeFields_comm (hf : f.name ∈ fields.map (·.name))
    (hnot : f.name ∉ added.map (·.name)) :
    mergeField (mergeFields fields added) f = mergeFields (mergeField fields f) added := by
  induction added generalizing fields with
  | nil => rfl
  | cons g added ih =>
    rw [List.map_cons, List.mem_cons, not_or] at hnot
    have hkept : f.name ∈ (mergeField fields g).map (·.name) := by
      rw [map_name_mergeField]
      split
      · exact hf
      · exact List.mem_append_left _ hf
    calc mergeField (mergeFields fields (g :: added)) f
        = mergeFields (mergeField (mergeField fields g) f) added := ih hkept hnot.2
      _ = mergeFields (mergeField fields f) (g :: added) := by
          rw [mergeField_comm hf (Ne.symm hnot.1)]; rfl

theorem mergeFields_mergeField (h : (added.map (·.name)).Nodup) (f : Field WireType) :
    mergeFields fields (mergeField added f) = mergeField (mergeFields fields added) f := by
  induction added generalizing fields with
  | nil => rfl
  | cons g added ih =>
    rw [List.map_cons, List.nodup_cons] at h
    by_cases hn : g.name = f.name
    · have hthere : f.name ∈ (mergeField fields g).map (·.name) := by
        rw [← hn]
        exact List.mem_map_of_mem (mem_mergeField_self fields g)
      calc mergeFields fields (mergeField (g :: added) f)
          = mergeFields (mergeField fields f) added := by rw [mergeField, if_pos hn]; rfl
        _ = mergeFields (mergeField (mergeField fields g) f) added := by
            rw [mergeField_mergeField_of_eq hn]
        _ = mergeField (mergeFields fields (g :: added)) f :=
            (mergeField_mergeFields_comm hthere (hn ▸ h.1)).symm
    · calc mergeFields fields (mergeField (g :: added) f)
          = mergeFields (mergeField fields g) (mergeField added f) := by
            rw [mergeField, if_neg hn]; rfl
        _ = mergeField (mergeFields fields (g :: added)) f := ih h.2

theorem mergeFields_assoc {more : List (Field WireType)} (h : (added.map (·.name)).Nodup) :
    mergeFields fields (mergeFields added more) = mergeFields (mergeFields fields added) more := by
  induction more generalizing added with
  | nil => rfl
  | cons f more ih =>
    calc mergeFields fields (mergeFields added (f :: more))
        = mergeFields (mergeFields fields (mergeField added f)) more := ih (nodup_mergeField h f)
      _ = mergeFields (mergeFields fields added) (f :: more) := by
          rw [mergeFields_mergeField h]; rfl

end AnnotatedApi.Resolve
