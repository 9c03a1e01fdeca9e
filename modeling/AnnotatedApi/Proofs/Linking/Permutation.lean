import AnnotatedApi.Proofs.Linking.LargestSubforest

/-!
# Linking and the order of classes

Whether a forest is consistent does not depend on the order of its classes, and a part of a forest is
a part of every reordering of it once it is reordered in the same way. So the largest consistent
parts of two orderings of one forest are orderings of each other.
-/

namespace AnnotatedApi

set_option autoImplicit false

theorem ClassNode.Fits.mono_others {c : ClassNode} {others wider : Forest} (h : c.Fits others)
    (ho : others ⊆ wider) : c.Fits wider where
  met := h.met.mono (List.Subset.refl _) (List.map_subset _ ho)
  constructors := h.constructors
  methods := h.methods

namespace Forest

variable {f f' g : Forest}

theorem size_perm (h : f.Perm f') : f.size = f'.size := by
  induction h with
  | nil => rfl
  | cons c _ ih => rw [size_cons, size_cons, ih]
  | swap c d f =>
    simp only [size_cons]
    omega
  | trans _ _ ih₁ ih₂ => exact ih₁.trans ih₂

theorem Consistent.perm (h : f.Consistent) (hp : f.Perm f') : f'.Consistent where
  hasMethod c hc := h.hasMethod c (hp.mem_iff.mpr hc)
  fits fs c gs hf' := by
    have hmem : c ∈ f := hp.mem_iff.mpr (by simp [hf'])
    obtain ⟨es, ds, rfl⟩ := List.append_of_mem hmem
    -- The classes beside `c` are the same ones in another order.
    have hothers : (es ++ ds).Perm (fs ++ gs) := by
      rw [hf'] at hp
      exact (List.perm_middle.symm.trans (hp.trans List.perm_middle)).cons_inv
    exact (h.fits es c ds rfl).mono_others hothers.subset

end Forest

theorem SubForest.exists_perm {f f' g : Forest} (h : SubForest g f) (hp : f.Perm f') :
    ∃ g', g.Perm g' ∧ SubForest g' f' := by
  induction hp generalizing g with
  | nil => exact ⟨g, .refl g, h⟩
  | cons c _ ih =>
    cases h with
    | keep _ hm h =>
      obtain ⟨g', hp, hsub⟩ := ih h
      exact ⟨_, hp.cons _, .keep c hm hsub⟩
    | drop _ h =>
      obtain ⟨g', hp, hsub⟩ := ih h
      exact ⟨g', hp, .drop c hsub⟩
  | swap c d f =>
    cases h with
    | keep _ hd h =>
      cases h with
      | keep _ hc h => exact ⟨_, .swap .., .keep c hc (.keep d hd h)⟩
      | drop _ h => exact ⟨_, .refl _, .drop c (.keep d hd h)⟩
    | drop _ h =>
      cases h with
      | keep _ hc h => exact ⟨_, .refl _, .keep c hc (.drop d h)⟩
      | drop _ h => exact ⟨_, .refl _, .drop c (.drop d h)⟩
  | trans _ _ ih₁ ih₂ =>
    obtain ⟨g', hp, hsub⟩ := ih₁ h
    obtain ⟨g'', hp', hsub'⟩ := ih₂ hsub
    exact ⟨g'', hp.trans hp', hsub'⟩

namespace Forest

variable {f f' : Forest}

/-- In another order, what linking leaves of a forest is part of what it leaves of the other order. -/
theorem exists_perm_link (hp : f.Perm f') (hf : ∀ c ∈ f, c.hasMethod = true) :
    ∃ g, f.link.1.forest.Perm g ∧ SubForest g f'.link.1.forest := by
  have hf' : ∀ c ∈ f', c.hasMethod = true := fun c hc => hf c (hp.mem_iff.mpr hc)
  obtain ⟨hsub, hconsistent, _⟩ := link_spec f hf
  obtain ⟨g, hg, hgsub⟩ := hsub.exists_perm hp
  exact ⟨g, hg, (link_spec f' hf').2.2 g hgsub (hconsistent.perm hg)⟩

/-- Linking a forest in another order leaves the same classes with the same methods. -/
theorem link_perm (hp : f.Perm f') (hf : ∀ c ∈ f, c.hasMethod = true) :
    f.link.1.forest.Perm f'.link.1.forest := by
  obtain ⟨g, hg, hgsub⟩ := exists_perm_link hp hf
  obtain ⟨g', hg', hgsub'⟩ := exists_perm_link hp.symm fun c hc => hf c (hp.mem_iff.mpr hc)
  have hsize := size_perm hg
  have hsize' := size_perm hg'
  have hle := hgsub'.size_le
  -- Neither is larger than the other, so the part is the whole.
  rw [← hgsub.eq_of_size_le (by omega)]
  exact hg

end Forest

end AnnotatedApi
