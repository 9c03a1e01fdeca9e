import AnnotatedApi.Proofs.WireType.NormalForm
import AnnotatedApi.Proofs.WireType.Parts
import Mathlib.Data.List.Induction

/-!
# Which members a union has

The members are collapsed before `true | false` is widened and once more after it. Collapsing commutes with
any map that respects equality, so both passes come to one: the members are the first occurrences among the
widened alternatives of the types. From this follow what `unionOf` gives in closed form, that doing it again
or in another order changes nothing that matters, and when a nested union is as good as its members: always
but where the nested one has `boolean` of its own making and a lone `true` or `false` stands beside it.
-/

namespace AnnotatedApi.WireType

set_option autoImplicit false

/-! ## Collapsing keeps the first occurrences -/

/-- The types to which no earlier one is equal. -/
def firsts (types : List WireType) : List WireType :=
  (types.zipIdx.filter fun x => !(types.take x.2).any (same · x.1)).map Prod.fst

theorem firsts_concat (types : List WireType) (t : WireType) :
    firsts (types ++ [t]) =
      if types.any (same · t) then firsts types else firsts types ++ [t] := by
  have hbefore : (types.zipIdx.filter fun x => !((types ++ [t]).take x.2).any (same · x.1)) =
      types.zipIdx.filter fun x => !(types.take x.2).any (same · x.1) := by
    refine List.filter_congr fun x hx => ?_
    have hlt : x.2 < types.length := List.snd_lt_of_mem_zipIdx hx
    rw [List.take_append_of_le_length (Nat.le_of_lt hlt)]
  simp only [firsts, List.zipIdx_append, List.filter_append, hbefore, List.map_append]
  split <;> simp_all

theorem distinct_concat (types : List WireType) (t : WireType) :
    distinct (types ++ [t]) = pushDistinct (distinct types) t := by
  simp [distinct]

/-- Each type is kept or an equal one is. -/
theorem kept_of_mem {types : List WireType} {t : WireType} (h : t ∈ types) :
    ∃ u ∈ distinct types, u = t ∨ same u t = true := by
  induction types using List.reverseRecOn with
  | nil => cases h
  | append_singleton types v ih =>
    have hkeeps : ∀ u ∈ distinct types, u ∈ distinct (types ++ [v]) := by
      intro u hu
      rw [distinct_concat, pushDistinct]
      split
      · exact hu
      · exact List.mem_append_left _ hu
    rcases List.mem_append.mp h with h | h
    · obtain ⟨u, hu, heq⟩ := ih h
      exact ⟨u, hkeeps u hu, heq⟩
    · obtain rfl := List.mem_singleton.mp h
      by_cases hany : (distinct types).any (same · t) = true
      · obtain ⟨u, hu, hsame⟩ := List.any_eq_true.mp hany
        exact ⟨u, hkeeps u hu, .inr hsame⟩
      · refine ⟨t, ?_, .inl rfl⟩
        rw [distinct_concat, pushDistinct, if_neg hany]
        exact List.mem_append_right _ (List.mem_singleton.mpr rfl)

theorem any_same_distinct (types : List WireType) (t : WireType) :
    (distinct types).any (same · t) = types.any (same · t) := by
  refine Bool.eq_iff_iff.mpr ?_
  simp only [List.any_eq_true]
  constructor
  · rintro ⟨u, hu, hsame⟩
    exact ⟨u, mem_of_mem_distinct hu, hsame⟩
  · rintro ⟨u, hu, hsame⟩
    obtain ⟨v, hv, rfl | hkept⟩ := kept_of_mem hu
    · exact ⟨v, hv, hsame⟩
    · exact ⟨v, hv, same_trans v u t hkept hsame⟩

theorem distinct_eq_firsts (types : List WireType) : distinct types = firsts types := by
  induction types using List.reverseRecOn with
  | nil => rfl
  | append_singleton types t ih =>
    rw [distinct_concat, firsts_concat, pushDistinct, any_same_distinct, ih]

/-! ## Collapsing a second time -/

section

variable {f : WireType → WireType}

/-- After a map that respects equality it does not matter whether the list was collapsed before. -/
theorem distinct_append_map (hf : ∀ t u, same t u = true → same (f t) (f u) = true)
    (before types after : List WireType) :
    distinct (before ++ (distinct types).map f ++ after) = distinct (before ++ types.map f ++ after) := by
  suffices h : distinct (before ++ (distinct types).map f) = distinct (before ++ types.map f) by
    simpa only [distinct, List.foldl_append] using congrArg (after.foldl pushDistinct) h
  induction types using List.reverseRecOn with
  | nil => rfl
  | append_singleton types t ih =>
    rw [distinct_concat, pushDistinct, any_same_distinct]
    have hright : distinct (before ++ (types ++ [t]).map f) =
        pushDistinct (distinct (before ++ types.map f)) (f t) := by
      rw [List.map_append, ← List.append_assoc]
      exact distinct_concat _ _
    split
    · rename_i hany
      -- An equal type came before, so its image is there already.
      have himage : (distinct (before ++ types.map f)).any (same · (f t)) = true := by
        obtain ⟨u, hu, hsame⟩ := List.any_eq_true.mp hany
        rw [any_same_distinct]
        exact List.any_eq_true.mpr ⟨f u, List.mem_append_right _ (List.mem_map_of_mem hu), hf u t hsame⟩
      rw [ih, hright, pushDistinct, if_pos himage]
    · have hleft : distinct (before ++ (distinct types ++ [t]).map f) =
          pushDistinct (distinct (before ++ (distinct types).map f)) (f t) := by
        rw [List.map_append, ← List.append_assoc]
        exact distinct_concat _ _
      rw [hleft, hright, ih]

theorem distinct_map_distinct (hf : ∀ t u, same t u = true → same (f t) (f u) = true)
    (types : List WireType) : distinct ((distinct types).map f) = distinct (types.map f) := by
  simpa using distinct_append_map hf [] types []

end

theorem distinct_append_distinct (before types after : List WireType) :
    distinct (before ++ distinct types ++ after) = distinct (before ++ types ++ after) := by
  simpa using distinct_append_map (fun _ _ h => h) before types after

/-! ## Widening -/

/-- Whether `boolean` is spelled out by its two literals. -/
def SpellsBoolean (types : List WireType) : Prop := ∀ b : Bool, .literal (.boolean b) ∈ types

theorem hasLiteral_boolean {types : List WireType} {b : Bool} :
    hasLiteral types (.boolean b) = true ↔ .literal (.boolean b) ∈ types := by
  simp only [hasLiteral, List.any_eq_true]
  constructor
  · rintro ⟨t, ht, hsame⟩
    split at hsame
    · rename_i v
      rwa [Literal.same_boolean_right.mp hsame] at ht
    · cases hsame
  · exact fun h => ⟨_, h, Literal.same_boolean_right.mpr rfl⟩

instance (types : List WireType) : Decidable (SpellsBoolean types) :=
  decidable_of_iff (∀ b : Bool, hasLiteral types (.boolean b) = true)
    (forall_congr' fun _ => hasLiteral_boolean)

/-- Both boolean literals become the scalar if they are both there. -/
def widened (types : List WireType) : List WireType :=
  if SpellsBoolean types then types.map widenBoolean else types

theorem mem_boolean_distinct {types : List WireType} {b : Bool} :
    .literal (.boolean b) ∈ distinct types ↔ .literal (.boolean b) ∈ types := by
  refine ⟨mem_of_mem_distinct, fun h => ?_⟩
  obtain ⟨u, hu, rfl | hsame⟩ := kept_of_mem h
  · exact hu
  · obtain ⟨a, heq, hsame⟩ := same_literal.mp (same_symm _ _ hsame)
    rw [heq, Literal.same_boolean_right.mp (Literal.same_symm hsame)] at hu
    exact hu

theorem widenBoolean_of_ne {t : WireType} (h : ∀ b, t ≠ .literal (.boolean b)) :
    t.widenBoolean = t := by
  rw [widenBoolean, if_neg]
  unfold isBooleanLiteral
  split
  · exact absurd rfl (h _)
  · exact Bool.false_ne_true

theorem widenBoolean_literal (b : Bool) :
    widenBoolean (.literal (.boolean b)) = .primitive .boolean := rfl

theorem widenBoolean_same (t u : WireType) (h : same t u = true) :
    same t.widenBoolean u.widenBoolean = true := by
  by_cases hb : ∃ b, t = .literal (.boolean b)
  · obtain ⟨b, rfl⟩ := hb
    obtain ⟨a, rfl, hsame⟩ := same_literal.mp h
    obtain rfl := Literal.same_boolean_right.mp (Literal.same_symm hsame)
    exact same_primitive.mpr rfl
  · have hu : ∀ b, u ≠ .literal (.boolean b) := by
      rintro b rfl
      obtain ⟨a, rfl, hsame⟩ := same_literal.mp (same_symm _ _ h)
      obtain rfl := Literal.same_boolean_right.mp (Literal.same_symm hsame)
      exact hb ⟨b, rfl⟩
    rwa [widenBoolean_of_ne fun b heq => hb ⟨b, heq⟩, widenBoolean_of_ne hu]

theorem widenBoolean_widenBoolean (t : WireType) : t.widenBoolean.widenBoolean = t.widenBoolean := by
  rw [widenBoolean, isBooleanLiteral_widenBoolean]
  rfl

theorem map_widenBoolean {types : List WireType} (h : ∀ b, .literal (.boolean b) ∉ types) :
    types.map widenBoolean = types :=
  (List.map_congr_left fun _ ht => widenBoolean_of_ne fun _ hb => h _ (hb ▸ ht)).trans
    (List.map_id types)

theorem boolean_notMem_map (types : List WireType) (b : Bool) :
    .literal (.boolean b) ∉ types.map widenBoolean := by
  intro h
  obtain ⟨t, -, ht⟩ := List.mem_map.mp h
  have hliteral := isBooleanLiteral_widenBoolean t
  rw [ht] at hliteral
  cases hliteral

theorem widened_perm {types types' : List WireType} (h : types.Perm types') :
    (widened types).Perm (widened types') := by
  have hspells : SpellsBoolean types ↔ SpellsBoolean types' := forall_congr' fun _ => h.mem_iff
  unfold widened
  by_cases hboth : SpellsBoolean types
  · rw [if_pos hboth, if_pos (hspells.mp hboth)]
    exact h.map _
  · rwa [if_neg hboth, if_neg (mt hspells.mpr hboth)]

/-! ## The members in closed form -/

section

variable {types : List WireType}

/-- The two passes of collapsing come to one. -/
theorem unionMembers_eq (types : List WireType) :
    unionMembers types = distinct (widened (types.flatMap alternatives)) := by
  have hboth : (hasLiteral (distinct (types.flatMap alternatives)) (.boolean true) &&
      hasLiteral (distinct (types.flatMap alternatives)) (.boolean false)) = true ↔
      SpellsBoolean (types.flatMap alternatives) := by
    rw [Bool.and_eq_true, hasLiteral_boolean, hasLiteral_boolean, mem_boolean_distinct,
      mem_boolean_distinct, SpellsBoolean, Bool.forall_bool, and_comm]
  simp only [unionMembers, widened]
  by_cases hspells : SpellsBoolean (types.flatMap alternatives)
  · rw [if_pos (hboth.mpr hspells), if_pos hspells, distinct_map_distinct widenBoolean_same]
  · rw [if_neg (mt hboth.mp hspells), if_neg hspells]

/-- A union stands for its members, also where a single one is left. -/
theorem alternatives_unionOf (h : ∀ t ∈ types, t.IsFlat) :
    (unionOf types).alternatives = unionMembers types := by
  have hflat := fun t (ht : t ∈ unionMembers types) => flat_unionMembers h ht
  rw [unionOf]
  split
  · rename_i single heq
    have hsingle := hflat single (heq ▸ List.mem_singleton.mpr rfl)
    rw [heq]
    cases single with
    | union inner => exact absurd rfl (hsingle inner)
    | _ => rfl
  · rfl

theorem IsFlat.unionOf (h : ∀ t ∈ types, t.IsFlat) : (unionOf types).IsFlat := by
  intro u hu
  rw [alternatives_unionOf h] at hu
  exact flat_unionMembers h hu

theorem unionOf_congr {types' : List WireType} (h : unionMembers types = unionMembers types') :
    unionOf types = unionOf types' := by
  rw [unionOf, unionOf, h]

theorem alternatives_of_not_union {t : WireType} (h : ∀ inner, t ≠ .union inner) :
    t.alternatives = [t] := by
  cases t with
  | union inner => exact absurd rfl (h inner)
  | _ => rfl

theorem isFlat_of_not_union {t : WireType} (h : ∀ inner, t ≠ .union inner) : t.IsFlat := by
  intro u hu
  rw [alternatives_of_not_union h] at hu
  exact List.mem_singleton.mp hu ▸ h

theorem flatMap_alternatives_of_flat (h : ∀ t ∈ types, ∀ inner, t ≠ .union inner) :
    types.flatMap alternatives = types := by
  induction types with
  | nil => rfl
  | cons t types ih =>
    rw [List.forall_mem_cons] at h
    rw [List.flatMap_cons, alternatives_of_not_union h.1, ih h.2]
    rfl

/-- What has been collapsed and widened stays as it is. -/
theorem unionMembers_unionMembers (h : ∀ t ∈ types, t.IsFlat) :
    unionMembers (unionMembers types) = unionMembers types := by
  have hflat := fun t (ht : t ∈ unionMembers types) => flat_unionMembers h ht
  have hspells : ¬ SpellsBoolean (unionMembers types) := fun hspells =>
    widened_unionMembers types
      ⟨hasLiteral_boolean.mpr (hspells true), hasLiteral_boolean.mpr (hspells false)⟩
  rw [unionMembers_eq, flatMap_alternatives_of_flat hflat, widened, if_neg hspells, unionMembers_eq]
  simpa using distinct_append_distinct [] (widened (types.flatMap alternatives)) []

end

section

variable {types : List WireType} {t : WireType}

/-- A type that is equal to no other one and is neither `boolean` nor one of its literals is a member of
the union just if it is an alternative of one of the types. -/
theorem mem_unionMembers_iff (hsame : ∀ u, same u t = true → u = t) (hliteral : t.isBooleanLiteral = false)
    (hboolean : t ≠ .primitive .boolean) :
    t ∈ unionMembers types ↔ ∃ u ∈ types, t ∈ u.alternatives := by
  refine ⟨fun h => (mem_unionMembers h).resolve_right hboolean, fun h => ?_⟩
  have hwidened : t ∈ widened (types.flatMap alternatives) := by
    unfold widened
    split
    · refine List.mem_map.mpr ⟨t, List.mem_flatMap.mpr h, ?_⟩
      rw [widenBoolean, hliteral]
      rfl
    · exact List.mem_flatMap.mpr h
  rw [unionMembers_eq]
  obtain ⟨u, hu, rfl | hkept⟩ := kept_of_mem hwidened
  · exact hu
  · exact hsame u hkept ▸ hu

end

/-! ## The order of the types -/

/-- Whether the second list has the types of the first one, up to equality and in some order. -/
def Rearranged (ts us : List WireType) : Prop :=
  ∃ ms : List WireType, ms.Perm ts ∧ List.Forall₂ (fun t u => same t u = true) ms us

/-- Two lists without repetition that cover each other have the same types. -/
theorem rearranged_of_covers {ts us : List WireType} (hts : ts.Pairwise Differ)
    (hus : us.Pairwise Differ) (hto : ∀ t ∈ ts, ∃ u ∈ us, same t u = true)
    (hfrom : ∀ u ∈ us, ∃ t ∈ ts, same t u = true) : Rearranged ts us := by
  induction us generalizing ts with
  | nil =>
    cases ts with
    | nil => exact ⟨[], .refl _, .nil⟩
    | cons t ts =>
      obtain ⟨u, hu, -⟩ := hto t (List.mem_cons_self ..)
      cases hu
  | cons u us ih =>
    obtain ⟨t, ht, htu⟩ := hfrom u (List.mem_cons_self ..)
    obtain ⟨left, right, rfl⟩ := List.append_of_mem ht
    have hperm : (t :: (left ++ right)).Perm (left ++ t :: right) := List.perm_middle.symm
    have hpairwise := (hperm.pairwise_iff fun h => ⟨h.2, h.1⟩).mpr hts
    obtain ⟨hrest, hothers⟩ := List.pairwise_cons.mp hpairwise
    obtain ⟨hurest, huothers⟩ := List.pairwise_cons.mp hus
    have hto' : ∀ s ∈ left ++ right, ∃ v ∈ us, same s v = true := by
      intro s hs
      obtain ⟨v, hv, hsv⟩ := hto s (hperm.mem_iff.mp (List.mem_cons_of_mem _ hs))
      rcases List.mem_cons.mp hv with rfl | hv
      · have hst := same_trans s v t hsv (same_symm t v htu)
        rw [(hrest s hs).2] at hst
        cases hst
      · exact ⟨v, hv, hsv⟩
    have hfrom' : ∀ v ∈ us, ∃ s ∈ left ++ right, same s v = true := by
      intro v hv
      obtain ⟨s, hs, hsv⟩ := hfrom v (List.mem_cons_of_mem _ hv)
      rcases List.mem_cons.mp (hperm.mem_iff.mpr hs) with rfl | hs
      · have huv := same_trans u s v (same_symm s u htu) hsv
        rw [(hurest v hv).1] at huv
        cases huv
      · exact ⟨s, hs, hsv⟩
    obtain ⟨ms, hms, hforall⟩ := ih hothers huothers hto' hfrom'
    exact ⟨t :: ms, (hms.cons t).trans hperm, .cons htu hforall⟩

theorem HasNoNaN.widenBoolean {t : WireType} (h : t.HasNoNaN) : t.widenBoolean.HasNoNaN := by
  rw [WireType.widenBoolean]
  split
  · intro x hx
    cases hx with
    | child hu _ => cases hu
  · exact h

theorem HasNoNaN.of_mem_alternatives {t u : WireType} (h : t.HasNoNaN) (hu : u ∈ t.alternatives) :
    u.HasNoNaN := by
  cases t with
  | union members => exact h.child hu
  | _ => exact List.mem_singleton.mp hu ▸ h

/-- A type without NaN is kept or an equal one is. -/
theorem exists_same_of_mem {types : List WireType} {t : WireType} (h : t ∈ types) (ht : t.HasNoNaN) :
    ∃ u ∈ distinct types, same u t = true := by
  obtain ⟨u, hu, rfl | hsame⟩ := kept_of_mem h
  · exact ⟨u, hu, same_self u ht⟩
  · exact ⟨u, hu, hsame⟩

theorem rearranged_distinct {types types' : List WireType} (h : types.Perm types')
    (hnumbers : ∀ t ∈ types, t.HasNoNaN) : Rearranged (distinct types) (distinct types') := by
  refine rearranged_of_covers (pairwise_distinct _) (pairwise_distinct _) (fun t ht => ?_) fun u hu => ?_
  · have hmem := mem_of_mem_distinct ht
    obtain ⟨u, hu, hsame⟩ := exists_same_of_mem (h.mem_iff.mp hmem) (hnumbers t hmem)
    exact ⟨u, hu, same_symm u t hsame⟩
  · have hmem := h.mem_iff.mpr (mem_of_mem_distinct hu)
    exact exists_same_of_mem hmem (hnumbers u hmem)

theorem rearranged_unionMembers {types types' : List WireType} (h : types.Perm types')
    (hnumbers : ∀ t ∈ types, t.HasNoNaN) :
    Rearranged (unionMembers types) (unionMembers types') := by
  rw [unionMembers_eq, unionMembers_eq]
  refine rearranged_distinct (widened_perm (h.flatMap_right _)) fun t ht => ?_
  have hflat : ∀ t ∈ types.flatMap alternatives, t.HasNoNaN := by
    intro t ht
    obtain ⟨u, hu, ht⟩ := List.mem_flatMap.mp ht
    exact (hnumbers u hu).of_mem_alternatives ht
  unfold widened at ht
  split at ht
  · obtain ⟨u, hu, rfl⟩ := List.mem_map.mp ht
    exact (hflat u hu).widenBoolean
  · exact hflat t ht

/-! ## What the union of some types is -/

/-- The union of flat types has the first occurrences among their alternatives, with `boolean` in place
of its two literals where both are there; a single one stands for itself. Doing this to the members of the
result changes nothing, and doing it to the types in another order only rearranges the members. -/
theorem unionOf_spec {types : List WireType} (hflat : ∀ t ∈ types, t.IsFlat)
    (hnumbers : ∀ t ∈ types, t.HasNoNaN) :
    (∀ t, firsts (widened (types.flatMap alternatives)) = [t] → unionOf types = t) ∧
      ((firsts (widened (types.flatMap alternatives))).length ≠ 1 →
        unionOf types = .union (firsts (widened (types.flatMap alternatives)))) ∧
      unionOf (unionOf types).alternatives = unionOf types ∧
      ∀ types' : List WireType, types'.Perm types →
        Rearranged (unionOf types).alternatives (unionOf types').alternatives := by
  rw [← distinct_eq_firsts, ← unionMembers_eq]
  refine ⟨fun t ht => ?_, fun hlength => ?_, ?_, fun types' hperm => ?_⟩
  · rw [unionOf, ht]
  · rw [unionOf]
    split
    · rename_i single heq
      exact absurd (heq ▸ rfl) hlength
    · rfl
  · rw [alternatives_unionOf hflat]
    exact unionOf_congr (unionMembers_unionMembers hflat)
  · rw [alternatives_unionOf hflat,
      alternatives_unionOf fun t ht => hflat t (hperm.mem_iff.mp ht)]
    exact rearranged_unionMembers hperm.symm hnumbers

/-- The two zeros are one member, and the first of them is kept. -/
theorem unionOf_spec_zeros :
    let types : List WireType := [.union [.primitive .string, .literal (.boolean true)],
      .literal (.number ⟨false, 0⟩), .literal (.boolean false), .literal (.number ⟨true, 0⟩)]
    (∀ t ∈ types, t.IsFlat) ∧ (∀ t ∈ types, t.HasNoNaN) ∧
      unionOf types =
        .union [.primitive .string, .primitive .boolean, .literal (.number ⟨false, 0⟩)] := by
  intro types
  have hflat : ∀ t ∈ types, t.IsFlat := by simp [types, IsFlat, alternatives]
  have hnumbers : ∀ t ∈ types, t.HasNoNaN := by
    intro t ht x hx
    have hzero : x.rank = 0 := by
      rw [← mem_parts] at hx
      simp only [types, List.mem_cons, List.not_mem_nil, or_false] at ht
      rcases ht with rfl | rfl | rfl | rfl <;> simp_all [parts, partsOfList]
    simp [Binary64.isNaN, hzero]
  exact ⟨hflat, hnumbers, (unionOf_spec hflat hnumbers).2.1 (by decide)⟩

/-! ## Nested unions -/

/-- Whether one boolean literal is there without the other. -/
def HasLoneBoolean (types : List WireType) : Prop :=
  ∃ b : Bool, .literal (.boolean b) ∈ types ∧ .literal (.boolean !b) ∉ types

theorem spellsBoolean_or_none {types : List WireType} (h : ¬ HasLoneBoolean types) :
    SpellsBoolean types ∨ ∀ b, .literal (.boolean b) ∉ types := by
  by_cases hsome : ∃ b, .literal (.boolean b) ∈ types
  · obtain ⟨b, hb⟩ := hsome
    have hother : .literal (.boolean !b) ∈ types := not_not.mp fun hother => h ⟨b, hb, hother⟩
    refine .inl fun c => ?_
    by_cases hc : c = b
    · exact hc ▸ hb
    · exact Bool.eq_not.mpr hc ▸ hother
  · exact .inr fun b hb => hsome ⟨b, hb⟩

section

variable {before types after : List WireType}

theorem spellsBoolean_append_distinct :
    SpellsBoolean (before ++ distinct types ++ after) ↔ SpellsBoolean (before ++ types ++ after) :=
  forall_congr' fun _ => by simp only [List.mem_append, mem_boolean_distinct]

/-- A nested list that does not spell `boolean` out may as well be given with the others. -/
theorem distinct_widened_nested (h : ¬ SpellsBoolean types) :
    distinct (widened (before ++ distinct (widened types) ++ after)) =
      distinct (widened (before ++ types ++ after)) := by
  rw [widened.eq_1 types, if_neg h, widened, widened]
  by_cases hspells : SpellsBoolean (before ++ types ++ after)
  · rw [if_pos hspells, if_pos (spellsBoolean_append_distinct.mpr hspells)]
    simpa only [List.map_append] using
      distinct_append_map widenBoolean_same (before.map widenBoolean) types (after.map widenBoolean)
  · rw [if_neg hspells, if_neg (mt spellsBoolean_append_distinct.mp hspells)]
    exact distinct_append_distinct before types after

/-- So may one that does, if no boolean literal is left alone beside it. -/
theorem distinct_widened_nested_spelled (h : SpellsBoolean types)
    (hlone : ¬ HasLoneBoolean (before ++ after)) :
    distinct (widened (before ++ distinct (widened types) ++ after)) =
      distinct (widened (before ++ types ++ after)) := by
  have hall : SpellsBoolean (before ++ types ++ after) := fun b =>
    List.mem_append_left _ (List.mem_append_right _ (h b))
  rw [widened.eq_1 types, if_pos h, widened.eq_1 (before ++ types ++ after), if_pos hall]
  rcases spellsBoolean_or_none hlone with hspells | hnone
  · -- The others widen too, and widening twice is widening once.
    have hnested : SpellsBoolean (before ++ distinct (types.map widenBoolean) ++ after) := fun b =>
      (List.mem_append.mp (hspells b)).elim
        (fun hb => List.mem_append_left _ (List.mem_append_left _ hb)) (List.mem_append_right _)
    rw [widened, if_pos hnested]
    simp only [List.map_append]
    rw [distinct_append_map widenBoolean_same, List.map_map]
    congr 4
    exact funext widenBoolean_widenBoolean
  · -- The others have no boolean literal, and the nested one has none any more.
    have hnested : ¬ SpellsBoolean (before ++ distinct (types.map widenBoolean) ++ after) := fun hb => by
      simp only [SpellsBoolean, List.mem_append, mem_boolean_distinct] at hb hnone
      rcases hb true with (hb | hb) | hb
      · exact hnone true (.inl hb)
      · exact boolean_notMem_map types true hb
      · exact hnone true (.inr hb)
    have hbefore : before.map widenBoolean = before :=
      map_widenBoolean fun b hb => hnone b (List.mem_append_left _ hb)
    have hafter : after.map widenBoolean = after :=
      map_widenBoolean fun b hb => hnone b (List.mem_append_right _ hb)
    rw [widened, if_neg hnested, distinct_append_distinct, List.map_append, List.map_append, hbefore,
      hafter]

/-- A lone literal outlives the nested union, but not the members given all at once. -/
theorem distinct_widened_nested_ne (h : SpellsBoolean types) (hlone : HasLoneBoolean (before ++ after)) :
    distinct (widened (before ++ distinct (widened types) ++ after)) ≠
      distinct (widened (before ++ types ++ after)) := by
  obtain ⟨b, hb, hother⟩ := hlone
  have hall : SpellsBoolean (before ++ types ++ after) := fun b =>
    List.mem_append_left _ (List.mem_append_right _ (h b))
  have hnested : ¬ SpellsBoolean (before ++ distinct (widened types) ++ after) := fun hspells => by
    have hmem := hspells !b
    rw [widened, if_pos h] at hmem
    simp only [List.mem_append, mem_boolean_distinct] at hmem hother
    rcases hmem with (hmem | hmem) | hmem
    · exact hother (.inl hmem)
    · exact boolean_notMem_map types _ hmem
    · exact hother (.inr hmem)
  intro heq
  have hmem : .literal (.boolean b) ∈ distinct (widened (before ++ distinct (widened types) ++ after)) := by
    rw [widened, if_neg hnested, mem_boolean_distinct]
    exact (List.mem_append.mp hb).elim
      (fun hb => List.mem_append_left _ (List.mem_append_left _ hb)) (List.mem_append_right _)
  rw [heq, widened, if_pos hall, mem_boolean_distinct] at hmem
  exact boolean_notMem_map _ b hmem

end

/-- The union of a nested union and others is that of all members at once, unless the nested union has
made `boolean` of both literals and exactly one of the two stands among the others. -/
theorem unionOf_nested_iff {xs ys zs : List WireType} (h : ∀ t ∈ xs ++ ys ++ zs, t.IsFlat) :
    unionOf (xs ++ [unionOf ys] ++ zs) = unionOf (xs ++ ys ++ zs) ↔
      ¬ (SpellsBoolean (ys.flatMap alternatives) ∧
        HasLoneBoolean ((xs ++ zs).flatMap alternatives)) := by
  have hys : ∀ t ∈ ys, t.IsFlat := fun t ht => h t (by simp [ht])
  have hnested : ∀ t ∈ xs ++ [unionOf ys] ++ zs, t.IsFlat := by
    simp only [List.mem_append, List.mem_singleton]
    rintro t ((ht | rfl) | ht)
    · exact h t (by simp [ht])
    · exact .unionOf hys
    · exact h t (by simp [ht])
  have hmembers : unionMembers (xs ++ [unionOf ys] ++ zs) =
      distinct (widened (xs.flatMap alternatives ++ distinct (widened (ys.flatMap alternatives)) ++
        zs.flatMap alternatives)) := by
    rw [unionMembers_eq, List.flatMap_append, List.flatMap_append, List.flatMap_singleton,
      alternatives_unionOf hys, unionMembers_eq]
  have hflat : unionMembers (xs ++ ys ++ zs) =
      distinct (widened (xs.flatMap alternatives ++ ys.flatMap alternatives ++
        zs.flatMap alternatives)) := by
    rw [unionMembers_eq, List.flatMap_append, List.flatMap_append]
  rw [List.flatMap_append]
  constructor
  · rintro heq ⟨hspells, hlone⟩
    have hsame := congrArg alternatives heq
    rw [alternatives_unionOf hnested, alternatives_unionOf h, hmembers, hflat] at hsame
    exact distinct_widened_nested_ne hspells hlone hsame
  · intro hnot
    refine unionOf_congr (hmembers.trans (.trans ?_ hflat.symm))
    by_cases hspells : SpellsBoolean (ys.flatMap alternatives)
    · exact distinct_widened_nested_spelled hspells fun hlone => hnot ⟨hspells, hlone⟩
    · exact distinct_widened_nested hspells

/-- Both literals beside the nested `boolean` are widened with it. -/
theorem unionOf_nested_iff_both :
    let xs : List WireType := [.literal (.boolean true), .primitive .string]
    let ys : List WireType := [.literal (.boolean false), .literal (.boolean true)]
    let zs : List WireType := [.union [.primitive .number, .literal (.boolean false)]]
    (∀ t ∈ xs ++ ys ++ zs, t.IsFlat) ∧
      unionOf (xs ++ [unionOf ys] ++ zs) = unionOf (xs ++ ys ++ zs) := by
  intro xs ys zs
  have hflat : ∀ t ∈ xs ++ ys ++ zs, t.IsFlat := by simp [xs, ys, zs, IsFlat, alternatives]
  refine ⟨hflat, (unionOf_nested_iff hflat).mpr ?_⟩
  rintro ⟨-, b, -, hother⟩
  cases b <;> simp [xs, zs, alternatives] at hother

/-- `true | (true | false)` keeps its first member; `true | true | false` is `boolean`. -/
theorem unionOf_nested_ne :
    (∀ b : Bool, IsNormal (.literal (.boolean b))) ∧
      unionOf ([.literal (.boolean true)] ++
          [unionOf [.literal (.boolean true), .literal (.boolean false)]] ++ []) ≠
        unionOf ([.literal (.boolean true)] ++
          [.literal (.boolean true), .literal (.boolean false)] ++ []) := by
  refine ⟨fun b => .of_children (by simp) (by simp [children]), ?_⟩
  rw [show unionOf ([.literal (.boolean true)] ++
      [unionOf [.literal (.boolean true), .literal (.boolean false)]] ++ []) =
      .union [.literal (.boolean true), .primitive .boolean] from rfl]
  exact fun h => WireType.noConfusion h

end AnnotatedApi.WireType
