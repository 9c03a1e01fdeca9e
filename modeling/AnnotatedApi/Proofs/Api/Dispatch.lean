import AnnotatedApi.Api.Assembly
import AnnotatedApi.Proofs.Linking.Consistency
import AnnotatedApi.Proofs.Lists
import Mathlib.Data.List.Count
import Mathlib.Data.List.Nodup
import Mathlib.Data.List.Perm.Basic

/-!
# The dispatch table

An operation claims a verb and a route key. Candidates whose claim is theirs alone are published; of
several with one claim none is, and each but the first is reported. The published operations are
split among the route groups without loss: a group has the operations of its route key in order, each
under a verb of its own, with the operation for any verb moved to the end.
-/

namespace AnnotatedApi.Api

set_option autoImplicit false

/-! ## Claims -/

/-- What at most one operation of an API may have: a verb for a route key. -/
def Operation.claim (o : Operation) : Verb × String := (o.verb, o.routeKey)

theorem sameClaim_iff {o other : Operation} : o.sameClaim other = true ↔ other.claim = o.claim := by
  rw [Operation.sameClaim, Bool.and_eq_true, beq_iff_eq, beq_iff_eq, Operation.claim, Operation.claim,
    Prod.mk.injEq, eq_comm, @eq_comm _ o.routeKey]

theorem sameClaim_eq (o : Operation) : o.sameClaim = fun other => other.claim == o.claim := by
  funext other
  rw [Bool.eq_iff_iff, sameClaim_iff, beq_iff_eq]

/-- The first element with a property is the only one that is not counted. -/
theorem countP_after_first {α : Type} (p : α → Bool) (l : List α) (n : Nat) :
    (l.zipIdx n).countP (fun x => p x.1 && decide (n + l.findIdx p < x.2)) = l.countP p - 1 := by
  induction l generalizing n with
  | nil => rfl
  | cons a l ih =>
    rw [List.zipIdx_cons, List.countP_cons, List.countP_cons, List.findIdx_cons]
    cases ha : p a with
    | true =>
      have hlater : ∀ x ∈ l.zipIdx (n + 1), (p x.1 && decide (n < x.2)) = true ↔ p x.1 = true := by
        intro x hx
        have hle := List.le_snd_of_mem_zipIdx hx
        simp [show n < x.2 by omega]
      have hfst : (l.zipIdx (n + 1)).countP (fun x => p x.1) = l.countP p := by
        conv_rhs => rw [← List.zipIdx_map_fst (n + 1) l, List.countP_map]
        rfl
      simp only [cond_true, Nat.add_zero]
      rw [List.countP_congr hlater, hfst]
      simp
    | false =>
      have hnext := ih (n + 1)
      rw [Nat.add_right_comm] at hnext
      simpa [Nat.add_assoc] using hnext

/-! ## Clashes -/

/-- The candidates whose claim an earlier one has made, each with the first that has made it. -/
def repeats (all : List Operation) : List (Operation × Operation) :=
  all.zipIdx.filterMap fun (o, i) =>
    if all.findIdx o.sameClaim < i then (all.find? o.sameClaim).map (o, ·) else none

theorem exists_claimant {all : List Operation} {o : Operation} (ho : o ∈ all) :
    ∃ first, all.find? o.sameClaim = some first ∧
      all.findIdx? o.sameClaim = some (all.findIdx o.sameClaim) ∧
      all[all.findIdx o.sameClaim]? = some first := by
  have hself : o.sameClaim o = true := sameClaim_iff.mpr rfl
  have hlt : all.findIdx o.sameClaim < all.length := List.findIdx_lt_length_of_exists ⟨o, ho, hself⟩
  refine ⟨all[all.findIdx o.sameClaim], ?_, ?_, List.getElem?_eq_getElem hlt⟩
  · rw [List.find?_eq_getElem?_findIdx]
    exact List.getElem?_eq_getElem hlt
  · exact List.findIdx?_eq_some_of_exists ⟨o, ho, hself⟩

theorem clashDiagnostics_eq (all : List Operation) :
    clashDiagnostics all = (repeats all).map fun r => clashDiagnostic r.1 r.2 := by
  rw [clashDiagnostics, clashes, List.filterMap_filterMap, repeats, List.map_filterMap]
  refine List.filterMap_congr fun (o, i) hmem => ?_
  have ho : all[i]? = some o := List.mk_mem_zipIdx_iff_getElem?.mp hmem
  obtain ⟨first, hfind, hidx, hget⟩ := exists_claimant (List.mem_of_getElem? ho)
  simp only [hidx, hfind]
  split
  · simp [ho, hget]
  · rfl

theorem map_fst_repeats (all : List Operation) :
    (repeats all).map Prod.fst =
      (all.zipIdx.filter fun x => decide (all.findIdx x.1.sameClaim < x.2)).map Prod.fst := by
  rw [repeats, List.map_filterMap, ← List.filterMap_eq_filter, List.map_filterMap]
  refine List.filterMap_congr fun (o, i) hmem => ?_
  obtain ⟨first, hfind, _⟩ := exists_claimant (List.fst_mem_of_mem_zipIdx hmem)
  by_cases h : all.findIdx o.sameClaim < i <;> simp [h, hfind, Option.guard]

theorem find?_of_mem_repeats {all : List Operation} {r : Operation × Operation} (h : r ∈ repeats all) :
    all.find? (·.claim == r.1.claim) = some r.2 := by
  obtain ⟨⟨o, i⟩, _, hr⟩ := List.mem_filterMap.mp h
  dsimp only at hr
  split at hr
  · obtain ⟨first, hfind, rfl⟩ := Option.map_eq_some_iff.mp hr
    rwa [sameClaim_eq] at hfind
  · cases hr

theorem count_repeats (all : List Operation) (claim : Verb × String) :
    ((repeats all).map (·.1.claim)).count claim = (all.map Operation.claim).count claim - 1 := by
  have hclaims : (repeats all).map (·.1.claim) = ((repeats all).map Prod.fst).map Operation.claim := by
    rw [List.map_map]
    rfl
  rw [hclaims, map_fst_repeats, List.map_map, List.count_eq_countP, List.count_eq_countP,
    List.countP_map, List.countP_map, List.countP_filter, ← countP_after_first _ all 0]
  refine List.countP_congr fun x _ => ?_
  -- For the claim that is counted, the first candidate with it is the first candidate there is.
  simp only [Function.comp_apply, Bool.and_eq_true, beq_iff_eq, decide_eq_true_eq, sameClaim_eq,
    Nat.zero_add]
  refine and_congr_right fun hx => ?_
  subst hx
  rfl

/-! ## Publication -/

theorem mem_clashes {all : List Operation} {f j : Nat} : (⟨f, j⟩ : Clash) ∈ clashes all ↔
    ∃ o, all[j]? = some o ∧ all.findIdx o.sameClaim = f ∧ f < j := by
  rw [clashes, List.mem_filterMap]
  constructor
  · rintro ⟨⟨o, k⟩, hk, hclash⟩
    have ho : all[k]? = some o := List.mk_mem_zipIdx_iff_getElem?.mp hk
    obtain ⟨_, _, hidx, _⟩ := exists_claimant (List.mem_of_getElem? ho)
    simp only [hidx] at hclash
    split at hclash
    · cases hclash
      exact ⟨o, ho, rfl, ‹_›⟩
    · cases hclash
  · rintro ⟨o, ho, rfl, hlt⟩
    obtain ⟨_, _, hidx, _⟩ := exists_claimant (List.mem_of_getElem? ho)
    exact ⟨(o, j), List.mk_mem_zipIdx_iff_getElem?.mpr ho, by simp [hidx, hlt]⟩

theorem findIdx_claim_le {all : List Operation} {o other : Operation} {j : Nat}
    (hother : all[j]? = some other) (hclaim : other.claim = o.claim) :
    all.findIdx o.sameClaim ≤ j := by
  refine Nat.le_of_not_lt fun hlt => ?_
  obtain ⟨hj, rfl⟩ := List.getElem?_eq_some_iff.mp hother
  simpa [sameClaim_iff.mpr hclaim] using List.not_of_lt_findIdx hlt

/-- A candidate takes part in a clash just if another one has its claim. -/
theorem clash_iff {all : List Operation} {i : Nat} {o : Operation} (ho : all[i]? = some o) :
    (∃ clash ∈ clashes all, clash.first = i ∨ clash.again = i) ↔
      ∃ j other, all[j]? = some other ∧ other.claim = o.claim ∧ j ≠ i := by
  constructor
  · rintro ⟨⟨f, j⟩, hclash, heq⟩
    obtain ⟨other, hother, rfl, hlt⟩ := mem_clashes.mp hclash
    obtain ⟨first, hfind, _, hget⟩ := exists_claimant (List.mem_of_getElem? hother)
    have hclaim : first.claim = other.claim := sameClaim_iff.mp (List.find?_some hfind)
    dsimp only at heq
    rcases heq with heq | rfl
    · rw [heq, ho] at hget
      cases hget
      exact ⟨j, other, hother, hclaim.symm, by omega⟩
    · rw [ho] at hother
      cases hother
      exact ⟨_, first, hget, hclaim, by omega⟩
  · rintro ⟨j, other, hother, hclaim, hne⟩
    have hle := findIdx_claim_le hother hclaim
    rcases Nat.lt_or_eq_of_le (findIdx_claim_le ho rfl) with hlt | heq
    · exact ⟨⟨_, i⟩, mem_clashes.mpr ⟨o, ho, rfl, hlt⟩, .inr rfl⟩
    -- If this is the first with its claim, the other one comes later.
    · have hfirst : all.findIdx other.sameClaim = i := by rw [sameClaim_eq, hclaim, ← sameClaim_eq, heq]
      exact ⟨⟨i, j⟩, mem_clashes.mpr ⟨other, hother, hfirst, by omega⟩, .inl rfl⟩

theorem count_eq_one_iff {α : Type} [BEq α] [LawfulBEq α] {l : List α} {i : Nat} {a : α}
    (h : l[i]? = some a) : l.count a = 1 ↔ ¬ ∃ j, j ≠ i ∧ ∃ b, l[j]? = some b ∧ b = a := by
  obtain ⟨s, t, rfl, rfl⟩ := Forest.split_of_getElem? h
  rw [Forest.exists_other_iff s a t (· = a), List.count_append, List.count_cons_self]
  have hrest : (¬ ∃ b ∈ s ++ t, b = a) ↔ s.count a + t.count a = 0 := by
    rw [← List.count_append, List.count_eq_zero]
    simp
  rw [hrest]
  omega

/-- The published operations are the candidates whose claim no other candidate has. -/
theorem published_eq (all : List Operation) :
    published all = all.filter fun o => (all.map Operation.claim).count o.claim == 1 := by
  have hkept : ∀ x ∈ all.zipIdx,
      (!(clashes all).any fun clash => clash.first == x.2 || clash.again == x.2) =
        ((all.map Operation.claim).count x.1.claim == 1) := by
    rintro ⟨o, i⟩ hmem
    have ho : all[i]? = some o := List.mk_mem_zipIdx_iff_getElem?.mp hmem
    have hclaim : (all.map Operation.claim)[i]? = some o.claim := by simp [ho]
    dsimp only
    rw [Bool.eq_iff_iff, beq_iff_eq, count_eq_one_iff hclaim, Bool.not_eq_true', ← Bool.not_eq_true,
      List.any_eq_true]
    refine not_congr ?_
    simp only [Bool.or_eq_true, beq_iff_eq, clash_iff ho, List.getElem?_map, Option.map_eq_some_iff]
    constructor
    · rintro ⟨j, other, hother, hsame, hne⟩
      exact ⟨j, hne, _, ⟨other, hother, rfl⟩, hsame⟩
    · rintro ⟨j, hne, _, ⟨other, hother, rfl⟩, hsame⟩
      exact ⟨j, other, hother, hsame, hne⟩
  rw [published, List.filter_congr hkept]
  conv_rhs => rw [← List.zipIdx_map_fst 0 all, List.filter_map]
  rw [List.zipIdx_map_fst]
  rfl

/-- What is published is the operation of a method of the forest. -/
theorem exists_method_of_mem_published {l : LinkedForest} {o : Operation}
    (h : o ∈ published (candidates l)) :
    ∃ c ∈ l.forest, ∃ m j path, (m, j) ∈ c.methods ∧ operationOf? l c m path = some o := by
  rw [published_eq] at h
  obtain ⟨⟨c, i⟩, hc, ho⟩ := List.mem_flatMap.mp (List.mem_filter.mp h).1
  obtain ⟨⟨m, j⟩, hm, ho⟩ := List.mem_filterMap.mp ho
  exact ⟨c, List.mem_of_getElem? (List.mk_mem_zipIdx_iff_getElem?.mp hc), m, j, _, hm, ho⟩

/-! ## Groups -/

/-- Groups as they fill up with operations and their indices: one for each route key, with the
operations that have it in order. -/
structure Gathered (xs : List (Operation × Nat)) (groups : List RouteGroup) : Prop where
  routeKeys : (groups.map (·.routeKey)).Nodup
  covers : ∀ x ∈ xs, x.1.routeKey ∈ groups.map (·.routeKey)
  entries : ∀ g ∈ groups,
    g.entries = (xs.filter (·.1.routeKey = g.routeKey)).map fun x => (x.1.verb, x.2)
  perm : (groups.flatMap (·.entries)).Perm (xs.map fun x => (x.1.verb, x.2))

theorem routeKeys_addToGroup (o : Operation) (i : Nat) (groups : List RouteGroup) :
    (addToGroup o i groups).map (·.routeKey) =
      if o.routeKey ∈ groups.map (·.routeKey) then groups.map (·.routeKey)
      else groups.map (·.routeKey) ++ [o.routeKey] := by
  induction groups with
  | nil => simp [addToGroup]
  | cons g groups ih =>
    by_cases h : g.routeKey = o.routeKey
    · simp [addToGroup, h]
    · have h' : o.routeKey ≠ g.routeKey := Ne.symm h
      simp only [addToGroup, h, if_false, List.map_cons, ih, List.mem_cons, h', false_or]
      split <;> rfl

theorem perm_entries_addToGroup (o : Operation) (i : Nat) (groups : List RouteGroup) :
    ((addToGroup o i groups).flatMap (·.entries)).Perm
      ((o.verb, i) :: groups.flatMap (·.entries)) := by
  induction groups with
  | nil => simp [addToGroup]
  | cons g groups ih =>
    by_cases h : g.routeKey = o.routeKey
    · simp only [addToGroup, h, if_true, List.flatMap_cons, List.append_assoc]
      exact List.perm_middle
    · simp only [addToGroup, h, if_false, List.flatMap_cons]
      exact (ih.append_left _).trans List.perm_middle

theorem mem_addToGroup {o : Operation} {i : Nat} {groups : List RouteGroup} {g : RouteGroup}
    (hn : (groups.map (·.routeKey)).Nodup) (h : g ∈ addToGroup o i groups) :
    (g ∈ groups ∧ g.routeKey ≠ o.routeKey) ∨
      (∃ g' ∈ groups, g'.routeKey = o.routeKey ∧
        g = { g' with entries := g'.entries ++ [(o.verb, i)] }) ∨
      (o.routeKey ∉ groups.map (·.routeKey) ∧ g = ⟨o.routeKey, o.route, [(o.verb, i)]⟩) := by
  induction groups with
  | nil => exact .inr (.inr ⟨by simp, List.mem_singleton.mp h⟩)
  | cons g' groups ih =>
    rw [List.map_cons, List.nodup_cons] at hn
    by_cases hk : g'.routeKey = o.routeKey
    · simp only [addToGroup, hk, if_true, List.mem_cons] at h
      rcases h with rfl | h
      · exact .inr (.inl ⟨g', List.mem_cons_self .., hk, by rw [hk]⟩)
      · refine .inl ⟨List.mem_cons_of_mem _ h, fun heq => hn.1 ?_⟩
        rw [hk, ← heq]
        exact List.mem_map_of_mem h
    · simp only [addToGroup, hk, if_false, List.mem_cons] at h
      rcases h with rfl | h
      · exact .inl ⟨List.mem_cons_self .., hk⟩
      · rcases ih hn.2 h with ⟨h, hne⟩ | ⟨g'', h, hg⟩ | ⟨hnew, hg⟩
        · exact .inl ⟨List.mem_cons_of_mem _ h, hne⟩
        · exact .inr (.inl ⟨g'', List.mem_cons_of_mem _ h, hg⟩)
        · refine .inr (.inr ⟨?_, hg⟩)
          rw [List.map_cons, List.mem_cons, not_or]
          exact ⟨Ne.symm hk, hnew⟩

theorem Gathered.add {xs : List (Operation × Nat)} {groups : List RouteGroup}
    (h : Gathered xs groups) (o : Operation) (i : Nat) :
    Gathered (xs ++ [(o, i)]) (addToGroup o i groups) where
  routeKeys := by
    rw [routeKeys_addToGroup]
    split
    · exact h.routeKeys
    · rename_i hnew
      exact List.nodup_append'.mpr ⟨h.routeKeys, List.nodup_singleton _, by simpa using hnew⟩
  covers x hx := by
    rw [routeKeys_addToGroup]
    rcases List.mem_append.mp hx with hx | hx
    · have hcovered := h.covers x hx
      split
      · exact hcovered
      · exact List.mem_append_left _ hcovered
    · obtain rfl := List.mem_singleton.mp hx
      split
      · assumption
      · exact List.mem_append_right _ (List.mem_singleton.mpr rfl)
  entries g hg := by
    rw [List.filter_append, List.map_append]
    rcases mem_addToGroup h.routeKeys hg with ⟨hg, hne⟩ | ⟨g', hg', hk, rfl⟩ | ⟨hnew, rfl⟩
    · simp [h.entries g hg, Ne.symm hne]
    · simp [h.entries g' hg', hk]
    · have hnone : xs.filter (·.1.routeKey = o.routeKey) = [] := by
        refine List.filter_eq_nil_iff.mpr fun x hx hk => hnew ?_
        rw [← of_decide_eq_true hk]
        exact h.covers x hx
      simp [hnone]
  perm := by
    rw [List.map_append]
    refine (perm_entries_addToGroup o i groups).trans ?_
    exact (h.perm.cons _).trans (List.perm_append_singleton _ _).symm

theorem Gathered.foldl {xs : List (Operation × Nat)} {groups : List RouteGroup}
    (h : Gathered xs groups) (ys : List (Operation × Nat)) :
    Gathered (xs ++ ys) (ys.foldl (fun groups (o, i) => addToGroup o i groups) groups) := by
  induction ys generalizing xs groups with
  | nil => rwa [List.append_nil]
  | cons y ys ih =>
    rw [List.append_cons]
    exact ih (h.add y.1 y.2)

/-! ## Dispatch -/

/-- What the group of a route says about the operations of an API. -/
structure RouteGroup.Dispatches (operations : List Operation) (g : RouteGroup) : Prop where
  own : ∀ e ∈ g.entries, ∃ o, operations[e.2]? = some o ∧ o.verb = e.1 ∧ o.routeKey = g.routeKey
  verbs : (g.entries.map (·.1)).Nodup
  /-- The operation for any verb stands at the end. -/
  fallback : ∀ e ∈ g.entries.dropLast, e.1 ≠ .any
  increasing : ((g.entries.filter (·.1 != .any)).map (·.2)).Pairwise (· < ·)

theorem perm_withFallbackLast (g : RouteGroup) : g.withFallbackLast.entries.Perm g.entries := by
  have hnot : ∀ e : Verb × Nat, (e.1 == .any) = !(e.1 != .any) := by
    intro e
    rw [bne, Bool.not_not]
  simp only [RouteGroup.withFallbackLast, hnot]
  exact List.filter_append_perm _ _

theorem filter_withFallbackLast (g : RouteGroup) :
    g.withFallbackLast.entries.filter (·.1 != .any) = g.entries.filter (·.1 != .any) := by
  have hrest : ∀ e ∈ g.entries.filter (·.1 == .any), ¬ (e.1 != .any) = true := by
    intro e he
    rw [bne, Bool.not_eq_true', Bool.not_eq_false]
    exact (List.mem_filter.mp he).2
  rw [RouteGroup.withFallbackLast, List.filter_append, List.filter_filter,
    List.filter_eq_nil_iff.mpr hrest, List.append_nil]
  simp

/-- If no verb comes twice, the operation for any verb is the last one. -/
theorem fallback_withFallbackLast {g : RouteGroup} (hn : (g.entries.map (·.1)).Nodup) :
    ∀ e ∈ g.withFallbackLast.entries.dropLast, e.1 ≠ .any := by
  intro e he hany
  have hnodup : ((g.entries.filter (·.1 == .any)).map (·.1)).Nodup :=
    hn.sublist (List.filter_sublist.map _)
  have hverb : ∀ x ∈ g.entries.filter (·.1 == .any), x.1 = .any := fun x hx =>
    beq_iff_eq.mp (List.mem_filter.mp hx).2
  rw [RouteGroup.withFallbackLast] at he
  match hlast : g.entries.filter (·.1 == .any) with
  | [] =>
    rw [hlast, List.append_nil] at he
    simpa [hany] using (List.mem_filter.mp (List.dropLast_subset _ he)).2
  | [x] =>
    rw [hlast, List.dropLast_concat] at he
    simpa [hany] using (List.mem_filter.mp he).2
  | x :: y :: rest =>
    rw [hlast] at hnodup hverb
    have hx := hverb x (by simp)
    have hy := hverb y (by simp)
    simp [hx, hy] at hnodup

/-- The published operations have a claim each. -/
theorem nodup_claims_published (all : List Operation) :
    ((published all).map Operation.claim).Nodup := by
  rw [published_eq, List.nodup_iff_count_le_one]
  intro claim
  by_cases hclaim : claim ∈ (all.filter fun o =>
      (all.map Operation.claim).count o.claim == 1).map Operation.claim
  · obtain ⟨o, ho, rfl⟩ := List.mem_map.mp hclaim
    have hcount := beq_iff_eq.mp (List.mem_filter.mp ho).2
    rw [← hcount]
    exact (List.filter_sublist.map _).count_le _
  · rw [List.count_eq_zero.mpr hclaim]
    exact Nat.zero_le _

/-- A group that has gathered operations with a claim each dispatches among them, once its fallback
is in its place. -/
theorem Gathered.dispatches {operations : List Operation} {groups : List RouteGroup}
    (h : Gathered operations.zipIdx groups) (hn : (operations.map Operation.claim).Nodup)
    {g : RouteGroup} (hg : g ∈ groups) : g.withFallbackLast.Dispatches operations := by
  have hentries := h.entries g hg
  have hverbs : (g.entries.map (·.1)).Nodup := by
    have hclaims : (operations.zipIdx.map (·.1.claim)).Nodup := by
      rw [← List.zipIdx_map_fst 0 operations, List.map_map] at hn
      exact hn
    -- Within a group the verb is all there is to a claim.
    refine List.Nodup.of_map (·, g.routeKey) ?_
    rw [hentries, List.map_map, List.map_map]
    refine Eq.mp (congrArg _ (List.map_congr_left fun x hx => ?_))
      (hclaims.sublist (List.filter_sublist.map _))
    exact congrArg (x.1.verb, ·) (of_decide_eq_true (List.mem_filter.mp hx).2)
  have hindices : (g.entries.map (·.2)).Pairwise (· < ·) := by
    rw [hentries, List.map_map]
    have hrange : (operations.zipIdx.map Prod.snd).Pairwise (· < ·) :=
      List.pairwise_map.mpr (pairwise_zipIdx operations)
    exact hrange.sublist (List.filter_sublist.map _)
  constructor
  · intro e he
    have hmem := (perm_withFallbackLast g).mem_iff.mp he
    rw [hentries] at hmem
    obtain ⟨⟨o, i⟩, hx, rfl⟩ := List.mem_map.mp hmem
    obtain ⟨hx, hk⟩ := List.mem_filter.mp hx
    exact ⟨o, List.mk_mem_zipIdx_iff_getElem?.mp hx, rfl, of_decide_eq_true hk⟩
  · exact ((perm_withFallbackLast g).map _).nodup_iff.mpr hverbs
  · exact fallback_withFallbackLast hverbs
  · rw [filter_withFallbackLast]
    exact hindices.sublist (List.filter_sublist.map _)

theorem gathered_groups (operations : List Operation) : ∃ groups,
    groupRoutes operations = groups.map RouteGroup.withFallbackLast ∧
      Gathered operations.zipIdx groups := by
  have hempty : Gathered [] [] := ⟨by simp, by simp, by simp, .refl _⟩
  exact ⟨_, rfl, hempty.foldl operations.zipIdx⟩

theorem nodup_routeKeys_groupRoutes (operations : List Operation) :
    ((groupRoutes operations).map (·.routeKey)).Nodup := by
  obtain ⟨groups, heq, hgathered⟩ := gathered_groups operations
  rw [heq, List.map_map]
  exact hgathered.routeKeys

/-- Every index stands in one group and only once. -/
theorem perm_indices_groupRoutes (operations : List Operation) :
    (((groupRoutes operations).flatMap (·.entries)).map (·.2)).Perm
      (List.range operations.length) := by
  obtain ⟨groups, heq, hgathered⟩ := gathered_groups operations
  have hperm : ((groupRoutes operations).flatMap (·.entries)).Perm (groups.flatMap (·.entries)) := by
    rw [heq, List.flatMap_map]
    exact List.Perm.flatMap_left _ fun g _ => perm_withFallbackLast g
  refine (hperm.trans hgathered.perm).map _ |>.trans (.of_eq ?_)
  rw [List.map_map, List.range_eq_range', ← List.zipIdx_map_snd 0 operations]
  rfl

/-- What is published of all candidates. -/
structure Assembled.Publishes (all : List Operation) (a : Assembled) : Prop where
  /-- The candidates with a claim of their own are published. -/
  operations : a.operations = all.filter (fun o => (all.map Operation.claim).count o.claim == 1)
  /-- Each candidate whose claim an earlier one has is reported, against the first that has it. -/
  clashes : ∃ repeated : List (Operation × Operation),
    a.diagnostics = repeated.map (fun r => clashDiagnostic r.1 r.2) ∧
    (repeated.map Prod.fst).Sublist all ∧
    (∀ r ∈ repeated, all.find? (·.claim == r.1.claim) = some r.2) ∧
    ∀ claim, (repeated.map (·.1.claim)).count claim = (all.map Operation.claim).count claim - 1
  errors : ∀ d ∈ a.diagnostics, d.isError = true ∧ d.kind = some .duplicateRoute
  routeKeys : (a.routes.map (·.routeKey)).Nodup
  /-- The groups divide the published operations among them. -/
  entries : ((a.routes.flatMap (·.entries)).map (·.2)).Perm (List.range a.operations.length)
  dispatches : ∀ g ∈ a.routes, g.Dispatches a.operations

theorem assemble_spec (l : LinkedForest) : (assemble l).Publishes (candidates l) where
  operations := published_eq _
  clashes := by
    refine ⟨repeats (candidates l), clashDiagnostics_eq _, ?_, fun r hr => find?_of_mem_repeats hr,
      count_repeats _⟩
    rw [map_fst_repeats]
    conv_rhs => rw [← List.zipIdx_map_fst 0 (candidates l)]
    exact List.filter_sublist.map _
  errors d hd := by
    have hmem : d ∈ (repeats (candidates l)).map fun r => clashDiagnostic r.1 r.2 := by
      rw [← clashDiagnostics_eq]
      exact hd
    obtain ⟨r, _, rfl⟩ := List.mem_map.mp hmem
    exact ⟨rfl, rfl⟩
  routeKeys := nodup_routeKeys_groupRoutes _
  entries := perm_indices_groupRoutes _
  dispatches g hg := by
    obtain ⟨groups, heq, hgathered⟩ := gathered_groups (published (candidates l))
    have hmem : g ∈ groups.map RouteGroup.withFallbackLast := by
      rw [← heq]
      exact hg
    obtain ⟨g, hgroup, rfl⟩ := List.mem_map.mp hmem
    exact hgathered.dispatches (nodup_claims_published _) hgroup

end AnnotatedApi.Api
