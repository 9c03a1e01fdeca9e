import AnnotatedApi.Proofs.Api.Dispatch
import AnnotatedApi.Proofs.Linking.ClassByClass
import AnnotatedApi.Proofs.Linking.Permutation

/-!
# Operations and the order of classes

The operations of a class are made from the class and the links below it, so they are those of the
class alone, and the candidates of a forest are those of its classes side by side. What is published
and how many candidates are reported depends on how often a claim is made, not on where.
-/

namespace AnnotatedApi

set_option autoImplicit false

variable {f g : Forest} {i : Nat} {c : ClassNode}

/-! ## The links of a member -/

/-- A property of places below a class picks from the links of the forest what it picks from those of
the class. -/
theorem Forest.filter_links_under (hc : f[i]? = some c) {p : NodePath → Bool}
    (hp : ∀ q, p q = true → NodePath.isUnder i q = true) :
    f.links.filter (p ·.source) =
      (c.linksBelow.filter fun l => p (i :: l.source)).map (.under i) := by
  have hunder : f.links.filter (p ·.source) =
      (f.links.filter (NodePath.isUnder i ·.source)).filter (p ·.source) := by
    rw [List.filter_filter]
    refine List.filter_congr fun l _ => ?_
    rw [Bool.eq_iff_iff, Bool.and_eq_true, iff_self_and]
    exact hp l.source
  rw [hunder, Forest.links_under hc, List.filter_map]
  rfl

/-- A forest in which nothing is wrong, with its links. -/
abbrev Forest.linked (f : Forest) : LinkedForest := ⟨f, f.links⟩

theorem Forest.linksFrom_under (hc : f[i]? = some c) (j k : Nat) :
    f.linked.linksFrom [i, j, k] = (c.linksBelow.filter (·.source == [j, k])).map (.under i) := by
  have hfilter := f.filter_links_under hc (p := (· == [i, j, k])) (by simp +contextual [NodePath.isUnder])
  simpa [LinkedForest.linksFrom] using hfilter

theorem Forest.linksWithin_under (hc : f[i]? = some c) (j : Nat) :
    f.linked.linksWithin [i, j] = (c.linksBelow.filter (·.source.isWithin [j])).map (.under i) := by
  have hunder : ∀ q : NodePath, q.isWithin [i, j] = true → NodePath.isUnder i q = true := by
    intro q hq
    match q with
    | [] | [_] => simp [NodePath.isWithin] at hq
    | k :: l :: rest =>
      obtain ⟨hk, _⟩ : i = k ∧ j = l := by simpa [NodePath.isWithin] using hq
      simp [NodePath.isUnder, hk]
  have hfilter := f.filter_links_under hc hunder
  simpa [LinkedForest.linksWithin, NodePath.isWithin] using hfilter

namespace Api

/-! ## The candidates of a class -/

theorem parameterOf?_alone (hc : f[i]? = some c) (p : ParameterNode) (j k : Nat) :
    parameterOf? f.linked p [i, j, k] = parameterOf? (Forest.linked [c]) p [0, j, k] := by
  have htarget : ∀ l : Link, f.site? (l.under i).target = Forest.site? [c] (l.under 0).target :=
    fun l => Forest.site?_alone hc l.target
  have hrequirement : ∀ l : Link, (l.under i).requirement = (l.under 0).requirement := fun _ => rfl
  rw [parameterOf?, parameterOf?, Forest.linksFrom_under hc, Forest.linksFrom_under rfl]
  simp only [List.filterMap_map, Function.comp_def, htarget, hrequirement]

theorem providersOf_alone (hc : f[i]? = some c) (j : Nat) :
    providersOf f.linked [i, j] = providersOf (Forest.linked [c]) [0, j] := by
  rw [providersOf, providersOf, Forest.linksWithin_under hc, Forest.linksWithin_under rfl,
    List.foldl_map, List.foldl_map]
  rfl

theorem operationOf?_alone (hc : f[i]? = some c) (m : MemberNode) (j : Nat) :
    operationOf? f.linked c m [i, j] = operationOf? (Forest.linked [c]) c m [0, j] := by
  simp only [operationOf?, List.cons_append, List.nil_append, parameterOf?_alone hc,
    providersOf_alone hc]

/-- The candidates of a forest are those of each class alone, class by class. -/
theorem candidates_eq_flatMap (f : Forest) :
    candidates f.linked = f.flatMap fun c => candidates (Forest.linked [c]) := by
  have hclass : ∀ x ∈ f.zipIdx, (x.1.methods.filterMap fun y =>
      operationOf? f.linked x.1 y.1 [x.2, y.2]) = candidates (Forest.linked [x.1]) := by
    intro x hx
    have hc : f[x.2]? = some x.1 := List.mk_mem_zipIdx_iff_getElem?.mp hx
    simp only [operationOf?_alone hc, candidates, List.zipIdx_singleton, List.flatMap_singleton]
  rw [candidates, List.flatMap_congr hclass]
  conv_rhs => rw [← List.zipIdx_map_fst 0 f, List.flatMap_map]

theorem candidates_perm (h : f.Perm g) : (candidates f.linked).Perm (candidates g.linked) := by
  rw [candidates_eq_flatMap, candidates_eq_flatMap]
  exact h.flatMap_right _

/-! ## Clashes -/

variable {all others : List Operation}

theorem published_perm (h : all.Perm others) : (published all).Perm (published others) := by
  have hcount : ∀ claim, (all.map Operation.claim).count claim =
      (others.map Operation.claim).count claim := (h.map _).count_eq
  rw [published_eq, published_eq]
  simp only [hcount]
  exact h.filter _

/-- The claims that are reported are the same ones, in another order. -/
theorem repeats_perm (h : all.Perm others) :
    ((repeats all).map (·.1.claim)).Perm ((repeats others).map (·.1.claim)) := by
  rw [List.perm_iff_count]
  intro claim
  rw [count_repeats, count_repeats, (h.map _).count_eq]

end Api

/-- Linking reports no clash. -/
theorem Forest.kind_of_mem_link {d : Diagnostic} (h : d ∈ f.link.2) :
    d.kind ≠ some .duplicateRoute := by
  induction f using Forest.link.induct with
  | case1 f hnil =>
    rw [link, if_pos hnil] at h
    obtain ⟨c, _, h⟩ := List.mem_flatMap.mp h
    obtain ⟨m, _, h⟩ := List.mem_flatMap.mp h
    obtain ⟨token, _, rfl⟩ := List.mem_map.mp h
    simp [Diagnostic.warning]
  | case2 f hne ih =>
    rw [link, if_neg hne] at h
    rcases List.mem_append.mp h with h | h
    · obtain ⟨r, hr, rfl⟩ := List.mem_map.mp h
      rcases mem_removals.mp hr with hr | ⟨_, _, _, _, _, _, _, hr⟩
      · obtain ⟨_, _, _, _, _, _, _, _, _, _, rfl⟩ := mem_dependencyRemovals.mp hr
        simp [unsatisfied, Diagnostic.error]
      · obtain ⟨_, _, _, _, _, rfl⟩ := mem_pathRemovals.mp hr
        simp [unroutable, Diagnostic.error, Diagnostic.withSuggestion]
    · exact ih h

namespace Api

theorem candidates_link_perm (h : f.Perm g) (hf : ∀ c ∈ f, c.hasMethod = true) :
    (candidates f.link.1).Perm (candidates g.link.1) := by
  have hlinked : ∀ f : Forest, f.link.1 = f.link.1.forest.linked := fun f =>
    congrArg (LinkedForest.mk f.link.1.forest) (Forest.link_links_eq f).1
  rw [hlinked f, hlinked g]
  exact candidates_perm (Forest.link_perm h hf)

/-- What linking and assembling report of clashes: an error for every repeated claim. -/
theorem countP_clashes (f : Forest) :
    (f.link.2 ++ (assemble f.link.1).diagnostics).countP (·.kind == some .duplicateRoute) =
      ((repeats (candidates f.link.1)).map (·.1.claim)).length := by
  have hlink : f.link.2.countP (·.kind == some .duplicateRoute) = 0 :=
    List.countP_eq_zero.mpr fun d hd => by simpa using Forest.kind_of_mem_link hd
  have hassemble : ∀ d ∈ clashDiagnostics (candidates f.link.1),
      (d.kind == some .duplicateRoute) = true := by
    intro d hd
    rw [clashDiagnostics_eq] at hd
    obtain ⟨r, _, rfl⟩ := List.mem_map.mp hd
    rfl
  rw [List.countP_append, hlink, Nat.zero_add, assemble, List.countP_eq_length.mpr hassemble,
    clashDiagnostics_eq, List.length_map, List.length_map]

/-- Linking and assembling a forest in another order publishes the same operations, in some order, and
reports as many clashes. -/
theorem assemble_perm (h : f.Perm g) (hf : ∀ c ∈ f, c.hasMethod = true) :
    (assemble f.link.1).operations.Perm (assemble g.link.1).operations ∧
      (f.link.2 ++ (assemble f.link.1).diagnostics).countP (·.kind == some .duplicateRoute) =
        (g.link.2 ++ (assemble g.link.1).diagnostics).countP (·.kind == some .duplicateRoute) := by
  have hcandidates := candidates_link_perm h hf
  refine ⟨published_perm hcandidates, ?_⟩
  rw [countP_clashes, countP_clashes]
  exact (repeats_perm hcandidates).length_eq

/-- Two classes with one route, the first of which has to stand beside a provider, and the provider. -/
def rivals : Forest :=
  let span : Span := ⟨"m.ts", .zero, .zero⟩
  let tied : Annotation.Definition :=
    { name := "Tied", targets := [.classDeclaration], dependencies := [⟨.provider "db", .peer⟩] }
  let database : Annotation.Definition :=
    { name := "Database", targets := [.classDeclaration], provides := ["db"] }
  let get (name path : String) : MemberNode :=
    ⟨.method (.primitive .void) none,
      ⟨name, span, [⟨ Annotation.verbDefinition "Get" .get, [], span⟩], [("path", .string path)]⟩, []⟩
  [⟨⟨"A", span, [⟨tied, [], span⟩], []⟩, "m.ts#A", [get "a" "/x"]⟩,
    ⟨⟨"B", span, [], []⟩, "m.ts#B", [get "b" "/x"]⟩,
    ⟨⟨"C", span, [⟨database, [], span⟩], []⟩, "m.ts#C", [get "c" "/y"]⟩]

theorem assemble_perm_rivals : rivals.Perm rivals.reverse ∧ (∀ c ∈ rivals, c.hasMethod = true) ∧
    (assemble rivals.link.1).operations.map (·.handler.method) = ["c"] ∧
    (assemble rivals.link.1).operations.Perm (assemble (Forest.link rivals.reverse).1).operations ∧
      (rivals.link.2 ++ (assemble rivals.link.1).diagnostics).countP (·.kind == some .duplicateRoute) =
        ((Forest.link rivals.reverse).2 ++ (assemble (Forest.link rivals.reverse).1).diagnostics).countP
          (·.kind == some .duplicateRoute) := by
  have hperm : rivals.Perm rivals.reverse := (List.reverse_perm rivals).symm
  have hmethods : ∀ c ∈ rivals, c.hasMethod = true := by decide
  have hnil : rivals.removals = [] := rfl
  have hlink : rivals.link = (⟨rivals, rivals.links⟩, rivals.unusedTokenWarnings) := by
    rw [Forest.link, if_pos hnil]
  refine ⟨hperm, hmethods, ?_, assemble_perm hperm hmethods⟩
  rw [hlink]
  rfl

end Api

end AnnotatedApi
