import AnnotatedApi.Extraction
import AnnotatedApi.Proofs.Handlers.Walk
import AnnotatedApi.Proofs.Linking.LargestSubforest

/-!
# No handler is lost in silence

Each of the three steps of an extraction accounts for the handlers that it drops: the walk, linking,
and the assembly of operations. So does the extraction as a whole.
-/

namespace AnnotatedApi

set_option autoImplicit false

/-! ## Linking -/

namespace WithoutMethods

variable {ns ms : List MemberNode}

theorem length_filter_le (h : WithoutMethods ns ms) :
    (ns.filter MemberNode.isMethod).length ≤ (ms.filter MemberNode.isMethod).length :=
  (h.sublist.filter _).length_le

theorem eq_of_length_filter (h : WithoutMethods ns ms)
    (hl : (ms.filter MemberNode.isMethod).length ≤ (ns.filter MemberNode.isMethod).length) : ns = ms := by
  induction h with
  | nil => rfl
  | keep m _ ih =>
    rw [ih]
    by_cases hm : m.isMethod = true
    · rw [List.filter_cons_of_pos hm, List.filter_cons_of_pos hm] at hl
      simpa using hl
    · rwa [List.filter_cons_of_neg hm, List.filter_cons_of_neg hm] at hl
  | drop hm h _ =>
    have hle := h.length_filter_le
    rw [List.filter_cons_of_pos hm, List.length_cons] at hl
    omega

end WithoutMethods

namespace SubForest

variable {g f : Forest}

theorem handled_sublist (h : SubForest g f) :
    (g.flatMap ClassNode.handled).Sublist (f.flatMap ClassNode.handled) := by
  induction h with
  | nil => exact .slnil
  | keep c hm _ ih =>
    rw [List.flatMap_cons, List.flatMap_cons]
    exact ((hm.sublist.filter _).map _).append ih
  | drop c _ ih =>
    rw [List.flatMap_cons]
    exact ih.trans (List.sublist_append_right _ _)

theorem handlers_sublist (h : SubForest g f) :
    (g.flatMap ClassNode.handlers).Sublist (f.flatMap ClassNode.handlers) := by
  have hhandlers : ∀ f : Forest, f.flatMap ClassNode.handlers =
      (f.flatMap ClassNode.handled).map fun y => (y.1, y.2.site.span) := by
    intro f
    simp only [List.map_flatMap, ClassNode.handled, List.map_map]
    rfl
  rw [hhandlers, hhandlers]
  exact h.handled_sublist.map _

theorem exists_of_mem {c : ClassNode} (h : SubForest g f) (hc : c ∈ g) :
    ∃ c' ∈ f, c.members.Sublist c'.members := by
  induction h with
  | nil => cases hc
  | keep c' hm _ ih =>
    rcases List.mem_cons.mp hc with rfl | hc
    · exact ⟨c', List.mem_cons_self .., hm.sublist⟩
    · obtain ⟨c'', hc'', hsub⟩ := ih hc
      exact ⟨c'', List.mem_cons_of_mem _ hc'', hsub⟩
  | drop _ _ ih =>
    obtain ⟨c', hc', hsub⟩ := ih hc
    exact ⟨c', List.mem_cons_of_mem _ hc', hsub⟩

theorem eq_of_handlers (h : SubForest g f) (hf : ∀ c ∈ f, c.hasMethod = true)
    (heq : g.flatMap ClassNode.handlers = f.flatMap ClassNode.handlers) : g = f := by
  have hlength := congrArg List.length heq
  clear heq
  induction h with
  | nil => rfl
  | @keep c ns g f hm h ih =>
    have hle := h.handlers_sublist.length_le
    have hle' := hm.length_filter_le
    have hns : ({ c with members := ns } : ClassNode).handlers.length =
        (ns.filter MemberNode.isMethod).length := List.length_map _
    have hms : c.handlers.length = (c.members.filter MemberNode.isMethod).length := List.length_map _
    rw [List.flatMap_cons, List.flatMap_cons, List.length_append, List.length_append, hns, hms] at hlength
    rw [hm.eq_of_length_filter (by omega)]
    rw [ih (fun c hc => hf c (List.mem_cons_of_mem _ hc)) (by omega)]
  | @drop c g f h _ =>
    have hle := h.handlers_sublist.length_le
    have hmethod : ∃ m ∈ c.members, m.isMethod = true :=
      List.any_eq_true.mp (hf c (List.mem_cons_self ..))
    obtain ⟨m, hm, hk⟩ := hmethod
    have hpos : 0 < (c.members.filter MemberNode.isMethod).length :=
      List.length_pos_of_mem (List.mem_filter.mpr ⟨hm, hk⟩)
    rw [List.flatMap_cons, List.length_append, ClassNode.handlers, List.length_map] at hlength
    omega

end SubForest

namespace Forest

theorem isError_of_mem_removals {f : Forest} {r : Removal} (h : r ∈ f.removals) :
    r.diagnostic.isError = true := by
  rcases mem_removals.mp h with h | ⟨_, _, _, _, _, _, _, h⟩
  · obtain ⟨_, _, _, _, _, _, _, _, _, _, rfl⟩ := mem_dependencyRemovals.mp h
    rfl
  · obtain ⟨_, _, _, _, _, rfl⟩ := mem_pathRemovals.mp h
    rfl

theorem anyError_unusedTokenWarnings (f : Forest) : anyError f.unusedTokenWarnings = false := by
  refine List.any_eq_false.mpr fun d hd => ?_
  obtain ⟨c, _, hd⟩ := List.mem_flatMap.mp hd
  obtain ⟨m, _, hd⟩ := List.mem_flatMap.mp hd
  obtain ⟨token, _, rfl⟩ := List.mem_map.mp hd
  simp [Diagnostic.warning, Diagnostic.isError]

theorem link_accounted (f : Forest) (hf : ∀ c ∈ f, c.hasMethod = true) :
    Accounted (f.flatMap ClassNode.handlers) (f.link.1.forest.flatMap ClassNode.handlers) f.link.2 := by
  by_cases h : f.removals = []
  · rw [link, if_pos h]
    exact .refl _ (anyError_unusedTokenWarnings f)
  · have hsub := (link_spec f hf).1
    refine .of_ne hsub.handlers_sublist (fun heq => ?_) ?_
    -- With all its handlers the forest would be as large as before, but every pass makes it smaller.
    · have hlink : f.link.1.forest = (f.prune f.removalPaths).link.1.forest := by
        rw [link, if_neg h]
        rfl
      have hle := (link_spec (f.prune f.removalPaths) fun c hc => hasMethod_of_mem_prune hc).1.size_le
      have hlt := size_prune_removals_lt h
      rw [← hlink, hsub.eq_of_handlers hf heq] at hle
      exact absurd hlt (Nat.not_lt.mpr hle)
    · obtain ⟨r, hr⟩ := List.exists_mem_of_ne_nil _ h
      rw [link, if_neg h]
      show anyError (f.removals.map (·.diagnostic) ++ _) = true
      rw [anyError_append, anyError_of_mem (List.mem_map_of_mem hr) (isError_of_mem_removals hr),
        Bool.true_or]

end Forest

/-! ## Assembly -/

namespace Api

/-- The handler of an operation with its place. -/
def Operation.source (o : Operation) : Handler × Span := (o.handler, o.location)

theorem source_operationOf? {l : LinkedForest} {c : ClassNode} {m : MemberNode} {path : NodePath}
    (hm : m.isMethod = true) (hv : m.site.verb?.isSome = true) :
    ∃ o, operationOf? l c m path = some o ∧
      o.source = (⟨c.site.name, c.qualifiedName, m.site.name⟩, m.site.span) := by
  obtain ⟨verb, hverb⟩ := Option.isSome_iff_exists.mp hv
  obtain ⟨kind, site, parameters⟩ := m
  cases kind with
  | constructor => cases hm
  | method returnType doc =>
    simp only [operationOf?, hverb, Option.map_some]
    exact ⟨_, rfl, rfl⟩

theorem source_filterMap {β : Type} {l : List β} {g : β → Option Operation}
    {source : β → Handler × Span} (h : ∀ b ∈ l, ∃ o, g b = some o ∧ o.source = source b) :
    (l.filterMap g).map Operation.source = l.map source := by
  induction l with
  | nil => rfl
  | cons b l ih =>
    obtain ⟨o, ho, hs⟩ := h b (List.mem_cons_self ..)
    rw [List.filterMap_cons_some ho, List.map_cons, List.map_cons, hs,
      ih fun b' hb' => h b' (List.mem_cons_of_mem _ hb')]

theorem map_fst_methods (c : ClassNode) :
    c.methods.map Prod.fst = c.members.filter MemberNode.isMethod := by
  have hfilter : (c.members.zipIdx.map Prod.fst).filter MemberNode.isMethod =
      c.methods.map Prod.fst := List.filter_map
  rw [← hfilter, List.zipIdx_map_fst]

/-- Every method of a forest in which all methods have a verb is a candidate. -/
theorem source_candidates (l : LinkedForest) (h : ∀ c ∈ l.forest, c.Routed) :
    (candidates l).map Operation.source = l.forest.flatMap ClassNode.handlers := by
  have hclass : ∀ p ∈ l.forest.zipIdx,
      (p.1.methods.filterMap fun q => operationOf? l p.1 q.1 [p.2, q.2]).map Operation.source =
        p.1.handlers := by
    rintro ⟨c, i⟩ hc
    have hsource : ∀ p ∈ c.methods, ∃ o, operationOf? l c p.1 [i, p.2] = some o ∧
        o.source = (⟨c.site.name, c.qualifiedName, p.1.site.name⟩, p.1.site.span) := by
      rintro ⟨m, j⟩ hm
      obtain ⟨hmem, hk⟩ := List.mem_filter.mp hm
      have hverb := (h c (List.fst_mem_of_mem_zipIdx hc)).verb m (List.fst_mem_of_mem_zipIdx hmem) hk
      exact source_operationOf? hk hverb
    rw [source_filterMap hsource, ClassNode.handlers, ← map_fst_methods, List.map_map]
    rfl
  calc (candidates l).map Operation.source
      = l.forest.zipIdx.flatMap fun p => p.1.handlers := by
        rw [candidates, List.map_flatMap]
        exact List.flatMap_congr hclass
    _ = (l.forest.zipIdx.map Prod.fst).flatMap ClassNode.handlers := by rw [List.flatMap_map]
    _ = l.forest.flatMap ClassNode.handlers := by rw [List.zipIdx_map_fst]

theorem exists_of_mem_clashes {all : List Operation} {clash : Clash} (h : clash ∈ clashes all) :
    ∃ o first, all[clash.again]? = some o ∧ all[clash.first]? = some first := by
  obtain ⟨⟨o, i⟩, hmem, hclash⟩ := List.mem_filterMap.mp h
  have ho : all[i]? = some o := List.mk_mem_zipIdx_iff_getElem?.mp hmem
  dsimp only at hclash
  split at hclash
  · rename_i first hfirst
    split at hclash
    · cases hclash
      have hlt : first < all.length := (List.findIdx?_eq_some_iff_getElem.mp hfirst).1
      exact ⟨o, all[first], ho, List.getElem?_eq_getElem hlt⟩
    · cases hclash
  · cases hclash

/-- A candidate is left out just if there is a clash, and every clash is reported. -/
theorem published_accounted (all : List Operation) :
    Accounted all (published all) (clashDiagnostics all) := by
  have hall : all.zipIdx.map Prod.fst = all := List.zipIdx_map_fst 0 all
  by_cases h : clashes all = []
  · have hpublished : published all = all := by
      simp only [published, h, List.any_nil, Bool.not_false, List.filter_true]
      exact hall
    rw [hpublished]
    exact .refl _ (by simp [clashDiagnostics, h])
  · obtain ⟨clash, hclash⟩ := List.exists_mem_of_ne_nil _ h
    obtain ⟨o, first, ho, hfirst⟩ := exists_of_mem_clashes hclash
    refine .of_ne ?_ (fun heq => ?_) ?_
    -- The later candidate of the clash is among those that are left out.
    · rw [published]
      conv_rhs => rw [← hall]
      exact List.filter_sublist.map Prod.fst
    · have hlength := congrArg List.length heq
      rw [published, List.length_map, ← List.length_zipIdx (l := all),
        List.length_filter_eq_length_iff] at hlength
      have hkept := hlength (o, clash.again) (List.mk_mem_zipIdx_iff_getElem?.mpr ho)
      rw [Bool.not_eq_true', List.any_eq_false] at hkept
      exact hkept clash hclash (by simp)
    · refine anyError_of_mem (d := clashDiagnostic o first) ?_ rfl
      exact List.mem_filterMap.mpr ⟨clash, hclash, by rw [ho, hfirst]⟩

end Api

/-! ## Extraction -/

namespace Extractor

variable {R : Resolver → Prop} {A : Abort → Prop}

/-- A run keeps what the resolution of types keeps, and if it comes to an end, it has all the route
methods of its classes unless there is an error. -/
theorem run_keeps (e : Extractor) {depth : Nat} (hres : Walk.ResolvesWithin depth R A)
    (hR : R e.resolver) :
    R (e.run depth).2.resolver ∧ match (e.run depth).1 with
      | .ok x => Accounted (e.classes.flatMap (ClassDecl.handlers e.catalog))
          (x.operations.map Api.Operation.source) x.diagnostics
      | .error abort => A abort := by
  have hwalk := @Walk.forest_keeps e.catalog _ _ _ hres e.classes
  unfold run walk
  cases h : Walk.forest e.catalog depth e.classes e.resolver with
  | error abort resolver => exact hwalk.error hR h
  | ok result resolver =>
    obtain ⟨f, ds⟩ := result
    obtain ⟨hkeep, haccounted, hrouted, _⟩ := hwalk.ok hR h
    have hmethod : ∀ c ∈ f, c.hasMethod = true := fun c hc => (hrouted c hc).hasMethod
    have hlinked : ∀ c ∈ f.link.1.forest, c.Routed := by
      obtain ⟨hsub, hconsistent, _⟩ := Forest.link_spec f hmethod
      intro c hc
      obtain ⟨c', hc', hm⟩ := hsub.exists_of_mem hc
      exact ⟨hconsistent.hasMethod c hc, fun m hmem => (hrouted c' hc').verb m (hm.subset hmem)⟩
    have hlink := Forest.link_accounted f hmethod
    have hassembled := (Api.published_accounted (Api.candidates f.link.1)).map Api.Operation.source
    rw [Api.source_candidates f.link.1 hlinked] at hassembled
    exact ⟨hkeep, (haccounted.trans hlink).trans hassembled⟩

theorem run_classes (e : Extractor) (depth : Nat) : (e.run depth).2.classes = e.classes := by
  unfold run walk
  cases Walk.forest e.catalog depth e.classes e.resolver <;> rfl

/-- What is known of the trees that the walk makes is known of those that are left, if it is known of
what is left of a tree. -/
theorem run_nodes (e : Extractor) {depth : Nat} {P : ClassNode → Prop}
    (hwalk : Keeps R (Walk.forest e.catalog depth e.classes) (fun (f, _) => ∀ c ∈ f, P c) A)
    (hP : ∀ c c' : ClassNode, c.members ⊆ c'.members → P c' → P c) (hR : R e.resolver) :
    R (e.run depth).2.resolver ∧ ∀ x, (e.run depth).1 = .ok x →
      x.operations = Api.published (Api.candidates x.linked) ∧ ∀ c ∈ x.linked.forest, P c := by
  unfold run walk
  cases h : Walk.forest e.catalog depth e.classes e.resolver with
  | error abort resolver => exact ⟨(hwalk.error hR h).1, by simp⟩
  | ok result resolver =>
    obtain ⟨hkeep, hf⟩ := hwalk.ok hR h
    refine ⟨hkeep, fun x hx => ?_⟩
    obtain rfl := Except.ok.inj hx
    refine ⟨rfl, fun c hc => ?_⟩
    obtain ⟨c', hc', hm⟩ := result.1.link_subForest.exists_of_mem hc
    exact hP c c' hm.subset (hf c' hc')

theorem resolvesWithin_any (depth : Nat) :
    Walk.ResolvesWithin depth (fun _ => True) fun _ => True := by
  intro site t resolver _
  cases Walk.resolveAt depth site t resolver <;> exact ⟨trivial, trivial⟩

/-- The handlers of a completed run are route methods of its classes, in order, each at most once, and
they are all of them just if no error is reported. -/
theorem run_handlers (e : Extractor) (depth : Nat) (x : Extraction)
    (h : (e.run depth).1 = .ok x) :
    (x.operations.map Api.Operation.source).Sublist
        (e.classes.flatMap (ClassDecl.handlers e.catalog)) ∧
      (x.operations.map Api.Operation.source = e.classes.flatMap (ClassDecl.handlers e.catalog) ↔
        x.isSuccess = true) := by
  have hrun := (e.run_keeps (resolvesWithin_any depth) trivial).2
  rw [h] at hrun
  refine ⟨hrun.sublist, hrun.complete.trans ?_⟩
  rw [Extraction.isSuccess, anyError, Bool.not_eq_true']

/-- A class with one route method and nothing wrong. -/
def greeting : Extractor :=
  let span : Span := ⟨"m.ts", .zero, .zero⟩
  .fresh .standard
    [⟨"C", "m.ts#C", [], none, [⟨"hello", [⟨"Get", [], span⟩], [], none, none, span⟩], span⟩] []
    .default

theorem run_handlers_greeting : ∃ x, (greeting.run 1).1 = .ok x ∧
    (x.operations.map Api.Operation.source).Sublist
        (greeting.classes.flatMap (ClassDecl.handlers greeting.catalog)) ∧
      (x.operations.map Api.Operation.source =
        greeting.classes.flatMap (ClassDecl.handlers greeting.catalog) ↔ x.isSuccess = true) := by
  obtain ⟨w, e, hw⟩ : ∃ w e, greeting.walk 1 = (.ok w, e) := ⟨_, _, rfl⟩
  have hrun : ∃ x, (greeting.run 1).1 = .ok x := by
    simp only [run, hw]
    exact ⟨_, rfl⟩
  obtain ⟨x, hx⟩ := hrun
  exact ⟨x, hx, run_handlers greeting 1 x hx⟩

end Extractor

end AnnotatedApi
