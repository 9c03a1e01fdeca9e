import AnnotatedApi.Proofs.Api.Dispatch
import AnnotatedApi.Proofs.Extraction.Handlers

/-!
# The signatures of what is published

The walk gives a method a node only if each of its parameters has one, bound by exactly one
annotation. Linking takes away methods but no parameters, and assembly makes a parameter of every
node that is bound. So what is published has the whole signature of its method.
-/

namespace AnnotatedApi

set_option autoImplicit false

open Annotation (Catalog)

/-! ## Parameters -/

namespace Api

/-- Whether a parameter of an operation is the declared one at a position: exactly one of the
annotations there that are recognized binds it, and gives its kind and accepts its type. -/
structure Parameter.Renders (q : Parameter) (catalog : Catalog) (p : ParameterDecl) (position : Nat) :
    Prop where
  position : q.position = position
  declaredName : q.declaredName = p.name
  binding : ∃ use d, p.annotations.filter (Walk.isBinding catalog) = [use] ∧
    catalog.lookup use.name = some d ∧ d.binding? = some q.kind ∧
    permits d.restrictions q.type = true
  required : q.required = true ↔
    ¬ (p.optional = true ∨ p.default.isSome = true ∨ ∃ t, p.type = some t ∧ t.MayBeUndefined)

/-- Whether an operation is that of a method of a class, with all its parameters in order. -/
structure Operation.Renders (o : Operation) (catalog : Catalog) (c : ClassDecl) (m : MethodDecl) :
    Prop where
  handler : o.handler = ⟨c.name, c.qualifiedName, m.name⟩
  location : o.location = m.span
  parameters : List.Forall₂ (fun x q => q.Renders catalog x.1 x.2) m.parameters.zipIdx o.parameters
  body : o.parameters.countP (·.kind == .body) ≤ 1

/-! ## Assembly -/

/-- Whether a parameter has what a bound node says. -/
structure Parameter.Carries (q : Parameter) (n : ParameterNode) : Prop where
  position : q.position = n.position
  declaredName : q.declaredName = n.site.name
  kind : ∃ a, n.site.binding? = some (q.kind, a)
  type : q.type = n.type
  required : q.required = n.required

theorem carries_of_parameterOf? {l : LinkedForest} {n : ParameterNode} {path : NodePath} {q : Parameter}
    (h : parameterOf? l n path = some q) : q.Carries n := by
  obtain ⟨⟨kind, a⟩, hbinding, rfl⟩ := Option.map_eq_some_iff.mp h
  exact ⟨rfl, rfl, ⟨a, hbinding⟩, rfl, rfl⟩

theorem exists_parameterOf? (l : LinkedForest) {n : ParameterNode}
    (h : n.site.binding?.isSome = true) (path : NodePath) :
    ∃ q, parameterOf? l n path = some q ∧ q.Carries n := by
  obtain ⟨q, hq⟩ := Option.isSome_iff_exists.mp ((Option.isSome_map ..).trans h)
  exact ⟨q, hq, carries_of_parameterOf? hq⟩

/-- Every bound node becomes a parameter, in its place. -/
theorem forall₂_parameterOf? (l : LinkedForest) (path : NodePath) {nodes : List ParameterNode}
    (h : ∀ n ∈ nodes, n.site.binding?.isSome = true) (first : Nat) :
    List.Forall₂ (fun n q => q.Carries n) nodes
      ((nodes.zipIdx first).filterMap fun x => parameterOf? l x.1 (path ++ [x.2])) := by
  induction nodes generalizing first with
  | nil => exact .nil
  | cons n nodes ih =>
    obtain ⟨hn, hnodes⟩ := List.forall_mem_cons.mp h
    obtain ⟨q, hq, hcarries⟩ := exists_parameterOf? l hn (path ++ [first])
    simp only [List.zipIdx_cons, List.filterMap_cons, hq]
    exact .cons hcarries (ih hnodes (first + 1))

/-- Whether an operation is that of a method of the forest, given with its handler. -/
structure Operation.Exposes (o : Operation) (y : Handler × MemberNode) : Prop where
  handler : o.handler = y.1
  location : o.location = y.2.site.span
  parameters : (∀ n ∈ y.2.parameters, n.site.binding?.isSome = true) →
    List.Forall₂ (fun n q => q.Carries n) y.2.parameters o.parameters

theorem exposes_of_operationOf? {l : LinkedForest} {c : ClassNode} {m : MemberNode} {path : NodePath}
    {o : Operation} (h : operationOf? l c m path = some o) :
    o.Exposes (⟨c.site.name, c.qualifiedName, m.site.name⟩, m) := by
  obtain ⟨kind, site, nodes⟩ := m
  cases kind with
  | constructor => cases h
  | method returnType doc =>
    obtain ⟨verb, _, rfl⟩ := Option.map_eq_some_iff.mp h
    exact ⟨rfl, rfl, fun hbound => forall₂_parameterOf? l path hbound 0⟩

/-- Every candidate is that of a method of the forest. -/
theorem stems_candidates (l : LinkedForest) :
    StemsFrom (fun y o => o.Exposes y) (l.forest.flatMap ClassNode.handled) (candidates l) := by
  rw [candidates, ← List.zipIdx_map_fst 0 l.forest, List.flatMap_map, List.zipIdx_map_fst]
  refine StemsFrom.flatMap (List.forall₂_same.mpr fun x _ => ?_)
  rw [ClassNode.handled, ← map_fst_methods, List.map_map]
  exact .map (.filterMap fun _ _ _ ho => exposes_of_operationOf? ho)

/-- The parameters of what is published are those of the forest. -/
theorem exists_node_of_mem_published {l : LinkedForest} {o : Operation}
    (ho : o ∈ published (candidates l)) {q : Parameter} (hq : q ∈ o.parameters) :
    ∃ c ∈ l.forest, ∃ m ∈ c.members, ∃ n ∈ m.parameters, q.Carries n := by
  obtain ⟨c, hc, ⟨kind, site, nodes⟩, j, path, hm, ho⟩ := exists_method_of_mem_published ho
  refine ⟨c, hc, _, List.fst_mem_of_mem_zipIdx (List.mem_filter.mp hm).1, ?_⟩
  cases kind with
  | constructor => cases ho
  | method returnType doc =>
    obtain ⟨verb, _, rfl⟩ := Option.map_eq_some_iff.mp ho
    obtain ⟨⟨n, k⟩, hn, hq⟩ := List.mem_filterMap.mp hq
    exact ⟨n, List.fst_mem_of_mem_zipIdx hn, carries_of_parameterOf? hq⟩

/-! ## Runs -/

theorem renders_of_binds {catalog : Catalog} {p : ParameterDecl} {position : Nat} {n : ParameterNode}
    {q : Parameter} (h : Walk.Binds catalog p position n) (hq : q.Carries n) :
    q.Renders catalog p position := by
  obtain ⟨use, d, kind, a, huse, hlookup, hkind, hbinding, hpermits⟩ := h.binding
  obtain ⟨b, hkindOf⟩ := hq.kind
  obtain ⟨rfl, rfl⟩ : kind = q.kind ∧ a = b := by simpa [hbinding] using hkindOf
  refine ⟨hq.position.trans h.position, hq.declaredName.trans h.name,
    ⟨use, d, huse, hlookup, hkind, hq.type ▸ hpermits⟩, ?_⟩
  rw [hq.required, h.required, ← Walk.mayBeUndefined_iff]
  simp [and_assoc]

theorem renders_of_standsFor {catalog : Catalog} {c : ClassDecl} {m : MethodDecl}
    {y : Handler × MemberNode} {o : Operation} (h : Walk.StandsFor catalog (c, m) y)
    (ho : o.Exposes y) : o.Renders catalog c m := by
  have hbound : ∀ n ∈ y.2.parameters, n.site.binding?.isSome = true := by
    intro n hn
    obtain ⟨x, _, hx⟩ := exists_of_mem_right h.signed.parameters hn
    obtain ⟨_, _, kind, a, _, _, _, hbinding, _⟩ := hx.binding
    rw [hbinding, Option.isSome_some]
  have hcarries := ho.parameters hbound
  refine ⟨ho.handler.trans h.handler, ho.location.trans h.span, ?_, ?_⟩
  · exact (forall₂_comp h.signed.parameters hcarries).imp fun x q ⟨n, hn, hq⟩ => renders_of_binds hn hq
  · have hbody : y.2.parameters.countP Walk.bindsBody = o.parameters.countP (·.kind == .body) := by
      refine countP_of_forall₂ (hcarries.imp fun n q hq => ?_)
      obtain ⟨a, ha⟩ := hq.kind
      rw [Walk.bindsBody, ha, Option.any_some]
    rw [← hbody]
    exact h.signed.body

end Api

namespace Extractor

open Api

/-- Each operation of a completed run is that of a method of one of the classes, of another one each
and in order, and has its whole signature. -/
theorem run_signatures (e : Extractor) (depth : Nat) (x : Extraction)
    (h : (e.run depth).1 = .ok x) :
    StemsFrom (fun y o => o.Renders e.catalog y.1 y.2)
      (e.classes.flatMap fun c => c.methods.map (c, ·)) x.operations := by
  have hwalk := @Walk.forest_keeps e.catalog _ _ _ (resolvesWithin_any depth) e.classes
  unfold run walk at h
  cases hforest : Walk.forest e.catalog depth e.classes e.resolver with
  | error abort resolver => simp [hforest] at h
  | ok result resolver =>
    obtain ⟨f, ds⟩ := result
    obtain ⟨_, _, hrouted, hstems⟩ := hwalk.ok trivial hforest
    obtain rfl : _ = x := by simpa [hforest] using h
    have hsub := (Forest.link_spec f fun c hc => (hrouted c hc).hasMethod).1
    have hcandidates := (hstems.sublist hsub.handled_sublist).comp (stems_candidates f.link.1)
    rw [assemble, published_eq]
    refine (hcandidates.sublist List.filter_sublist).imp fun y o ⟨z, hz, ho⟩ => ?_
    exact renders_of_standsFor hz ho

/-- A class with a method that binds three parameters in three ways. -/
def storing : Extractor :=
  let span : Span := ⟨"m.ts", .zero, .zero⟩
  let parameter (name binding : String) (type : TypeExpr) : ParameterDecl :=
    ⟨name, [⟨"Traced", [], span⟩, ⟨binding, [], span⟩], some type, false, none, none, span⟩
  .fresh .standard
    [⟨"C", "m.ts#C", [], none,
      [⟨"store", [⟨"Put", [.literal (.string "/items/\x7bid\x7d")], span⟩],
        [parameter "id" "Path" (.keyword "string"),
          parameter "force" "Query" (.union [.keyword "boolean", .keyword "undefined"]),
          parameter "item" "Body" (.array (.keyword "number"))], none, none, span⟩], span⟩] []
    .default

theorem run_signatures_storing : ∃ x, (storing.run 3).1 = .ok x ∧
    x.operations.map (·.parameters.map fun q => (q.kind, q.required)) =
      [[(.path, true), (.query, false), (.body, true)]] ∧
    StemsFrom (fun y o => o.Renders storing.catalog y.1 y.2)
      (storing.classes.flatMap fun c => c.methods.map (c, ·)) x.operations := by
  have hwalk : ∃ w e, storing.walk 3 = (.ok w, e) ∧ w.1.removals = [] ∧
      (assemble ⟨w.1, w.1.links⟩).operations.map (·.parameters.map fun q => (q.kind, q.required)) =
        [[(.path, true), (.query, false), (.body, true)]] := ⟨_, _, rfl, rfl, rfl⟩
  obtain ⟨w, e, hw, hnil, hkinds⟩ := hwalk
  have hrun : ∃ x, (storing.run 3).1 = .ok x ∧
      x.operations = (assemble ⟨w.1, w.1.links⟩).operations := by
    simp only [run, hw]
    rw [Forest.link, if_pos hnil]
    exact ⟨_, rfl, rfl⟩
  obtain ⟨x, hx, hoperations⟩ := hrun
  exact ⟨x, hx, hoperations ▸ hkinds, run_signatures storing 3 x hx⟩

end Extractor

end AnnotatedApi
