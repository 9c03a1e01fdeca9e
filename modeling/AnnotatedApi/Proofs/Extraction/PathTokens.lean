import AnnotatedApi.Extraction
import AnnotatedApi.Proofs.Api.Dispatch
import AnnotatedApi.Proofs.Linking.Links

/-!
# Path parameters and the tokens of routes

A path parameter stands for a token of the route. A method with one that the route does not have is
removed; a token that has none is only warned of. Both checks are made of the forest that is left in
the end, and the operations are built from that forest. So the path parameters of what is published
are tokens, and all the tokens if nothing was reported.
-/

namespace AnnotatedApi

set_option autoImplicit false

/-! ## Methods -/

namespace MemberNode

/-- Whether a parameter bound to the path has the name. -/
def BindsToken (m : MemberNode) (name : String) : Prop :=
  ∃ p ∈ m.parameters, (Forest.pathBinding? p).isSome = true ∧ p.site.bindingName = name

end MemberNode

namespace ClassNode

theorem mem_methods {c : ClassNode} {m : MemberNode} {j : Nat} :
    (m, j) ∈ c.methods ↔ c.members[j]? = some m ∧ m.isMethod = true := by
  rw [methods, List.mem_filter, List.mk_mem_zipIdx_iff_getElem?]

end ClassNode

namespace Forest

/-! ## The two checks -/

/-- With nothing to remove, every path parameter is a token of its route. -/
theorem mem_tokens_of_bindsToken {f : Forest} (hf : f.removals = []) {c : ClassNode} (hc : c ∈ f)
    {m : MemberNode} {j : Nat} (hm : (m, j) ∈ c.methods) {name : String} (h : m.BindsToken name) :
    name ∈ Route.tokens (c.routeOf m) := by
  obtain ⟨p, hp, hpath, rfl⟩ := h
  obtain ⟨i, hi⟩ := List.mem_iff_getElem?.mp hc
  obtain ⟨hj, hmethod⟩ := ClassNode.mem_methods.mp hm
  obtain ⟨a, ha⟩ := Option.isSome_iff_exists.mp hpath
  by_contra htoken
  have hremoval : unroutable c m [i, j] p a ∈ f.removals :=
    mem_removals.mpr (.inr ⟨i, c, hi, j, m, hj, hmethod,
      mem_pathRemovals.mpr ⟨p, hp, a, ha, htoken, rfl⟩⟩)
  rw [hf] at hremoval
  cases hremoval

/-- Without a warning, every token has a path parameter. -/
theorem bindsToken_of_mem_tokens {f : Forest} (hf : f.unusedTokenWarnings = []) {c : ClassNode}
    (hc : c ∈ f) {m : MemberNode} {j : Nat} (hm : (m, j) ∈ c.methods) {token : String}
    (h : token ∈ Route.tokens (c.routeOf m)) : m.BindsToken token := by
  have hmethod := List.flatMap_eq_nil_iff.mp (List.flatMap_eq_nil_iff.mp hf c hc) (m, j) hm
  have hunused := List.filter_eq_nil_iff.mp (List.map_eq_nil_iff.mp hmethod) token h
  simp only [Bool.not_eq_true', Bool.not_eq_false, List.contains_iff_mem, List.mem_map,
    List.mem_filter] at hunused
  obtain ⟨p, ⟨hp, hpath⟩, hname⟩ := hunused
  exact ⟨p, hp, hpath, hname⟩

/-- The last pass warns of the tokens of the forest that is left. -/
theorem unusedTokenWarnings_link_suffix (f : Forest) :
    f.link.1.forest.unusedTokenWarnings <:+ f.link.2 := by
  induction f using Forest.link.induct with
  | case1 f h =>
    rw [link, if_pos h]
  | case2 f h ih =>
    rw [link, if_neg h]
    exact ih.trans (List.suffix_append _ _)

end Forest

/-! ## Operations -/

namespace Api

/-- Whether a path parameter has the name. -/
def Operation.HasToken (o : Operation) (name : String) : Prop :=
  ∃ q ∈ o.parameters, q.kind = .path ∧ q.name = name

theorem parameterOf?_path {l : LinkedForest} {p : ParameterNode} {path : NodePath} {name : String} :
    (∃ q, parameterOf? l p path = some q ∧ q.kind = .path ∧ q.name = name) ↔
      (Forest.pathBinding? p).isSome = true ∧ p.site.bindingName = name := by
  unfold parameterOf? Forest.pathBinding?
  cases hbinding : p.site.binding? with
  | none => simp
  | some binding =>
    obtain ⟨kind, a⟩ := binding
    cases kind <;> simp

/-- An operation has the path parameters of its method. -/
theorem hasToken_iff {l : LinkedForest} {c : ClassNode} {m : MemberNode} {path : NodePath}
    {o : Operation} (h : operationOf? l c m path = some o) (name : String) :
    o.route = c.routeOf m ∧ (o.HasToken name ↔ m.BindsToken name) := by
  obtain ⟨kind, site, nodes⟩ := m
  cases kind with
  | constructor => cases h
  | method returnType doc =>
    obtain ⟨verb, _, rfl⟩ := Option.map_eq_some_iff.mp h
    refine ⟨rfl, ?_⟩
    simp only [Operation.HasToken, MemberNode.BindsToken, List.mem_filterMap, Prod.exists]
    constructor
    · rintro ⟨q, ⟨p, k, hp, hq⟩, hkind, hname⟩
      have hbound := parameterOf?_path.mp ⟨q, hq, hkind, hname⟩
      exact ⟨p, List.mem_of_getElem? (List.mk_mem_zipIdx_iff_getElem?.mp hp), hbound⟩
    · rintro ⟨p, hp, hbound⟩
      obtain ⟨k, hk⟩ := List.mem_iff_getElem?.mp hp
      obtain ⟨q, hq, hkind, hname⟩ := parameterOf?_path.mpr hbound
      exact ⟨q, ⟨p, k, List.mk_mem_zipIdx_iff_getElem?.mpr hk, hq⟩, hkind, hname⟩

end Api

/-! ## Runs -/

namespace Extractor

open Api

/-- A completed run publishes what is assembled from a forest that was linked, and reports all that
linking reports. -/
theorem exists_link_of_run {e : Extractor} {depth : Nat} {x : Extraction}
    (h : (e.run depth).1 = .ok x) : ∃ f : Forest,
      x.operations = published (candidates f.link.1) ∧ f.link.2 ⊆ x.diagnostics := by
  unfold run at h
  cases hwalk : e.walk depth with
  | mk result after =>
    cases result with
    | error abort => simp [hwalk] at h
    | ok walked =>
      obtain rfl : _ = x := by simpa [hwalk] using h
      refine ⟨walked.1, rfl, fun d hd => ?_⟩
      simp [hd]

/-- Where nothing has to be removed, what was walked is assembled as it is. -/
theorem exists_run_of_walk {e after : Extractor} {depth : Nat} {f : Forest} {ds : List Diagnostic}
    (hwalk : e.walk depth = (.ok (f, ds), after)) (hnil : f.removals = []) :
    ∃ x, (e.run depth).1 = .ok x ∧ x.operations = (assemble ⟨f, f.links⟩).operations ∧
      x.diagnostics = ds ++ f.unusedTokenWarnings ++ (assemble ⟨f, f.links⟩).diagnostics := by
  simp only [run, hwalk]
  rw [Forest.link, if_pos hnil]
  exact ⟨_, rfl, rfl, rfl⟩

/-- The path parameters of every published operation are tokens of its route. If the run reported
nothing they are all the tokens. -/
theorem run_pathTokens (e : Extractor) (depth : Nat) (x : Extraction)
    (h : (e.run depth).1 = .ok x) : ∀ o ∈ x.operations,
      (∀ q ∈ o.parameters, q.kind = .path → q.name ∈ Route.tokens o.route) ∧
      (x.diagnostics = [] →
        ∀ token, token ∈ Route.tokens o.route ↔ ∃ q ∈ o.parameters, q.kind = .path ∧ q.name = token) := by
  intro o ho
  obtain ⟨f, hoperations, hdiagnostics⟩ := exists_link_of_run h
  rw [hoperations] at ho
  obtain ⟨c, hc, m, j, path, hm, hof⟩ := exists_method_of_mem_published ho
  obtain ⟨_, hnil⟩ := Forest.link_links_eq f
  have hforward : ∀ name, o.HasToken name → name ∈ Route.tokens o.route := by
    intro name hname
    obtain ⟨hroute, hiff⟩ := hasToken_iff hof name
    rw [hroute]
    exact Forest.mem_tokens_of_bindsToken hnil hc hm (hiff.mp hname)
  refine ⟨fun q hq hkind => hforward q.name ⟨q, hq, hkind, rfl⟩, fun hquiet token => ⟨?_, hforward token⟩⟩
  intro htoken
  obtain ⟨hroute, hiff⟩ := hasToken_iff hof token
  rw [hroute] at htoken
  have hwarnings : f.link.1.forest.unusedTokenWarnings = [] := by
    refine List.eq_nil_iff_forall_not_mem.mpr fun d hd => ?_
    have hmem := hdiagnostics ((Forest.unusedTokenWarnings_link_suffix f).subset hd)
    rw [hquiet] at hmem
    cases hmem
  exact hiff.mpr (Forest.bindsToken_of_mem_tokens hwarnings hc hm htoken)

/-- A class with a base path that has a token, and a method that binds that token and one of its own,
the latter under another name than the declared one. -/
def nested : Extractor :=
  let span : Span := ⟨"m.ts", .zero, .zero⟩
  let text (s : String) : Annotation.Argument := .literal (.string s)
  let parameter (name : String) (arguments : List Annotation.Argument) : ParameterDecl :=
    ⟨name, [⟨"Path", arguments, span⟩], some (.keyword "string"), false, none, none, span⟩
  .fresh .standard
    [⟨"C", "m.ts#C", [⟨"Api", [text "/shops/\x7bshop\x7d"], span⟩], none,
      [⟨"item", [⟨"Get", [text "/items/\x7bid\x7d"], span⟩],
        [parameter "shop" [], parameter "itemId" [text "id"]], none, none, span⟩], span⟩] []
    .default

theorem run_pathTokens_nested : ∃ x, (nested.run 3).1 = .ok x ∧ x.diagnostics = [] ∧
    x.operations.map (fun o => (o.route, o.parameters.map (·.name))) =
      [("/shops/\x7bshop\x7d/items/\x7bid\x7d", ["shop", "id"])] ∧
    ∀ o ∈ x.operations,
      (∀ q ∈ o.parameters, q.kind = .path → q.name ∈ Route.tokens o.route) ∧
      (x.diagnostics = [] →
        ∀ token, token ∈ Route.tokens o.route ↔ ∃ q ∈ o.parameters, q.kind = .path ∧ q.name = token) := by
  have hwalk : ∃ w e, nested.walk 3 = (.ok w, e) ∧ w.2 = [] ∧ w.1.removals = [] ∧
      w.1.unusedTokenWarnings = [] ∧ (assemble ⟨w.1, w.1.links⟩).diagnostics = [] ∧
      (assemble ⟨w.1, w.1.links⟩).operations.map (fun o => (o.route, o.parameters.map (·.name))) =
        [("/shops/\x7bshop\x7d/items/\x7bid\x7d", ["shop", "id"])] :=
    ⟨_, _, rfl, rfl, rfl, rfl, rfl, rfl⟩
  obtain ⟨⟨f, ds⟩, e, hw, rfl, hnil, hwarnings, hclashes, hroutes⟩ := hwalk
  obtain ⟨x, hx, hoperations, hdiagnostics⟩ := exists_run_of_walk hw hnil
  have hnone : x.diagnostics = [] := by
    rw [hdiagnostics, hwarnings, hclashes, List.append_nil, List.append_nil]
  exact ⟨x, hx, hnone, hoperations ▸ hroutes, run_pathTokens nested 3 x hx⟩

end Extractor

end AnnotatedApi
