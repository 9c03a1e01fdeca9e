import AnnotatedApi.Handlers.Link
import AnnotatedApi.Proofs.Annotation.Arguments
import AnnotatedApi.Proofs.Lists
import Mathlib.Data.List.Forall2
import Mathlib.Data.List.Infix

/-!
# The links of a forest

What the annotations of a forest ask for is listed node by node, the nodes below a node before it. A
linked forest has one link for every entry of that list, in its order, and each leads to the node
that satisfies the requirement and is nearest to the source. All of this is about the forest that is
left, not about the one that linking began with.
-/

namespace AnnotatedApi

set_option autoImplicit false

/-! ## The order of nodes -/

/-- A node comes after those below it and after those under an earlier index. -/
def NodePath.Before : NodePath → NodePath → Prop
  | [], _ => False
  | _ :: _, [] => True
  | i :: p, j :: q => i < j ∨ i = j ∧ Before p q

theorem NodePath.before_append_left (above p q : NodePath) :
    Before (above ++ p) (above ++ q) ↔ Before p q := by
  induction above with
  | nil => rfl
  | cons i above ih => simp [Before, ih]

namespace Forest

section

variable {α : Type} {l : List α} {nodes : α × Nat → List (NodePath × Site)} (above : NodePath)

/-- Nodes are in order if those under each index are, and every index has its own. -/
theorem pairwise_flatMap_zipIdx (horder : ∀ x, (nodes x).Pairwise (NodePath.Before ·.1 ·.1))
    (hbelow : ∀ a i, ∀ y ∈ nodes (a, i), ∃ rest, y.1 = above ++ i :: rest) :
    (l.zipIdx.flatMap nodes).Pairwise (NodePath.Before ·.1 ·.1) := by
  refine List.pairwise_flatMap.mpr ⟨fun x _ => horder x, (pairwise_zipIdx l).imp ?_⟩
  rintro ⟨a, i⟩ ⟨b, j⟩ hij y hy z hz
  obtain ⟨p, hp⟩ := hbelow a i y hy
  obtain ⟨q, hq⟩ := hbelow b j z hz
  rw [hp, hq, NodePath.before_append_left]
  exact .inl hij

/-- A node that follows all those below it is in order with them. -/
theorem pairwise_append_above {below : List (NodePath × Site)} {s : Site}
    (horder : below.Pairwise (NodePath.Before ·.1 ·.1))
    (hbelow : ∀ y ∈ below, ∃ i rest, y.1 = above ++ i :: rest) :
    (below ++ [(above, s)]).Pairwise (NodePath.Before ·.1 ·.1) := by
  refine List.pairwise_append.mpr ⟨horder, List.pairwise_singleton .., fun y hy z hz => ?_⟩
  obtain rfl := List.mem_singleton.mp hz
  obtain ⟨i, rest, hy⟩ := hbelow y hy
  have h := (NodePath.before_append_left above (i :: rest) []).mpr trivial
  rw [List.append_nil] at h
  rwa [hy]

end

/-- The nodes of a forest are in order. -/
theorem sites_pairwise (f : Forest) : f.sites.Pairwise (NodePath.Before ·.1 ·.1) := by
  refine pairwise_flatMap_zipIdx [] ?_ ?_
  · rintro ⟨c, i⟩
    refine pairwise_append_above [i] (pairwise_flatMap_zipIdx [i] ?_ ?_) ?_
    · rintro ⟨m, j⟩
      refine pairwise_append_above [i, j] ?_ ?_
      · rw [List.map_eq_flatMap]
        exact pairwise_flatMap_zipIdx [i, j] (fun _ => List.pairwise_singleton ..) (by simp)
      · rintro y hy
        obtain ⟨x, _, rfl⟩ := List.mem_map.mp hy
        exact ⟨x.2, [], rfl⟩
    · rintro m j y hy
      simp only [List.mem_append, List.mem_map, List.mem_singleton] at hy
      obtain ⟨x, _, rfl⟩ | rfl := hy
      · exact ⟨[x.2], rfl⟩
      · exact ⟨[], rfl⟩
    · rintro y hy
      simp only [List.mem_flatMap, List.mem_append, List.mem_map, List.mem_singleton] at hy
      obtain ⟨⟨m, j⟩, _, ⟨x, _, rfl⟩ | rfl⟩ := hy
      · exact ⟨j, [x.2], rfl⟩
      · exact ⟨j, [], rfl⟩
  · rintro c i y hy
    simp only [List.mem_append, List.mem_flatMap, List.mem_map, List.mem_singleton] at hy
    obtain ⟨⟨m, j⟩, _, ⟨x, _, rfl⟩ | rfl⟩ | rfl := hy
    · exact ⟨[j, x.2], rfl⟩
    · exact ⟨[j], rfl⟩
    · exact ⟨[], rfl⟩

/-! ## What is asked for -/

/-- What an annotation asks for: a fixed annotation or provider, or what one of its arguments names,
which has to be an identifier or a text. -/
inductive Forms (a : Applied) : Annotation.DependencyTarget → Requirement → Prop where
  | annotated (name : String) : Forms a (.annotated name) (.annotated name)
  | provider (tag : String) : Forms a (.provider tag) (.provider tag)
  | providerArgument {position : Nat} {x : Annotation.Argument} {tag : String}
    (hx : a.arguments[position]? = some x) (htag : x = .identifier tag ∨ x = .literal (.string tag)) :
    Forms a (.providerArgument position) (.provider tag)
  | declarationArgument {position : Nat} {x : Annotation.Argument} {name : String}
    (hx : a.arguments[position]? = some x)
    (hname : x = .identifier name ∨ x = .literal (.string name)) :
    Forms a (.declarationArgument position) (.declaration name)

theorem of?_eq_some_iff {a : Applied} {d : Annotation.Dependency} {r : Requirement} :
    Requirement.of? a d = some r ↔ Forms a d.target r := by
  obtain ⟨target, scope⟩ := d
  constructor
  · intro h
    cases target with
    | annotated name =>
      cases h
      exact .annotated name
    | provider tag =>
      cases h
      exact .provider tag
    | providerArgument position =>
      obtain ⟨tag, htag, rfl⟩ := Option.map_eq_some_iff.mp h
      obtain ⟨x, hx, htag⟩ := Option.bind_eq_some_iff.mp htag
      have hspells := Annotation.Argument.asText?_eq_some_iff.mp htag
      exact .providerArgument hx hspells
    | declarationArgument position =>
      obtain ⟨name, hname, rfl⟩ := Option.map_eq_some_iff.mp h
      obtain ⟨x, hx, hname⟩ := Option.bind_eq_some_iff.mp hname
      have hspells := Annotation.Argument.asText?_eq_some_iff.mp hname
      exact .declarationArgument hx hspells
  · rintro (_ | _ | ⟨hx, htag⟩ | ⟨hx, hname⟩)
    · rfl
    · rfl
    · simp [Requirement.of?, Applied.textArgument?, hx, Annotation.Argument.asText?_eq_some_iff.mpr htag]
    · simp [Requirement.of?, Applied.textArgument?, hx, Annotation.Argument.asText?_eq_some_iff.mpr hname]

/-- A dependency of an annotation on a node. -/
structure Asking where
  path : NodePath
  annotation : Applied
  dependency : Annotation.Dependency

/-- Whether it is known what the dependency asks for. -/
def Asking.Formed (x : Asking) : Prop := ∃ r, Forms x.annotation x.dependency.target r

theorem Asking.formed_iff {x : Asking} :
    x.Formed ↔ (Requirement.of? x.annotation x.dependency).isSome = true := by
  simp only [Formed, Option.isSome_iff_exists, of?_eq_some_iff]

instance : DecidablePred Asking.Formed := fun _ => decidable_of_iff _ Asking.formed_iff.symm

/-- The dependencies of a forest, node by node in their order. -/
def askings (f : Forest) : List Asking :=
  f.sites.flatMap fun (path, s) =>
    s.annotations.flatMap fun a => a.definition.dependencies.map (⟨path, a, ·⟩)

theorem mem_askings {f : Forest} {x : Asking} : x ∈ f.askings ↔ ∃ s, f.site? x.path = some s ∧
    x.annotation ∈ s.annotations ∧ x.dependency ∈ x.annotation.definition.dependencies := by
  simp only [askings, List.mem_flatMap, List.mem_map, Prod.exists, mem_sites]
  constructor
  · rintro ⟨p, s, hs, a, ha, d, hd, rfl⟩
    exact ⟨s, hs, ha, hd⟩
  · rintro ⟨s, hs, ha, hd⟩
    exact ⟨x.path, s, hs, x.annotation, ha, x.dependency, hd, rfl⟩

/-! ## What is found -/

/-- Whether the node at a path is there and satisfies the requirement. -/
def Satisfied (f : Forest) (r : Requirement) (path : NodePath) : Prop :=
  ∃ s, f.site? path = some s ∧ r.satisfiedBy s = true

/-- Whether the target is, of the nodes that satisfy the requirement, the nearest one around the node
at a path, or the first one beside it. -/
def Nearest (f : Forest) (r : Requirement) (path : NodePath) (target : NodePath) :
    Annotation.Scope → Prop
  | .enclosing =>
    (target <+: path ∧ target ≠ path) ∧ f.Satisfied r target ∧
      ∀ p, p <+: path ∧ p ≠ path → f.Satisfied r p → p.length ≤ target.length
  | .peer =>
    ∃ above own i, path = above ++ [own] ∧ (target = above ++ [i] ∧ i ≠ own) ∧
      f.Satisfied r target ∧ ∀ j, j ≠ own → f.Satisfied r (above ++ [j]) → i ≤ j

/-- Whether a link is what a dependency leads to. -/
structure Answers (f : Forest) (x : Asking) (l : Link) : Prop where
  source : l.source = x.path
  annotationName : l.annotationName = x.annotation.name
  requirement : Forms x.annotation x.dependency.target l.requirement
  target : f.Nearest l.requirement x.path l.target x.dependency.scope

theorem find?_first {α : Type} {R : α → α → Prop} {l : List α} {p : α → Bool} {a : α}
    (hR : l.Pairwise R) (h : l.find? p = some a) :
    a ∈ l ∧ p a = true ∧ ∀ b ∈ l, p b = true → a = b ∨ R a b := by
  obtain ⟨ha, before, after, rfl, hbefore⟩ := List.find?_eq_some_iff_append.mp h
  refine ⟨by simp, ha, fun b hb hpb => ?_⟩
  rcases List.mem_append.mp hb with hb | hb
  · have := hbefore b hb
    simp [hpb] at this
  · rcases List.mem_cons.mp hb with rfl | hb
    · exact .inl rfl
    · exact .inr (List.rel_of_pairwise_cons (List.pairwise_append.mp hR).2.1 hb)

theorem satisfied_iff {f : Forest} {r : Requirement} {path : NodePath} :
    f.Satisfied r path ↔ (f.site? path).any r.satisfiedBy = true := by
  simp only [Satisfied, Option.any_eq_true]

theorem Satisfied.ne_nil {f : Forest} {r : Requirement} {path : NodePath}
    (h : f.Satisfied r path) : path ≠ [] := by
  rintro rfl
  obtain ⟨s, hs, _⟩ := h
  cases hs

theorem mem_enclosing {path p : NodePath} :
    p ∈ enclosing path ↔ (p <+: path ∧ p ≠ path) ∧ p ≠ [] := by
  simp only [enclosing, List.mem_reverse, List.mem_map, List.mem_range'_1]
  constructor
  · rintro ⟨n, hn, rfl⟩
    have hlength : (path.take n).length = n := List.length_take_of_le (by omega)
    refine ⟨⟨List.take_prefix .., fun heq => ?_⟩, fun heq => ?_⟩
    · rw [heq] at hlength
      omega
    · rw [heq, List.length_nil] at hlength
      omega
  · rintro ⟨⟨hinit, hne⟩, hnil⟩
    have hle := hinit.length_le
    have hpos := List.length_pos_iff.mpr hnil
    have hlt : p.length ≠ path.length := fun heq => hne (hinit.eq_of_length heq)
    exact ⟨p.length, by omega, (List.prefix_iff_eq_take.mp hinit).symm⟩

theorem enclosing_pairwise (path : NodePath) :
    (enclosing path).Pairwise fun p q => q.length ≤ p.length := by
  rw [enclosing, List.pairwise_reverse, List.pairwise_map]
  refine List.Pairwise.imp (fun {m n} hmn => ?_) List.pairwise_lt_range'
  simp only [List.length_take]
  omega

/-- The nodes beside a node are those under the same indices but the last. -/
theorem lt_siblingCount {f : Forest} {above : NodePath} {own i : Nat} {s : Site}
    (h : f.site? (above ++ [i]) = some s) : i < f.siblingCount (above ++ [own]) := by
  match above with
  | [] =>
    obtain ⟨c, hc, _⟩ := Option.map_eq_some_iff.mp h
    exact (List.getElem?_eq_some_iff.mp hc).1
  | [a] =>
    obtain ⟨m, hm, _⟩ := Option.map_eq_some_iff.mp h
    obtain ⟨c, hc, hi⟩ := Option.bind_eq_some_iff.mp hm
    have hlt := (List.getElem?_eq_some_iff.mp hi).1
    simpa [siblingCount, hc] using hlt
  | [a, b] =>
    obtain ⟨m, hm, hs⟩ := Option.bind_eq_some_iff.mp h
    obtain ⟨p, hp, _⟩ := Option.map_eq_some_iff.mp hs
    have hlt := (List.getElem?_eq_some_iff.mp hp).1
    simpa [siblingCount, hm] using hlt
  | _ :: _ :: _ :: rest => simp [site?] at h

theorem mem_peers {f : Forest} {above p : NodePath} {own : Nat} :
    p ∈ f.peers (above ++ [own]) ↔
      ∃ i < f.siblingCount (above ++ [own]), i ≠ own ∧ p = above ++ [i] := by
  simp only [peers, List.mem_filter, List.mem_map, List.mem_range, List.dropLast_concat,
    bne_iff_ne]
  constructor
  · rintro ⟨⟨i, hi, rfl⟩, hne⟩
    exact ⟨i, hi, fun h => hne (by rw [h]), rfl⟩
  · rintro ⟨i, hi, hne, rfl⟩
    exact ⟨⟨i, hi, rfl⟩, fun h => hne (by simpa using h)⟩

theorem peers_pairwise (f : Forest) (above : NodePath) (own : Nat) :
    (f.peers (above ++ [own])).Pairwise fun p q => ∀ i j, p = above ++ [i] → q = above ++ [j] →
      i ≤ j := by
  rw [peers, List.dropLast_concat]
  refine List.Pairwise.filter _ (List.pairwise_map.mpr (List.pairwise_lt_range.imp ?_))
  rintro m n hmn i j hi hj
  obtain rfl : m = i := by simpa using hi
  obtain rfl : n = j := by simpa using hj
  exact Nat.le_of_lt hmn

/-- The search finds the nearest node. -/
theorem nearest_of_target? {f : Forest} {path target : NodePath} {scope : Annotation.Scope}
    {r : Requirement} {s : Site} (hs : f.site? path = some s)
    (h : f.target? path scope r = some target) : f.Nearest r path target scope := by
  cases scope with
  | enclosing =>
    obtain ⟨hmem, hsat, hfirst⟩ := find?_first (enclosing_pairwise path) h
    refine ⟨(mem_enclosing.mp hmem).1, satisfied_iff.mpr hsat, fun p hp hpsat => ?_⟩
    rcases hfirst p (mem_enclosing.mpr ⟨hp, hpsat.ne_nil⟩) (satisfied_iff.mp hpsat) with rfl | hle
    · exact Nat.le_refl _
    · exact hle
  | peer =>
    obtain ⟨above, own, rfl⟩ : ∃ above own, path = above ++ [own] := by
      cases path using List.reverseRecOn with
      | nil => cases hs
      | append_singleton above own => exact ⟨above, own, rfl⟩
    obtain ⟨hmem, hsat, hfirst⟩ := find?_first (peers_pairwise f above own) h
    obtain ⟨i, _, hne, rfl⟩ := mem_peers.mp hmem
    refine ⟨above, own, i, rfl, ⟨rfl, hne⟩, satisfied_iff.mpr hsat, fun j hj hjsat => ?_⟩
    obtain ⟨t, ht, _⟩ := id hjsat
    have hpeer := mem_peers.mpr ⟨j, lt_siblingCount ht, hj, rfl⟩
    rcases hfirst _ hpeer (satisfied_iff.mp hjsat) with heq | hle
    · obtain rfl : i = j := by simpa using heq
      exact Nat.le_refl _
    · exact hle i j rfl rfl

/-- Where the search finds nothing there is no nearest node. -/
theorem not_nearest_of_target? {f : Forest} {path : NodePath} {scope : Annotation.Scope} {r : Requirement}
    (h : f.target? path scope r = none) : ∀ target, ¬ f.Nearest r path target scope := by
  have hfound : ∀ target ∈ f.candidates path scope, ¬ f.Satisfied r target := by
    intro target hmem hsat
    exact List.find?_eq_none.mp h target hmem (satisfied_iff.mp hsat)
  intro target hnearest
  cases scope with
  | enclosing =>
    obtain ⟨hinit, hsat, -⟩ := hnearest
    exact hfound target (mem_enclosing.mpr ⟨hinit, hsat.ne_nil⟩) hsat
  | peer =>
    obtain ⟨above, own, i, rfl, ⟨rfl, hne⟩, hsat, -⟩ := hnearest
    obtain ⟨s, hs, -⟩ := id hsat
    exact hfound _ (mem_peers.mpr ⟨i, lt_siblingCount hs, hne, rfl⟩) hsat

/-- Whether a removal says of a dependency that nothing in its scope satisfies it. -/
def Reports (f : Forest) (x : Asking) (r : Removal) : Prop :=
  ∃ q, Forms x.annotation x.dependency.target q ∧
    (∀ target, ¬ f.Nearest q x.path target x.dependency.scope) ∧
    r = f.unsatisfied x.path x.annotation x.dependency.scope q

/-- What a pass makes of a dependency: a link to the nearest node that satisfies it, or a removal where there is
none. -/
inductive Handles (f : Forest) (x : Asking) : Except Removal Link → Prop where
  | link {l : Link} (h : f.Answers x l) : Handles f x (.ok l)
  | removal {r : Removal} (h : f.Reports x r) : Handles f x (.error r)

/-! ## One pass, and all of them -/

/-- What a pass makes of a dependency: nothing if it is not known what it asks for. -/
def answer? (f : Forest) (x : Asking) : Option (Except Removal Link) :=
  f.resolveDependency x.path x.annotation x.dependency

theorem dependencyResults_eq (f : Forest) : f.dependencyResults = f.askings.filterMap f.answer? := by
  simp only [dependencyResults, askings, List.filterMap_flatMap, List.filterMap_map]
  rfl

theorem answer?_eq_none {f : Forest} {x : Asking} (h : ¬ x.Formed) : f.answer? x = none := by
  have hnone : Requirement.of? x.annotation x.dependency = none := by
    simpa [Asking.formed_iff] using h
  rw [answer?, resolveDependency, hnone, Option.map_none]

/-- Every dependency of which it is known what it asks for is answered or reported. -/
theorem exists_result {f : Forest} {x : Asking} (hx : x ∈ f.askings) (h : x.Formed) :
    ∃ result, f.answer? x = some result ∧ f.Handles x result := by
  obtain ⟨s, hs, -, -⟩ := mem_askings.mp hx
  obtain ⟨r, hr⟩ := h
  have hof := of?_eq_some_iff.mpr hr
  cases htarget : f.target? x.path x.dependency.scope r with
  | some target =>
    refine ⟨.ok ⟨x.path, target, x.annotation.name, r⟩, ?_, ?_⟩
    · simp [answer?, resolveDependency, hof, htarget]
    · exact .link ⟨rfl, rfl, hr, nearest_of_target? hs htarget⟩
  | none =>
    refine ⟨.error (f.unsatisfied x.path x.annotation x.dependency.scope r), ?_, ?_⟩
    · simp [answer?, resolveDependency, hof, htarget]
    · exact .removal ⟨r, hr, not_nearest_of_target? htarget, rfl⟩

/-- What a pass finds is, one for one and in order, about the dependencies of which it is known what they ask
for. -/
theorem dependencyResults_forall₂ (f : Forest) :
    List.Forall₂ f.Handles (f.askings.filter (·.Formed)) f.dependencyResults := by
  rw [dependencyResults_eq]
  refine forall₂_filter_filterMap (fun x hx h => ?_) fun x _ h => ?_
  · exact exists_result hx (of_decide_eq_true h)
  · exact answer?_eq_none (of_decide_eq_false h)

theorem mem_links_iff {f : Forest} {l : Link} : l ∈ f.links ↔ .ok l ∈ f.dependencyResults := by
  rw [links, List.mem_filterMap]
  constructor
  · rintro ⟨_ | l', hmem, hl⟩
    · cases hl
    · cases hl
      exact hmem
  · intro h
    exact ⟨.ok l, h, rfl⟩

theorem mem_removals_of_result {f : Forest} {r : Removal} (h : .error r ∈ f.dependencyResults) :
    r ∈ f.removals := by
  refine List.mem_append_left _ ?_
  rw [dependencyRemovals, List.mem_filterMap]
  exact ⟨.error r, h, rfl⟩

theorem links_of_removals_eq_nil {f : Forest} (hf : f.removals = []) :
    List.Forall₂ f.Answers (f.askings.filter (·.Formed)) f.links := by
  have hresults : ∀ result ∈ f.dependencyResults, ∃ l, result = .ok l := by
    rintro (r | l) hmem
    · have hr := mem_removals_of_result hmem
      rw [hf] at hr
      cases hr
    · exact ⟨l, rfl⟩
  have hlinks : ∀ xs results, List.Forall₂ f.Handles xs results → (∀ result ∈ results, ∃ l, result = .ok l) →
      List.Forall₂ f.Answers xs (results.filterMap Except.toOption) := by
    intro xs results h hok
    induction h with
    | nil => exact .nil
    | cons hhandles _ ih =>
      obtain ⟨⟨l, rfl⟩, hrest⟩ := List.forall_mem_cons.mp hok
      cases hhandles with
      | link hanswers => exact .cons hanswers (ih hrest)
  exact hlinks _ _ (dependencyResults_forall₂ f) hresults

/-- The links are those of the forest that is left, and nothing is wrong with it. -/
theorem link_links_eq (f : Forest) :
    f.link.1.links = f.link.1.forest.links ∧ f.link.1.forest.removals = [] := by
  induction f using Forest.link.induct with
  | case1 f h =>
    rw [link, if_pos h]
    exact ⟨rfl, h⟩
  | case2 f h ih =>
    rw [link, if_neg h]
    exact ih

/-- The links of a linked forest are, one for one and in order, the dependencies of its nodes of which
it is known what they ask for, each with the nearest node that satisfies it. The nodes are all those
of the forest that is left, each after those below it. -/
theorem link_links (f : Forest) :
    let g := f.link.1.forest
    (∀ path s, (path, s) ∈ g.sites ↔ g.site? path = some s) ∧
    g.sites.Pairwise (NodePath.Before ·.1 ·.1) ∧
    List.Forall₂ g.Answers (g.askings.filter (·.Formed)) f.link.1.links := by
  obtain ⟨hlinks, hnil⟩ := link_links_eq f
  refine ⟨fun _ _ => mem_sites, sites_pairwise _, ?_⟩
  rw [hlinks]
  exact links_of_removals_eq_nil hnil

end Forest

end AnnotatedApi
