import AnnotatedApi.Proofs.Linking.Links
import AnnotatedApi.Proofs.Lists

/-!
# Links below a class

A member or a parameter looks for what it needs around it, which is inside its class, or beside it,
which is inside its class too. So the links below a class are those of the class alone, wherever in
the forest it stands. Only the class itself looks at other classes.
-/

namespace AnnotatedApi

set_option autoImplicit false

/-! ## The place of a class -/

/-- Whether the path leads below the class at an index. -/
def NodePath.isUnder (i : Nat) : NodePath → Bool
  | k :: _ :: _ => k == i
  | _ => false

/-- The link as it is when its class stands at an index. -/
def Link.under (i : Nat) (l : Link) : Link :=
  { l with source := i :: l.source, target := i :: l.target }

def Forest.Asking.under (i : Nat) (x : Forest.Asking) : Forest.Asking :=
  { x with path := i :: x.path }

namespace Forest

variable {f : Forest} {i : Nat} {c : ClassNode}

/-- Below a class there is what is below the class alone. -/
theorem site?_alone (hc : f[i]? = some c) (q : NodePath) : f.site? (i :: q) = site? [c] (0 :: q) := by
  match q with
  | [] => simp [site?, hc]
  | [j] => simp [site?, member?, hc]
  | [j, k] => simp [site?, member?, hc]
  | _ :: _ :: _ :: _ => rfl

theorem siblingCount_alone (hc : f[i]? = some c) (j : Nat) (q : NodePath) :
    f.siblingCount (i :: j :: q) = siblingCount [c] (0 :: j :: q) := by
  match q with
  | [] => simp [siblingCount, hc]
  | [k] => simp [siblingCount, member?, hc]
  | _ :: _ :: _ => rfl

theorem enclosing_cons (i : Nat) (q : NodePath) :
    enclosing (i :: q) = (((List.range q.length).map q.take).reverse).map (i :: ·) := by
  simp [enclosing, List.range'_eq_map_range, List.map_reverse, Function.comp_def, Nat.add_comm 1]

theorem peers_cons (f : Forest) (i j : Nat) (q : NodePath) :
    f.peers (i :: j :: q) = (((List.range (f.siblingCount (i :: j :: q))).map
      fun k => (j :: q).dropLast ++ [k]).filter (· != j :: q)).map (i :: ·) := by
  have hkeep : ∀ p : NodePath, (i :: p != i :: j :: q) = (p != j :: q) := by simp [bne]
  simp only [peers, List.dropLast_cons_cons, List.cons_append, List.filter_map, List.map_map,
    Function.comp_def, hkeep]

/-! ## What is found below a class -/

end Forest

namespace ClassNode

open Forest

/-- What a search from below the class finds in the class alone, by the indices from the class on. -/
def target? (c : ClassNode) (q : NodePath) (scope : Annotation.Scope) (r : Requirement) :
    Option NodePath :=
  (Forest.target? [c] (0 :: q) scope r).map List.tail

/-- The nodes below the class, with the indices from the class on. -/
def nodesBelow (c : ClassNode) : List (NodePath × Site) :=
  c.members.zipIdx.flatMap fun (m, j) =>
    (m.parameters.zipIdx.map fun (p, k) => ([j, k], p.site)) ++ [([j], m.site)]

theorem exists_cons_of_mem_nodesBelow {c : ClassNode} {x : NodePath × Site} (h : x ∈ c.nodesBelow) :
    ∃ j q, x.1 = j :: q := by
  obtain ⟨⟨m, j⟩, _, hx⟩ := List.mem_flatMap.mp h
  rcases List.mem_append.mp hx with hx | hx
  · obtain ⟨⟨p, k⟩, _, rfl⟩ := List.mem_map.mp hx
    exact ⟨j, [k], rfl⟩
  · obtain rfl := List.mem_singleton.mp hx
    exact ⟨j, [], rfl⟩

def askingsBelow (c : ClassNode) : List Asking :=
  c.nodesBelow.flatMap fun (q, s) =>
    s.annotations.flatMap fun a => a.definition.dependencies.map (⟨q, a, ·⟩)

def linkOf? (c : ClassNode) (x : Asking) : Option Link :=
  (Requirement.of? x.annotation x.dependency).bind fun r =>
    (c.target? x.path x.dependency.scope r).map fun t => ⟨x.path, t, x.annotation.name, r⟩

/-- The links below the class, with the indices from the class on. -/
def linksBelow (c : ClassNode) : List Link := c.askingsBelow.filterMap c.linkOf?

end ClassNode

namespace Forest

variable {f : Forest} {i : Nat} {c : ClassNode}

/-- What is searched from below a class, and in which order, does not depend on other classes. -/
theorem exists_candidates (c : ClassNode) (j : Nat) (q : NodePath) (scope : Annotation.Scope) :
    ∃ ps : List NodePath, ∀ (f : Forest) (i : Nat), f[i]? = some c →
      f.candidates (i :: j :: q) scope = ps.map (i :: ·) := by
  cases scope with
  | enclosing =>
    refine ⟨((List.range (j :: q).length).map (j :: q).take).reverse, fun f i _ => ?_⟩
    exact enclosing_cons i (j :: q)
  | peer =>
    refine ⟨((List.range (siblingCount [c] (0 :: j :: q))).map
      fun k => (j :: q).dropLast ++ [k]).filter (· != j :: q), fun f i hc => ?_⟩
    rw [candidates, peers_cons, siblingCount_alone hc]

theorem target?_under (hc : f[i]? = some c) (j : Nat) (q : NodePath) (scope : Annotation.Scope)
    (r : Requirement) :
    f.target? (i :: j :: q) scope r = (c.target? (j :: q) scope r).map (i :: ·) := by
  obtain ⟨ps, hps⟩ := exists_candidates c j q scope
  have hfind : ∀ (f : Forest) (i : Nat), f[i]? = some c → f.target? (i :: j :: q) scope r =
      (ps.find? fun p => (site? [c] (0 :: p)).any r.satisfiedBy).map (i :: ·) := by
    intro f i hc
    rw [target?, hps f i hc, List.find?_map]
    simp only [Function.comp_def, site?_alone hc]
  rw [ClassNode.target?, hfind f i hc, hfind [c] 0 rfl]
  simp only [Option.map_map, Function.comp_def, List.tail_cons]

theorem sites_eq (f : Forest) : f.sites = f.zipIdx.flatMap fun x =>
    (x.1.nodesBelow.map fun y => (x.2 :: y.1, y.2)) ++ [([x.2], x.1.site)] := by
  simp only [sites, ClassNode.nodesBelow, List.map_flatMap, List.map_append, List.map_map,
    List.map_cons, List.map_nil, Function.comp_def]

theorem nodes_under (hc : f[i]? = some c) :
    f.sites.filter (NodePath.isUnder i ·.1) = c.nodesBelow.map fun x => (i :: x.1, x.2) := by
  have hunder : ∀ (c : ClassNode) (k : Nat), ∀ y ∈ c.nodesBelow.map fun x => (k :: x.1, x.2),
      NodePath.isUnder i y.1 = (k == i) := by
    intro c k y hy
    obtain ⟨x, hx, rfl⟩ := List.mem_map.mp hy
    obtain ⟨j, q, hq⟩ := ClassNode.exists_cons_of_mem_nodesBelow hx
    simp [hq, NodePath.isUnder]
  rw [sites_eq, filter_flatMap_zipIdx hc, List.filter_append, List.filter_eq_self.mpr fun y hy => ?_,
    List.filter_cons_of_neg (by simp [NodePath.isUnder]), List.filter_nil, List.append_nil]
  · simp [hunder c i y hy]
  · rintro ⟨c, k⟩ hk y hy
    rcases List.mem_append.mp hy with hy | hy
    · simp [hunder c k y hy, hk]
    · obtain rfl := List.mem_singleton.mp hy
      rfl

theorem askings_under (hc : f[i]? = some c) :
    f.askings.filter (NodePath.isUnder i ·.path) = c.askingsBelow.map (.under i) := by
  rw [askings, filter_flatMap_eq (q := fun y => NodePath.isUnder i y.1) ?_, nodes_under hc]
  · simp only [ClassNode.askingsBelow, List.flatMap_map, List.map_flatMap, List.map_map]
    rfl
  · rintro ⟨p, s⟩ x hx
    obtain ⟨a, _, hx⟩ := List.mem_flatMap.mp hx
    obtain ⟨d, _, rfl⟩ := List.mem_map.mp hx
    rfl

/-- The link that a dependency leads to in the forest, if it is known what it asks for and that is
found. -/
def linkOf? (f : Forest) (x : Asking) : Option Link :=
  (Requirement.of? x.annotation x.dependency).bind fun r =>
    (f.target? x.path x.dependency.scope r).map fun t => ⟨x.path, t, x.annotation.name, r⟩

theorem links_eq (f : Forest) : f.links = f.askings.filterMap f.linkOf? := by
  rw [links, dependencyResults_eq, List.filterMap_filterMap]
  refine List.filterMap_congr fun x _ => ?_
  rw [answer?, resolveDependency, linkOf?]
  cases Requirement.of? x.annotation x.dependency with
  | none => rfl
  | some r =>
    simp only [Option.map_some, Option.bind_some]
    cases f.target? x.path x.dependency.scope r <;> rfl

theorem source_of_linkOf? {x : Asking} {l : Link} (h : f.linkOf? x = some l) : l.source = x.path := by
  obtain ⟨r, _, h⟩ := Option.bind_eq_some_iff.mp h
  obtain ⟨t, _, rfl⟩ := Option.map_eq_some_iff.mp h
  rfl

theorem linkOf?_under (hc : f[i]? = some c) {x : Asking} (hx : x ∈ c.askingsBelow) :
    f.linkOf? (x.under i) = (c.linkOf? x).map (.under i) := by
  obtain ⟨y, hy, hx⟩ := List.mem_flatMap.mp hx
  obtain ⟨a, _, hx⟩ := List.mem_flatMap.mp hx
  obtain ⟨d, _, rfl⟩ := List.mem_map.mp hx
  obtain ⟨j, q, hq⟩ := ClassNode.exists_cons_of_mem_nodesBelow hy
  simp only [linkOf?, ClassNode.linkOf?, Asking.under, hq, target?_under hc, Option.map_bind,
    Option.map_map, Function.comp_def]
  rfl

/-- The links below a class are those of the class alone. -/
theorem links_under (hc : f[i]? = some c) :
    f.links.filter (NodePath.isUnder i ·.source) = c.linksBelow.map (.under i) := by
  rw [links_eq, filter_filterMap_eq (q := fun x => NodePath.isUnder i x.path) ?_, askings_under hc]
  · rw [List.filterMap_map, ClassNode.linksBelow, List.map_filterMap]
    exact List.filterMap_congr fun x hx => linkOf?_under hc hx
  · intro x l hl
    rw [source_of_linkOf? hl]

end Forest

end AnnotatedApi
