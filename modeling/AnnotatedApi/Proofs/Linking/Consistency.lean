import AnnotatedApi.Handlers.Link
import Mathlib.Data.List.Basic

/-!
# Forests in which everything fits

A node fits if every requirement of its annotations is satisfied around it or beside it, and if the
path parameters of a method are tokens of its route. This is said of a node and what stands beside
it, without indices: `removals_eq_nil_iff` says that a pass over a forest finds nothing wrong just
if all its nodes fit, `not_stands_of_mem` and `not_fits_of_mem` what a removal is due to.
-/

namespace AnnotatedApi

set_option autoImplicit false

/-! ## Nodes that fit -/

/-- The part of the surroundings that a scope looks at. -/
def Annotation.Scope.pick {α : Type} (around beside : List α) : Annotation.Scope → List α
  | .enclosing => around
  | .peer => beside

/-- Whether what the annotations of a declaration ask for is there, around it or beside it. -/
def Site.Met (s : Site) (around beside : List Site) : Prop :=
  ∀ a ∈ s.annotations, ∀ d ∈ a.definition.dependencies, ∀ q, Requirement.of? a d = some q →
    ∃ t ∈ d.scope.pick around beside, q.satisfiedBy t = true

/-- Whether a member of a class has all that it needs; `others` are the other members. -/
structure MemberNode.Fits (m : MemberNode) (c : ClassNode) (others : List MemberNode) : Prop where
  met : m.site.Met [c.site] (others.map (·.site))
  parameters : ∀ ps p qs, m.parameters = ps ++ p :: qs →
    p.site.Met [m.site, c.site] ((ps ++ qs).map (·.site))
  routed : m.isMethod = true → ∀ p ∈ m.parameters, (Forest.pathBinding? p).isSome = true →
    p.site.bindingName ∈ Route.tokens (c.routeOf m)

/-- Whether a class has all that it needs apart from its methods; `others` are the other classes. -/
structure ClassNode.Stands (c : ClassNode) (others : Forest) : Prop where
  met : c.site.Met [] (others.map (·.site))
  constructors : ∀ ms m ns, c.members = ms ++ m :: ns → m.isMethod = false → m.Fits c (ms ++ ns)

/-- Whether a class and its methods have all that they need. -/
structure ClassNode.Fits (c : ClassNode) (others : Forest) : Prop extends c.Stands others where
  methods : ∀ ms m ns, c.members = ms ++ m :: ns → m.isMethod = true → m.Fits c (ms ++ ns)

/-- A forest of classes that fit, each with a method. -/
structure Forest.Consistent (f : Forest) : Prop where
  hasMethod : ∀ c ∈ f, c.hasMethod = true
  fits : ∀ fs c gs, f = fs ++ c :: gs → c.Fits (fs ++ gs)

theorem Site.Met.mono {s : Site} {around beside wider others : List Site} (h : s.Met around beside)
    (ha : around ⊆ wider) (hb : beside ⊆ others) : s.Met wider others := by
  intro a hmem d hd q hq
  obtain ⟨t, ht, hs⟩ := h a hmem d hd q hq
  refine ⟨t, ?_, hs⟩
  cases hscope : d.scope with
  | enclosing =>
    rw [hscope] at ht
    exact ha ht
  | peer =>
    rw [hscope] at ht
    exact hb ht

/-! ## Searching by place -/

namespace Forest

theorem split_of_getElem? {α : Type} {l : List α} {i : Nat} {a : α} (h : l[i]? = some a) :
    ∃ s t, l = s ++ a :: t ∧ s.length = i := by
  obtain ⟨hi, ha⟩ := List.getElem?_eq_some_iff.mp h
  refine ⟨l.take i, l.drop (i + 1), ?_, List.length_take_of_le (Nat.le_of_lt hi)⟩
  rw [← ha, List.getElem_cons_drop, List.take_append_drop]

theorem exists_other_iff {α : Type} (s : List α) (a : α) (t : List α) (P : α → Prop) :
    (∃ k, k ≠ s.length ∧ ∃ b, (s ++ a :: t)[k]? = some b ∧ P b) ↔ ∃ b ∈ s ++ t, P b := by
  have he : (s ++ a :: t).eraseIdx s.length = s ++ t := by
    rw [List.eraseIdx_append_of_length_le (Nat.le_refl _), Nat.sub_self, List.eraseIdx_cons_zero]
  constructor
  · rintro ⟨k, hk, b, hb, hP⟩
    exact ⟨b, he ▸ List.mem_eraseIdx_iff_getElem?.mpr ⟨k, hk, hb⟩, hP⟩
  · rintro ⟨b, hb, hP⟩
    rw [← he] at hb
    obtain ⟨k, hk, hb⟩ := List.mem_eraseIdx_iff_getElem?.mp hb
    exact ⟨k, hk, b, hb, hP⟩

theorem target?_isSome_iff (f : Forest) (p : NodePath) (scope : Annotation.Scope)
    (q : Requirement) : (f.target? p scope q).isSome = true ↔
      ∃ x ∈ f.candidates p scope, ∃ s, f.site? x = some s ∧ q.satisfiedBy s = true := by
  simp only [target?, List.find?_isSome, Option.any_eq_true]

theorem exists_peer_iff {α : Type} {f : Forest} (above : NodePath) (site : α → Site) (s : List α)
    (a : α) (t : List α) (hcount : f.siblingCount (above ++ [s.length]) = (s ++ a :: t).length)
    (hsite : ∀ k, f.site? (above ++ [k]) = (s ++ a :: t)[k]?.map site) (P : Site → Prop) :
    (∃ x ∈ f.peers (above ++ [s.length]), ∃ u, f.site? x = some u ∧ P u) ↔
      ∃ u ∈ (s ++ t).map site, P u := by
  have hpeers : ∀ x, x ∈ f.peers (above ++ [s.length]) ↔
      ∃ k, k < (s ++ a :: t).length ∧ k ≠ s.length ∧ x = above ++ [k] := by
    intro x
    simp only [peers, List.mem_filter, List.mem_map, List.mem_range, hcount,
      List.dropLast_concat, bne_iff_ne]
    constructor
    · rintro ⟨⟨k, hk, rfl⟩, hne⟩
      exact ⟨k, hk, fun h => hne (by rw [h]), rfl⟩
    · rintro ⟨k, hk, hne, rfl⟩
      exact ⟨⟨k, hk, rfl⟩, fun h => hne (by simpa using h)⟩
  have hmap : (∃ u ∈ (s ++ t).map site, P u) ↔ ∃ b ∈ s ++ t, P (site b) := by
    simp only [List.mem_map, exists_exists_and_eq_and]
  rw [hmap, ← exists_other_iff s a t fun b => P (site b)]
  constructor
  · rintro ⟨x, hx, u, hu, hP⟩
    obtain ⟨k, _, hne, rfl⟩ := (hpeers x).mp hx
    rw [hsite k] at hu
    obtain ⟨b, hb, rfl⟩ := Option.map_eq_some_iff.mp hu
    exact ⟨k, hne, b, hb, hP⟩
  · rintro ⟨k, hne, b, hb, hP⟩
    have hk := (List.getElem?_eq_some_iff.mp hb).1
    exact ⟨above ++ [k], (hpeers _).mpr ⟨k, hk, hne, rfl⟩, site b, by rw [hsite k, hb]; rfl, hP⟩

theorem target?_class {f fs gs : Forest} {c : ClassNode} (h : f = fs ++ c :: gs)
    (scope : Annotation.Scope) (q : Requirement) :
    (f.target? [fs.length] scope q).isSome = true ↔
      ∃ t ∈ scope.pick [] ((fs ++ gs).map (·.site)), q.satisfiedBy t = true := by
  rw [target?_isSome_iff]
  cases scope with
  | enclosing => simp [candidates, enclosing, Annotation.Scope.pick]
  | peer =>
    refine exists_peer_iff [] (·.site) fs c gs ?_ (fun k => ?_) _
    · rw [← h]
      rfl
    · rw [← h]
      rfl

theorem target?_member {f : Forest} {c : ClassNode} {i : Nat} (hc : f[i]? = some c)
    {ms ns : List MemberNode} {m : MemberNode} (h : c.members = ms ++ m :: ns)
    (scope : Annotation.Scope) (q : Requirement) :
    (f.target? [i, ms.length] scope q).isSome = true ↔
      ∃ t ∈ scope.pick [c.site] ((ms ++ ns).map (·.site)), q.satisfiedBy t = true := by
  rw [target?_isSome_iff]
  cases scope with
  | enclosing => simp [candidates, enclosing, Annotation.Scope.pick, site?, hc]
  | peer =>
    refine exists_peer_iff [i] (·.site) ms m ns ?_ (fun k => ?_) _
    · rw [← h]
      simp [siblingCount, hc]
    · rw [← h]
      simp [site?, member?, hc]

theorem target?_parameter {f : Forest} {c : ClassNode} {i j : Nat} {m : MemberNode}
    (hc : f[i]? = some c) (hm : c.members[j]? = some m) {ps qs : List ParameterNode}
    {p : ParameterNode} (h : m.parameters = ps ++ p :: qs) (scope : Annotation.Scope)
    (q : Requirement) : (f.target? [i, j, ps.length] scope q).isSome = true ↔
      ∃ t ∈ scope.pick [m.site, c.site] ((ps ++ qs).map (·.site)), q.satisfiedBy t = true := by
  rw [target?_isSome_iff]
  cases scope with
  | enclosing =>
    simp [candidates, enclosing, Annotation.Scope.pick, site?, member?, hc, hm, List.range']
  | peer =>
    refine exists_peer_iff [i, j] (·.site) ps p qs ?_ (fun k => ?_) _
    · rw [← h]
      simp [siblingCount, member?, hc, hm]
    · rw [← h]
      simp [site?, member?, hc, hm]

/-! ## What a pass finds wrong -/

/-- Whether an annotation on the node at a path asks for something that is not found. -/
def Unmet (f : Forest) (p : NodePath) : Prop :=
  ∃ s, f.site? p = some s ∧ ∃ a ∈ s.annotations, ∃ d ∈ a.definition.dependencies,
    ∃ q, Requirement.of? a d = some q ∧ f.target? p d.scope q = none

/-- Whether a parameter of a method binds a path token that the route does not have. -/
def Unrouted (c : ClassNode) (m : MemberNode) : Prop :=
  m.isMethod = true ∧ ∃ p ∈ m.parameters, (pathBinding? p).isSome = true ∧
    p.site.bindingName ∉ Route.tokens (c.routeOf m)

theorem met_iff {f : Forest} {p : NodePath} {s : Site} {around beside : List Site}
    (hs : f.site? p = some s)
    (ht : ∀ scope q, (f.target? p scope q).isSome = true ↔
      ∃ t ∈ scope.pick around beside, q.satisfiedBy t = true) :
    s.Met around beside ↔ ¬ f.Unmet p := by
  constructor
  · rintro h ⟨s', hs', a, ha, d, hd, q, hq, hnone⟩
    obtain rfl : s = s' := by simpa [hs] using hs'
    have hsome := (ht d.scope q).mpr (h a ha d hd q hq)
    simp [hnone] at hsome
  · intro h a ha d hd q hq
    refine (ht d.scope q).mp (Option.isSome_iff_ne_none.mpr fun hnone => ?_)
    exact h ⟨s, hs, a, ha, d, hd, q, hq, hnone⟩

def removalPaths (f : Forest) : List NodePath := f.removals.map (·.path)

theorem mem_removalPaths {f : Forest} {path : NodePath} :
    path ∈ f.removalPaths ↔ (∃ p, f.Unmet p ∧ f.removalPath p = path) ∨
      ∃ i c, f[i]? = some c ∧ ∃ j m, c.members[j]? = some m ∧ Unrouted c m ∧ path = [i, j] := by
  simp only [removalPaths, List.mem_map, mem_removals]
  constructor
  · rintro ⟨r, hr | ⟨i, c, hc, j, m, hm, hk, hr⟩, rfl⟩
    · obtain ⟨p, s, hs, a, ha, d, hd, q, hq, ht, rfl⟩ := mem_dependencyRemovals.mp hr
      exact .inl ⟨p, ⟨s, hs, a, ha, d, hd, q, hq, ht⟩, rfl⟩
    · obtain ⟨p, hp, a, ha, ht, rfl⟩ := mem_pathRemovals.mp hr
      exact .inr ⟨i, c, hc, j, m, hm, ⟨hk, p, hp, by simp [ha], ht⟩, rfl⟩
  · rintro (⟨p, ⟨s, hs, a, ha, d, hd, q, hq, ht⟩, rfl⟩ | ⟨i, c, hc, j, m, hm, ⟨hk, p, hp, hb, ht⟩, rfl⟩)
    · exact ⟨_, .inl (mem_dependencyRemovals.mpr ⟨p, s, hs, a, ha, d, hd, q, hq, ht, rfl⟩), rfl⟩
    · obtain ⟨a, ha⟩ := Option.isSome_iff_exists.mp hb
      exact ⟨_, .inr ⟨i, c, hc, j, m, hm, hk, mem_pathRemovals.mpr ⟨p, hp, a, ha, ht, rfl⟩⟩, rfl⟩

/-! ## A pass and the nodes that fit -/

variable {f : Forest}

theorem not_fits_iff {c : ClassNode} {i : Nat} (hc : f[i]? = some c) {ms ns : List MemberNode}
    {m : MemberNode} (h : c.members = ms ++ m :: ns) :
    ¬ m.Fits c (ms ++ ns) ↔
      f.Unmet [i, ms.length] ∨ (∃ k, f.Unmet [i, ms.length, k]) ∨ Unrouted c m := by
  have hj : c.members[ms.length]? = some m := by simp [h]
  have hm : f.member? i ms.length = some m := by simp [member?, hc, hj]
  have hmet : m.site.Met [c.site] ((ms ++ ns).map (·.site)) ↔ ¬ f.Unmet [i, ms.length] :=
    met_iff (by simp [site?, hm]) (target?_member hc h)
  have hparameter : ∀ ps p qs, m.parameters = ps ++ p :: qs →
      (p.site.Met [m.site, c.site] ((ps ++ qs).map (·.site)) ↔
        ¬ f.Unmet [i, ms.length, ps.length]) := by
    intro ps p qs hp
    exact met_iff (by simp [site?, hm, hp]) (target?_parameter hc hj hp)
  constructor
  · intro hnot
    refine Classical.byContradiction fun hfits => hnot ⟨hmet.mpr fun hun => hfits (.inl hun), ?_, ?_⟩
    · intro ps p qs hp
      exact (hparameter ps p qs hp).mpr fun hun => hfits (.inr (.inl ⟨_, hun⟩))
    · intro hmethod p hp hb
      exact Classical.byContradiction fun ht => hfits (.inr (.inr ⟨hmethod, p, hp, hb, ht⟩))
  · rintro (hun | ⟨k, hun⟩ | ⟨hmethod, p, hp, hb, ht⟩) hfits
    · exact hmet.mp hfits.met hun
    · obtain ⟨s, hs, _⟩ := id hun
      obtain ⟨p, hp, _⟩ : ∃ p, m.parameters[k]? = some p ∧ p.site = s := by
        simpa [site?, hm] using hs
      obtain ⟨ps, qs, hsplit, rfl⟩ := split_of_getElem? hp
      exact (hparameter ps p qs hsplit).mp (hfits.parameters ps p qs hsplit) hun
    · exact ht (hfits.routed hmethod p hp hb)

theorem class_met_iff {fs gs : Forest} {c : ClassNode} (h : f = fs ++ c :: gs) :
    c.site.Met [] ((fs ++ gs).map (·.site)) ↔ ¬ f.Unmet [fs.length] :=
  met_iff (by simp [site?, h]) (target?_class h)

theorem split_of_unmet {p : NodePath} (h : f.Unmet p) : ∃ fs c gs, f = fs ++ c :: gs ∧
    ((p = [fs.length] ∧ ¬ c.site.Met [] ((fs ++ gs).map (·.site))) ∨
      ∃ ms m ns rest, p = fs.length :: ms.length :: rest ∧ c.members = ms ++ m :: ns ∧
        f.member? fs.length ms.length = some m ∧ ¬ m.Fits c (ms ++ ns)) := by
  obtain ⟨s, hs, _⟩ := id h
  match p with
  | [i] =>
    obtain ⟨c, hc, _⟩ := Option.map_eq_some_iff.mp hs
    obtain ⟨fs, gs, hf, rfl⟩ := split_of_getElem? hc
    exact ⟨fs, c, gs, hf, .inl ⟨rfl, fun hmet => (class_met_iff hf).mp hmet h⟩⟩
  | [i, j] =>
    obtain ⟨m, hm, _⟩ := Option.map_eq_some_iff.mp hs
    obtain ⟨c, hc, hj⟩ := Option.bind_eq_some_iff.mp hm
    obtain ⟨fs, gs, hf, rfl⟩ := split_of_getElem? hc
    obtain ⟨ms, ns, hms, rfl⟩ := split_of_getElem? hj
    have hfits := (not_fits_iff hc hms).mpr (.inl h)
    exact ⟨fs, c, gs, hf, .inr ⟨ms, m, ns, [], rfl, hms, hm, hfits⟩⟩
  | [i, j, k] =>
    obtain ⟨m, hm, _⟩ := Option.bind_eq_some_iff.mp hs
    obtain ⟨c, hc, hj⟩ := Option.bind_eq_some_iff.mp hm
    obtain ⟨fs, gs, hf, rfl⟩ := split_of_getElem? hc
    obtain ⟨ms, ns, hms, rfl⟩ := split_of_getElem? hj
    have hfits := (not_fits_iff hc hms).mpr (.inr (.inl ⟨k, h⟩))
    exact ⟨fs, c, gs, hf, .inr ⟨ms, m, ns, [k], rfl, hms, hm, hfits⟩⟩

/-- A class is removed for itself or for its constructor, a method for itself. -/
theorem mem_removalPaths_iff {path : NodePath} : path ∈ f.removalPaths ↔
    ∃ fs c gs, f = fs ++ c :: gs ∧
      ((¬ c.site.Met [] ((fs ++ gs).map (·.site)) ∧ path = [fs.length]) ∨
        ∃ ms m ns, c.members = ms ++ m :: ns ∧ ¬ m.Fits c (ms ++ ns) ∧
          path = if m.isMethod then [fs.length, ms.length] else [fs.length]) := by
  rw [mem_removalPaths]
  constructor
  · rintro (⟨p, hp, rfl⟩ | ⟨i, c, hc, j, m, hm, hun, rfl⟩)
    · obtain ⟨fs, c, gs, hf, ⟨rfl, hmet⟩ | ⟨ms, m, ns, rest, rfl, hms, hm, hfits⟩⟩ := split_of_unmet hp
      · exact ⟨fs, c, gs, hf, .inl ⟨hmet, rfl⟩⟩
      · exact ⟨fs, c, gs, hf, .inr ⟨ms, m, ns, hms, hfits, removalPath_member hm rest⟩⟩
    · obtain ⟨fs, gs, hf, rfl⟩ := split_of_getElem? hc
      obtain ⟨ms, ns, hms, rfl⟩ := split_of_getElem? hm
      have hfits := (not_fits_iff hc hms).mpr (.inr (.inr hun))
      exact ⟨fs, c, gs, hf, .inr ⟨ms, m, ns, hms, hfits, by rw [if_pos hun.1]⟩⟩
  · rintro ⟨fs, c, gs, hf, ⟨hmet, rfl⟩ | ⟨ms, m, ns, hms, hfits, rfl⟩⟩
    · refine .inl ⟨[fs.length], Classical.byContradiction fun hun => ?_, rfl⟩
      exact hmet ((class_met_iff hf).mpr hun)
    · have hc : f[fs.length]? = some c := by simp [hf]
      have hj : c.members[ms.length]? = some m := by simp [hms]
      have hm : f.member? fs.length ms.length = some m := by simp [member?, hc, hj]
      rcases (not_fits_iff hc hms).mp hfits with hun | ⟨k, hun⟩ | hun
      · exact .inl ⟨_, hun, removalPath_member hm []⟩
      · exact .inl ⟨_, hun, removalPath_member hm [k]⟩
      · exact .inr ⟨_, c, hc, _, m, hj, hun, by rw [if_pos hun.1]⟩

theorem removals_eq_nil_iff :
    f.removals = [] ↔ ∀ fs c gs, f = fs ++ c :: gs → c.Fits (fs ++ gs) := by
  have hnil : f.removals = [] ↔ ∀ path, path ∉ f.removalPaths := by
    rw [← List.eq_nil_iff_forall_not_mem, removalPaths, List.map_eq_nil_iff]
  rw [hnil]
  constructor
  · intro h fs c gs hf
    -- Constructors and methods alike: whichever path the removal has, there is none.
    have hmember : ∀ ms m ns, c.members = ms ++ m :: ns → m.Fits c (ms ++ ns) := by
      intro ms m ns hms
      refine Classical.byContradiction fun hfits => ?_
      exact h _ (mem_removalPaths_iff.mpr ⟨fs, c, gs, hf, .inr ⟨ms, m, ns, hms, hfits, rfl⟩⟩)
    refine ⟨⟨?_, fun ms m ns hms _ => hmember ms m ns hms⟩, fun ms m ns hms _ => hmember ms m ns hms⟩
    refine Classical.byContradiction fun hmet => ?_
    exact h _ (mem_removalPaths_iff.mpr ⟨fs, c, gs, hf, .inl ⟨hmet, rfl⟩⟩)
  · intro h path hpath
    obtain ⟨fs, c, gs, hf, ⟨hmet, _⟩ | ⟨ms, m, ns, hms, hfits, _⟩⟩ := mem_removalPaths_iff.mp hpath
    · exact hmet (h fs c gs hf).met
    · cases hk : m.isMethod with
      | true => exact hfits ((h fs c gs hf).methods ms m ns hms hk)
      | false => exact hfits ((h fs c gs hf).constructors ms m ns hms hk)

/-- A forest is consistent just if every class has a method and a pass finds nothing wrong. -/
theorem consistent_iff : f.Consistent ↔ (∀ c ∈ f, c.hasMethod = true) ∧ f.removals = [] := by
  rw [removals_eq_nil_iff]
  exact ⟨fun h => ⟨h.hasMethod, h.fits⟩, fun h => ⟨h.1, h.2⟩⟩

theorem not_stands_of_mem {fs gs : Forest} {c : ClassNode}
    (h : [fs.length] ∈ removalPaths (fs ++ c :: gs)) : ¬ c.Stands (fs ++ gs) := by
  obtain ⟨fs', c', gs', hf, hwhy⟩ := mem_removalPaths_iff.mp h
  have hlength : fs.length = fs'.length := by
    rcases hwhy with ⟨_, hpath⟩ | ⟨_, m, _, _, _, hpath⟩
    · simpa using hpath
    · cases hk : m.isMethod with
      | true => simp [hk] at hpath
      | false => simpa [hk] using hpath
  obtain ⟨rfl, hrest⟩ := List.append_inj hf hlength
  obtain ⟨rfl, rfl⟩ := List.cons_eq_cons.mp hrest
  rcases hwhy with ⟨hmet, _⟩ | ⟨ms, m, ns, hms, hfits, hpath⟩
  · exact fun hstands => hmet hstands.met
  · cases hk : m.isMethod with
    | true => simp [hk] at hpath
    | false => exact fun hstands => hfits (hstands.constructors ms m ns hms hk)

theorem not_fits_of_mem {fs gs : Forest} {c : ClassNode} {ms ns : List MemberNode} {m : MemberNode}
    (hms : c.members = ms ++ m :: ns)
    (h : [fs.length, ms.length] ∈ removalPaths (fs ++ c :: gs)) :
    m.isMethod = true ∧ ¬ m.Fits c (ms ++ ns) := by
  obtain ⟨fs', c', gs', hf, ⟨_, hpath⟩ | ⟨ms', m', ns', hms', hfits, hpath⟩⟩ :=
    mem_removalPaths_iff.mp h
  · simp at hpath
  · cases hk : m'.isMethod with
    | false => simp [hk] at hpath
    | true =>
      obtain ⟨hfs, hlength⟩ : fs.length = fs'.length ∧ ms.length = ms'.length := by
        simpa [hk] using hpath
      obtain ⟨rfl, hrest⟩ := List.append_inj hf hfs
      obtain ⟨rfl, rfl⟩ := List.cons_eq_cons.mp hrest
      rw [hms] at hms'
      obtain ⟨rfl, hrest⟩ := List.append_inj hms' hlength
      obtain ⟨rfl, rfl⟩ := List.cons_eq_cons.mp hrest
      exact ⟨hk, hfits⟩

end Forest

end AnnotatedApi
