import AnnotatedApi.Diagnostic
import AnnotatedApi.Handlers.Prune

/-!
# Linking the forest

An annotation may need something around its declaration or beside it. Linking finds for every such
dependency the nearest node that satisfies it. Where there is none, the method around the
declaration goes, or the class if the declaration is no part of a method; a method goes too if it
binds a path parameter that its route does not have. What goes may have been needed by others, so
linking starts again on what is left, until a pass finds nothing wrong.
-/

namespace AnnotatedApi

set_option autoImplicit false

/-- What a dependency asks for. -/
inductive Requirement where
  | annotated (name : String)
  | provider (tag : String)
  | declaration (name : String)
deriving DecidableEq, Repr

namespace Requirement

def display : Requirement → String
  | annotated name => "a declaration annotated @" ++ name
  | provider tag => "provider `" ++ tag ++ "`"
  | declaration name => "declaration `" ++ name ++ "`"

/-- What a dependency of an annotation asks for; nothing if it reads an argument that is not there
or no name. -/
def of? (a : Applied) (d : Annotation.Dependency) : Option Requirement :=
  match d.target with
  | .annotated name => some (annotated name)
  | .provider tag => some (provider tag)
  | .providerArgument position => (a.textArgument? position).map provider
  | .declarationArgument position => (a.textArgument? position).map declaration

/-- Whether a node satisfies the requirement. A parameter answers to its declared name and to its
name outside the program. -/
def satisfiedBy (r : Requirement) (s : Site) : Bool :=
  match r with
  | annotated name => s.isAnnotated name
  | provider tag => s.provides.contains tag
  | declaration name => s.name == name || s.bindingName == name

end Requirement

/-- A satisfied dependency: the node that has it, the node that satisfies it, and the annotation
that declares it. -/
structure Link where
  source : NodePath
  target : NodePath
  annotationName : String
  requirement : Requirement
deriving DecidableEq, Repr

/-- Something that cannot stay, and why. -/
structure Removal where
  path : NodePath
  diagnostic : Diagnostic

/-- A forest in which every dependency is satisfied, and how. -/
structure LinkedForest where
  forest : Forest
  links : List Link

namespace Forest

/-! ## Searching -/

/-- How many nodes stand beside the node at a path, itself included. -/
def siblingCount (f : Forest) : NodePath → Nat
  | [_] => f.length
  | [i, _] => (f[i]?.map (·.members.length)).getD 0
  | [i, j, _] => ((f.member? i j).map (·.parameters.length)).getD 0
  | _ => 0

/-- The paths around a path, the innermost first. -/
def enclosing (path : NodePath) : List NodePath :=
  ((List.range' 1 (path.length - 1)).map path.take).reverse

def peers (f : Forest) (path : NodePath) : List NodePath :=
  ((List.range (f.siblingCount path)).map fun i => path.dropLast ++ [i]).filter (· != path)

/-- The paths in which a dependency of the node at a path is searched for, the nearest first. -/
def candidates (f : Forest) (path : NodePath) : Annotation.Scope → List NodePath
  | .enclosing => enclosing path
  | .peer => f.peers path

def target? (f : Forest) (path : NodePath) (scope : Annotation.Scope) (r : Requirement) :
    Option NodePath :=
  (f.candidates path scope).find? fun p => (f.site? p).any r.satisfiedBy

/-! ## One pass -/

/-- The method around the node at a path, or the class. -/
def removalPath (f : Forest) (path : NodePath) : NodePath :=
  match path with
  | i :: j :: _ => if (f.member? i j).any (·.isMethod) then [i, j] else [i]
  | path => path

theorem removalPath_member {f : Forest} {i j : Nat} {m : MemberNode} (h : f.member? i j = some m)
    (rest : NodePath) :
    f.removalPath (i :: j :: rest) = if m.isMethod then [i, j] else [i] := by
  simp [removalPath, h]

theorem hasPlace_removalPath {f : Forest} {p : NodePath} {s : Site} (h : f.site? p = some s) :
    f.HasPlace (f.removalPath p) := by
  have hmember : ∀ i j m rest, f.member? i j = some m →
      f.HasPlace (f.removalPath (i :: j :: rest)) := by
    intro i j m rest hm
    obtain ⟨c, hc, _⟩ := Option.bind_eq_some_iff.mp hm
    rw [removalPath_member hm]
    split
    · exact ⟨m, hm⟩
    · exact ⟨c, hc⟩
  match p with
  | [i] =>
    obtain ⟨c, hc, _⟩ := Option.map_eq_some_iff.mp h
    exact ⟨c, hc⟩
  | [i, j] =>
    obtain ⟨m, hm, _⟩ := Option.map_eq_some_iff.mp h
    exact hmember i j m [] hm
  | [i, j, k] =>
    obtain ⟨m, hm, _⟩ := Option.bind_eq_some_iff.mp h
    exact hmember i j m [k] hm

def describe (f : Forest) (path : NodePath) : String :=
  let names := (List.range' 1 path.length).filterMap fun d => (f.site? (path.take d)).map (·.name)
  match names with
  | [] => path.display
  | [c] => c
  | [c, m] => c ++ "." ++ m
  | c :: m :: p :: _ => c ++ "." ++ m ++ "(" ++ p ++ ")"

def scopeText : Annotation.Scope → String
  | .enclosing => "in an enclosing declaration"
  | .peer => "among its peers"

def unsatisfied (f : Forest) (path : NodePath) (a : Applied) (scope : Annotation.Scope)
    (r : Requirement) : Removal :=
  ⟨f.removalPath path,
    Diagnostic.error .dependencyResolution
      ("@" ++ a.name ++ " on `" ++ f.describe path ++ "` requires " ++ r.display ++ " " ++
        scopeText scope ++ ", but none was found") a.span⟩

def resolveDependency (f : Forest) (path : NodePath) (a : Applied) (d : Annotation.Dependency) :
    Option (Except Removal Link) :=
  (Requirement.of? a d).map fun r =>
    match f.target? path d.scope r with
    | some target => .ok ⟨path, target, a.name, r⟩
    | none => .error (f.unsatisfied path a d.scope r)

def dependencyResults (f : Forest) : List (Except Removal Link) :=
  f.sites.flatMap fun (path, s) =>
    s.annotations.flatMap fun a =>
      a.definition.dependencies.filterMap (f.resolveDependency path a)

def links (f : Forest) : List Link := f.dependencyResults.filterMap Except.toOption

def dependencyRemovals (f : Forest) : List Removal :=
  f.dependencyResults.filterMap fun
    | .error removal => some removal
    | .ok _ => none

def pathBinding? (p : ParameterNode) : Option Applied :=
  match p.site.binding? with
  | some (.path, a) => some a
  | _ => none

def unroutable (c : ClassNode) (m : MemberNode) (path : NodePath) (p : ParameterNode)
    (a : Applied) : Removal :=
  let name := p.site.bindingName
  ⟨path,
    (Diagnostic.error .dependencyResolution
      ("path parameter `" ++ name ++ "` of `" ++ c.site.name ++ "." ++ m.site.name ++
        "` does not appear in route `" ++ c.routeOf m ++ "`") a.span).withSuggestion
      ("add `\x7b" ++ name ++ "\x7d` to the route")⟩

/-- The removals of one method for its path parameters that are no tokens of its route. -/
def pathRemovals (c : ClassNode) (m : MemberNode) (path : NodePath) : List Removal :=
  let tokens := Route.tokens (c.routeOf m)
  m.parameters.filterMap fun p =>
    match pathBinding? p with
    | none => none
    | some a => if tokens.contains p.site.bindingName then none else some (unroutable c m path p a)

/-- All that a pass finds wrong: dependencies first, then path parameters. -/
def removals (f : Forest) : List Removal :=
  f.dependencyRemovals ++
    f.zipIdx.flatMap fun (c, i) => c.methods.flatMap fun (m, j) => pathRemovals c m [i, j]

/-! ## All passes -/

/-- Warnings about route tokens that no parameter is bound to. -/
def unusedTokenWarnings (f : Forest) : List Diagnostic :=
  f.flatMap fun c =>
    c.methods.flatMap fun (m, _) =>
      let route := c.routeOf m
      let bound := (m.parameters.filter fun p => (pathBinding? p).isSome).map (·.site.bindingName)
      ((Route.tokens route).filter (!bound.contains ·)).map fun token =>
        Diagnostic.warning
          ("route `" ++ route ++ "` of `" ++ c.site.name ++ "." ++ m.site.name ++
            "` has no parameter bound to `\x7b" ++ token ++ "\x7d`") m.site.span

theorem mem_dependencyRemovals {f : Forest} {r : Removal} :
    r ∈ f.dependencyRemovals ↔ ∃ p s, f.site? p = some s ∧ ∃ a ∈ s.annotations,
      ∃ d ∈ a.definition.dependencies, ∃ q, Requirement.of? a d = some q ∧
        f.target? p d.scope q = none ∧ r = f.unsatisfied p a d.scope q := by
  simp only [dependencyRemovals, dependencyResults, List.mem_filterMap, List.mem_flatMap,
    Prod.exists, mem_sites, resolveDependency, Option.map_eq_some_iff]
  constructor
  · rintro ⟨result, ⟨p, s, hs, a, ha, d, hd, q, hq, rfl⟩, hr⟩
    refine ⟨p, s, hs, a, ha, d, hd, q, hq, ?_⟩
    cases ht : f.target? p d.scope q with
    | some target => simp [ht] at hr
    | none => exact ⟨rfl, by simpa [ht, eq_comm] using hr⟩
  · rintro ⟨p, s, hs, a, ha, d, hd, q, hq, ht, rfl⟩
    exact ⟨_, ⟨p, s, hs, a, ha, d, hd, q, hq, rfl⟩, by simp [ht]⟩

theorem mem_pathRemovals {c : ClassNode} {m : MemberNode} {path : NodePath} {r : Removal} :
    r ∈ pathRemovals c m path ↔ ∃ p ∈ m.parameters, ∃ a, pathBinding? p = some a ∧
      p.site.bindingName ∉ Route.tokens (c.routeOf m) ∧ r = unroutable c m path p a := by
  simp only [pathRemovals, List.mem_filterMap]
  refine exists_congr fun p => and_congr_right fun _ => ?_
  cases hb : pathBinding? p with
  | none => simp
  | some a =>
    by_cases ht : p.site.bindingName ∈ Route.tokens (c.routeOf m) <;> simp [ht, eq_comm]

theorem mem_removals {f : Forest} {r : Removal} :
    r ∈ f.removals ↔ r ∈ f.dependencyRemovals ∨ ∃ i c, f[i]? = some c ∧ ∃ j m,
      c.members[j]? = some m ∧ m.isMethod = true ∧ r ∈ pathRemovals c m [i, j] := by
  simp only [removals, List.mem_append, List.mem_flatMap, Prod.exists, ClassNode.methods,
    List.mem_filter, List.mk_mem_zipIdx_iff_getElem?]
  refine or_congr_right ⟨?_, ?_⟩
  · rintro ⟨c, i, hc, m, j, ⟨hm, hk⟩, h⟩
    exact ⟨i, c, hc, j, m, hm, hk, h⟩
  · rintro ⟨i, c, hc, j, m, hm, hk, h⟩
    exact ⟨c, i, hc, m, j, ⟨hm, hk⟩, h⟩

theorem hasPlace_of_mem_removals {f : Forest} {r : Removal} (h : r ∈ f.removals) :
    f.HasPlace r.path := by
  rcases mem_removals.mp h with h | ⟨i, c, hc, j, m, hm, _, h⟩
  · obtain ⟨p, s, hs, a, _, d, _, q, _, _, rfl⟩ := mem_dependencyRemovals.mp h
    exact hasPlace_removalPath hs
  · obtain ⟨p, _, a, _, _, rfl⟩ := mem_pathRemovals.mp h
    exact ⟨m, by simp [member?, hc, hm]⟩

theorem size_prune_removals_lt {f : Forest} (h : f.removals ≠ []) :
    (f.prune (f.removals.map (·.path))).size < f.size := by
  refine size_prune_lt f _ (fun p hp => ?_) (by simpa using h)
  obtain ⟨r, hr, rfl⟩ := List.mem_map.mp hp
  exact hasPlace_of_mem_removals hr

/-- Links a forest, with all there is to report. A pass that finds something wrong is followed by
another on what is left of the forest. -/
def link (f : Forest) : LinkedForest × List Diagnostic :=
  if f.removals = [] then (⟨f, f.links⟩, f.unusedTokenWarnings)
  else (f.prune (f.removals.map (·.path))).link.map id (f.removals.map (·.diagnostic) ++ ·)
termination_by f.size
decreasing_by exact size_prune_removals_lt ‹_›

end Forest

namespace LinkedForest

def linksFrom (l : LinkedForest) (path : NodePath) : List Link :=
  l.links.filter (·.source == path)

/-- The links of the nodes at or below a path. -/
def linksWithin (l : LinkedForest) (path : NodePath) : List Link :=
  l.links.filter (·.source.isWithin path)

end LinkedForest

end AnnotatedApi
