import AnnotatedApi.Handlers.Prune

/-!
# What pruning leaves

Pruning takes nodes away one after the other, by indices that shift as it goes. What it leaves is what the indices
of the whole forest say: the classes and members that no path names, as they were and in their order, and of these
classes the ones that still have a method.
-/

namespace AnnotatedApi

set_option autoImplicit false

/-- The class at an index of a forest, without the members that are named. -/
def ClassNode.without (paths : List NodePath) (i : Nat) (c : ClassNode) : ClassNode :=
  { c with members := (c.members.zipIdx.filter fun x => [i, x.2] ∉ paths).map (·.1) }

/-- The forest without the classes and members that are named. -/
def Forest.without (f : Forest) (paths : List NodePath) : Forest :=
  (f.zipIdx.filter fun x => [x.2] ∉ paths).map fun x => x.1.without paths x.2

theorem keepFrom_eq_filter {α : Type} (keep : Nat → Bool) (l : List α) (i : Nat) :
    keepFrom keep i l = ((l.zipIdx i).filter fun x => keep x.2).map (·.1) := by
  induction l generalizing i with
  | nil => rfl
  | cons a l ih => cases hkeep : keep i <;> simp [keepFrom, List.zipIdx_cons, hkeep, ih]

namespace Forest

theorem restrictFrom_eq_without (paths : List NodePath) (f : Forest) (i : Nat) :
    restrictFrom (fun p => !paths.contains p) i f =
      ((f.zipIdx i).filter fun x => [x.2] ∉ paths).map fun x => x.1.without paths x.2 := by
  induction f generalizing i with
  | nil => rfl
  | cons c f ih =>
    have hmembers : { c with members := keepFrom (fun j => !paths.contains [i, j]) 0 c.members } =
        c.without paths i := by
      simp [ClassNode.without, keepFrom_eq_filter]
    rw [restrictFrom, ih, hmembers, List.zipIdx_cons]
    by_cases hnamed : [i] ∈ paths <;> simp [hnamed]

/-- Pruning deletes the classes and members that some path names and then the classes that are left without a
method, whatever the order of the paths is, how often one is there, and whether one leads into a class that is
named itself. All else stays as it was and in its order; a path that leads nowhere deletes nothing. -/
theorem prune_eq_without (f : Forest) (paths : List NodePath) (h : [] ∉ paths) :
    f.prune paths = (f.without paths).filter (·.hasMethod) := by
  rw [prune_eq f paths h, restrictFrom_eq_without, without]

/-- A class with some methods, behind a constructor or not. -/
def classOf (name : String) (constructed : Bool) (methods : List String) : ClassNode :=
  let site (name : String) : Site := ⟨name, .nowhere, [], []⟩
  let constructor : MemberNode := ⟨.constructor, site "constructor", []⟩
  ⟨site name, "m.ts#" ++ name, (if constructed then [constructor] else []) ++
    methods.map fun name => ⟨.method (.primitive .void) none, site name, []⟩⟩

/-- Of three classes, the first loses its second method, which is named twice; the second goes as a whole; and of
the last one only the constructor is left, so that it goes too. -/
theorem prune_eq_without_shifting :
    let f := [classOf "A" true ["a", "b", "c"], classOf "B" false ["d", "e"], classOf "C" true ["g"]]
    let paths : List NodePath := [[2, 1], [1], [0, 2], [1, 1], [0, 2]]
    (∀ p ∈ paths, HasPlace f p) ∧ [] ∉ paths ∧ prune f paths = [classOf "A" true ["a", "c"]] := by
  intro f paths
  have hplaces : ∀ p ∈ paths, HasPlace f p := by simp [paths, f, HasPlace, member?, classOf]
  have hnil : [] ∉ paths := fun hmem => hplaces [] hmem
  exact ⟨hplaces, hnil, (prune_eq_without f paths hnil).trans rfl⟩

end Forest

end AnnotatedApi
