import AnnotatedApi.Extraction
import AnnotatedApi.Proofs.Handlers.Walk

/-!
# Annotations that the catalog does not know

An annotation that the catalog does not know might as well not be there. There is one place where it
counts: an annotated parameter of a constructor is taken for an injection site, whatever its
annotations are. Where each such parameter has an annotation that the catalog knows, a run is the same
with and without the others.
-/

namespace AnnotatedApi

set_option autoImplicit false

open Annotation (Catalog Target Use)

/-! ## Erasing -/

/-- The annotations that the catalog knows. -/
def Annotation.Catalog.recognized (catalog : Catalog) (uses : List Use) : List Use :=
  uses.filter fun use => catalog.contains use.name

variable (catalog : Catalog)

def ParameterDecl.erased (p : ParameterDecl) : ParameterDecl :=
  { p with annotations := catalog.recognized p.annotations }

def MethodDecl.erased (m : MethodDecl) : MethodDecl :=
  { m with
    annotations := catalog.recognized m.annotations
    parameters := m.parameters.map (·.erased catalog) }

def ConstructorDecl.erased (k : ConstructorDecl) : ConstructorDecl :=
  { k with parameters := k.parameters.map (·.erased catalog) }

/-- The class without the annotations that the catalog does not know. -/
def ClassDecl.erased (c : ClassDecl) : ClassDecl :=
  { c with
    annotations := catalog.recognized c.annotations
    constructor := c.constructor.map (·.erased catalog)
    methods := c.methods.map (·.erased catalog) }

def Extractor.erased (e : Extractor) : Extractor :=
  { e with classes := e.classes.map (·.erased e.catalog) }

/-- Whether the catalog knows an annotation of every annotated parameter of the constructor. -/
def ClassDecl.SitesRecognized (c : ClassDecl) : Prop :=
  ∀ k ∈ c.constructor, ∀ p ∈ k.parameters,
    p.annotations ≠ [] → catalog.recognized p.annotations ≠ []

instance (c : ClassDecl) : Decidable (c.SitesRecognized catalog) :=
  inferInstanceAs <| Decidable <| ∀ k ∈ c.constructor, ∀ p ∈ k.parameters,
    p.annotations ≠ [] → catalog.recognized p.annotations ≠ []

/-! ## Walking erased classes -/

namespace Walk

variable {catalog} (depth : Nat)

theorem sortUses_recognized (target : Target) (seen : List String) (uses : List Use) :
    sortUses catalog target seen (catalog.recognized uses) = sortUses catalog target seen uses := by
  induction uses generalizing seen with
  | nil => rfl
  | cons use rest ih =>
    cases hlookup : catalog.lookup use.name with
    | none =>
      have hunknown : catalog.recognized (use :: rest) = catalog.recognized rest := by
        rw [Catalog.recognized, List.filter_cons_of_neg (by simp [Catalog.contains, hlookup])]
        rfl
      rw [hunknown, ih, sortUses, hlookup]
    | some d =>
      have hknown : catalog.recognized (use :: rest) = use :: catalog.recognized rest :=
        List.filter_cons_of_pos (by simp [Catalog.contains, hlookup])
      rw [hknown, sortUses, sortUses, hlookup]
      simp only [ih]

theorem applyUses_recognized (target : Target) (uses : List Use) :
    applyUses catalog target (catalog.recognized uses) = applyUses catalog target uses := by
  rw [applyUses, applyUses, sortUses_recognized]

theorem parameter_erased (owner : String) (position : Nat) (p : ParameterDecl) (target : Target) :
    parameter catalog depth owner position (p.erased catalog) target =
      parameter catalog depth owner position p target := by
  have happly : applyUses catalog target (p.erased catalog).annotations =
      applyUses catalog target p.annotations := applyUses_recognized target p.annotations
  rw [parameter, parameter, happly]
  rfl

theorem mapM_map {α β γ : Type} (g : α → β) (f : β → Walking γ) (l : List α) :
    (l.map g).mapM f = l.mapM fun a => f (g a) := by
  induction l with
  | nil => rfl
  | cons a l ih => rw [List.map_cons, List.mapM_cons, List.mapM_cons, ih]

theorem parameters_erased (owner : String) (target : Target) (ps : List (ParameterDecl × Nat)) :
    parameters catalog depth owner target (ps.map (Prod.map (·.erased catalog) id)) =
      parameters catalog depth owner target ps := by
  rw [parameters, parameters, mapM_map]
  simp only [Prod.map_fst, Prod.map_snd, id_eq, parameter_erased]

theorem hasRoute_erased (m : MethodDecl) : hasRoute catalog (m.erased catalog) = hasRoute catalog m := by
  rw [hasRoute, hasRoute, MethodDecl.erased, Catalog.recognized, List.any_filter]
  refine congrArg m.annotations.any (funext fun use => ?_)
  cases h : catalog.lookup use.name <;> simp [Catalog.contains, h]

theorem methodParameters_erased (handler : String) (m : MethodDecl) :
    methodParameters catalog depth handler (m.erased catalog) =
      methodParameters catalog depth handler m := by
  rw [methodParameters, methodParameters, MethodDecl.erased, List.zipIdx_map, mapM_map]
  simp only [Prod.map_fst, Prod.map_snd, id_eq, parameter_erased]

theorem method_erased (c : ClassDecl) (m : MethodDecl) :
    method catalog depth (c.erased catalog) (m.erased catalog) = method catalog depth c m := by
  have happly : applyUses catalog .method (m.erased catalog).annotations =
      applyUses catalog .method m.annotations := applyUses_recognized .method m.annotations
  have hreturn : ∀ handler, returnType depth handler (m.erased catalog) =
      returnType depth handler m := fun _ => rfl
  unfold method
  simp only [happly, hreturn, methodParameters_erased]
  rfl

/-- Where every annotated parameter has a recognized annotation, the same parameters are annotated
after erasing. -/
theorem filter_annotated_erased {ps : List (ParameterDecl × Nat)}
    (h : ∀ p ∈ ps, p.1.annotations ≠ [] → catalog.recognized p.1.annotations ≠ []) :
    (ps.map (Prod.map (·.erased catalog) id)).filter (!·.1.annotations.isEmpty) =
      (ps.filter (!·.1.annotations.isEmpty)).map (Prod.map (·.erased catalog) id) := by
  rw [List.filter_map]
  refine congrArg _ (List.filter_congr fun p hp => ?_)
  cases hempty : p.1.annotations with
  | nil => simp [ParameterDecl.erased, Catalog.recognized, hempty]
  | cons use rest =>
    have hsome := h p hp (by simp [hempty])
    simpa [ParameterDecl.erased, hempty] using hsome

theorem constructor_erased (c : ClassDecl) (h : c.SitesRecognized catalog) :
    constructor catalog depth (c.erased catalog) = constructor catalog depth c := by
  unfold constructor
  cases hk : c.constructor with
  | none => simp only [ClassDecl.erased, hk, Option.map_none]
  | some k =>
    have hsites : ∀ p ∈ k.parameters.zipIdx,
        p.1.annotations ≠ [] → catalog.recognized p.1.annotations ≠ [] :=
      fun p hp => h k hk p.1 (List.fst_mem_of_mem_zipIdx hp)
    simp only [ClassDecl.erased, hk, Option.map_some, ConstructorDecl.erased, List.zipIdx_map,
      filter_annotated_erased hsites, parameters_erased]

theorem members_erased (c : ClassDecl) (h : c.SitesRecognized catalog) (routed : List MethodDecl)
    (annotations : List Applied) :
    members catalog depth (c.erased catalog) (routed.map (·.erased catalog)) annotations =
      members catalog depth c routed annotations := by
  unfold members
  simp only [constructor_erased depth c h, mapM_map, method_erased]
  rfl

theorem classTree_erased (c : ClassDecl)
    (h : c.methods.any (hasRoute catalog) = true → c.SitesRecognized catalog) :
    classTree catalog depth (c.erased catalog) = classTree catalog depth c := by
  have hrouted : (c.erased catalog).methods.filter (hasRoute catalog) =
      (c.methods.filter (hasRoute catalog)).map (·.erased catalog) := by
    simp only [ClassDecl.erased, List.filter_map, Function.comp_def, hasRoute_erased]
  have happly : applyUses catalog .classDeclaration (c.erased catalog).annotations =
      applyUses catalog .classDeclaration c.annotations :=
    applyUses_recognized .classDeclaration c.annotations
  unfold classTree
  simp only [hrouted, happly, List.isEmpty_map]
  by_cases hany : c.methods.any (hasRoute catalog) = true
  · simp only [members_erased depth c (h hany)]
  · have hempty : (c.methods.filter (hasRoute catalog)).isEmpty = true := by
      simpa [List.isEmpty_iff, List.filter_eq_nil_iff] using hany
    rw [if_pos hempty, if_pos hempty]

theorem forest_erased (classes : List ClassDecl)
    (h : ∀ c ∈ classes, c.methods.any (hasRoute catalog) = true → c.SitesRecognized catalog) :
    forest catalog depth (classes.map (·.erased catalog)) = forest catalog depth classes := by
  have hmapM : (classes.map (·.erased catalog)).mapM (classTree catalog depth) =
      classes.mapM (classTree catalog depth) := by
    induction classes with
    | nil => rfl
    | cons c rest ih =>
      rw [List.map_cons, List.mapM_cons, List.mapM_cons,
        classTree_erased depth c (h c (List.mem_cons_self ..)),
        ih fun c' hc' => h c' (List.mem_cons_of_mem _ hc')]
  rw [forest, forest, hmapM]

/-! ## Injection sites without a recognized annotation -/

theorem applyUses_of_recognized_nil {uses : List Use} (h : catalog.recognized uses = [])
    (target : Target) : applyUses catalog target uses = ⟨some [], []⟩ := by
  rw [← applyUses_recognized, h]
  rfl

/-- The report that a parameter has no binding. -/
def unbound (owner : String) (p : ParameterDecl) : Diagnostic :=
  (Diagnostic.error .missingBinding
      ("parameter `" ++ p.name ++ "` of `" ++ owner ++ "` has no binding annotation")
      p.span).withSuggestion
    "bind it with @Query, @Path, @Header, @Body, or @Inject"

theorem parameter_of_recognized_nil {p : ParameterDecl} (h : catalog.recognized p.annotations = [])
    (owner : String) (position : Nat) (target : Target) :
    parameter catalog depth owner position p target = pure ⟨none, [unbound owner p]⟩ := by
  rw [parameter, applyUses_of_recognized_nil h]
  rfl

theorem mapM_value_eq_none {α : Type} {verdicts : List (Verdict α)} {v : Verdict α}
    (hv : v ∈ verdicts) (hnone : v.value = none) : verdicts.mapM (·.value) = none := by
  induction verdicts with
  | nil => cases hv
  | cons v' rest ih =>
    rw [List.mapM_cons]
    rcases List.mem_cons.mp hv with rfl | hv
    · rw [hnone]
      rfl
    · rw [ih hv]
      cases v'.value <;> rfl

variable {R : Resolver → Prop} {A : Abort → Prop}

theorem constructor_of_recognized_nil (hres : ResolvesWithin depth R A) {c : ClassDecl}
    {k : ConstructorDecl} (hk : k ∈ c.constructor) {p : ParameterDecl} (hp : p ∈ k.parameters)
    (hannotated : p.annotations ≠ []) (hunknown : catalog.recognized p.annotations = []) :
    Keeps R (constructor catalog depth c)
      (fun v => v.value = none ∧ unbound (c.name ++ ".constructor") p ∈ v.diagnostics) A := by
  obtain ⟨position, hposition⟩ := List.mem_iff_getElem?.mp hp
  have hsite : (p, position) ∈ k.parameters.zipIdx.filter (!·.1.annotations.isEmpty) :=
    List.mem_filter.mpr ⟨List.mk_mem_zipIdx_iff_getElem?.mpr hposition, by simpa using hannotated⟩
  have hverdict : ∀ site : ParameterDecl × Nat, Keeps R
      (parameter catalog depth (c.name ++ ".constructor") site.2 site.1 .constructorParameter)
      (fun v => site = (p, position) → v = ⟨none, [unbound (c.name ++ ".constructor") p]⟩) A := by
    intro site
    by_cases heq : site = (p, position)
    · subst heq
      rw [parameter_of_recognized_nil depth hunknown]
      exact .pure fun _ => rfl
    · exact (parameter_keeps hres _ _ _ _).weaken fun _ _ h => absurd h heq
  unfold constructor
  rw [Option.mem_def.mp hk]
  refine Keeps.bind (Q := fun v => v.value = none ∧
    unbound (c.name ++ ".constructor") p ∈ v.diagnostics) ?_ fun v hv => ?_
  · refine (Keeps.mapM _ fun site _ => hverdict site).bind fun verdicts hverdicts => .pure ?_
    obtain ⟨v, hv, hlost⟩ := exists_of_mem_right hverdicts.flip hsite
    obtain rfl := hlost rfl
    exact ⟨mapM_value_eq_none hv rfl, List.mem_flatMap.mpr ⟨_, hv, List.mem_singleton.mpr rfl⟩⟩
  · obtain ⟨value, faults⟩ := v
    obtain ⟨rfl, hmem⟩ := hv
    exact .pure ⟨rfl, hmem⟩

/-- Any annotation makes a parameter of a constructor an injection site. Where the catalog knows none
of them, a class that is looked at is lost, and the parameter is reported to have no binding. -/
theorem classTree_of_recognized_nil (hres : ResolvesWithin depth R A) {c : ClassDecl}
    (hroute : c.methods.any (hasRoute catalog) = true)
    (hclass : (applyUses catalog .classDeclaration c.annotations).value.isSome = true)
    {k : ConstructorDecl} (hk : k ∈ c.constructor) {p : ParameterDecl} (hp : p ∈ k.parameters)
    (hannotated : p.annotations ≠ []) (hunknown : catalog.recognized p.annotations = []) :
    Keeps R (classTree catalog depth c)
      (fun v => v.value = none ∧ unbound (c.name ++ ".constructor") p ∈ v.diagnostics) A := by
  have hrouted : (c.methods.filter (hasRoute catalog)).isEmpty = false := by
    obtain ⟨m, hm, hverb⟩ := List.any_eq_true.mp hroute
    exact List.isEmpty_eq_false_iff_exists_mem.mpr ⟨m, List.mem_filter.mpr ⟨hm, hverb⟩⟩
  unfold classTree
  dsimp only
  rw [hrouted]
  generalize applyUses catalog .classDeclaration c.annotations = applied at hclass ⊢
  obtain ⟨applied, faults⟩ := applied
  obtain ⟨annotations, rfl⟩ := Option.isSome_iff_exists.mp hclass
  refine (constructor_of_recognized_nil depth hres hk hp hannotated hunknown).bind fun v hv => ?_
  obtain ⟨value, faults⟩ := v
  obtain ⟨rfl, hmem⟩ := hv
  exact .pure ⟨rfl, hmem⟩

end Walk

/-! ## Extraction -/

namespace Extractor

theorem walk_erased (e : Extractor) (depth : Nat) (h : ∀ c ∈ e.classes,
      c.methods.any (Walk.hasRoute e.catalog) = true → c.SitesRecognized e.catalog) :
    e.erased.walk depth = ((e.walk depth).1, (e.walk depth).2.erased) := by
  have hforest : Walk.forest e.erased.catalog depth e.erased.classes e.erased.resolver =
      Walk.forest e.catalog depth e.classes e.resolver :=
    congrFun (Walk.forest_erased depth e.classes h) e.resolver
  unfold walk
  rw [hforest]
  cases Walk.forest e.catalog depth e.classes e.resolver <;> rfl

/-- Extraction passes over the annotations that the catalog does not know: if each annotated parameter
of a constructor has one that it knows, in the classes with route methods, then a run comes to the
same without the others, and leaves the same resolver behind. -/
theorem run_erased (e : Extractor) (depth : Nat) (h : ∀ c ∈ e.classes,
      c.methods.any (Walk.hasRoute e.catalog) = true → c.SitesRecognized e.catalog) :
    e.erased.run depth = ((e.run depth).1, (e.run depth).2.erased) := by
  unfold run
  rw [e.walk_erased depth h]
  cases e.walk depth with
  | mk result e' => cases result <;> rfl

/-- A class with one route method and an injection site, whose annotations are given; the class itself
and the method have an annotation that the catalog does not know. -/
def traced (site : List Use) : Extractor :=
  let span : Span := ⟨"m.ts", .zero, .zero⟩
  .fresh .standard
    [⟨"C", "m.ts#C", [⟨"Traced", [], span⟩],
      some ⟨[⟨"log", site, some (.reference "Log" []), false, none, none, span⟩], span⟩,
      [⟨"hello", [⟨"Traced", [], span⟩, ⟨"Get", [], span⟩], [], none, none, span⟩], span⟩] [] .default

theorem run_erased_traced :
    let span : Span := ⟨"m.ts", .zero, .zero⟩
    let e := traced [⟨"Traced", [], span⟩, ⟨"Inject", [], span⟩]
    (∀ c ∈ e.classes,
        c.methods.any (Walk.hasRoute e.catalog) = true → c.SitesRecognized e.catalog) ∧
      e.erased.run 1 = ((e.run 1).1, (e.run 1).2.erased) :=
  ⟨by decide +kernel, run_erased _ 1 (by decide +kernel)⟩

/-- With no other annotation on the injection site, the one that the catalog does not know costs the
class. -/
theorem run_traced_unrecognized :
    let e := traced [⟨"Traced", [], ⟨"m.ts", .zero, .zero⟩⟩]
    (e.run 1).1.toOption.map (·.operations.length) = some 0 ∧
      (e.erased.run 1).1.toOption.map (·.operations.length) = some 1 := by
  decide +kernel

end Extractor

end AnnotatedApi
