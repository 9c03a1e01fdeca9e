import AnnotatedApi.Api.Manifest
import AnnotatedApi.Handlers.Walk
import AnnotatedApi.Proofs.Extraction.Accounting
import AnnotatedApi.Proofs.Keeping
import AnnotatedApi.Proofs.Lists

/-!
# The walk accounts for every method

A parameter or a method has a node just if there is no error to report about it, and a class that is
dropped leaves an error behind for each of its methods or for itself. So the forest of some classes
has all their route methods unless an error is reported. All that the walk needs to know of types is
that their resolution keeps an invariant of the resolver.
-/

namespace AnnotatedApi

set_option autoImplicit false

/-! ## Handlers -/

/-- The methods of a class with a route annotation, as handlers with their places. -/
def ClassDecl.handlers (catalog : Annotation.Catalog) (c : ClassDecl) : List (Api.Handler × Span) :=
  (c.methods.filter (Walk.hasRoute catalog)).map fun m => (⟨c.name, c.qualifiedName, m.name⟩, m.span)

/-- The methods of a tree, as handlers with their places. -/
def ClassNode.handlers (c : ClassNode) : List (Api.Handler × Span) :=
  (c.members.filter MemberNode.isMethod).map fun m =>
    (⟨c.site.name, c.qualifiedName, m.site.name⟩, m.site.span)

/-- The methods of a tree with the handlers that they are. -/
def ClassNode.handled (c : ClassNode) : List (Api.Handler × MemberNode) :=
  (c.members.filter MemberNode.isMethod).map fun m => (⟨c.site.name, c.qualifiedName, m.site.name⟩, m)

/-- A tree with a method, of which every method has a verb. -/
structure ClassNode.Routed (c : ClassNode) : Prop where
  hasMethod : c.hasMethod = true
  verb : ∀ m ∈ c.members, m.isMethod = true → m.site.verb?.isSome = true

/-! ## Verdicts -/

variable {α : Type}

/-- A verdict that gives a result and has nothing to report, or withholds it and reports an error. -/
inductive Verdict.Decided (P : α → Prop) : Verdict α → Prop where
  | given {a : α} : P a → Decided P ⟨some a, []⟩
  | withheld {ds : List Diagnostic} : anyError ds = true → Decided P ⟨none, ds⟩

theorem Verdict.Decided.grave {P : α → Prop} {v : Verdict α} (h : v.Decided P) :
    Grave v.diagnostics := by
  cases h with
  | given _ => exact .inl rfl
  | withheld he => exact .inr he

theorem Verdict.Decided.mono {P Q : α → Prop} {v : Verdict α} (h : v.Decided P)
    (hPQ : ∀ a, P a → Q a) : v.Decided Q := by
  cases h with
  | given ha => exact .given (hPQ _ ha)
  | withheld he => exact .withheld he

theorem Verdict.Decided.alone {fault : Diagnostic} {P : α → Prop} (h : fault.isError = true) :
    Verdict.Decided P ⟨none, [fault]⟩ :=
  .withheld (anyError_of_mem (List.mem_singleton.mpr rfl) h)

namespace Walk

open Annotation (Catalog Target Use)

/-! ## Annotations -/

section Annotations

variable {catalog : Catalog} {target : Target}

theorem isError_of_useFault? {seen : List String} {d : Annotation.Definition} {use : Use}
    {fault : Diagnostic} (h : useFault? target seen d use = some fault) : fault.isError = true := by
  unfold useFault? at h
  split at h
  · cases h
    rfl
  · split at h
    · cases h
      rfl
    · split at h
      · cases h
      · cases h
        rfl

theorem isError_of_mem_sortUses {seen : List String} {uses : List Use} {fault : Diagnostic}
    (h : fault ∈ (sortUses catalog target seen uses).2) : fault.isError = true := by
  induction uses generalizing seen with
  | nil => simp [sortUses] at h
  | cons use rest ih =>
    unfold sortUses at h
    split at h
    · exact ih h
    · dsimp only at h
      split at h
      · rename_i hfault
        rcases List.mem_cons.mp h with rfl | h
        · exact isError_of_useFault? hfault
        · exact ih h
      · exact ih h

/-- An annotation as it is applied if the catalog has a definition for it. -/
def recognize? (catalog : Catalog) (use : Use) : Option Applied :=
  (catalog.lookup use.name).map fun d => ⟨d, use.arguments, use.span⟩

/-- Where no annotation has a fault, all that are recognized are applied. -/
theorem sortUses_eq {seen : List String} {uses : List Use}
    (hnil : (sortUses catalog target seen uses).2 = []) :
    (sortUses catalog target seen uses).1 = uses.filterMap (recognize? catalog) := by
  induction uses generalizing seen with
  | nil => rfl
  | cons use rest ih =>
    unfold sortUses at hnil ⊢
    cases hlookup : catalog.lookup use.name with
    | none =>
      simp only [hlookup] at hnil ⊢
      rw [List.filterMap_cons_none (by rw [recognize?, hlookup, Option.map_none]), ih hnil]
    | some d =>
      simp only [hlookup] at hnil ⊢
      cases hfault : useFault? target seen d use with
      | some fault => simp [hfault] at hnil
      | none =>
        simp only [hfault] at hnil ⊢
        rw [List.filterMap_cons_some (by rw [recognize?, hlookup, Option.map_some]), ih hnil]

theorem applyUses_decided (uses : List Use) : (applyUses catalog target uses).Decided
    (· = uses.filterMap (recognize? catalog)) := by
  unfold applyUses
  dsimp only
  cases hfaults : (sortUses catalog target [] uses).2 with
  | nil => exact .given (sortUses_eq hfaults)
  | cons fault faults =>
    have hmem : fault ∈ (sortUses catalog target [] uses).2 := by simp [hfaults]
    exact .withheld (anyError_of_mem (List.mem_cons_self ..) (isError_of_mem_sortUses hmem))

end Annotations

/-! ## Parameters -/

variable {catalog : Catalog} {depth : Nat} {R : Resolver → Prop} {A : Abort → Prop}

theorem isError_of_theBinding {owner : String} {p : ParameterDecl} {annotations : List Applied}
    {fault : Diagnostic} (h : theBinding owner p annotations = .error fault) :
    fault.isError = true := by
  unfold theBinding at h
  split at h <;> cases h <;> rfl

theorem filter_of_theBinding {owner : String} {p : ParameterDecl} {annotations : List Applied}
    {binding : Applied} (h : theBinding owner p annotations = .ok binding) :
    annotations.filter (·.definition.binding?.isSome) = [binding] := by
  unfold theBinding at h
  split at h
  · cases h
    assumption
  · cases h
  · cases h

/-- Whether an annotation is recognized as one that binds a parameter. -/
def isBinding (catalog : Catalog) (use : Use) : Bool :=
  (catalog.lookup use.name).any (·.binding?.isSome)

/-- If one of the applied annotations binds, then so does one of the annotations as written. -/
theorem exists_use_of_filter {uses : List Use} {a : Applied}
    (h : (uses.filterMap (recognize? catalog)).filter (·.definition.binding?.isSome) = [a]) :
    ∃ use, uses.filter (isBinding catalog) = [use] ∧ catalog.lookup use.name = some a.definition := by
  have hbinding : ∀ use a, recognize? catalog use = some a →
      a.definition.binding?.isSome = isBinding catalog use := by
    intro use a ha
    obtain ⟨d, hd, rfl⟩ := Option.map_eq_some_iff.mp ha
    rw [isBinding, hd, Option.any_some]
  rw [filter_filterMap_eq hbinding] at h
  have hrecognized : ∀ use ∈ uses.filter (isBinding catalog), ∃ d, catalog.lookup use.name = some d ∧
      recognize? catalog use = some ⟨d, use.arguments, use.span⟩ := by
    intro use huse
    obtain ⟨d, hd, _⟩ := (Option.any_eq_true _ _).mp (List.mem_filter.mp huse).2
    exact ⟨d, hd, by rw [recognize?, hd, Option.map_some]⟩
  match hfilter : uses.filter (isBinding catalog) with
  | [] => simp [hfilter] at h
  | [use] =>
    obtain ⟨d, hd, huse⟩ := hrecognized use (by simp [hfilter])
    obtain rfl : ⟨d, use.arguments, use.span⟩ = a := by simpa [hfilter, huse] using h
    exact ⟨use, rfl, hd⟩
  | use :: other :: rest =>
    obtain ⟨d, _, huse⟩ := hrecognized use (by simp [hfilter])
    obtain ⟨d', _, hother⟩ := hrecognized other (by simp [hfilter])
    simp [hfilter, huse, hother] at h

theorem binding?_of_filter {s : Site} {a : Applied}
    (h : s.annotations.filter (·.definition.binding?.isSome) = [a]) :
    ∃ kind, a.definition.binding? = some kind ∧ s.binding? = some (kind, a) := by
  have hmem : a ∈ s.annotations.filter (·.definition.binding?.isSome) := by simp [h]
  obtain ⟨kind, hkind⟩ := Option.isSome_iff_exists.mp (List.mem_filter.mp hmem).2
  refine ⟨kind, hkind, ?_⟩
  have hfilter : s.annotations.filterMap (fun a => a.definition.binding?.map (·, a)) =
      (s.annotations.filter (·.definition.binding?.isSome)).filterMap
        fun a => a.definition.binding?.map (·, a) := by
    rw [List.filterMap_filter]
    refine List.filterMap_congr fun a _ => ?_
    cases a.definition.binding? <;> rfl
  rw [Site.binding?, ← List.head?_filterMap, hfilter, h]
  simp [hkind]

theorem permits_of_typeFault? {owner : String} {p : ParameterDecl} {binding : Applied}
    {t : WireType} (h : typeFault? owner p binding t = none) :
    permits binding.definition.restrictions t = true := by
  unfold typeFault? at h
  dsimp only at h
  split at h
  · assumption
  · cases h

/-- A parameter without a type is one for any value. -/
theorem mayBeUndefined_iff {type : Option TypeExpr} :
    (type.getD (.keyword "any")).stripUndefined.2 = true ↔ ∃ t, type = some t ∧ t.MayBeUndefined := by
  cases type with
  | none => simp [TypeExpr.stripUndefined]
  | some t => simp [TypeExpr.stripUndefined_iff]

/-- Whether a node is that of a declared parameter: it has its name and its place, and of the
annotations that are recognized exactly one binds it and accepts its type. -/
structure Binds (catalog : Catalog) (p : ParameterDecl) (position : Nat) (node : ParameterNode) :
    Prop where
  name : node.site.name = p.name
  position : node.position = position
  binding : ∃ use d kind a, p.annotations.filter (isBinding catalog) = [use] ∧
    catalog.lookup use.name = some d ∧ d.binding? = some kind ∧
    node.site.binding? = some (kind, a) ∧ permits d.restrictions node.type = true
  required : node.required = !(p.optional || p.default.isSome ||
    (p.type.getD (.keyword "any")).stripUndefined.2)

theorem isError_of_typeFault? {owner : String} {p : ParameterDecl} {binding : Applied}
    {t : WireType} {fault : Diagnostic} (h : typeFault? owner p binding t = some fault) :
    fault.isError = true := by
  unfold typeFault? at h
  dsimp only at h
  split at h
  · cases h
  · cases h
    rfl

/-- Whether resolving the type of any site keeps an invariant. -/
def ResolvesWithin (depth : Nat) (R : Resolver → Prop) (A : Abort → Prop) : Prop :=
  ∀ site t, Keeps R (resolveAt depth site t) (fun _ => True) A

theorem parameterType_keeps (hres : ResolvesWithin depth R A) (owner : String) (p : ParameterDecl)
    (binding : Applied) (t : TypeExpr) : Keeps R (parameterType depth owner p binding t)
      (fun result => ∀ fault, result = .error fault → fault.isError = true) A := by
  unfold parameterType
  split
  · exact .pure (by simp)
  · refine (hres _ t).bind fun result _ => ?_
    split
    · exact .pure (by simp)
    · refine .pure fun fault h => ?_
      cases h
      rfl

theorem parameter_keeps (hres : ResolvesWithin depth R A) (owner : String) (position : Nat)
    (p : ParameterDecl) (target : Target) :
    Keeps R (parameter catalog depth owner position p target)
      (Verdict.Decided (Binds catalog p position)) A := by
  unfold parameter
  have happly := @applyUses_decided catalog target p.annotations
  generalize applyUses catalog target p.annotations = applied at happly ⊢
  cases happly with
  | withheld h => exact .pure (.withheld h)
  | @given annotations happlied =>
    dsimp only
    cases hbinding : theBinding owner p annotations with
    | error fault => exact .pure (.alone (isError_of_theBinding hbinding))
    | ok binding =>
      refine (parameterType_keeps hres owner p binding _).bind fun result hresult => ?_
      cases result with
      | error fault => exact .pure (.alone (hresult fault rfl))
      | ok w =>
        dsimp only
        cases hfault : typeFault? owner p binding w with
        | some fault => exact .pure (.alone (isError_of_typeFault? hfault))
        | none =>
          have hfilter := filter_of_theBinding hbinding
          obtain ⟨use, huse, hlookup⟩ := exists_use_of_filter (happlied ▸ hfilter)
          obtain ⟨kind, hkind, hnode⟩ :=
            binding?_of_filter (s := ⟨p.name, p.span, annotations, _⟩) hfilter
          exact .pure (.given ⟨rfl, rfl,
            ⟨use, _, kind, binding, huse, hlookup, hkind, hnode, permits_of_typeFault? hfault⟩, rfl⟩)

/-! ## Constructors -/

theorem mapM_value_decided {P : α → Prop} {verdicts : List (Verdict α)}
    (h : ∀ v ∈ verdicts, v.Decided P) :
    Verdict.Decided (fun _ => True) ⟨verdicts.mapM (·.value), verdicts.flatMap (·.diagnostics)⟩ := by
  induction verdicts with
  | nil => exact .given trivial
  | cons v verdicts ih =>
    have hrest := ih fun v' hv' => h v' (List.mem_cons_of_mem _ hv')
    have hv := h v (List.mem_cons_self ..)
    rw [List.mapM_cons, List.flatMap_cons]
    generalize verdicts.mapM (·.value) = values at hrest ⊢
    generalize verdicts.flatMap (·.diagnostics) = ds at hrest ⊢
    cases hv with
    | withheld he =>
      refine .withheld ?_
      rw [anyError_append, he, Bool.true_or]
    | given _ =>
      cases hrest with
      | given _ => exact .given trivial
      | withheld he => exact .withheld he

theorem parameters_keeps (hres : ResolvesWithin depth R A) (owner : String) (target : Target)
    (ps : List (ParameterDecl × Nat)) :
    Keeps R (parameters catalog depth owner target ps) (Verdict.Decided fun _ => True) A := by
  have hparameter : ∀ x ∈ ps, Keeps R (parameter catalog depth owner x.2 x.1 target)
      (Verdict.Decided fun _ => True) A := fun x _ =>
    (parameter_keeps hres owner x.2 x.1 target).weaken fun _ h => h.mono fun _ _ => trivial
  refine (Keeps.mapM_all ps hparameter).bind fun verdicts ⟨_, hverdicts⟩ => .pure ?_
  exact mapM_value_decided hverdicts

theorem constructor_keeps (hres : ResolvesWithin depth R A) (c : ClassDecl) :
    Keeps R (constructor catalog depth c)
      (Verdict.Decided fun built => ∀ m ∈ built, m.isMethod = false) A := by
  unfold constructor
  cases c.constructor with
  | none => exact .pure (.given (by simp))
  | some k =>
    refine (parameters_keeps hres _ _ _).bind fun verdict hverdict => ?_
    cases hverdict with
    | withheld he => exact .pure (.withheld he)
    | @given nodes _ =>
      cases nodes with
      | nil => exact .pure (.given (by simp))
      | cons node nodes =>
        refine .pure (.given ?_)
        rintro m ⟨⟩
        rfl

/-! ## Methods -/

theorem isError_of_routeFault? {handler : String} {annotations : List Applied} {fault : Diagnostic}
    (h : routeFault? handler annotations = some fault) : fault.isError = true := by
  unfold routeFault? at h
  dsimp only at h
  split at h <;> cases h
  rfl

theorem isError_of_bodyFault? {handler : String} {ps : List ParameterNode} {fault : Diagnostic}
    (h : bodyFault? handler ps = some fault) : fault.isError = true := by
  unfold bodyFault? at h
  split at h <;> cases h
  rfl

theorem returnType_keeps (hres : ResolvesWithin depth R A) (handler : String) (m : MethodDecl) :
    Keeps R (returnType depth handler m)
      (fun result => ∀ fault, result = .error fault → fault.isError = true) A := by
  refine (hres _ _).bind fun result _ => ?_
  cases result with
  | ok w => exact .pure (by simp)
  | error cause =>
    refine .pure fun fault h => ?_
    cases h
    rfl

/-- A node that stands for a method of a class: it has the name and the place of the method, and a
verb. -/
structure Represents (node : MemberNode) (m : MethodDecl) : Prop where
  isMethod : node.isMethod = true
  name : node.site.name = m.name
  span : node.site.span = m.span
  verb : node.site.verb?.isSome = true

theorem methodParameters_keeps (hres : ResolvesWithin depth R A) (handler : String)
    (m : MethodDecl) : Keeps R (methodParameters catalog depth handler m)
      (List.Forall₂ (fun x v => v.Decided (Binds catalog x.1 x.2)) m.parameters.zipIdx) A :=
  Keeps.mapM _ fun (p, position) _ => parameter_keeps hres handler position p .parameter

/-- Where nothing is reported, there is a result for everything. -/
theorem forall₂_filterMap_value {β : Type} {P : β → α → Prop} {bs : List β}
    {verdicts : List (Verdict α)} (h : List.Forall₂ (fun b v => v.Decided (P b)) bs verdicts)
    (hnil : verdicts.flatMap (·.diagnostics) = []) :
    List.Forall₂ P bs (verdicts.filterMap (·.value)) := by
  induction h with
  | nil => exact .nil
  | cons hv _ ih =>
    rw [List.flatMap_cons, List.append_eq_nil_iff] at hnil
    cases hv with
    | given ha => exact .cons ha (ih hnil.2)
    | @withheld ds he =>
      have hds : ds = [] := hnil.1
      rw [hds] at he
      cases he

theorem countP_bindsBody_le {handler : String} {ps : List ParameterNode}
    (h : bodyFault? handler ps = none) : ps.countP bindsBody ≤ 1 := by
  rw [List.countP_eq_length_filter]
  unfold bodyFault? at h
  split at h
  · cases h
  · rename_i hnot
    match hfilter : ps.filter bindsBody with
    | [] | [_] => simp
    | first :: second :: rest => exact absurd hfilter (hnot first second rest)

/-- Whether a node has the parameters of a method, all of them and in order, and at most one of them
is bound to the body of a request. -/
structure Signed (catalog : Catalog) (m : MethodDecl) (node : MemberNode) : Prop where
  parameters : List.Forall₂ (fun x n => Binds catalog x.1 x.2 n) m.parameters.zipIdx node.parameters
  body : node.parameters.countP bindsBody ≤ 1

/-- A method with a route annotation has a verb if all its annotations are applied. -/
theorem verb?_isSome {m : MethodDecl} (hroute : hasRoute catalog m = true) {s : Site}
    (happlied : s.annotations = m.annotations.filterMap (recognize? catalog)) :
    s.verb?.isSome = true := by
  obtain ⟨use, huse, hlookup⟩ := List.any_eq_true.mp hroute
  obtain ⟨d, hd, hverb⟩ := (Option.any_eq_true _ _).mp hlookup
  have ha : (⟨d, use.arguments, use.span⟩ : Applied) ∈ s.annotations := by
    rw [happlied]
    exact List.mem_filterMap.mpr ⟨use, huse, by rw [recognize?, hd, Option.map_some]⟩
  rw [Site.verb?, Option.isSome_map, List.findSome?_isSome_iff]
  exact ⟨_, ha, hverb⟩

theorem method_keeps (hres : ResolvesWithin depth R A) (c : ClassDecl) (m : MethodDecl)
    (hroute : hasRoute catalog m = true) :
    Keeps R (method catalog depth c m)
      (Verdict.Decided fun node => Represents node m ∧ Signed catalog m node) A := by
  unfold method
  have happly := @applyUses_decided catalog .method m.annotations
  generalize applyUses catalog .method m.annotations = applied at happly ⊢
  obtain ⟨applied, annotationFaults⟩ := applied
  dsimp only
  refine (returnType_keeps hres _ m).bind fun returned hreturned => ?_
  refine (methodParameters_keeps hres _ m).bind fun verdicts hverdicts => ?_
  -- There is a node if nothing is reported, and none of the five reports is a mere warning.
  have hroutes : Grave (routeFault? (c.name ++ "." ++ m.name) (applied.getD [])).toList :=
    .toList fun _ => isError_of_routeFault?
  have hbodies : Grave (bodyFault? (c.name ++ "." ++ m.name) (verdicts.filterMap (·.value))).toList :=
    .toList fun _ => isError_of_bodyFault?
  have hparameters : Grave (verdicts.flatMap (·.diagnostics)) :=
    .flatMap fun v hv =>
      let ⟨_, _, hv⟩ := exists_of_mem_right hverdicts hv
      hv.grave
  cases returned with
  | ok w =>
    dsimp only
    split
    · rename_i hempty
      simp only [List.isEmpty_iff, List.append_eq_nil_iff, Option.toList_eq_nil_iff] at hempty
      obtain ⟨⟨⟨⟨hannotations, _⟩, _⟩, hparameters⟩, hbody⟩ := hempty
      have hsigned := forall₂_filterMap_value hverdicts hparameters
      cases happly with
      | given happlied =>
        exact .pure (.given ⟨⟨rfl, rfl, rfl, verb?_isSome hroute happlied⟩,
          hsigned, countP_bindsBody_le hbody⟩)
      | withheld he => simp [hannotations] at he
    · rename_i hne
      have hgrave := ((((happly.grave.append hroutes).append (.inl rfl)).append hparameters).append
        hbodies)
      exact .pure (.withheld (hgrave.resolve_left fun hnil => hne (by rw [hnil]; rfl)))
  | error fault =>
    refine .pure (.withheld (anyError_of_mem ?_ (hreturned fault rfl)))
    simp

/-! ## Classes -/

theorem flatMap_filterMap_value {β : Type} (verdicts : List (Verdict α)) (g : α → List β) :
    (verdicts.filterMap (·.value)).flatMap g = verdicts.flatMap fun v => v.value.toList.flatMap g := by
  induction verdicts with
  | nil => rfl
  | cons v verdicts ih =>
    rw [List.filterMap_cons, List.flatMap_cons, ← ih]
    cases v.value with
    | none => rfl
    | some a => simp

/-- A handler with its node stands for a method of a class. -/
structure StandsFor (catalog : Catalog) (x : ClassDecl × MethodDecl) (y : Api.Handler × MemberNode) :
    Prop where
  handler : y.1 = ⟨x.1.name, x.1.qualifiedName, x.2.name⟩
  span : y.2.site.span = x.2.span
  signed : Signed catalog x.2 y.2

/-- What a class contributes to the forest. -/
structure Accounts (catalog : Catalog) (c : ClassDecl) (v : Verdict ClassNode) : Prop where
  handlers : Accounted (c.handlers catalog) (v.value.toList.flatMap ClassNode.handlers) v.diagnostics
  routed : ∀ node ∈ v.value, node.Routed
  stems : StemsFrom (StandsFor catalog) (c.methods.map (c, ·)) (v.value.toList.flatMap ClassNode.handled)

theorem Accounts.dropped {c : ClassDecl} {ds : List Diagnostic}
    (hne : c.methods.filter (hasRoute catalog) ≠ []) (h : anyError ds = true) :
    Accounts catalog c ⟨none, ds⟩ := by
  refine ⟨.of_ne (List.nil_sublist _) (fun hnil => hne ?_) h, by simp, .nil⟩
  exact List.map_eq_nil_iff.mp hnil.symm

theorem methods_accounted (c : ClassDecl) {routed : List MethodDecl}
    {verdicts : List (Verdict MemberNode)}
    (h : List.Forall₂ (fun m v => v.Decided (Represents · m)) routed verdicts) :
    Accounted (routed.map fun m => (⟨c.name, c.qualifiedName, m.name⟩, m.span))
      ((verdicts.filterMap (·.value)).map fun node =>
        ((⟨c.name, c.qualifiedName, node.site.name⟩, node.site.span) : Api.Handler × Span))
      (verdicts.flatMap (·.diagnostics)) := by
  rw [List.map_eq_flatMap, List.map_eq_flatMap, flatMap_filterMap_value]
  refine Accounted.flatMap (h.imp fun m v hv => ?_)
  cases hv with
  | given hnode =>
    simp only [Option.toList_some, List.flatMap_singleton, hnode.name, hnode.span]
    exact .refl _ rfl
  | withheld he => exact .of_ne (List.nil_sublist _) (by simp) he

theorem stems_filterMap_value {β : Type} {P : β → α → Prop} {bs : List β}
    {verdicts : List (Verdict α)} (h : List.Forall₂ (fun b v => v.Decided (P b)) bs verdicts) :
    StemsFrom P bs (verdicts.filterMap (·.value)) := by
  induction h with
  | nil => exact .nil
  | cons hv _ ih =>
    cases hv with
    | given ha => exact .append (.of_forall₂ (.cons ha .nil)) ih
    | withheld _ => exact ih.of_sublist (List.sublist_cons_self ..)

theorem Accounts.kept {c : ClassDecl} {built : Option MemberNode} {methods : List MemberNode}
    {ds : List Diagnostic} (hbuilt : ∀ m ∈ built, m.isMethod = false)
    (hmethods : StemsFrom (fun m node => Represents node m ∧ Signed catalog m node) c.methods methods)
    (hne : methods ≠ [])
    (h : Accounted (c.handlers catalog) (methods.map fun node =>
      ((⟨c.name, c.qualifiedName, node.site.name⟩, node.site.span) : Api.Handler × Span)) ds)
    (annotations : List Applied) (metadata : Table Json) :
    Accounts catalog c
      ⟨some ⟨⟨c.name, c.span, annotations, metadata⟩, c.qualifiedName, built.toList ++ methods⟩, ds⟩ := by
  obtain ⟨origins, horigins, hnodes⟩ := hmethods
  have hrepresents : ∀ node ∈ methods, ∃ m, Represents node m := by
    intro node hnode
    obtain ⟨m, _, hm⟩ := exists_of_mem_right hnodes hnode
    exact ⟨m, hm.1⟩
  have hnone : built.toList.filter MemberNode.isMethod = [] := by
    refine List.filter_eq_nil_iff.mpr fun m hm => ?_
    simp [hbuilt m (Option.mem_toList.mp hm)]
  have hall : methods.filter MemberNode.isMethod = methods := by
    refine List.filter_eq_self.mpr fun node hnode => ?_
    obtain ⟨m, hm⟩ := hrepresents node hnode
    exact hm.isMethod
  refine ⟨?_, ?_, ?_⟩
  · simpa [ClassNode.handlers, List.filter_append, hnone, hall] using h
  · rintro node ⟨⟩
    refine ⟨?_, fun m hm hk => ?_⟩
    · obtain ⟨m, hm⟩ := List.exists_mem_of_ne_nil _ hne
      obtain ⟨decl, hdecl⟩ := hrepresents m hm
      exact List.any_eq_true.mpr ⟨m, List.mem_append_right _ hm, hdecl.isMethod⟩
    · rcases List.mem_append.mp hm with hm | hm
      · simp [hbuilt m (Option.mem_toList.mp hm)] at hk
      · obtain ⟨decl, hdecl⟩ := hrepresents m hm
        exact hdecl.verb
  · refine ⟨origins.map (c, ·), horigins.map _, ?_⟩
    simp only [Option.toList_some, List.flatMap_singleton, ClassNode.handled, List.filter_append, hnone,
      hall, List.nil_append, List.forall₂_map_left_iff, List.forall₂_map_right_iff]
    exact hnodes.imp fun m node ⟨hm, hsigned⟩ => ⟨by rw [hm.name], hm.span, hsigned⟩

theorem members_keeps (hres : ResolvesWithin depth R A) (c : ClassDecl)
    (hne : c.methods.filter (hasRoute catalog) ≠ []) (annotations : List Applied) :
    Keeps R (members catalog depth c (c.methods.filter (hasRoute catalog)) annotations)
      (Accounts catalog c) A := by
  unfold members
  refine (constructor_keeps hres c).bind fun built hbuilt => ?_
  cases hbuilt with
  | withheld he => exact .pure (.dropped hne he)
  | given hbuilt =>
    refine (Keeps.mapM _ fun m hm => method_keeps hres c m (List.mem_filter.mp hm).2).bind
      fun verdicts hverdicts => ?_
    have haccounted := methods_accounted c (hverdicts.imp fun _ _ h => h.mono fun _ h => h.1)
    have hmethods := (stems_filterMap_value hverdicts).of_sublist List.filter_sublist
    dsimp only
    generalize verdicts.filterMap (·.value) = methods at haccounted hmethods ⊢
    rw [List.nil_append]
    split
    · rename_i hempty
      rw [List.isEmpty_iff.mp hempty] at haccounted
      exact .pure ⟨haccounted, by simp, .nil⟩
    · rename_i hsome
      have hne : methods ≠ [] := fun h => hsome (List.isEmpty_iff.mpr h)
      exact .pure (.kept hbuilt hmethods hne haccounted _ _)

theorem classTree_keeps (hres : ResolvesWithin depth R A) (c : ClassDecl) :
    Keeps R (classTree catalog depth c) (Accounts catalog c) A := by
  unfold classTree
  dsimp only
  split
  · rename_i hempty
    refine .pure ⟨?_, by simp, .nil⟩
    have hnil : c.handlers catalog = [] := by
      rw [ClassDecl.handlers, List.isEmpty_iff.mp hempty, List.map_nil]
    rw [hnil]
    exact .refl [] rfl
  · rename_i hne
    have hne : c.methods.filter (hasRoute catalog) ≠ [] := fun h => hne (by rw [h]; rfl)
    have happly := @applyUses_decided catalog .classDeclaration c.annotations
    generalize applyUses catalog .classDeclaration c.annotations = applied at happly ⊢
    cases happly with
    | withheld he => exact .pure (.dropped hne he)
    | given _ => exact members_keeps hres c hne _

/-- The walk keeps what the resolution of types keeps. Its forest has all the route methods of the
classes unless there is an error, and each method that it has stands for one of theirs. -/
theorem forest_keeps (hres : ResolvesWithin depth R A) (classes : List ClassDecl) :
    Keeps R (forest catalog depth classes)
      (fun (f, ds) => Accounted (classes.flatMap (ClassDecl.handlers catalog))
          (f.flatMap ClassNode.handlers) ds ∧
        (∀ node ∈ f, node.Routed) ∧
        StemsFrom (StandsFor catalog) (classes.flatMap fun c => c.methods.map (c, ·))
          (f.flatMap ClassNode.handled)) A := by
  refine (Keeps.mapM classes fun c _ => classTree_keeps hres c).bind fun verdicts hverdicts =>
    .pure ⟨?_, fun node hnode => ?_, ?_⟩
  · rw [flatMap_filterMap_value]
    exact Accounted.flatMap (hverdicts.imp fun _ _ h => h.handlers)
  · obtain ⟨v, hv, hvalue⟩ := List.mem_filterMap.mp hnode
    obtain ⟨c, _, hc⟩ := exists_of_mem_right hverdicts hv
    exact hc.routed node hvalue
  · rw [flatMap_filterMap_value]
    exact StemsFrom.flatMap (hverdicts.imp fun _ _ h => h.stems)

end Walk

end AnnotatedApi
