import AnnotatedApi.Annotation.Catalog
import AnnotatedApi.Project
import AnnotatedApi.Proofs.Keeping
import Mathlib.Data.List.Nodup

/-!
# What a catalog holds

Whatever is registered with a catalog, one call after the other, and whichever calls are refused, the catalog
holds sound definitions under different names, in the order of the calls that were not refused, and what it holds
once it holds for good. A project checks the definitions that it declares before there is a catalog, and in
another order: first whether a definition is sound, then whether its name is taken. Both checks come down to the
same conditions, so what a project accepts can be registered wherever its names are free.
-/

namespace AnnotatedApi

set_option autoImplicit false

open Annotation

/-- Whether definitions are sound, have different names, and none of them has a name that is taken. -/
structure Annotation.Admissible (taken : List String) (ds : List Definition) : Prop where
  sound : ∀ d ∈ ds, d.fault? = none
  free : ∀ d ∈ ds, d.name ∉ taken
  distinct : (ds.map (·.name)).Nodup

namespace Annotation.Admissible

variable {taken : List String} {d : Definition} {ds : List Definition}

theorem nil : Admissible taken [] := ⟨by simp, by simp, List.nodup_nil⟩

theorem cons_iff : Admissible taken (d :: ds) ↔
    d.fault? = none ∧ d.name ∉ taken ∧ Admissible (d.name :: taken) ds := by
  constructor
  · rintro ⟨hsound, hfree, hdistinct⟩
    obtain ⟨hd, hsound⟩ := List.forall_mem_cons.mp hsound
    obtain ⟨hname, hfree⟩ := List.forall_mem_cons.mp hfree
    obtain ⟨hnew, hdistinct⟩ := List.nodup_cons.mp hdistinct
    refine ⟨hd, hname, hsound, fun e he hmem => ?_, hdistinct⟩
    rcases List.mem_cons.mp hmem with heq | hmem
    · exact hnew (List.mem_map.mpr ⟨e, he, heq⟩)
    · exact hfree e he hmem
  · rintro ⟨hd, hname, hsound, hfree, hdistinct⟩
    have hnew : ∀ e ∈ ds, e.name ≠ d.name := fun e he heq =>
      hfree e he (List.mem_cons.mpr (.inl heq))
    refine ⟨List.forall_mem_cons.mpr ⟨hd, hsound⟩, List.forall_mem_cons.mpr ⟨hname, fun e he hmem => ?_⟩,
      List.nodup_cons.mpr ⟨by simpa using hnew, hdistinct⟩⟩
    exact hfree e he (List.mem_cons_of_mem _ hmem)

theorem mono {taken' : List String} (h : Admissible taken ds) (hle : taken' ⊆ taken) :
    Admissible taken' ds :=
  ⟨h.sound, fun d hd hmem => h.free d hd (hle hmem), h.distinct⟩

end Annotation.Admissible

/-- What a project accepts. -/
theorem Project.definitionsFault?_eq_none_iff {seen : List String} {ds : List Definition} :
    definitionsFault? seen ds = none ↔ Admissible seen ds := by
  induction ds generalizing seen with
  | nil => exact iff_of_true rfl .nil
  | cons d ds ih =>
    rw [definitionsFault?, Admissible.cons_iff, ← ih]
    cases hfault : d.fault? with
    | some fault => simp
    | none =>
      by_cases hseen : seen.contains d.name = true
      · simp_all
      · simp_all

namespace Annotation.Catalog

/-! ## One call -/

variable {c start : Catalog} {d : Definition} {ds : List Definition} {name : String}

theorem contains_iff : c.contains name = true ↔ name ∈ c.names := by
  simp [contains, lookup, names]

/-- What a call does, in the order of its checks. A call that is refused leaves the catalog as it was. -/
inductive Called (c : Catalog) (d : Definition) : EStateM.Result RegistrationError Catalog Unit → Prop where
  | taken : d.name ∈ c.names → Called c d (.error (.alreadyRegistered d.name) c)
  | fault {fault : Fault} : d.name ∉ c.names → d.fault? = some fault →
    Called c d (.error (.malformed d.name fault) c)
  | done : d.name ∉ c.names → d.fault? = none → Called c d (.ok () ⟨c.definitions ++ [d]⟩)

theorem called (c : Catalog) (d : Definition) : Called c d (register d c) := by
  have hget : (get : EStateM RegistrationError Catalog Catalog) c = .ok c c := rfl
  rw [register, bind_of_ok hget]
  by_cases h : d.name ∈ c.names
  · rw [if_pos (contains_iff.mpr h)]
    exact .taken h
  · rw [if_neg (mt contains_iff.mp h)]
    cases hfault : d.fault? with
    | some fault => exact .fault h hfault
    | none => exact .done h hfault

/-- The catalog that a call leaves behind, and the error if it is refused. -/
def call (c : Catalog) (d : Definition) : Catalog × Option RegistrationError :=
  match register d c with
  | .ok _ next => (next, none)
  | .error e next => (next, some e)

/-! ## What every call keeps -/

/-- Whether the definitions of a catalog are sound and stored under their own names, which are different. -/
structure Consistent (c : Catalog) : Prop where
  sound : ∀ d ∈ c.definitions, d.fault? = none
  stored : ∀ name d, c.lookup name = some d ↔ d ∈ c.definitions ∧ d.name = name
  distinct : c.names.Nodup

/-- Under different names, each definition is found under its own. -/
theorem lookup_eq_some_iff (h : c.names.Nodup) : c.lookup name = some d ↔
    d ∈ c.definitions ∧ d.name = name := by
  constructor
  · intro hd
    exact ⟨List.mem_of_find?_eq_some hd, by simpa using List.find?_some hd⟩
  · rintro ⟨hd, rfl⟩
    cases hfound : c.lookup d.name with
    | none => simpa using List.find?_eq_none.mp hfound d hd
    | some e =>
      have he : e ∈ c.definitions := List.mem_of_find?_eq_some hfound
      have hname : e.name = d.name := by simpa using List.find?_some hfound
      rw [List.inj_on_of_nodup_map h he hd hname]

theorem consistent_of (hsound : ∀ d ∈ c.definitions, d.fault? = none) (hdistinct : c.names.Nodup) :
    c.Consistent :=
  ⟨hsound, fun _ _ => lookup_eq_some_iff hdistinct, hdistinct⟩

theorem consistent_empty : empty.Consistent := consistent_of (by simp [empty]) (by simp [empty, names])

theorem consistent_standard : standard.Consistent := consistent_of (by decide) (by decide)

theorem Consistent.call (h : c.Consistent) (d : Definition) : (c.call d).1.Consistent := by
  rw [Catalog.call]
  generalize hr : register d c = r
  cases hr ▸ c.called d with
  | taken => exact h
  | fault => exact h
  | done hnew hsound =>
    refine consistent_of (fun e he => ?_) ?_
    · rcases List.mem_append.mp he with he | he
      · exact h.sound e he
      · rw [List.mem_singleton.mp he]
        exact hsound
    · simpa [names, List.nodup_append'] using ⟨h.distinct, by simpa [names] using hnew⟩

/-! ## Many calls -/

/-- The catalog after some calls, and what each call answers. -/
def calls (c : Catalog) : List Definition → Catalog × List (Option RegistrationError)
  | [] => (c, [])
  | d :: ds =>
    let rest := (c.call d).1.calls ds
    (rest.1, (c.call d).2 :: rest.2)

/-- The definitions whose calls are not refused. -/
def accepted (c : Catalog) (ds : List Definition) : List Definition :=
  ((ds.zip (c.calls ds).2).filter (·.2.isNone)).map (·.1)

theorem Consistent.calls (h : c.Consistent) (ds : List Definition) : (c.calls ds).1.Consistent := by
  induction ds generalizing c with
  | nil => exact h
  | cons d ds ih => exact ih (h.call d)

/-- A run of calls adds what is not refused, in the order of the calls, and changes nothing else. -/
theorem definitions_calls (c : Catalog) (ds : List Definition) :
    (c.calls ds).1.definitions = c.definitions ++ c.accepted ds := by
  induction ds generalizing c with
  | nil => simp [Catalog.calls, accepted]
  | cons d ds ih =>
    have hrest := ih (c.call d).1
    rw [accepted] at hrest
    generalize hr : register d c = r
    simp only [Catalog.calls, accepted, Catalog.call, hr, List.zip_cons_cons] at hrest ⊢
    cases hr ▸ c.called d with
    | taken => simpa using hrest
    | fault => simpa using hrest
    | done => simpa using hrest

theorem lookup_calls {name : String} {d : Definition} (h : c.lookup name = some d) (ds : List Definition) :
    (c.calls ds).1.lookup name = some d := by
  rw [lookup, definitions_calls, List.find?_append]
  rw [lookup] at h
  rw [h, Option.some_or]

/-! ## All or nothing -/

/-- What can be registered without a refusal. -/
theorem registerAll_eq_ok_iff {next : Catalog} :
    registerAll ds c = .ok () next ↔ Admissible c.names ds ∧ next = ⟨c.definitions ++ ds⟩ := by
  induction ds generalizing c with
  | nil => simp [registerAll, Admissible.nil, pure, EStateM.pure, eq_comm]
  | cons d ds ih =>
    have hsteps : registerAll (d :: ds) = register d >>= fun _ => registerAll ds := List.forM_cons
    rw [Admissible.cons_iff, hsteps]
    generalize hr : register d c = r
    cases hr ▸ c.called d with
    | taken hname =>
      rw [bind_of_error hr]
      simp [hname]
    | fault hname hfault =>
      rw [bind_of_error hr]
      simp [hfault]
    | done hname hsound =>
      have htaken : Admissible (names ⟨c.definitions ++ [d]⟩) ds ↔ Admissible (d.name :: c.names) ds := by
        constructor <;> intro h <;> refine h.mono fun name => ?_ <;> simp [names, or_comm]
      have hrest := ih (c := ⟨c.definitions ++ [d]⟩)
      rw [htaken] at hrest
      rw [bind_of_ok hr, hrest]
      simp [hname, hsound]

/-- What holds of a catalog after some calls, which started from another. -/
structure Served (start : Catalog) (ds : List Definition) : Prop where
  /-- The definitions are sound and stand under their own names, which are different. -/
  consistent : (start.calls ds).1.Consistent
  /-- They are those at the start and those whose calls were not refused, in their order. -/
  inOrder : (start.calls ds).1.definitions = start.definitions ++ start.accepted ds
  /-- The next call is refused if its name is taken, or else if its definition is not sound. It then leaves the
  catalog as it was. -/
  next : ∀ d, Called (start.calls ds).1 d (register d (start.calls ds).1)
  /-- What is held is held after all further calls. -/
  kept : ∀ more name d, (start.calls ds).1.lookup name = some d →
    ((start.calls ds).1.calls more).1.lookup name = some d
  /-- With a catalog that has none of their names, definitions can all be registered, in their order, if and
  only if a project accepts them. -/
  asProjects : ∀ (c : Catalog) (declared : List Definition),
    (∀ d ∈ declared, c.contains d.name = false) →
      (Project.definitionsFault? [] declared = none ↔
        registerAll declared c = .ok () ⟨c.definitions ++ declared⟩)

/-- Catalogs start from no definitions or from the standard ones. -/
theorem calls_spec (h : start = .empty ∨ start = .standard) (ds : List Definition) : Served start ds where
  consistent := by
    have hstart : start.Consistent := by
      rcases h with rfl | rfl
      · exact consistent_empty
      · exact consistent_standard
    exact hstart.calls ds
  inOrder := definitions_calls start ds
  next := called _
  kept more _ _ hd := lookup_calls hd more
  asProjects c declared hfree := by
    have hnames : ∀ d ∈ declared, d.name ∉ c.names := fun d hd hmem => by
      simpa [contains_iff.mpr hmem] using hfree d hd
    rw [Project.definitionsFault?_eq_none_iff, registerAll_eq_ok_iff]
    constructor
    · exact fun hdeclared => ⟨⟨hdeclared.sound, hnames, hdeclared.distinct⟩, rfl⟩
    · exact fun hdeclared => hdeclared.1.mono (List.nil_subset _)

/-- A definition that is registered, one under a standard name, and one that binds what is no parameter. -/
def audited : Definition := { name := "Audited", targets := [.method], repeatable := true }

def misplaced : Definition := { name := "Tenant", targets := [.classDeclaration], role := .binding .header }

theorem calls_spec_audited :
    let c := (standard.calls [audited, { audited with name := "Get" }, misplaced]).1
    (standard = .empty ∨ standard = .standard) ∧ c.Consistent ∧
      standard.accepted [audited, { audited with name := "Get" }, misplaced] = [audited] ∧
      c.definitions = standardDefinitions ++ [audited] ∧
      c.lookup "Audited" = some audited ∧ (c.calls [{ audited with repeatable := false }]).1.lookup "Audited" =
        some audited ∧
      registerAll [audited] .empty = .ok () ⟨[audited]⟩ := by
  intro c
  have hstart : standard = .empty ∨ standard = .standard := .inr rfl
  have hserved := calls_spec hstart [audited, { audited with name := "Get" }, misplaced]
  have haccepted : standard.accepted [audited, { audited with name := "Get" }, misplaced] = [audited] := rfl
  have hdefinitions : c.definitions = standardDefinitions ++ [audited] := haccepted ▸ hserved.inOrder
  have hlookup : c.lookup "Audited" = some audited :=
    (hserved.consistent.stored _ _).mpr ⟨by rw [hdefinitions]; simp, rfl⟩
  have hfree : ∀ d ∈ [audited], empty.contains d.name = false := by simp [empty, contains, lookup]
  exact ⟨hstart, hserved.consistent, haccepted, hdefinitions, hlookup, hserved.kept _ _ _ hlookup,
    (hserved.asProjects empty [audited] hfree).mp rfl⟩

end Annotation.Catalog

end AnnotatedApi
