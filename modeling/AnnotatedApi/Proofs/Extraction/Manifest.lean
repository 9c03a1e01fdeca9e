import AnnotatedApi.Proofs.Api.Document
import AnnotatedApi.Proofs.Extraction.Handlers
import AnnotatedApi.Proofs.Extraction.PathTokens
import AnnotatedApi.Proofs.Handlers.Nodes

/-!
# The manifest of an extraction is read as it was written

What an operation holds comes from the nodes of its method, and these stand for declarations of the
compilation. So whatever is extracted can be written, and what is read then is the same manifest, except
that a default that is `null` is absent. A compilation that was read from a document has no such default.
-/

namespace AnnotatedApi

set_option autoImplicit false

open Json (IsValue)

/-! ## Assembly -/

namespace Api

variable {P : Json → Prop}

theorem Parameter.writable_of_parameterOf? {l : LinkedForest} {n : ParameterNode} (hn : n.Writable P)
    {path : NodePath} {p : Parameter} (h : parameterOf? l n path = some p) : p.Writable P := by
  obtain ⟨_, _, rfl⟩ := Option.map_eq_some_iff.mp h
  exact ⟨hn.type, hn.default⟩

theorem Operation.writable_of_operationOf? {l : LinkedForest} {c : ClassNode} {m : MemberNode}
    (hm : m.Writable P) {path : NodePath} {o : Operation} (h : operationOf? l c m path = some o) :
    o.Writable P := by
  obtain ⟨kind, site, nodes⟩ := m
  cases kind with
  | constructor => cases h
  | method returnType doc =>
    obtain ⟨verb, _, rfl⟩ := Option.map_eq_some_iff.mp h
    refine ⟨hm.returnType returnType doc rfl, fun p hp => ?_, fun code hcode => ?_, hm.span⟩
    · obtain ⟨⟨n, k⟩, hn, hp⟩ := List.mem_filterMap.mp hp
      exact Parameter.writable_of_parameterOf? (hm.parameters n (List.fst_mem_of_mem_zipIdx hn)) hp
    · obtain ⟨v, _, hv⟩ := Option.bind_eq_some_iff.mp hcode
      simpa using (Option.filter_eq_some_iff.mp hv).2

theorem writable_of_mem_published {l : LinkedForest} (hl : ∀ c ∈ l.forest, c.Writable P) {o : Operation}
    (h : o ∈ published (candidates l)) : o.Writable P := by
  obtain ⟨c, hc, m, j, path, hm, ho⟩ := exists_method_of_mem_published h
  have hmem : m ∈ c.members := List.mem_of_getElem? (ClassNode.mem_methods.mp hm).1
  exact Operation.writable_of_operationOf? (hl c hc m hmem) ho

end Api

/-! ## Runs -/

/-- Whether a compilation is as it can be in memory: its literals are values, and its places fit their words.
The defaults are as `P` tells. -/
structure Compilation.Valid (P : Json → Prop) (c : Compilation) : Prop where
  classes : ∀ d ∈ c.classes, d.Valid P
  types : ∀ d ∈ c.types, d.Valid

/-- What is read from a document is so, and no default is `null`. -/
theorem Compilation.Valid.of_ofJson? {v : Json} (hv : v.IsValue) {c : Compilation}
    (h : ofJson? v = some c) : c.Valid fun d => IsValue d ∧ d ≠ .null := by
  have hwritable := Compilation.reads Json.hereditary_isValue v c hv h
  exact ⟨fun d hd => .of_writable (hwritable.classes d hd), fun d hd => .of_writable (hwritable.types d hd)⟩

namespace Extractor

open Api (Manifest)

/-- An extractor that has been run and reset some times since it was `start`. -/
inductive UsedFrom (start : Extractor) : Extractor → Prop where
  | start : UsedFrom start start
  | run {e : Extractor} (depth : Nat) : UsedFrom start e → UsedFrom start (e.run depth).2
  | reset {e : Extractor} : UsedFrom start e → UsedFrom start e.reset

variable {unit : Compilation} {catalog : Annotation.Catalog} {options : Resolve.Options}
  {e : Extractor} {P : Json → Prop}

/-- An extractor for the classes and the types of a compilation, which remembers finite numbers only. -/
structure Serves (unit : Compilation) (options : Resolve.Options) (e : Extractor) : Prop where
  classes : e.classes = unit.classes
  finite : Walk.Finite unit.types options e.resolver

theorem Serves.run (hunit : unit.Valid P) (h : Serves unit options e) (depth : Nat) :
    Serves unit options (e.run depth).2 ∧
      ∀ x, (e.run depth).1 = .ok x → ∀ o ∈ x.operations, o.Writable P := by
  have hwalk := @Walk.forest_writable e.catalog depth _ options P hunit.types _ hunit.classes
  rw [← h.classes] at hwalk
  obtain ⟨hfinite, hnodes⟩ :=
    e.run_nodes hwalk (fun c c' hsub hc' m hm => hc' m (hsub hm)) h.finite
  refine ⟨⟨(run_classes e depth).trans h.classes, hfinite⟩, fun x hx o ho => ?_⟩
  obtain ⟨hoperations, hx⟩ := hnodes x hx
  exact Api.writable_of_mem_published hx (hoperations ▸ ho)

theorem UsedFrom.serves (hunit : unit.Valid P)
    (h : UsedFrom (.fresh catalog unit.classes unit.types options) e) : Serves unit options e := by
  induction h with
  | start => exact ⟨rfl, rfl, Resolve.Cache.holds_empty⟩
  | run depth _ ih => exact (ih.run hunit depth).1
  | reset _ ih => exact ⟨ih.classes, ih.finite.1, Resolve.Cache.holds_empty⟩

theorem Serves.ofJson?_toJson_asRead (hP : ∀ d, P d → d.IsSettled) (hunit : unit.Valid P)
    (h : Serves unit options e) (depth : Nat) {x : Extraction} (hx : (e.run depth).1 = .ok x)
    (project : Option String) :
    Manifest.ofJson? (x.manifest project).toJson = some (x.manifest project).asRead :=
  Manifest.ofJson?_toJson hP ((h.run hunit depth).2 x hx)

/-- The manifest of every completed run is read from its own document, except that the defaults that are
`null` are absent then. So it is read as it is if and only if there is no such default. Every wire type
with finite numbers is read as it is. -/
theorem ofJson?_toJson_manifest_iff (hunit : unit.Valid IsValue)
    (he : UsedFrom (.fresh catalog unit.classes unit.types options) e) (depth : Nat) {x : Extraction}
    (hx : (e.run depth).1 = .ok x) (project : Option String) :
    Manifest.ofJson? (x.manifest project).toJson = some (x.manifest project).asRead ∧
      (Manifest.ofJson? (x.manifest project).toJson = some (x.manifest project) ↔
        ∀ o ∈ x.operations, ∀ p ∈ o.parameters, p.default ≠ some .null) ∧
      ∀ d : WireType, d.HasFiniteNumbers → WireType.ofJson? d.toJson = some d := by
  have hread := (he.serves hunit).ofJson?_toJson_asRead (fun d hd => hd.isSettled) hunit depth hx project
  refine ⟨hread, ?_, fun d hd => hd.ofJson?_toJson⟩
  rw [hread, Option.some_inj]
  exact Manifest.asRead_eq_self_iff

/-- Nothing is lost of a manifest if the compilation was read from a document itself. -/
theorem ofJson?_toJson_manifest_of_document {v : Json} (hv : v.IsValue)
    (hunit : Compilation.ofJson? v = some unit)
    (he : UsedFrom (.fresh catalog unit.classes unit.types options) e) (depth : Nat) {x : Extraction}
    (hx : (e.run depth).1 = .ok x) (project : Option String) :
    Manifest.ofJson? (x.manifest project).toJson = some (x.manifest project) := by
  have hvalid := Compilation.Valid.of_ofJson? hv hunit
  have hoperations := ((he.serves hvalid).run hvalid depth).2 x hx
  have hpresent : ∀ o ∈ x.operations, ∀ p ∈ o.parameters, p.default ≠ some .null := fun o ho p hp hnull =>
    (((hoperations o ho).parameters p hp).default .null hnull).2 rfl
  have hself : (x.manifest project).asRead = x.manifest project := Manifest.asRead_eq_self_iff.mpr hpresent
  rw [(he.serves hvalid).ofJson?_toJson_asRead (fun d hd => hd.1.isSettled) hvalid depth hx project, hself]

/-- A class with one method. Its parameter has a default and two numbers, 10 and 2.5, for a type. What it
returns refers to itself. -/
def quoting (default : Json) : Compilation :=
  let span : Span := ⟨"q.ts", .zero, .zero⟩
  let literal (rank : Nat) : TypeExpr := .literal (.number (.real ⟨false, rank⟩))
  ⟨[],
    [⟨"Quotes", "q.ts#Quotes", [], none,
      [⟨"list", [⟨"Get", [.literal (.string "/quotes")], span⟩],
        [⟨"limit", [⟨"Query", [], span⟩],
          some (.union [literal 4621819117588971520, literal 4612811918334230528]), false, some default,
          none, span⟩],
        some (.reference "Quote" []), none, span⟩], span⟩],
    [⟨"Quote", "q.ts#Quote", [],
      .interface [] [⟨"reply", .reference "Quote" [], true, none, none, span⟩], span⟩]⟩

theorem valid_quoting {default : Json} (h : default.IsValue) : (quoting default).Valid IsValue := by
  have hnumber : ∀ rank : Nat, (⟨false, rank⟩ : Binary64).isFinite = true →
      (TypeExpr.literal (.number (.real ⟨false, rank⟩))).Valid := by
    rintro rank hfinite _ ⟨⟩
    exact ⟨rfl, by simpa [Json.numbers, Json.Number.toReal] using hfinite⟩
  have hlimit : (TypeExpr.union [.literal (.number (.real ⟨false, 4621819117588971520⟩)),
      .literal (.number (.real ⟨false, 4612811918334230528⟩))]).Valid :=
    ⟨by simp, hnumber _ (by decide), hnumber _ (by decide), trivial⟩
  have hquote : (TypeExpr.reference "Quote" []).Valid := ⟨by simp, trivial⟩
  refine ⟨List.forall_mem_singleton.mpr ⟨?_, ?_, ?_, ?_⟩, List.forall_mem_singleton.mpr ⟨?_, ?_, ?_, ?_⟩⟩
  · exact List.forall_mem_singleton.mpr ⟨by rintro _ ⟨⟩; exact hlimit, by rintro _ ⟨⟩; exact h⟩
  · exact List.forall_mem_singleton.mpr (by rintro _ ⟨⟩; exact hquote)
  · exact List.forall_mem_singleton.mpr ⟨Position.writable_zero, Position.writable_zero⟩
  · simp
  · simp
  · simp [TypeBody.opened]
  · rintro _ ⟨⟩
    exact List.forall_mem_singleton.mpr hquote
  · simp

/-- The extractor for this class. -/
def quoter (default : Json) : Extractor :=
  .fresh .standard (quoting default).classes (quoting default).types .default

theorem ofJson?_toJson_manifest_iff_quoting : (quoting (.ofNat 10)).Valid IsValue ∧
    ∃ x, ((quoter (.ofNat 10)).run 4).1 = .ok x ∧
      x.operations.map (fun o => o.parameters.map (·.default)) = [[some (.ofNat 10)]] ∧
      Manifest.ofJson? (x.manifest none).toJson = some (x.manifest none).asRead ∧
      (Manifest.ofJson? (x.manifest none).toJson = some (x.manifest none) ↔
        ∀ o ∈ x.operations, ∀ p ∈ o.parameters, p.default ≠ some .null) ∧
      ∀ d : WireType, d.HasFiniteNumbers → WireType.ofJson? d.toJson = some d := by
  have hvalid : (quoting (.ofNat 10)).Valid IsValue := valid_quoting ⟨rfl, by decide +kernel⟩
  have hwalk : ∃ w e, (quoter (.ofNat 10)).walk 4 = (.ok w, e) ∧ w.1.removals = [] ∧
      (Api.assemble ⟨w.1, w.1.links⟩).operations.map (fun o => o.parameters.map (·.default)) =
        [[some (.ofNat 10)]] :=
    ⟨_, _, rfl, rfl, rfl⟩
  obtain ⟨⟨f, ds⟩, e, hw, hnil, hoperations⟩ := hwalk
  obtain ⟨x, hx, hassembled, -⟩ := exists_run_of_walk hw hnil
  exact ⟨hvalid, x, hx, hassembled ▸ hoperations, ofJson?_toJson_manifest_iff hvalid .start 4 hx none⟩

/-- A default that is there and is `null` is gone from the manifest that is read. From a text, a number may
be read as the one beside it. -/
theorem ofJson?_toJson_manifest_ne : (quoting .null).Valid IsValue ∧
    (∃ x, ((quoter .null).run 4).1 = .ok x ∧
      Manifest.ofJson? (x.manifest none).toJson ≠ some (x.manifest none)) ∧
    ∃ d : WireType, d.HasFiniteNumbers ∧
      d.toJson.compact = "\x7b\"kind\":\"literal\",\"value\":1037.1990379168421\x7d" ∧
      ((Json.parse? .whole d.toJson.compact).bind WireType.ofJson?).map (·.toJson.compact) =
        some "\x7b\"kind\":\"literal\",\"value\":1037.199037916842\x7d" := by
  have hvalid : (quoting .null).Valid IsValue := valid_quoting ⟨rfl, by simp [Json.numbers]⟩
  have hwalk : ∃ w e, (quoter .null).walk 4 = (.ok w, e) ∧ w.1.removals = [] ∧
      (Api.assemble ⟨w.1, w.1.links⟩).operations.map (fun o => o.parameters.map (·.default)) =
        [[some .null]] :=
    ⟨_, _, rfl, rfl, rfl⟩
  obtain ⟨⟨f, ds⟩, e, hw, hnil, hoperations⟩ := hwalk
  obtain ⟨x, hx, hassembled, -⟩ := exists_run_of_walk hw hnil
  have hserves : Serves (quoting .null) .default (quoter .null) := UsedFrom.start.serves hvalid
  have hasRead := hserves.ofJson?_toJson_asRead (fun d hd => hd.isSettled) hvalid 4 hx none
  refine ⟨hvalid, ⟨x, hx, fun hread => ?_⟩, .literal (.number ⟨false, 4652276465056382465⟩), ?_,
    by decide +kernel, by decide +kernel⟩
  · rw [hasRead, Option.some_inj, Manifest.asRead_eq_self_iff] at hread
    obtain ⟨o, rest, ho, hdefault, -⟩ := List.map_eq_cons_iff.mp (hassembled ▸ hoperations)
    obtain ⟨p, _, hp, hnull, -⟩ := List.map_eq_cons_iff.mp hdefault
    have hmem : o ∈ x.operations := ho ▸ List.mem_cons_self
    exact hread o hmem p (hp ▸ List.mem_cons_self) hnull
  · have hvalue : (Json.number (.real ⟨false, 4652276465056382465⟩)).IsValue := ⟨rfl, by decide +kernel⟩
    exact .literal hvalue rfl

end Extractor

end AnnotatedApi
