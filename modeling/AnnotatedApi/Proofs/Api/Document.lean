import AnnotatedApi.Api.Manifest
import AnnotatedApi.Proofs.Compilation.Document
import AnnotatedApi.Proofs.WireType.Document

/-!
# Manifests are read as they were written

What a manifest holds can be written if the types in it have JSON forms and the numbers fit their words.
It is written without loss but for defaults that are `null`: these are read as absent ones.
-/

namespace AnnotatedApi

set_option autoImplicit false

open Json

theorem Verb.ofJson?_toJson (latitude : Latitude) (v : Verb) : ofJson? latitude v.toJson = some v := by
  cases v <;> rfl

theorem BindingKind.ofJson?_toJson (latitude : Latitude) (k : BindingKind) :
    ofJson? latitude k.toJson = some k := by
  cases k <;> rfl

namespace Api

/-- Whether a parameter can be written; the defaults are as `P` tells. -/
structure Parameter.Writable (P : Json → Prop) (p : Parameter) : Prop where
  type : p.type.HasFiniteNumbers
  default : ∀ d ∈ p.default, P d

structure Operation.Writable (P : Json → Prop) (o : Operation) : Prop where
  returnType : o.returnType.HasFiniteNumbers
  parameters : ∀ p ∈ o.parameters, p.Writable P
  status : ∀ code ∈ o.status, code < Nat.pow 2 16
  location : o.location.Writable

/-! ## What is read -/

def Parameter.asRead (p : Parameter) : Parameter := { p with default := Fields.present? p.default }

def Operation.asRead (o : Operation) : Operation :=
  { o with parameters := o.parameters.map Parameter.asRead }

def Manifest.asRead (m : Manifest) : Manifest := { m with operations := m.operations.map Operation.asRead }

theorem Parameter.asRead_eq_self_iff {p : Parameter} : p.asRead = p ↔ p.default ≠ some .null := by
  rw [← Fields.present?_eq_self_iff]
  exact ⟨congrArg Parameter.default, fun h => by rw [asRead, h]⟩

theorem Operation.asRead_eq_self_iff {o : Operation} :
    o.asRead = o ↔ ∀ p ∈ o.parameters, p.default ≠ some .null := by
  have hparameters : o.parameters.map Parameter.asRead = o.parameters ↔
      ∀ p ∈ o.parameters, p.default ≠ some .null := by
    rw [map_eq_self_iff]
    exact forall₂_congr fun _ _ => Parameter.asRead_eq_self_iff
  rw [← hparameters]
  exact ⟨congrArg Operation.parameters, fun h => by rw [asRead, h]⟩

/-- Nothing is lost of a manifest without such defaults, and of no other one. -/
theorem Manifest.asRead_eq_self_iff {m : Manifest} :
    m.asRead = m ↔ ∀ o ∈ m.operations, ∀ p ∈ o.parameters, p.default ≠ some .null := by
  have hoperations : m.operations.map Operation.asRead = m.operations ↔
      ∀ o ∈ m.operations, ∀ p ∈ o.parameters, p.default ≠ some .null := by
    rw [map_eq_self_iff]
    exact forall₂_congr fun _ _ => Operation.asRead_eq_self_iff
  rw [← hoperations]
  exact ⟨congrArg Manifest.operations, fun h => by rw [asRead, h]⟩

theorem Handler.ofJson?_toJson (h : Handler) : ofJson? h.toJson = some h := rfl

/-- The verbs and the operations of a group are written as two lists, of one length. -/
theorem RouteGroup.ofJson?_toJson (g : RouteGroup) : ofJson? g.toJson = some g := by
  have hverbs : list? (Verb.ofJson? .plain) (.array (g.entries.map (·.1.toJson))) =
      some (g.entries.map Prod.fst) := by
    have := list?_written fun verb (_ : verb ∈ g.entries.map Prod.fst) => verb.ofJson?_toJson .plain
    rwa [List.map_map] at this
  have hoperations : list? asNat? (.array (g.entries.map fun e => .ofNat e.2)) =
      some (g.entries.map Prod.snd) := by
    have := list?_written fun index (_ : index ∈ g.entries.map Prod.snd) => asNat?_ofNat index
    rwa [List.map_map] at this
  have hentries : (g.entries.map Prod.fst).zip (g.entries.map Prod.snd) = g.entries :=
    (List.zip_of_prod rfl rfl).symm
  rw [ofJson?, toJson]
  refine NamedBy.bind_record? (.refl _) (by decide) fun fields hget => ?_
  simp [Fields.needed, hget, Table.get?, asString?, hverbs, hoperations, hentries]

section

variable {P : Json → Prop} (hP : ∀ d, P d → d.IsSettled)

include hP

theorem Parameter.Writable.ofJson?_toJson {p : Parameter} (h : p.Writable P) :
    ofJson? p.toJson = some p.asRead := by
  rw [ofJson?, toJson]
  refine NamedBy.bind_record? ?_ (by decide) fun fields hget => ?_
  · simp only [List.append_assoc]
    exact .member (.member (.member (.member (.member (.member
      (.memberIfSome (.memberIfSome (.memberIfAny .lastIfSome))))))))
  have hdefault : fields.optional "default" anything? = some (Fields.present? p.default) :=
    Fields.optional_settled (by simp [hget, Table.get?_append]) fun d hd => hP d (h.default d hd)
  have hvalidator : fields.optional "validator" asString? = some p.validator :=
    Fields.optional_written (by simp [hget, Table.get?_append]) asString?_string
  have hstring : ∀ name ∈ p.dependsOn, asString? (.string name) = some name := fun _ _ => rfl
  have hdependsOn : fields.orElse "depends_on" [] (list? asString?) = some p.dependsOn :=
    Fields.list_written (by simp [hget, Table.get?_append]) hstring
  have hdescription : fields.optional "description" asString? = some p.description :=
    Fields.optional_written (by simp [hget, Table.get?_append]) asString?_string
  simp [Fields.needed, hget, Table.get?_append, asString?, asBool?, asNat?_ofNat,
    BindingKind.ofJson?_toJson, h.type.ofJson?_toJson, hdefault, hvalidator, hdependsOn, hdescription,
    asRead]

theorem Operation.Writable.ofJson?_toJson {o : Operation} (h : o.Writable P) :
    ofJson? o.toJson = some o.asRead := by
  rw [ofJson?, toJson]
  refine NamedBy.bind_record? ?_ (by decide) fun fields hget => ?_
  · simp only [List.append_assoc]
    exact .member (.member (.member (.member (.member (.member (.member
      (.memberIfAny (.memberIfSome (.memberIfSome .last)))))))))
  have hparameters := list?_written_as fun p hp => (h.parameters p hp).ofJson?_toJson hP
  have hstring : ∀ tag ∈ o.providers, asString? (.string tag) = some tag := fun _ _ => rfl
  have hproviders : fields.orElse "providers" [] (list? asString?) = some o.providers :=
    Fields.list_written (by simp [hget, Table.get?_append]) hstring
  have hcode : ∀ code ∈ o.status, statusOf? (.ofNat code) = some code ∧ Json.ofNat code ≠ .null := by
    intro code hcode
    have hlt := h.status code hcode
    exact ⟨by simp_all [statusOf?], by simp [Json.ofNat]⟩
  have hstatus : fields.optional "status" statusOf? = some o.status :=
    Fields.optional_written (by simp [hget, Table.get?_append]) hcode
  have hdescription : fields.optional "description" asString? = some o.description :=
    Fields.optional_written (by simp [hget, Table.get?_append]) asString?_string
  simp [Fields.needed, hget, Table.get?_append, asString?, asBool?, Verb.ofJson?_toJson,
    Handler.ofJson?_toJson, h.returnType.ofJson?_toJson, hparameters, hproviders, hstatus, hdescription,
    h.location.ofJson?_toJson, asRead]

theorem Manifest.ofJson?_toJson {m : Manifest} (h : ∀ o ∈ m.operations, o.Writable P) :
    ofJson? m.toJson = some m.asRead := by
  rw [ofJson?, toJson]
  refine NamedBy.bind_record? ?_ (by decide) fun fields hget => ?_
  · simp only [List.append_assoc]
    exact .member (.memberIfSome (.member .last))
  have hproject : fields.optional "project" asString? = some m.project :=
    Fields.optional_written (by simp [hget, Table.get?_append]) asString?_string
  have hoperations := list?_written_as fun o ho => (h o ho).ofJson?_toJson hP
  have hroutes := list?_written fun g (_ : g ∈ m.routes) => g.ofJson?_toJson
  simp [Fields.needed, hget, Table.get?_append, asString?, hproject, hoperations, hroutes, asRead]

end

end Api

end AnnotatedApi
