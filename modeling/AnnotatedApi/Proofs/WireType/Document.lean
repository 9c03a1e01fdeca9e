import AnnotatedApi.Proofs.Json.Record
import AnnotatedApi.Proofs.WireType.OpenReferences
import AnnotatedApi.WireType.Document

/-!
# Wire types are read as they were written

A number that is not finite has no JSON form. A type without one is read again as it was written,
whatever its kinds and however they are nested.
-/

namespace AnnotatedApi

set_option autoImplicit false

open Json

/-- Whether every literal number in the type is finite. -/
def WireType.HasFiniteNumbers (w : WireType) : Prop :=
  ∀ x, w.Contains (.literal (.number x)) → x.isFinite = true

theorem Primitive.ofJson?_toJson (latitude : Latitude) (p : Primitive) :
    ofJson? latitude p.toJson = some p := by
  cases p <;> rfl

theorem Literal.ofJson?_toJson {l : Literal} (h : ∀ x, l = .number x → x.isFinite = true) :
    ofJson? l.toJson = some l := by
  cases l with
  | number x =>
    have hx : x.isFinite = true := h x rfl
    rw [toJson, if_pos hx]
    rfl
  | _ => rfl

theorem Field.ofJson?_record {α : Type} {read : Json → Option α} {f : Field α} {type : Json}
    (htype : read type = some f.type) :
    ofJson? read (record f.name type f.required f.description) = some f := by
  rw [ofJson?, record]
  refine NamedBy.bind_record? ?_ (by decide) fun fields hget => ?_
  · simp only [List.append_assoc]
    exact .member (.member (.member .lastIfSome))
  have hdescription : fields.optional "description" asString? = some f.description :=
    Fields.optional_written (by simp [hget, Table.get?_append]) asString?_string
  simp [Fields.needed, hget, Table.get?_append, asString?, asBool?, htype, hdescription]

namespace WireType

theorem HasFiniteNumbers.child {t u : WireType} (h : t.HasFiniteNumbers) (hu : u ∈ t.children) :
    u.HasFiniteNumbers := fun x hx => h x (.child hu hx)

abbrev IsReadBack : WireType → Prop := ReadBack readWithin toJson

theorem isReadBack_of_readWith {t : WireType} (h : ∀ depth latitude, t.toJson.depth ≤ depth →
    readWith latitude (readWithin depth .nested) t.toJson = some t) : t.IsReadBack :=
  ReadBack.of_step (fun _ _ _ => rfl) h

theorem isReadBack_primitive (p : Primitive) : (primitive p).IsReadBack :=
  isReadBack_of_readWith fun depth latitude _ => by
    calc readWith latitude (readWithin depth .nested) (ofKind "primitive" [("primitive", p.toJson)])
        = (Primitive.ofJson? .nested p.toJson).bind fun p => some (primitive p) := rfl
      _ = some (primitive p) := by rw [Primitive.ofJson?_toJson, Option.bind_some]

theorem isReadBack_literal {l : Literal} (h : Literal.ofJson? l.toJson = some l) :
    (literal l).IsReadBack :=
  isReadBack_of_readWith fun depth latitude _ => by
    calc readWith latitude (readWithin depth .nested) (ofKind "literal" [("value", l.toJson)])
        = (Literal.ofJson? l.toJson).bind fun l => some (literal l) := rfl
      _ = some (literal l) := by rw [h, Option.bind_some]

theorem isReadBack_unexpanded (name : String) : (unexpanded name).IsReadBack :=
  isReadBack_of_readWith fun _ _ _ => rfl

theorem isReadBack_back (identity : String) : (back identity).IsReadBack :=
  isReadBack_of_readWith fun _ _ _ => rfl

theorem isReadBack_array {e : WireType} (h : e.IsReadBack) : (array e).IsReadBack :=
  isReadBack_of_readWith fun depth latitude hdepth => by
    rw [toJson] at hdepth ⊢
    have he : readWithin depth .nested e.toJson = some e := h.inside "element" (.tail _ (.head _)) hdepth
    calc readWith latitude (readWithin depth .nested) (ofKind "array" [("element", e.toJson)])
        = (readWithin depth .nested e.toJson).bind fun e => some (array e) := rfl
      _ = some (array e) := by rw [he, Option.bind_some]

theorem isReadBack_promise {t : WireType} (h : t.IsReadBack) : (promise t).IsReadBack :=
  isReadBack_of_readWith fun depth latitude hdepth => by
    rw [toJson] at hdepth ⊢
    have ht : readWithin depth .nested t.toJson = some t := h.inside "inner" (.tail _ (.head _)) hdepth
    calc readWith latitude (readWithin depth .nested) (ofKind "promise" [("inner", t.toJson)])
        = (readWithin depth .nested t.toJson).bind fun t => some (promise t) := rfl
      _ = some (promise t) := by rw [ht, Option.bind_some]

theorem isReadBack_union {ms : List WireType} (h : ∀ m ∈ ms, m.IsReadBack) : (union ms).IsReadBack :=
  isReadBack_of_readWith fun depth latitude hdepth => by
    rw [toJson, toJsonList_eq_map] at hdepth ⊢
    have hms := ReadBack.list_inside "members" h (.tail _ (.head _)) hdepth
    calc readWith latitude (readWithin depth .nested)
          (ofKind "union" [("members", .array (ms.map toJson))])
        = (list? (readWithin depth .nested) (.array (ms.map toJson))).bind fun ms =>
            some (union ms) := rfl
      _ = some (union ms) := by rw [hms, Option.bind_some]

theorem isReadBack_generic (name : String) {args : List WireType} (h : ∀ a ∈ args, a.IsReadBack) :
    (generic name args).IsReadBack := by
  cases args with
  | nil => exact isReadBack_of_readWith fun _ _ _ => rfl
  | cons a rest =>
    refine isReadBack_of_readWith fun depth latitude hdepth => ?_
    rw [toJson, toJsonList_eq_map] at hdepth ⊢
    have hargs := ReadBack.list_inside "type_arguments" h (.tail _ (.tail _ (.head _))) hdepth
    calc readWith latitude (readWithin depth .nested) (ofKind "generic-reference"
          [("name", .string name), ("type_arguments", .array ((a :: rest).map toJson))])
        = (list? (readWithin depth .nested) (.array ((a :: rest).map toJson))).bind fun args =>
            some (generic name args) := rfl
      _ = some (generic name (a :: rest)) := by rw [hargs, Option.bind_some]

theorem fields_inside {fs : List (Field WireType)} (h : ∀ f ∈ fs, f.type.IsReadBack)
    {members : List (String × Json)} {depth : Nat}
    (hmem : ("fields", .array (fs.map fun f =>
      Field.record f.name f.type.toJson f.required f.description)) ∈ members)
    (hdepth : (Json.object members).depth ≤ depth) :
    list? (Field.ofJson? (readWithin depth .nested)) (.array (fs.map fun f =>
      Field.record f.name f.type.toJson f.required f.description)) = some fs := by
  refine list?_written fun f hf => Field.ofJson?_record ?_
  have hitem : Field.record f.name f.type.toJson f.required f.description ∈ fs.map fun f =>
      Field.record f.name f.type.toJson f.required f.description := List.mem_map_of_mem hf
  rw [Field.record] at hitem
  exact (h f hf).item_inside "fields" "type" (by simp [member]) hitem hmem hdepth

theorem isReadBack_object (identity : String) (name : Option String) {args : List WireType}
    {fs : List (Field WireType)} (hargs : ∀ a ∈ args, a.IsReadBack)
    (hfs : ∀ f ∈ fs, f.type.IsReadBack) : (object identity name args fs).IsReadBack :=
  isReadBack_of_readWith fun depth latitude hdepth => by
    rw [toJson, toJsonList_eq_map, toJsonFields_eq_map] at hdepth ⊢
    have hnamed : NamedBy ["identity", "name", "type_arguments", "fields"]
        (member "identity" (.string identity) ++ memberIfSome "name" (name.map .string) ++
          memberIfAny "type_arguments" (args.map toJson) ++
          member "fields" (.array (fs.map fun f =>
            Field.record f.name f.type.toJson f.required f.description))) := by
      simp only [List.append_assoc]
      exact .member (.memberIfSome (.memberIfAny .last))
    have hlist : ∀ a ∈ args, readWithin depth .nested a.toJson = some a := fun a ha =>
      have hitem : a.toJson ∈ args.map toJson := List.mem_map_of_mem ha
      (hargs a ha).element_inside "type_arguments" hitem
        (List.mem_cons_of_mem _ (by simp [mem_memberIfAny hitem])) hdepth
    have hrecords := fields_inside hfs (List.mem_cons_of_mem _ (by simp [member])) hdepth
    rw [readWith, ofKind, hnamed.kindAndRest? (by decide)]
    simp only [Option.bind_eq_bind, Option.bind_some]
    refine hnamed.bind_record? (by decide) fun fields hget => ?_
    have hname : fields.optional "name" asString? = some name :=
      Fields.optional_written (by simp [hget, Table.get?_append]) asString?_string
    have harguments : fields.orElse "type_arguments" [] (list? (readWithin depth .nested)) = some args :=
      Fields.list_written (by simp [hget, Table.get?_append]) hlist
    simp [Fields.needed, hget, Table.get?_append, asString?, hname, harguments, hrecords]

/-- By induction on the type, whatever the kind: a written type is nested more deeply than those in it. -/
theorem HasFiniteNumbers.isReadBack {t : WireType} (h : t.HasFiniteNumbers) : t.IsReadBack := by
  induction t using induction_children with
  | step t ih =>
    have hchildren : ∀ u ∈ t.children, u.IsReadBack := fun u hu => ih u hu (h.child hu)
    cases t with
    | primitive p => exact isReadBack_primitive p
    | literal l =>
      refine isReadBack_literal (Literal.ofJson?_toJson ?_)
      rintro x rfl
      exact h x .self
    | array e => exact isReadBack_array (hchildren e (List.mem_singleton_self _))
    | object identity name args fs =>
      exact isReadBack_object identity name (fun a ha => hchildren a (List.mem_append_left _ ha))
        fun f hf => hchildren _ (List.mem_append_right _ (List.mem_map_of_mem hf))
    | union ms => exact isReadBack_union hchildren
    | generic name args => exact isReadBack_generic name hchildren
    | promise t => exact isReadBack_promise (hchildren t (List.mem_singleton_self _))
    | unexpanded name => exact isReadBack_unexpanded name
    | back identity => exact isReadBack_back identity

theorem HasFiniteNumbers.ofJson?_toJson {t : WireType} (h : t.HasFiniteNumbers) :
    ofJson? t.toJson = some t := h.isReadBack _ _ (Nat.lt_succ_self _)

end WireType

end AnnotatedApi
