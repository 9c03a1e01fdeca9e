import AnnotatedApi.Proofs.Compilation.Writable

/-!
# Compilations are read as they were written

What can be written without loss is read again as it was: record by record, every member is found
where it was written, and what is left out stands for what was not there.
-/

namespace AnnotatedApi

set_option autoImplicit false

open Json

variable {P : Json → Prop}

/-! ## Places -/

theorem Position.Writable.ofJson?_toJson {p : Position} (h : p.Writable) : ofJson? p.toJson = some p := by
  rw [ofJson?, toJson]
  refine NamedBy.bind_record? (.cons (.cons (.cons .nil))) (by decide) fun fields hget => ?_
  simp [Fields.needed, Fields.orElse, hget, Table.get?, word32?_ofNat h.line, word32?_ofNat h.column,
    word32?_ofNat h.offset]

theorem Span.Writable.ofJson?_toJson {s : Span} (h : s.Writable) : ofJson? s.toJson = some s := by
  rw [ofJson?, toJson]
  refine NamedBy.bind_record? (.cons (.cons (.cons .nil))) (by decide) fun fields hget => ?_
  simp [Fields.needed, Fields.orElse, hget, Table.get?, asString?, h.start.ofJson?_toJson,
    h.stop.ofJson?_toJson]

/-! ## Type expressions -/

theorem Json.Present.anything? (hP : Hereditary P) {o : Option Json} (h : Present P o) :
    ∀ d ∈ o, anything? d = some d ∧ d ≠ .null := fun d hd =>
  ⟨congrArg some (hP.isSettled d (h d hd).1), (h d hd).2⟩

theorem FieldDecl.Writable.ofJson?_record {α : Type} {read : Json → Option α} {f : FieldDecl α}
    (hP : Hereditary P) (h : f.Writable P) {type : Json} (htype : read type = some f.type) :
    ofJson? read (f.record type) = some f := by
  rw [ofJson?, record]
  refine NamedBy.bind_record? ?_ (by decide) fun fields hget => ?_
  · simp only [List.append_assoc]
    exact .member (.member (.member (.memberIfSome (.memberIfSome .last))))
  have hdefault : fields.optional "default" anything? = some f.default :=
    Fields.optional_written (by simp [hget, Table.get?_append]) (h.default.anything? hP)
  have hdescription : fields.optional "description" asString? = some f.description :=
    Fields.optional_written (by simp [hget, Table.get?_append]) asString?_string
  simp [Fields.needed, Fields.orElse, hget, Table.get?_append, asString?, asBool?, htype, hdefault,
    hdescription, h.span.ofJson?_toJson]

namespace TypeExpr

/-- Whether the type is read as it was written. -/
abbrev IsReadBack : TypeExpr → Prop := ReadBack readWithin toJson

theorem isReadBack_of_readWith {t : TypeExpr} (h : ∀ depth latitude, t.toJson.depth ≤ depth →
    readWith latitude (readWithin depth .nested) t.toJson = some t) : t.IsReadBack :=
  ReadBack.of_step (fun _ _ _ => rfl) h

theorem fields_inside (hP : Hereditary P) {fs : List (FieldDecl TypeExpr)} (hfs : ∀ f ∈ fs, f.Writable P)
    (h : ∀ f ∈ fs, f.type.IsReadBack) {members : List (String × Json)} {depth : Nat}
    (hmem : ("fields", .array (fs.map fun f => f.record f.type.toJson)) ∈ members)
    (hdepth : (Json.object members).depth ≤ depth) :
    list? (FieldDecl.ofJson? (readWithin depth .nested))
      (.array (fs.map fun f => f.record f.type.toJson)) = some fs := by
  refine list?_written fun f hf => (hfs f hf).ofJson?_record hP ?_
  have hitem : f.record f.type.toJson ∈ fs.map fun f => f.record f.type.toJson :=
    List.mem_map_of_mem hf
  rw [FieldDecl.record] at hitem
  exact (h f hf).item_inside "fields" "type" (by simp [member]) hitem hmem hdepth

theorem isReadBack_keyword (name : String) : (keyword name).IsReadBack :=
  isReadBack_of_readWith fun _ _ _ => rfl

theorem isReadBack_parameter (name : String) : (parameter name).IsReadBack :=
  isReadBack_of_readWith fun _ _ _ => rfl

theorem isReadBack_literal {value : Json} (h : value.IsSettled) : (literal value).IsReadBack :=
  isReadBack_of_readWith fun depth latitude _ => by
    calc readWith latitude (readWithin depth .nested) (kindRecord "literal" [("value", value)])
        = some (literal value.settled) := rfl
      _ = some (literal value) := by rw [show value.settled = value from h]

theorem isReadBack_array {e : TypeExpr} (h : e.IsReadBack) : (array e).IsReadBack :=
  isReadBack_of_readWith fun depth latitude hdepth => by
    rw [toJson] at hdepth ⊢
    have he : readWithin depth .nested e.toJson = some e := h.inside "element" (.tail _ (.head _)) hdepth
    calc readWith latitude (readWithin depth .nested) (kindRecord "array" [("element", e.toJson)])
        = (readWithin depth .nested e.toJson).bind fun e => some (array e) := rfl
      _ = some (array e) := by rw [he, Option.bind_some]

theorem isReadBack_tuple {es : List TypeExpr} (h : ∀ e ∈ es, e.IsReadBack) : (tuple es).IsReadBack :=
  isReadBack_of_readWith fun depth latitude hdepth => by
    rw [toJson, toJsonList_eq_map] at hdepth ⊢
    have hes := ReadBack.list_inside "elements" h (.tail _ (.head _)) hdepth
    calc readWith latitude (readWithin depth .nested)
          (kindRecord "tuple" [("elements", .array (es.map toJson))])
        = (list? (readWithin depth .nested) (.array (es.map toJson))).bind fun es =>
            some (tuple es) := rfl
      _ = some (tuple es) := by rw [hes, Option.bind_some]

theorem isReadBack_union {ms : List TypeExpr} (h : ∀ m ∈ ms, m.IsReadBack) : (union ms).IsReadBack :=
  isReadBack_of_readWith fun depth latitude hdepth => by
    rw [toJson, toJsonList_eq_map] at hdepth ⊢
    have hms := ReadBack.list_inside "members" h (.tail _ (.head _)) hdepth
    calc readWith latitude (readWithin depth .nested)
          (kindRecord "union" [("members", .array (ms.map toJson))])
        = (list? (readWithin depth .nested) (.array (ms.map toJson))).bind fun ms =>
            some (union ms) := rfl
      _ = some (union ms) := by rw [hms, Option.bind_some]

theorem isReadBack_intersection {ms : List TypeExpr} (h : ∀ m ∈ ms, m.IsReadBack) :
    (intersection ms).IsReadBack :=
  isReadBack_of_readWith fun depth latitude hdepth => by
    rw [toJson, toJsonList_eq_map] at hdepth ⊢
    have hms := ReadBack.list_inside "members" h (.tail _ (.head _)) hdepth
    calc readWith latitude (readWithin depth .nested)
          (kindRecord "intersection" [("members", .array (ms.map toJson))])
        = (list? (readWithin depth .nested) (.array (ms.map toJson))).bind fun ms =>
            some (intersection ms) := rfl
      _ = some (intersection ms) := by rw [hms, Option.bind_some]

theorem isReadBack_reference (name : String) {args : List TypeExpr} (h : ∀ a ∈ args, a.IsReadBack) :
    (reference name args).IsReadBack := by
  cases args with
  | nil => exact isReadBack_of_readWith fun _ _ _ => rfl
  | cons a rest =>
    refine isReadBack_of_readWith fun depth latitude hdepth => ?_
    rw [toJson, toJsonList_eq_map] at hdepth ⊢
    have hargs := ReadBack.list_inside "type_arguments" h (.tail _ (.tail _ (.head _))) hdepth
    calc readWith latitude (readWithin depth .nested) (kindRecord "reference"
          [("name", .string name), ("type_arguments", .array ((a :: rest).map toJson))])
        = (list? (readWithin depth .nested) (.array ((a :: rest).map toJson))).bind fun args =>
            some (reference name args) := rfl
      _ = some (reference name (a :: rest)) := by rw [hargs, Option.bind_some]

theorem isReadBack_object (hP : Hereditary P) {fs : List (FieldDecl TypeExpr)}
    (hfs : ∀ f ∈ fs, f.Writable P) (h : ∀ f ∈ fs, f.type.IsReadBack) : (object fs).IsReadBack :=
  isReadBack_of_readWith fun depth latitude hdepth => by
    rw [toJson, toJsonFields_eq_map] at hdepth ⊢
    have hfields := fields_inside hP hfs h (.tail _ (.head _)) hdepth
    calc readWith latitude (readWithin depth .nested)
          (kindRecord "object" [("fields", .array (fs.map fun f => f.record f.type.toJson))])
        = (list? (FieldDecl.ofJson? (readWithin depth .nested))
            (.array (fs.map fun f => f.record f.type.toJson))).bind fun fs => some (object fs) := rfl
      _ = some (object fs) := by rw [hfields, Option.bind_some]

theorem isReadBack_function {ps : List TypeExpr} {result : TypeExpr} (h : ∀ p ∈ ps, p.IsReadBack)
    (hresult : result.IsReadBack) : (function ps result).IsReadBack :=
  isReadBack_of_readWith fun depth latitude hdepth => by
    rw [toJson, toJsonList_eq_map] at hdepth ⊢
    have hps := ReadBack.list_inside "params" h (.tail _ (.head _)) hdepth
    have hr := hresult.inside "return_type" (.tail _ (.tail _ (.head _))) hdepth
    calc readWith latitude (readWithin depth .nested)
          (kindRecord "function" [("params", .array (ps.map toJson)), ("return_type", result.toJson)])
        = (list? (readWithin depth .nested) (.array (ps.map toJson))).bind fun ps =>
            (readWithin depth .nested result.toJson).bind fun result =>
              some (function ps result) := rfl
      _ = some (function ps result) := by rw [hps, hr, Option.bind_some, Option.bind_some]

/-- By induction on the type, whatever the kind: a written type is nested more deeply than those in it. -/
theorem Writable.isReadBack {t : TypeExpr} (hP : Hereditary P) (h : t.Writable P) : t.IsReadBack := by
  induction h with
  | keyword name => exact isReadBack_keyword name
  | literal hvalue => exact isReadBack_literal (hP.isSettled _ hvalue)
  | array _ ih => exact isReadBack_array ih
  | tuple _ ih => exact isReadBack_tuple ih
  | union _ ih => exact isReadBack_union ih
  | intersection _ ih => exact isReadBack_intersection ih
  | reference name _ ih => exact isReadBack_reference name ih
  | parameter name => exact isReadBack_parameter name
  | object hfs _ ih => exact isReadBack_object hP hfs ih
  | function _ _ ih ihresult => exact isReadBack_function ih ihresult

theorem Writable.ofJson?_toJson {t : TypeExpr} (hP : Hereditary P) (h : t.Writable P) :
    ofJson? t.toJson = some t := h.isReadBack hP _ _ (Nat.lt_succ_self _)

theorem Writable.ofNestedJson?_toJson {t : TypeExpr} (hP : Hereditary P) (h : t.Writable P) :
    ofNestedJson? t.toJson = some t := h.isReadBack hP _ _ (Nat.lt_succ_self _)

end TypeExpr

theorem TypeExpr.written_optional (hP : Hereditary P) {o : Option TypeExpr} (h : ∀ t ∈ o, t.Writable P) :
    ∀ t ∈ o, ofJson? t.toJson = some t ∧ t.toJson ≠ .null := fun t ht =>
  ⟨(h t ht).ofJson?_toJson hP, t.toJson_ne_null⟩

/-! ## Type declarations -/

theorem TypeParameter.Writable.ofJson?_toJson {p : TypeParameter} (hP : Hereditary P)
    (h : p.Writable P) : ofJson? p.toJson = some p := by
  rw [ofJson?, toJson]
  refine NamedBy.bind_record? (.member .lastIfSome) (by decide) fun fields hget => ?_
  have hdefault : fields.optional "default" TypeExpr.ofJson? = some p.default :=
    Fields.optional_written (by simp [hget, Table.get?_append]) (TypeExpr.written_optional hP h)
  simp [Fields.needed, hget, Table.get?_append, asString?, hdefault]

theorem EnumMember.ofJson?_toJson {m : EnumMember} (h : m.value.IsSettled) :
    ofJson? m.toJson = some m := by
  calc ofJson? m.toJson
      = some ⟨m.name, m.value.settled⟩ := rfl
    _ = some m := by rw [show m.value.settled = m.value from h]

namespace TypeBody

/-- The names of the members of every kind of declaration, in an order that suits all of them. -/
def names : List String := ["kind", "extends", "fields", "target", "members"]

theorem namedBy_members (b : TypeBody) : NamedBy names b.members := by
  cases b with
  | interface bases fields =>
    rw [TypeBody.members, List.append_assoc]
    exact .member (.memberIfAny (.member .nil))
  | synonym target => exact .cons (.skip (.skip (.cons .nil)))
  | enumeration members => exact .cons (.skip (.skip (.skip (.cons .nil))))

/-- A body is read among the other members of its declaration. -/
theorem Writable.ofMembers?_eq {b : TypeBody} (hP : Hereditary P) (h : b.Writable P)
    {all : List (String × Json)} {allNames : List String} (hall : NamedBy allNames all)
    (hnames : allNames.Nodup) (hget : ∀ key ∈ names, Table.get? all key = Table.get? b.members key) :
    ∃ kind, Table.get? all "kind" = some (.string kind) ∧ ofMembers? kind all = some b := by
  cases h with
  | @interface bases fields hbases hfields =>
    refine ⟨"interface", hget _ (by decide), ?_⟩
    refine hall.bind_knownMembers? hnames fun known hknown => ?_
    have hget : ∀ key ∈ ["extends", "fields"], known.get? key =
        Table.get? (TypeBody.interface bases fields).members key := fun key hkey =>
      (hknown key hkey).trans (hget key (by revert key; decide))
    have hextends : known.orElse "extends" [] (list? TypeExpr.ofNestedJson?) = some bases := by
      refine Fields.list_written ?_ fun t ht => (hbases t ht).ofNestedJson?_toJson hP
      simp [hget, TypeBody.members, Table.get?_append, TypeExpr.toJsonList_eq_map]
    have hlist : list? (FieldDecl.ofJson? TypeExpr.ofNestedJson?)
        (.array (fields.map fun f => f.record f.type.toJson)) = some fields :=
      list?_written fun f hf =>
        (hfields f hf).1.ofJson?_record hP ((hfields f hf).2.ofNestedJson?_toJson hP)
    have hfields : known.orElse "fields" [] (list? (FieldDecl.ofJson? TypeExpr.ofNestedJson?)) =
        some fields := by
      simp [Fields.orElse, hget, TypeBody.members, Table.get?_append, TypeExpr.toJsonFields_eq_map,
        hlist]
    simp [hextends, hfields]
  | @synonym target htarget =>
    refine ⟨"alias", hget _ (by decide), ?_⟩
    refine hall.bind_knownMembers? hnames fun known hknown => ?_
    have hget : known.get? "target" = some target.toJson :=
      (hknown _ (by decide)).trans (hget _ (by decide))
    simp [Fields.needed, hget, htarget.ofNestedJson?_toJson hP]
  | @enumeration members hmembers =>
    refine ⟨"enum", hget _ (by decide), ?_⟩
    refine hall.bind_knownMembers? hnames fun known hknown => ?_
    have hget : known.get? "members" = some (.array (members.map EnumMember.toJson)) :=
      (hknown _ (by decide)).trans (hget _ (by decide))
    have hlist : list? EnumMember.ofJson? (.array (members.map EnumMember.toJson)) = some members :=
      list?_written fun m hm => EnumMember.ofJson?_toJson (hP.isSettled _ (hmembers m hm))
    simp [Fields.needed, hget, hlist]

end TypeBody

theorem TypeDecl.Writable.ofJson?_toJson {d : TypeDecl} (hP : Hereditary P) (h : d.Writable P) :
    ofJson? d.toJson = some d := by
  have hbody := d.body.namedBy_members
  obtain ⟨all, hall⟩ : ∃ all, all = member "name" (.string d.name) ++
    member "qualified_name" (.string d.qualifiedName) ++
    memberIfAny "type_parameters" (d.parameters.map TypeParameter.toJson) ++ d.body.members ++
    member "span" d.span.toJson := ⟨_, rfl⟩
  have hnamed : NamedBy ("name" :: "qualified_name" :: "type_parameters" :: (TypeBody.names ++ ["span"]))
      all := by
    simp only [hall, List.append_assoc]
    exact .member (.member (.memberIfAny (hbody.append .last)))
  have hinner : ∀ key ∈ TypeBody.names, Table.get? all key = Table.get? d.body.members key := by
    intro key hkey
    have hne : "name" ≠ key ∧ "qualified_name" ≠ key ∧ "type_parameters" ≠ key ∧ "span" ≠ key := by
      revert key
      decide
    simp [hall, Table.get?_append, hne]
  obtain ⟨kind, hget, hread⟩ := h.body.ofMembers?_eq hP hnamed (by decide) hinner
  rw [toJson, ← hall, ofJson?]
  refine hnamed.bind_knownMembers? (by decide) fun fields hfields => ?_
  have houter : ∀ key ∈ ["name", "qualified_name", "type_parameters", "span", "kind"],
      fields.get? key = Table.get? all key := fun key hkey => hfields key hkey
  have hnone : ∀ key ∈ ["name", "qualified_name", "type_parameters", "span"],
      Table.get? d.body.members key = none := fun key hkey =>
    hbody.get?_eq_none (by revert key; decide)
  have hparameters : fields.orElse "type_parameters" [] (list? TypeParameter.ofJson?) =
      some d.parameters := by
    refine Fields.list_written ?_ fun p hp => (h.parameters p hp).ofJson?_toJson hP
    simp [houter, hnone, hall, Table.get?_append]
  have hspan : fields.orElse "span" .nowhere Span.ofJson? = some d.span :=
    Fields.orElse_written (by simp [houter, hnone, hall, Table.get?_append]) h.span.ofJson?_toJson
  have hname : fields.needed "name" asString? = some d.name := by
    simp [Fields.needed, houter, hall, Table.get?_append, asString?]
  have hqualified : fields.needed "qualified_name" asString? = some d.qualifiedName := by
    simp [Fields.needed, houter, hall, Table.get?_append, asString?]
  have hkindOf : fields.needed "kind" (kindOf? .nested TypeBody.kinds) = some kind := by
    simp [Fields.needed, houter, hget, kindOf?]
  simp [hkindOf, hname, hqualified, hparameters, hread, hspan]

/-! ## Classes -/

theorem Annotation.Argument.Writable.ofJson?_toJson {a : Annotation.Argument} (h : a.Writable P) :
    ofJson? a.toJson = some a := by
  cases h with
  | identifier name => rfl
  | literal _ hread => exact hread

theorem Annotation.Use.Writable.ofJson?_toJson {a : Annotation.Use} (h : a.Writable P) :
    ofJson? a.toJson = some a := by
  rw [ofJson?, toJson]
  refine NamedBy.bind_record? (.cons (.cons (.cons .nil))) (by decide) fun fields hget => ?_
  have harguments := list?_written fun a' ha' => (h.arguments a' ha').ofJson?_toJson
  simp [Fields.needed, Fields.orElse, hget, Table.get?, asString?, harguments, h.span.ofJson?_toJson]

theorem list?_annotationsJson {uses : List Annotation.Use} (h : ∀ a ∈ uses, a.Writable P) :
    list? Annotation.Use.ofJson? (annotationsJson uses) = some uses :=
  list?_written fun a ha => (h a ha).ofJson?_toJson

theorem ParameterDecl.Writable.ofJson?_toJson {p : ParameterDecl} (hP : Hereditary P)
    (h : p.Writable P) : ofJson? p.toJson = some p := by
  rw [ofJson?, toJson]
  refine NamedBy.bind_record? ?_ (by decide) fun fields hget => ?_
  · simp only [List.append_assoc]
    exact .member (.member (.memberIfSome (.member (.memberIfSome (.memberIfSome .last)))))
  have htype : fields.optional "type" TypeExpr.ofJson? = some p.type :=
    Fields.optional_written (by simp [hget, Table.get?_append]) (TypeExpr.written_optional hP h.type)
  have hdefault : fields.optional "default" anything? = some p.default :=
    Fields.optional_written (by simp [hget, Table.get?_append]) (h.default.anything? hP)
  have hdoc : fields.optional "doc" asString? = some p.doc :=
    Fields.optional_written (by simp [hget, Table.get?_append]) asString?_string
  simp [Fields.needed, Fields.orElse, hget, Table.get?_append, asString?, asBool?, htype, hdefault, hdoc,
    list?_annotationsJson h.annotations, h.span.ofJson?_toJson]

theorem list?_parametersJson {ps : List ParameterDecl} (hP : Hereditary P) (h : ∀ p ∈ ps, p.Writable P) :
    list? ParameterDecl.ofJson? (.array (ps.map ParameterDecl.toJson)) = some ps :=
  list?_written fun p hp => (h p hp).ofJson?_toJson hP

theorem MethodDecl.Writable.ofJson?_toJson {m : MethodDecl} (hP : Hereditary P) (h : m.Writable P) :
    ofJson? m.toJson = some m := by
  rw [ofJson?, toJson]
  refine NamedBy.bind_record? ?_ (by decide) fun fields hget => ?_
  · simp only [List.append_assoc]
    exact .member (.member (.member (.memberIfSome (.memberIfSome .last))))
  have hreturn : fields.optional "return_type" TypeExpr.ofJson? = some m.returnType :=
    Fields.optional_written (by simp [hget, Table.get?_append])
      (TypeExpr.written_optional hP h.returnType)
  have hdoc : fields.optional "doc" asString? = some m.doc :=
    Fields.optional_written (by simp [hget, Table.get?_append]) asString?_string
  simp [Fields.needed, Fields.orElse, hget, Table.get?_append, asString?, hreturn, hdoc,
    list?_annotationsJson h.annotations, list?_parametersJson hP h.parameters, h.span.ofJson?_toJson]

theorem ConstructorDecl.Writable.ofJson?_toJson {c : ConstructorDecl} (hP : Hereditary P)
    (h : c.Writable P) : ofJson? c.toJson = some c := by
  rw [ofJson?, toJson]
  refine NamedBy.bind_record? (.cons (.cons .nil)) (by decide) fun fields hget => ?_
  simp [Fields.orElse, hget, Table.get?, list?_parametersJson hP h.parameters, h.span.ofJson?_toJson]

theorem ClassDecl.Writable.ofJson?_toJson {c : ClassDecl} (hP : Hereditary P) (h : c.Writable P) :
    ofJson? c.toJson = some c := by
  rw [ofJson?, toJson]
  refine NamedBy.bind_record? ?_ (by decide) fun fields hget => ?_
  · simp only [List.append_assoc]
    exact .member (.member (.member (.memberIfSome (.member .last))))
  have hwritten : ∀ k ∈ c.constructor,
      ConstructorDecl.ofJson? k.toJson = some k ∧ k.toJson ≠ .null := by
    intro k hk
    exact ⟨(h.constructor k hk).ofJson?_toJson hP, by simp [ConstructorDecl.toJson]⟩
  have hconstructor : fields.optional "constructor" ConstructorDecl.ofJson? = some c.constructor :=
    Fields.optional_written (by simp [hget, Table.get?_append]) hwritten
  have hmethods := list?_written fun m hm => (h.methods m hm).ofJson?_toJson hP
  simp [Fields.needed, Fields.orElse, hget, Table.get?_append, asString?, hconstructor, hmethods,
    list?_annotationsJson h.annotations, h.span.ofJson?_toJson]

/-! ## Compilations -/

theorem Compilation.Writable.ofJson?_toJson {c : Compilation} (hP : Hereditary P) (h : c.Writable P) :
    ofJson? c.toJson = some c := by
  rw [ofJson?, toJson]
  refine NamedBy.bind_record? ?_ (by decide) fun fields hget => ?_
  · simp only [List.append_assoc]
    exact .memberIfAny (.member .last)
  have hstring : ∀ file ∈ c.sourceFiles, asString? (.string file) = some file := fun _ _ => rfl
  have hfiles : fields.orElse "source_files" [] (list? asString?) = some c.sourceFiles :=
    Fields.list_written (by simp [hget, Table.get?_append]) hstring
  have hclasses : fields.orElse "classes" [] (list? ClassDecl.ofJson?) = some c.classes :=
    Fields.orElse_written (by simp [hget, Table.get?_append])
      (list?_written fun d hd => (h.classes d hd).ofJson?_toJson hP)
  have htypes : fields.orElse "types" [] (list? TypeDecl.ofJson?) = some c.types :=
    Fields.orElse_written (by simp [hget, Table.get?_append])
      (list?_written fun d hd => (h.types d hd).ofJson?_toJson hP)
  simp [hfiles, hclasses, htypes]

/-- A compilation that is read from any JSON value is written as a value from which the same compilation
is read. In the text of a document an object may repeat a name, in a value it cannot. -/
theorem Compilation.ofJson?_toJson_of_ofJson? {v : Json} {c : Compilation} (hv : v.IsSettled)
    (h : ofJson? v = some c) : ofJson? c.toJson = some c := by
  have hwritable : c.Writable IsSettled := Compilation.reads hereditary_isSettled v c hv h
  exact hwritable.ofJson?_toJson hereditary_isSettled

/-- A class in a document, some of it written as arrays and some left out: a literal next to an
identifier, a default next to a `null`, and a type in a type. -/
def Compilation.listing : Json :=
  .object [("classes", .array [.object [
    ("name", .string "Notes"), ("qualified_name", .string "notes.ts#Notes"),
    ("annotations", .array [.object [("name", .string "Controller"), ("args", .array [
      .object [("identifier", .string "notes"), ("line", .ofNat 1)],
      .object [("identifier", .ofNat 3)]])]]),
    ("methods", .array [.object [
      ("name", .string "list"),
      ("params", .array [.array [.string "limit", .array [], .object [
        ("name", .string "number"), ("kind", .string "keyword")], .bool true, .ofNat 10, .null]]),
      ("return_type", .object [("kind", .string "reference"), ("name", .string "Promise"),
        ("type_arguments", .array [.object [("kind", .ofNat 2), ("element", .array [
          .string "literal", .object [("identifier", .string "x")]])]])]),
      ("span", .object [("file", .string "notes.ts"), ("start", .array [.ofNat 3, .ofNat 1])])]])]])]

theorem Compilation.ofJson?_toJson_listing : ∃ c, ofJson? listing = some c ∧ listing.IsSettled ∧
    c.toJson ≠ listing ∧ ofJson? c.toJson = some c := by
  have hread : ∃ c, ofJson? listing = some c ∧ c.toJson ≠ listing := ⟨_, rfl, fun h => by cases h⟩
  obtain ⟨c, hc, hne⟩ := hread
  have hsettled : listing.IsSettled := rfl
  exact ⟨c, hc, hsettled, hne, ofJson?_toJson_of_ofJson? hsettled hc⟩

/-- A repeated name hides the identifier from the reader of the text, but not from that of the value. -/
example : Annotation.Argument.ofJson?
    (.object [("identifier", .string "a"), ("identifier", .string "b")]) =
      some (.literal (.object [("identifier", .string "b")])) := rfl

end AnnotatedApi
