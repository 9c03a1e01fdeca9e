import AnnotatedApi.Compilation.Document
import AnnotatedApi.Proofs.Json.Record

/-!
# What can be written

A compilation can be written without loss if its numbers fit their words, no value that may be absent
is `null`, and no literal argument has the form of an identifier. Every compilation that is read from a
document is of this kind, and the JSON values in it are as those of the document: they have every
property `P` that all values inside it have.
-/

namespace AnnotatedApi

set_option autoImplicit false

open Json

/-! ## Places -/

structure Position.Writable (p : Position) : Prop where
  line : p.line < Nat.pow 2 32
  column : p.column < Nat.pow 2 32
  offset : p.offset < Nat.pow 2 32

theorem Position.writable_zero : zero.Writable := ⟨by decide, by decide, by decide⟩

structure Span.Writable (s : Span) : Prop where
  start : s.start.Writable
  stop : s.stop.Writable

theorem Span.writable_nowhere : nowhere.Writable := ⟨Position.writable_zero, Position.writable_zero⟩

section

variable {P : Json → Prop}

theorem Position.reads (hP : Hereditary P) : Reads P Position.ofJson? Writable := by
  intro v p hv h
  simp only [Position.ofJson?, Option.bind_eq_bind, Option.bind_eq_some_iff, Option.pure_def,
    Option.some.injEq] at h
  obtain ⟨fields, hfields, line, hline, column, hcolumn, offset, hoffset, rfl⟩ := h
  have hall := (hP.inside v hv).record hfields
  have hword := reads_word32 P
  exact ⟨hword.needed hall hline, hword.needed hall hcolumn, hword.orElse hall (by decide) hoffset⟩

theorem Span.reads (hP : Hereditary P) : Reads P Span.ofJson? Writable := by
  intro v s hv h
  simp only [Span.ofJson?, Option.bind_eq_bind, Option.bind_eq_some_iff, Option.pure_def,
    Option.some.injEq] at h
  obtain ⟨fields, hfields, file, -, start, hstart, stop, hstop, rfl⟩ := h
  have hall := (hP.inside v hv).record hfields
  have hposition := Position.reads hP
  exact ⟨hposition.needed hall hstart, hposition.orElse hall Position.writable_zero hstop⟩

end

variable (P : Json → Prop)

/-- Whether a value that may be absent has a property, and is not `null`, which stands for an absent
one. -/
def Json.Present (default : Option Json) : Prop := ∀ d ∈ default, P d ∧ d ≠ .null

/-! ## Type expressions -/

/-- What a field needs apart from its type. -/
structure FieldDecl.Writable {α : Type} (f : FieldDecl α) : Prop where
  default : Present P f.default
  span : f.span.Writable

inductive TypeExpr.Writable : TypeExpr → Prop
  | keyword (name : String) : Writable (.keyword name)
  | literal {value : Json} : P value → Writable (.literal value)
  | array {e : TypeExpr} : Writable e → Writable (.array e)
  | tuple {es : List TypeExpr} : (∀ e ∈ es, Writable e) → Writable (.tuple es)
  | union {ms : List TypeExpr} : (∀ m ∈ ms, Writable m) → Writable (.union ms)
  | intersection {ms : List TypeExpr} : (∀ m ∈ ms, Writable m) → Writable (.intersection ms)
  | reference (name : String) {args : List TypeExpr} : (∀ a ∈ args, Writable a) →
    Writable (.reference name args)
  | parameter (name : String) : Writable (.parameter name)
  | object {fs : List (FieldDecl TypeExpr)} : (∀ f ∈ fs, f.Writable P) →
    (∀ f ∈ fs, Writable f.type) → Writable (.object fs)
  | function {ps : List TypeExpr} {result : TypeExpr} : (∀ p ∈ ps, Writable p) → Writable result →
    Writable (.function ps result)

section

variable {P}

theorem FieldDecl.reads {α : Type} {read : Json → Option α} {Q : α → Prop} (hP : Hereditary P)
    (hread : Reads P read Q) :
    Reads P (FieldDecl.ofJson? read) fun f => f.Writable P ∧ Q f.type := by
  intro v f hv h
  simp only [FieldDecl.ofJson?, Option.bind_eq_bind, Option.bind_eq_some_iff, Option.pure_def,
    Option.some.injEq] at h
  obtain ⟨fields, hfields, name, -, type, htype, opt, -, default, hdefault, description, -, span,
    hspan, rfl⟩ := h
  have hall := (hP.inside v hv).record hfields
  exact ⟨⟨hP.default.optional hall hdefault,
    (Span.reads hP).orElse hall Span.writable_nowhere hspan⟩, hread.needed hall htype⟩

namespace TypeExpr

/-- One step of reading a type, in which the types inside are read somehow. -/
theorem reads_readWith (hP : Hereditary P) {read : Json → Option TypeExpr}
    (hread : Reads P read (Writable P)) (latitude : Latitude) :
    Reads P (readWith latitude read) (Writable P) := by
  intro v t hv h
  simp only [readWith, Option.bind_eq_bind, Option.bind_eq_some_iff] at h
  obtain ⟨⟨kind, rest⟩, hkind, h⟩ := h
  have hrest := (hP.inside v hv).rest hkind
  have hlist := hread.list hP
  dsimp only at h
  split at h
  all_goals
    simp only [Option.bind_eq_some_iff, Option.pure_def, Option.some.injEq, reduceCtorEq] at h
  case h_1 | h_8 =>
    obtain ⟨fields, -, name, -, rfl⟩ := h
    constructor
  case h_2 =>
    obtain ⟨fields, hfields, value, hvalue, rfl⟩ := h
    exact .literal (hP.anything.needed (hrest.record hfields) hvalue)
  case h_3 =>
    obtain ⟨fields, hfields, e, he, rfl⟩ := h
    exact .array (hread.needed (hrest.record hfields) he)
  case h_4 =>
    obtain ⟨fields, hfields, es, hes, rfl⟩ := h
    exact .tuple (hlist.needed (hrest.record hfields) hes)
  case h_5 =>
    obtain ⟨fields, hfields, ms, hms, rfl⟩ := h
    exact .union (hlist.needed (hrest.record hfields) hms)
  case h_6 =>
    obtain ⟨fields, hfields, ms, hms, rfl⟩ := h
    exact .intersection (hlist.needed (hrest.record hfields) hms)
  case h_7 =>
    obtain ⟨fields, hfields, name, -, args, hargs, rfl⟩ := h
    exact .reference name (hlist.orElse (hrest.record hfields) (by simp) hargs)
  case h_9 =>
    obtain ⟨fields, hfields, fs, hfs, rfl⟩ := h
    have hfs := ((FieldDecl.reads hP hread).list hP).needed (hrest.record hfields) hfs
    exact .object (fun f hf => (hfs f hf).1) fun f hf => (hfs f hf).2
  case h_10 =>
    obtain ⟨fields, hfields, ps, hps, result, hresult, rfl⟩ := h
    have hall := hrest.record hfields
    exact .function (hlist.orElse hall (by simp) hps) (hread.needed hall hresult)

theorem reads_readWithin (hP : Hereditary P) (depth : Nat) (latitude : Latitude) :
    Reads P (readWithin depth latitude) (Writable P) := by
  induction depth generalizing latitude with
  | zero =>
    intro v t _ h
    cases h
  | succ depth ih => exact reads_readWith hP (ih .nested) latitude

theorem reads (hP : Hereditary P) : Reads P ofJson? (Writable P) :=
  fun v => reads_readWithin hP (v.depth + 1) .plain v

theorem reads_nested (hP : Hereditary P) : Reads P ofNestedJson? (Writable P) :=
  fun v => reads_readWithin hP (v.depth + 1) .nested v

end TypeExpr

end

/-! ## Type declarations -/

def TypeParameter.Writable (p : TypeParameter) : Prop := ∀ t ∈ p.default, t.Writable P

inductive TypeBody.Writable : TypeBody → Prop
  | interface {bases : List TypeExpr} {fields : List (FieldDecl TypeExpr)} :
    (∀ b ∈ bases, b.Writable P) → (∀ f ∈ fields, f.Writable P ∧ f.type.Writable P) →
    Writable (.interface bases fields)
  | synonym {target : TypeExpr} : target.Writable P → Writable (.synonym target)
  | enumeration {members : List EnumMember} : (∀ m ∈ members, P m.value) →
    Writable (.enumeration members)

structure TypeDecl.Writable (d : TypeDecl) : Prop where
  parameters : ∀ p ∈ d.parameters, p.Writable P
  body : d.body.Writable P
  span : d.span.Writable

section

variable {P}

theorem TypeParameter.reads (hP : Hereditary P) : Reads P TypeParameter.ofJson? (Writable P) := by
  intro v p hv h
  simp only [TypeParameter.ofJson?, Option.bind_eq_bind, Option.bind_eq_some_iff, Option.pure_def,
    Option.some.injEq] at h
  obtain ⟨fields, hfields, name, -, default, hdefault, rfl⟩ := h
  have hall := (hP.inside v hv).record hfields
  exact (TypeExpr.reads hP).of_and.optional hall hdefault

theorem EnumMember.reads (hP : Hereditary P) : Reads P EnumMember.ofJson? fun m => P m.value := by
  intro v m hv h
  simp only [EnumMember.ofJson?, Option.bind_eq_bind, Option.bind_eq_some_iff, Option.pure_def,
    Option.some.injEq] at h
  obtain ⟨fields, hfields, name, -, value, hvalue, rfl⟩ := h
  exact hP.anything.needed ((hP.inside v hv).record hfields) hvalue

theorem TypeBody.writable_of_ofMembers? (hP : Hereditary P) {kind : String}
    {members : List (String × Json)} (hmembers : (Json.object members).Inside P) {b : TypeBody}
    (h : ofMembers? kind members = some b) : b.Writable P := by
  have hnested := TypeExpr.reads_nested hP
  unfold ofMembers? at h
  split at h
  all_goals
    simp only [Option.bind_eq_bind, Option.bind_eq_some_iff, Option.pure_def, Option.some.injEq,
      reduceCtorEq] at h
  case h_1 =>
    obtain ⟨known, hknown, bases, hbases, fields, hfields, rfl⟩ := h
    have hall := hmembers.knownMembers hknown
    exact .interface ((hnested.list hP).orElse hall (by simp) hbases)
      (((FieldDecl.reads hP hnested).list hP).orElse hall (by simp) hfields)
  case h_2 =>
    obtain ⟨known, hknown, target, htarget, rfl⟩ := h
    exact .synonym (hnested.needed (hmembers.knownMembers hknown) htarget)
  case h_3 =>
    obtain ⟨known, hknown, members, hlist, rfl⟩ := h
    exact .enumeration (((EnumMember.reads hP).list hP).needed (hmembers.knownMembers hknown) hlist)

theorem TypeDecl.reads (hP : Hereditary P) : Reads P TypeDecl.ofJson? (Writable P) := by
  intro v d hv h
  cases v with
  | object members =>
    simp only [TypeDecl.ofJson?, Option.bind_eq_bind, Option.bind_eq_some_iff, Option.pure_def,
      Option.some.injEq] at h
    obtain ⟨fields, hfields, kind, -, name, -, qualifiedName, -, parameters, hparameters, body, hbody,
      span, hspan, rfl⟩ := h
    have hinside := hP.inside _ hv
    have hall := hinside.knownMembers hfields
    exact {
      parameters := ((TypeParameter.reads hP).list hP).orElse hall (by simp) hparameters
      body := TypeBody.writable_of_ofMembers? hP hinside hbody
      span := (Span.reads hP).orElse hall Span.writable_nowhere hspan }
  | _ => cases h

end

/-! ## Classes -/

/-- A literal argument is not read as an identifier. -/
inductive Annotation.Argument.Writable : Annotation.Argument → Prop
  | identifier (name : String) : Writable (.identifier name)
  | literal {value : Json} : P value → ofJson? value = some (.literal value) → Writable (.literal value)

structure Annotation.Use.Writable (a : Annotation.Use) : Prop where
  arguments : ∀ argument ∈ a.arguments, argument.Writable P
  span : a.span.Writable

structure ParameterDecl.Writable (p : ParameterDecl) : Prop where
  annotations : ∀ a ∈ p.annotations, a.Writable P
  type : ∀ t ∈ p.type, t.Writable P
  default : Present P p.default
  span : p.span.Writable

structure MethodDecl.Writable (m : MethodDecl) : Prop where
  annotations : ∀ a ∈ m.annotations, a.Writable P
  parameters : ∀ p ∈ m.parameters, p.Writable P
  returnType : ∀ t ∈ m.returnType, t.Writable P
  span : m.span.Writable

structure ConstructorDecl.Writable (c : ConstructorDecl) : Prop where
  parameters : ∀ p ∈ c.parameters, p.Writable P
  span : c.span.Writable

structure ClassDecl.Writable (c : ClassDecl) : Prop where
  annotations : ∀ a ∈ c.annotations, a.Writable P
  constructor : ∀ k ∈ c.constructor, k.Writable P
  methods : ∀ m ∈ c.methods, m.Writable P
  span : c.span.Writable

structure Compilation.Writable (c : Compilation) : Prop where
  classes : ∀ d ∈ c.classes, d.Writable P
  types : ∀ d ∈ c.types, d.Writable P

variable {P}

/-- A settled value is a literal as it stands, or none. -/
theorem Annotation.Argument.reads (hP : Hereditary P) : Reads P ofJson? (Writable P) := by
  intro v a hv h
  have hread := h
  have hsettled : v.settled = v := hP.isSettled v hv
  cases v with
  | object members =>
    rw [ofJson?] at h
    split at h
    · obtain rfl := Option.some.inj h
      exact .identifier _
    · rw [hsettled] at h
      obtain rfl := Option.some.inj h
      exact .literal hv hread
  | _ =>
    obtain rfl := Option.some.inj h
    rw [hsettled] at hread ⊢
    exact .literal hv hread

theorem Annotation.Use.reads (hP : Hereditary P) : Reads P Use.ofJson? (Writable P) := by
  intro v a hv h
  simp only [Use.ofJson?, Option.bind_eq_bind, Option.bind_eq_some_iff, Option.pure_def,
    Option.some.injEq] at h
  obtain ⟨fields, hfields, name, -, arguments, harguments, span, hspan, rfl⟩ := h
  have hall := (hP.inside v hv).record hfields
  exact {
    arguments := ((Argument.reads hP).list hP).orElse hall (by simp) harguments
    span := (Span.reads hP).orElse hall Span.writable_nowhere hspan }

theorem ParameterDecl.reads (hP : Hereditary P) : Reads P ParameterDecl.ofJson? (Writable P) := by
  intro v p hv h
  simp only [ParameterDecl.ofJson?, Option.bind_eq_bind, Option.bind_eq_some_iff, Option.pure_def,
    Option.some.injEq] at h
  obtain ⟨fields, hfields, name, -, annotations, hannotations, type, htype, opt, -, default, hdefault,
    doc, -, span, hspan, rfl⟩ := h
  have huses := Annotation.Use.reads hP
  have hall := (hP.inside v hv).record hfields
  exact {
    annotations := (huses.list hP).orElse hall (by simp) hannotations
    type := (TypeExpr.reads hP).of_and.optional hall htype
    default := hP.default.optional hall hdefault
    span := (Span.reads hP).orElse hall Span.writable_nowhere hspan }

theorem MethodDecl.reads (hP : Hereditary P) : Reads P MethodDecl.ofJson? (Writable P) := by
  intro v m hv h
  simp only [MethodDecl.ofJson?, Option.bind_eq_bind, Option.bind_eq_some_iff, Option.pure_def,
    Option.some.injEq] at h
  obtain ⟨fields, hfields, name, -, annotations, hannotations, parameters, hparameters, returnType,
    hreturnType, doc, -, span, hspan, rfl⟩ := h
  have huses := Annotation.Use.reads hP
  have hall := (hP.inside v hv).record hfields
  exact {
    annotations := (huses.list hP).orElse hall (by simp) hannotations
    parameters := ((ParameterDecl.reads hP).list hP).orElse hall (by simp) hparameters
    returnType := (TypeExpr.reads hP).of_and.optional hall hreturnType
    span := (Span.reads hP).orElse hall Span.writable_nowhere hspan }

theorem ConstructorDecl.reads (hP : Hereditary P) : Reads P ConstructorDecl.ofJson? (Writable P) := by
  intro v c hv h
  simp only [ConstructorDecl.ofJson?, Option.bind_eq_bind, Option.bind_eq_some_iff, Option.pure_def,
    Option.some.injEq] at h
  obtain ⟨fields, hfields, parameters, hparameters, span, hspan, rfl⟩ := h
  have hall := (hP.inside v hv).record hfields
  exact {
    parameters := ((ParameterDecl.reads hP).list hP).orElse hall (by simp) hparameters
    span := (Span.reads hP).orElse hall Span.writable_nowhere hspan }

theorem ClassDecl.reads (hP : Hereditary P) : Reads P ClassDecl.ofJson? (Writable P) := by
  intro v c hv h
  simp only [ClassDecl.ofJson?, Option.bind_eq_bind, Option.bind_eq_some_iff, Option.pure_def,
    Option.some.injEq] at h
  obtain ⟨fields, hfields, name, -, qualifiedName, -, annotations, hannotations, constructor,
    hconstructor, methods, hmethods, span, hspan, rfl⟩ := h
  have huses := Annotation.Use.reads hP
  have hall := (hP.inside v hv).record hfields
  exact {
    annotations := (huses.list hP).orElse hall (by simp) hannotations
    constructor := (ConstructorDecl.reads hP).of_and.optional hall hconstructor
    methods := ((MethodDecl.reads hP).list hP).orElse hall (by simp) hmethods
    span := (Span.reads hP).orElse hall Span.writable_nowhere hspan }

theorem Compilation.reads (hP : Hereditary P) : Reads P Compilation.ofJson? (Writable P) := by
  intro v c hv h
  simp only [Compilation.ofJson?, Option.bind_eq_bind, Option.bind_eq_some_iff, Option.pure_def,
    Option.some.injEq] at h
  obtain ⟨fields, hfields, sourceFiles, -, classes, hclasses, types, htypes, rfl⟩ := h
  have hall := (hP.inside v hv).record hfields
  exact {
    classes := ((ClassDecl.reads hP).list hP).orElse hall (by simp) hclasses
    types := ((TypeDecl.reads hP).list hP).orElse hall (by simp) htypes }

end AnnotatedApi
