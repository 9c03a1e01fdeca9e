import AnnotatedApi.Proofs.Extraction.PathTokens
import AnnotatedApi.Proofs.Extraction.Signature
import AnnotatedApi.Proofs.Handlers.Nodes
import AnnotatedApi.Proofs.Resolution.Undefined

/-!
# Undefined in what is extracted

A parameter loses the undefined members of its type as a field does, on one level only. What is left is
resolved, so that undefined comes into the type of a parameter, or into a field somewhere inside it, only
from where it hid. The same holds of what methods return.
-/

namespace AnnotatedApi

set_option autoImplicit false

open Resolve

namespace Resolver

theorem yields_usedFor (types : List TypeDecl) (options : Options) (asked : TypeExpr → Prop)
    (depth : Nat) : Walk.Yields depth (UsedFor (fun t _ => asked t) types options) asked
      (TracesUndefined ⟨types, options⟩ asked) :=
  fun _ _ ht _ hr => ⟨.resolve depth ht hr, fun _ hw => hr.yields_tracesUndefined ht hw⟩

variable {types : List TypeDecl} {options : Options} {r : Resolver}

/-- Whatever a resolver has been used for: undefined is in the types that it yields, and in those of an
extraction, only where the type expressions that were asked for admit it, and there it is if names tell
declarations apart and no recursion stands in its place. A field or parameter may be left out just if it
is declared so or undefined stands in the open. What is published has the parameters of the forest, and
an extraction only makes the history longer. -/
theorem UsedFor.tracesUndefined {asked : TypeExpr → Prop}
    (h : UsedFor (fun t _ => asked t) types options r) :
    (∀ depth t origin w, asked t → (r.resolve depth t (.ofOrigin origin)).1 = .ok w →
      TracesUndefined ⟨types, options⟩ asked t w) ∧
    ∀ e : Extractor, e.resolver = r → (∀ c ∈ e.classes, ∀ t, c.Asks t → asked t) → ∀ depth,
      UsedFor (fun t _ => asked t) types options (e.run depth).2.resolver ∧
      ∀ x, (e.run depth).1 = .ok x →
        (∀ node ∈ x.linked.forest, ∃ c ∈ e.classes, ∀ m ∈ node.members,
          m.DeclaredBy (TracesUndefined ⟨types, options⟩ asked) c) ∧
        ∀ o ∈ x.operations, ∀ q ∈ o.parameters,
          ∃ node ∈ x.linked.forest, ∃ m ∈ node.members, ∃ n ∈ m.parameters, q.Carries n := by
  refine ⟨fun depth t origin w ht hw => h.yields_tracesUndefined ht hw, ?_⟩
  rintro e rfl hasked depth
  have hwalk := @Walk.forest_declared e.catalog _ _ _ _ (yields_usedFor types options asked depth)
    e.classes hasked
  obtain ⟨hused, hnodes⟩ := e.run_nodes hwalk
    (fun node node' hsub ⟨c, hc, hm⟩ => ⟨c, hc, fun m hmem => hm m (hsub hmem)⟩) h
  refine ⟨hused, fun x hx => ?_⟩
  obtain ⟨hoperations, hforest⟩ := hnodes x hx
  refine ⟨hforest, fun o ho q hq => ?_⟩
  exact Api.exists_node_of_mem_published (hoperations ▸ ho) hq

/-- A form with one field, beside a synonym for an optional text and a box of anything. -/
def formOf (t : TypeExpr) : List TypeDecl :=
  let span : Span := ⟨"m.ts", .zero, .zero⟩
  let field (name : String) (t : TypeExpr) : FieldDecl TypeExpr := ⟨name, t, false, none, none, span⟩
  [⟨"Maybe", "m.ts#Maybe", [], .synonym (.union [.keyword "string", .keyword "undefined"]), span⟩,
    ⟨"Box", "m.ts#Box", [⟨"T", none⟩], .interface [] [field "value" (.parameter "T")], span⟩,
    ⟨"Form", "m.ts#Form", [], .interface [] [field "entry" t], span⟩]

/-- A method that takes an optional text under the name of the synonym. -/
def listing : List ClassDecl :=
  let span : Span := ⟨"m.ts", .zero, .zero⟩
  [⟨"Forms", "m.ts#Forms", [], none,
    [⟨"list", [⟨"Get", [], span⟩],
      [⟨"name", [⟨"Query", [], span⟩], some (.reference "Maybe" []), false, none, none, span⟩],
      none, none, span⟩], span⟩]

def boxedForm : List TypeDecl := formOf (.reference "Box" [.reference "Maybe" []])

/-- The form and what the walk over the class resolves. -/
def askedFor (t : TypeExpr) : Prop := t = .reference "Form" [] ∨ ∃ c ∈ listing, c.Asks t

theorem tracesUndefined_boxedForm : ∃ w x,
    ((fresh boxedForm .default).resolve 6 (.reference "Form" []) (.ofOrigin "m")).1 = .ok w ∧
    TracesUndefined ⟨boxedForm, .default⟩ askedFor (.reference "Form" []) w ∧
    ((Extractor.fresh .standard listing boxedForm .default).run 6).1 = .ok x ∧
    ∀ node ∈ x.linked.forest, ∃ c ∈ listing, ∀ m ∈ node.members,
      m.DeclaredBy (TracesUndefined ⟨boxedForm, .default⟩ askedFor) c := by
  have hused : UsedFor (fun t _ => askedFor t) boxedForm .default (fresh boxedForm .default) := .fresh
  obtain ⟨w, hw⟩ : ∃ w,
      ((fresh boxedForm .default).resolve 6 (.reference "Form" []) (.ofOrigin "m")).1 = .ok w := ⟨_, rfl⟩
  obtain ⟨f, ds, e, hwalk, hnil⟩ : ∃ f ds e,
      (Extractor.fresh .standard listing boxedForm .default).walk 6 = (.ok (f, ds), e) ∧ f.removals = [] :=
    ⟨_, _, _, rfl, rfl⟩
  obtain ⟨x, hx, -⟩ := Extractor.exists_run_of_walk hwalk hnil
  obtain ⟨hresolved, hextracted⟩ := UsedFor.tracesUndefined hused
  have hrun := (hextracted (.fresh .standard listing boxedForm .default) rfl
    (fun c hc t ht => .inr ⟨c, hc, ht⟩) 6).2
  exact ⟨w, x, hw, hresolved 6 _ "m" w (.inl rfl) hw, hx, (hrun x hx).1⟩

/-- What hides is left: in a union inside the union, behind the synonym and in the box. Neither field nor
parameter may be left out. -/
theorem void_remains :
    (∃ o, ((fresh (formOf (.union [.keyword "string",
        .union [.keyword "number", .keyword "undefined"]])) .default).resolve 6 (.reference "Form" [])
        (.ofOrigin "m")).1 = .ok (ObjectType.type o) ∧
      ⟨"entry", .union [.primitive .string, .primitive .number, .primitive .void], true, none⟩ ∈
        o.fields) ∧
    (∃ o, ((fresh (formOf (.reference "Maybe" [])) .default).resolve 6 (.reference "Form" [])
        (.ofOrigin "m")).1 = .ok (ObjectType.type o) ∧
      ⟨"entry", .union [.primitive .string, .primitive .void], true, none⟩ ∈ o.fields) ∧
    (∃ w o, ((fresh boxedForm .default).resolve 6 (.reference "Form" []) (.ofOrigin "m")).1 = .ok w ∧
      w.Contains (ObjectType.type o) ∧
      ⟨"value", .union [.primitive .string, .primitive .void], true, none⟩ ∈ o.fields) ∧
    ∃ x, ((Extractor.fresh .standard listing boxedForm .default).run 6).1 = .ok x ∧
      x.operations.map (fun o => o.parameters.map fun q => (q.type, q.required)) =
        [[(.union [.primitive .string, .primitive .void], true)]] := by
  have hboxed : ∃ w o,
      ((fresh boxedForm .default).resolve 6 (.reference "Form" []) (.ofOrigin "m")).1 = .ok w ∧
      ObjectType.type o ∈ w.children ∧
      ⟨"value", .union [.primitive .string, .primitive .void], true, none⟩ ∈ o.fields :=
    ⟨_, ⟨_, _, _, _⟩, rfl, .head _, .head _⟩
  have hwalk : ∃ f ds e,
      (Extractor.fresh .standard listing boxedForm .default).walk 6 = (.ok (f, ds), e) ∧ f.removals = [] ∧
      (Api.assemble ⟨f, f.links⟩).operations.map (fun o =>
        o.parameters.map fun q => (q.type, q.required)) =
        [[(.union [.primitive .string, .primitive .void], true)]] :=
    ⟨_, _, _, rfl, rfl, rfl⟩
  obtain ⟨w, o, hw, ho, hvalue⟩ := hboxed
  obtain ⟨f, ds, e, hwalk, hnil, hoperations⟩ := hwalk
  obtain ⟨x, hx, hassembled, -⟩ := Extractor.exists_run_of_walk hwalk hnil
  exact ⟨⟨⟨_, _, _, _⟩, rfl, .head _⟩, ⟨⟨_, _, _, _⟩, rfl, .head _⟩, ⟨w, o, hw, .child ho .self, hvalue⟩,
    x, hx, hassembled ▸ hoperations⟩

end Resolver

end AnnotatedApi
