import AnnotatedApi.Proofs.Compilation.Writable
import AnnotatedApi.Proofs.Resolution.History
import AnnotatedApi.Proofs.Resolution.Layers
import AnnotatedApi.Proofs.WireType.Document

/-!
# The numbers in resolved types

A resolved type has no other numbers than the literals that it was resolved from: those of the type
expression, of the declarations that it leads to, and of the enumerations among these. JSON values have
finite numbers only, and so has every answer of a resolver, whatever it remembers.
-/

namespace AnnotatedApi

set_option autoImplicit false

open Json (IsValue)

theorem Literal.isFinite_of_isValue {value : Json} (hvalue : IsValue value) {x : Binary64}
    (h : ofJson? value = some (.number x)) : x.isFinite = true := by
  cases value with
  | number n =>
    obtain rfl : n.toReal = x := by simpa [ofJson?] using h
    exact hvalue.finite n (List.mem_singleton_self n)
  | _ => simp [ofJson?] at h

namespace WireType.HasFiniteNumbers

theorem of_children {w : WireType} (h : ∀ x, w ≠ .literal (.number x))
    (hchildren : ∀ u ∈ w.children, u.HasFiniteNumbers) : w.HasFiniteNumbers := by
  intro x hx
  cases hx with
  | self => exact absurd rfl (h x)
  | child hu hx => exact hchildren _ hu x hx

theorem literal {value : Json} (hvalue : IsValue value) {l : Literal}
    (hl : Literal.ofJson? value = some l) : (WireType.literal l).HasFiniteNumbers := by
  intro x hx
  cases hx with
  | self => exact Literal.isFinite_of_isValue hvalue hl
  | child hu _ => cases hu

theorem object {identity : String} {name : Option String} {arguments : List WireType}
    {fields : List (Field WireType)} (harguments : ∀ t ∈ arguments, t.HasFiniteNumbers)
    (hfields : ∀ f ∈ fields, f.type.HasFiniteNumbers) :
    (WireType.object identity name arguments fields).HasFiniteNumbers := by
  refine .of_children (by simp) fun u hu => ?_
  rcases List.mem_append.mp hu with hu | hu
  · exact harguments u hu
  · obtain ⟨f, hf, rfl⟩ := List.mem_map.mp hu
    exact hfields f hf

theorem unionOf {ts : List WireType} (h : ∀ t ∈ ts, t.HasFiniteNumbers) :
    (WireType.unionOf ts).HasFiniteNumbers := by
  intro x hx
  rcases hx.of_unionOf with ⟨t, ht, hx⟩ | hboolean | ⟨_, hself⟩
  · exact h t ht x hx
  · cases hboolean
  · cases hself

end WireType.HasFiniteNumbers

/-! ## Type expressions and what they lead to -/

/-- Whether the literals in a type expression are values. Nothing inside a function counts. -/
def TypeExpr.Valid (t : TypeExpr) : Prop := t.Everywhere fun u => ∀ v, u = .literal v → IsValue v

namespace TypeExpr.Valid

variable {t : TypeExpr}

/-- A union may lose members. -/
theorem stripUndefined (h : t.Valid) : t.stripUndefined.1.Valid :=
  Everywhere.stripUndefined ⟨by simp, by simp⟩ h

theorem keyword (name : String) : (TypeExpr.keyword name).Valid := fun _ h => by cases h

/-- The literals of what can be written are values. -/
theorem of_writable (h : t.Writable IsValue) : t.Valid := by
  induction h with
  | keyword name => exact .keyword name
  | literal hvalue => exact fun _ h => (TypeExpr.literal.inj h) ▸ hvalue
  | parameter name => exact fun _ h => by cases h
  | function => exact fun _ h => by cases h
  | array _ ih => exact ⟨by simp, ih⟩
  | tuple _ ih | union _ ih | intersection _ ih | reference _ _ ih =>
    exact ⟨by simp, everywhereInList_iff.mpr ih⟩
  | object _ _ ih => exact ⟨by simp, everywhereInFields_iff.mpr ih⟩

end TypeExpr.Valid

/-- Whether the literals in a declaration are values. -/
structure TypeDecl.Valid (d : TypeDecl) : Prop where
  parameters : ∀ p ∈ d.parameters, ∀ t ∈ p.default, t.Valid
  opened : ∀ t ∈ d.body.opened, t.Valid
  fields : ∀ fs ∈ d.body.fields?, ∀ f ∈ fs, f.type.Valid
  members : ∀ ms, d.body = .enumeration ms → ∀ m ∈ ms, IsValue m.value

theorem TypeDecl.Valid.of_writable {d : TypeDecl} (h : d.Writable IsValue) : d.Valid := by
  obtain ⟨name, qualifiedName, parameters, body, span⟩ := d
  obtain ⟨hparameters, hbody, -⟩ := h
  have hdefaults : ∀ p ∈ parameters, ∀ t ∈ p.default, t.Valid := fun p hp t ht =>
    .of_writable (hparameters p hp t ht)
  cases hbody with
  | interface hbases hfields =>
    exact ⟨hdefaults, fun b hb => .of_writable (hbases b hb),
      by rintro _ ⟨⟩ f hf; exact .of_writable (hfields f hf).2, by simp⟩
  | @synonym target htarget =>
    have hvalid := TypeExpr.Valid.of_writable htarget
    refine ⟨hdefaults, fun t ht => ?_, fun fs hfs f hf => ?_, by simp⟩
    · cases target with
      | object fs => cases ht
      | _ => exact List.mem_singleton.mp ht ▸ hvalid
    · cases target with
      | object fs =>
        obtain rfl := Option.some.inj hfs
        exact TypeExpr.everywhereInFields_iff.mp hvalid.2 f hf
      | _ => cases hfs
  | enumeration hmembers =>
    refine ⟨hdefaults, by simp [TypeBody.opened], by simp [TypeBody.fields?], ?_⟩
    rintro _ ⟨⟩
    exact hmembers

namespace Resolve

theorem finite_of_taken {identity : String} {f : Field WireType}
    (h : TakenFrom WireType.HasFiniteNumbers identity f) : f.type.HasFiniteNumbers := by
  obtain ⟨name, arguments, fields, hobject, hf⟩ := h
  exact hobject.child (List.mem_append_right _ (List.mem_map_of_mem hf))

variable {types : List TypeDecl} {options : Options}

/-- Whatever is resolved on the way has values for literals too. -/
theorem valid_of_leads (htypes : ∀ d ∈ types, d.Valid) {P : List Frame → WireType → Prop}
    {c c' : Context} {t u : TypeExpr} (ht : t.Valid) (h : Leads ⟨types, options⟩ P c t c' u) :
    u.Valid := by
  have hdeclared : ∀ {t : TypeExpr} {d : TypeDecl}, Scope.declaration? ⟨types, options⟩ t = some d →
      d.Valid := fun hd => htypes _ (Scope.mem_of_declaration? hd)
  cases h with
  | element => exact ht.2
  | component hu | alternative hu | member hu | argument hu =>
    exact TypeExpr.everywhereInList_iff.mp ht.2 _ hu
  | field hf => exact TypeExpr.Valid.stripUndefined (TypeExpr.everywhereInFields_iff.mp ht.2 _ hf)
  | default _ hd hp hu => exact (hdeclared hd).parameters _ (List.mem_of_mem_drop hp) _ hu
  | opened _ hd _ hu => exact (hdeclared hd).opened _ hu
  | declared _ hd _ hfs hf => exact ((hdeclared hd).fields _ hfs _ hf).stripUndefined

/-- That all numbers are finite is a law where all literals are values. -/
theorem finiteLaw (htypes : ∀ d ∈ types, d.Valid) :
    PlacedLaw ⟨types, options⟩ (fun _ t => t.Valid) (Cache.Holds WireType.HasFiniteNumbers)
      Failure.Ordinary fun _ => WireType.HasFiniteNumbers where
  leads _ _ _ _ ht hu := valid_of_leads htypes ht hu
  unsupported := by simp [Failure.Ordinary]
  exhausted := by simp [Failure.Ordinary]
  primitive _ _ := .of_children (by simp) (by simp [WireType.children])
  literal _ value l ht hl := .literal (ht value rfl) hl
  constant _ d hd members hbody m hm l hl := .literal ((htypes d hd).members members hbody m hm) hl
  unexpanded _ _ _ := .of_children (by simp) (by simp [WireType.children])
  unbound _ _ _ := .of_children (by simp) (by simp [WireType.children])
  missing _ _ _ _ _ := .of_children (by simp) (by simp [WireType.children])
  array _ _ ht := .of_children (by simp) (by simpa [WireType.children] using ht)
  builtin _ name b arguments _ _ h := by
    refine .of_children ?_ fun t ht => h t (b.mem_of_mem_children_apply name ht)
    unfold Builtin.apply
    split <;> simp
  union _ _ h := .unionOf h
  back _ _ _ _ _ _ := .of_children (by simp) (by simp [WireType.children])
  inline _ _ _ _ _ h := .object (by simp) h
  intersection _ _ _ _ _ _ _ _ h := .object (by simp) fun f hf =>
    let ⟨_, _, htaken⟩ := h f hf
    finite_of_taken htaken
  enter _ _ _ _ _ h := h
  declared _ _ _ _ _ _ _ hargs h := .object hargs fun f hf =>
    (h f hf).elim id fun ⟨_, _, htaken⟩ => finite_of_taken htaken
  leave _ _ _ _ _ _ h _ := h
  found c _ _ _ _ _ := (steady_remembered? c _).weaken fun _ h t ht => (h t ht).2
  store c _ _ _ _ _ ht hs _ := steady_remember c hs ht

end Resolve

end AnnotatedApi
