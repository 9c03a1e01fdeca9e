import AnnotatedApi.Proofs.Resolution.Layers
import AnnotatedApi.Proofs.Resolution.Naming
import AnnotatedApi.Proofs.Text.Brackets
import Mathlib.Logic.Relation

/-!
# Declarations that lend their identity

An inline object has the identity of the declaration around it and of the fields that lead to it. If
no field leads to it, it has the identity of the declaration itself: this is so in what a synonym
stands for and in the base types of an interface, and in their parts and type arguments. A declaration
with such an inline object lends it its identity.
-/

namespace AnnotatedApi

set_option autoImplicit false

open Resolve Text

namespace TypeExpr

/-- A type expression that is resolved at the same place as another one: a part that no field and no
array leads to, or a default that a reference falls back on. -/
inductive Beside (scope : Scope) : TypeExpr → TypeExpr → Prop where
  | component {es : List TypeExpr} {e : TypeExpr} : e ∈ es → Beside scope (.tuple es) e
  | alternative {ms : List TypeExpr} {m : TypeExpr} : m ∈ ms → Beside scope (.union ms) m
  | member {ms : List TypeExpr} {m : TypeExpr} : m ∈ ms → Beside scope (.intersection ms) m
  | argument {name : String} {args : List TypeExpr} {a : TypeExpr} : a ∈ args →
    Beside scope (.reference name args) a
  | default {name : String} {args : List TypeExpr} {d : TypeDecl} {p : TypeParameter} {u : TypeExpr} :
    scope.declaration? (.reference name args) = some d → p ∈ d.parameters.drop args.length →
      p.default = some u → Beside scope (.reference name args) u

/-- Whether the names in the type expression have no brackets and quotes, and whether it is no
intersection of less than two types. -/
def NeatHere : TypeExpr → Prop
  | parameter name => Unfenced name
  | object fs => ∀ f ∈ fs, Unfenced f.name
  | intersection ms => 2 ≤ ms.length
  | _ => True

def Neat (t : TypeExpr) : Prop := t.Everywhere NeatHere

theorem neutral_neatHere : Everywhere.Neutral NeatHere := ⟨fun _ => trivial, fun _ => trivial⟩

end TypeExpr

/-- Whether there is an inline object that gets the identity of the declaration. -/
def TypeDecl.Lends (scope : Scope) (d : TypeDecl) : Prop :=
  ∃ u ∈ d.body.opened, ∃ fs, Relation.ReflTransGen (TypeExpr.Beside scope) u (.object fs)

namespace Resolve

/-- Whether the declarations have names that can be told from everything else in an identity, and are
made of neat type expressions. -/
structure Scope.Neat (scope : Scope) : Prop extends scope.WellNamed where
  unfenced : ∀ d ∈ scope.types, Unfenced d.qualifiedName
  unspaced : ∀ d ∈ scope.types, ' ' ∉ d.qualifiedName.toList
  parameters : ∀ d ∈ scope.types, ∀ p ∈ d.parameters, Unfenced p.name
  nameOnly : ∀ name ∈ scope.options.nameOnly, Unfenced name
  neat : ∀ d ∈ scope.types, ∀ u ∈ d.body.needs ++ d.defaults, u.Neat

/-- Whether a site does not have the name of a declaration, nor a declaration that of a field there. -/
structure Scope.Apart (scope : Scope) (origin : String) : Prop where
  unfenced : Unfenced origin
  ne : ∀ d ∈ scope.types, d.qualifiedName ≠ origin
  nested : ∀ d ∈ scope.types, ¬ (origin.toList ++ ['.']) <+: d.qualifiedName.toList

/-! ## What stands outside brackets in identities -/

theorem bracketed_instanceIdentity {d : TypeDecl} (hname : Unfenced d.qualifiedName)
    {arguments : List WireType} (h : ∀ a ∈ arguments, Balanced a.key) :
    Bracketed d.qualifiedName.toList (instanceIdentity d arguments).toList := by
  unfold instanceIdentity
  split
  · exact .of_unfenced hname
  · refine .apply hname (.intercalate (.of_unfenced (by decide)) fun text htext => ?_)
    obtain ⟨a, ha, rfl⟩ := List.mem_map.mp htext
    exact h a ha

/-- The fields that lead to a place, as they stand in an identity. -/
def pathSuffix (path : List String) : String :=
  if path.isEmpty then "" else "." ++ String.intercalate "." path.reverse

theorem pathSuffix_cons (name : String) (path : List String) :
    ∃ rest, (pathSuffix (name :: path)).toList = '.' :: rest := by
  simp [pathSuffix]

theorem unfenced_pathSuffix {path : List String} (h : ∀ s ∈ path, Unfenced s) :
    Unfenced (pathSuffix path) := by
  unfold pathSuffix
  split
  · decide
  · intro c hc
    rw [String.toList_append] at hc
    rcases List.mem_append.mp hc with hc | hc
    · exact (by decide : Unfenced ".") c hc
    · exact forall_mem_intercalate (by decide : Unfenced ".") (fun s hs => h s (List.mem_reverse.mp hs)) c hc

/-- What an inline object at the current place belongs to. -/
def Context.owner (c : Context) : String :=
  match c.frames with
  | frame :: _ => frame.identity
  | [] => c.origin

theorem inlineIdentity_eq (c : Context) : c.inlineIdentity = c.owner ++ pathSuffix c.fieldPath := by
  unfold Context.inlineIdentity Context.owner pathSuffix
  cases c.fieldPath with
  | nil => exact String.append_empty.symm
  | cons name path => exact String.append_assoc ..

/-! ## Places -/

/-- What is known of the places at which the parts of neat type expressions are resolved: the names that
make up the identity of an inline object, and, where no field leads to the place, that the type expression
is one that the declaration lends its identity to. -/
structure Place (scope : Scope) (c : Context) (t : TypeExpr) : Prop where
  neat : t.Neat
  path : ∀ s ∈ c.fieldPath, Unfenced s
  site : c.frames = [] → scope.Apart c.origin
  frame : ∀ top rest, c.frames = top :: rest → ∃ d ∈ scope.types,
    Bracketed d.qualifiedName.toList top.identity.toList ∧
      (c.fieldPath = [] → ∃ u ∈ d.body.opened, Relation.ReflTransGen (TypeExpr.Beside scope) u t)

namespace Place

variable {scope : Scope} {c c' : Context} {t u : TypeExpr}

/-- A part at the same place. -/
theorem beside (h : Place scope c t) (hu : t.Beside scope u) (hneat : u.Neat)
    (environment : Table WireType) : Place scope { c with environment := environment } u where
  neat := hneat
  path := h.path
  site := h.site
  frame top rest hframes := by
    obtain ⟨d, hd, houtside, hlends⟩ := h.frame top rest hframes
    refine ⟨d, hd, houtside, fun hpath => ?_⟩
    obtain ⟨v, hv, hbeside⟩ := hlends hpath
    exact ⟨v, hv, hbeside.tail hu⟩

/-- A part that a field leads to. -/
theorem field (h : Place scope c t) {name : String} (hname : Unfenced name) (hneat : u.Neat) :
    Place scope (c.pushField name) u where
  neat := hneat
  path := List.forall_mem_cons.mpr ⟨hname, h.path⟩
  site := h.site
  frame top rest hframes := by
    obtain ⟨d, hd, houtside, _⟩ := h.frame top rest hframes
    exact ⟨d, hd, houtside, fun hpath => by cases hpath⟩

/-- A type expression of which only the value is used in an expansion. -/
theorem opened (hs : scope.Neat) {d : TypeDecl} (hd : d ∈ scope.types) {arguments : List WireType}
    (ha : ∀ a ∈ arguments, Balanced a.key) (hu : u ∈ d.body.opened) (environment : Table WireType) :
    Place scope (c.enter (frameOf d arguments) environment) u where
  neat := hs.neat d hd u (List.mem_append_left _ (List.mem_append_right _ hu))
  path := by simp [Context.enter]
  site hframes := by cases hframes
  frame top rest hframes := by
    cases hframes
    exact ⟨d, hd, bracketed_instanceIdentity (hs.unfenced d hd) ha, fun _ => ⟨u, hu, .refl⟩⟩

/-- A field of an expansion. -/
theorem declared (hs : scope.Neat) {d : TypeDecl} (hd : d ∈ scope.types) {arguments : List WireType}
    (ha : ∀ a ∈ arguments, Balanced a.key) {fs : List (FieldDecl TypeExpr)}
    (hfs : d.body.fields? = some fs) {f : FieldDecl TypeExpr} (hf : f ∈ fs)
    (environment : Table WireType) :
    Place scope ((c.enter (frameOf d arguments) environment).pushField f.name)
      f.type.stripUndefined.1 := by
  have hobject : (TypeExpr.object fs).Neat := by
    refine hs.neat d hd _ (List.mem_append_left _ ?_)
    rw [TypeBody.needs_of_fields? hfs]
    exact List.mem_cons_self ..
  refine ⟨?_, ?_, fun hframes => (by cases hframes), fun top rest hframes => ?_⟩
  · exact .stripUndefined TypeExpr.neutral_neatHere (hobject.inner (List.mem_map_of_mem hf))
  · have hname := hobject.self f hf
    simpa [Context.enter, Context.pushField] using hname
  · cases hframes
    exact ⟨d, hd, bracketed_instanceIdentity (hs.unfenced d hd) ha, fun hpath => by cases hpath⟩

theorem leads (hs : scope.Neat) {P : List Frame → WireType → Prop}
    (hP : ∀ frames t, P frames t → Balanced t.key) (h : Place scope c t)
    (hleads : Leads scope P c t c' u) : Place scope c' u := by
  have hneat : ∀ {v : TypeExpr}, v ∈ t.inner → v.Neat := fun hv => h.neat.inner hv
  cases hleads with
  | element => exact h.field (by decide) (hneat (List.mem_singleton.mpr rfl))
  | component he => exact h.beside (.component he) (hneat he) c.environment
  | alternative hm => exact h.beside (.alternative hm) (hneat hm) c.environment
  | member hm => exact h.beside (.member hm) (hneat hm) c.environment
  | argument ha => exact h.beside (.argument ha) (hneat ha) c.environment
  | field hf =>
    exact h.field (h.neat.self _ hf) (.stripUndefined TypeExpr.neutral_neatHere
      (hneat (List.mem_map_of_mem hf)))
  | default environment hd hp hu =>
    have hmem := Scope.mem_of_declaration? hd
    refine h.beside (.default hd hp hu) (hs.neat _ hmem _ (List.mem_append_right _ ?_)) environment
    exact List.mem_filterMap.mpr ⟨_, List.mem_of_mem_drop hp, hu⟩
  | opened environment hd ha hu =>
    exact .opened hs (Scope.mem_of_declaration? hd) (fun a h => hP _ a (ha a h)) hu environment
  | declared environment hd ha hfs hf =>
    exact .declared hs (Scope.mem_of_declaration? hd) (fun a h => hP _ a (ha a h)) hfs hf environment

/-- The identity of an inline object is that of a declaration only if the declaration lends it its
identity. -/
theorem lends_of_inlineIdentity (hs : scope.Neat) {fs : List (FieldDecl TypeExpr)}
    (h : Place scope c (.object fs)) : ∃ outside, Bracketed outside c.inlineIdentity.toList ∧
      ∀ d ∈ scope.types, outside = d.qualifiedName.toList → d.Lends scope := by
  have hsuffix := Bracketed.of_unfenced (unfenced_pathSuffix h.path)
  rw [inlineIdentity_eq]
  cases hframes : c.frames with
  | nil =>
    have hsite := h.site hframes
    have howner : c.owner = c.origin := by rw [Context.owner, hframes]
    refine ⟨_, by simpa [howner] using (Bracketed.of_unfenced hsite.unfenced).append hsuffix, ?_⟩
    intro d hd houtside
    exfalso
    cases hpath : c.fieldPath with
    | nil =>
      rw [hpath] at houtside
      exact hsite.ne d hd (String.toList_inj.mp (by simpa [pathSuffix] using houtside.symm))
    | cons name path =>
      obtain ⟨rest, hrest⟩ := pathSuffix_cons name path
      rw [hpath, hrest] at houtside
      exact hsite.nested d hd ⟨rest, by simpa using houtside⟩
  | cons top frames =>
    obtain ⟨e, he, htop, hlends⟩ := h.frame top frames hframes
    have howner : c.owner = top.identity := by rw [Context.owner, hframes]
    refine ⟨_, by simpa [howner] using htop.append hsuffix, ?_⟩
    intro d hd houtside
    cases hpath : c.fieldPath with
    | nil =>
      rw [hpath] at houtside
      obtain rfl := hs.distinct e he d hd
        (String.toList_inj.mp (by simpa [pathSuffix] using houtside))
      obtain ⟨u, hu, hbeside⟩ := hlends hpath
      exact ⟨u, hu, fs, hbeside⟩
    | cons name path =>
      obtain ⟨rest, hrest⟩ := pathSuffix_cons name path
      rw [hpath, hrest] at houtside
      exact absurd ⟨rest, by simpa using houtside⟩ (hs.nested e he d hd)

end Place

end Resolve

end AnnotatedApi
