import AnnotatedApi.Proofs.Resolution.Fault
import AnnotatedApi.Proofs.Resolution.Naming
import AnnotatedApi.Proofs.WireType.BackReferences

/-!
# Declarations in layers

A reference back stands for the object around it, but it is no object, and some places ask for one:
base types, members of intersections, what a synonym stands for. Declarations are in layers if
whatever such a place leads to lies deeper than the declaration that it stands in, while fields may
lead back up to the layer itself. Then no such place ever meets a reference back.
-/

namespace AnnotatedApi

set_option autoImplicit false

open Resolve

/-! ## Everywhere in a type expression -/

namespace TypeExpr

mutual

/-- Whether the type expression and those in it have a property. Nothing inside a function counts. -/
def Everywhere (p : TypeExpr → Prop) : TypeExpr → Prop
  | array e => p (array e) ∧ Everywhere p e
  | tuple es => p (tuple es) ∧ EverywhereInList p es
  | union ms => p (union ms) ∧ EverywhereInList p ms
  | intersection ms => p (intersection ms) ∧ EverywhereInList p ms
  | reference name args => p (reference name args) ∧ EverywhereInList p args
  | object fs => p (object fs) ∧ EverywhereInFields p fs
  | t => p t

def EverywhereInList (p : TypeExpr → Prop) : List TypeExpr → Prop
  | [] => True
  | t :: rest => Everywhere p t ∧ EverywhereInList p rest

def EverywhereInFields (p : TypeExpr → Prop) : List (FieldDecl TypeExpr) → Prop
  | [] => True
  | ⟨_, t, _, _, _, _⟩ :: rest => Everywhere p t ∧ EverywhereInFields p rest

end

mutual

def decideEverywhere (p : TypeExpr → Prop) [DecidablePred p] : ∀ t : TypeExpr, Decidable (t.Everywhere p)
  | array e =>
    have := decideEverywhere p e
    inferInstanceAs (Decidable (_ ∧ _))
  | tuple es =>
    have := decideEverywhereInList p es
    inferInstanceAs (Decidable (_ ∧ _))
  | union ms =>
    have := decideEverywhereInList p ms
    inferInstanceAs (Decidable (_ ∧ _))
  | intersection ms =>
    have := decideEverywhereInList p ms
    inferInstanceAs (Decidable (_ ∧ _))
  | reference _ args =>
    have := decideEverywhereInList p args
    inferInstanceAs (Decidable (_ ∧ _))
  | object fs =>
    have := decideEverywhereInFields p fs
    inferInstanceAs (Decidable (_ ∧ _))
  | keyword name => inferInstanceAs (Decidable (p (keyword name)))
  | literal value => inferInstanceAs (Decidable (p (literal value)))
  | parameter name => inferInstanceAs (Decidable (p (parameter name)))
  | function ps result => inferInstanceAs (Decidable (p (function ps result)))

def decideEverywhereInList (p : TypeExpr → Prop) [DecidablePred p] :
    ∀ ts : List TypeExpr, Decidable (EverywhereInList p ts)
  | [] => inferInstanceAs (Decidable True)
  | t :: ts =>
    have := decideEverywhere p t
    have := decideEverywhereInList p ts
    inferInstanceAs (Decidable (_ ∧ _))

def decideEverywhereInFields (p : TypeExpr → Prop) [DecidablePred p] :
    ∀ fs : List (FieldDecl TypeExpr), Decidable (EverywhereInFields p fs)
  | [] => inferInstanceAs (Decidable True)
  | ⟨_, t, _, _, _, _⟩ :: fs =>
    have := decideEverywhere p t
    have := decideEverywhereInFields p fs
    inferInstanceAs (Decidable (_ ∧ _))

end

instance (p : TypeExpr → Prop) [DecidablePred p] (t : TypeExpr) : Decidable (t.Everywhere p) :=
  decideEverywhere p t

variable {p q : TypeExpr → Prop} {t u : TypeExpr} {scope : Scope}

theorem everywhereInList_iff {ts : List TypeExpr} :
    EverywhereInList p ts ↔ ∀ t ∈ ts, t.Everywhere p := by
  induction ts with
  | nil => simp [EverywhereInList]
  | cons t ts ih => simp [EverywhereInList, ih]

theorem everywhereInFields_iff {fs : List (FieldDecl TypeExpr)} :
    EverywhereInFields p fs ↔ ∀ f ∈ fs, f.type.Everywhere p := by
  induction fs with
  | nil => simp [EverywhereInFields]
  | cons f fs ih => simp [EverywhereInFields, ih]

namespace Everywhere

theorem self (h : t.Everywhere p) : p t := by
  cases t <;> first | exact h.1 | exact h

/-- Whether a property says nothing about unions, so that these may lose members. -/
structure Neutral (p : TypeExpr → Prop) : Prop where
  keyword : ∀ name, p (.keyword name)
  union : ∀ ms, p (.union ms)

theorem stripUndefined (hp : Neutral p) (h : t.Everywhere p) : t.stripUndefined.1.Everywhere p := by
  cases t with
  | union ms =>
    have hms := everywhereInList_iff.mp h.2
    have hkept : ∀ m ∈ ms.filter (!·.isUndefined), m.Everywhere p :=
      fun m hm => hms m (List.mem_of_mem_filter hm)
    rw [TypeExpr.stripUndefined]
    split
    · split
      · exact hp.keyword _
      · rename_i single heq
        exact hkept single (by rw [heq]; exact List.mem_cons_self ..)
      · exact ⟨hp.union _, everywhereInList_iff.mpr hkept⟩
    · exact h
  | _ => exact h

theorem part (hp : Neutral p) (h : t.Everywhere p) (hpart : t.Part scope u) : u.Everywhere p := by
  cases hpart with
  | element => exact h.2
  | component he => exact everywhereInList_iff.mp h.2 _ he
  | alternative hm => exact everywhereInList_iff.mp h.2 _ hm
  | member hm => exact everywhereInList_iff.mp h.2 _ hm
  | argument _ ha => exact everywhereInList_iff.mp h.2 _ ha
  | field hf => exact stripUndefined hp (everywhereInFields_iff.mp h.2 _ hf)

end Everywhere

/-- The type expressions that stand directly in a type expression. -/
def inner : TypeExpr → List TypeExpr
  | array e => [e]
  | tuple es => es
  | union ms => ms
  | intersection ms => ms
  | reference _ args => args
  | object fs => fs.map (·.type)
  | _ => []

theorem Everywhere.inner (h : t.Everywhere p) (hu : u ∈ t.inner) : u.Everywhere p := by
  cases t with
  | array e =>
    obtain rfl := List.mem_singleton.mp hu
    exact h.2
  | tuple es => exact everywhereInList_iff.mp h.2 u hu
  | union ms => exact everywhereInList_iff.mp h.2 u hu
  | intersection ms => exact everywhereInList_iff.mp h.2 u hu
  | reference name args => exact everywhereInList_iff.mp h.2 u hu
  | object fs =>
    obtain ⟨f, hf, rfl⟩ := List.mem_map.mp hu
    exact everywhereInFields_iff.mp h.2 f hf
  | _ => cases hu

mutual

/-- What passes on from each type expression to those in it holds everywhere. -/
theorem everywhere_of_inner {P : TypeExpr → Prop} (hq : ∀ t, P t → q t)
    (hinner : ∀ t, P t → ∀ u ∈ t.inner, P u) : ∀ t, P t → t.Everywhere q
  | .array e, h =>
    ⟨hq _ h, everywhere_of_inner hq hinner e (hinner _ h e (List.mem_singleton.mpr rfl))⟩
  | .tuple es, h => ⟨hq _ h, everywhereInList_of_inner hq hinner es (hinner _ h)⟩
  | .union ms, h => ⟨hq _ h, everywhereInList_of_inner hq hinner ms (hinner _ h)⟩
  | .intersection ms, h => ⟨hq _ h, everywhereInList_of_inner hq hinner ms (hinner _ h)⟩
  | .reference _ args, h => ⟨hq _ h, everywhereInList_of_inner hq hinner args (hinner _ h)⟩
  | .object fs, h => ⟨hq _ h, everywhereInFields_of_inner hq hinner fs fun f hf =>
      hinner _ h f.type (List.mem_map_of_mem hf)⟩
  | .keyword _, h => hq _ h
  | .literal _, h => hq _ h
  | .parameter _, h => hq _ h
  | .function _ _, h => hq _ h

theorem everywhereInList_of_inner {P : TypeExpr → Prop} (hq : ∀ t, P t → q t)
    (hinner : ∀ t, P t → ∀ u ∈ t.inner, P u) :
    ∀ ts : List TypeExpr, (∀ t ∈ ts, P t) → EverywhereInList q ts
  | [], _ => trivial
  | t :: ts, h => ⟨everywhere_of_inner hq hinner t (h t (List.mem_cons_self ..)),
      everywhereInList_of_inner hq hinner ts fun u hu => h u (List.mem_cons_of_mem _ hu)⟩

theorem everywhereInFields_of_inner {P : TypeExpr → Prop} (hq : ∀ t, P t → q t)
    (hinner : ∀ t, P t → ∀ u ∈ t.inner, P u) :
    ∀ fs : List (FieldDecl TypeExpr), (∀ f ∈ fs, P f.type) → EverywhereInFields q fs
  | [], _ => trivial
  | ⟨_, t, _, _, _, _⟩ :: fs, h => ⟨everywhere_of_inner hq hinner t (h _ (List.mem_cons_self ..)),
      everywhereInFields_of_inner hq hinner fs fun f hf => h f (List.mem_cons_of_mem _ hf)⟩

end

namespace Everywhere

theorem imp (hpq : ∀ t, p t → q t) (h : t.Everywhere p) : t.Everywhere q :=
  everywhere_of_inner (P := Everywhere p) (fun t ht => hpq t ht.self) (fun _ ht _ hu => ht.inner hu) t h

/-- A property that holds everywhere holds everywhere of the type expressions there. -/
theorem hereditary (h : t.Everywhere p) : t.Everywhere fun u => u.Everywhere p :=
  everywhere_of_inner (P := Everywhere p) (fun _ ht => ht) (fun _ ht _ hu => ht.inner hu) t h

theorem of_forall (h : ∀ t, p t) (t : TypeExpr) : t.Everywhere p :=
  everywhere_of_inner (P := fun _ => True) (fun t _ => h t) (fun _ _ _ _ => trivial) t trivial

end Everywhere

/-! ## Layers -/

section

variable (scope : Scope) (layer : TypeDecl → Nat)

/-- Whether all declarations that the type expression mentions lie below a layer. -/
def Under (n : Nat) (t : TypeExpr) : Prop :=
  t.Everywhere fun u => ∀ d ∈ scope.declaration? u, layer d < n

instance (n : Nat) (t : TypeExpr) : Decidable (t.Under scope layer n) :=
  inferInstanceAs <| Decidable <| t.Everywhere fun u => ∀ d ∈ scope.declaration? u, layer d < n

/-- The parts of which only the value is used: members of an intersection, and type arguments of a
declaration, which may be put anywhere. -/
def opened : TypeExpr → List TypeExpr
  | intersection ms => ms
  | reference name args => if (scope.declaration? (reference name args)).isSome then args else []
  | _ => []

/-- Whether the type expression may stand in the fields of a declaration in a layer. -/
def Fits (n : Nat) (t : TypeExpr) : Prop :=
  t.Everywhere fun u => (∀ d ∈ scope.declaration? u, layer d ≤ n) ∧
    ∀ v ∈ u.opened scope, v.Under scope layer n

instance (n : Nat) (t : TypeExpr) : Decidable (t.Fits scope layer n) :=
  inferInstanceAs <| Decidable <| t.Everywhere fun u => (∀ d ∈ scope.declaration? u, layer d ≤ n) ∧
    ∀ v ∈ u.opened scope, v.Under scope layer n

/-- Whether the type expression becomes an object wherever it is not a reference back. -/
inductive DenotesObject : TypeExpr → Prop where
  | object {fs : List (FieldDecl TypeExpr)} : DenotesObject (.object fs)
  | intersection {ms : List TypeExpr} : DenotesObject (.intersection ms)
  | declared {t : TypeExpr} {d : TypeDecl} :
    scope.declaration? t = some d → d.body.fields?.isSome = true → DenotesObject t
  | synonym {t u : TypeExpr} {d : TypeDecl} :
    scope.declaration? t = some d → d.body = .synonym u → DenotesObject u → DenotesObject t

def members : TypeExpr → List TypeExpr
  | intersection ms => ms
  | _ => []

/-- Whether all intersections in the type expression are intersections of objects. -/
def Tidy (t : TypeExpr) : Prop :=
  t.Everywhere fun u => ∀ m ∈ u.members, m.DenotesObject scope

/-- The name that might be that of a type parameter. -/
def bareName? : TypeExpr → Option String
  | reference name [] => some name
  | _ => none

/-- Whether no reference in the type expression has one of the names, which are those of type
parameters. -/
def Avoids (names : List String) (t : TypeExpr) : Prop :=
  t.Everywhere fun u => ∀ name ∈ u.bareName?, name ∉ names

instance (names : List String) (t : TypeExpr) : Decidable (t.Avoids names) :=
  inferInstanceAs <| Decidable <| t.Everywhere fun u => ∀ name ∈ u.bareName?, name ∉ names

def fields : TypeExpr → List (FieldDecl TypeExpr)
  | object fs => fs
  | _ => []

def PlainFields (t : TypeExpr) : Prop := t.Everywhere fun u => ∀ f ∈ u.fields, Plain f.name

instance (t : TypeExpr) : Decidable t.PlainFields :=
  inferInstanceAs <| Decidable <| t.Everywhere fun u => ∀ f ∈ u.fields, Plain f.name

end

variable {layer : TypeDecl → Nat} {m n : Nat} {d : TypeDecl}

namespace Under

theorem lt (h : t.Under scope layer n) (hd : scope.declaration? t = some d) : layer d < n :=
  h.self d hd

theorem mono (h : t.Under scope layer n) (hle : n ≤ m) : t.Under scope layer m :=
  Everywhere.imp (fun _ hu d hd => (hu d hd).trans_le hle) h

theorem part (h : t.Under scope layer n) (hpart : t.Part scope u) : u.Under scope layer n :=
  Everywhere.part ⟨by simp [Scope.declaration?], by simp [Scope.declaration?]⟩ h hpart

end Under

theorem mem_inner_of_mem_opened (hu : u ∈ t.opened scope) : u ∈ t.inner := by
  cases t with
  | intersection ms => exact hu
  | reference name args =>
    rw [opened] at hu
    split at hu
    · exact hu
    · cases hu
  | _ => cases hu

namespace Fits

theorem le (h : t.Fits scope layer n) (hd : scope.declaration? t = some d) : layer d ≤ n :=
  h.self.1 d hd

theorem opened (h : t.Fits scope layer n) (hu : u ∈ t.opened scope) : u.Under scope layer n :=
  h.self.2 u hu

theorem part (h : t.Fits scope layer n) (hpart : t.Part scope u) : u.Fits scope layer n := by
  refine Everywhere.part ⟨fun _ => ?_, fun _ => ?_⟩ h hpart <;>
    exact ⟨by simp [Scope.declaration?], by simp [TypeExpr.opened]⟩

theorem under (h : t.Fits scope layer n) : t.Under scope layer (n + 1) :=
  Everywhere.imp (fun _ hu d hd => Nat.lt_succ_of_le (hu.1 d hd)) h

theorem of_under (h : t.Under scope layer n) : t.Fits scope layer n :=
  Everywhere.imp (fun _ hu =>
    ⟨fun d hd => Nat.le_of_lt (hu.self d hd), fun _ hv => hu.inner (mem_inner_of_mem_opened hv)⟩)
    (Everywhere.hereditary h)

end Fits

theorem Tidy.part (h : t.Tidy scope) (hpart : t.Part scope u) : u.Tidy scope :=
  Everywhere.part ⟨by simp [members], by simp [members]⟩ h hpart

/-- A type expression without intersections is tidy. -/
theorem Tidy.of_members_eq_nil (h : t.Everywhere fun u => u.members = []) : t.Tidy scope :=
  Everywhere.imp (fun u hu m hm => by simp [hu] at hm) h

theorem Avoids.part {names : List String} (h : t.Avoids names) (hpart : t.Part scope u) :
    u.Avoids names :=
  Everywhere.part ⟨by simp [bareName?], by simp [bareName?]⟩ h hpart

theorem Avoids.mono {names more : List String} (h : t.Avoids more) (hle : ∀ s ∈ names, s ∈ more) :
    t.Avoids names :=
  Everywhere.imp (fun _ hu name heq hmem => hu name heq (hle name hmem)) h

theorem PlainFields.part (h : t.PlainFields) (hpart : t.Part scope u) : u.PlainFields :=
  Everywhere.part ⟨by simp [fields], by simp [fields]⟩ h hpart

end TypeExpr

def TypeDecl.defaults (d : TypeDecl) : List TypeExpr := d.parameters.filterMap (·.default)

namespace Resolve

/-- Whether a declaration keeps to its layer. -/
structure Scope.Keeps (scope : Scope) (layer : TypeDecl → Nat) (d : TypeDecl) : Prop where
  fields : ∀ fs ∈ d.body.fields?, (TypeExpr.object fs).Fits scope layer (layer d)
  opened : ∀ u ∈ d.body.opened ++ d.defaults, u.Under scope layer (layer d)
  /-- Base types become objects. -/
  bases : ∀ bases fs, d.body = .interface bases fs → ∀ u ∈ bases, u.DenotesObject scope
  distinct : ∀ fs ∈ d.body.fields?, (fs.map (·.name)).Nodup
  tidy : ∀ u ∈ d.body.needs ++ d.defaults, u.Tidy scope
  avoids : ∀ u ∈ d.body.needs ++ d.defaults, u.Avoids (d.parameters.map (·.name))
  plain : ∀ u ∈ d.body.needs ++ d.defaults, u.PlainFields

/-- The declarations are in layers, and tell themselves apart by their names. -/
structure Scope.Layered (scope : Scope) (layer : TypeDecl → Nat) : Prop where
  wellNamed : scope.WellNamed
  keeps : ∀ d ∈ scope.types, scope.Keeps layer d

/-! ## Places -/

/-- Whether the type points back to instances of declarations that stand for objects only. -/
def PointsToObjects (scope : Scope) (t : WireType) : Prop :=
  ∀ b, t.PointsBack b → ∃ d ∈ scope.types, d.body.fields?.isSome = true ∧
    ∃ arguments, b = instanceIdentity d arguments

/-- Whether a context has room for a type expression: everything it mentions lies in the layer `n` or
below, and the declarations that are being expanded lie in that layer or above. -/
structure Room (scope : Scope) (layer : TypeDecl → Nat) (n : Nat) (c : Context) (t : TypeExpr) :
    Prop where
  fits : t.Fits scope layer n
  avoids : t.Avoids c.environment.keys
  plain : c.frames ≠ [] → t.PlainFields ∧ ∀ s ∈ c.fieldPath, Plain s
  values : ∀ entry ∈ c.environment, PointsToObjects scope entry.2
  frames : ∀ f ∈ c.frames, ∃ d ∈ scope.types, f.Of d
  above : ∀ f ∈ c.frames, ∀ d ∈ scope.types, f.Of d → n ≤ layer d
  /-- A synonym that is being expanded does not come back. -/
  synonyms : ∀ f ∈ c.frames, ∀ d ∈ scope.types, f.Of d → d.body.fields? = none →
    t.Under scope layer (layer d)

/-- The place of a type expression. A place in a declaration that is not in one of its fields leads
only further down. -/
structure Placed (scope : Scope) (layer : TypeDecl → Nat) (n : Nat) (c : Context) (t : TypeExpr) : Prop
    extends Room scope layer n c t where
  down : c.frames ≠ [] → c.fieldPath = [] → t.Under scope layer n

variable {scope : Scope} {layer : TypeDecl → Nat} {n : Nat} {c : Context} {t u : TypeExpr}
  {d : TypeDecl} {arguments : List WireType} {environment : Table WireType}

/-- The names of type parameters and their values, where nothing leads back but to objects. -/
structure Confined (scope : Scope) (environment : Table WireType) (names : List String) : Prop where
  names : ∀ s ∈ environment.keys, s ∈ names
  values : ∀ entry ∈ environment, PointsToObjects scope entry.2

theorem Confined.empty (names : List String) : Confined scope [] names :=
  ⟨by simp [Table.keys], by simp⟩

theorem Confined.put {names : List String} (h : Confined scope environment names) {name : String}
    (hname : name ∈ names) {w : WireType} (hw : PointsToObjects scope w) :
    Confined scope (environment.put name w) names :=
  ⟨Table.forall_keys_put h.names hname w, Table.forall_values_put h.values hw name⟩

theorem Room.part (h : Room scope layer n c t) (hpart : t.Part scope u) : Room scope layer n c u where
  fits := h.fits.part hpart
  avoids := h.avoids.part hpart
  plain hne := ⟨(h.plain hne).1.part hpart, (h.plain hne).2⟩
  values := h.values
  frames := h.frames
  above := h.above
  synonyms f hf d hd hof hnone := (h.synonyms f hf d hd hof hnone).part hpart

theorem Placed.part (h : Placed scope layer n c t) (hpart : t.Part scope u) :
    Placed scope layer n c u :=
  ⟨h.toRoom.part hpart, fun hne hpath => (h.down hne hpath).part hpart⟩

theorem Room.push (h : Room scope layer n c t) {name : String} (hname : c.frames ≠ [] → Plain name) :
    Placed scope layer n (c.pushField name) t where
  fits := h.fits
  avoids := h.avoids
  plain hne := ⟨(h.plain hne).1, List.forall_mem_cons.mpr ⟨hname hne, (h.plain hne).2⟩⟩
  values := h.values
  frames := h.frames
  above := h.above
  synonyms := h.synonyms
  down _ hpath := absurd hpath (List.cons_ne_nil _ _)

/-- A field has its place wherever the object has. -/
theorem Room.field {fs : List (FieldDecl TypeExpr)} (h : Room scope layer n c (.object fs))
    {f : FieldDecl TypeExpr} (hf : f ∈ fs) :
    Placed scope layer n (c.pushField f.name) f.type.stripUndefined.1 :=
  (h.part (.field hf)).push fun hne => (h.plain hne).1.self f hf

/-- What a declaration is made of has room in its expansion. -/
theorem Room.enter (h : Room scope layer n c t) (hs : scope.Layered layer) (hd : d ∈ scope.types)
    (ht : scope.declaration? t = some d)
    (hbound : Confined scope environment (d.parameters.map (·.name))) (hu : u ∈ d.body.needs)
    (hfits : u.Fits scope layer (layer d))
    (hunder : d.body.fields? = none → u.Under scope layer (layer d)) :
    Room scope layer (layer d) (c.enter (frameOf d arguments) environment) u := by
  have hkeeps := hs.keeps d hd
  have hneeds : u ∈ d.body.needs ++ d.defaults := List.mem_append_left _ hu
  refine ⟨hfits, (hkeeps.avoids u hneeds).mono hbound.names, fun _ => ⟨hkeeps.plain u hneeds, ?_⟩,
    hbound.values, ?_, ?_, ?_⟩
  · intro s hs
    cases hs
  · intro f hf
    rcases List.mem_cons.mp hf with rfl | hf
    · exact ⟨d, hd, frameOf_of d arguments⟩
    · exact h.frames f hf
  · intro f hf e he hof
    rcases List.mem_cons.mp hf with rfl | hf
    · rw [hs.wellNamed.eq_of_frame hd he hof rfl]
    · exact (h.fits.le ht).trans (h.above f hf e he hof)
  · intro f hf e he hof hnone
    rcases List.mem_cons.mp hf with rfl | hf
    · obtain rfl := hs.wellNamed.eq_of_frame hd he hof rfl
      exact hunder hnone
    · exact hfits.under.mono ((h.synonyms f hf e he hof hnone).lt ht)

/-- What a declaration opens has its place in the expansion. -/
theorem Room.opened (h : Room scope layer n c t) (hs : scope.Layered layer) (hd : d ∈ scope.types)
    (ht : scope.declaration? t = some d)
    (hbound : Confined scope environment (d.parameters.map (·.name))) (hu : u ∈ d.body.opened) :
    Placed scope layer (layer d) (c.enter (frameOf d arguments) environment) u := by
  have hunder := (hs.keeps d hd).opened u (List.mem_append_left _ hu)
  exact ⟨h.enter hs hd ht hbound (List.mem_append_right _ hu) (.of_under hunder) fun _ => hunder,
    fun _ _ => hunder⟩

/-- The default of a type parameter has its place where the declaration is mentioned. -/
theorem Room.default (h : Room scope layer n c t) (hs : scope.Layered layer) (hd : d ∈ scope.types)
    (ht : scope.declaration? t = some d)
    (hbound : Confined scope environment (d.parameters.map (·.name))) (hu : u ∈ d.defaults) :
    Placed scope layer n { c with environment := environment } u ∧ u.Under scope layer n := by
  have hkeeps := hs.keeps d hd
  have hmem : u ∈ d.body.needs ++ d.defaults := List.mem_append_right _ hu
  have hunder := hkeeps.opened u (List.mem_append_right _ hu)
  have hn := hunder.mono (h.fits.le ht)
  exact ⟨⟨⟨.of_under hn, (hkeeps.avoids u hmem).mono hbound.names,
    fun hne => ⟨hkeeps.plain u hmem, (h.plain hne).2⟩, hbound.values, h.frames, h.above,
    fun f hf e he hof hnone => hunder.mono (Nat.le_of_lt ((h.synonyms f hf e he hof hnone).lt ht))⟩,
    fun _ _ => hn⟩, hn⟩

end Resolve

end AnnotatedApi
