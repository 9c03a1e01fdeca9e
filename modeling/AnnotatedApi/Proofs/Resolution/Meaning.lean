import AnnotatedApi.Proofs.Resolution.Objects
import AnnotatedApi.Proofs.Resolution.TypeTerm
import AnnotatedApi.Proofs.WireType.Union
import Mathlib.Data.List.Forall2

/-!
# What wire types mean

A wire type means a term: an inline object means its fields, wherever it stands, and an instance of a
declaration means the declaration with its type arguments, whether it is spelled out or pointed back
to. Two wire types are the same type if they mean one term. The key of a type is the text of what it
means; so where names can be told from each other, types with one key are the same type.
-/

namespace AnnotatedApi

set_option autoImplicit false

open Resolve

theorem WireType.keyList_eq_map (ws : List WireType) : WireType.keyList ws = ws.map WireType.key := by
  induction ws with
  | nil => rfl
  | cons w ws ih => rw [WireType.keyList, ih, List.map_cons]

/-! ## Meanings -/

namespace TypeTerm

variable {scope : Scope}

def atom (a : TypeAtom scope) : TypeTerm scope := .of a [] 0

def array : TypeTerm scope → TypeTerm scope
  | of a more n => of a more (n + 1)

/-- A declaration with type arguments. -/
def instanceOf (d : TypeDecl) (hd : d ∈ scope.types) : List (TypeTerm scope) → TypeAtom scope
  | [] => .word (.name (.declared d hd))
  | t :: ts => .apply (.declared d hd) t ts

theorem instanceOf_inj {d e : TypeDecl} {hd : d ∈ scope.types} {he : e ∈ scope.types}
    {ts us : List (TypeTerm scope)} (h : instanceOf d hd ts = instanceOf e he us) : d = e ∧ ts = us := by
  cases ts <;> cases us <;> simp_all [instanceOf]

theorem text_atom (a : TypeAtom scope) : text (atom a) = atomText a := by
  simp [atom, text, atomTexts, brackets]

theorem text_array (t : TypeTerm scope) : text (array t) = text t ++ "[]" := by
  obtain ⟨a, more, n⟩ := t
  simp [array, text, brackets, String.append_assoc]

theorem atomText_instanceOf (d : TypeDecl) (hd : d ∈ scope.types) (ts : List (TypeTerm scope)) :
    atomText (instanceOf d hd ts) = WireType.withArguments d.qualifiedName (ts.map text) := by
  cases ts with
  | nil => rfl
  | cons t ts => simp [instanceOf, atomText, texts_eq_map, Head.text]

end TypeTerm

open TypeTerm

mutual

/-- What a wire type means. -/
inductive Means (scope : Scope) : WireType → TypeTerm scope → Prop where
  | primitive (p : Primitive) : Means scope (.primitive p) (atom (.word (.constant (.primitive p))))
  | boolean (b : Bool) : Means scope (.literal (.boolean b)) (atom (.word (.constant (.boolean b))))
  | number {x : Binary64} (h : x.isFinite = true) : Means scope (.literal (.number x))
      (atom (.word (.constant (.number x.canonical (.of_finite h)))))
  | string (s : String) : Means scope (.literal (.string s)) (atom (.quoted s))
  | array {w : WireType} {t : TypeTerm scope} : Means scope w t → Means scope (.array w) t.array
  | inline {i : String} {fields : List (Field WireType)} {fs : List (FieldTerm scope)} :
    MeansFields scope fields fs → Means scope (.object i none [] fields) (atom (.record fs))
  | union {ws : List WireType} {ts : List (TypeTerm scope)} :
    MeansAll scope ws ts → Means scope (.union ws) (atom (.union ts))
  | promise {w : WireType} {t : TypeTerm scope} :
    Means scope w t → Means scope (.promise w) (atom (.apply .promise t []))
  | dictionary {name : String} (h : builtin? name = some .dictionary) {ws : List WireType}
    {t : TypeTerm scope} {ts : List (TypeTerm scope)} :
    MeansAll scope ws (t :: ts) → Means scope (.generic name ws) (atom (.apply (.dictionary name h) t ts))
  | unbound {name : String} (h : scope.Free name) :
    Means scope (.generic name []) (atom (.word (.name (.parameter name h))))
  | unexpanded {name : String} (h : name ∈ scope.options.nameOnly) :
    Means scope (.unexpanded name) (atom (.word (.name (.unexpanded name h))))
  | back {d : TypeDecl} (hd : d ∈ scope.types) {arguments : List WireType}
    {ts : List (TypeTerm scope)} : arguments.length = d.parameters.length →
    MeansAll scope arguments ts →
      Means scope (.back (instanceIdentity d arguments)) (atom (instanceOf d hd ts))
  | named {o : ObjectType} {a : TypeAtom scope} :
    MeansInstance scope o a → Means scope o.type (atom a)
  | meet {o o' : ObjectType} {os : List ObjectType} {a a' : TypeAtom scope}
    {as : List (TypeAtom scope)} : MeansInstances scope (o :: o' :: os) (a :: a' :: as) →
      Means scope (ObjectType.meet (o :: o' :: os)).type (.of a (a' :: as) 0)

inductive MeansAll (scope : Scope) : List WireType → List (TypeTerm scope) → Prop where
  | nil : MeansAll scope [] []
  | cons {w : WireType} {ws : List WireType} {t : TypeTerm scope} {ts : List (TypeTerm scope)} :
    Means scope w t → MeansAll scope ws ts → MeansAll scope (w :: ws) (t :: ts)

inductive MeansFields (scope : Scope) : List (Field WireType) → List (FieldTerm scope) → Prop where
  | nil : MeansFields scope [] []
  | cons {f : Field WireType} {fields : List (Field WireType)} {t : TypeTerm scope}
    {fs : List (FieldTerm scope)} (h : IsFieldName f.name) : Means scope f.type t →
      MeansFields scope fields fs → MeansFields scope (f :: fields) (.mk f.name h f.required t :: fs)

/-- What an object means that is an instance of a declaration. -/
inductive MeansInstance (scope : Scope) : ObjectType → TypeAtom scope → Prop where
  | of {o : ObjectType} {d : TypeDecl} (hd : d ∈ scope.types) {ts : List (TypeTerm scope)} :
    o.IsInstance d → MeansAll scope o.arguments ts → MeansInstance scope o (instanceOf d hd ts)

inductive MeansInstances (scope : Scope) : List ObjectType → List (TypeAtom scope) → Prop where
  | nil : MeansInstances scope [] []
  | cons {o : ObjectType} {os : List ObjectType} {a : TypeAtom scope} {as : List (TypeAtom scope)} :
    MeansInstance scope o a → MeansInstances scope os as → MeansInstances scope (o :: os) (a :: as)

end

/-- Whether two wire types mean one term. -/
def SameType (scope : Scope) (v w : WireType) : Prop := ∃ t, Means scope v t ∧ Means scope w t

variable {scope : Scope}

/-! ## Keys -/

theorem instanceIdentity_eq {d : TypeDecl} {arguments : List WireType}
    (h : arguments.length = d.parameters.length) :
    instanceIdentity d arguments =
      WireType.withArguments d.qualifiedName (arguments.map WireType.key) := by
  cases arguments with
  | nil => simp [instanceIdentity, WireType.withArguments, List.eq_nil_of_length_eq_zero h.symm]
  | cons w ws =>
    have hne : d.parameters ≠ [] := by
      rintro heq
      simp [heq] at h
    simp [instanceIdentity, WireType.withArguments, hne]

theorem ObjectType.key_type {o : ObjectType} {name : String} (h : o.name = some name) :
    o.type.key = o.identity := by
  rw [ObjectType.type, h, WireType.key]

theorem MeansInstance.exists_name {o : ObjectType} {a : TypeAtom scope} (h : MeansInstance scope o a) :
    ∃ name, o.name = some name := by
  cases h with
  | of hd ho h => exact ⟨_, ho.name⟩

mutual

/-- The key of a type is the text of what it means. -/
theorem Means.key_eq : ∀ {w : WireType} {t : TypeTerm scope}, Means scope w t → w.key = t.text
  | _, _, .primitive p => by rw [text_atom]; rfl
  | _, _, .boolean b => by rw [text_atom]; rfl
  | _, _, .number h => by
    rw [text_atom]
    exact (Literal.display_canonical _).symm
  | _, _, .string s => by rw [text_atom]; rfl
  | _, _, .array h => by rw [WireType.key, h.key_eq, text_array]
  | _, _, .inline h => by rw [WireType.key, h.keyFields_eq, text_atom, atomText]
  | _, _, .union h => by rw [WireType.key, h.keyList_eq, text_atom, atomText]
  | _, _, .promise h => by
    rw [WireType.key, h.key_eq, text_atom]
    rfl
  | _, _, .dictionary _ h => by
    rw [WireType.key, h.keyList_eq, text_atom]
    rfl
  | _, _, .unbound _ => by rw [text_atom]; rfl
  | _, _, .unexpanded _ => by rw [text_atom]; rfl
  | _, _, .back hd hlength h => by
    rw [WireType.key, instanceIdentity_eq hlength, text_atom, atomText_instanceOf, ← texts_eq_map,
      ← h.keyList_eq, WireType.keyList_eq_map]
  | _, _, .named h => by
    obtain ⟨name, hname⟩ := h.exists_name
    rw [ObjectType.key_type hname, h.identity_eq, text_atom]
  | _, _, .meet h => by
    rw [ObjectType.key_type rfl, ObjectType.meet, ObjectType.joinedIdentity, h.identities_eq]
    simp [text, atomTexts, brackets]

theorem MeansAll.keyList_eq : ∀ {ws : List WireType} {ts : List (TypeTerm scope)},
    MeansAll scope ws ts → WireType.keyList ws = texts ts
  | _, _, .nil => rfl
  | _, _, .cons h hs => by rw [WireType.keyList, h.key_eq, hs.keyList_eq, texts]

theorem MeansFields.keyFields_eq : ∀ {fields : List (Field WireType)} {fs : List (FieldTerm scope)},
    MeansFields scope fields fs → WireType.keyFields fields = fieldTexts fs
  | _, _, .nil => rfl
  | _, _, .cons hn h hs => by rw [WireType.keyFields, h.key_eq, hs.keyFields_eq, fieldTexts]

theorem MeansInstance.identity_eq : ∀ {o : ObjectType} {a : TypeAtom scope},
    MeansInstance scope o a → o.identity = atomText a
  | _, _, .of hd ho h => by
    rw [ho.identity, instanceIdentity_eq ho.length, atomText_instanceOf, ← texts_eq_map,
      ← h.keyList_eq, WireType.keyList_eq_map]

theorem MeansInstances.identities_eq : ∀ {os : List ObjectType} {as : List (TypeAtom scope)},
    MeansInstances scope os as → os.map (·.identity) = atomTexts as
  | _, _, .nil => rfl
  | _, _, .cons h hs => by rw [List.map_cons, h.identity_eq, hs.identities_eq, atomTexts]

end

/-! ## Types with a meaning -/

def Meaningful (scope : Scope) (w : WireType) : Prop := ∃ t, Means scope w t

theorem exists_meansAll {ws : List WireType} :
    (∃ ts, MeansAll scope ws ts) ↔ ∀ w ∈ ws, Meaningful scope w := by
  induction ws with
  | nil => exact ⟨fun _ => by simp, fun _ => ⟨[], .nil⟩⟩
  | cons w ws ih =>
    rw [List.forall_mem_cons, ← ih]
    constructor
    · rintro ⟨_, h⟩
      cases h with
      | cons h hs => exact ⟨⟨_, h⟩, _, hs⟩
    · rintro ⟨⟨t, h⟩, ts, hs⟩
      exact ⟨_, .cons h hs⟩

theorem MeansAll.length_eq {ws : List WireType} {ts : List (TypeTerm scope)} (h : MeansAll scope ws ts) :
    ws.length = ts.length := by
  have hkeys := congrArg List.length h.keyList_eq
  rwa [WireType.keyList_eq_map, texts_eq_map, List.length_map, List.length_map] at hkeys

theorem MeansAll.same {vs ws : List WireType} {ts : List (TypeTerm scope)} (hv : MeansAll scope vs ts)
    (hw : MeansAll scope ws ts) : List.Forall₂ (SameType scope) vs ws := by
  induction ts generalizing vs ws with
  | nil =>
    cases hv
    cases hw
    exact .nil
  | cons t ts ih =>
    cases hv with
    | cons hv hvs =>
      cases hw with
      | cons hw hws => exact .cons ⟨t, hv, hw⟩ (ih hvs hws)

theorem Meaningful.alternatives {w v : WireType} (h : Meaningful scope w) (hv : v ∈ w.alternatives) :
    Meaningful scope v := by
  cases w with
  | union ws =>
    obtain ⟨_, h⟩ := h
    cases h with
    | union h => exact exists_meansAll.mp ⟨_, h⟩ v hv
  | _ => exact List.mem_singleton.mp hv ▸ h

/-- The union of types with a meaning has one. -/
theorem Meaningful.unionOf {ws : List WireType} (h : ∀ w ∈ ws, Meaningful scope w) :
    Meaningful scope (.unionOf ws) := by
  have hmembers : ∀ v ∈ WireType.unionMembers ws, Meaningful scope v := by
    intro v hv
    rcases WireType.mem_unionMembers hv with ⟨w, hw, hv⟩ | rfl
    · exact (h w hw).alternatives hv
    · exact ⟨_, .primitive .boolean⟩
  rcases WireType.unionOf_eq ws with heq | hmem
  · obtain ⟨ts, hts⟩ := exists_meansAll.mpr hmembers
    rw [heq]
    exact ⟨_, .union hts⟩
  · exact hmembers _ hmem

/-! ## Types with one key -/

/-- Where names can be told from each other, types with one key are the same type. -/
theorem SameType.iff_key_eq (hs : scope.Named) {v w : WireType} (hv : Meaningful scope v)
    (hw : Meaningful scope w) : SameType scope v w ↔ v.key = w.key := by
  constructor
  · rintro ⟨t, hv, hw⟩
    rw [hv.key_eq, hw.key_eq]
  · intro h
    obtain ⟨t, hv⟩ := hv
    obtain ⟨u, hw⟩ := hw
    rw [hv.key_eq, hw.key_eq] at h
    obtain rfl := text_injective hs h
    exact ⟨t, hv, hw⟩

/-- The identity of an instance tells the declaration and the type arguments. -/
theorem eq_of_instanceIdentity_eq (hs : scope.Named) {d e : TypeDecl} (hd : d ∈ scope.types)
    (he : e ∈ scope.types) {as bs : List WireType} (has : as.length = d.parameters.length)
    (hbs : bs.length = e.parameters.length) (ha : ∀ a ∈ as, Meaningful scope a)
    (hb : ∀ b ∈ bs, Meaningful scope b) (h : instanceIdentity d as = instanceIdentity e bs) :
    d = e ∧ List.Forall₂ (SameType scope) as bs := by
  obtain ⟨ts, hts⟩ := exists_meansAll.mpr ha
  obtain ⟨us, hus⟩ := exists_meansAll.mpr hb
  have htext : text (atom (instanceOf d hd ts)) = text (atom (instanceOf e he us)) := by
    rw [← (Means.back hd has hts).key_eq, ← (Means.back he hbs hus).key_eq, WireType.key, WireType.key, h]
  have hatom : instanceOf d hd ts = instanceOf e he us := by
    have := text_injective hs htext
    simpa [atom] using this
  obtain ⟨rfl, rfl⟩ := instanceOf_inj hatom
  exact ⟨rfl, hts.same hus⟩

/-- A named object is an instance of a declaration, or an intersection, which has no type arguments. -/
theorem Means.of_named {o : ObjectType} {t : TypeTerm scope} (h : Means scope o.type t)
    (hname : o.name.isSome = true) : (∃ a, MeansInstance scope o a ∧ t = atom a) ∨
      o.arguments = [] ∧ ∃ a a' as, t = .of a (a' :: as) 0 := by
  generalize ho : o.type = w at h
  cases h with
  | inline =>
    obtain ⟨i, name, arguments, fields⟩ := o
    cases ho
    cases hname
  | named h =>
    obtain rfl := ObjectType.type_injective ho
    exact .inl ⟨_, h, rfl⟩
  | meet h =>
    obtain rfl := ObjectType.type_injective ho
    exact .inr ⟨rfl, _, _, _, rfl⟩
  | _ => cases ho

/-- Named objects that are the same type have the same type arguments. -/
theorem SameType.arguments {o p : ObjectType} (h : SameType scope o.type p.type)
    (ho : o.name.isSome = true) (hp : p.name.isSome = true) :
    List.Forall₂ (SameType scope) o.arguments p.arguments := by
  obtain ⟨t, ht, ht'⟩ := h
  rcases ht.of_named ho with ⟨a, ha, rfl⟩ | ⟨hnil, a, a', as, rfl⟩ <;>
    rcases ht'.of_named hp with ⟨b, hb, heq⟩ | ⟨hnil', b, b', bs, heq⟩
  · obtain rfl : a = b := by simpa [atom] using heq
    cases ha with
    | of hd _ hts =>
      generalize hatom : instanceOf _ hd _ = c at hb
      cases hb with
      | of he _ hus =>
        obtain ⟨_, rfl⟩ := instanceOf_inj hatom
        exact hts.same hus
  · cases heq
  · cases heq
  · rw [hnil, hnil']
    exact .nil

end AnnotatedApi
