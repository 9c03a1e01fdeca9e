import AnnotatedApi.Proofs.Resolution.Declared
import AnnotatedApi.Proofs.WireType.Parts

/-!
# Objects inside objects of the same declaration

A declaration that is met again while it is being expanded becomes a reference back. This is so for what
the expansion resolves itself. But it also puts in types that have been there before: what is remembered,
its type arguments, and the fields of such objects that become base types or members of intersections.
These may contain an object of the declaration that is being expanded.

`exists_brought_of_nested` says that an object of a declaration stands inside one of the same identity in no
other way: it goes back from the outer object to the expansion that ended with it, and what was there is what
was there when that expansion began. Intersections are no such objects: each has the identities of its members
joined for an identity, which does not tell what it is made of. `nested_objects` shows that each of these ways
is taken.
-/

namespace AnnotatedApi

set_option autoImplicit false

open Resolve

/-! ## Objects of declarations -/

namespace ObjectType

/-- Whether an object is one of a declaration: it has a name, and it is no intersection, unless of such an
object alone. -/
structure OfDeclaration (o : ObjectType) : Prop where
  named : o.name.isSome = true
  single : ∀ os, o = meet os → ∃ o', os = [o'] ∧ o'.name.isSome = true

theorem meet_meet (os : List ObjectType) : meet [meet os] = meet os := by
  have hfields : mergeAll [meet os] [] = mergeAll os [] := mergeFields_of_nodup (nodup_mergeAll os)
  have hname : joinedName [meet os] = joinedName os := by
    simp [joinedName, meet, type, WireType.display, WireType.displayList, WireType.withArguments]
  simp only [meet] at hname hfields ⊢
  rw [hname, hfields]
  rfl

/-- An intersection is an object of a declaration if it is the intersection of one alone. -/
theorem OfDeclaration.of_meet {os : List ObjectType} (h : (meet os).OfDeclaration) :
    ∃ o, os = [o] ∧ o.OfDeclaration := by
  obtain ⟨o, rfl, hname⟩ := h.single os rfl
  refine ⟨o, rfl, hname, ?_⟩
  rintro os rfl
  exact h.single os (meet_meet os)

/-- Whether an object is built from such as `P` holds of: it is one of them, an inline object, or an
intersection of objects that are built so. -/
inductive BuiltFrom (P : ObjectType → Prop) : ObjectType → Prop where
  | one {o : ObjectType} : P o → BuiltFrom P o
  | inline {o : ObjectType} : o.name = none → BuiltFrom P o
  | meet {os : List ObjectType} : (∀ o ∈ os, BuiltFrom P o) → BuiltFrom P (meet os)

/-- An object of a declaration is built from one only. -/
theorem BuiltFrom.of_ofDeclaration {P : ObjectType → Prop} {o : ObjectType} (h : o.BuiltFrom P)
    (hdeclared : o.OfDeclaration) : ∃ p, P p ∧ (o = p ∨ o = ObjectType.meet [p]) := by
  induction h with
  | @one o ho => exact ⟨o, ho, .inl rfl⟩
  | inline hname =>
    have hnamed := hdeclared.named
    simp [hname] at hnamed
  | meet _ ih =>
    obtain ⟨o, rfl, hone⟩ := hdeclared.of_meet
    obtain ⟨p, hp, rfl | rfl⟩ := ih o (List.mem_singleton.mpr rfl) hone
    · exact ⟨_, hp, .inr rfl⟩
    · exact ⟨p, hp, .inr (meet_meet _)⟩

end ObjectType

/-- Whether a type is an object of a declaration, with the identity. -/
def WireType.NamedObject (i : String) (t : WireType) : Prop :=
  ∃ o : ObjectType, t = o.type ∧ o.identity = i ∧ o.OfDeclaration

theorem ObjectType.namedObject_iff {o : ObjectType} {i : String} :
    o.type.NamedObject i ↔ o.identity = i ∧ o.OfDeclaration := by
  refine ⟨?_, fun h => ⟨o, rfl, h⟩⟩
  rintro ⟨o', heq, h⟩
  exact type_injective heq ▸ h

namespace Resolve

/-! ## What is there when a declaration is entered -/

/-- What a declaration is entered with: the type arguments of the instance, and the cache. -/
structure Entry where
  identity : String
  arguments : List WireType
  cache : Cache

/-- Whether a type is there when a declaration is entered: it is remembered then, it is a type argument,
or it is a member of a union or has been taken from an object that is there. -/
inductive Brought (e : Entry) : WireType → Prop where
  | remembered {identity : String} {t : WireType} : (identity, t) ∈ e.cache.entries → Brought e t
  | argument {t : WireType} : t ∈ e.arguments → Brought e t
  | member {members : List WireType} {t : WireType} : Brought e (.union members) → t ∈ members →
    Brought e t
  | field {o : ObjectType} {f : Field WireType} : Brought e o.type → f ∈ o.fields → Brought e f.type
  | alone {o : ObjectType} : Brought e o.type → Brought e (ObjectType.meet [o]).type

/-- Whether no object of the instance that is entered is in a type, but for what is in a type that is
there already. -/
inductive Clear (e : Entry) : WireType → Prop where
  | brought {t : WireType} : Brought e t → Clear e t
  | inside {t : WireType} : ¬ t.NamedObject e.identity → (∀ u ∈ t.children, Clear e u) → Clear e t

namespace Clear

variable {e : Entry} {t : WireType}

theorem field {o : ObjectType} (h : Clear e o.type) {f : Field WireType} (hf : f ∈ o.fields) :
    Clear e f.type := by
  cases h with
  | brought h => exact .brought (.field h hf)
  | inside _ h => exact h _ (ObjectType.mem_children.mpr (.inr ⟨f, hf, rfl⟩))

theorem of_children (ht : ∀ o : ObjectType, t ≠ o.type) (h : ∀ u ∈ t.children, Clear e u) : Clear e t :=
  .inside (fun ⟨o, ho, _⟩ => ht o ho) h

theorem object {o : ObjectType} (h : ¬ o.type.NamedObject e.identity)
    (harguments : ∀ t ∈ o.arguments, Clear e t) (hfields : ∀ f ∈ o.fields, Clear e f.type) :
    Clear e o.type := by
  refine .inside h fun u hu => ?_
  rcases ObjectType.mem_children.mp hu with hu | ⟨f, hf, rfl⟩
  · exact harguments u hu
  · exact hfields f hf

theorem unionOf {ts : List WireType} (h : ∀ t ∈ ts, Clear e t) : Clear e (.unionOf ts) := by
  have hmember : ∀ u ∈ WireType.unionMembers ts, Clear e u := by
    intro u hu
    rcases WireType.mem_unionMembers hu with ⟨t, ht, hu⟩ | rfl
    · cases t with
      | union members =>
        cases h _ ht with
        | brought hunion => exact .brought (.member hunion hu)
        | inside _ hmembers => exact hmembers u hu
      | _ =>
        obtain rfl := List.mem_singleton.mp hu
        exact h _ ht
    · exact .of_children (by simp [ObjectType.type]) (by simp [WireType.children])
  rcases WireType.unionOf_eq ts with heq | hmem
  · rw [heq]
    exact .of_children (by simp [ObjectType.type]) hmember
  · exact hmember _ hmem

/-- An intersection is an object of the instance only if it is that of one alone. -/
theorem meet {os : List ObjectType} (h : ∀ o ∈ os, Clear e o.type) :
    Clear e (ObjectType.meet os).type := by
  by_cases hnamed : (ObjectType.meet os).type.NamedObject e.identity
  · obtain ⟨hidentity, hdeclared⟩ := ObjectType.namedObject_iff.mp hnamed
    obtain ⟨o, rfl, hone⟩ := hdeclared.of_meet
    cases h o (List.mem_singleton.mpr rfl) with
    | brought ho => exact .brought (.alone ho)
    | inside ho _ => exact absurd ⟨o, rfl, hidentity, hone⟩ ho
  · refine object hnamed (by simp [ObjectType.meet]) fun f hf => ?_
    obtain ⟨o, ho, hf⟩ := ObjectType.exists_of_mem_mergeAll hf
    exact (h o ho).field hf

/-- On every way down to an object of the instance there is a type that is there already. -/
theorem exists_brought (h : Clear e t) {way : List WireType}
    (hway : (t :: way).IsChain fun t u => u ∈ t.children)
    (hx : ∃ x ∈ t :: way, x.NamedObject e.identity) : ∃ q ∈ t :: way, Brought e q := by
  induction h generalizing way with
  | @brought t ht => exact ⟨t, List.mem_cons_self .., ht⟩
  | @inside t hnot _ ih =>
    obtain ⟨x, hx, hnamed⟩ := hx
    rcases List.mem_cons.mp hx with rfl | hx
    · exact absurd hnamed hnot
    · cases way with
      | nil => cases hx
      | cons u way =>
        obtain ⟨hu, hway⟩ := List.isChain_cons_cons.mp hway
        obtain ⟨q, hq, hbrought⟩ := ih u hu hway ⟨x, hx, hnamed⟩
        exact ⟨q, List.mem_cons_of_mem _ hq, hbrought⟩

end Clear

/-- Whether, on every way down from an object to one of the instance that is entered, there is a type that is
there already. -/
def NestsBrought (e : Entry) (o : ObjectType) : Prop :=
  ∀ way, (o.type :: way).IsChain (fun t u => u ∈ t.children) →
    (∃ v ∈ way, v.NamedObject e.identity) → ∃ q ∈ way, Brought e q

/-- Every way down begins with a part of the object. -/
theorem NestsBrought.of_parts {e : Entry} {o : ObjectType} (h : ∀ u ∈ o.type.children, ∀ way,
    (u :: way).IsChain (fun t u => u ∈ t.children) →
      (∃ v ∈ u :: way, v.NamedObject e.identity) → ∃ q ∈ u :: way, Brought e q) : NestsBrought e o := by
  intro way hway hnamed
  cases way with
  | nil =>
    obtain ⟨_, hv, _⟩ := hnamed
    cases hv
  | cons u way =>
    obtain ⟨hu, hway⟩ := List.isChain_cons_cons.mp hway
    exact h u hu way hway hnamed

theorem NestsBrought.of_children {e : Entry} {o : ObjectType} (h : ∀ u ∈ o.type.children, Clear e u) :
    NestsBrought e o :=
  .of_parts fun u hu _ hway hnamed => (h u hu).exists_brought hway hnamed

/-- The intersection of an object alone has its fields. -/
theorem NestsBrought.meet {e : Entry} {o : ObjectType} (h : NestsBrought e o) :
    NestsBrought e (.meet [o]) := by
  refine .of_parts fun u hu way hway hnamed => h (u :: way) (.cons_cons ?_ hway) hnamed
  rcases ObjectType.mem_children.mp hu with hu | ⟨f, hf, rfl⟩
  · cases hu
  · obtain ⟨p, hp, hfield⟩ := ObjectType.exists_of_mem_mergeAll hf
    obtain rfl := List.mem_singleton.mp hp
    exact ObjectType.mem_children.mpr (.inr ⟨f, hfield, rfl⟩)

theorem Leads.isExpanding {scope : Scope} {P : List Frame → WireType → Prop} {c c' : Context}
    {t u : TypeExpr} (h : Leads scope P c t c' u) {identity : String}
    (hc : c.isExpanding identity = true) : c'.isExpanding identity = true := by
  have hcons : ∀ frame, (frame :: c.frames).any (·.identity == identity) = true := fun frame => by
    rw [List.any_cons, Bool.or_eq_true]
    exact .inr hc
  cases h with
  | opened | declared => exact hcons _
  | _ => exact hc

end Resolve

namespace Resolver

/-! ## Expansions in a history -/

/-- An expansion of a declaration to an object in the course of a history: a step for a reference to the
declaration binds its type parameters and enters it then, when it is neither being expanded nor
remembered. -/
structure Expansion (types : List TypeDecl) (options : Options) (uses : List Use) where
  depth : Nat
  name : String
  args : List TypeExpr
  start : State
  declaration : TypeDecl
  environment : Table WireType
  entry : Entry
  result : ObjectType
  asked : Asked types options uses (depth + 1) (.reference name args) start
  declared : Scope.declaration? ⟨types, options⟩ (.reference name args) = some declaration
  bound : bindParameters (resolveType ⟨types, options⟩ depth) declaration.parameters args [] start =
    .ok (environment, entry.arguments) ⟨entry.cache, start.context⟩
  identity : entry.identity = instanceIdentity declaration entry.arguments
  outside : start.context.isExpanding entry.identity = false
  unknown : entry.cache.contains entry.identity = false
  expands : ExpandsTo (resolveType ⟨types, options⟩ depth) entry.cache start.context declaration
    entry.arguments environment result.type

section

variable (types : List TypeDecl) (options : Options) (uses : List Use)

/-- Whether an object is what an expansion in the history ended with, and no other object of the instance is
inside it but for what was there when the declaration was entered. -/
def OfExpansion (o : ObjectType) : Prop :=
  ∃ x : Expansion types options uses, o = x.result ∧ x.entry.identity = o.identity ∧ NestsBrought x.entry o

/-- What is kept of a type, and of a type inside an expansion that has been entered. -/
def Orderly (entered : Option Entry) (w : WireType) : Prop :=
  AllObjects (ObjectType.BuiltFrom (OfExpansion types options uses)) w ∧ ∀ e ∈ entered, Clear e w

end

/-- The contexts inside an expansion that has been entered. -/
def Inside (entered : Option Entry) (c : Context) (_ : TypeExpr) : Prop :=
  ∀ e ∈ entered, c.isExpanding e.identity = true

variable {types : List TypeDecl} {options : Options} {uses : List Use} {entered : Option Entry}

theorem Orderly.structural : Structural (Orderly types options uses entered) where
  of_children hw h := by
    exact ⟨(AllObjects.structural _).of_children hw fun u hu => (h u hu).1, fun e he =>
      .of_children hw fun u hu => (h u hu).2 e he⟩
  unionOf h := ⟨.unionOf fun w hw => (h w hw).1, fun e he => .unionOf fun w hw => (h w hw).2 e he⟩

theorem Orderly.object {o : ObjectType} (h : o.BuiltFrom (OfExpansion types options uses))
    (hnot : ∀ e ∈ entered, ¬ o.type.NamedObject e.identity)
    (harguments : ∀ w ∈ o.arguments, Orderly types options uses entered w)
    (hfields : ∀ f ∈ o.fields, Orderly types options uses entered f.type) :
    Orderly types options uses entered o.type :=
  ⟨.object h (fun w hw => (harguments w hw).1) fun f hf => (hfields f hf).1, fun e he =>
    .object (hnot e he) (fun w hw => (harguments w hw).2 e he) fun f hf => (hfields f hf).2 e he⟩

theorem Orderly.field {o : ObjectType} (h : Orderly types options uses entered o.type)
    {f : Field WireType} (hf : f ∈ o.fields) : Orderly types options uses entered f.type :=
  ⟨h.1.field hf, fun e he => (h.2 e he).field hf⟩

/-- What is there when a declaration is entered is orderly inside the expansion. -/
theorem Orderly.brought {w : WireType} (h : Orderly types options uses entered w) {e : Entry}
    (hw : Brought e w) : Orderly types options uses (some e) w := by
  refine ⟨h.1, ?_⟩
  rintro _ ⟨⟩
  exact .brought hw

/-! ## What a step keeps -/

section

variable {depth : Nat} {t : TypeExpr} {S : State}
  (hasked : Asked types options uses (depth + 1) t S)
  (hcalls : ∀ entered, Lawful (Inside entered) (Cache.Holds (Orderly types options uses entered))
    (fun _ => True) (fun _ => Orderly types options uses entered) (ownCalls ⟨types, options⟩ depth t S))
  (hplace : Inside entered S.context t)

include hasked hcalls hplace

/-- A declared object is orderly, for what is resolved inside its expansion is. -/
theorem Orderly.declared {cache : Cache} {c : Context} {d : TypeDecl} {arguments : List WireType}
    {environment : Table WireType} {fields : List (Field WireType)}
    (hexpands : Expands ⟨types, options⟩ (ownCalls ⟨types, options⟩ depth t S)
      (fun s u => s = S ∧ u = t) (Cache.Holds (Orderly types options uses entered))
      (fun _ => Orderly types options uses entered) cache c d arguments environment)
    (hdeclares : d.body.fields?.isSome = true)
    (hfields : ∀ f ∈ fields, Orderly types options uses entered f.type)
    (hto : ExpandsTo (ownCalls ⟨types, options⟩ depth t S) cache c d arguments environment
      (.object (instanceIdentity d arguments) (some d.name) arguments fields)) :
    Orderly types options uses entered
      (.object (instanceIdentity d arguments) (some d.name) arguments fields) := by
  obtain ⟨start, name, args, rfl, ⟨rfl, rfl⟩, hd, hbound⟩ := hexpands.referred
  have hentered : ∀ w ∈ arguments, Orderly types options uses
      (some ⟨instanceIdentity d arguments, arguments, cache⟩) w := fun w hw =>
    (hexpands.lawful w hw).brought (.argument hw)
  have hcache : cache.Holds (Orderly types options uses
      (some ⟨instanceIdentity d arguments, arguments, cache⟩)) := fun key w hw =>
    ⟨(hexpands.cached key w hw).1, (hexpands.cached key w hw).2.brought (.remembered hw)⟩
  -- Inside the expansion its own entry takes the place of the one that is entered around it.
  have hown : ∀ f ∈ fields, Orderly types options uses
      (some ⟨instanceIdentity d arguments, arguments, cache⟩) f.type := by
    refine (hcalls _).fields_of_expandsTo (fun _ => trivial) hcache
      (fun entry hentry => hentered _ (hexpands.bound entry hentry)) (fun c' _ hframes e he => ?_)
      (fun o ho f hf => ho.field hf) hdeclares
      (o := ⟨instanceIdentity d arguments, some d.name, arguments, fields⟩) hto
    obtain rfl := Option.some.inj he
    simp [Context.isExpanding, hframes, frameOf]
  let x : Expansion types options uses :=
    { depth, name, args, start, declaration := d, environment
      entry := ⟨instanceIdentity d arguments, arguments, cache⟩
      result := ⟨instanceIdentity d arguments, some d.name, arguments, fields⟩
      asked := hasked
      declared := hd
      bound := (Sequential.bindParameters _ _ _).of_restricted_eq_ok hbound
      identity := rfl
      outside := hexpands.outside
      unknown := hexpands.unknown
      expands := hto.imp fun _ => .imp fun _ => (Sequential.expand _ _ _).of_restricted_eq_ok }
  have hnot : ∀ e ∈ entered, e.identity ≠ instanceIdentity d arguments := by
    intro e he heq
    have hexpanding := hplace e he
    rw [heq, hexpands.outside] at hexpanding
    cases hexpanding
  refine .object (o := x.result) (.one ⟨x, rfl, rfl, .of_children fun u hu => ?_⟩)
    (fun e he hnamed => hnot e he (ObjectType.namedObject_iff.mp hnamed).1.symm) hexpands.lawful hfields
  rcases ObjectType.mem_children.mp hu with hu | ⟨f, hf, rfl⟩
  · exact (hentered u hu).2 _ rfl
  · exact (hown f hf).2 _ rfl

theorem orderlyLaw : StepLaw ⟨types, options⟩ (ownCalls ⟨types, options⟩ depth t S)
    (fun s u => s = S ∧ u = t) (Inside entered) (Cache.Holds (Orderly types options uses entered))
    (fun _ => True) (fun _ => Orderly types options uses entered) where
  toRules := Orderly.structural.rules
    (by
      rintro _ _ c' u ⟨rfl, rfl⟩ hleads e he
      exact hleads.isExpanding (hplace e he))
    (fun identity fields hfields => .object (o := ⟨identity, none, [], fields⟩)
      (.inline rfl)
      (fun _ _ hnamed => absurd (ObjectType.namedObject_iff.mp hnamed).2.named (by simp)) (by simp) hfields)
  intersection _ _ os _ _ hos :=
    ⟨.meet (.meet fun o ho => (hos o ho).1 o .self) fun o ho => (hos o ho).1,
      fun e he => .meet fun o ho => (hos o ho).2 e he⟩
  interface cache c d arguments environment bases fs os gs hexpands hbody _ hos hgs hto := by
    refine .declared hasked hcalls hplace hexpands (by rw [hbody]; rfl) (fun f hf => ?_) hto
    rcases mem_or_mem_of_mem_mergeFields hf with hf | hf
    · obtain ⟨o, ho, hf⟩ := ObjectType.exists_of_mem_mergeAll hf
      exact (hos o ho).field hf
    · exact hgs.types f hf
  record cache c d arguments environment fs gs hexpands hbody hgs hto :=
    .declared hasked hcalls hplace hexpands (by rw [hbody]; rfl) hgs.types hto

end

/-- Whatever has been resolved before: the objects in an answer are what expansions ended with, inline objects,
and intersections of these. An object of a declaration is what an expansion of the instance ended with, or the
intersection of that alone. On every way from it down to an object of the same instance there is a type that
was there when this expansion began; everywhere else a declaration that is met again below itself is a
reference back. -/
theorem exists_brought_of_nested {depth : Nat} {t : TypeExpr} {origin : String} {w : WireType}
    (hw : (((fresh types options).afterUses uses).resolve depth t (.ofOrigin origin)).1 = .ok w)
    {o : ObjectType} (ho : w.Contains o.type) :
    o.BuiltFrom (OfExpansion types options (uses ++ [.resolve depth t origin])) ∧
      (o.OfDeclaration → ∃ x : Expansion types options (uses ++ [.resolve depth t origin]),
        x.entry.identity = o.identity ∧ (o = x.result ∨ o = .meet [x.result]) ∧
        NestsBrought x.entry o) := by
  have horderly := yields_of_asked (asked_lawful trivial
    (fun _ _ _ hasked hcalls _ hplace => orderlyLaw hasked hcalls hplace) · none)
    Cache.holds_empty (fun _ _ _ he => by cases he) hw
  have hbuilt := horderly.1 o ho
  refine ⟨hbuilt, fun hdeclared => ?_⟩
  obtain ⟨_, ⟨x, rfl, hidentity, hnests⟩, rfl | rfl⟩ := hbuilt.of_ofDeclaration hdeclared
  · exact ⟨x, hidentity, .inl rfl, hnests⟩
  · exact ⟨x, hidentity, .inr rfl, hnests.meet⟩

end Resolver

/-! ## Names of declarations -/

/-- Whether a name is not composed, and there is something in it. -/
def OwnName (name : String) : Prop := name ≠ "" ∧ Unmarked name

instance (name : String) : Decidable (OwnName name) :=
  inferInstanceAs <| Decidable <| name ≠ "" ∧ Unmarked name

/-- What has such a name is no intersection, unless of an object alone, after which it is named. -/
theorem ObjectType.ofDeclaration_of_ownName {o : ObjectType} {name : String} (hname : o.name = some name)
    (h : OwnName name) : o.OfDeclaration := by
  refine ⟨by simp [hname], ?_⟩
  rintro os rfl
  obtain rfl : joinedName os = name := Option.some.inj hname
  match os with
  | [] => exact absurd rfl h.1
  | [o] =>
    have hunmarked : Unmarked o.type.display := h.2
    exact ⟨o, rfl, by simp [name_of_unmarked_display hunmarked]⟩
  | o :: o' :: os =>
    have hmark : '&' ∈ (joinedName (o :: o' :: os)).toList := by
      simp [joinedName, String.intercalate_cons_cons, String.toList_append]
    exact absurd rfl (h.2 _ hmark).2.2

/-- An object with the identity and the name. -/
def WireType.bears (i n : String) : WireType → Bool
  | .object j (some m) _ _ => j == i && m == n
  | _ => false

theorem WireType.exists_of_bears {i n : String} {t : WireType} (h : t.bears i n = true) :
    ∃ o : ObjectType, t = o.type ∧ o.identity = i ∧ o.name = some n := by
  unfold bears at h
  split at h
  · rename_i j m arguments fields
    obtain ⟨hidentity, hname⟩ := Bool.and_eq_true_iff.mp h
    exact ⟨⟨j, some m, arguments, fields⟩, rfl, beq_iff_eq.mp hidentity,
      congrArg some (beq_iff_eq.mp hname)⟩
  · cases h

namespace Resolver

/-- Two interfaces that refer to each other. -/
def partners : List TypeDecl :=
  [⟨"A", "m.ts#A", [], .interface [] [⟨"b", .reference "B" [], false, none, none, nowhere⟩], nowhere⟩,
    ⟨"B", "m.ts#B", [], .interface [] [⟨"a", .reference "A" [], false, none, none, nowhere⟩], nowhere⟩]

/-- A resolver that remembers the first of the two. -/
def acquainted : Resolver :=
  (fresh partners .default).afterUses [.resolve 4 (.reference "A" []) "m"]

/-- The second one is resolved around the first one, in which it stands already. -/
theorem exists_brought_of_nested_partners : ∃ (w : WireType) (o : ObjectType) (way : List WireType),
    (acquainted.resolve 4 (.reference "B" []) (.ofOrigin "m")).1 = .ok w ∧ w.Contains o.type ∧
    o.OfDeclaration ∧ (o.type :: way).IsChain (fun t u => u ∈ t.children) ∧
    (∃ v ∈ way, v.NamedObject "m.ts#B") ∧
    ∃ x : Expansion partners .default
        [.resolve 4 (.reference "A" []) "m", .resolve 4 (.reference "B" []) "m"],
      x.entry.identity = "m.ts#B" ∧ (o = x.result ∨ o = .meet [x.result]) ∧
        ∃ q ∈ way, Brought x.entry q := by
  have hresolved : ∃ (o : ObjectType) (u v : WireType),
      (acquainted.resolve 4 (.reference "B" []) (.ofOrigin "m")).1 = .ok o.type ∧
      o.identity = "m.ts#B" ∧ o.name = some "B" ∧ u ∈ o.type.children ∧ v ∈ u.children ∧
      v.bears "m.ts#B" "B" = true :=
    ⟨⟨_, _, _, _⟩, _, _, rfl, rfl, rfl, .head _, .head _, by decide⟩
  obtain ⟨o, u, v, hw, hidentity, hname, hu, hv, hbears⟩ := hresolved
  obtain ⟨p, rfl, hsame, hp⟩ := WireType.exists_of_bears hbears
  have hdeclared : o.OfDeclaration := ObjectType.ofDeclaration_of_ownName hname (by decide)
  have hway : (o.type :: [u, p.type]).IsChain (fun t u => u ∈ t.children) :=
    .cons_cons hu (.cons_cons hv (.singleton p.type))
  have hagain : ∃ v ∈ [u, p.type], v.NamedObject "m.ts#B" :=
    ⟨_, .tail _ (.head _), p, rfl, hsame, ObjectType.ofDeclaration_of_ownName hp (by decide)⟩
  obtain ⟨-, hexpanded⟩ := exists_brought_of_nested hw .self (o := o)
  obtain ⟨x, hx, hresult, hnests⟩ := hexpanded hdeclared
  have hentry : x.entry.identity = "m.ts#B" := hx.trans hidentity
  exact ⟨o.type, o, [u, p.type], hw, .self, hdeclared, hway, hagain, x, hentry, hresult,
    hnests _ hway (hentry ▸ hagain)⟩

/-! ## The ways to be nested -/

/-- Whether there is an answer in which an object with the first name stands around one with the second, both
with the identity. -/
def Nests (i outer inner : String) (result : Except Failure WireType) : Prop :=
  ∃ w o p, result = .ok w ∧ w.Contains (ObjectType.type o) ∧ o.identity = i ∧ o.name = some outer ∧
    (∃ u ∈ o.type.children, u.Contains (ObjectType.type p)) ∧ p.identity = i ∧ p.name = some inner

/-- This is found among the parts of the answer. -/
theorem nests_of_parts {i outer inner : String} {result : Except Failure WireType}
    (h : (result.toOption.any fun w => w.parts.any fun o => o.bears i outer &&
      o.children.any fun u => u.parts.any (·.bears i inner)) = true) : Nests i outer inner result := by
  cases result with
  | error e => cases h
  | ok w =>
    obtain ⟨o, ho, h⟩ := List.any_eq_true.mp h
    obtain ⟨houter, h⟩ := Bool.and_eq_true_iff.mp h
    obtain ⟨u, hu, h⟩ := List.any_eq_true.mp h
    obtain ⟨p, hp, hinner⟩ := List.any_eq_true.mp h
    obtain ⟨o, rfl, ho'⟩ := WireType.exists_of_bears houter
    obtain ⟨p, rfl, hp'⟩ := WireType.exists_of_bears hinner
    exact ⟨w, o, p, rfl, (WireType.mem_parts _ _).mp ho, ho'.1, ho'.2,
      ⟨u, hu, (WireType.mem_parts _ _).mp hp⟩, hp'⟩

/-- A box for a type argument, and a leaf that refers to its own box and to what contains that. -/
def boxing (box : TypeBody) (argument : TypeExpr) : List TypeDecl :=
  let own : FieldDecl TypeExpr := ⟨"box", .reference "Box" [argument], false, none, none, nowhere⟩
  [⟨"Box", "m.ts#Box", [⟨"T", none⟩], box, nowhere⟩,
    ⟨"Leaf", "m.ts#Leaf", [],
      .interface [] [own, ⟨"top", .reference "Top" [], false, none, none, nowhere⟩], nowhere⟩,
    ⟨"Top", "m.ts#Top", [], .interface [] [own], nowhere⟩,
    ⟨"Empty", "m.ts#Empty", [], .interface [] [], nowhere⟩]

/-- An inline object with the leaf. -/
def leafRecord : TypeExpr :=
  .object [⟨"leaf", .reference "Leaf" [], false, none, none, nowhere⟩]

def boxOfBase : TypeBody := .interface [.parameter "T"] []

def boxOfMember : TypeBody :=
  .interface []
    [⟨"value", .intersection [.parameter "T", .reference "Empty" []], false, none, none, nowhere⟩]

/-- An interface that takes a field from the type argument of its base, and two more, of which one is called
what the intersection of the others is called. -/
def joint (b d : List (FieldDecl TypeExpr)) : List TypeDecl :=
  [⟨"A", "m.ts#A", [], .interface [.reference "Base"
      [.intersection [.object [], .reference "B" []]]] [], nowhere⟩,
    ⟨"B", "m.ts#B", [], .interface [] b, nowhere⟩,
    ⟨"D", "m.ts#A & m.ts#B", [], .interface [] d, nowhere⟩,
    ⟨"Base", "m.ts#Base", [⟨"T", none⟩],
      .interface [] [⟨"value", .parameter "T", false, none, none, nowhere⟩], nowhere⟩]

/-- The first two of these. -/
def joined : TypeExpr := .intersection [.reference "A" [], .reference "B" []]

/-- An object stands inside one of its identity: with a remembered type between them, in a type argument,
in a field of a type argument that became a base type, and in one of a type argument that became a member
of an intersection. Intersections of different members may have one identity, and that of a declaration. -/
theorem nested_objects :
    Nests "m.ts#B" "B" "B" (acquainted.resolve 4 (.reference "B" []) (.ofOrigin "m")).1 ∧
    Nests "m.ts#Box<m.ts#Leaf>" "Box" "Box"
      ((fresh (boxing (.interface [] []) (.reference "Leaf" [])) .default).resolve 8
        (.reference "Top" []) (.ofOrigin "m")).1 ∧
    Nests "m.ts#Box<\x7b leaf: m.ts#Leaf \x7d>" "Box" "Box"
      ((fresh (boxing boxOfBase leafRecord) .default).resolve 8 (.reference "Top" [])
        (.ofOrigin "m")).1 ∧
    Nests "m.ts#Box<\x7b leaf: m.ts#Leaf \x7d>" "Box" "Box"
      ((fresh (boxing boxOfMember leafRecord) .default).resolve 8 (.reference "Top" [])
        (.ofOrigin "m")).1 ∧
    Nests "m.ts#A & m.ts#B" "A & B" "\x7b  \x7d & B"
      ((fresh (joint [] []) .default).resolve 8 joined (.ofOrigin "m")).1 ∧
    Nests "m.ts#A & m.ts#B" "A & B" "D"
      ((fresh (joint [⟨"d", .reference "D" [], false, none, none, nowhere⟩] []) .default).resolve 8 joined
        (.ofOrigin "m")).1 ∧
    Nests "m.ts#A & m.ts#B" "D" "A & B"
      ((fresh (joint [] [⟨"both", joined, false, none, none, nowhere⟩]) .default).resolve 8
        (.reference "D" []) (.ofOrigin "m")).1 := by
  refine ⟨?_, ?_, ?_, ?_, ?_, ?_, ?_⟩ <;> exact nests_of_parts (by decide +kernel)

end Resolver

end AnnotatedApi
