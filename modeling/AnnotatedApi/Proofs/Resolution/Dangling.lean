import AnnotatedApi.Proofs.Resolution.History
import AnnotatedApi.Proofs.WireType.OpenReferences

/-!
# Where references dangle

A reference points back to an object around it. But objects are taken apart: an interface inherits the
fields of its base types, an intersection those of its members, and a field that has been moved may
point back to the object that it was taken from. These references dangle, and they are the only ones:
`isClosed_iff_not_dangles`. Such a type is not remembered, but it is handed out.
-/

namespace AnnotatedApi

set_option autoImplicit false

open Resolve

namespace WireType

variable {moved : WireType → String → Prop} {b : String}

/-- The type points back to `b` outside itself, and not from inside a field that has been moved;
`moved t name` says which fields of an object `t` these are. -/
inductive Reaches (moved : WireType → String → Prop) (b : String) : WireType → Prop where
  | back : Reaches moved b (.back b)
  | array {e : WireType} : Reaches moved b e → Reaches moved b (.array e)
  | promise {t : WireType} : Reaches moved b t → Reaches moved b (.promise t)
  | union {members : List WireType} {t : WireType} :
    t ∈ members → Reaches moved b t → Reaches moved b (.union members)
  | generic {name : String} {args : List WireType} {t : WireType} :
    t ∈ args → Reaches moved b t → Reaches moved b (.generic name args)
  | argument {i : String} {name : Option String} {args : List WireType}
    {fields : List (Field WireType)} {t : WireType} :
    b ≠ i → t ∈ args → Reaches moved b t → Reaches moved b (.object i name args fields)
  | field {i : String} {name : Option String} {args : List WireType}
    {fields : List (Field WireType)} {f : Field WireType} :
    b ≠ i → f ∈ fields → ¬ moved (.object i name args fields) f.name → Reaches moved b f.type →
      Reaches moved b (.object i name args fields)

/-- Somewhere in the type an object has a field that has been moved and is open towards `b`, and no
object around it has that identity, itself included. -/
inductive Dangles (moved : WireType → String → Prop) (b : String) : WireType → Prop where
  | array {e : WireType} : Dangles moved b e → Dangles moved b (.array e)
  | promise {t : WireType} : Dangles moved b t → Dangles moved b (.promise t)
  | union {members : List WireType} {t : WireType} :
    t ∈ members → Dangles moved b t → Dangles moved b (.union members)
  | generic {name : String} {args : List WireType} {t : WireType} :
    t ∈ args → Dangles moved b t → Dangles moved b (.generic name args)
  | argument {i : String} {name : Option String} {args : List WireType}
    {fields : List (Field WireType)} {t : WireType} :
    b ≠ i → t ∈ args → Dangles moved b t → Dangles moved b (.object i name args fields)
  | field {i : String} {name : Option String} {args : List WireType}
    {fields : List (Field WireType)} {f : Field WireType} :
    b ≠ i → f ∈ fields → Dangles moved b f.type → Dangles moved b (.object i name args fields)
  | moved {i : String} {name : Option String} {args : List WireType}
    {fields : List (Field WireType)} {f : Field WireType} :
    b ≠ i → f ∈ fields → moved (.object i name args fields) f.name → b ∈ f.type.openReferences →
      Dangles moved b (.object i name args fields)

theorem Reaches.mem_openReferences {t : WireType} (h : Reaches moved b t) : b ∈ t.openReferences := by
  induction h with
  | back => simp [openReferences]
  | array _ ih => exact ih
  | promise _ ih => exact ih
  | union ht _ ih => exact mem_openOfList.mpr ⟨_, ht, ih⟩
  | generic ht _ ih => exact mem_openOfList.mpr ⟨_, ht, ih⟩
  | argument hne ht _ ih => exact mem_openReferences_object.mpr ⟨hne, .inl ⟨_, ht, ih⟩⟩
  | field hne hf _ _ ih => exact mem_openReferences_object.mpr ⟨hne, .inr ⟨_, hf, ih⟩⟩

theorem Dangles.mem_openReferences {t : WireType} (h : Dangles moved b t) : b ∈ t.openReferences := by
  induction h with
  | array _ ih => exact ih
  | promise _ ih => exact ih
  | union ht _ ih => exact mem_openOfList.mpr ⟨_, ht, ih⟩
  | generic ht _ ih => exact mem_openOfList.mpr ⟨_, ht, ih⟩
  | argument hne ht _ ih => exact mem_openReferences_object.mpr ⟨hne, .inl ⟨_, ht, ih⟩⟩
  | field hne hf _ ih => exact mem_openReferences_object.mpr ⟨hne, .inr ⟨_, hf, ih⟩⟩
  | moved hne hf _ hb => exact mem_openReferences_object.mpr ⟨hne, .inr ⟨_, hf, hb⟩⟩

theorem reaches_or_dangles (t : WireType) :
    b ∈ t.openReferences → Reaches moved b t ∨ Dangles moved b t := by
  induction t using induction_children with
  | step t ih =>
    intro hb
    cases t with
    | back i =>
      obtain rfl : b = i := by simpa [openReferences] using hb
      exact .inl .back
    | array e => exact (ih e (List.mem_singleton.mpr rfl) hb).imp .array .array
    | promise t => exact (ih t (List.mem_singleton.mpr rfl) hb).imp .promise .promise
    | union members =>
      obtain ⟨t, ht, hb⟩ := mem_openOfList.mp hb
      exact (ih t ht hb).imp (.union ht) (.union ht)
    | generic name args =>
      obtain ⟨t, ht, hb⟩ := mem_openOfList.mp hb
      exact (ih t ht hb).imp (.generic ht) (.generic ht)
    | object i name args fields =>
      obtain ⟨hne, ⟨t, ht, hb⟩ | ⟨f, hf, hb⟩⟩ := mem_openReferences_object.mp hb
      · exact (ih t (List.mem_append_left _ ht) hb).imp (.argument hne ht) (.argument hne ht)
      · by_cases hm : moved (.object i name args fields) f.name
        · exact .inr (.moved hne hf hm hb)
        · have hmem : f.type ∈ (object i name args fields).children :=
            List.mem_append_right _ (List.mem_map_of_mem hf)
          exact (ih f.type hmem hb).imp (.field hne hf hm) (.field hne hf)
    | _ => simp [openReferences] at hb

end WireType

namespace Resolve

/-- Whether a field of an object comes from another object: the object has the identity of an
interface that inherits the field, or is an intersection of several objects. -/
inductive Moved (types : List TypeDecl) : WireType → String → Prop where
  | inherited {d : TypeDecl} {arguments args : List WireType} {name : Option String}
    {fields : List (Field WireType)} {field : String} :
    d ∈ types → Inherited d field →
      Moved types (.object (instanceIdentity d arguments) name args fields) field
  | intersected {i j : String} {rest : List String} {name : String}
    {fields : List (Field WireType)} {field : String} :
    Moved types (.object (String.intercalate " & " (i :: j :: rest)) (some name) [] fields) field

/-- What has been moved in an object has been moved in the intersection of that object alone. -/
theorem Moved.alone {types : List TypeDecl} {i n field : String} {name : Option String}
    {args : List WireType} {fields merged : List (Field WireType)}
    (h : Moved types (.object i name args fields) field) :
    Moved types (.object i (some n) [] merged) field := by
  cases h with
  | inherited hd hinherited => exact .inherited hd hinherited
  | intersected => exact .intersected

/-- Outside fields that have been moved, the type points back to enclosing declarations only. -/
def Anchored (types : List TypeDecl) (frames : List Frame) (t : WireType) : Prop :=
  ∀ b, t.Reaches (Moved types) b → ∃ frame ∈ frames, frame.identity = b

theorem anchored_of_closed {types : List TypeDecl} {t : WireType} (h : t.isClosed = true)
    (frames : List Frame) : Anchored types frames t := by
  intro b hb
  have hmem := hb.mem_openReferences
  rw [List.isEmpty_iff.mp h] at hmem
  cases hmem

theorem anchored_union {types : List TypeDecl} {frames : List Frame} {members : List WireType}
    (h : ∀ t ∈ members, Anchored types frames t) : Anchored types frames (.unionOf members) := by
  have hmember : ∀ t ∈ WireType.unionMembers members, Anchored types frames t := by
    intro t ht b hb
    rcases WireType.mem_unionMembers ht with ⟨u, hu, ht⟩ | rfl
    · cases u with
      | union ms => exact h _ hu b (.union ht hb)
      | _ =>
        obtain rfl := List.mem_singleton.mp ht
        exact h _ hu b hb
    · cases hb
  rcases WireType.unionOf_eq members with heq | hmem
  · intro b hb
    rw [heq] at hb
    cases hb with
    | union ht hb => exact hmember _ ht b hb
  · exact hmember _ hmem

theorem anchored_builtin {types : List TypeDecl} {frames : List Frame} {name : String} {f : Builtin}
    {arguments : List WireType} (h : ∀ t ∈ arguments, Anchored types frames t) :
    Anchored types frames (f.apply name arguments) := by
  intro b hb
  unfold Builtin.apply at hb
  split at hb
  · cases hb
  · cases hb with
    | promise hb => exact h _ (List.mem_cons_self ..) b hb
  · cases hb with
    | array hb => exact h _ (List.mem_cons_self ..) b hb
  · cases hb with
    | generic ht hb => exact h _ ht b hb

/-- An intersection of several objects has only fields that have been moved; one of a single object
keeps the identity of that. -/
theorem anchored_intersection {types : List TypeDecl} {frames : List Frame}
    {identities : List String} {name : String} {fields : List (Field WireType)}
    (h : ∀ f ∈ fields, ∃ i ∈ identities, TakenFrom (Anchored types frames) i f) :
    Anchored types frames (.object (String.intercalate " & " identities) (some name) [] fields) := by
  intro b hb
  cases hb with
  | argument _ ht _ => cases ht
  | @field _ _ _ _ f hne hf hkept hb =>
    obtain ⟨i, hi, n, as, fs, hobject, hfs⟩ := h f hf
    -- A single identity is kept, so the object still catches what its fields point back to.
    match identities, hi with
    | [_], .head _ => exact hobject b (.field hne hfs (fun hmoved => hkept hmoved.alone) hb)
    | j :: k :: rest, _ => exact absurd .intersected hkept

theorem anchored_of_enter {types : List TypeDecl} {frames : List Frame} {frame : Frame}
    {t : WireType} {b : String} (h : Anchored types (frame :: frames) t) (hne : b ≠ frame.identity)
    (hb : t.Reaches (Moved types) b) : ∃ frame ∈ frames, frame.identity = b := by
  obtain ⟨frame', hmem, hid⟩ := h b hb
  rcases List.mem_cons.mp hmem with rfl | hmem
  · exact absurd hid.symm hne
  · exact ⟨frame', hmem, hid⟩

theorem anchoredLaw (scope : Scope) :
    Law scope (Cache.Holds fun _ => True) Failure.Ordinary (Anchored scope.types) where
  unsupported := by simp [Failure.Ordinary]
  exhausted := by simp [Failure.Ordinary]
  primitive _ _ _ hb := by cases hb
  literal _ _ _ hb := by cases hb
  unexpanded _ _ _ hb := by cases hb
  unbound _ _ _ hb := by
    cases hb with
    | generic ht _ => cases ht
  array _ _ ht b hb := by
    cases hb with
    | array hb => exact ht b hb
  builtin _ _ _ _ _ _ hargs := anchored_builtin hargs
  union _ _ h := anchored_union h
  back c identity hexp b hb := by
    cases hb
    obtain ⟨frame, hmem, hid⟩ := List.any_eq_true.mp hexp
    exact ⟨frame, hmem, by simpa using hid⟩
  inline c fields h b hb := by
    cases hb with
    | argument _ ht _ => cases ht
    | field _ hf _ hb => exact h _ hf b hb
  intersection _ _ _ _ h := anchored_intersection h
  enter frames d arguments _ _ h t ht b hb := by
    obtain ⟨frame, hmem, hid⟩ := h t ht b hb
    exact ⟨frame, List.mem_cons_of_mem _ hmem, hid⟩
  declared frames d arguments fields hd hargs hfields b hb := by
    cases hb with
    | argument _ ht hb => exact hargs _ ht b hb
    | @field _ _ _ _ f hne hf hkept hb =>
      -- Only a declared field can have been resolved inside the expansion of `d`.
      rcases hfields f hf with hown | ⟨hinherited, _⟩
      · exact anchored_of_enter hown hne hb
      · exact absurd (.inherited hd hinherited) hkept
  leave frames d arguments t _ ht hopen b hb := by
    -- An open reference to the synonym itself would have been reported.
    refine anchored_of_enter ht (fun heq => hopen ?_) hb
    rw [← show b = instanceIdentity d arguments from heq]
    exact hb.mem_openReferences
  found c d arguments _ _ _ := (steady_remembered? c _).weaken fun _ h t ht =>
    anchored_of_closed (h t ht).1.closed _
  store c _ _ _ _ _ _ hs _ := steady_remember c hs trivial

end Resolve

namespace Resolver

variable {types : List TypeDecl} {options : Options} {r : Resolver}

theorem Reachable.mem_openReferences_iff (h : Reachable types options r) {depth : Nat} {t : TypeExpr}
    {origin : String} {w : WireType} (hw : (r.resolve depth t (.ofOrigin origin)).1 = .ok w)
    (b : String) : b ∈ w.openReferences ↔ w.Dangles (Moved types) b := by
  obtain ⟨hscope, hcache⟩ := h.invariant (cacheLaw _) Cache.holds_empty
  have law : Law r.scope (Cache.Holds fun _ => True) Failure.Ordinary (Anchored types) := by
    rw [hscope]
    exact anchoredLaw _
  obtain ⟨result, cache, hresolve, _, hresult⟩ :=
    resolve_lawful law hcache depth t (.ofOrigin origin) (binds_ofOrigin origin)
  rw [hresolve] at hw
  subst hw
  refine ⟨fun hb => ?_, WireType.Dangles.mem_openReferences⟩
  refine (WireType.reaches_or_dangles w hb).resolve_left fun hreaches => ?_
  obtain ⟨_, hframe, _⟩ := hresult b hreaches
  cases hframe

/-- A type that is resolved for a site is closed just if no field that has been moved from one object
to another dangles in it. -/
theorem Reachable.isClosed_iff_not_dangles (h : Reachable types options r) {depth : Nat}
    {t : TypeExpr} {origin : String} {w : WireType}
    (hw : (r.resolve depth t (.ofOrigin origin)).1 = .ok w) :
    w.isClosed = true ↔ ∀ b, ¬ w.Dangles (Moved types) b := by
  rw [WireType.isClosed, List.isEmpty_iff, List.eq_nil_iff_forall_not_mem]
  exact forall_congr' fun b => not_congr (h.mem_openReferences_iff hw b)

/-- An interface that refers to itself, and one that inherits that field. -/
def inherited : List TypeDecl :=
  let span : Span := ⟨"m.ts", .zero, .zero⟩
  [⟨"Base", "m.ts#Base", [],
      .interface [] [⟨"self", .reference "Base" [], false, none, none, span⟩], span⟩,
    ⟨"Derived", "m.ts#Derived", [], .interface [.reference "Base" []] [], span⟩]

theorem dangling_inherited : ∃ w,
    ((fresh inherited .default).resolve 3 (.reference "Derived" []) (.ofOrigin "probe")).1 = .ok w ∧
      w.openReferences = ["m.ts#Base"] :=
  ⟨_, rfl, by decide⟩

theorem isClosed_iff_not_dangles_inherited : ∃ w,
    ((fresh inherited .default).resolve 3 (.reference "Base" []) (.ofOrigin "probe")).1 = .ok w ∧
      w.isClosed = true ∧ (w.isClosed = true ↔ ∀ b, ¬ w.Dangles (Moved inherited) b) := by
  have hbase : ∃ w, ((fresh inherited .default).resolve 3 (.reference "Base" [])
      (.ofOrigin "probe")).1 = .ok w ∧ w.isClosed = true := ⟨_, rfl, by decide⟩
  obtain ⟨w, hw, hclosed⟩ := hbase
  exact ⟨w, hw, hclosed, Reachable.isClosed_iff_not_dangles .fresh hw⟩

end Resolver

end AnnotatedApi
