import AnnotatedApi.Proofs.Resolution.History
import AnnotatedApi.Proofs.Resolution.Lending
import AnnotatedApi.Proofs.Resolution.Meaning
import AnnotatedApi.Proofs.WireType.BackReferences

/-!
# What a reference back refers to

A reference back names an instance of a declaration by its identity. Unless the declaration lends its
identity to an inline object, every object with this identity is an instance of the declaration, and
the declaration stands for an object: a synonym that leads back to itself is rejected. Otherwise an
inline object may catch the reference, and the synonym passes for one that does not lead back.
-/

namespace AnnotatedApi

set_option autoImplicit false

open Resolve Text

/-! ## Brackets in keys -/

theorem Literal.balanced_display (value : Literal) : Balanced value.display := by
  cases value with
  | boolean b => cases b <;> exact .of_unfenced (by decide)
  | string s => exact .quoted s
  | number x =>
    refine .of_unfenced ?_
    cases hx : x.isFinite with
    | true =>
      obtain ⟨c, rest, htext, hc, hrest⟩ := Literal.exists_numeral hx
      have hall : ∀ c ∈ '.' :: numeralHeads, c ∉ fences := by decide
      rw [Unfenced, htext]
      exact List.forall_mem_cons.mpr ⟨hall c (List.mem_cons_of_mem _ hc), fun e he => hall e (hrest e he)⟩
    | false =>
      have htext : (Literal.number x).display = if x.isNaN then "NaN" else x.sign ++ "inf" := by
        simp [Literal.display, Binary64.toInt?, Binary64.plainText, hx]
      rw [htext, Binary64.sign]
      split
      · decide
      · cases x.negative <;> decide

namespace WireType

theorem balanced_withArguments {name : String} (hname : Unfenced name) {texts : List String}
    (h : ∀ t ∈ texts, Balanced t) : Balanced (withArguments name texts) := by
  unfold withArguments
  split
  · exact .of_unfenced hname
  · exact ⟨_, .apply hname (.intercalate (.of_unfenced (by decide)) h)⟩

theorem balanced_inlineObject {fields : List (Field WireType)} (hnames : ∀ f ∈ fields, Unfenced f.name)
    (h : ∀ f ∈ fields, Balanced f.type.key) : Balanced (inlineObject (keyFields fields)) := by
  have hfields : ∀ text ∈ keyFields fields, Balanced text := by
    induction fields with
    | nil => simp [keyFields]
    | cons f fields ih =>
      obtain ⟨name, t, required, description⟩ := f
      obtain ⟨hname, hnames⟩ := List.forall_mem_cons.mp hnames
      obtain ⟨hf, hfields⟩ := List.forall_mem_cons.mp h
      refine List.forall_mem_cons.mpr ⟨?_, ih hnames hfields⟩
      refine Balanced.append (.append (.append (.of_unfenced hname) (.of_unfenced ?_))
        (.of_unfenced (by decide))) hf
      cases required <;> decide
  exact .append (.append (.of_unfenced (by decide)) (.intercalate (.of_unfenced (by decide)) hfields))
    (.of_unfenced (by decide))

end WireType

/-! ## Faithful types -/

namespace Resolve

variable (scope : Scope)

/-- A reference back names a declaration that stands for an object, lends its identity, or is being
expanded; and an object with the identity of a declaration is an instance of it or has it lent. -/
def FaithfulHere (frames : List Frame) : WireType → Prop
  | .back b => ∃ d ∈ scope.types, Bracketed d.qualifiedName.toList b.toList ∧
      (∃ arguments, b = instanceIdentity d arguments) ∧
      (d.Lends scope ∨ d.body.fields?.isSome = true ∨ ∃ frame ∈ frames, frame.identity = b)
  | .object i name arguments fields => ∃ outside, Bracketed outside i.toList ∧
      ∀ d ∈ scope.types, outside = d.qualifiedName.toList →
        d.Lends scope ∨ d.body.fields?.isSome = true ∧ ObjectType.IsInstance ⟨i, name, arguments, fields⟩ d
  | _ => True

def Faithful (frames : List Frame) (t : WireType) : Prop :=
  ∀ u, t.Contains u → Balanced u.key ∧ FaithfulHere scope frames u

variable {scope} {frames frames' : List Frame} {t : WireType}

namespace Faithful

theorem balanced (h : Faithful scope frames t) : Balanced t.key := (h t .self).1

theorem here (h : Faithful scope frames t) : FaithfulHere scope frames t := (h t .self).2

theorem child (h : Faithful scope frames t) {u : WireType} (hu : u ∈ t.children) :
    Faithful scope frames u :=
  fun v hv => h v (.child hu hv)

theorem of_children (hkey : Balanced t.key) (hhere : FaithfulHere scope frames t)
    (h : ∀ u ∈ t.children, Faithful scope frames u) : Faithful scope frames t := by
  intro u hu
  cases hu with
  | self => exact ⟨hkey, hhere⟩
  | child hmem hv => exact h _ hmem _ hv

theorem field {i : String} {name : Option String} {arguments : List WireType}
    {fields : List (Field WireType)} (h : Faithful scope frames (.object i name arguments fields))
    {f : Field WireType} (hf : f ∈ fields) : Faithful scope frames f.type :=
  h.child (List.mem_append_right _ (List.mem_map_of_mem hf))

/-- A reference to a declaration that neither stands for an object nor lends its identity is caught by
no object. -/
theorem mem_openReferences (h : Faithful scope frames t) {d : TypeDecl} (hd : d ∈ scope.types)
    (hlends : ¬ d.Lends scope) (hfields : ¬ d.body.fields?.isSome = true) {b : String}
    (hb : Bracketed d.qualifiedName.toList b.toList) (hback : t.PointsBack b) :
    b ∈ t.openReferences := by
  induction hback with
  | here => simp [WireType.openReferences]
  | @child t u hu _ ih =>
    have hopen := ih (h.child hu)
    refine WireType.mem_openReferences_iff_child.mpr (.inr ⟨fun hidentity => ?_, u, hu, hopen⟩)
    cases t with
    | object i name arguments fields =>
      obtain rfl := Option.some.inj hidentity
      obtain ⟨outside, houtside, hinstance⟩ := h.here
      exact (hinstance d hd (houtside.outside_unique hb)).elim hlends fun h => hfields h.1
    | _ => cases hidentity

/-- Expansions towards which the type is not open do not count. -/
theorem restrict (h : Faithful scope frames t) (hkeep : ∀ frame ∈ frames,
    frame.identity ∈ t.openReferences → ∃ frame' ∈ frames', frame'.identity = frame.identity) :
    Faithful scope frames' t := by
  intro u hu
  refine ⟨(h u hu).1, ?_⟩
  have hhere := (h u hu).2
  cases u with
  | back b =>
    obtain ⟨d, hd, hb, hinstance, hcases⟩ := hhere
    refine ⟨d, hd, hb, hinstance, ?_⟩
    by_cases hlends : d.Lends scope
    · exact .inl hlends
    by_cases hfields : d.body.fields?.isSome = true
    · exact .inr (.inl hfields)
    · obtain ⟨frame, hframe, rfl⟩ := (hcases.resolve_left hlends).resolve_left hfields
      exact .inr (.inr (hkeep frame hframe (h.mem_openReferences hd hlends hfields hb hu.pointsBack)))
  | _ => exact hhere

theorem mono (h : Faithful scope frames t) (hsub : frames ⊆ frames') : Faithful scope frames' t :=
  h.restrict fun frame hframe _ => ⟨frame, hsub hframe, rfl⟩

/-- The expansion of a declaration that stands for an object need not be known. -/
theorem of_enter (hs : scope.Neat) {d : TypeDecl} (hd : d ∈ scope.types)
    (hfields : d.body.fields?.isSome = true) {arguments : List WireType}
    (ha : ∀ a ∈ arguments, Balanced a.key) (h : Faithful scope (frameOf d arguments :: frames) t) :
    Faithful scope frames t := by
  intro u hu
  refine ⟨(h u hu).1, ?_⟩
  have hhere := (h u hu).2
  cases u with
  | back b =>
    obtain ⟨e, he, hb, hinstance, hcases⟩ := hhere
    refine ⟨e, he, hb, hinstance, ?_⟩
    rcases hcases with hlends | he' | ⟨frame, hframe, rfl⟩
    · exact .inl hlends
    · exact .inr (.inl he')
    · rcases List.mem_cons.mp hframe with rfl | hframe
      · have hname := hb.outside_unique (bracketed_instanceIdentity (hs.unfenced d hd) ha)
        obtain rfl := hs.distinct e he d hd (String.toList_inj.mp hname)
        exact .inr (.inl hfields)
      · exact .inr (.inr ⟨frame, hframe, rfl⟩)
  | _ => exact hhere

end Faithful

/-! ## How types are put together -/

theorem balanced_keyList {ws : List WireType} (h : ∀ w ∈ ws, Faithful scope frames w) :
    ∀ text ∈ WireType.keyList ws, Balanced text := by
  intro text htext
  rw [WireType.keyList_eq_map] at htext
  obtain ⟨w, hw, rfl⟩ := List.mem_map.mp htext
  exact (h w hw).balanced

theorem faithful_primitive (p : Primitive) : Faithful scope frames (.primitive p) :=
  .of_children (.of_unfenced (by cases p <;> decide)) trivial (by simp [WireType.children])

theorem faithful_promise (h : Faithful scope frames t) : Faithful scope frames (.promise t) := by
  have hkey : (WireType.promise t).key = "Promise" ++ "<" ++ t.key ++ ">" := by
    rw [WireType.key, (by decide : "Promise<" = "Promise" ++ "<")]
  have hname : Unfenced "Promise" := by decide
  refine .of_children ?_ trivial (List.forall_mem_singleton.mpr h)
  rw [hkey]
  exact ⟨_, .apply hname h.balanced⟩

theorem faithful_array (h : Faithful scope frames t) : Faithful scope frames (.array t) :=
  .of_children (h.balanced.append (.of_unfenced (by decide))) trivial
    (List.forall_mem_singleton.mpr h)

theorem faithful_generic {name : String} (hname : Unfenced name) {arguments : List WireType}
    (h : ∀ a ∈ arguments, Faithful scope frames a) : Faithful scope frames (.generic name arguments) :=
  .of_children (WireType.balanced_withArguments hname (balanced_keyList h)) trivial h

theorem faithful_builtin {name : String} {b : Builtin} (hb : builtin? name = some b)
    {arguments : List WireType} (harity : arguments.length = b.arity)
    (h : ∀ a ∈ arguments, Faithful scope frames a) :
    Faithful scope frames (b.apply name arguments) := by
  cases b with
  | scalar p => exact faithful_primitive p
  | promise =>
    obtain ⟨a, rfl⟩ := List.length_eq_one_iff.mp harity
    exact faithful_promise (h a (List.mem_singleton.mpr rfl))
  | list =>
    obtain ⟨a, rfl⟩ := List.length_eq_one_iff.mp harity
    exact faithful_array (h a (List.mem_singleton.mpr rfl))
  | dictionary =>
    have hname : Unfenced name := by
      rcases TypeTerm.dictionary_name hb with rfl | rfl <;> decide
    exact faithful_generic hname h

theorem faithful_union {types : List WireType} (h : ∀ t ∈ types, Faithful scope frames t) :
    Faithful scope frames (.unionOf types) := by
  have hmember : ∀ t ∈ WireType.unionMembers types, Faithful scope frames t := by
    intro t ht
    rcases WireType.mem_unionMembers ht with ⟨u, hu, ht⟩ | rfl
    · cases u with
      | union ms => exact (h _ hu).child ht
      | _ =>
        obtain rfl := List.mem_singleton.mp ht
        exact h _ hu
    · exact .of_children (.of_unfenced (by decide)) trivial (by simp [WireType.children])
  rcases WireType.unionOf_eq types with heq | hmem
  · rw [heq]
    refine .of_children ?_ trivial hmember
    exact .append (.append (.of_unfenced (by decide))
      (.intercalate (.of_unfenced (by decide)) (balanced_keyList hmember))) (.of_unfenced (by decide))
  · exact hmember _ hmem

theorem faithful_inline (hs : scope.Neat) {c : Context} {fs : List (FieldDecl TypeExpr)}
    (hplace : Place scope c (.object fs)) {fields : List (Field WireType)}
    (hnames : fields.map (·.name) = fs.map (·.name))
    (h : ∀ f ∈ fields, Faithful scope frames f.type) :
    Faithful scope frames (.object c.inlineIdentity none [] fields) := by
  obtain ⟨outside, houtside, hlends⟩ := hplace.lends_of_inlineIdentity hs
  refine .of_children ?_ ⟨outside, houtside, fun d hd heq => .inl (hlends d hd heq)⟩ ?_
  · refine WireType.balanced_inlineObject (fun f hf => ?_) fun f hf => (h f hf).balanced
    have hname : f.name ∈ fs.map (·.name) := hnames ▸ List.mem_map_of_mem hf
    obtain ⟨g, hg, hgname⟩ := List.mem_map.mp hname
    rw [← hgname]
    exact hplace.neat.self g hg
  · intro u hu
    obtain ⟨f, hf, rfl⟩ := List.mem_map.mp hu
    exact h f hf

/-- What stands between the identities in that of an intersection tells it from that of an instance. -/
theorem faithful_intersection (hs : scope.Neat) {identities : List String}
    (hlength : 2 ≤ identities.length) (hidentities : ∀ i ∈ identities, Balanced i)
    (name : String) {fields : List (Field WireType)} (h : ∀ f ∈ fields, Faithful scope frames f.type) :
    Faithful scope frames (.object (String.intercalate " & " identities) (some name) [] fields) := by
  match identities, hlength with
  | i :: j :: rest, _ =>
    obtain ⟨hi, hrest⟩ := List.forall_mem_cons.mp hidentities
    obtain ⟨first, hfirst⟩ := hi
    obtain ⟨others, hothers⟩ : Balanced (String.intercalate " & " (j :: rest)) :=
      .intercalate (.of_unfenced (by decide)) hrest
    have hseparator : Bracketed " & ".toList " & ".toList := .of_unfenced (by decide)
    have houtside : Bracketed (first ++ " & ".toList ++ others)
        (String.intercalate " & " (i :: j :: rest)).toList := by
      rw [String.intercalate_cons_cons, String.toList_append, String.toList_append]
      exact (hfirst.append hseparator).append hothers
    refine .of_children ⟨_, houtside⟩ ⟨_, houtside, fun d hd heq => ?_⟩ ?_
    · refine absurd ?_ (hs.unspaced d hd)
      rw [← heq]
      simp
    · intro u hu
      obtain ⟨f, hf, rfl⟩ := List.mem_map.mp hu
      exact h f hf

theorem faithful_declared (hs : scope.Neat) {d : TypeDecl} (hd : d ∈ scope.types)
    (hfields : d.body.fields?.isSome = true) {arguments : List WireType}
    (hlength : arguments.length = d.parameters.length)
    (ha : ∀ a ∈ arguments, Faithful scope frames a) {fields : List (Field WireType)}
    (h : ∀ f ∈ fields, Faithful scope (frameOf d arguments :: frames) f.type) :
    Faithful scope frames (.object (instanceIdentity d arguments) (some d.name) arguments fields) := by
  have hkeys : ∀ a ∈ arguments, Balanced a.key := fun a h => (ha a h).balanced
  have hidentity := bracketed_instanceIdentity (hs.unfenced d hd) hkeys
  refine .of_children ⟨_, hidentity⟩ ⟨_, hidentity, fun e he heq => ?_⟩ ?_
  · obtain rfl := hs.distinct d hd e he (String.toList_inj.mp heq)
    exact .inr ⟨hfields, rfl, rfl, hlength⟩
  · intro u hu
    rcases List.mem_append.mp hu with hu | hu
    · exact ha u hu
    · obtain ⟨f, hf, rfl⟩ := List.mem_map.mp hu
      exact (h f hf).of_enter hs hd hfields hkeys

/-! ## The law -/

/-- A field that has been moved is faithful, if the object that it was taken from was. -/
theorem faithful_takenFrom {i : String} {f : Field WireType}
    (h : TakenFrom (Faithful scope frames) i f) : Faithful scope frames f.type := by
  obtain ⟨name, arguments, fields, hobject, hf⟩ := h
  exact hobject.field hf

theorem faithfulLaw (hs : scope.Neat) :
    PlacedLaw scope (Place scope) (Cache.Holds (Faithful scope [])) (fun _ => True) (Faithful scope) where
  leads _ _ _ _ hplace hleads := hplace.leads hs (fun _ _ h => h.balanced) hleads
  unsupported _ := trivial
  exhausted := trivial
  primitive _ p := faithful_primitive p
  literal _ _ l _ _ := .of_children l.balanced_display trivial (by simp [WireType.children])
  constant _ _ _ _ _ _ _ l _ := .of_children l.balanced_display trivial (by simp [WireType.children])
  unexpanded _ name hname :=
    .of_children (.of_unfenced (hs.nameOnly name hname)) trivial (by simp [WireType.children])
  unbound _ _ hplace := faithful_generic hplace.neat.self (by simp)
  missing _ d hd p hp := faithful_generic (hs.parameters d hd p hp) (by simp)
  array _ _ h := faithful_array h
  builtin _ _ _ _ hb harity h := faithful_builtin hb harity h
  union _ _ h := faithful_union h
  back c d arguments hd ha hexpanding := by
    have hidentity := bracketed_instanceIdentity (hs.unfenced d hd) fun a h => (ha a h).balanced
    obtain ⟨frame, hframe, hframeIdentity⟩ := List.any_eq_true.mp hexpanding
    refine .of_children ⟨_, hidentity⟩ ⟨d, hd, hidentity, ⟨arguments, rfl⟩, .inr (.inr ?_)⟩
      (by simp [WireType.children])
    exact ⟨frame, hframe, by simpa using hframeIdentity⟩
  inline _ _ _ hplace hnames h := faithful_inline hs hplace hnames h
  intersection c ms identities name fields hplace hlength hidentities hfields := by
    refine faithful_intersection hs (hlength ▸ hplace.neat.self) (fun i hi => ?_) name fun f hf => ?_
    · obtain ⟨name, arguments, fields, hobject⟩ := hidentities i hi
      obtain ⟨outside, houtside, _⟩ := hobject.here
      exact ⟨outside, houtside⟩
    · obtain ⟨i, _, htaken⟩ := hfields f hf
      exact faithful_takenFrom htaken
  enter _ _ _ _ _ h t ht := (h t ht).mono (List.subset_cons_self ..)
  declared _ _ _ _ hd hfields hlength ha h :=
    faithful_declared hs hd hfields hlength ha fun f hf =>
      (h f hf).elim id fun ⟨_, _, htaken⟩ => faithful_takenFrom htaken
  leave _ d arguments t _ _ ht hopen := by
    -- The frame that is left is none towards which the type is open.
    refine ht.restrict fun frame hframe hmem => ?_
    rcases List.mem_cons.mp hframe with rfl | hframe
    · exact absurd hmem hopen
    · exact ⟨frame, hframe, rfl⟩
  found c d arguments _ _ _ := (steady_remembered? c _).weaken fun _ h t ht =>
    (h t ht).2.mono (List.nil_subset _)
  store c d arguments t _ _ ht hshareable _ := by
    refine steady_remember c hshareable (ht.restrict fun frame _ hmem => ?_)
    rw [List.isEmpty_iff.mp hshareable.closed] at hmem
    cases hmem

end Resolve

namespace Resolver

variable {types : List TypeDecl} {options : Options} {r : Resolver}

/-- A resolver that has been used only for neat type expressions, at sites apart from the declarations. -/
def NeatlyUsed (types : List TypeDecl) (options : Options) : Resolver → Prop :=
  UsedFor (fun t origin => t.Neat ∧ Scope.Apart ⟨types, options⟩ origin) types options

theorem place_ofOrigin {scope : Scope} {t : TypeExpr} {origin : String} (ht : t.Neat)
    (horigin : scope.Apart origin) : Place scope (.ofOrigin origin) t where
  neat := ht
  path := by simp [Context.ofOrigin]
  site _ := horigin
  frame _ _ hframes := by cases hframes

theorem NeatlyUsed.faithful (hs : Scope.Neat ⟨types, options⟩) (h : NeatlyUsed types options r)
    {t : TypeExpr} (ht : t.Neat) {origin : String} (horigin : Scope.Apart ⟨types, options⟩ origin)
    {depth : Nat} {w : WireType} (hw : (r.resolve depth t (.ofOrigin origin)).1 = .ok w) :
    Faithful ⟨types, options⟩ [] w := by
  have law := faithfulLaw hs
  obtain ⟨hscope, hcache⟩ := UsedFor.invariant h law Cache.holds_empty
    fun t origin hasked => place_ofOrigin hasked.1 hasked.2
  rw [← hscope] at law hcache horigin
  obtain ⟨result, cache, hresolve, _, hresult⟩ :=
    resolve_lawful_placed law hcache depth (place_ofOrigin ht horigin) (binds_ofOrigin origin)
  rw [hresolve] at hw
  subst hw
  exact hscope ▸ hresult

/-- A reference back in what a resolver yields names an instance of a declaration. Unless the declaration
lends its identity to an inline object, it stands for an object, so that no synonym that leads back to
itself is accepted, and every object with the identity, the innermost around the reference and any
other, is an instance of the declaration. -/
theorem NeatlyUsed.back_spec (hs : Scope.Neat ⟨types, options⟩) (h : NeatlyUsed types options r)
    {t : TypeExpr} (ht : t.Neat) {origin : String} (horigin : Scope.Apart ⟨types, options⟩ origin)
    {depth : Nat} {w : WireType} (hw : (r.resolve depth t (.ofOrigin origin)).1 = .ok w) {b : String}
    (hb : w.PointsBack b) : ∃ d ∈ types, (∃ arguments, b = instanceIdentity d arguments) ∧
      (d.Lends ⟨types, options⟩ ∨ d.body.fields?.isSome = true ∧
        ∀ o : ObjectType, w.Contains o.type → o.identity = b → o.IsInstance d) := by
  have hfaithful := h.faithful hs ht horigin hw
  obtain ⟨d, hd, hidentity, hinstance, hcases⟩ := (hfaithful _ hb.contains).2
  refine ⟨d, hd, hinstance, ?_⟩
  by_cases hlends : d.Lends ⟨types, options⟩
  · exact .inl hlends
  · have hfields : d.body.fields?.isSome = true := by
      rcases hcases.resolve_left hlends with hfields | ⟨frame, hframe, _⟩
      · exact hfields
      · cases hframe
    refine .inr ⟨hfields, ?_⟩
    rintro o ho rfl
    obtain ⟨outside, houtside, hdeclared⟩ := (hfaithful _ ho).2
    exact ((hdeclared d hd (houtside.outside_unique hidentity)).resolve_left hlends).2

/-- An interface that leads back to itself. -/
def recursive : TypeDecl :=
  let span : Span := ⟨"m.ts", .zero, .zero⟩
  ⟨"Tree", "m.ts#Tree", [], .interface []
    [⟨"children", .array (.reference "Tree" []), false, none, none, span⟩], span⟩

theorem recursive_neat : Scope.Neat ⟨[recursive], .default⟩ where
  distinct := by simp
  plain := by simp only [List.mem_singleton, forall_eq]; decide
  nested := by simp only [List.mem_singleton, forall_eq]; decide
  unfenced := by simp only [List.mem_singleton, forall_eq]; decide
  unspaced := by simp only [List.mem_singleton, forall_eq]; decide
  parameters := by simp [recursive]
  nameOnly := by decide
  neat := by
    simp only [List.mem_singleton, forall_eq]
    intro u hu
    obtain rfl := List.mem_singleton.mp hu
    have hname : Unfenced "children" := by decide
    exact ⟨by simpa [TypeExpr.NeatHere] using hname, ⟨trivial, trivial, trivial⟩, trivial⟩

theorem recursive_apart : Scope.Apart ⟨[recursive], .default⟩ "probe" where
  unfenced := by decide
  ne := by simp only [List.mem_singleton, forall_eq]; decide
  nested := by simp only [List.mem_singleton, forall_eq]; decide

theorem back_spec_recursive : ∃ w : WireType,
    ((fresh [recursive] .default).resolve 9 (.reference "Tree" []) (.ofOrigin "probe")).1 = .ok w ∧
      w.PointsBack "m.ts#Tree" ∧
      ∀ o : ObjectType, w.Contains o.type → o.identity = "m.ts#Tree" → o.IsInstance recursive := by
  obtain ⟨w, hw, hback⟩ : ∃ w : WireType,
      ((fresh [recursive] .default).resolve 9 (.reference "Tree" []) (.ofOrigin "probe")).1 = .ok w ∧
        w.PointsBack "m.ts#Tree" :=
    ⟨_, rfl, .child (List.mem_singleton.mpr rfl) (.child (List.mem_singleton.mpr rfl) .here)⟩
  have hneat : (TypeExpr.reference "Tree" []).Neat := ⟨trivial, trivial⟩
  obtain ⟨d, hd, -, hcases⟩ := NeatlyUsed.back_spec recursive_neat .fresh hneat recursive_apart hw hback
  obtain rfl := List.mem_singleton.mp hd
  have hlends : ¬ recursive.Lends ⟨[recursive], .default⟩ := by
    rintro ⟨u, hu, -⟩
    cases hu
  exact ⟨w, hw, hback, (hcases.resolve_left hlends).2⟩

/-- A synonym of a promise of an inline object that leads back to the synonym. -/
def promised : TypeDecl :=
  let span : Span := ⟨"m.ts", .zero, .zero⟩
  ⟨"X", "m.ts#X", [], .synonym (.reference "Promise"
    [.object [⟨"x", .reference "X" [], false, none, none, span⟩]]), span⟩

/-- The inline object has the identity of the synonym and catches the reference back, so that the
synonym passes for one that does not lead back to itself. -/
theorem promised_catches : promised.body.fields? = none ∧ promised.Lends ⟨[promised], .default⟩ ∧
    ((fresh [promised] .default).resolve 9 (.reference "X" []) (.ofOrigin "probe")).1 =
      .ok (.promise (.object "m.ts#X" none [] [⟨"x", .back "m.ts#X", true, none⟩])) :=
  ⟨rfl, ⟨_, .head _, _, .single (.argument (.head _))⟩, rfl⟩

end Resolver

end AnnotatedApi
