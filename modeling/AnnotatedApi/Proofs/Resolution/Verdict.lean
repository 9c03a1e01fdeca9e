import AnnotatedApi.Proofs.Resolution.History
import AnnotatedApi.Proofs.Resolution.Layers

/-!
# Which types are resolved

Where the declarations are in layers, whether a type is resolved can be read off them: it is just if
no fault can be reached from it, whatever else has been resolved before, unless a limit is met. In
general a used resolver may resolve more types than a new one, or fewer.
-/

namespace AnnotatedApi

set_option autoImplicit false

open Resolve

/-- Whether a type is given up because of a limit: of the depth of instances or of the recursion. -/
def Resolve.Failure.IsLimit : Failure → Prop
  | .exhausted => True
  | .unsupported ⟨_, .tooDeep _⟩ => True
  | _ => False

def WireType.IsObject (t : WireType) : Prop :=
  ∃ identity name arguments fields, t = .object identity name arguments fields

namespace Resolve

/-- No declaration is left out of account. -/
def Nowhere : TypeDecl → Prop := fun _ => False

variable (scope : Scope) (layer : TypeDecl → Nat)

/-- The declarations below a layer that are being expanded and to which something points back. -/
def Hidden (frames : List Frame) (n : Nat) (pending : List String) (d : TypeDecl) : Prop :=
  d ∈ scope.types ∧ layer d < n ∧ ∃ f ∈ frames, f.Of d ∧ f.identity ∈ pending

/-- What is known of a type expression that has been resolved. -/
structure Found (n : Nat) (frames : List Frame) (t : TypeExpr) (w : WireType) : Prop where
  /-- No fault can be reached but through the declarations to which the type is open. -/
  sound : ∀ m, t.Under scope layer m → ¬ t.Faulty scope (Hidden scope layer frames m w.openReferences)
  object : t.DenotesObject scope → t.Under scope layer n → w.IsObject
  back : PointsToObjects scope w

/-- Whether a failure is due to the type expression, or to a limit. -/
def Explains (t : TypeExpr) (e : Failure) : Prop :=
  e.IsLimit ∨ t.Faulty scope Nowhere ∨ ¬ t.Tidy scope

/-- What is known of a type that is remembered. -/
structure Known (key : String) (w : WireType) : Prop where
  back : PointsToObjects scope w
  declared : ∀ d ∈ scope.types, ∀ arguments, key = instanceIdentity d arguments →
    ¬ d.Faulty scope Nowhere ∧
      (d.body.fields?.isSome = true ∧ w.IsObject ∨ ∃ members, d.body = .enumeration members)

/-- What is known of a declaration that has been expanded. -/
structure Expanded (frames : List Frame) (d : TypeDecl) (w : WireType) : Prop where
  sound : ¬ d.Faulty scope fun e =>
    e = d ∨ Hidden scope layer frames (layer d + 1) w.openReferences e
  object : (d.body.fields?.isSome = true ∨ ∃ u, d.body = .synonym u ∧ u.DenotesObject scope) →
    w.IsObject
  back : PointsToObjects scope w

/-- Whether a way to resolve types finds out the faults of every type expression in its place. -/
def Settles (resolve : TypeExpr → Resolving WireType) : Prop :=
  ∀ n c t, Placed scope layer n c t → Steady (Cache.Records (Known scope)) c (resolve t)
    (Found scope layer n c.frames t) (Explains scope t)

variable {scope layer} {frames : List Frame} {n m : Nat} {c : Context} {t u : TypeExpr} {w : WireType}
  {d : TypeDecl} {e : Failure} {pending : List String}

/-! ## Types that have been resolved -/

theorem PointsToObjects.of_children (hw : ∀ i, w ≠ .back i)
    (h : ∀ v ∈ w.children, PointsToObjects scope v) : PointsToObjects scope w := by
  intro b hb
  obtain ⟨v, hv, hb⟩ := hb.exists_child hw
  exact h v hv b hb

theorem PointsToObjects.child {v : WireType} (h : PointsToObjects scope w) (hv : v ∈ w.children) :
    PointsToObjects scope v :=
  fun b hb => h b (.child hv hb)

theorem PointsToObjects.field {i : String} {name : Option String} {arguments : List WireType}
    {fields : List (Field WireType)} (h : PointsToObjects scope (.object i name arguments fields))
    {f : Field WireType} (hf : f ∈ fields) : PointsToObjects scope f.type :=
  h.child (List.mem_append_right _ (List.mem_map_of_mem hf))

theorem not_denotesObject (hd : scope.declaration? t = none) (hobject : ∀ fs, t ≠ .object fs)
    (hintersection : ∀ ms, t ≠ .intersection ms) : ¬ t.DenotesObject scope := by
  intro h
  cases h with
  | object => exact hobject _ rfl
  | intersection => exact hintersection _ rfl
  | declared he => simp [hd] at he
  | synonym he => simp [hd] at he

theorem Explains.part (hpart : t.Part scope u) (h : Explains scope u e) : Explains scope t e :=
  h.imp_right fun h => h.imp (.part hpart) fun h ht => h (ht.part hpart)

namespace Found

/-- What leads only further down leads to no declaration that is being expanded. -/
theorem clean (h : Found scope layer n frames t w) (ht : t.Under scope layer n)
    (habove : ∀ f ∈ frames, ∀ d ∈ scope.types, f.Of d → n ≤ layer d) : ¬ t.Faulty scope Nowhere :=
  fun hfaulty => h.sound n ht <| hfaulty.mono fun d ⟨hd, hlt, f, hf, hof, _⟩ =>
    absurd hlt (Nat.not_lt.mpr (habove f hf d hd hof))

theorem not_faulty (h : Found scope layer n frames t w)
    (hopen : ∀ f ∈ frames, f.identity ∈ w.openReferences → f.identity ∈ pending) (m : Nat)
    (ht : t.Under scope layer m) : ¬ t.Faulty scope (Hidden scope layer frames m pending) :=
  fun hfaulty => h.sound m ht <| hfaulty.mono fun _ ⟨hd, hlt, f, hf, hof, hmem⟩ =>
    ⟨hd, hlt, f, hf, hof, hopen f hf hmem⟩

theorem of_parts (hd : scope.declaration? t = none) (hfault : ¬ t.Fault scope)
    (hparts : ∀ u, t.Part scope u → ∀ m, u.Under scope layer m →
      ¬ u.Faulty scope (Hidden scope layer frames m w.openReferences))
    (hobject : t.DenotesObject scope → w.IsObject) (hback : PointsToObjects scope w) :
    Found scope layer n frames t w where
  sound m ht := TypeExpr.Faulty.not_of_parts hd hfault fun u hu => hparts u hu m (ht.part hu)
  object h _ := hobject h
  back := hback

/-- What is made of the types of the parts has no fault but through what one of them is open to. -/
theorem of_list (hd : scope.declaration? t = none) (hfault : ¬ t.Fault scope)
    (hobject : ∀ fs, t ≠ .object fs) (hintersection : ∀ ms, t ≠ .intersection ms)
    {ts : List TypeExpr} {ws : List WireType} (hparts : ∀ u, t.Part scope u → u ∈ ts)
    (hws : List.Forall₂ (Found scope layer n frames) ts ws)
    (hopen : ∀ v ∈ ws, ∀ i ∈ v.openReferences, i ∈ w.openReferences)
    (hback : PointsToObjects scope w) : Found scope layer n frames t w := by
  refine .of_parts hd hfault (fun u hu m hm => ?_)
    (fun h => absurd h (not_denotesObject hd hobject hintersection)) hback
  obtain ⟨v, hv, hfound⟩ := exists_of_mem_right hws.flip (hparts u hu)
  exact hfound.not_faulty (fun _ _ hmem => hopen v hv _ hmem) m hm

/-- A type expression without parts becomes a type without parts. -/
theorem leaf (hd : scope.declaration? t = none) (hfault : ¬ t.Fault scope)
    (hparts : ∀ u, ¬ t.Part scope u) (hobject : ∀ fs, t ≠ .object fs)
    (hintersection : ∀ ms, t ≠ .intersection ms) (hw : ∀ i, w ≠ .back i)
    (hchildren : w.children = []) : Found scope layer n frames t w :=
  .of_parts hd hfault (fun u hu => absurd hu (hparts u))
    (fun h => absurd h (not_denotesObject hd hobject hintersection))
    (.of_children hw (by simp [hchildren]))

end Found

/-! ## Fields -/

namespace Settles

variable {resolve : TypeExpr → Resolving WireType}

theorem resolveField (h : Settles scope layer resolve) {fs : List (FieldDecl TypeExpr)}
    (hroom : Room scope layer n c (.object fs)) {f : FieldDecl TypeExpr} (hf : f ∈ fs) :
    Steady (Cache.Records (Known scope)) c (resolveField resolve f)
      (fun g => g.name = f.name ∧ Found scope layer n c.frames f.type.stripUndefined.1 g.type)
      (Explains scope (.object fs)) := by
  refine Keeps.bind (Steady.inField ((h n _ _ (hroom.field hf)).mono (fun _ hw => hw) ?_)) fun w hw => ?_
  · exact fun e he => he.part (.field hf)
  · exact .pure ⟨rfl, hw⟩

theorem resolveFields (h : Settles scope layer resolve) {fs : List (FieldDecl TypeExpr)}
    (hroom : Room scope layer n c (.object fs)) :
    Steady (Cache.Records (Known scope)) c (resolveFields resolve fs)
      (List.Forall₂ (fun f g => g.name = f.name ∧
        Found scope layer n c.frames f.type.stripUndefined.1 g.type) fs) (Explains scope (.object fs)) :=
  Keeps.mapM fs fun _ hf => h.resolveField hroom hf

/-! ## Objects that are taken apart -/

theorem resolveBases (h : Settles scope layer resolve) (declaration : String) {bases : List TypeExpr}
    (hbases : ∀ b ∈ bases, Placed scope layer n c b ∧ b.Under scope layer n ∧ b.DenotesObject scope)
    {merged : List (Field WireType)} (hmerged : ∀ g ∈ merged, PointsToObjects scope g.type) :
    Steady (Cache.Records (Known scope)) c (resolveBases resolve declaration bases merged)
      (fun gs => (∀ b ∈ bases, ¬ b.Faulty scope Nowhere) ∧ ∀ g ∈ gs, PointsToObjects scope g.type)
      (fun e => ∃ b ∈ bases, Explains scope b e) := by
  induction bases generalizing merged with
  | nil => exact .pure ⟨by simp, hmerged⟩
  | cons base rest ih =>
    obtain ⟨⟨hplace, hunder, hobject⟩, hrest⟩ := List.forall_mem_cons.mp hbases
    refine Keeps.bind ((h n c base hplace).mono (fun _ hw => hw) fun e he => ⟨base, by simp, he⟩)
      fun w hw => ?_
    obtain ⟨identity, name, arguments, fields, rfl⟩ := hw.object hobject hunder
    have hnext : ∀ g ∈ mergeFields merged fields, PointsToObjects scope g.type :=
      forall_mem_mergeFields hmerged fun _ hg => hw.back.field hg
    refine (ih hrest hnext).mono (fun gs ⟨hclean, hgs⟩ => ⟨?_, hgs⟩) fun e ⟨b, hb, he⟩ =>
      ⟨b, List.mem_cons_of_mem _ hb, he⟩
    exact List.forall_mem_cons.mpr ⟨hw.clean hunder hplace.above, hclean⟩

theorem resolveMembers (h : Settles scope layer resolve) (text : String) {members : List TypeExpr}
    (hmembers : ∀ m ∈ members, Placed scope layer n c m ∧ m.Under scope layer n)
    {merged : List (Field WireType)} (hmerged : ∀ g ∈ merged, PointsToObjects scope g.type) :
    Steady (Cache.Records (Known scope)) c (resolveMembers resolve text members merged)
      (fun (_, _, gs) => (∀ m ∈ members, ¬ m.Faulty scope Nowhere) ∧
        ∀ g ∈ gs, PointsToObjects scope g.type)
      (fun e => ∃ m ∈ members, Explains scope m e ∨ ¬ m.DenotesObject scope) := by
  induction members generalizing merged with
  | nil => exact .pure ⟨by simp, hmerged⟩
  | cons member rest ih =>
    obtain ⟨⟨hplace, hunder⟩, hrest⟩ := List.forall_mem_cons.mp hmembers
    refine Keeps.bind ((h n c member hplace).mono (fun _ hw => hw) fun e he =>
      ⟨member, by simp, .inl he⟩) fun w hw => ?_
    by_cases hobject : w.IsObject
    · obtain ⟨identity, name, arguments, fields, rfl⟩ := hobject
      have hnext : ∀ g ∈ mergeFields merged fields, PointsToObjects scope g.type :=
        forall_mem_mergeFields hmerged fun _ hg => hw.back.field hg
      refine Keeps.bind ((ih hrest hnext).mono (fun _ hgs => hgs) fun e ⟨m, hm, he⟩ =>
        ⟨m, List.mem_cons_of_mem _ hm, he⟩) fun (identities, names, gs) ⟨hclean, hgs⟩ => .pure ⟨?_, hgs⟩
      exact List.forall_mem_cons.mpr ⟨hw.clean hunder hplace.above, hclean⟩
    · have hnot : ¬ member.DenotesObject scope := fun hdenotes => hobject (hw.object hdenotes hunder)
      cases w with
      | object identity name arguments fields => exact absurd ⟨_, _, _, _, rfl⟩ hobject
      | _ => exact .throw ⟨member, by simp, .inr hnot⟩

/-! ## Declarations -/

/-- The type arguments and the defaults that are needed are found to have no fault; the values of the
type parameters point back to objects. -/
theorem bindParameters (h : Settles scope layer resolve) (names : List String)
    (habove : ∀ f ∈ c.frames, ∀ d ∈ scope.types, f.Of d → n ≤ layer d)
    (parameters : List TypeParameter) (arguments : List TypeExpr) (environment : Table WireType)
    (hlength : arguments.length ≤ parameters.length)
    (harguments : ∀ a ∈ arguments, Placed scope layer n c a ∧ a.Under scope layer n)
    (hnames : ∀ p ∈ parameters, p.name ∈ names)
    (hdefaults : ∀ p ∈ parameters, ∀ u, p.default = some u → ∀ environment,
      Confined scope environment names →
        Placed scope layer n { c with environment := environment } u ∧ u.Under scope layer n)
    (hbound : Confined scope environment names) :
    Steady (Cache.Records (Known scope)) c (bindParameters resolve parameters arguments environment)
      (fun r => (∀ a ∈ arguments, ¬ a.Faulty scope Nowhere) ∧
        (∀ p ∈ parameters.drop arguments.length, ∀ u, p.default = some u → ¬ u.Faulty scope Nowhere) ∧
        (∀ v ∈ r.2, PointsToObjects scope v) ∧ Confined scope r.1 names)
      (fun e => (∃ a ∈ arguments, Explains scope a e) ∨
        ∃ p ∈ parameters.drop arguments.length, ∃ u, p.default = some u ∧ Explains scope u e) := by
  induction parameters generalizing arguments environment with
  | nil =>
    obtain rfl := List.eq_nil_of_length_eq_zero (Nat.le_zero.mp hlength)
    exact .pure ⟨by simp, by simp, by simp, hbound⟩
  | cons p rest ih =>
    obtain ⟨hname, hrestNames⟩ := List.forall_mem_cons.mp hnames
    obtain ⟨hdefault, hrestDefaults⟩ := List.forall_mem_cons.mp hdefaults
    cases arguments with
    | cons a left =>
      obtain ⟨⟨hplace, hunder⟩, hplaced⟩ := List.forall_mem_cons.mp harguments
      rw [bindParameters_argument]
      refine Keeps.bind ((h n c a hplace).mono (fun _ hw => hw) fun e he => .inl ⟨a, by simp, he⟩)
        fun v hv => ?_
      have hnext := ih left _ (Nat.le_of_succ_le_succ hlength) hplaced hrestNames hrestDefaults
        (hbound.put hname hv.back)
      refine Keeps.bind (hnext.mono (fun _ hr => hr) fun e he => ?_) ?_
      · exact he.imp_left fun ⟨a', ha', he⟩ => ⟨a', List.mem_cons_of_mem _ ha', he⟩
      · rintro r ⟨hclean, hdefs, hvalues, hr⟩
        refine .pure ⟨List.forall_mem_cons.mpr ⟨hv.clean hunder habove, hclean⟩, hdefs, ?_, hr⟩
        exact List.forall_mem_cons.mpr ⟨hv.back, hvalues⟩
    | nil =>
      have hfailure : ∀ e, ((∃ a ∈ ([] : List TypeExpr), Explains scope a e) ∨
          ∃ p ∈ rest, ∃ u, p.default = some u ∧ Explains scope u e) →
          (∃ a ∈ ([] : List TypeExpr), Explains scope a e) ∨
            ∃ q ∈ p :: rest, ∃ u, q.default = some u ∧ Explains scope u e := by
        rintro e (⟨_, ha, _⟩ | ⟨q, hq, he⟩)
        · cases ha
        · exact .inr ⟨q, List.mem_cons_of_mem _ hq, he⟩
      cases hp : p.default with
      | none =>
        have hunbound : PointsToObjects scope (.generic p.name []) :=
          .of_children (by simp) (by simp [WireType.children])
        rw [bindParameters_unbound _ _ _ _ hp]
        have hnext := ih [] environment (Nat.zero_le _) (by simp) hrestNames hrestDefaults hbound
        refine Keeps.bind (hnext.mono (fun _ hr => hr) hfailure) ?_
        rintro r ⟨hclean, hdefs, hvalues, hr⟩
        refine .pure ⟨hclean, List.forall_mem_cons.mpr ⟨by simp [hp], hdefs⟩, ?_, hr⟩
        exact List.forall_mem_cons.mpr ⟨hunbound, hvalues⟩
      | some u =>
        obtain ⟨hplace, hunder⟩ := hdefault u hp environment hbound
        rw [bindParameters_default _ _ _ _ hp]
        refine Keeps.bind (Steady.inEnvironment ((h n _ u hplace).mono (fun _ hw => hw)
          fun e he => .inr ⟨p, by simp, u, hp, he⟩)) fun v hv => ?_
        have hu : ∀ u', p.default = some u' → ¬ u'.Faulty scope Nowhere := by
          intro u' hu'
          rw [hp] at hu'
          exact Option.some.inj hu' ▸ hv.clean hunder habove
        have hnext := ih [] _ (Nat.zero_le _) (by simp) hrestNames hrestDefaults
          (hbound.put hname hv.back)
        refine Keeps.bind (hnext.mono (fun _ hr => hr) hfailure) ?_
        rintro r ⟨hclean, hdefs, hvalues, hr⟩
        refine .pure ⟨hclean, List.forall_mem_cons.mpr ⟨hu, hdefs⟩, ?_, hr⟩
        exact List.forall_mem_cons.mpr ⟨hv.back, hvalues⟩

end Settles

/-- What explains a failure inside a declaration explains that of the declaration. -/
theorem Explains.inside (hs : scope.Layered layer) (hd : d ∈ scope.types) (hu : u ∈ d.body.needs)
    (h : Explains scope u e) : e.IsLimit ∨ d.Faulty scope Nowhere := by
  rcases h with h | h | h
  · exact .inl h
  · exact .inr (.inr ⟨u, hu, h⟩)
  · exact absurd ((hs.keeps d hd).tidy u (List.mem_append_left _ hu)) h

/-- A declared object is open to everything that its declared fields are open to, itself apart. -/
theorem Expanded.of_object (hs : scope.Layered layer) (hd : d ∈ scope.types)
    {arguments : List WireType} {fs : List (FieldDecl TypeExpr)} {gs all : List (Field WireType)}
    (hfields : d.body.fields? = some fs)
    (hfresh : ∀ f ∈ frames, f.identity ≠ instanceIdentity d arguments)
    (hgs : List.Forall₂ (fun f g => g.name = f.name ∧ Found scope layer (layer d)
      (frameOf d arguments :: frames) f.type.stripUndefined.1 g.type) fs gs)
    (hsub : ∀ g ∈ gs, g ∈ all) (hopened : ∀ u ∈ d.body.opened, ¬ u.Faulty scope Nowhere)
    (hback : ∀ g ∈ all, PointsToObjects scope g.type)
    (harguments : ∀ v ∈ arguments, PointsToObjects scope v) :
    Expanded scope layer frames d
      (.object (instanceIdentity d arguments) (some d.name) arguments all) where
  object _ := ⟨_, _, _, _, rfl⟩
  back := by
    refine .of_children (by simp) fun v hv => ?_
    rcases List.mem_append.mp hv with hv | hv
    · exact harguments v hv
    · obtain ⟨g, hg, rfl⟩ := List.mem_map.mp hv
      exact hback g hg
  sound := by
    rintro (henum | ⟨u, hu, hfaulty⟩)
    · exact TypeDecl.not_enumFault (fun members hbody => by simp [hbody, TypeBody.fields?] at hfields) henum
    rw [TypeBody.needs_of_fields? hfields, List.mem_cons] at hu
    rcases hu with rfl | hu
    · have hfits := (hs.keeps d hd).fields fs hfields
      refine TypeExpr.Faulty.not_of_parts rfl (by rintro ⟨⟩) (fun u hu hfaulty => ?_) hfaulty
      have hunder := hfits.under.part hu
      cases hu with
      | @field _ f hf =>
        obtain ⟨g, hg, _, hfound⟩ := exists_of_mem_right hgs.flip hf
        refine hfound.sound _ hunder (hfaulty.mono ?_)
        rintro e ⟨he, hlt, f', hf', hof, hmem⟩
        rcases List.mem_cons.mp hf' with rfl | hf'
        · exact .inl (hs.wellNamed.eq_of_frame hd he hof rfl)
        · refine .inr ⟨he, hlt, f', hf', hof, ?_⟩
          exact WireType.mem_openReferences_object.mpr ⟨hfresh f' hf', .inr ⟨g, hsub g hg, hmem⟩⟩
    · exact hopened u hu (hfaulty.mono fun _ h => h.elim)

namespace Settles

variable {resolve : TypeExpr → Resolving WireType} {arguments : List WireType}
  {environment : Table WireType}

theorem map_name_eq {frames : List Frame} {fs : List (FieldDecl TypeExpr)} {gs : List (Field WireType)}
    (h : List.Forall₂ (fun f g => g.name = f.name ∧
      Found scope layer n frames f.type.stripUndefined.1 g.type) fs gs) :
    gs.map (·.name) = fs.map (·.name) := by
  induction h with
  | nil => rfl
  | cons hg _ ih => rw [List.map_cons, List.map_cons, hg.1, ih]

section

variable (h : Settles scope layer resolve) (hs : scope.Layered layer) (hroom : Room scope layer n c t)
  (ht : scope.declaration? t = some d)
  (hbound : Confined scope environment (d.parameters.map (·.name)))

include h hs hroom ht hbound

/-- The fields of a declaration are resolved in its expansion. -/
theorem declaredFields {fs : List (FieldDecl TypeExpr)} (hfs : d.body.fields? = some fs) :
    Steady (Cache.Records (Known scope)) (c.enter (frameOf d arguments) environment)
      (Resolve.resolveFields resolve fs)
      (List.Forall₂ (fun f g => g.name = f.name ∧ Found scope layer (layer d)
        (frameOf d arguments :: c.frames) f.type.stripUndefined.1 g.type) fs)
      (fun e => e.IsLimit ∨ d.Faulty scope Nowhere) := by
  have hd := Scope.mem_of_declaration? ht
  have hneeds : .object fs ∈ d.body.needs := by
    rw [TypeBody.needs_of_fields? hfs]
    exact List.mem_cons_self ..
  refine (h.resolveFields (hroom.enter hs hd ht hbound hneeds
    ((hs.keeps d hd).fields fs hfs) fun hnone => ?_)).mono (fun _ hgs => hgs)
    fun e he => he.inside hs hd hneeds
  rw [hfs] at hnone
  cases hnone

/-- What a synonym stands for does not point back to the synonym. -/
theorem expandSynonym {target : TypeExpr} (hbody : d.body = .synonym target)
    (hnone : d.body.fields? = none) :
    Steady (Cache.Records (Known scope)) (c.enter (frameOf d arguments) environment)
      (expandSynonym resolve (instanceIdentity d arguments) d target)
      (fun (w, shareable) => Expanded scope layer c.frames d w ∧ shareable = false)
      (fun e => e.IsLimit ∨ d.Faulty scope Nowhere) := by
  have hd := Scope.mem_of_declaration? ht
  have hopened := TypeBody.opened_of_synonym hbody hnone
  have hneeds : d.body.needs = [target] := by
    rw [TypeBody.needs, hnone, hopened]
    rfl
  have hmem : target ∈ d.body.opened := by simp [hopened]
  have hplace : Placed scope layer (layer d) (c.enter (frameOf d arguments) environment) target :=
    hroom.opened hs hd ht hbound hmem
  have hunder := (hs.keeps d hd).opened target (List.mem_append_left _ hmem)
  refine Keeps.bind ((h _ _ target hplace).mono (fun _ hw => hw)
    fun e he => he.inside hs hd (by simp [hneeds])) fun w hw => ?_
  have hclosed : w.openReferences.contains (instanceIdentity d arguments) = false := by
    rw [List.contains_eq_mem, decide_eq_false_iff_not]
    intro hopen
    obtain ⟨e, he, hsome, as, heq⟩ := hw.back _ (.of_mem_openReferences w hopen)
    rw [hs.wellNamed.eq_of_instanceIdentity_eq he hd heq.symm, hnone] at hsome
    cases hsome
  rw [hclosed]
  refine .pure ⟨⟨?_, ?_, hw.back⟩, rfl⟩
  · rintro (henum | ⟨u, hu, hfaulty⟩)
    · exact TypeDecl.not_enumFault (fun members henum => by simp [hbody] at henum) henum
    · rw [hneeds, List.mem_singleton] at hu
      subst hu
      exact hw.clean hunder hplace.above (hfaulty.mono fun _ h => h.elim)
  · rintro (hsome | ⟨u, hu, hobject⟩)
    · rw [hnone] at hsome
      cases hsome
    · rw [hbody, TypeBody.synonym.injEq] at hu
      exact hw.object (hu ▸ hobject) hunder

theorem expandInterface (harguments : ∀ v ∈ arguments, PointsToObjects scope v)
    (hfresh : ∀ f ∈ c.frames, f.identity ≠ instanceIdentity d arguments)
    {bases : List TypeExpr} {fs : List (FieldDecl TypeExpr)} (hbody : d.body = .interface bases fs) :
    Steady (Cache.Records (Known scope)) (c.enter (frameOf d arguments) environment)
      (Resolve.resolveBases resolve d.name bases [] >>= fun inherited =>
        Resolve.resolveFields resolve fs >>= fun own => Pure.pure (mergeFields inherited own))
      (fun gs => Expanded scope layer c.frames d
        (.object (instanceIdentity d arguments) (some d.name) arguments gs))
      (fun e => e.IsLimit ∨ d.Faulty scope Nowhere) := by
  have hd := Scope.mem_of_declaration? ht
  have hkeeps := hs.keeps d hd
  have hfs : d.body.fields? = some fs := by rw [hbody]; rfl
  have hopened : d.body.opened = bases := by rw [hbody]; rfl
  have hplaced : ∀ b ∈ bases, Placed scope layer (layer d)
      (c.enter (frameOf d arguments) environment) b ∧ b.Under scope layer (layer d) ∧
        b.DenotesObject scope := by
    intro b hb
    rw [← hopened] at hb
    exact ⟨hroom.opened hs hd ht hbound hb, hkeeps.opened b (List.mem_append_left _ hb),
      hkeeps.bases bases fs hbody b (hopened ▸ hb)⟩
  have hempty : ∀ g ∈ ([] : List (Field WireType)), PointsToObjects scope g.type := by simp
  have hbases := (h.resolveBases d.name hplaced hempty).mono (fun _ hgs => hgs)
    fun e ⟨b, hb, he⟩ => he.inside hs hd (TypeBody.needs_of_fields? hfs ▸
      List.mem_cons_of_mem _ (hopened ▸ hb))
  refine hbases.bind fun inherited ⟨hclean, hinherited⟩ => ?_
  refine (h.declaredFields hs hroom ht hbound hfs).bind fun gs hgs => .pure ?_
  refine .of_object hs hd hfs hfresh hgs (fun g hg => mem_mergeFields_of_mem ?_ hg) ?_ ?_ harguments
  · rw [map_name_eq hgs]
    exact hkeeps.distinct fs hfs
  · rwa [hopened]
  · refine forall_mem_mergeFields hinherited fun g hg => ?_
    obtain ⟨f, _, hg⟩ := exists_of_mem_right hgs hg
    exact hg.2.back

/-- What an expansion yields may be remembered unless it stands for another type. -/
theorem expand (harguments : ∀ v ∈ arguments, PointsToObjects scope v)
    (hfresh : ∀ f ∈ c.frames, f.identity ≠ instanceIdentity d arguments) :
    Steady (Cache.Records (Known scope)) (c.enter (frameOf d arguments) environment)
      (expand resolve d (instanceIdentity d arguments) arguments)
      (fun (w, shareable) => Expanded scope layer c.frames d w ∧ (shareable = true →
        (∀ i name as fields, w = .object i name as fields → i = instanceIdentity d arguments) ∧
          (d.body.fields?.isSome = true ∨ ∃ members, d.body = .enumeration members)))
      (fun e => e.IsLimit ∨ d.Faulty scope Nowhere) := by
  have hd := Scope.mem_of_declaration? ht
  cases d.form with
  | @interface bases fs hbody =>
    have hfields := h.expandInterface hs hroom ht hbound harguments hfresh hbody
    have hexpand : Resolve.expand resolve d (instanceIdentity d arguments) arguments =
        (Resolve.resolveBases resolve d.name bases [] >>= fun inherited =>
          Resolve.resolveFields resolve fs >>= fun own => Pure.pure (mergeFields inherited own)) >>=
        fun gs => Pure.pure
          (.object (instanceIdentity d arguments) (some d.name) arguments gs, true) := by
      rw [expand_interface _ _ _ hbody]
      simp only [bind_assoc, pure_bind]
    rw [hexpand]
    refine hfields.bind fun gs hgs => .pure ⟨hgs, fun _ => ⟨?_, .inl (by rw [hbody]; rfl)⟩⟩
    rintro i name as fields ⟨⟩
    rfl
  | @object fs hbody =>
    have hfs : d.body.fields? = some fs := by
      rw [hbody]
      rfl
    have hopened : d.body.opened = [] := by
      rw [hbody]
      rfl
    rw [expand_object _ _ _ hbody]
    refine (h.declaredFields hs hroom ht hbound hfs).bind fun gs hgs =>
      .pure ⟨?_, fun _ => ⟨?_, .inl (by rw [hfs]; rfl)⟩⟩
    · refine .of_object hs hd hfs hfresh hgs (fun _ hg => hg) (by simp [hopened]) ?_ harguments
      intro g hg
      obtain ⟨f, _, hg⟩ := exists_of_mem_right hgs hg
      exact hg.2.back
    · rintro i name as fields ⟨⟩
      rfl
  | @synonym target hbody hnone =>
    rw [expand_synonym _ _ _ hbody hnone]
    refine (h.expandSynonym hs hroom ht hbound hbody hnone).weaken
      fun (w, shareable) ⟨hw, hfalse⟩ => ⟨hw, fun htrue => ?_⟩
    rw [hfalse] at htrue
    cases htrue
  | @enumeration members l ls hbody hliterals =>
    have hneeds : d.body.needs = [] := by
      rw [hbody]
      rfl
    rw [expand_enumeration _ _ _ hbody hliterals]
    refine .pure ⟨⟨?_, ?_, fun b hb => ?_⟩, fun _ => ⟨fun i name as fields heq => ?_, ?_⟩⟩
    · rintro (⟨members', hbody', hfault⟩ | ⟨u, hu, _⟩)
      · rw [hbody, TypeBody.enumeration.injEq] at hbody'
        exact hfault l ls (hbody' ▸ hliterals)
      · simp [hneeds] at hu
    · simp [hbody, TypeBody.fields?]
    · obtain ⟨w, hw, hb⟩ := hb.of_unionOf
      obtain ⟨l', _, rfl⟩ := List.mem_map.mp hw
      obtain ⟨v, hv, _⟩ := hb.exists_child (by simp)
      cases hv
    · exact absurd heq Lawful.unionOf_literals_ne_object
    · exact .inr ⟨members, hbody⟩
  | fault hfault =>
    obtain ⟨cause, hcause⟩ := expand_fault hfault
    rw [hcause]
    exact .throw (.inr (.inl hfault))

/-- An instance is remembered only if no fault can be reached from inside its declaration. -/
theorem expandInstance (harguments : ∀ v ∈ arguments, PointsToObjects scope v)
    (hfresh : ∀ f ∈ c.frames, f.identity ≠ instanceIdentity d arguments) :
    Steady (Cache.Records (Known scope)) c
      (expandInstance scope resolve d (instanceIdentity d arguments) environment arguments)
      (Expanded scope layer c.frames d) (fun e => e.IsLimit ∨ d.Faulty scope Nowhere) := by
  have hd := Scope.mem_of_declaration? ht
  refine Steady.get fun _ => ?_
  dsimp only
  split
  · exact .throw (.inl trivial)
  refine Keeps.bind (Steady.inFrame (h.expand hs hroom ht hbound harguments hfresh))
    fun (w, shareable) ⟨hw, hshare⟩ => ?_
  dsimp only
  split
  · rename_i hstore
    rw [Bool.and_eq_true] at hstore
    obtain ⟨hown, hkind⟩ := hshare hstore.1
    have hknown : Known scope (instanceIdentity d arguments) w := by
      refine ⟨hw.back, fun e he as heq => ?_⟩
      obtain rfl := hs.wellNamed.eq_of_instanceIdentity_eq hd he heq
      refine ⟨fun hfaulty => hw.sound (hfaulty.cut.mono ?_), ?_⟩
      · rintro e' (rfl | ⟨_, _, f, _, _, hmem⟩)
        · exact .inl rfl
        · rw [List.isEmpty_iff.mp hstore.2] at hmem
          cases hmem
      · exact hkind.imp_left fun hsome => ⟨hsome, hw.object (.inl hsome)⟩
    exact (steady_remember c ⟨hstore.2, hown⟩ hknown).bind fun _ _ => .pure hw
  · exact .pure hw

/-- An instance is found by its identity: it points back, is remembered, or is expanded. -/
theorem resolveInstance (harguments : ∀ v ∈ arguments, PointsToObjects scope v) :
    Steady (Cache.Records (Known scope)) c
      (if c.isExpanding (instanceIdentity d arguments) then
          Pure.pure (.back (instanceIdentity d arguments))
        else remembered? (instanceIdentity d arguments) >>= fun found =>
          match found with
          | some w => Pure.pure w
          | none => Resolve.expandInstance scope resolve d (instanceIdentity d arguments) environment
              arguments)
      (fun w => (∀ m, layer d < m → Hidden scope layer c.frames m w.openReferences d ∨
          ¬ d.Faulty scope (Hidden scope layer c.frames m w.openReferences)) ∧
        (t.DenotesObject scope → t.Under scope layer n → w.IsObject) ∧ PointsToObjects scope w)
      (fun e => e.IsLimit ∨ d.Faulty scope Nowhere) := by
  have hd := Scope.mem_of_declaration? ht
  have hobject : ∀ {w : WireType}, t.DenotesObject scope →
      ((d.body.fields?.isSome = true ∨ ∃ u, d.body = .synonym u ∧ u.DenotesObject scope) →
        w.IsObject) → w.IsObject := by
    intro w hdenotes hw
    cases hdenotes with
    | object => cases ht
    | intersection => cases ht
    | declared he hsome =>
      obtain rfl := Option.some.inj (ht.symm.trans he)
      exact hw (.inl hsome)
    | synonym he hbody hu =>
      obtain rfl := Option.some.inj (ht.symm.trans he)
      exact hw (.inr ⟨_, hbody, hu⟩)
  cases hexp : c.isExpanding (instanceIdentity d arguments) with
  | true =>
    obtain ⟨f, hf, heq⟩ := List.any_eq_true.mp hexp
    rw [beq_iff_eq] at heq
    obtain ⟨e, he, hof⟩ := hroom.frames f hf
    obtain rfl := hs.wellNamed.eq_of_frame hd he hof heq
    refine .pure ⟨fun m hlt => .inl ⟨hd, hlt, f, hf, hof, by simp [WireType.openReferences, heq]⟩,
      fun _ hunder => ?_, fun b hb => ?_⟩
    · exact absurd (hunder.lt ht) (Nat.not_lt.mpr (hroom.above f hf _ he hof))
    · have hb' : b = instanceIdentity e arguments := by
        cases hb with
        | here => rfl
        | child hv => cases hv
      refine ⟨e, he, ?_, arguments, hb'⟩
      rw [Option.isSome_iff_ne_none]
      intro hnone
      exact absurd ((hroom.synonyms f hf e he hof hnone).lt ht) (Nat.lt_irrefl _)
  | false =>
    have hfresh : ∀ f ∈ c.frames, f.identity ≠ instanceIdentity d arguments := by
      intro f hf heq
      have hany := List.any_eq_false.mp hexp f hf
      simp [heq] at hany
    refine Keeps.bind (steady_remembered? c _) fun found hfound => ?_
    cases found with
    | some w =>
      have hknown := (hfound w rfl).2
      obtain ⟨hsound, hkind⟩ := hknown.declared d hd arguments rfl
      refine .pure ⟨fun m _ => .inr fun hfaulty => hsound (hfaulty.mono fun _ h => h.elim),
        fun hdenotes _ => hobject hdenotes fun hbody => ?_, hknown.back⟩
      rcases hkind with ⟨_, hw⟩ | ⟨members, henum⟩
      · exact hw
      · rcases hbody with hsome | ⟨u, hu, _⟩
        · simp [henum, TypeBody.fields?] at hsome
        · simp [henum] at hu
    | none =>
      refine (h.expandInstance hs hroom ht hbound harguments hfresh).weaken fun w hw =>
        ⟨fun m hlt => .inr fun hfaulty => hw.sound (hfaulty.cut.mono ?_),
          fun hdenotes _ => hobject hdenotes hw.object, hw.back⟩
      rintro e (rfl | ⟨he, hle, hf⟩)
      · exact .inl rfl
      · exact .inr ⟨he, hle.trans_le hlt, hf⟩

end

theorem resolveDeclaration (h : Settles scope layer resolve) (hs : scope.Layered layer) {name : String}
    {args : List TypeExpr} (hplace : Placed scope layer n c (.reference name args))
    (hkept : scope.options.nameOnly.contains name = false)
    (hd : lookupType scope.types name = some d) :
    Steady (Cache.Records (Known scope)) c (resolveDeclaration scope resolve d args)
      (Found scope layer n c.frames (.reference name args)) (Explains scope (.reference name args)) := by
  have ht : scope.declaration? (.reference name args) = some d := by
    rw [Scope.declaration?_free hkept, hd]
  have hmem := Scope.mem_of_declaration? ht
  unfold Resolve.resolveDeclaration
  split
  · rename_i hlt
    exact .throw (.inr (.inl (.here (.tooManyArguments ht hlt))))
  rename_i hlength
  have harguments : ∀ a ∈ args, Placed scope layer n c a ∧ a.Under scope layer n := fun a ha =>
    ⟨hplace.part (.argument hkept ha), hplace.fits.opened (by simp [TypeExpr.opened, ht, ha])⟩
  have hdefaults : ∀ p ∈ d.parameters, ∀ u, p.default = some u → u ∈ d.defaults := fun p hp u hu =>
    List.mem_filterMap.mpr ⟨p, hp, hu⟩
  refine Keeps.bind ((h.bindParameters (d.parameters.map (·.name)) hplace.above d.parameters args []
    (Nat.not_lt.mp hlength) harguments (fun p hp => List.mem_map_of_mem hp)
    (fun p hp u hu environment hbound => hplace.default hs hmem ht hbound (hdefaults p hp u hu))
    (.empty _)).mono (fun _ hr => hr) ?_) ?_
  · rintro e (⟨a, ha, he⟩ | ⟨p, hp, u, hu, he⟩)
    · exact he.part (.argument hkept ha)
    · refine he.imp_right fun he => .inl (.default ht hp hu (he.resolve_right fun htidy => htidy ?_))
      exact (hs.keeps d hmem).tidy u
        (List.mem_append_right _ (hdefaults p (List.mem_of_mem_drop hp) u hu))
  · rintro ⟨environment, values⟩ ⟨hclean, hdefs, hvalues, hbound⟩
    refine Steady.get fun _ => (h.resolveInstance hs hplace.toRoom ht hbound hvalues).mono ?_ ?_
    · rintro w ⟨hsound, hobject, hback⟩
      refine ⟨fun m hm => ?_, hobject, hback⟩
      refine TypeExpr.Faulty.not_of_declaration ht (Nat.not_lt.mp hlength)
        (fun a ha hfaulty => hclean a ha (hfaulty.mono fun _ h => h.elim))
        (fun p hp u hu hfaulty => hdefs p hp u hu (hfaulty.mono fun _ h => h.elim))
        (hsound m (hm.lt ht))
    · intro e he
      refine he.imp_right fun hfaulty => .inl ?_
      rcases hfaulty with henum | ⟨u, hu, hfaulty⟩
      · exact .enumeration ht id henum
      · exact .inside ht id hu hfaulty

/-! ## Other references -/

theorem resolveBuiltin (h : Settles scope layer resolve) {name : String} {args : List TypeExpr}
    (hplace : Placed scope layer n c (.reference name args))
    (hkept : scope.options.nameOnly.contains name = false)
    (hd : lookupType scope.types name = none) :
    Steady (Cache.Records (Known scope)) c (resolveBuiltin resolve name args)
      (Found scope layer n c.frames (.reference name args)) (Explains scope (.reference name args)) := by
  have hnone : scope.declaration? (.reference name args) = none := by
    rw [Scope.declaration?_free hkept, hd]
  have hunknown : ∀ e, (∀ b, builtin? name = some b → args.length ≠ b.arity) →
      Explains scope (.reference name args) e :=
    fun e hb => .inr (.inl (.here (.unknown hkept hd hb)))
  unfold Resolve.resolveBuiltin
  cases hb : builtin? name with
  | none => exact .throw (hunknown _ (by simp [hb]))
  | some b =>
    dsimp only
    split
    · rename_i harity
      have hargs := Keeps.mapM args fun a ha =>
        (h n c a (hplace.part (.argument hkept ha))).mono (fun _ hw => hw)
          fun e he => he.part (.argument hkept ha)
      refine hargs.bind fun ws hws => .pure ?_
      have hlength : ws.length = b.arity := by rw [← hws.length_eq, harity]
      refine .of_list hnone ?_ (by simp) (by simp) (fun u hu => ?_) hws (fun w hw i hmem => ?_) ?_
      · rintro (_ | _ | _ | _ | ⟨he, _⟩ | ⟨_, _, hunknown⟩)
        · rw [hnone] at he
          cases he
        · exact hunknown b hb harity
      · cases hu with
        | argument _ ha => exact ha
      · exact WireType.mem_openReferences_of_child (b.mem_children_apply name hlength hw) hmem
          (b.apply_ne_object name)
      · refine .of_children (b.apply_ne_back name) fun v hv => ?_
        obtain ⟨_, _, hfound⟩ := exists_of_mem_right hws (b.mem_of_mem_children_apply name hv)
        exact hfound.back
    · rename_i harity
      refine .throw (hunknown _ fun b' hb' => ?_)
      rw [hb] at hb'
      exact Option.some.inj hb' ▸ harity

theorem resolveGlobal (h : Settles scope layer resolve) (hs : scope.Layered layer) {name : String}
    {args : List TypeExpr} (hplace : Placed scope layer n c (.reference name args)) :
    Steady (Cache.Records (Known scope)) c (resolveGlobal scope resolve name args)
      (Found scope layer n c.frames (.reference name args)) (Explains scope (.reference name args)) := by
  cases hkept : scope.options.nameOnly.contains name with
  | true =>
    have hnone := Scope.declaration?_kept hkept args
    rw [resolveGlobal_unexpanded _ _ _ _ hkept]
    refine .pure (.leaf hnone ?_ ?_ (by simp) (by simp) (by simp) (by simp [WireType.children]))
    · rintro (_ | _ | _ | _ | ⟨he, _⟩ | ⟨hnot, _, _⟩)
      · simp [hnone] at he
      · rw [hkept] at hnot
        cases hnot
    · intro u hu
      cases hu with
      | argument hnot _ =>
        rw [hkept] at hnot
        cases hnot
  | false =>
    cases hd : lookupType scope.types name with
    | some d =>
      rw [resolveGlobal_declared _ _ _ _ hkept hd]
      exact h.resolveDeclaration hs hplace hkept hd
    | none =>
      rw [resolveGlobal_builtin _ _ _ _ hkept hd]
      exact h.resolveBuiltin hplace hkept hd

theorem resolveReference (h : Settles scope layer resolve) (hs : scope.Layered layer) {name : String}
    {args : List TypeExpr} (hplace : Placed scope layer n c (.reference name args)) :
    Steady (Cache.Records (Known scope)) c (resolveReference scope resolve name args)
      (Found scope layer n c.frames (.reference name args)) (Explains scope (.reference name args)) := by
  cases args with
  | nil =>
    have hunbound : c.environment.get? name = none :=
      (Table.get?_eq_none_iff _ _).mpr (hplace.avoids.self name rfl)
    rw [resolveReference_bare]
    refine Keeps.bind (Q := fun found => found = none) (Steady.get fun _ => .pure hunbound)
      fun found hfound => ?_
    subst hfound
    exact h.resolveGlobal hs hplace
  | cons a args =>
    rw [resolveReference_applied _ _ _ (List.cons_ne_nil a args)]
    exact h.resolveGlobal hs hplace

/-! ## Type expressions -/

theorem pointsToObjects_unionOf {ts : List TypeExpr} {ws : List WireType}
    (h : List.Forall₂ (Found scope layer n frames) ts ws) : PointsToObjects scope (.unionOf ws) := by
  intro b hb
  obtain ⟨w, hw, hb⟩ := hb.of_unionOf
  obtain ⟨_, _, hfound⟩ := exists_of_mem_right h hw
  exact hfound.back b hb

/-- A list of types is found to have no fault but through the open references of any of them. -/
theorem resolveList (h : Settles scope layer resolve) {ts : List TypeExpr}
    (hparts : ∀ u ∈ ts, t.Part scope u) (hplace : Placed scope layer n c t) :
    Steady (Cache.Records (Known scope)) c (ts.mapM resolve)
      (List.Forall₂ (Found scope layer n c.frames) ts) (Explains scope t) :=
  Keeps.mapM ts fun u hu => (h n c u (hplace.part (hparts u hu))).mono (fun _ hw => hw)
    fun _ he => he.part (hparts u hu)

/-- An inline object in a declaration is the expansion of none around it, unless it leads only further
down. -/
theorem found_inlineObject (hs : scope.Layered layer) {fs : List (FieldDecl TypeExpr)}
    (hplace : Placed scope layer n c (.object fs)) {gs : List (Field WireType)}
    (hgs : List.Forall₂ (fun f g => g.name = f.name ∧
      Found scope layer n c.frames f.type.stripUndefined.1 g.type) fs gs) :
    Found scope layer n c.frames (.object fs) (.object c.inlineIdentity none [] gs) := by
  refine .of_parts rfl (by rintro ⟨⟩) (fun u hu m hm => ?_) (fun _ => ⟨_, _, _, _, rfl⟩)
    (.of_children (by simp) fun v hv => ?_)
  · cases hu with
    | @field _ f hf =>
      obtain ⟨g, hg, _, hfound⟩ := exists_of_mem_right hgs.flip hf
      by_cases hdown : c.frames ≠ [] ∧ c.fieldPath = []
      · have hunder := (hplace.down hdown.1 hdown.2).part (.field hf)
        exact fun hfaulty => hfound.clean hunder hplace.above (hfaulty.mono fun _ h => h.elim)
      · refine hfound.not_faulty (fun f' hf' hmem => ?_) m hm
        have hne : c.frames ≠ [] := List.ne_nil_of_mem hf'
        obtain ⟨top, rest, hframes⟩ := List.exists_cons_of_ne_nil hne
        obtain ⟨d, hd, htop⟩ := hplace.frames top (hframes ▸ List.mem_cons_self ..)
        obtain ⟨e, he, hof⟩ := hplace.frames f' hf'
        have hinline := hs.wellNamed.inlineIdentity_ne hframes hd htop he hof
          (fun hpath => hdown ⟨hne, hpath⟩) (hplace.plain hne).2
        exact WireType.mem_openReferences_object.mpr ⟨hinline.symm, .inr ⟨g, hg, hmem⟩⟩
  · obtain ⟨g, hg, rfl⟩ := List.mem_map.mp hv
    obtain ⟨_, _, _, hfound⟩ := exists_of_mem_right hgs hg
    exact hfound.back

/-- The members of an intersection lead only further down, so that they have no faults. -/
theorem resolveIntersection (h : Settles scope layer resolve) (text : String)
    {members : List TypeExpr} (hplace : Placed scope layer n c (.intersection members)) :
    Steady (Cache.Records (Known scope)) c (Resolve.resolveMembers resolve text members [])
      (fun r => ∀ identity name, Found scope layer n c.frames (.intersection members)
        (.object identity (some name) [] r.2.2)) (Explains scope (.intersection members)) := by
  have hmembers : ∀ m ∈ members, Placed scope layer n c m ∧ m.Under scope layer n := fun m hm =>
    ⟨hplace.part (.member hm), hplace.fits.opened hm⟩
  refine (h.resolveMembers text hmembers (by simp)).mono ?_ ?_
  · rintro r ⟨hclean, hgs⟩ identity name
    refine .of_parts rfl (by rintro ⟨⟩) (fun u hu m hm hfaulty => ?_) (fun _ => ⟨_, _, _, _, rfl⟩)
      (.of_children (by simp) fun v hv => ?_)
    · cases hu with
      | member hmember => exact hclean u hmember (hfaulty.mono fun _ h => h.elim)
    · obtain ⟨g, hg, rfl⟩ := List.mem_map.mp hv
      exact hgs g hg
  · rintro e ⟨m, hm, he | hnot⟩
    · exact he.part (.member hm)
    · exact .inr (.inr fun htidy => hnot (htidy.self m hm))

theorem resolveStep (h : Settles scope layer resolve) (hs : scope.Layered layer) :
    Settles scope layer (resolveStep scope resolve) := by
  intro n c t hplace
  cases t with
  | keyword name =>
    dsimp only [Resolve.resolveStep]
    cases hname : keywordPrimitive name with
    | ok p =>
      refine .pure (.leaf rfl ?_ (by rintro u ⟨⟩) (by simp) (by simp) (by simp) (by simp [WireType.children]))
      rintro ⟨hfault⟩
      simp [hname] at hfault
    | error reason => exact .throw (.inr (.inl (.here (.keyword hname))))
  | literal value =>
    dsimp only [Resolve.resolveStep]
    split
    · rename_i literal hliteral
      refine .pure (.leaf rfl ?_ (by rintro u ⟨⟩) (by simp) (by simp) (by simp) rfl)
      rintro (_ | ⟨hnone, _⟩)
      simp [hliteral] at hnone
    · refine .pure (.leaf rfl ?_ (by rintro u ⟨⟩) (by simp) (by simp) (by simp) rfl)
      rintro (_ | ⟨_, hnull⟩)
      exact hnull rfl
    · rename_i hnull hnone
      exact .throw (.inr (.inl (.here (.literal hnone hnull))))
  | array element =>
    have hplaced := (hplace.toRoom.part .element).push fun _ => (by decide : Plain "[]")
    refine Keeps.bind (Steady.inField ((h n _ element hplaced).mono (fun _ hw => hw)
      fun e he => he.part .element)) fun w hw => .pure ?_
    refine .of_list rfl (by rintro ⟨⟩) (by simp) (by simp) (fun u hu => ?_)
      (List.Forall₂.cons hw .nil) (by simp [WireType.openReferences])
      (.of_children (by simp) (by simpa [WireType.children] using hw.back))
    cases hu with
    | element => exact List.mem_singleton.mpr rfl
  | tuple elements =>
    cases elements with
    | nil => exact .throw (.inr (.inl (.here .emptyTuple)))
    | cons e es =>
      refine (h.resolveList (fun u hu => .component hu) hplace).bind fun ws hws => .pure ?_
      refine .of_list rfl (by rintro ⟨⟩) (by simp) (by simp) (fun u hu => ?_) hws
        (fun w hw i hmem => WireType.mem_openReferences_unionOf.mpr ⟨w, hw, hmem⟩)
        (.of_children (by simp) ?_)
      · cases hu with
        | component he => exact he
      · exact List.forall_mem_singleton.mpr (pointsToObjects_unionOf hws)
  | union members =>
    refine (h.resolveList (fun u hu => .alternative hu) hplace).bind fun ws hws => .pure ?_
    refine .of_list rfl (by rintro ⟨⟩) (by simp) (by simp) (fun u hu => ?_) hws
      (fun w hw i hmem => WireType.mem_openReferences_unionOf.mpr ⟨w, hw, hmem⟩)
      (pointsToObjects_unionOf hws)
    cases hu with
    | alternative hmember => exact hmember
  | intersection members =>
    exact (h.resolveIntersection _ hplace).bind fun r hr => .pure (hr _ _)
  | reference name arguments => exact h.resolveReference hs hplace
  | parameter name =>
    have hfound : ∀ w, PointsToObjects scope w → Found scope layer n c.frames (.parameter name) w :=
      fun w hw => .of_parts rfl (by rintro ⟨⟩) (by rintro u ⟨⟩)
        (fun hobject => absurd hobject (not_denotesObject rfl (by simp) (by simp))) hw
    refine Keeps.bind (Q := fun found => ∀ w ∈ found, PointsToObjects scope w)
      (Steady.get fun _ => .pure fun w hw => hplace.values _ (Table.mem_of_get? hw)) fun found hw => ?_
    cases found with
    | some w => exact .pure (hfound w (hw w rfl))
    | none => exact .pure (hfound _ (.of_children (by simp) (by simp [WireType.children])))
  | object fields =>
    exact Steady.get fun _ => (h.resolveFields hplace.toRoom).bind fun gs hgs =>
      .pure (found_inlineObject hs hplace hgs)
  | function parameters result => exact .throw (.inr (.inl (.here .function)))

end Settles

theorem resolveType_settles (hs : scope.Layered layer) (depth : Nat) :
    Settles scope layer (resolveType scope depth) := by
  induction depth with
  | zero => exact fun n c t _ => .throw (.inl trivial)
  | succ depth ih => exact ih.resolveStep hs

/-- Outside all declarations there is room for every type expression. -/
theorem exists_placed (scope : Scope) (layer : TypeDecl → Nat) (t : TypeExpr) (origin : String) :
    ∃ n, Placed scope layer n (.ofOrigin origin) t ∧ t.Under scope layer n := by
  have hbound : ∀ ds : List TypeDecl, ∃ n, ∀ d ∈ ds, layer d < n := by
    intro ds
    induction ds with
    | nil => exact ⟨0, by simp⟩
    | cons d ds ih =>
      obtain ⟨n, hn⟩ := ih
      refine ⟨max (layer d + 1) n, List.forall_mem_cons.mpr ⟨by omega, fun e he => ?_⟩⟩
      have := hn e he
      omega
  obtain ⟨n, hn⟩ := hbound scope.types
  have hunder : t.Under scope layer n :=
    TypeExpr.Everywhere.of_forall (fun u d hd => hn d (Scope.mem_of_declaration? hd)) t
  refine ⟨_, ⟨⟨.of_under hunder, ?_, ?_, ?_, ?_, ?_, ?_⟩, ?_⟩, hunder⟩
  · exact TypeExpr.Everywhere.of_forall (fun u name _ hmem => by cases hmem) t
  all_goals simp [Context.ofOrigin]

end Resolve

namespace Resolver

variable {types : List TypeDecl} {options : Options} {r : Resolver} {layer : TypeDecl → Nat}

/-- A call of a resolver finds out the faults of a type. -/
theorem resolve_settled (hs : r.scope.Layered layer) (hcache : r.cache.Records (Known r.scope))
    (depth : Nat) (t : TypeExpr) (origin : String) :
    (r.resolve depth t (.ofOrigin origin)).2.2.scope = r.scope ∧
      (r.resolve depth t (.ofOrigin origin)).2.2.cache.Records (Known r.scope) ∧
      match (r.resolve depth t (.ofOrigin origin)).1 with
      | .ok _ => ¬ t.Faulty r.scope Nowhere
      | .error e => Explains r.scope t e := by
  obtain ⟨n, hplace, hunder⟩ := exists_placed r.scope layer t origin
  have hsteady := resolveType_settles hs depth n (.ofOrigin origin) t hplace
  have hstate : (⟨r.cache, .ofOrigin origin⟩ : State).context = .ofOrigin origin ∧
      r.cache.Records (Known r.scope) := ⟨rfl, hcache⟩
  unfold Resolver.resolve
  cases h : resolveType r.scope depth t ⟨r.cache, .ofOrigin origin⟩ with
  | ok w s =>
    obtain ⟨⟨hcontext, hrecords⟩, hw⟩ := hsteady.ok hstate h
    simp only [hcontext, if_true]
    exact ⟨trivial, hrecords, hw.clean hunder (by simp [Context.ofOrigin])⟩
  | error e s =>
    obtain ⟨⟨hcontext, hrecords⟩, he⟩ := hsteady.error hstate h
    simp only [hcontext, if_true]
    exact ⟨trivial, hrecords, he⟩

theorem Reachable.records (h : Reachable types options r)
    (hs : Scope.Layered ⟨types, options⟩ layer) :
    r.scope = ⟨types, options⟩ ∧ r.cache.Records (Known ⟨types, options⟩) := by
  induction h with
  | fresh => exact ⟨rfl, Cache.records_empty⟩
  | resolve depth t origin _ ih =>
    obtain ⟨hscope, hcache⟩ := ih
    rw [← hscope] at hs hcache
    obtain ⟨hsame, hnext, _⟩ := resolve_settled hs hcache depth t origin
    exact ⟨hsame.trans hscope, hscope ▸ hnext⟩
  | reset _ ih => exact ⟨ih.1, Cache.records_empty⟩

/-- With whatever history, a type is resolved only if no fault can be reached from it, and given up
only if one can, or if a limit is met. -/
theorem Reachable.verdict (h : Reachable types options r) (hs : Scope.Layered ⟨types, options⟩ layer)
    (depth : Nat) (t : TypeExpr) (origin : String) :
    match (r.resolve depth t (.ofOrigin origin)).1 with
    | .ok _ => ¬ t.Faulty ⟨types, options⟩ Nowhere
    | .error e => Explains ⟨types, options⟩ t e := by
  obtain ⟨hscope, hcache⟩ := h.records hs
  rw [← hscope] at hs hcache ⊢
  exact (resolve_settled hs hcache depth t origin).2.2

theorem Reachable.resolves_iff_not_faulty (h : Reachable types options r)
    (hs : Scope.Layered ⟨types, options⟩ layer) {t : TypeExpr} (ht : t.Tidy ⟨types, options⟩)
    {depth : Nat} {origin : String}
    (hlimit : ∀ e, (r.resolve depth t (.ofOrigin origin)).1 = .error e → ¬ e.IsLimit) :
    (∃ w, (r.resolve depth t (.ofOrigin origin)).1 = .ok w) ↔
      ¬ t.Faulty ⟨types, options⟩ Nowhere := by
  have hverdict := h.verdict hs depth t origin
  cases hresult : (r.resolve depth t (.ofOrigin origin)).1 with
  | ok w =>
    rw [hresult] at hverdict
    exact ⟨fun _ => hverdict, fun _ => ⟨w, rfl⟩⟩
  | error e =>
    rw [hresult] at hverdict
    have hfaulty : t.Faulty ⟨types, options⟩ Nowhere := by
      rcases hverdict with he | hfaulty | hnot
      · exact absurd he (hlimit e hresult)
      · exact hfaulty
      · exact absurd ht hnot
    exact ⟨by simp, fun hnot => absurd hfaulty hnot⟩

/-- Where the declarations are in layers, what has been resolved before makes no difference to whether
a type is resolved, unless a limit is met. -/
theorem Reachable.resolves_iff_fresh_resolves (h : Reachable types options r)
    (hs : Scope.Layered ⟨types, options⟩ layer) {t : TypeExpr} (ht : t.Tidy ⟨types, options⟩)
    {depth depth' : Nat} {origin origin' : String}
    (hlimit : ∀ e, (r.resolve depth t (.ofOrigin origin)).1 = .error e → ¬ e.IsLimit)
    (hfresh : ∀ e, ((Resolver.fresh types options).resolve depth' t (.ofOrigin origin')).1 = .error e →
      ¬ e.IsLimit) :
    (∃ w, (r.resolve depth t (.ofOrigin origin)).1 = .ok w) ↔
      ∃ w, ((Resolver.fresh types options).resolve depth' t (.ofOrigin origin')).1 = .ok w :=
  (h.resolves_iff_not_faulty hs ht hlimit).trans (Reachable.fresh.resolves_iff_not_faulty hs ht hfresh).symm

/-- An interface, one that inherits its field and refers to a third, and that one, which refers back. -/
def linked : List TypeDecl :=
  let span : Span := ⟨"m.ts", .zero, .zero⟩
  [⟨"Entity", "m.ts#Entity", [],
      .interface [] [⟨"id", .keyword "string", false, none, none, span⟩], span⟩,
    ⟨"User", "m.ts#User", [], .interface [.reference "Entity" []]
      [⟨"posts", .array (.reference "Post" []), false, none, none, span⟩], span⟩,
    ⟨"Post", "m.ts#Post", [],
      .interface [] [⟨"author", .reference "User" [], false, none, none, span⟩], span⟩]

def linkedLayer (d : TypeDecl) : Nat := if d.name = "Entity" then 0 else 1

theorem linked_layered : Scope.Layered ⟨linked, .default⟩ linkedLayer where
  wellNamed := ⟨by simp [linked], by decide, by decide⟩
  keeps := by
    have hopened : ∀ d ∈ linked, ∀ u ∈ d.body.opened,
        (Scope.declaration? ⟨linked, .default⟩ u).any (·.body.fields?.isSome) = true := by decide
    have hmembers : ∀ d ∈ linked, ∀ u ∈ d.body.needs ++ d.defaults,
        u.Everywhere fun v => v.members = [] := by decide
    exact fun d hd => {
      fields := by revert d; decide
      opened := by revert d; decide
      bases := by
        intro bases fs hbody u hu
        obtain ⟨e, he, hfields⟩ := (Option.any_eq_true _ _).mp (hopened d hd u (by rwa [hbody]))
        exact .declared he hfields
      distinct := by revert d; decide
      tidy := fun u hu => .of_members_eq_nil (hmembers d hd u hu)
      avoids := by revert d; decide
      plain := by revert d; decide }

/-- A post and its author are resolved in either order. -/
theorem resolves_linked :
    let used := ((fresh linked .default).resolve 9 (.reference "Post" []) (.ofOrigin "probe")).2.2
    let t := TypeExpr.reference "User" []
    Reachable linked .default used ∧
      ((∃ w, (used.resolve 9 t (.ofOrigin "probe")).1 = .ok w) ↔
        ∃ w, ((fresh linked .default).resolve 9 t (.ofOrigin "probe")).1 = .ok w) := by
  refine ⟨.resolve _ _ _ .fresh, ?_⟩
  refine Reachable.resolves_iff_fresh_resolves (.resolve _ _ _ .fresh) linked_layered
    (.of_members_eq_nil (by decide)) ?_ ?_ <;>
  · rintro e ⟨⟩

/-- An interface with a base type that refers back to it. -/
def extending : List TypeDecl :=
  let span : Span := ⟨"m.ts", .zero, .zero⟩
  [⟨"A", "m.ts#A", [], .interface [.reference "B" []] [], span⟩,
    ⟨"B", "m.ts#B", [],
      .interface [] [⟨"a", .reference "A" [], false, none, none, span⟩], span⟩]

/-- Without layers it does make a difference: the base type is resolved only after the interface. -/
theorem resolves_extending :
    let used := ((fresh extending .default).resolve 9 (.reference "A" []) (.ofOrigin "probe")).2.2
    Reachable extending .default used ∧
      (∃ w, (used.resolve 9 (.reference "B" []) (.ofOrigin "probe")).1 = .ok w) ∧
      ((fresh extending .default).resolve 9 (.reference "B" []) (.ofOrigin "probe")).1 =
        .error (.unsupported ⟨"A", .baseNotObject "B"⟩) :=
  ⟨.resolve _ _ _ .fresh, ⟨_, rfl⟩, rfl⟩

end Resolver

end AnnotatedApi
