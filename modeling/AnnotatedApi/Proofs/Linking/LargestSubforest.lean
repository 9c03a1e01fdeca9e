import AnnotatedApi.Proofs.Linking.Consistency

/-!
# The largest consistent part of a forest

Linking takes classes and methods away until a pass finds nothing wrong. A node of a consistent part
of the forest has all that it needs there, so it has it in every larger part too: no pass takes it
away. What is left at the end is therefore the largest consistent part, and the only one that is.
-/

namespace AnnotatedApi

set_option autoImplicit false

/-! ## Parts of a forest -/

/-- The second list without some of its methods. -/
inductive WithoutMethods : List MemberNode → List MemberNode → Prop where
  | nil : WithoutMethods [] []
  | keep (m : MemberNode) {ns ms : List MemberNode} :
    WithoutMethods ns ms → WithoutMethods (m :: ns) (m :: ms)
  | drop {m : MemberNode} {ns ms : List MemberNode} :
    m.isMethod = true → WithoutMethods ns ms → WithoutMethods ns (m :: ms)

/-- The second forest without some of its classes, and the others without some of their methods. -/
inductive SubForest : Forest → Forest → Prop where
  | nil : SubForest [] []
  | keep (c : ClassNode) {ns : List MemberNode} {g f : Forest} :
    WithoutMethods ns c.members → SubForest g f →
      SubForest ({ c with members := ns } :: g) (c :: f)
  | drop (c : ClassNode) {g f : Forest} : SubForest g f → SubForest g (c :: f)

namespace WithoutMethods

variable {ks ns ms : List MemberNode}

theorem refl (ms : List MemberNode) : WithoutMethods ms ms := by
  induction ms with
  | nil => exact .nil
  | cons m ms ih => exact .keep m ih

theorem trans (h₁ : WithoutMethods ks ns) (h₂ : WithoutMethods ns ms) : WithoutMethods ks ms := by
  induction h₂ generalizing ks with
  | nil => exact h₁
  | keep m _ ih =>
    cases h₁ with
    | keep _ h => exact .keep m (ih h)
    | drop hm h => exact .drop hm (ih h)
  | drop hm _ ih => exact .drop hm (ih h₁)

theorem sublist (h : WithoutMethods ns ms) : ns.Sublist ms := by
  induction h with
  | nil => exact .slnil
  | keep m _ ih => exact ih.cons_cons m
  | drop _ _ ih => exact ih.cons _

theorem split (h : WithoutMethods ns ms) {as bs : List MemberNode} {m : MemberNode}
    (hms : ms = as ++ m :: bs) (hm : m.isMethod = false) :
    ∃ cs ds, ns = cs ++ m :: ds ∧ cs.Sublist as ∧ ds.Sublist bs := by
  induction h generalizing as with
  | nil => simp at hms
  | keep k h ih =>
    rcases List.cons_eq_append_iff.mp hms with ⟨rfl, heq⟩ | ⟨as', rfl, hms'⟩
    · obtain ⟨rfl, rfl⟩ := List.cons_eq_cons.mp heq
      exact ⟨[], _, rfl, .slnil, h.sublist⟩
    · obtain ⟨cs, ds, rfl, hcs, hds⟩ := ih hms'
      exact ⟨k :: cs, ds, rfl, hcs.cons_cons k, hds⟩
  | drop hk h ih =>
    rcases List.cons_eq_append_iff.mp hms with ⟨rfl, heq⟩ | ⟨as', rfl, hms'⟩
    · obtain ⟨rfl, rfl⟩ := List.cons_eq_cons.mp heq
      simp [hm] at hk
    · obtain ⟨cs, ds, rfl, hcs, hds⟩ := ih hms'
      exact ⟨cs, ds, rfl, hcs.cons _, hds⟩

end WithoutMethods

namespace SubForest

variable {e g f : Forest}

theorem refl (f : Forest) : SubForest f f := by
  induction f with
  | nil => exact .nil
  | cons c f ih => exact .keep c (.refl c.members) ih

theorem trans (h₁ : SubForest e g) (h₂ : SubForest g f) : SubForest e f := by
  induction h₂ generalizing e with
  | nil => exact h₁
  | keep c hm _ ih =>
    cases h₁ with
    | keep _ hk h => exact .keep c (hk.trans hm) (ih h)
    | drop _ h => exact .drop c (ih h)
  | drop c _ ih => exact .drop c (ih h₁)

theorem size_le (h : SubForest g f) : g.size ≤ f.size := by
  induction h with
  | nil => exact Nat.le_refl _
  | keep c hm _ ih =>
    have hl := hm.sublist.length_le
    simp only [Forest.size_cons]
    omega
  | drop c _ ih =>
    rw [Forest.size_cons]
    omega

theorem eq_of_size_le (h : SubForest g f) (hs : f.size ≤ g.size) : g = f := by
  induction h with
  | nil => rfl
  | keep c hm h ih =>
    have hl := hm.sublist.length_le
    have hg := h.size_le
    simp only [Forest.size_cons] at hs
    rw [hm.sublist.eq_of_length_le (by omega), ih (by omega)]
  | drop c h _ =>
    have hg := h.size_le
    rw [Forest.size_cons] at hs
    omega

theorem antisymm (h₁ : SubForest g f) (h₂ : SubForest f g) : g = f :=
  h₁.eq_of_size_le h₂.size_le

theorem filter (p : ClassNode → Bool) (f : Forest) : SubForest (f.filter p) f := by
  induction f with
  | nil => exact .nil
  | cons c f ih =>
    by_cases hc : p c = true
    · rw [List.filter_cons_of_pos hc]
      exact .keep c (.refl c.members) ih
    · rw [List.filter_cons_of_neg hc]
      exact .drop c ih

theorem append {g' f' : Forest} (h : SubForest g f) (h' : SubForest g' f') :
    SubForest (g ++ g') (f ++ f') := by
  induction h with
  | nil => exact h'
  | keep c hm _ ih => exact .keep c hm ih
  | drop c _ ih => exact .drop c ih

theorem sites_subset (h : SubForest g f) : g.map (·.site) ⊆ f.map (·.site) := by
  induction h with
  | nil => exact List.Subset.refl _
  | keep c _ _ ih => exact List.cons_subset_cons _ ih
  | drop c _ ih => exact fun s hs => List.mem_cons_of_mem _ (ih hs)

end SubForest

/-! ## A pass keeps every consistent part -/

theorem MemberNode.Fits.mono {m : MemberNode} {c c' : ClassNode} {others wider : List MemberNode}
    (h : m.Fits c' others) (hc : c.site = c'.site) (ho : others ⊆ wider) : m.Fits c wider := by
  have hroute : c.routeOf m = c'.routeOf m := by simp only [ClassNode.routeOf, hc]
  refine ⟨?_, ?_, ?_⟩
  · rw [hc]
    exact h.met.mono (List.Subset.refl _) (List.map_subset _ ho)
  · rw [hc]
    exact h.parameters
  · rw [hroute]
    exact h.routed

theorem ClassNode.Stands.mono {c : ClassNode} {ns : List MemberNode} {others wider : Forest}
    (h : { c with members := ns }.Stands others) (hm : WithoutMethods ns c.members)
    (ho : SubForest others wider) : c.Stands wider := by
  refine ⟨h.met.mono (List.Subset.refl _) ho.sites_subset, fun ms m ks hms hk => ?_⟩
  obtain ⟨cs, ds, rfl, hcs, hds⟩ := hm.split hms hk
  exact (h.constructors cs m ds rfl hk).mono rfl (hcs.append hds).subset

namespace Forest

variable {keep : NodePath → Bool}

theorem withoutMethods_keepFrom {p : Nat → Bool} (ms : List MemberNode) (i : Nat)
    (h : ∀ j m, ms[j]? = some m → p (i + j) = false → m.isMethod = true) :
    WithoutMethods (keepFrom p i ms) ms := by
  induction ms generalizing i with
  | nil => exact .nil
  | cons m ms ih =>
    have ht := ih (i + 1) fun j k hk hp =>
      h (j + 1) k (by simpa using hk) (by rw [show i + (j + 1) = i + 1 + j by omega]; exact hp)
    by_cases hp : p i = true
    · rw [keepFrom, if_pos hp]
      exact .keep m ht
    · rw [keepFrom, if_neg hp]
      exact .drop (h 0 m rfl (by simpa using hp)) ht

theorem subForest_restrictFrom (f : Forest) (i : Nat)
    (h : ∀ a c, f[a]? = some c → ∀ j m, c.members[j]? = some m → keep [i + a, j] = false →
      m.isMethod = true) :
    SubForest (restrictFrom keep i f) f := by
  induction f generalizing i with
  | nil => exact .nil
  | cons c f ih =>
    have ht := ih (i + 1) fun a c' hc j m hm hk =>
      h (a + 1) c' (by simpa using hc) j m hm (by rw [show i + (a + 1) = i + 1 + a by omega]; exact hk)
    have hm := withoutMethods_keepFrom (p := fun j => keep [i, j]) c.members 0 fun j m hj hk =>
      h 0 c rfl j m hj (by simpa using hk)
    by_cases hk : keep [i] = true
    · rw [restrictFrom, if_pos hk]
      exact .keep c hm ht
    · rw [restrictFrom, if_neg hk]
      exact .drop c ht

theorem withoutMethods_kept {p : Nat → Bool} {ns ms : List MemberNode} (h : WithoutMethods ns ms)
    (i : Nat) (hp : ∀ as m bs cs ds, ms = as ++ m :: bs → ns = cs ++ m :: ds → cs.Sublist as →
      ds.Sublist bs → p (i + as.length) = true) : WithoutMethods ns (keepFrom p i ms) := by
  induction h generalizing i with
  | nil => exact .nil
  | keep m h ih =>
    have hi : p i = true := hp [] m _ [] _ rfl rfl .slnil h.sublist
    rw [keepFrom, if_pos hi]
    refine .keep m (ih (i + 1) fun as k bs cs ds hms hns hcs hds => ?_)
    have := hp (m :: as) k bs (m :: cs) ds (by rw [hms]; rfl) (by rw [hns]; rfl) (hcs.cons_cons m) hds
    rwa [List.length_cons, show i + (as.length + 1) = i + 1 + as.length by omega] at this
  | @drop m ns ms hm h ih =>
    have ht := ih (i + 1) fun as k bs cs ds hms hns hcs hds => by
      have := hp (m :: as) k bs cs ds (by rw [hms]; rfl) hns (hcs.cons m) hds
      rwa [List.length_cons, show i + (as.length + 1) = i + 1 + as.length by omega] at this
    by_cases hi : p i = true
    · rw [keepFrom, if_pos hi]
      exact .drop hm ht
    · rw [keepFrom, if_neg hi]
      exact ht

theorem subForest_kept {g f : Forest} (h : SubForest g f) (i : Nat)
    (hk : ∀ fs c gs es ns ds, f = fs ++ c :: gs → g = es ++ { c with members := ns } :: ds →
      SubForest es fs → SubForest ds gs → WithoutMethods ns c.members →
      keep [i + fs.length] = true ∧
        WithoutMethods ns (keepFrom (fun j => keep [i + fs.length, j]) 0 c.members)) :
    SubForest g (restrictFrom keep i f) := by
  induction h generalizing i with
  | nil => exact .nil
  | @keep c ns g f hm h ih =>
    obtain ⟨hi, hns⟩ := hk [] c _ [] ns _ rfl rfl .nil h hm
    rw [List.length_nil, Nat.add_zero] at hi hns
    rw [restrictFrom, if_pos hi]
    refine .keep { c with members := _ } hns (ih (i + 1) fun fs c' gs es ns' ds hf hg hes hds hm' => ?_)
    have := hk (c :: fs) c' gs ({ c with members := ns } :: es) ns' ds (by rw [hf]; rfl) (by rw [hg]; rfl)
      (.keep c hm hes) hds hm'
    rwa [List.length_cons, show i + (fs.length + 1) = i + 1 + fs.length by omega] at this
  | @drop c g f h ih =>
    have ht := ih (i + 1) fun fs c' gs es ns' ds hf hg hes hds hm' => by
      have := hk (c :: fs) c' gs es ns' ds (by rw [hf]; rfl) hg (.drop c hes) hds hm'
      rwa [List.length_cons, show i + (fs.length + 1) = i + 1 + fs.length by omega] at this
    by_cases hi : keep [i] = true
    · rw [restrictFrom, if_pos hi]
      exact .drop _ ht
    · rw [restrictFrom, if_neg hi]
      exact ht

theorem subForest_filter {g f : Forest} (h : SubForest g f) (hg : ∀ c ∈ g, c.hasMethod = true) :
    SubForest g (f.filter (·.hasMethod)) := by
  induction h with
  | nil => exact .nil
  | @keep c ns g f hm h ih =>
    have hmem : ∃ m ∈ ns, m.isMethod = true := by
      simpa [ClassNode.hasMethod] using hg _ (List.mem_cons_self ..)
    obtain ⟨m, hmns, hk⟩ := hmem
    have hc : c.hasMethod = true := List.any_eq_true.mpr ⟨m, hm.sublist.subset hmns, hk⟩
    rw [List.filter_cons_of_pos hc]
    exact .keep c hm (ih fun c' hc' => hg c' (List.mem_cons_of_mem _ hc'))
  | drop c h ih =>
    by_cases hc : c.hasMethod = true
    · rw [List.filter_cons_of_pos hc]
      exact .drop c (ih hg)
    · rw [List.filter_cons_of_neg hc]
      exact ih hg

theorem nil_notMem_removalPaths (f : Forest) : [] ∉ f.removalPaths := by
  intro h
  obtain ⟨r, hr, hnil⟩ := List.mem_map.mp h
  have hplace := hasPlace_of_mem_removals hr
  rw [hnil] at hplace
  exact hplace

theorem prune_subForest (f : Forest) : SubForest (f.prune f.removalPaths) f := by
  rw [prune_eq f _ (nil_notMem_removalPaths f)]
  refine (SubForest.filter _ _).trans (subForest_restrictFrom f 0 fun i c hc j m hm hk => ?_)
  obtain ⟨fs, gs, rfl, rfl⟩ := split_of_getElem? hc
  obtain ⟨ms, ns, hms, rfl⟩ := split_of_getElem? hm
  exact (not_fits_of_mem hms (by simpa using hk)).1

theorem link_subForest (f : Forest) : SubForest f.link.1.forest f := by
  induction f using link.induct with
  | case1 f h =>
    rw [link, if_pos h]
    exact .refl f
  | case2 f h ih =>
    rw [link, if_neg h]
    exact ih.trans (prune_subForest f)

/-- A pass leaves every consistent part of the forest alone: what a node of it needs is there, and
so it is in the whole. -/
theorem subForest_prune {g f : Forest} (h : SubForest g f) (hg : g.Consistent) :
    SubForest g (f.prune f.removalPaths) := by
  rw [prune_eq f _ (nil_notMem_removalPaths f)]
  refine subForest_filter (subForest_kept h 0 ?_) hg.hasMethod
  intro fs c gs es ns ds hf hsplit hes hds hm
  have hfits := hg.fits es _ ds hsplit
  rw [Nat.zero_add]
  subst hf
  -- A class or method of `g` fits in `g`, so it fits in `f`, and the pass does not remove it.
  constructor
  · have hstands : c.Stands (fs ++ gs) := hfits.toStands.mono hm (hes.append hds)
    have hkeep : [fs.length] ∉ removalPaths (fs ++ c :: gs) := fun hmem =>
      not_stands_of_mem hmem hstands
    simpa using hkeep
  · refine withoutMethods_kept hm 0 fun as m bs cs ks hms hns hcs hks => ?_
    rw [Nat.zero_add]
    have hkeep : [fs.length, as.length] ∉ removalPaths (fs ++ c :: gs) := by
      intro hmem
      obtain ⟨hk, hnot⟩ := not_fits_of_mem hms hmem
      exact hnot ((hfits.methods cs m ks hns hk).mono rfl (hcs.append hks).subset)
    simpa using hkeep

theorem hasMethod_of_mem_prune {f : Forest} {paths : List NodePath} {c : ClassNode}
    (h : c ∈ f.prune paths) : c.hasMethod = true := (List.mem_filter.mp h).2

/-! ## All passes -/

theorem link_spec (f : Forest) (hf : ∀ c ∈ f, c.hasMethod = true) :
    SubForest f.link.1.forest f ∧ f.link.1.forest.Consistent ∧
      ∀ g, SubForest g f → g.Consistent → SubForest g f.link.1.forest := by
  induction f using Forest.link.induct with
  | case1 f h =>
    -- The pass that finds nothing wrong is the last one.
    rw [link, if_pos h]
    exact ⟨.refl f, consistent_iff.mpr ⟨hf, h⟩, fun g hg _ => hg⟩
  | case2 f h ih =>
    obtain ⟨hsub, hcons, hmax⟩ := ih fun c hc => hasMethod_of_mem_prune hc
    rw [link, if_neg h]
    refine ⟨hsub.trans (prune_subForest f), hcons, fun g hg hc => ?_⟩
    exact hmax g (subForest_prune hg hc) hc

/-- Linking leaves the one largest consistent part of a forest. -/
theorem link_eq_largest (f : Forest) (hf : ∀ c ∈ f, c.hasMethod = true) (g : Forest) :
    g = f.link.1.forest ↔ SubForest g f ∧ g.Consistent ∧
      ∀ h, SubForest h f → h.Consistent → SubForest h g := by
  obtain ⟨hsub, hcons, hmax⟩ := link_spec f hf
  constructor
  · rintro rfl
    exact ⟨hsub, hcons, hmax⟩
  · rintro ⟨hgf, hgc, hgmax⟩
    exact (hmax g hgf hgc).antisymm (hgmax _ hsub hcons)

/-- A class with two methods, of which the second asks for a provider that is not there. -/
def unprovided : Forest :=
  let span : Span := ⟨"m.ts", .zero, .zero⟩
  let uses : Annotation.Definition :=
    { name := "Uses", targets := [.method], dependencies := [⟨.providerArgument 0, .enclosing⟩] }
  [⟨⟨"C", span, [], []⟩, "m.ts#C",
    [⟨.method (.primitive .void) none, ⟨"a", span, [], []⟩, []⟩,
      ⟨.method (.primitive .void) none, ⟨"b", span, [⟨uses, [.identifier "db"], span⟩], []⟩, []⟩]⟩]

theorem link_eq_largest_unprovided : (∀ c ∈ unprovided, c.hasMethod = true) ∧
    SubForest unprovided.link.1.forest unprovided ∧ unprovided.link.1.forest.Consistent ∧
      ∀ h, SubForest h unprovided → h.Consistent → SubForest h unprovided.link.1.forest :=
  ⟨by decide, (link_eq_largest unprovided (by decide) _).mp rfl⟩

end Forest

end AnnotatedApi
