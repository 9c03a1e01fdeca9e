import AnnotatedApi.Handlers.Node

/-!
# Pruning the forest

Pruning takes classes and members away by their paths, and then the classes that have no method
left. It works on indices, from the last path to the first; `prune_eq` says what it leaves without
them: everything whose path is not among the given ones, where it was. `size_prune_lt` says that a
path of the forest makes it smaller, which is what ends the linking of a forest.
-/

namespace AnnotatedApi

set_option autoImplicit false

namespace Forest

/-! ## Taking away -/

/-- Takes away the class or member at a path. -/
def removeAt (path : NodePath) (f : Forest) : Forest :=
  match path with
  | [i] => f.eraseIdx i
  | [i, j] => f.modify i fun c => { c with members := c.members.eraseIdx j }
  | _ => f

/-- The paths that are not below another of them, in order, each once. -/
def outermost (paths : List NodePath) : List NodePath :=
  let sorted := (paths.mergeSort fun p q => (NodePath.order p q).isLE).eraseDups
  sorted.filter fun p => !sorted.any fun q => q != p && p.isWithin q

/-- Takes away the classes and members at some paths, from the last to the first so that the
others stay where they are, and then the classes without a method. -/
def prune (f : Forest) (paths : List NodePath) : Forest :=
  ((outermost paths).foldr removeAt f).filter (·.hasMethod)

end Forest

/-! ## Keeping by place -/

section Keeping

variable {α : Type}

/-- The elements whose place is kept; the first place is `i`. -/
def keepFrom (keep : Nat → Bool) : Nat → List α → List α
  | _, [] => []
  | i, a :: l => if keep i then a :: keepFrom keep (i + 1) l else keepFrom keep (i + 1) l

theorem keepFrom_congr {keep kept : Nat → Bool} (l : List α) (i : Nat)
    (h : ∀ k, i ≤ k → keep k = kept k) : keepFrom keep i l = keepFrom kept i l := by
  induction l generalizing i with
  | nil => rfl
  | cons a l ih =>
    simp only [keepFrom]
    rw [h i (Nat.le_refl i), ih (i + 1) fun k hk => h k (by omega)]

theorem keepFrom_all {keep : Nat → Bool} (h : ∀ k, keep k = true) (l : List α) (i : Nat) :
    keepFrom keep i l = l := by
  induction l generalizing i with
  | nil => rfl
  | cons a l ih => simp [keepFrom, h i, ih (i + 1)]

theorem eraseIdx_keepFrom {keep : Nat → Bool} (l : List α) (i j : Nat)
    (h : ∀ k, i ≤ k → k ≤ i + j → keep k = true) :
    (keepFrom keep i l).eraseIdx j = keepFrom (fun k => keep k && k != i + j) i l := by
  induction l generalizing i j with
  | nil => rfl
  | cons a l ih =>
    have hi : keep i = true := h i (Nat.le_refl i) (Nat.le_add_right i j)
    cases j with
    | zero =>
      simp only [keepFrom, hi, if_true, List.eraseIdx_cons_zero, Nat.add_zero, bne_self_eq_false,
        Bool.and_false, Bool.false_eq_true, if_false]
      refine keepFrom_congr l (i + 1) fun k hk => ?_
      have hne : k ≠ i := by omega
      simp [hne]
    | succ j =>
      have ht := ih (i + 1) j fun k hk hkj => h k (by omega) (by omega)
      rw [show i + 1 + j = i + (j + 1) by omega] at ht
      simp [keepFrom, hi, ht]

theorem length_keepFrom_le (keep : Nat → Bool) (l : List α) (i : Nat) :
    (keepFrom keep i l).length ≤ l.length := by
  induction l generalizing i with
  | nil => simp [keepFrom]
  | cons a l ih =>
    have := ih (i + 1)
    by_cases hk : keep i = true <;> simp [keepFrom, hk] <;> omega

theorem length_keepFrom_lt (keep : Nat → Bool) (l : List α) (i j : Nat) (hj : j < l.length)
    (h : keep (i + j) = false) : (keepFrom keep i l).length < l.length := by
  induction l generalizing i j with
  | nil => simp at hj
  | cons a l ih =>
    cases j with
    | zero =>
      rw [Nat.add_zero] at h
      have := length_keepFrom_le keep l (i + 1)
      simp [keepFrom, h]
      omega
    | succ j =>
      have hl : j < l.length := by simpa using hj
      have := ih (i + 1) j hl (by rw [show i + 1 + j = i + (j + 1) by omega]; exact h)
      by_cases hk : keep i = true <;> simp [keepFrom, hk] <;> omega

end Keeping

/-! ## The order of paths -/

namespace NodePath

theorem order_cons_lt {i j : Nat} {p q : NodePath} :
    order (i :: p) (j :: q) = .lt ↔ i < j ∨ i = j ∧ order p q = .lt := by
  rcases Nat.lt_trichotomy i j with h | h | h
  · simp [order, Nat.compare_eq_lt.mpr h, h]
  · subst h
    simp [order]
  · have hne : i ≠ j := by omega
    have hlt : ¬ i < j := by omega
    simp [order, Nat.compare_eq_gt.mpr h, hne, hlt]

theorem order_self (p : NodePath) : order p p = .eq := by
  induction p with
  | nil => rfl
  | cons i p ih => simp [order, ih]

theorem eq_of_order_eq {p q : NodePath} (h : order p q = .eq) : p = q := by
  induction p generalizing q with
  | nil =>
    cases q with
    | nil => rfl
    | cons j q => simp [order] at h
  | cons i p ih =>
    cases q with
    | nil => simp [order] at h
    | cons j q =>
      rcases Nat.lt_trichotomy i j with hij | hij | hij
      · simp [order, Nat.compare_eq_lt.mpr hij] at h
      · subst hij
        rw [ih (by simpa [order] using h)]
      · simp [order, Nat.compare_eq_gt.mpr hij] at h

theorem order_swap (p q : NodePath) : (order p q).swap = order q p := by
  induction p generalizing q with
  | nil => cases q <;> rfl
  | cons i p ih =>
    cases q with
    | nil => rfl
    | cons j q =>
      simp only [order]
      rw [← Nat.compare_swap i j]
      cases compare i j <;> simp [ih]

theorem order_lt_trans {p q r : NodePath} (hpq : order p q = .lt) (hqr : order q r = .lt) :
    order p r = .lt := by
  induction p generalizing q r with
  | nil =>
    cases r with
    | nil => cases q <;> simp [order] at hqr
    | cons k r => rfl
  | cons i p ih =>
    cases q with
    | nil => simp [order] at hpq
    | cons j q =>
      cases r with
      | nil => simp [order] at hqr
      | cons k r =>
        rw [order_cons_lt] at hpq hqr ⊢
        rcases hpq with hij | ⟨hij, hpq⟩ <;> rcases hqr with hjk | ⟨hjk, hqr⟩
        · exact .inl (by omega)
        · exact .inl (by omega)
        · exact .inl (by omega)
        · exact .inr ⟨by omega, ih hpq hqr⟩

theorem isLE_order_iff {p q : NodePath} : (order p q).isLE = true ↔ order p q = .lt ∨ p = q := by
  constructor
  · intro h
    cases hpq : order p q with
    | lt => exact .inl rfl
    | eq => exact .inr (eq_of_order_eq hpq)
    | gt => simp [hpq] at h
  · rintro (h | rfl)
    · simp [h]
    · simp [order_self]

end NodePath

/-! ## The outermost paths -/

namespace Forest

theorem pairwise_eraseDups {α : Type} [BEq α] [LawfulBEq α] {R : α → α → Prop} (l : List α)
    (h : l.Pairwise R) : l.eraseDups.Pairwise fun a b => R a b ∧ a ≠ b := by
  match l with
  | [] => simp
  | a :: l =>
    have hl := List.pairwise_cons.mp h
    rw [List.eraseDups_cons]
    refine List.pairwise_cons.mpr ⟨fun b hb => ?_, pairwise_eraseDups _ (hl.2.filter _)⟩
    have hb' := List.mem_filter.mp (List.mem_eraseDups.mp hb)
    have hne : b ≠ a := by simpa using hb'.2
    exact ⟨hl.1 b hb'.1, Ne.symm hne⟩
termination_by l.length
decreasing_by exact Nat.lt_succ_of_le (List.length_filter_le _ _)

theorem pairwise_outermost (paths : List NodePath) :
    (outermost paths).Pairwise fun p q => NodePath.order p q = .lt := by
  have hsorted : (paths.mergeSort fun p q => (NodePath.order p q).isLE).Pairwise
      fun p q => (NodePath.order p q).isLE = true := by
    apply List.pairwise_mergeSort
    · intro p q r hpq hqr
      rw [NodePath.isLE_order_iff] at hpq hqr ⊢
      rcases hpq with hpq | rfl
      · rcases hqr with hqr | rfl
        · exact .inl (NodePath.order_lt_trans hpq hqr)
        · exact .inl hpq
      · exact hqr
    · intro p q
      rw [← NodePath.order_swap p q]
      cases NodePath.order p q <;> rfl
  refine ((pairwise_eraseDups _ hsorted).imp ?_).filter _
  intro p q h
  rcases NodePath.isLE_order_iff.mp h.1 with hlt | heq
  · exact hlt
  · exact absurd heq h.2

theorem mem_outermost {paths : List NodePath} {p : NodePath} :
    p ∈ outermost paths ↔ p ∈ paths ∧ ∀ q ∈ paths, p.isWithin q = true → q = p := by
  simp only [outermost, List.mem_filter, List.mem_eraseDups, List.mem_mergeSort,
    Bool.not_eq_true', List.any_eq_false, Bool.and_eq_true, bne_iff_ne, not_and]
  refine and_congr_right fun _ => forall_congr' fun q => forall_congr' fun _ => ?_
  constructor
  · intro h hw
    exact Classical.byContradiction fun hne => h hne hw
  · intro h hne hw
    exact hne (h hw)

/-! ## What is left without some paths -/

/-- The classes and members whose path is kept; the index of the first class is `i`. A class that
is not kept takes its members with it. -/
def restrictFrom (keep : NodePath → Bool) : Nat → Forest → Forest
  | _, [] => []
  | i, c :: f =>
    if keep [i] then
      { c with members := keepFrom (fun j => keep [i, j]) 0 c.members } ::
        restrictFrom keep (i + 1) f
    else restrictFrom keep (i + 1) f

variable {keep kept : NodePath → Bool}

theorem restrictFrom_congr (f : Forest) (i : Nat) (hc : ∀ k, i ≤ k → keep [k] = kept [k])
    (hm : ∀ k, i ≤ k → keep [k] = true → ∀ j, keep [k, j] = kept [k, j]) :
    restrictFrom keep i f = restrictFrom kept i f := by
  induction f generalizing i with
  | nil => rfl
  | cons c f ih =>
    have ht := ih (i + 1) (fun k hk => hc k (by omega)) fun k hk => hm k (by omega)
    simp only [restrictFrom]
    rw [← hc i (Nat.le_refl i), ht]
    by_cases hi : keep [i] = true
    · rw [if_pos hi, if_pos hi, keepFrom_congr _ _ fun j _ => hm i (Nat.le_refl i) hi j]
    · rw [if_neg hi, if_neg hi]

theorem restrictFrom_all (h : ∀ p, keep p = true) (f : Forest) (i : Nat) :
    restrictFrom keep i f = f := by
  induction f generalizing i with
  | nil => rfl
  | cons c f ih => simp [restrictFrom, h [i], keepFrom_all fun j => h [i, j], ih (i + 1)]

theorem eraseIdx_restrictFrom (f : Forest) (i a : Nat)
    (h : ∀ k, i ≤ k → k ≤ i + a → keep [k] = true) :
    (restrictFrom keep i f).eraseIdx a = restrictFrom (fun q => keep q && q != [i + a]) i f := by
  induction f generalizing i a with
  | nil => rfl
  | cons c f ih =>
    have hi : keep [i] = true := h i (Nat.le_refl i) (Nat.le_add_right i a)
    cases a with
    | zero =>
      simp only [restrictFrom, hi, if_true, List.eraseIdx_cons_zero, Nat.add_zero,
        bne_self_eq_false, Bool.and_false, Bool.false_eq_true, if_false]
      refine restrictFrom_congr f (i + 1) (fun k hk => ?_) fun k hk _ j => ?_
      · have hne : k ≠ i := by omega
        simp [hne]
      · simp
    | succ a =>
      have ht := ih (i + 1) a fun k hk hka => h k (by omega) (by omega)
      have hj : (fun k => keep [i, k] && [i, k] != [i + (a + 1)]) = fun k => keep [i, k] := by
        funext k
        simp [bne]
      rw [show i + 1 + a = i + (a + 1) by omega] at ht
      simp [restrictFrom, hi, hj, ht]

theorem modify_restrictFrom (f : Forest) (i a j : Nat)
    (hc : ∀ k, i ≤ k → k ≤ i + a → keep [k] = true) (hm : ∀ k, k ≤ j → keep [i + a, k] = true) :
    (restrictFrom keep i f).modify a (fun c => { c with members := c.members.eraseIdx j }) =
      restrictFrom (fun q => keep q && q != [i + a, j]) i f := by
  induction f generalizing i a with
  | nil => cases a <;> rfl
  | cons c f ih =>
    have hi : keep [i] = true := hc i (Nat.le_refl i) (Nat.le_add_right i a)
    cases a with
    | zero =>
      rw [Nat.add_zero] at hm
      have he := eraseIdx_keepFrom c.members 0 j fun k _ hk => hm k (by omega)
      rw [Nat.zero_add] at he
      have ht : restrictFrom keep (i + 1) f =
          restrictFrom (fun q => keep q && q != [i, j]) (i + 1) f := by
        refine restrictFrom_congr f (i + 1) (fun k _ => by simp) fun k hk _ j' => ?_
        have hne : k ≠ i := by omega
        simp [hne]
      have hj : (fun k => keep [i, k] && [i, k] != [i, j]) = fun k => keep [i, k] && k != j := by
        funext k
        simp [bne]
      simp [restrictFrom, hi, he, ht, hj]
    | succ a =>
      have hne : i ≠ i + (a + 1) := by omega
      have hj : (fun k => keep [i, k] && [i, k] != [i + (a + 1), j]) = fun k => keep [i, k] := by
        funext k
        simp [bne]
      have ht := ih (i + 1) a (fun k hk hka => hc k (by omega) (by omega)) fun k hk => by
        rw [show i + 1 + a = i + (a + 1) by omega]
        exact hm k hk
      rw [show i + 1 + a = i + (a + 1) by omega] at ht
      simp [restrictFrom, hi, hj, ht]

/-- Taking a path away leaves it out, as long as all that is missing already comes after it. -/
theorem removeAt_restrictFrom (p : NodePath) (f : Forest)
    (h : ∀ q, keep q = false → NodePath.order p q = .lt) :
    removeAt p (restrictFrom keep 0 f) = restrictFrom (fun q => keep q && q != p) 0 f := by
  -- What comes before `p` is all there, so the indices of `p` still lead to it.
  have hkept : ∀ q, NodePath.order p q ≠ .lt → keep q = true := by
    intro q hq
    cases hk : keep q with
    | true => rfl
    | false => exact absurd (h q hk) hq
  match p with
  | [i] =>
    have hc : ∀ k, 0 ≤ k → k ≤ 0 + i → keep [k] = true := by
      intro k _ hk
      refine hkept [k] fun ho => ?_
      rw [NodePath.order_cons_lt, NodePath.order_self] at ho
      simp at ho
      omega
    simpa [removeAt] using eraseIdx_restrictFrom f 0 i hc
  | [i, j] =>
    have hc : ∀ k, 0 ≤ k → k ≤ 0 + i → keep [k] = true := by
      intro k _ hk
      refine hkept [k] fun ho => ?_
      rw [NodePath.order_cons_lt] at ho
      simp [NodePath.order] at ho
      omega
    have hm : ∀ k, k ≤ j → keep [0 + i, k] = true := by
      intro k hk
      refine hkept [0 + i, k] fun ho => ?_
      rw [Nat.zero_add, NodePath.order_cons_lt, NodePath.order_cons_lt, NodePath.order_self] at ho
      simp at ho
      omega
    simpa [removeAt] using modify_restrictFrom f 0 i j hc hm
  | [] =>
    refine restrictFrom_congr f 0 (fun k _ => ?_) fun k _ _ j => ?_ <;> simp
  | _ :: _ :: _ :: _ =>
    refine restrictFrom_congr f 0 (fun k _ => ?_) fun k _ _ j => ?_ <;> simp [bne]

theorem foldr_removeAt (paths : List NodePath)
    (h : paths.Pairwise fun p q => NodePath.order p q = .lt) (f : Forest) :
    paths.foldr removeAt f = restrictFrom (fun q => !paths.contains q) 0 f := by
  induction paths with
  | nil => exact (restrictFrom_all (by simp) f 0).symm
  | cons p paths ih =>
    have hp := List.pairwise_cons.mp h
    rw [List.foldr_cons, ih hp.2, removeAt_restrictFrom p f fun q hq => hp.1 q (by simpa using hq)]
    refine restrictFrom_congr f 0 (fun k _ => ?_) fun k _ _ j => ?_
    · rw [List.contains_cons, Bool.not_or, Bool.and_comm, bne]
    · rw [List.contains_cons, Bool.not_or, Bool.and_comm, bne]

/-- Pruning keeps what has no given path, and of that the classes with a method. -/
theorem prune_eq (f : Forest) (paths : List NodePath) (h : [] ∉ paths) :
    f.prune paths = (restrictFrom (fun q => !paths.contains q) 0 f).filter (·.hasMethod) := by
  rw [prune, foldr_removeAt _ (pairwise_outermost paths)]
  congr 1
  -- A path that is not among the outermost ones is below one of them, and gone with it.
  have hc : ∀ k, [k] ∈ outermost paths ↔ [k] ∈ paths := by
    intro k
    rw [mem_outermost]
    refine and_iff_left fun q hq hw => ?_
    match q with
    | [] => exact absurd hq h
    | [k'] => simpa [NodePath.isWithin] using hw
    | _ :: _ :: _ => simp [NodePath.isWithin] at hw
  refine restrictFrom_congr f 0 (fun k _ => ?_) fun k _ hk j => ?_
  · simp [hc k]
  · have hk' : [k] ∉ paths := by simpa [hc k] using hk
    have hj : [k, j] ∈ outermost paths ↔ [k, j] ∈ paths := by
      rw [mem_outermost]
      refine and_iff_left fun q hq hw => ?_
      match q with
      | [] => exact absurd hq h
      | [k'] =>
        have heq : k' = k := by simpa [NodePath.isWithin] using hw
        exact absurd (heq ▸ hq) hk'
      | [k', j'] => simpa [NodePath.isWithin] using hw
      | _ :: _ :: _ :: _ => simp [NodePath.isWithin] at hw
    simp [hj]

/-! ## Size -/

/-- Whether a path is that of a class or of a member. -/
def HasPlace (f : Forest) : NodePath → Prop
  | [i] => ∃ c, f[i]? = some c
  | [i, j] => ∃ m, f.member? i j = some m
  | _ => False

theorem size_cons (c : ClassNode) (f : Forest) : size (c :: f) = c.members.length + 1 + size f := rfl

theorem size_restrictFrom_cons (keep : NodePath → Bool) (c : ClassNode) (f : Forest) (i : Nat) :
    (restrictFrom keep i (c :: f)).size =
      (if keep [i] then (keepFrom (fun j => keep [i, j]) 0 c.members).length + 1 else 0) +
        (restrictFrom keep (i + 1) f).size := by
  by_cases hi : keep [i] = true <;> simp [restrictFrom, hi, size_cons]

theorem size_restrictFrom_le (keep : NodePath → Bool) (f : Forest) (i : Nat) :
    (restrictFrom keep i f).size ≤ f.size := by
  induction f generalizing i with
  | nil => exact Nat.le_refl _
  | cons c f ih =>
    have ht := ih (i + 1)
    have hm := length_keepFrom_le (fun j => keep [i, j]) c.members 0
    rw [size_restrictFrom_cons, size_cons]
    split <;> omega

theorem size_restrictFrom_lt_of_class (f : Forest) (i a : Nat) (c : ClassNode) (hc : f[a]? = some c)
    (h : keep [i + a] = false) : (restrictFrom keep i f).size < f.size := by
  induction f generalizing i a with
  | nil => simp at hc
  | cons c' f ih =>
    have hm := length_keepFrom_le (fun j => keep [i, j]) c'.members 0
    cases a with
    | zero =>
      rw [Nat.add_zero] at h
      have ht := size_restrictFrom_le keep f (i + 1)
      rw [size_restrictFrom_cons, size_cons, h]
      simp only [Bool.false_eq_true, if_false]
      omega
    | succ a =>
      have ht := ih (i + 1) a (by simpa using hc) (by rw [show i + 1 + a = i + (a + 1) by omega]; exact h)
      rw [size_restrictFrom_cons, size_cons]
      split <;> omega

theorem size_restrictFrom_lt_of_member (f : Forest) (i a j : Nat) (m : MemberNode)
    (hm : f.member? a j = some m) (h : keep [i + a, j] = false) :
    (restrictFrom keep i f).size < f.size := by
  induction f generalizing i a with
  | nil => simp [member?] at hm
  | cons c f ih =>
    have hl := length_keepFrom_le (fun j => keep [i, j]) c.members 0
    cases a with
    | zero =>
      rw [Nat.add_zero] at h
      have ht := size_restrictFrom_le keep f (i + 1)
      have hj : j < c.members.length := by
        have hj : c.members[j]? = some m := by simpa [member?] using hm
        exact (List.getElem?_eq_some_iff.mp hj).1
      have hlt := length_keepFrom_lt (fun j => keep [i, j]) c.members 0 j hj (by simpa using h)
      rw [size_restrictFrom_cons, size_cons]
      split <;> omega
    | succ a =>
      have ht := ih (i + 1) a (by simpa [member?] using hm)
        (by rw [show i + 1 + a = i + (a + 1) by omega]; exact h)
      rw [size_restrictFrom_cons, size_cons]
      split <;> omega

theorem size_filter_le (p : ClassNode → Bool) (f : Forest) : size (f.filter p) ≤ f.size := by
  induction f with
  | nil => exact Nat.le_refl _
  | cons c f ih =>
    by_cases hc : p c = true
    · rw [List.filter_cons_of_pos hc, size_cons, size_cons]
      omega
    · rw [List.filter_cons_of_neg hc, size_cons]
      omega

/-- Pruning a class or member of the forest makes it smaller. -/
theorem size_prune_lt (f : Forest) (paths : List NodePath) (h : ∀ p ∈ paths, f.HasPlace p)
    (hne : paths ≠ []) : (f.prune paths).size < f.size := by
  have hnil : [] ∉ paths := fun hp => h [] hp
  rw [prune_eq f paths hnil]
  refine Nat.lt_of_le_of_lt (size_filter_le _ _) ?_
  obtain ⟨p, hp⟩ := List.exists_mem_of_ne_nil paths hne
  have hplace := h p hp
  have hkeep : (!paths.contains p) = false := by simp [hp]
  match p, hplace with
  | [i], ⟨c, hc⟩ =>
    exact size_restrictFrom_lt_of_class f 0 i c hc (by rw [Nat.zero_add]; exact hkeep)
  | [i, j], ⟨m, hm⟩ =>
    exact size_restrictFrom_lt_of_member f 0 i j m hm (by rw [Nat.zero_add]; exact hkeep)

end Forest

end AnnotatedApi
