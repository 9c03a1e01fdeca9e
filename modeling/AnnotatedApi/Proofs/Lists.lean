import Mathlib.Data.List.Forall2

/-!
# What is left of a list

Filters are moved through the ways in which lists are put together, repeated elements are dropped, and
what a pass keeps of a list is traced back to what it stems from, element by element and in order.
-/

namespace AnnotatedApi

set_option autoImplicit false

variable {α β γ : Type}

/-! ## Filters -/

theorem filter_flatMap_eq {l : List α} {A : α → List β} {p : β → Bool} {q : α → Bool}
    (h : ∀ a, ∀ b ∈ A a, p b = q a) : (l.flatMap A).filter p = (l.filter q).flatMap A := by
  induction l with
  | nil => rfl
  | cons a l ih =>
    rw [List.flatMap_cons, List.filter_append, ih]
    cases hq : q a with
    | true =>
      have hall : (A a).filter p = A a := List.filter_eq_self.mpr fun b hb => (h a b hb).trans hq
      rw [hall, List.filter_cons_of_pos hq, List.flatMap_cons]
    | false =>
      have hnone : (A a).filter p = [] :=
        List.filter_eq_nil_iff.mpr fun b hb => by simp [h a b hb, hq]
      rw [hnone, List.filter_cons_of_neg (by simp [hq]), List.nil_append]

theorem filter_filterMap_eq {l : List α} {A : α → Option β} {p : β → Bool} {q : α → Bool}
    (h : ∀ a b, A a = some b → p b = q a) : (l.filterMap A).filter p = (l.filter q).filterMap A := by
  simp only [List.filterMap_eq_flatMap_toList]
  exact filter_flatMap_eq fun a b hb => h a b (Option.mem_toList.mp hb)

/-- Of what is listed under each index, a property of one index picks that under the index. -/
theorem filter_flatMap_zipIdx {l : List α} {i : Nat} {a : α} (ha : l[i]? = some a)
    {A : α × Nat → List β} {p : β → Bool} (h : ∀ x, x.2 ≠ i → ∀ b ∈ A x, p b = false) :
    (l.zipIdx.flatMap A).filter p = (A (a, i)).filter p := by
  have hnone : ∀ xs : List (α × Nat), (∀ x ∈ xs, x.2 ≠ i) → (xs.flatMap A).filter p = [] := by
    intro xs hxs
    refine List.filter_eq_nil_iff.mpr fun b hb => ?_
    obtain ⟨x, hx, hb⟩ := List.mem_flatMap.mp hb
    simp [h x (hxs x hx) b hb]
  obtain ⟨hi, rfl⟩ := List.getElem?_eq_some_iff.mp ha
  have hsplit : l.zipIdx = (l.take i).zipIdx ++ (l[i], i) :: (l.drop (i + 1)).zipIdx (i + 1) := by
    conv_lhs => rw [← List.take_append_drop i l, ← List.getElem_cons_drop hi, List.zipIdx_append]
    rw [List.zipIdx_cons, List.length_take_of_le (Nat.le_of_lt hi), Nat.zero_add]
  rw [hsplit, List.flatMap_append, List.flatMap_cons, List.filter_append, List.filter_append,
    hnone _ fun x hx => ?_, hnone _ fun x hx => ?_, List.nil_append, List.append_nil]
  · have hle := List.le_snd_of_mem_zipIdx hx
    omega
  · have hlt := List.snd_lt_of_mem_zipIdx hx
    rw [List.length_take_of_le (Nat.le_of_lt hi)] at hlt
    omega

/-- Indices increase along a list. -/
theorem pairwise_zipIdx (l : List α) : l.zipIdx.Pairwise (·.2 < ·.2) := by
  rw [← List.pairwise_map, List.zipIdx_map_snd]
  exact List.pairwise_lt_range'

theorem map_eq_self_iff {f : α → α} {l : List α} : l.map f = l ↔ ∀ a ∈ l, f a = a := by
  simpa using List.map_inj_left (f := f) (g := id) (l := l)

/-! ## Results that may be missing -/

theorem exists_of_mem_mapM {f : α → Option β} {l : List α} {bs : List β} (h : l.mapM f = some bs) :
    ∀ b ∈ bs, ∃ a ∈ l, f a = some b := by
  induction l generalizing bs with
  | nil =>
    obtain rfl : [] = bs := by simpa using h
    simp
  | cons a l ih =>
    simp only [List.mapM_cons, Option.bind_eq_bind, Option.bind_eq_some_iff, Option.pure_def,
      Option.some.injEq] at h
    obtain ⟨b, hb, bs, hbs, rfl⟩ := h
    refine List.forall_mem_cons.mpr ⟨⟨a, List.mem_cons_self .., hb⟩, fun b' hb' => ?_⟩
    obtain ⟨a', ha', hf⟩ := ih hbs b' hb'
    exact ⟨a', List.mem_cons_of_mem _ ha', hf⟩

/-! ## First and last occurrences -/

/-- What occurs among the values of a function is the value of some element for the last time. -/
theorem exists_last_of_mem_map {f : α → β} {l : List α} {b : β} (h : b ∈ l.map f) :
    ∃ before a after, l = before ++ a :: after ∧ f a = b ∧ b ∉ after.map f := by
  induction l with
  | nil => cases h
  | cons a l ih =>
    by_cases hlater : b ∈ l.map f
    · obtain ⟨before, last, after, rfl, hlast, hnot⟩ := ih hlater
      exact ⟨a :: before, last, after, rfl, hlast, hnot⟩
    · rw [List.map_cons, List.mem_cons, or_iff_left hlater] at h
      exact ⟨[], a, l, rfl, h.symm, hlater⟩

section

variable [BEq α] [LawfulBEq α]

theorem eraseDups_of_nodup {l : List α} (h : l.Nodup) : l.eraseDups = l := by
  induction l with
  | nil => rfl
  | cons a l ih =>
    rw [List.nodup_cons] at h
    have hrest : l.filter (fun b => !b == a) = l := List.filter_eq_self.mpr fun b hb => by
      simpa using fun heq : b = a => h.1 (heq ▸ hb)
    rw [List.eraseDups_cons, hrest, ih h.2]

/-- What occurs again does not count. -/
theorem eraseDups_append_cons_of_mem {l : List α} {a : α} (h : a ∈ l) (l' : List α) :
    (l ++ a :: l').eraseDups = (l ++ l').eraseDups := by
  rw [List.eraseDups_append, List.eraseDups_append, List.removeAll, List.removeAll,
    List.filter_cons_of_neg (by simpa using h)]

end

/-! ## Lists side by side -/

theorem forall₂_comp {R : α → β → Prop} {S : β → γ → Prop} {as : List α} {bs : List β}
    {cs : List γ} (h : List.Forall₂ R as bs) (h' : List.Forall₂ S bs cs) :
    List.Forall₂ (fun a c => ∃ b, R a b ∧ S b c) as cs := by
  induction h' generalizing as with
  | nil =>
    cases h
    exact .nil
  | cons hbc _ ih =>
    obtain ⟨a, rest, hab, hrest, rfl⟩ := List.forall₂_cons_right_iff.mp h
    exact .cons ⟨_, hab, hbc⟩ (ih hrest)

/-- What is picked and computed in one go stands beside what is only picked. -/
theorem forall₂_filter_filterMap {R : α → β → Prop} {p : α → Bool} {g : α → Option β} {l : List α}
    (hsome : ∀ a ∈ l, p a = true → ∃ b, g a = some b ∧ R a b)
    (hnone : ∀ a ∈ l, p a = false → g a = none) : List.Forall₂ R (l.filter p) (l.filterMap g) := by
  induction l with
  | nil => exact .nil
  | cons a l ih =>
    obtain ⟨hsomeHere, hsomeRest⟩ := List.forall_mem_cons.mp hsome
    obtain ⟨hnoneHere, hnoneRest⟩ := List.forall_mem_cons.mp hnone
    have hrest := ih hsomeRest hnoneRest
    cases hp : p a with
    | true =>
      obtain ⟨b, hb, hR⟩ := hsomeHere hp
      rw [List.filter_cons_of_pos hp, List.filterMap_cons_some hb]
      exact .cons hR hrest
    | false =>
      rwa [List.filter_cons_of_neg (by simp [hp]), List.filterMap_cons_none (hnoneHere hp)]

theorem countP_of_forall₂ {p : α → Bool} {q : β → Bool} {as : List α} {bs : List β}
    (h : List.Forall₂ (fun a b => p a = q b) as bs) : as.countP p = bs.countP q := by
  induction h with
  | nil => rfl
  | cons hab _ ih => rw [List.countP_cons, List.countP_cons, ih, hab]

/-! ## What is kept, and what it stems from -/

/-- The elements of the second list stem from elements of the first one, each from one of its own and
in the same order. -/
def StemsFrom (R : α → β → Prop) (all : List α) (kept : List β) : Prop :=
  ∃ origins : List α, origins.Sublist all ∧ List.Forall₂ R origins kept

namespace StemsFrom

variable {R : α → β → Prop} {all : List α} {kept : List β}

theorem nil : StemsFrom R all [] := ⟨[], List.nil_sublist _, .nil⟩

theorem of_forall₂ (h : List.Forall₂ R all kept) : StemsFrom R all kept := ⟨all, .refl _, h⟩

theorem of_sublist {some : List α} (h : StemsFrom R some kept) (hs : some.Sublist all) :
    StemsFrom R all kept := by
  obtain ⟨origins, horigins, hR⟩ := h
  exact ⟨origins, horigins.trans hs, hR⟩

theorem imp {S : α → β → Prop} (h : StemsFrom R all kept) (hRS : ∀ a b, R a b → S a b) :
    StemsFrom S all kept := by
  obtain ⟨origins, horigins, hR⟩ := h
  exact ⟨origins, horigins, hR.imp hRS⟩

theorem map {f : γ → α} {all : List γ} (h : StemsFrom (fun c b => R (f c) b) all kept) :
    StemsFrom R (all.map f) kept := by
  obtain ⟨origins, horigins, hR⟩ := h
  exact ⟨origins.map f, horigins.map f, List.forall₂_map_left_iff.mpr hR⟩

theorem append {all' : List α} {kept' : List β} (h : StemsFrom R all kept)
    (h' : StemsFrom R all' kept') : StemsFrom R (all ++ all') (kept ++ kept') := by
  obtain ⟨origins, horigins, hR⟩ := h
  obtain ⟨origins', horigins', hR'⟩ := h'
  exact ⟨origins ++ origins', horigins.append horigins', List.rel_append hR hR'⟩

theorem flatMap {δ : Type} {as : List γ} {bs : List δ} {all : γ → List α} {kept : δ → List β}
    (h : List.Forall₂ (fun a b => StemsFrom R (all a) (kept b)) as bs) :
    StemsFrom R (as.flatMap all) (bs.flatMap kept) := by
  induction h with
  | nil => exact .nil
  | cons h _ ih => exact h.append ih

theorem sublist (h : StemsFrom R all kept) {left : List β} (hs : left.Sublist kept) :
    StemsFrom R all left := by
  obtain ⟨origins, horigins, hR⟩ := h
  suffices hleft : StemsFrom R origins left from hleft.of_sublist horigins
  clear horigins
  induction hs generalizing origins with
  | slnil => exact .nil
  | cons b _ ih =>
    obtain ⟨a, rest, _, hrest, rfl⟩ := List.forall₂_cons_right_iff.mp hR
    exact (ih rest hrest).of_sublist (List.sublist_cons_self ..)
  | cons_cons b _ ih =>
    obtain ⟨a, rest, hab, hrest, rfl⟩ := List.forall₂_cons_right_iff.mp hR
    obtain ⟨origins, horigins, hR⟩ := ih rest hrest
    exact ⟨a :: origins, horigins.cons_cons a, .cons hab hR⟩

theorem comp {S : β → γ → Prop} {last : List γ} (h : StemsFrom R all kept)
    (h' : StemsFrom S kept last) : StemsFrom (fun a c => ∃ b, R a b ∧ S b c) all last := by
  obtain ⟨middle, hmiddle, hS⟩ := h'
  obtain ⟨origins, horigins, hR⟩ := h.sublist hmiddle
  exact ⟨origins, horigins, forall₂_comp hR hS⟩

theorem filterMap {g : α → Option β} (h : ∀ a ∈ all, ∀ b, g a = some b → R a b) :
    StemsFrom R all (all.filterMap g) := by
  induction all with
  | nil => exact .nil
  | cons a all ih =>
    have hrest := ih fun a' ha' => h a' (List.mem_cons_of_mem _ ha')
    cases hg : g a with
    | none =>
      rw [List.filterMap_cons_none hg]
      exact hrest.of_sublist (List.sublist_cons_self ..)
    | some b =>
      rw [List.filterMap_cons_some hg]
      exact .append (of_forall₂ (.cons (h a (List.mem_cons_self ..) b hg) .nil)) hrest

end StemsFrom

end AnnotatedApi
