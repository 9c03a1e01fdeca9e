import AnnotatedApi.Proofs.WireType.OpenReferences
import Mathlib.Data.List.Forall2

/-!
# Equality of types

The equality by which the members of a union collapse compares literal numbers as numbers: the two zeros are
one, and a NaN is not even equal to itself. What is equal to a type has its shape, one lemma per shape; from
these the equality is symmetric and transitive, and reflexive where no number is a NaN.
-/

namespace AnnotatedApi

set_option autoImplicit false

/-! ## Numbers and literals -/

namespace Binary64

variable {x y z : Binary64}

theorem sameNumber_symm (h : x.sameNumber y = true) : y.sameNumber x = true := by
  simp only [sameNumber, Bool.and_eq_true, Bool.or_eq_true, beq_iff_eq] at h ⊢
  obtain ⟨⟨⟨hx, hy⟩, hrank⟩, hsign⟩ := h
  exact ⟨⟨⟨hy, hx⟩, hrank.symm⟩, hsign.imp Eq.symm fun hzero => hrank.symm.trans hzero⟩

theorem sameNumber_trans (h : x.sameNumber y = true) (h' : y.sameNumber z = true) :
    x.sameNumber z = true := by
  simp only [sameNumber, Bool.and_eq_true, Bool.or_eq_true, beq_iff_eq] at h h' ⊢
  obtain ⟨⟨⟨hx, -⟩, hrank⟩, hsign⟩ := h
  obtain ⟨⟨⟨-, hz⟩, hrank'⟩, hsign'⟩ := h'
  refine ⟨⟨⟨hx, hz⟩, hrank.trans hrank'⟩, ?_⟩
  rcases hsign with hsign | hzero
  · exact hsign'.imp hsign.trans hrank.trans
  · exact .inr hzero

theorem sameNumber_self (h : x.isNaN = false) : x.sameNumber x = true := by simp [sameNumber, h]

end Binary64

namespace Literal

variable {a b c : Literal}

theorem same_symm (h : a.same b = true) : b.same a = true := by
  cases a <;> cases b <;> simp only [Literal.same, beq_iff_eq, Bool.false_eq_true] at h ⊢
  · exact h.symm
  · exact Binary64.sameNumber_symm h
  · exact h.symm

theorem same_trans (h : a.same b = true) (h' : b.same c = true) : a.same c = true := by
  cases a <;> cases b <;> cases c <;>
    simp only [Literal.same, beq_iff_eq, Bool.false_eq_true] at h h' ⊢
  · exact h.trans h'
  · exact Binary64.sameNumber_trans h h'
  · exact h.trans h'

theorem same_self (h : ∀ x, a = .number x → x.isNaN = false) : a.same a = true := by
  cases a with
  | number x => exact Binary64.sameNumber_self (h x rfl)
  | _ => simp [Literal.same]

/-- Only the boolean itself is equal to a boolean literal. -/
theorem same_boolean_right {v : Bool} : a.same (.boolean v) = true ↔ a = .boolean v := by
  cases a <;> simp [Literal.same]

end Literal

namespace WireType

/-! ## What is equal to a type -/

section

variable {u : WireType}

theorem same_primitive {p : Primitive} : same (.primitive p) u = true ↔ u = .primitive p := by
  cases u <;> simp [same, @eq_comm _ p]

theorem same_literal {a : Literal} :
    same (.literal a) u = true ↔ ∃ b, u = .literal b ∧ a.same b = true := by
  cases u <;> simp [same]

theorem same_unexpanded {n : String} : same (.unexpanded n) u = true ↔ u = .unexpanded n := by
  cases u <;> simp [same, @eq_comm _ n]

theorem same_back {i : String} : same (.back i) u = true ↔ u = .back i := by
  cases u <;> simp [same, @eq_comm _ i]

theorem same_array {t : WireType} :
    same (.array t) u = true ↔ ∃ t', u = .array t' ∧ same t t' = true := by
  cases u <;> simp [same]

theorem same_promise {t : WireType} :
    same (.promise t) u = true ↔ ∃ t', u = .promise t' ∧ same t t' = true := by
  cases u <;> simp [same]

theorem same_union {ts : List WireType} :
    same (.union ts) u = true ↔ ∃ us, u = .union us ∧ sameList ts us = true := by
  cases u <;> simp [same]

theorem same_generic {n : String} {ts : List WireType} :
    same (.generic n ts) u = true ↔ ∃ us, u = .generic n us ∧ sameList ts us = true := by
  cases u <;> simp [same, @eq_comm _ n]

theorem same_object {i : String} {name : Option String} {ts : List WireType}
    {fs : List (Field WireType)} :
    same (.object i name ts fs) u = true ↔
      ∃ us gs, u = .object i name us gs ∧ sameList ts us = true ∧ sameFields fs gs = true := by
  cases u <;> simp [same, @eq_comm _ i, @eq_comm _ name, and_assoc]

end

/-! ## Symmetry -/

mutual

theorem same_symm : ∀ t u : WireType, same t u = true → same u t = true
  | .primitive _, u, h => by
    obtain rfl := same_primitive.mp h
    exact same_primitive.mpr rfl
  | .literal _, u, h => by
    obtain ⟨b, rfl, h⟩ := same_literal.mp h
    exact same_literal.mpr ⟨_, rfl, Literal.same_symm h⟩
  | .unexpanded _, u, h => by
    obtain rfl := same_unexpanded.mp h
    exact same_unexpanded.mpr rfl
  | .back _, u, h => by
    obtain rfl := same_back.mp h
    exact same_back.mpr rfl
  | .array t, u, h => by
    obtain ⟨u, rfl, h⟩ := same_array.mp h
    exact same_array.mpr ⟨t, rfl, same_symm t u h⟩
  | .promise t, u, h => by
    obtain ⟨u, rfl, h⟩ := same_promise.mp h
    exact same_promise.mpr ⟨t, rfl, same_symm t u h⟩
  | .union ts, u, h => by
    obtain ⟨us, rfl, h⟩ := same_union.mp h
    exact same_union.mpr ⟨ts, rfl, sameList_symm ts us h⟩
  | .generic _ ts, u, h => by
    obtain ⟨us, rfl, hargs⟩ := same_generic.mp h
    exact same_generic.mpr ⟨ts, rfl, sameList_symm ts us hargs⟩
  | .object _ _ ts fs, u, h => by
    obtain ⟨us, gs, rfl, hargs, hfields⟩ := same_object.mp h
    exact same_object.mpr ⟨ts, fs, rfl, sameList_symm ts us hargs, sameFields_symm fs gs hfields⟩

theorem sameList_symm : ∀ ts us : List WireType, sameList ts us = true → sameList us ts = true
  | [], [], _ => rfl
  | [], _ :: _, h => by simp [sameList] at h
  | _ :: _, [], h => by simp [sameList] at h
  | t :: ts, u :: us, h => by
    simp only [sameList, Bool.and_eq_true] at h ⊢
    exact ⟨same_symm t u h.1, sameList_symm ts us h.2⟩

theorem sameFields_symm : ∀ fs gs : List (Field WireType), sameFields fs gs = true →
    sameFields gs fs = true
  | [], [], _ => rfl
  | [], _ :: _, h => by simp [sameFields] at h
  | _ :: _, [], h => by simp [sameFields] at h
  | ⟨_, t, _, _⟩ :: fs, ⟨_, u, _, _⟩ :: gs, h => by
    simp only [sameFields, Bool.and_eq_true, beq_iff_eq] at h ⊢
    obtain ⟨⟨⟨⟨hname, htype⟩, hrequired⟩, hdescription⟩, hrest⟩ := h
    exact ⟨⟨⟨⟨hname.symm, same_symm t u htype⟩, hrequired.symm⟩, hdescription.symm⟩,
      sameFields_symm fs gs hrest⟩

end

/-! ## Transitivity -/

mutual

theorem same_trans : ∀ t u v : WireType, same t u = true → same u v = true → same t v = true
  | .primitive _, u, v, h, h' => by
    obtain rfl := same_primitive.mp h
    exact h'
  | .literal _, u, v, h, h' => by
    obtain ⟨b, rfl, h⟩ := same_literal.mp h
    obtain ⟨c, rfl, h'⟩ := same_literal.mp h'
    exact same_literal.mpr ⟨c, rfl, Literal.same_trans h h'⟩
  | .unexpanded _, u, v, h, h' => by
    obtain rfl := same_unexpanded.mp h
    exact h'
  | .back _, u, v, h, h' => by
    obtain rfl := same_back.mp h
    exact h'
  | .array t, u, v, h, h' => by
    obtain ⟨u, rfl, h⟩ := same_array.mp h
    obtain ⟨v, rfl, h'⟩ := same_array.mp h'
    exact same_array.mpr ⟨v, rfl, same_trans t u v h h'⟩
  | .promise t, u, v, h, h' => by
    obtain ⟨u, rfl, h⟩ := same_promise.mp h
    obtain ⟨v, rfl, h'⟩ := same_promise.mp h'
    exact same_promise.mpr ⟨v, rfl, same_trans t u v h h'⟩
  | .union ts, u, v, h, h' => by
    obtain ⟨us, rfl, h⟩ := same_union.mp h
    obtain ⟨vs, rfl, h'⟩ := same_union.mp h'
    exact same_union.mpr ⟨vs, rfl, sameList_trans ts us vs h h'⟩
  | .generic _ ts, u, v, h, h' => by
    obtain ⟨us, rfl, hargs⟩ := same_generic.mp h
    obtain ⟨vs, rfl, hargs'⟩ := same_generic.mp h'
    exact same_generic.mpr ⟨vs, rfl, sameList_trans ts us vs hargs hargs'⟩
  | .object _ _ ts fs, u, v, h, h' => by
    obtain ⟨us, gs, rfl, hargs, hfields⟩ := same_object.mp h
    obtain ⟨vs, hs, rfl, hargs', hfields'⟩ := same_object.mp h'
    exact same_object.mpr ⟨vs, hs, rfl, sameList_trans ts us vs hargs hargs',
      sameFields_trans fs gs hs hfields hfields'⟩

theorem sameList_trans : ∀ ts us vs : List WireType, sameList ts us = true →
    sameList us vs = true → sameList ts vs = true
  | [], [], _, _, h' => h'
  | [], _ :: _, _, h, _ => by simp [sameList] at h
  | _ :: _, [], _, h, _ => by simp [sameList] at h
  | _ :: _, _ :: _, [], _, h' => by simp [sameList] at h'
  | t :: ts, u :: us, v :: vs, h, h' => by
    simp only [sameList, Bool.and_eq_true] at h h' ⊢
    exact ⟨same_trans t u v h.1 h'.1, sameList_trans ts us vs h.2 h'.2⟩

theorem sameFields_trans : ∀ fs gs hs : List (Field WireType), sameFields fs gs = true →
    sameFields gs hs = true → sameFields fs hs = true
  | [], [], _, _, h' => h'
  | [], _ :: _, _, h, _ => by simp [sameFields] at h
  | _ :: _, [], _, h, _ => by simp [sameFields] at h
  | _ :: _, _ :: _, [], _, h' => by simp [sameFields] at h'
  | ⟨_, t, _, _⟩ :: fs, ⟨_, u, _, _⟩ :: gs, ⟨_, v, _, _⟩ :: hs, h, h' => by
    simp only [sameFields, Bool.and_eq_true, beq_iff_eq] at h h' ⊢
    obtain ⟨⟨⟨⟨hname, htype⟩, hrequired⟩, hdescription⟩, hrest⟩ := h
    obtain ⟨⟨⟨⟨hname', htype'⟩, hrequired'⟩, hdescription'⟩, hrest'⟩ := h'
    exact ⟨⟨⟨⟨hname.trans hname', same_trans t u v htype htype'⟩, hrequired.trans hrequired'⟩,
      hdescription.trans hdescription'⟩, sameFields_trans fs gs hs hrest hrest'⟩

end

/-! ## Reflexivity, away from NaN -/

/-- Whether no literal number of a type is a NaN. -/
def HasNoNaN (t : WireType) : Prop :=
  ∀ x : Binary64, t.Contains (.literal (.number x)) → x.isNaN = false

theorem HasNoNaN.child {t u : WireType} (h : t.HasNoNaN) (hu : u ∈ t.children) : u.HasNoNaN :=
  fun x hx => h x (.child hu hx)

theorem sameList_self {ts : List WireType} (h : ∀ t ∈ ts, same t t = true) :
    sameList ts ts = true := by
  induction ts with
  | nil => rfl
  | cons t ts ih =>
    rw [List.forall_mem_cons] at h
    simp only [sameList, Bool.and_eq_true]
    exact ⟨h.1, ih h.2⟩

theorem sameFields_self {fs : List (Field WireType)} (h : ∀ f ∈ fs, same f.type f.type = true) :
    sameFields fs fs = true := by
  induction fs with
  | nil => rfl
  | cons f fs ih =>
    rw [List.forall_mem_cons] at h
    simp only [sameFields, Bool.and_eq_true, beq_self_eq_true, and_true, true_and]
    exact ⟨h.1, ih h.2⟩

theorem same_self (t : WireType) (h : t.HasNoNaN) : same t t = true := by
  induction t using induction_children with
  | step t ih =>
    have hchildren : ∀ u ∈ t.children, same u u = true := fun u hu => ih u hu (h.child hu)
    cases t with
    | primitive p => exact same_primitive.mpr rfl
    | literal a => exact same_literal.mpr ⟨a, rfl, Literal.same_self fun x hx => h x (hx ▸ .self)⟩
    | unexpanded n => exact same_unexpanded.mpr rfl
    | back i => exact same_back.mpr rfl
    | array e => exact same_array.mpr ⟨e, rfl, hchildren e (by simp [children])⟩
    | promise e => exact same_promise.mpr ⟨e, rfl, hchildren e (by simp [children])⟩
    | union members => exact same_union.mpr ⟨members, rfl, sameList_self hchildren⟩
    | generic name args => exact same_generic.mpr ⟨args, rfl, sameList_self hchildren⟩
    | object i name args fields =>
      refine same_object.mpr ⟨args, fields, rfl, sameList_self ?_, sameFields_self ?_⟩
      · exact fun u hu => hchildren u (by simp [children, hu])
      · exact fun f hf => hchildren f.type (by
          simp only [children, List.mem_append, List.mem_map]
          exact .inr ⟨f, hf, rfl⟩)

end WireType

end AnnotatedApi
