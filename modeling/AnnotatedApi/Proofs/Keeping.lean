import Mathlib.Data.List.Forall2

/-!
# Computations that keep an invariant

A computation that changes a state and may fail is described by an invariant of the state, which it
keeps however it ends, and by what holds of its result and of its failure. There is one rule for
every way in which computations are put together.
-/

namespace AnnotatedApi

set_option autoImplicit false

variable {ε σ α β : Type}

theorem exists_of_mem_right {R : α → β → Prop} {as : List α} {bs : List β}
    (h : List.Forall₂ R as bs) {b : β} (hb : b ∈ bs) : ∃ a ∈ as, R a b := by
  induction h with
  | nil => cases hb
  | cons hab _ ih =>
    rcases List.mem_cons.mp hb with rfl | hb
    · exact ⟨_, List.mem_cons_self .., hab⟩
    · obtain ⟨a, ha, hR⟩ := ih hb
      exact ⟨a, List.mem_cons_of_mem _ ha, hR⟩

/-! ## Computations in two parts -/

section

variable {x : EStateM ε σ α} {f : α → EStateM ε σ β} {s s' : σ}

theorem bind_of_ok {a : α} (h : x s = .ok a s') : (x >>= f) s = f a s' := by
  change EStateM.bind x f s = _
  simp only [EStateM.bind, h]

theorem bind_of_error {e : ε} (h : x s = .error e s') : (x >>= f) s = .error e s' := by
  change EStateM.bind x f s = _
  simp only [EStateM.bind, h]

/-- A computation in two parts that succeeds does so in both. -/
theorem exists_of_bind_eq_ok {b : β} (h : (x >>= f) s = .ok b s') :
    ∃ a middle, x s = .ok a middle ∧ f a middle = .ok b s' := by
  cases hx : x s with
  | ok a middle => exact ⟨a, middle, rfl, (bind_of_ok hx).symm.trans h⟩
  | error e middle =>
    rw [bind_of_error hx] at h
    cases h

end

/-! ## Invariants -/

/-- A computation has ended in a state that satisfies the invariant `I`; `Q` holds of its result and `F`
of its failure. -/
abbrev Ends (I : σ → Prop) (Q : α → Prop) (F : ε → Prop) (r : EStateM.Result ε σ α) : Prop :=
  match r with
  | .ok a s => I s ∧ Q a
  | .error e s => I s ∧ F e

/-- From every state that satisfies the invariant `I`, the computation ends in such a state; `Q` holds
of its result and `F` of its failure. -/
def Keeps (I : σ → Prop) (x : EStateM ε σ α) (Q : α → Prop) (F : ε → Prop) : Prop :=
  ∀ s, I s → Ends I Q F (x s)

/-- What the second part starts from is what the first one has ended with. -/
theorem Ends.bind {I : σ → Prop} {Q : α → Prop} {R : β → Prop} {F : ε → Prop} {x : EStateM ε σ α}
    {f : α → EStateM ε σ β} {s : σ} (hx : Ends I Q F (x s))
    (hf : ∀ a s', x s = .ok a s' → I s' → Q a → Ends I R F (f a s')) :
    Ends I R F ((x >>= f) s) := by
  cases h : x s with
  | ok a s' =>
    rw [h] at hx
    rw [bind_of_ok h]
    exact hf a s' h hx.1 hx.2
  | error e s' =>
    rw [h] at hx
    rw [bind_of_error h]
    exact hx

namespace Keeps

variable {I : σ → Prop} {x : EStateM ε σ α} {Q : α → Prop} {F : ε → Prop}

theorem ok {s s' : σ} {a : α} (h : Keeps I x Q F) (hI : I s) (hx : x s = .ok a s') : I s' ∧ Q a := by
  have := h s hI
  rwa [hx] at this

theorem error {s s' : σ} {e : ε} (h : Keeps I x Q F) (hI : I s) (hx : x s = .error e s') :
    I s' ∧ F e := by
  have := h s hI
  rwa [hx] at this

theorem mono {R : α → Prop} {G : ε → Prop} (h : Keeps I x Q F) (hQ : ∀ a, Q a → R a)
    (hF : ∀ e, F e → G e) : Keeps I x R G := by
  intro s hI
  cases hx : x s with
  | ok a s' =>
    obtain ⟨hs, ha⟩ := h.ok hI hx
    exact ⟨hs, hQ a ha⟩
  | error e s' =>
    obtain ⟨hs, he⟩ := h.error hI hx
    exact ⟨hs, hF e he⟩

theorem weaken {R : α → Prop} (h : Keeps I x Q F) (hQ : ∀ a, Q a → R a) : Keeps I x R F :=
  h.mono hQ fun _ he => he

/-- A result comes from a run. -/
theorem run (h : Keeps I x Q F) : Keeps I x (fun a => Q a ∧ ∃ s s', I s ∧ x s = .ok a s') F := by
  intro s hI
  cases hx : x s with
  | ok a s' =>
    obtain ⟨hs, ha⟩ := h.ok hI hx
    exact ⟨hs, ha, s, s', hI, hx⟩
  | error e s' => exact h.error hI hx

theorem pure {a : α} (ha : Q a) : Keeps I (Pure.pure a : EStateM ε σ α) Q F :=
  fun _ hI => ⟨hI, ha⟩

theorem throw {e : ε} (he : F e) : Keeps I (throw e : EStateM ε σ α) Q F :=
  fun _ hI => ⟨hI, he⟩

theorem bind {f : α → EStateM ε σ β} {R : β → Prop} (hx : Keeps I x Q F)
    (hf : ∀ a, Q a → Keeps I (f a) R F) : Keeps I (x >>= f) R F :=
  fun s hI => (hx s hI).bind fun a s' _ hs ha => hf a ha s' hs

theorem mapM {f : α → EStateM ε σ β} {R : α → β → Prop} (l : List α)
    (hf : ∀ a ∈ l, Keeps I (f a) (R a) F) : Keeps I (l.mapM f) (List.Forall₂ R l) F := by
  induction l with
  | nil =>
    rw [List.mapM_nil]
    exact .pure .nil
  | cons a l ih =>
    rw [List.mapM_cons]
    refine (hf a (List.mem_cons_self ..)).bind fun b hb => ?_
    refine (ih fun a' ha' => hf a' (List.mem_cons_of_mem _ ha')).bind fun bs hbs => ?_
    exact .pure (.cons hb hbs)

theorem mapM_all {f : α → EStateM ε σ β} {R : β → Prop} (l : List α)
    (hf : ∀ a ∈ l, Keeps I (f a) R F) :
    Keeps I (l.mapM f) (fun bs => bs.length = l.length ∧ ∀ b ∈ bs, R b) F := by
  refine (mapM (R := fun _ => R) l hf).weaken fun bs hbs => ⟨hbs.length_eq.symm, fun b hb => ?_⟩
  obtain ⟨_, _, hR⟩ := exists_of_mem_right hbs hb
  exact hR

end Keeps

end AnnotatedApi
