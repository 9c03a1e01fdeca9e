import AnnotatedApi.Proofs.Keeping
import AnnotatedApi.Resolve.Resolver

/-!
# Resolutions that leave their context as it was

Whatever a resolution does to its context on the way, it undoes, whether it succeeds or fails. What
it does to the cache is held to an invariant. `Steady` says both of one resolution in one context.
-/

namespace AnnotatedApi.Resolve

set_option autoImplicit false

variable {α : Type}

/-- A resolution has ended in the context and with a cache that satisfies the invariant; `Q` holds of its
result and `F` of its failure. -/
abbrev EndsIn (I : Cache → Prop) (c : Context) (Q : α → Prop) (F : Failure → Prop)
    (r : EStateM.Result Failure State α) : Prop :=
  Ends (fun s => s.context = c ∧ I s.cache) Q F r

/-- From every cache that satisfies the invariant, the resolution keeps the invariant and the
context; `Q` holds of its result and `F` of its failure. -/
abbrev Steady (I : Cache → Prop) (c : Context) (x : Resolving α) (Q : α → Prop)
    (F : Failure → Prop) : Prop :=
  Keeps (fun s => s.context = c ∧ I s.cache) x Q F

section

variable {I : Cache → Prop} {c : Context} {x : Resolving α} {Q : α → Prop} {F : Failure → Prop}
  {cache : Cache}

/-! ## From one state -/

namespace EndsIn

theorem get {f : State → Resolving α} {s : State} (hf : EndsIn I c Q F (f s s)) :
    EndsIn I c Q F ((MonadState.get >>= f) s) :=
  hf

/-- A resolution may run in a changed context that is changed back. -/
theorem within {enter leave : Context → Context} (hx : EndsIn I (enter c) Q F (x ⟨cache, enter c⟩))
    (hc : leave (enter c) = c) : EndsIn I c Q F (within enter leave x ⟨cache, c⟩) := by
  cases h : x ⟨cache, enter c⟩ with
  | ok a s =>
    rw [h] at hx
    obtain ⟨⟨hs, hcache⟩, ha⟩ := hx
    simp only [Resolve.within, h]
    exact ⟨⟨by rw [hs, hc], hcache⟩, ha⟩
  | error e s =>
    rw [h] at hx
    obtain ⟨⟨hs, hcache⟩, he⟩ := hx
    simp only [Resolve.within, h]
    exact ⟨⟨by rw [hs, hc], hcache⟩, he⟩

theorem inFrame {frame : Frame} {environment : Table WireType}
    (hx : EndsIn I (c.enter frame environment) Q F (x ⟨cache, c.enter frame environment⟩)) :
    EndsIn I c Q F (inFrame frame environment x ⟨cache, c⟩) :=
  get (within hx rfl)

end EndsIn

/-! ## From every state -/

namespace Steady

theorem get {f : State → Resolving α} (hf : ∀ cache, Steady I c (f ⟨cache, c⟩) Q F) :
    Steady I c (MonadState.get >>= f) Q F := by
  rintro ⟨cache, _⟩ ⟨rfl, hI⟩
  exact hf cache _ ⟨rfl, hI⟩

theorem within {enter leave : Context → Context} (hx : Steady I (enter c) x Q F)
    (hc : leave (enter c) = c) : Steady I c (within enter leave x) Q F := by
  rintro ⟨cache, c⟩ ⟨rfl, hI⟩
  exact EndsIn.within (hx ⟨cache, enter c⟩ ⟨rfl, hI⟩) hc

theorem inField {name : String} (hx : Steady I (c.pushField name) x Q F) :
    Steady I c (inField name x) Q F :=
  hx.within rfl

theorem inEnvironment {environment : Table WireType}
    (hx : Steady I { c with environment := environment } x Q F) :
    Steady I c (inEnvironment environment x) Q F :=
  .get fun _ => hx.within rfl

theorem inFrame {frame : Frame} {environment : Table WireType}
    (hx : Steady I (c.enter frame environment) x Q F) :
    Steady I c (inFrame frame environment x) Q F :=
  .get fun _ => hx.within rfl

end Steady

end

end AnnotatedApi.Resolve
