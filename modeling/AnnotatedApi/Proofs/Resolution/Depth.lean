import AnnotatedApi.Proofs.Resolution.Logic

/-!
# More depth than is needed

The depth of recursion that is allowed only says when a resolution is given up. One that yields a type yields the
same type, and leaves the same state, at every greater depth.
-/

namespace AnnotatedApi.Resolve

set_option autoImplicit false

variable {α β : Type} {depth : Nat} {c : Context} {Q : α → Prop} {R : β → Prop}

/-- What the resolution yields at a depth of recursion it yields at every greater one, in each state with this
context; or else it fails at that depth. -/
def Lasts (depth : Nat) (c : Context) (x : Nat → Resolving α) (Q : α → Prop) : Prop :=
  ∀ cache, (∃ a cache', Q a ∧ ∀ more, depth ≤ more → x more ⟨cache, c⟩ = .ok a ⟨cache', c⟩) ∨
    ∃ e cache', x depth ⟨cache, c⟩ = .error e ⟨cache', c⟩

namespace Lasts

theorem of_steady {x : Resolving α} (h : Steady (fun _ => True) c x Q fun _ => True) :
    Lasts depth c (fun _ => x) Q := by
  intro cache
  have hs : (⟨cache, c⟩ : State).context = c ∧ True := ⟨rfl, trivial⟩
  cases hx : x ⟨cache, c⟩ with
  | ok a s =>
    obtain ⟨⟨rfl, -⟩, ha⟩ := h.ok hs hx
    exact .inl ⟨a, s.cache, ha, fun _ _ => hx⟩
  | error e s =>
    obtain ⟨⟨rfl, -⟩, -⟩ := h.error hs hx
    exact .inr ⟨e, s.cache, hx⟩

theorem bind {x : Nat → Resolving α} {f : Nat → α → Resolving β} (hx : Lasts depth c x Q)
    (hf : ∀ a, Q a → Lasts depth c (fun n => f n a) R) : Lasts depth c (fun n => x n >>= f n) R := by
  intro cache
  rcases hx cache with ⟨a, cache', ha, hfirst⟩ | ⟨e, cache', hfirst⟩
  · rcases hf a ha cache' with ⟨b, last, hb, hsecond⟩ | ⟨e, last, hsecond⟩
    · exact .inl ⟨b, last, hb, fun more hle => (bind_of_ok (hfirst more hle)).trans (hsecond more hle)⟩
    · exact .inr ⟨e, last, (bind_of_ok (hfirst depth (Nat.le_refl _))).trans hsecond⟩
  · exact .inr ⟨e, cache', bind_of_error hfirst⟩

theorem within {x : Nat → Resolving α} {enter leave : Context → Context} (hc : leave (enter c) = c)
    (hx : Lasts depth (enter c) x Q) : Lasts depth c (fun n => Resolve.within enter leave (x n)) Q := by
  intro cache
  rcases hx cache with ⟨a, cache', ha, hinner⟩ | ⟨e, cache', hinner⟩
  · exact .inl ⟨a, cache', ha, fun more hle => by simp only [Resolve.within, hinner more hle, hc]⟩
  · exact .inr ⟨e, cache', by simp only [Resolve.within, hinner, hc]⟩

end Lasts

/-- The logic of what a depth of recursion is enough for. -/
def lasting (depth : Nat) : Logic where
  Holds := Lasts depth
  Inline _ := True
  pure ha := .of_steady (.pure ha)
  unsupported := .of_steady (.throw trivial)
  bind := .bind
  get _ h := fun cache => h cache cache
  inline _ h := h
  within _ _ := .within
  remembered? := .of_steady (steady_remembered?_of_foreign _ _ (by simp))
  remember ht := .of_steady (steady_remember_of_closed _ _ ht)

theorem lasting_resolveType (scope : Scope) (depth : Nat) (frames : List Frame) (names : List String)
    (t : TypeExpr) :
    (lasting depth).Handles (resolveType scope) (fun _ _ => True) frames names t := by
  induction depth generalizing frames names t with
  | zero => exact fun c _ _ cache => .inr ⟨.exhausted, cache, rfl⟩
  | succ depth ih =>
    intro c hframes hnames cache
    have hstep : (lasting depth).Holds c (fun n => resolveStep scope (resolveType scope n) t) _ :=
      (lasting depth).resolveStep hframes hnames t (fun _ _ => trivial) (fun u _ => ih frames names u)
        (fun _ _ _ x _ => ih frames x.1 x.2)
        fun d given _ frame _ => ⟨fun u _ => ih _ _ u, fun _ _ f _ => ih _ _ _⟩
    rcases hstep cache with ⟨w, cache', -, hstep⟩ | hstep
    · refine .inl ⟨w, cache', trivial, fun more hle => ?_⟩
      obtain ⟨n, rfl⟩ : ∃ n, more = n + 1 := ⟨more - 1, by omega⟩
      exact hstep n (by omega)
    · exact .inr hstep

/-- What is resolved at some depth of recursion is resolved to the same at every greater one. -/
theorem resolveType_of_le {scope : Scope} {more : Nat} {t : TypeExpr} {s next : State} {w : WireType}
    (h : resolveType scope depth t s = .ok w next) (hle : depth ≤ more) :
    resolveType scope more t s = .ok w next := by
  have hlasts := lasting_resolveType scope depth _ _ t s.context rfl (names_keys s.context.environment)
  rcases hlasts s.cache with ⟨w', cache, -, hmore⟩ | ⟨e, cache, herror⟩
  · exact (hmore more hle).trans ((hmore depth (Nat.le_refl _)).symm.trans h)
  · cases h.symm.trans herror

end AnnotatedApi.Resolve
