import AnnotatedApi.Text.Quoted
import Mathlib.Data.Nat.Digits.Defs

/-!
# Where a text ends

A text is told from what follows it if it ends where some kind of character ends, or if it is quoted.
Both are stated as cancellation: of two equal texts, each made of such a part and a rest, the parts are
equal and so are the rests.
-/

namespace AnnotatedApi.Text

set_option autoImplicit false

/-! ## Deciding

What holds of the characters of a text is decided by going through the text: without these instances, a
decision may go through all characters that there are. -/

instance (priority := high) decidableForallMem (p : Char → Prop) [DecidablePred p] (cs : List Char) :
    Decidable (∀ c ∈ cs, p c) :=
  List.decidableBAll p cs

instance (priority := high) decidableForallMemOption (p : Char → Prop) [DecidablePred p]
    (o : Option Char) : Decidable (∀ c ∈ o, p c) :=
  Option.decidableForallMem o

/-! ## Runs -/

/-- A run of characters with a property ends before the first one without it. -/
theorem append_inj_of_run {p : Char → Prop} {u v x y : List Char} (hu : ∀ c ∈ u, p c)
    (hv : ∀ c ∈ v, p c) (hx : ∀ c ∈ x.head?, ¬ p c) (hy : ∀ c ∈ y.head?, ¬ p c)
    (h : u ++ x = v ++ y) : u = v ∧ x = y := by
  induction u generalizing v with
  | nil =>
    cases v with
    | nil => exact ⟨rfl, h⟩
    | cons c v =>
      have hhead : x.head? = some c := by simpa using congrArg List.head? h
      exact absurd (hv c (List.mem_cons_self ..)) (hx c hhead)
  | cons c u ih =>
    cases v with
    | nil =>
      have hhead : y.head? = some c := by simpa using congrArg List.head? h.symm
      exact absurd (hu c (List.mem_cons_self ..)) (hy c hhead)
    | cons d v =>
      obtain ⟨rfl, hrest⟩ := List.cons.inj h
      obtain ⟨rfl, hxy⟩ := ih (fun e he => hu e (List.mem_cons_of_mem _ he))
        (fun e he => hv e (List.mem_cons_of_mem _ he)) hrest
      exact ⟨rfl, hxy⟩

/-! ## Digits -/

theorem digitChar_injective {m n : Nat} (hm : m < 16) (hn : n < 16)
    (h : m.digitChar = n.digitChar) : m = n := by
  have hall : ∀ i j : Fin 16, Nat.digitChar i = Nat.digitChar j → i = j := by decide
  exact congrArg Fin.val (hall ⟨m, hm⟩ ⟨n, hn⟩ h)

/-- Digits to a base up to sixteen spell one number. -/
theorem toDigits_injective {b : Nat} (hb : 1 < b) (hle : b ≤ 16) :
    Function.Injective (Nat.toDigits b) := by
  intro m
  induction m using Nat.strongRecOn with
  | ind m ih =>
    intro n h
    have hm := Nat.mod_lt m (by omega : b > 0)
    have hn := Nat.mod_lt n (by omega : b > 0)
    have hne : ∀ k, Nat.toDigits b k ≠ [] := fun k => Nat.toDigits_ne_nil
    rw [Nat.toDigits_eq_if hb, Nat.toDigits_eq_if hb (n := n)] at h
    split at h <;> split at h
    · exact digitChar_injective (by omega) (by omega) (List.singleton_inj.mp h)
    · exact absurd (List.append_eq_singleton_iff.mp h.symm) (by simp [hne])
    · exact absurd (List.append_eq_singleton_iff.mp h) (by simp [hne])
    · obtain ⟨hinit, hlast⟩ := List.append_inj' h rfl
      have hdiv := ih (m / b) (Nat.div_lt_self (by omega) hb) hinit
      have hmod := digitChar_injective (by omega) (by omega) (List.singleton_inj.mp hlast)
      rw [← Nat.div_add_mod m b, hdiv, hmod, Nat.div_add_mod]

theorem mem_toDigits {b n : Nat} (hb : 1 < b) {c : Char} (h : c ∈ Nat.toDigits b n) :
    ∃ k < b, c = k.digitChar := by
  induction n using Nat.strongRecOn with
  | ind n ih =>
    rw [Nat.toDigits_eq_if hb] at h
    split at h
    · exact ⟨n, by assumption, List.mem_singleton.mp h⟩
    · rcases List.mem_append.mp h with h | h
      · exact ih (n / b) (Nat.div_lt_self (by omega) hb) h
      · exact ⟨n % b, Nat.mod_lt n (by omega), List.mem_singleton.mp h⟩

/-! ## Quotations -/

/-- What stands behind the backslash where a character is not shown as itself. -/
def escape (c : Char) : List Char :=
  match c with
  | '\x00' => ['0']
  | '\t' => ['t']
  | '\r' => ['r']
  | '\n' => ['n']
  | '"' => ['"']
  | '\\' => ['\\']
  | c => 'u' :: '\x7b' :: hexDigits c.toNat ++ ['\x7d']

/-- A character is shown as itself, if it is neither a quote nor a backslash, or behind a backslash. -/
theorem quotedChar_eq (c : Char) :
    quotedChar c = [c] ∧ c ≠ '"' ∧ c ≠ '\\' ∨ quotedChar c = '\\' :: escape c := by
  unfold quotedChar escape
  split <;> simp_all

theorem escape_append_inj {c d : Char} {x y : List Char} (h : escape c ++ x = escape d ++ y) :
    c = d ∧ x = y := by
  have hhex : ∀ c d : Char, 'u' :: '\x7b' :: hexDigits c.toNat ++ ['\x7d'] ++ x =
      'u' :: '\x7b' :: hexDigits d.toNat ++ ['\x7d'] ++ y → c = d ∧ x = y := by
    intro c d h
    have hrun : ∀ n, ∀ c ∈ hexDigits n, c ≠ '\x7d' := by
      intro n c hc
      obtain ⟨k, hk, rfl⟩ := mem_toDigits (by decide) hc
      have hall : ∀ i : Fin 16, Nat.digitChar i ≠ '\x7d' := by decide
      exact hall ⟨k, hk⟩
    simp only [List.cons_append, List.append_assoc, List.cons.injEq, true_and] at h
    obtain ⟨hdigits, hrest⟩ := append_inj_of_run (hrun _) (hrun _) (by simp) (by simp) h
    exact ⟨Char.toNat_inj.mp (toDigits_injective (by decide) (by decide) hdigits), by simpa using hrest⟩
  unfold escape at h
  split at h <;> split at h <;> first | exact hhex _ _ h | simp_all

theorem quotedChar_append_inj {c d : Char} {x y : List Char}
    (h : quotedChar c ++ x = quotedChar d ++ y) : c = d ∧ x = y := by
  rcases quotedChar_eq c with ⟨hc, _, hslash⟩ | hc <;>
    rcases quotedChar_eq d with ⟨hd, _, hslash'⟩ | hd <;> rw [hc, hd] at h
  · simpa using h
  · exact absurd (List.cons.inj h).1 hslash
  · exact absurd (List.cons.inj h).1.symm hslash'
  · exact escape_append_inj (List.cons.inj h).2

theorem quotedChar_append_ne (c : Char) (x y : List Char) : quotedChar c ++ x ≠ '"' :: y := by
  rcases quotedChar_eq c with ⟨hc, hquote, _⟩ | hc <;> rw [hc]
  · simpa using fun h => absurd h hquote
  · simp

/-- A quotation is told from what follows it. -/
theorem quoted_append_inj {s t : String} {x y : List Char}
    (h : (quoted s).toList ++ x = (quoted t).toList ++ y) : s = t ∧ x = y := by
  have hchars : ∀ u v : List Char, u.flatMap quotedChar ++ '"' :: x = v.flatMap quotedChar ++ '"' :: y →
      u = v ∧ x = y := by
    intro u
    induction u with
    | nil =>
      intro v h
      cases v with
      | nil => exact ⟨rfl, (List.cons.inj h).2⟩
      | cons d v =>
        rw [List.flatMap_cons, List.append_assoc] at h
        exact (quotedChar_append_ne _ _ _ h.symm).elim
    | cons c u ih =>
      intro v h
      rw [List.flatMap_cons, List.append_assoc] at h
      cases v with
      | nil => exact (quotedChar_append_ne _ _ _ h).elim
      | cons d v =>
        rw [List.flatMap_cons, List.append_assoc] at h
        obtain ⟨rfl, hrest⟩ := quotedChar_append_inj h
        obtain ⟨rfl, hxy⟩ := ih v hrest
        exact ⟨rfl, hxy⟩
  simp only [quoted, String.toList_ofList, List.cons_append, List.append_assoc,
    List.cons.injEq, true_and] at h
  obtain ⟨hst, hxy⟩ := hchars _ _ h
  exact ⟨String.toList_inj.mp hst, hxy⟩

end AnnotatedApi.Text
