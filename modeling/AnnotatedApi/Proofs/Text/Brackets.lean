import AnnotatedApi.Proofs.Text.Quoted

/-!
# What stands outside brackets

In a text with balanced angle brackets, quotations aside, it is clear which characters stand outside of
all brackets and quotations: however the text is taken apart, these are the same.
-/

namespace AnnotatedApi.Text

set_option autoImplicit false

/-- Joined texts have only characters of the texts and of the separator. -/
theorem forall_mem_intercalate {p : Char → Prop} {separator : String}
    (hs : ∀ c ∈ separator.toList, p c) {texts : List String} (h : ∀ t ∈ texts, ∀ c ∈ t.toList, p c) :
    ∀ c ∈ (String.intercalate separator texts).toList, p c := by
  induction texts with
  | nil => simp
  | cons t texts ih =>
    obtain ⟨ht, hts⟩ := List.forall_mem_cons.mp h
    cases texts with
    | nil => simpa using ht
    | cons u texts =>
      rw [String.intercalate_cons_cons, String.toList_append, String.toList_append]
      intro c hc
      rcases List.mem_append.mp hc with hc | hc
      · exact (List.mem_append.mp hc).elim (ht c) (hs c)
      · exact ih hts c hc

/-- The characters that begin or end what is not outside. -/
def fences : List Char := ['<', '>', '"']

def Unfenced (s : String) : Prop := ∀ c ∈ s.toList, c ∉ fences

instance (s : String) : Decidable (Unfenced s) :=
  inferInstanceAs <| Decidable <| ∀ c ∈ s.toList, c ∉ fences

/-- A text with balanced brackets; in front of it, what stands outside of them. -/
inductive Bracketed : List Char → List Char → Prop where
  | nil : Bracketed [] []
  | plain {c : Char} {outside cs : List Char} :
    c ∉ fences → Bracketed outside cs → Bracketed (c :: outside) (c :: cs)
  | quotation {s : String} {outside cs : List Char} :
    Bracketed outside cs → Bracketed outside ((quoted s).toList ++ cs)
  | group {outside inner inside cs : List Char} : Bracketed inner inside → Bracketed outside cs →
    Bracketed outside ('<' :: (inside ++ '>' :: cs))

def Balanced (s : String) : Prop := ∃ outside, Bracketed outside s.toList

theorem toList_quoted (s : String) : ∃ rest, (quoted s).toList = '"' :: rest :=
  ⟨_, String.toList_ofList⟩

namespace Bracketed

variable {o p xs ys u v : List Char}

/-- A bracket that closes none ends the text before it. -/
theorem append_inj (hx : Bracketed o xs) (hy : Bracketed p ys) (h : xs ++ '>' :: u = ys ++ '>' :: v) :
    o = p ∧ xs = ys ∧ u = v := by
  induction hx generalizing p ys u v with
  | nil =>
    cases hy with
    | nil => simpa using h
    | plain hc _ =>
      obtain rfl := (List.cons.inj h).1
      exact absurd (by decide) hc
    | @quotation s =>
      obtain ⟨rest, hrest⟩ := toList_quoted s
      simp [hrest] at h
    | group => simp at h
  | @plain c _ cs hc _ ih =>
    cases hy with
    | nil =>
      obtain rfl := (List.cons.inj h).1
      exact absurd (by decide) hc
    | plain _ hy =>
      obtain ⟨rfl, hrest⟩ := List.cons.inj h
      obtain ⟨rfl, rfl, rfl⟩ := ih hy hrest
      exact ⟨rfl, rfl, rfl⟩
    | @quotation s =>
      obtain ⟨rest, hrest⟩ := toList_quoted s
      rw [hrest] at h
      obtain rfl := (List.cons.inj h).1
      exact absurd (by decide) hc
    | group =>
      obtain rfl := (List.cons.inj h).1
      exact absurd (by decide) hc
  | @quotation s _ cs _ ih =>
    obtain ⟨rest, hrest⟩ := toList_quoted s
    cases hy with
    | nil => simp [hrest] at h
    | plain hc _ =>
      rw [hrest] at h
      obtain rfl := (List.cons.inj h).1
      exact absurd (by decide) hc
    | quotation hy =>
      rw [List.append_assoc, List.append_assoc] at h
      obtain ⟨rfl, hrest⟩ := quoted_append_inj h
      obtain ⟨rfl, rfl, rfl⟩ := ih hy hrest
      exact ⟨rfl, rfl, rfl⟩
    | group => simp [hrest] at h
  | group _ _ ihinside ih =>
    cases hy with
    | nil => simp at h
    | plain hc _ =>
      obtain rfl := (List.cons.inj h).1
      exact absurd (by decide) hc
    | @quotation s =>
      obtain ⟨rest, hrest⟩ := toList_quoted s
      simp [hrest] at h
    | group hinside hy =>
      simp only [List.cons_append, List.append_assoc, List.cons.injEq, true_and] at h
      obtain ⟨-, rfl, hrest⟩ := ihinside hinside h
      obtain ⟨rfl, rfl, rfl⟩ := ih hy hrest
      exact ⟨rfl, rfl, rfl⟩

/-- What stands outside brackets is told by the text. -/
theorem outside_unique (hx : Bracketed o xs) (hy : Bracketed p xs) : o = p :=
  (hx.append_inj (u := []) (v := []) hy rfl).1

theorem append (hx : Bracketed o xs) (hy : Bracketed p ys) : Bracketed (o ++ p) (xs ++ ys) := by
  induction hx with
  | nil => exact hy
  | plain hc _ ih => exact .plain hc ih
  | quotation _ ih =>
    rw [List.append_assoc]
    exact .quotation ih
  | group hinside _ _ ih =>
    rw [List.cons_append, List.append_assoc, List.cons_append]
    exact .group hinside ih

theorem of_unfenced {s : String} (h : Unfenced s) : Bracketed s.toList s.toList := by
  unfold Unfenced at h
  generalize s.toList = cs at h
  induction cs with
  | nil => exact .nil
  | cons c cs ih =>
    obtain ⟨hc, hcs⟩ := List.forall_mem_cons.mp h
    exact .plain hc (ih hcs)

end Bracketed

namespace Balanced

variable {s t : String}

theorem of_unfenced (h : Unfenced s) : Balanced s := ⟨_, .of_unfenced h⟩

theorem quoted (s : String) : Balanced (quoted s) :=
  ⟨[], by simpa using Bracketed.quotation (s := s) .nil⟩

theorem append (hs : Balanced s) (ht : Balanced t) : Balanced (s ++ t) := by
  obtain ⟨o, ho⟩ := hs
  obtain ⟨p, hp⟩ := ht
  exact ⟨o ++ p, by simpa using ho.append hp⟩

theorem intercalate {separator : String} (hs : Balanced separator) {texts : List String}
    (h : ∀ t ∈ texts, Balanced t) : Balanced (String.intercalate separator texts) := by
  induction texts with
  | nil => exact ⟨[], .nil⟩
  | cons t texts ih =>
    obtain ⟨ht, hts⟩ := List.forall_mem_cons.mp h
    cases texts with
    | nil => simpa using ht
    | cons u texts =>
      rw [String.intercalate_cons_cons]
      exact (ht.append hs).append (ih hts)

end Balanced

/-- Behind a name, a group in brackets adds nothing to what stands outside. -/
theorem Bracketed.apply {name text : String} (hname : Unfenced name) (htext : Balanced text) :
    Bracketed name.toList (name ++ "<" ++ text ++ ">").toList := by
  obtain ⟨inner, hinner⟩ := htext
  have hgroup := (Bracketed.of_unfenced hname).append (.group hinner .nil)
  simpa using hgroup

end AnnotatedApi.Text
