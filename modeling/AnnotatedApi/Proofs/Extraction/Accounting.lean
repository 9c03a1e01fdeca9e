import AnnotatedApi.Diagnostic
import Mathlib.Data.List.Forall2

/-!
# Keeping account of what is dropped

A pass over a list may drop some of its elements. It accounts for them if it reports an error just
in case it drops one. Passes that account for what they drop can be put one after the other and side
by side.
-/

namespace AnnotatedApi

set_option autoImplicit false

def anyError (ds : List Diagnostic) : Bool := ds.any Diagnostic.isError

@[simp] theorem anyError_nil : anyError [] = false := rfl

@[simp] theorem anyError_append (ds es : List Diagnostic) :
    anyError (ds ++ es) = (anyError ds || anyError es) := List.any_append

theorem anyError_of_mem {ds : List Diagnostic} {d : Diagnostic} (hd : d ∈ ds)
    (he : d.isError = true) : anyError ds = true := List.any_eq_true.mpr ⟨d, hd, he⟩

/-- Diagnostics that are no mere warnings: there is none, or there is an error. -/
def Grave (ds : List Diagnostic) : Prop := ds = [] ∨ anyError ds = true

namespace Grave

theorem append {ds es : List Diagnostic} (h : Grave ds) (h' : Grave es) : Grave (ds ++ es) := by
  rcases h with rfl | h
  · rwa [List.nil_append]
  · exact .inr (by rw [anyError_append, h, Bool.true_or])

theorem flatMap {γ : Type} {as : List γ} {ds : γ → List Diagnostic} (h : ∀ a ∈ as, Grave (ds a)) :
    Grave (as.flatMap ds) := by
  induction as with
  | nil => exact .inl rfl
  | cons a as ih =>
    exact (h a (List.mem_cons_self ..)).append (ih fun b hb => h b (List.mem_cons_of_mem _ hb))

theorem toList {o : Option Diagnostic} (h : ∀ d, o = some d → d.isError = true) :
    Grave o.toList := by
  cases o with
  | none => exact .inl rfl
  | some d => exact .inr (anyError_of_mem (List.mem_singleton.mpr rfl) (h d rfl))

end Grave

variable {α : Type}

/-- What is kept is kept in order, and it is everything unless there is an error. -/
structure Accounted (all kept : List α) (ds : List Diagnostic) : Prop where
  sublist : kept.Sublist all
  complete : kept = all ↔ anyError ds = false

namespace Accounted

variable {all kept left : List α} {ds es : List Diagnostic}

theorem refl (all : List α) (h : anyError ds = false) : Accounted all all ds :=
  ⟨.refl all, by simp [h]⟩

theorem of_ne (hs : kept.Sublist all) (hne : kept ≠ all) (h : anyError ds = true) :
    Accounted all kept ds :=
  ⟨hs, by simp [hne, h]⟩

theorem map {β : Type} (f : α → β) (h : Accounted all kept ds) :
    Accounted (all.map f) (kept.map f) ds := by
  refine ⟨h.sublist.map f, ?_⟩
  rw [← h.complete]
  constructor
  · intro heq
    have hlength := congrArg List.length heq
    rw [List.length_map, List.length_map] at hlength
    exact h.sublist.eq_of_length hlength
  · rintro rfl
    rfl

theorem trans (h : Accounted all kept ds) (h' : Accounted kept left es) :
    Accounted all left (ds ++ es) := by
  refine ⟨h'.sublist.trans h.sublist, ?_⟩
  rw [anyError_append, Bool.or_eq_false_iff, ← h.complete, ← h'.complete]
  constructor
  · rintro rfl
    have hkept : kept = left := h.sublist.antisymm h'.sublist
    exact ⟨hkept, hkept.symm⟩
  · rintro ⟨rfl, rfl⟩
    rfl

theorem append {all' kept' : List α} (h : Accounted all kept ds) (h' : Accounted all' kept' es) :
    Accounted (all ++ all') (kept ++ kept') (ds ++ es) := by
  refine ⟨h.sublist.append h'.sublist, ?_⟩
  rw [anyError_append, Bool.or_eq_false_iff, ← h.complete, ← h'.complete]
  constructor
  · intro heq
    have hlength := congrArg List.length heq
    have hle := h.sublist.length_le
    have hle' := h'.sublist.length_le
    rw [List.length_append, List.length_append] at hlength
    exact ⟨h.sublist.eq_of_length_le (by omega), h'.sublist.eq_of_length_le (by omega)⟩
  · rintro ⟨rfl, rfl⟩
    rfl

theorem flatMap {γ δ : Type} {as : List γ} {bs : List δ} {all : γ → List α} {kept : δ → List α}
    {ds : δ → List Diagnostic}
    (h : List.Forall₂ (fun a b => Accounted (all a) (kept b) (ds b)) as bs) :
    Accounted (as.flatMap all) (bs.flatMap kept) (bs.flatMap ds) := by
  induction h with
  | nil => exact .refl [] rfl
  | cons h _ ih => exact h.append ih

end Accounted

end AnnotatedApi
