import AnnotatedApi.Number.Shortest
import Mathlib.Tactic

/-!
# Which numbers round to a double

The numbers that round to a double form an interval around it. The intervals of different doubles have
no number in common: two neighbours meet at a midpoint, and only the even one owns it. So a decimal
that reads back as a double tells the double.
-/

namespace AnnotatedApi.Binary64

set_option autoImplicit false

theorem binade_pos : 0 < binade := Nat.pow_pos (Nat.succ_pos 1)

theorem even_binade : Even binade := ⟨Nat.pow 2 51, by norm_num [binade]⟩

theorem parts_of_lt {rank : Nat} (h : rank < binade) : parts rank = (rank, 0) := by
  simp [parts, Nat.div_eq_of_lt h]

theorem parts_add {place offset : Nat} (h : offset < binade) :
    parts ((place + 1) * binade + offset) = (offset + binade, place) := by
  have hpos := binade_pos
  have hdiv : ((place + 1) * binade + offset) / binade = place + 1 := by
    rw [Nat.add_comm, Nat.add_mul_div_right _ _ hpos, Nat.div_eq_of_lt h, Nat.zero_add]
  have hmod : ((place + 1) * binade + offset) % binade = offset := by
    rw [Nat.add_comm, Nat.add_mul_mod_self_right, Nat.mod_eq_of_lt h]
  simp [parts, hdiv, hmod]

/-- A rank lies below the first binade, or at an offset in a later one. -/
theorem rank_cases (rank : Nat) : rank < binade ∨ ∃ place offset, offset < binade ∧
    rank = (place + 1) * binade + offset := by
  by_cases h : rank < binade
  · exact .inl h
  · have hpos : 0 < binade := binade_pos
    refine .inr ⟨rank / binade - 1, rank % binade, Nat.mod_lt _ hpos, ?_⟩
    have hplace : 1 ≤ rank / binade := (Nat.one_le_div_iff hpos).mpr (Nat.not_lt.mp h)
    rw [Nat.sub_add_cancel hplace, Nat.mul_comm, Nat.div_add_mod]

/-- Whether the interval below a rank is the shorter one. -/
def FirstOfBinade (rank : Nat) : Prop := (parts rank).1 = binade ∧ 0 < (parts rank).2

theorem low_of_not_first {rank : Nat} (h : ¬ FirstOfBinade rank) :
    (neighbourhood rank).low = 4 * (parts rank).1 - 2 :=
  if_neg h

theorem low_of_first {rank : Nat} (h : FirstOfBinade rank) :
    (neighbourhood rank).low = 4 * (parts rank).1 - 1 :=
  if_pos h

theorem neighbourhood_high (rank : Nat) : (neighbourhood rank).high = 4 * (parts rank).1 + 2 := rfl

theorem even_parts (rank : Nat) : Even (parts rank).1 ↔ Even rank := by
  rcases rank_cases rank with h | ⟨place, offset, h, rfl⟩
  · rw [parts_of_lt h]
  · rw [parts_add h]
    have := even_binade
    generalize binade = B at *
    simp only [Nat.even_add, Nat.even_mul, this, or_true, iff_true, true_iff]

theorem closed_iff_even (rank : Nat) : (neighbourhood rank).closed = true ↔ Even rank := by
  rw [← even_parts, Nat.even_iff]
  exact beq_iff_eq

/-- The step to the next rank: one more in the same last place, or, behind the last of a binade, the
first of the next, whose last place is twice as large. -/
theorem parts_succ (rank : Nat) :
    ((parts (rank + 1)).1 = (parts rank).1 + 1 ∧ (parts (rank + 1)).2 = (parts rank).2 ∧
      ¬ FirstOfBinade (rank + 1)) ∨
    (FirstOfBinade (rank + 1) ∧ (parts rank).1 + 1 = 2 * binade ∧
      (parts (rank + 1)).2 = (parts rank).2 + 1) := by
  have hpos := binade_pos
  rcases rank_cases rank with h | ⟨place, offset, h, rfl⟩
  · refine .inl ?_
    rcases Nat.lt_or_ge (rank + 1) binade with hnext | hnext
    · rw [FirstOfBinade, parts_of_lt h, parts_of_lt hnext]
      exact ⟨rfl, rfl, fun hfirst => absurd hfirst.2 (lt_irrefl 0)⟩
    · have hlast : rank + 1 = binade := Nat.le_antisymm h hnext
      have hparts : parts (rank + 1) = (0 + binade, 0) := by
        rw [← parts_add hpos, hlast, Nat.zero_add, Nat.one_mul, Nat.add_zero]
      rw [FirstOfBinade, hparts, parts_of_lt h, Nat.zero_add]
      exact ⟨hlast.symm, rfl, fun hfirst => absurd hfirst.2 (lt_irrefl 0)⟩
  · rcases Nat.lt_or_ge (offset + 1) binade with hnext | hnext
    · refine .inl ?_
      rw [FirstOfBinade, Nat.add_assoc, parts_add h, parts_add hnext]
      refine ⟨Nat.add_right_comm _ _ _, rfl, fun hfirst => ?_⟩
      exact absurd hfirst.1 (Nat.ne_of_gt (Nat.lt_add_of_pos_left offset.succ_pos))
    · have hlast : offset + 1 = binade := Nat.le_antisymm h hnext
      have hrank : (place + 1) * binade + offset + 1 = (place + 1 + 1) * binade + 0 := by
        rw [Nat.add_assoc, hlast, Nat.add_zero ((place + 1 + 1) * binade), Nat.succ_mul (place + 1)]
      refine .inr ?_
      rw [FirstOfBinade, hrank, parts_add hpos, parts_add h]
      refine ⟨⟨Nat.zero_add _, place.succ_pos⟩, ?_, rfl⟩
      rw [Nat.add_right_comm, hlast, Nat.two_mul]

/-- A quarter of the last place of the least ranks. -/
def leastQuarter : ℚ := (2 ^ 1076)⁻¹

/-- A quarter of the last place of a rank. -/
def quarter (rank : Nat) : ℚ := 2 ^ (parts rank).2 * leastQuarter

/-- The number of a finite rank. -/
def valueOf (rank : Nat) : ℚ := 4 * (parts rank).1 * quarter rank

def lowEnd (rank : Nat) : ℚ := (neighbourhood rank).low * quarter rank

def highEnd (rank : Nat) : ℚ := (neighbourhood rank).high * quarter rank

/-- Whether a number rounds to the rank. -/
def RoundsTo (rank : Nat) (q : ℚ) : Prop :=
  if (neighbourhood rank).closed then lowEnd rank ≤ q ∧ q ≤ highEnd rank
  else lowEnd rank < q ∧ q < highEnd rank

theorem leastQuarter_pos : 0 < leastQuarter := by
  unfold leastQuarter
  positivity

theorem quarter_pos (rank : Nat) : 0 < quarter rank := mul_pos (by positivity) leastQuarter_pos

theorem parts_pos {rank : Nat} (h : 0 < rank) : 0 < (parts rank).1 := by
  rcases rank_cases rank with hlt | ⟨place, offset, hlt, rfl⟩
  · rwa [parts_of_lt hlt]
  · rw [parts_add hlt]
    exact Nat.add_pos_right offset binade_pos

theorem parts_lt (rank : Nat) : (parts rank).1 < 2 * binade := by
  rcases rank_cases rank with hlt | ⟨place, offset, hlt, rfl⟩
  · rw [parts_of_lt hlt, Nat.two_mul]
    exact Nat.lt_add_right _ hlt
  · rw [parts_add hlt, Nat.two_mul]
    exact Nat.add_lt_add_right hlt _

/-- The intervals of two neighbours meet. -/
theorem highEnd_eq_lowEnd (rank : Nat) : highEnd rank = lowEnd (rank + 1) := by
  rcases parts_succ rank with ⟨hm, he, hne⟩ | ⟨hfirst, hlast, he⟩
  · have hlow : (neighbourhood (rank + 1)).low = (neighbourhood rank).high := by
      rw [low_of_not_first hne, hm, neighbourhood_high]
      omega
    rw [highEnd, lowEnd, hlow, quarter, quarter, he]
  · have hlow : (neighbourhood (rank + 1)).low * 2 = (neighbourhood rank).high := by
      rw [low_of_first hfirst, hfirst.1, neighbourhood_high]
      generalize binade = B at hlast
      omega
    rw [highEnd, lowEnd, ← hlow, quarter, quarter, he, pow_succ]
    push_cast
    ring

theorem lowEnd_lt_valueOf {rank : Nat} (h : 0 < rank) : lowEnd rank < valueOf rank := by
  have hlow : (neighbourhood rank).low < 4 * (parts rank).1 := by
    have hpos := parts_pos h
    by_cases hfirst : FirstOfBinade rank
    · rw [low_of_first hfirst]
      omega
    · rw [low_of_not_first hfirst]
      omega
  refine mul_lt_mul_of_pos_right ?_ (quarter_pos rank)
  exact_mod_cast hlow

theorem valueOf_lt_highEnd (rank : Nat) : valueOf rank < highEnd rank := by
  refine mul_lt_mul_of_pos_right ?_ (quarter_pos rank)
  rw [neighbourhood_high]
  push_cast
  linarith

theorem lowEnd_mono {rank rank' : Nat} (h : 0 < rank) (hle : rank ≤ rank') :
    lowEnd rank ≤ lowEnd rank' := by
  induction rank', hle using Nat.le_induction with
  | base => exact le_rfl
  | succ n hn ih =>
    rw [← highEnd_eq_lowEnd]
    exact ih.trans ((lowEnd_lt_valueOf (h.trans_le hn)).trans (valueOf_lt_highEnd n)).le

theorem lowEnd_pos {rank : Nat} (h : 0 < rank) : 0 < lowEnd rank := by
  refine lt_of_lt_of_le ?_ (lowEnd_mono Nat.one_pos h)
  have hlow : (neighbourhood 1).low = 2 := by decide
  rw [lowEnd, hlow]
  exact mul_pos (by norm_num) (quarter_pos 1)

theorem RoundsTo.le {rank : Nat} {q : ℚ} (h : RoundsTo rank q) : lowEnd rank ≤ q ∧ q ≤ highEnd rank := by
  unfold RoundsTo at h
  split at h
  · exact h
  · exact ⟨h.1.le, h.2.le⟩

theorem roundsTo_of_lt {rank : Nat} {q : ℚ} (hlow : lowEnd rank < q) (hhigh : q < highEnd rank) :
    RoundsTo rank q := by
  unfold RoundsTo
  split
  · exact ⟨hlow.le, hhigh.le⟩
  · exact ⟨hlow, hhigh⟩

theorem roundsTo_valueOf {rank : Nat} (h : 0 < rank) : RoundsTo rank (valueOf rank) :=
  roundsTo_of_lt (lowEnd_lt_valueOf h) (valueOf_lt_highEnd rank)

theorem RoundsTo.even {rank : Nat} {q : ℚ} (h : RoundsTo rank q) (hend : q = lowEnd rank ∨ q = highEnd rank) :
    Even rank := by
  rw [← closed_iff_even]
  unfold RoundsTo at h
  split at h
  · assumption
  · rcases hend with rfl | rfl
    · exact absurd h.1 (lt_irrefl _)
    · exact absurd h.2 (lt_irrefl _)

/-- A number does not round to a rank and to a larger one. -/
theorem RoundsTo.not_lt {m n : Nat} {q : ℚ} (h : RoundsTo m q) (h' : RoundsTo n q) :
    ¬ m < n := by
  intro hlt
  have hmeet : highEnd m ≤ lowEnd n := highEnd_eq_lowEnd m ▸ lowEnd_mono (Nat.succ_pos m) hlt
  have hqm : q = highEnd m := le_antisymm h.le.2 (hmeet.trans h'.le.1)
  have hqn : q = lowEnd n := le_antisymm (h.le.2.trans hmeet) h'.le.1
  -- Both own the end, so both are even, and there is a rank between them.
  have hroom : m + 2 ≤ n := by
    obtain ⟨i, hi⟩ := h.even (.inr hqm)
    obtain ⟨j, hj⟩ := h'.even (.inl hqn)
    omega
  have hgap : lowEnd (m + 1) < lowEnd n := by
    calc lowEnd (m + 1) < valueOf (m + 1) := lowEnd_lt_valueOf (Nat.succ_pos m)
      _ < highEnd (m + 1) := valueOf_lt_highEnd (m + 1)
      _ = lowEnd (m + 2) := highEnd_eq_lowEnd (m + 1)
      _ ≤ lowEnd n := lowEnd_mono (Nat.succ_pos _) hroom
  rw [← highEnd_eq_lowEnd, ← hqm, ← hqn] at hgap
  exact lt_irrefl _ hgap

/-- A number rounds to one rank only. -/
theorem RoundsTo.unique {m n : Nat} {q : ℚ} (h : RoundsTo m q)
    (h' : RoundsTo n q) : m = n :=
  Nat.le_antisymm (Nat.not_lt.mp (h'.not_lt h)) (Nat.not_lt.mp (h.not_lt h'))

end AnnotatedApi.Binary64
