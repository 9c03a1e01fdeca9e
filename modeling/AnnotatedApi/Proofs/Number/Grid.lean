import AnnotatedApi.Proofs.Number.Rounding

/-!
# The shortest decimal reads back

The two neighbours of a double on a grid that is finer than the interval around it: one of them lies in
the interval. Seventeen digits give such a grid for every double, so the search for the shortest
decimal ends with one that rounds to the double.
-/

namespace AnnotatedApi.Binary64

set_option autoImplicit false

/-! ## The comparisons on the grid -/

theorem powerOfTen_pos (k : Int) : 0 < (powerOfTen k).1 ∧ 0 < (powerOfTen k).2 := by
  have hpow : 0 < Nat.pow 10 k.natAbs := Nat.pow_pos (by norm_num)
  unfold powerOfTen
  split
  · exact ⟨Nat.one_pos, hpow⟩
  · exact ⟨hpow, Nat.one_pos⟩

theorem powerOfTen_eq (k : Int) : ((powerOfTen k).1 : ℚ) / (powerOfTen k).2 = 10 ^ k := by
  unfold powerOfTen
  split
  · rename_i h
    obtain ⟨n, rfl⟩ := Int.eq_negSucc_of_lt_zero h
    simp [zpow_negSucc]
  · rename_i h
    obtain ⟨n, rfl⟩ := Int.eq_ofNat_of_zero_le (not_lt.mp h)
    simp

theorem quarterPlace_eq (rank : Nat) :
    ((quarterPlace rank).1 : ℚ) / (quarterPlace rank).2 = quarter rank := by
  unfold quarterPlace quarter leastQuarter
  generalize 1076 = bits
  simp [div_eq_mul_inv]

theorem quarterPlace_pos (rank : Nat) : 0 < (quarterPlace rank).2 := by
  unfold quarterPlace
  generalize 1076 = bits
  exact Nat.pow_pos (by norm_num)

/-- Two quotients compare as the products across. -/
theorem cross_le {a b p q u v : Nat} (hq : 0 < q) (hv : 0 < v) :
    a * (u * q) ≤ b * (p * v) ↔ (a : ℚ) * (u / v) ≤ b * (p / q) := by
  have hq' : (0 : ℚ) < q := by exact_mod_cast hq
  have hv' : (0 : ℚ) < v := by exact_mod_cast hv
  rw [← mul_div_assoc, ← mul_div_assoc, div_le_div_iff₀ hv' hq', mul_assoc, mul_assoc]
  exact_mod_cast Iff.rfl

variable {rank : Nat}

/-- What is looked at on a grid: the two neighbours of the double, and whether they lie in the interval. -/
theorem onGrid_spec (tie : DecimalTie) (rank : Nat) (scale : Int) : ∃ below : Nat,
    below * 10 ^ scale ≤ valueOf rank ∧ valueOf rank < (below + 1 : Nat) * 10 ^ scale ∧
      (∀ n, onGrid tie rank scale = some n → RoundsTo rank (n * 10 ^ scale)) ∧
      (onGrid tie rank scale = none →
        ¬ RoundsTo rank (below * 10 ^ scale) ∧ ¬ RoundsTo rank ((below + 1 : Nat) * 10 ^ scale)) := by
  have hvalue : valueOf rank = (neighbourhood rank).value * quarter rank := by
    simp [valueOf, neighbourhood]
  have hu := quarterPlace_pos rank
  have hquarter := quarterPlace_eq rank
  obtain ⟨hp, hq⟩ := powerOfTen_pos scale
  have hpower := powerOfTen_eq scale
  unfold onGrid
  generalize quarterPlace rank = unit at *
  generalize powerOfTen scale = power at *
  obtain ⟨unitNum, unitDen⟩ := unit
  obtain ⟨gridNum, gridDen⟩ := power
  dsimp -zeta only at *
  extract_lets n quarter' step value below fits twice upper
  have hle : ∀ a k : Nat, a * quarter' ≤ k * step ↔ (a : ℚ) * quarter rank ≤ k * 10 ^ scale := by
    intro a k
    rw [← hquarter, ← hpower, cross_le hq hu]
  have hge : ∀ a k : Nat, k * step ≤ a * quarter' ↔ (k : ℚ) * 10 ^ scale ≤ a * quarter rank := by
    intro a k
    rw [← hquarter, ← hpower, cross_le hu hq]
  have hfits : ∀ k, fits k = true ↔ RoundsTo rank (k * 10 ^ scale) := by
    intro k
    dsimp only [fits, n]
    unfold RoundsTo lowEnd highEnd
    split <;> simp only [Bool.and_eq_true, decide_eq_true_eq, ← not_le, hle, hge]
  have hstep : 0 < step := Nat.mul_pos hp hu
  refine ⟨below, ?_, ?_, ?_, ?_⟩
  · rw [hvalue, ← hge]
    exact Nat.div_mul_le_self _ _
  · rw [hvalue, ← not_le, ← hge, not_le]
    exact (Nat.div_lt_iff_lt_mul hstep).mp (Nat.lt_succ_self _)
  · intro k hk
    rw [← hfits]
    cases hbelow : fits below <;> cases habove : fits (below + 1) <;> rw [hbelow, habove] at hk <;> grind
  · intro hnone
    rw [← hfits, ← hfits]
    cases hbelow : fits below <;> cases habove : fits (below + 1) <;> simp [hbelow, habove] at hnone ⊢

/-! ## Seventeen digits suffice -/

/-- The interval is wider than a part in ten to the sixteenth of the double. -/
theorem valueOf_lt_width (h : 0 < rank) : valueOf rank < 10 ^ 16 * (highEnd rank - lowEnd rank) := by
  have hquarter := quarter_pos rank
  have hpos := parts_pos h
  have hbinade : (binade : ℚ) = 2 ^ 52 := by norm_num [binade]
  unfold valueOf highEnd lowEnd
  rw [neighbourhood_high]
  by_cases hfirst : FirstOfBinade rank
  · have hone : 1 ≤ 4 * (parts rank).1 := by omega
    rw [low_of_first hfirst, Nat.cast_sub hone, hfirst.1]
    push_cast
    rw [hbinade]
    linarith
  · have htwo : 2 ≤ 4 * (parts rank).1 := by omega
    have hlt : ((parts rank).1 : ℚ) < 2 * 2 ^ 52 := by
      rw [← hbinade]
      exact_mod_cast parts_lt rank
    rw [low_of_not_first hfirst, Nat.cast_sub htwo]
    push_cast
    nlinarith

/-- A grid with seventeen digits for the double has a point in the interval. -/
theorem exists_onGrid (tie : DecimalTie) (scale : Int) (h : 0 < rank)
    (hfine : (10 : ℚ) ^ 16 * 10 ^ scale ≤ valueOf rank) : ∃ n, onGrid tie rank scale = some n := by
  obtain ⟨below, hbelow, habove, -, hnone⟩ := onGrid_spec tie rank scale
  rw [← Option.ne_none_iff_exists']
  intro hempty
  obtain ⟨hnotBelow, hnotAbove⟩ := hnone hempty
  have hstep : (10 : ℚ) ^ scale < highEnd rank - lowEnd rank :=
    lt_of_mul_lt_mul_left (hfine.trans_lt (valueOf_lt_width h)) (by norm_num)
  have hlow : below * 10 ^ scale ≤ lowEnd rank := by
    by_contra hlt
    exact hnotBelow (roundsTo_of_lt (not_le.mp hlt) (hbelow.trans_lt (valueOf_lt_highEnd rank)))
  refine hnotAbove (roundsTo_of_lt ((lowEnd_lt_valueOf h).trans habove) ?_)
  push_cast
  linarith

/-- Powers compare as the exponents do, in the ratio of two powers that are known. -/
theorem pow_le_pow_of_ratio {a b i j m n : Nat} (hb : 0 < b) (hm : m ≠ 0) (h : a ^ m ≤ b ^ n)
    (hij : n * i ≤ m * j) : a ^ i ≤ b ^ j := by
  refine (Nat.pow_le_pow_iff_left hm).mp ?_
  calc (a ^ i) ^ m = (a ^ m) ^ i := by rw [← Nat.pow_mul, ← Nat.pow_mul, Nat.mul_comm]
    _ ≤ (b ^ n) ^ i := Nat.pow_le_pow_left h i
    _ = b ^ (n * i) := (Nat.pow_mul b n i).symm
    _ ≤ b ^ (m * j) := Nat.pow_le_pow_right hb hij
    _ = (b ^ j) ^ m := by rw [← Nat.pow_mul, Nat.mul_comm]

/-- The estimate of the logarithm of two is exact enough for the exponents of doubles. -/
theorem ten_zpow_le {k x : Int} (h : (k + 1) * 100000 ≤ x * 30103) (hlow : -20000 ≤ x) (hhigh : x ≤ 20000) :
    (10 : ℚ) ^ k ≤ 2 ^ x := by
  obtain ⟨i, rfl | rfl⟩ := Int.eq_nat_or_neg k <;> obtain ⟨j, rfl | rfl⟩ := Int.eq_nat_or_neg x
  · have hpow : 10 ^ i ≤ 2 ^ j :=
      pow_le_pow_of_ratio (m := 59) (n := 196) (by norm_num) (by norm_num) (by norm_num) (by omega)
    rw [zpow_natCast, zpow_natCast]
    exact_mod_cast hpow
  · omega
  · calc (10 : ℚ) ^ (-(i : Int)) ≤ 1 := zpow_le_one_of_nonpos₀ (by norm_num) (by omega)
      _ ≤ 2 ^ (j : Int) := one_le_zpow₀ (by norm_num) (by omega)
  · have hpow : 2 ^ j ≤ 10 ^ i :=
      pow_le_pow_of_ratio (m := 93) (n := 28) (by norm_num) (by norm_num) (by norm_num) (by omega)
    rw [zpow_neg, zpow_neg, zpow_natCast, zpow_natCast]
    refine inv_anti₀ (by positivity) ?_
    exact_mod_cast hpow

/-- A quotient is not below half the quotient of the leading powers of two. -/
theorem zpow_log2_le {num den : Nat} (hnum : num ≠ 0) (hden : den ≠ 0) :
    (2 : ℚ) ^ ((num.log2 : Int) - den.log2 - 1) ≤ num / den := by
  have hle : (2 : ℚ) ^ num.log2 ≤ num := by exact_mod_cast Nat.log2_self_le hnum
  have hlt : (den : ℚ) ≤ 2 ^ (den.log2 + 1) := by exact_mod_cast (Nat.lt_log2_self (n := den)).le
  calc (2 : ℚ) ^ ((num.log2 : Int) - den.log2 - 1) = 2 ^ num.log2 / 2 ^ (den.log2 + 1) := by
        rw [sub_sub, zpow_sub₀ (by norm_num)]
        norm_cast
    _ ≤ num / den := by gcongr

/-- A quotient has at least as many digits before the point as are counted. -/
theorem magnitudeOfTen_le {num den : Nat} (hnum : num ≠ 0) (hden : den ≠ 0)
    (hlow : -10000 ≤ (num.log2 : Int) - den.log2) (hhigh : (num.log2 : Int) - den.log2 ≤ 10000) :
    (10 : ℚ) ^ (magnitudeOfTen num den - 1) ≤ num / den := by
  have hnot : ∀ k : Int, ¬ num * (powerOfTen k).2 < den * (powerOfTen k).1 → (10 : ℚ) ^ k ≤ num / den := by
    intro k hk
    have hcast : (den : ℚ) * (powerOfTen k).1 ≤ num * (powerOfTen k).2 := by exact_mod_cast not_lt.mp hk
    have hpos : (0 : ℚ) < (powerOfTen k).2 := by exact_mod_cast (powerOfTen_pos k).2
    have hdenpos : (0 : ℚ) < den := by exact_mod_cast Nat.pos_of_ne_zero hden
    rw [← powerOfTen_eq, div_le_div_iff₀ hpos hdenpos]
    linarith
  have hestimate : ∀ k : Int, (k + 1) * 100000 ≤ ((num.log2 : Int) - den.log2 - 1) * 30103 →
      (10 : ℚ) ^ k ≤ num / den := fun k hk =>
    (ten_zpow_le hk (by omega) (by omega)).trans (zpow_log2_le hnum hden)
  unfold magnitudeOfTen
  dsimp only
  split_ifs with h0 h1 h2
  · exact hestimate _ (by omega)
  · rw [add_sub_cancel_right]
    exact hnot _ (by simpa using h0)
  · rw [add_sub_assoc]
    exact hnot _ (by simpa using h1)
  · rw [add_sub_assoc]
    exact hnot _ (by simpa using h2)

/-! ## The search -/

theorem quotient_eq (rank : Nat) : ((quotient rank).1 : ℚ) / (quotient rank).2 = valueOf rank := by
  have hleast : ∀ bits : Nat, ((2 : ℚ) ^ (2 + bits))⁻¹ = (4 * 2 ^ bits)⁻¹ := by
    intro bits
    rw [pow_add]
    norm_num
  unfold quotient valueOf quarter
  rw [show leastQuarter = _ from hleast 1074]
  generalize 1074 = bits
  dsimp only
  push_cast [Nat.pow_eq]
  field_simp

theorem quotient_pos (h : 0 < rank) : (quotient rank).1 ≠ 0 ∧ (quotient rank).2 ≠ 0 := by
  unfold quotient
  generalize 1074 = bits
  have hpow : ∀ k, 0 < Nat.pow 2 k := fun k => Nat.pow_pos (by norm_num)
  exact ⟨(Nat.mul_pos (parts_pos h) (hpow _)).ne', (hpow _).ne'⟩

/-- The exponents of the finite doubles lie within the reach of the estimate. -/
theorem quotient_log2 (hpos : 0 < rank) (hfinite : rank < infinityRank) :
    -10000 ≤ ((quotient rank).1.log2 : Int) - (quotient rank).2.log2 ∧
      ((quotient rank).1.log2 : Int) - (quotient rank).2.log2 ≤ 10000 := by
  have hden : (quotient rank).2.log2 = 1074 := by
    unfold quotient
    generalize 1074 = bits
    exact Nat.log2_two_pow
  have hplace : (parts rank).2 ≤ 2046 := by
    rcases rank_cases rank with h | ⟨place, offset, h, rfl⟩
    · rw [parts_of_lt h]
      exact Nat.zero_le _
    · rw [parts_add h]
      have hlt : (place + 1) * binade < 2047 * binade := (Nat.le_add_right _ _).trans_lt hfinite
      have := Nat.lt_of_mul_lt_mul_right hlt
      omega
  have hnum : (quotient rank).1 < 2 ^ (53 + (parts rank).2) := by
    rw [pow_add]
    refine Nat.mul_lt_mul_of_pos_right ?_ (Nat.pow_pos (by norm_num))
    calc (parts rank).1 < 2 * binade := parts_lt rank
      _ = 2 ^ 53 := by norm_num [binade]
  have hlog := (Nat.log2_lt (quotient_pos hpos).1).mpr hnum
  omega

/-- The shortest decimal of a double rounds to it. -/
theorem shortest_spec (tie : DecimalTie) (hpos : 0 < rank) (hfinite : rank < infinityRank) :
    ∃ n scale, 0 < n ∧ shortest tie rank = Decimal.ofScaled n scale ∧ RoundsTo rank (n * 10 ^ scale) := by
  obtain ⟨hnum, hden⟩ := quotient_pos hpos
  obtain ⟨hlow, hhigh⟩ := quotient_log2 hpos hfinite
  have htop := magnitudeOfTen_le hnum hden hlow hhigh
  rw [quotient_eq] at htop
  have hlast : (16 : Nat) ∈ List.range 17 := by decide
  unfold shortest
  dsimp only
  generalize magnitudeOfTen (quotient rank).1 (quotient rank).2 = top at htop
  obtain ⟨m, hm⟩ := exists_onGrid tie (top - (16 + 1 : Nat)) hpos (by
    rw [← zpow_natCast, ← zpow_add₀ (by norm_num)]
    refine le_of_eq_of_le (congrArg _ ?_) htop
    push_cast
    ring)
  cases hhit : (List.range 17).findSome? fun i =>
      (onGrid tie rank (top - (i + 1 : Nat))).map fun n => Decimal.ofScaled n (top - (i + 1 : Nat)) with
  | none =>
    have := List.findSome?_eq_none_iff.mp hhit 16 hlast
    rw [hm] at this
    cases this
  | some d =>
    obtain ⟨i, -, hi⟩ := List.exists_of_findSome?_eq_some hhit
    obtain ⟨n, hn, rfl⟩ := Option.map_eq_some_iff.mp hi
    obtain ⟨-, -, -, hround, -⟩ := onGrid_spec tie rank (top - (i + 1 : Nat))
    have hrounds := hround n hn
    refine ⟨n, _, Nat.pos_of_ne_zero fun hzero => ?_, rfl, hrounds⟩
    have hend := hrounds.le.1
    rw [hzero, Nat.cast_zero, zero_mul] at hend
    exact absurd hend (not_le.mpr (lowEnd_pos hpos))

end AnnotatedApi.Binary64
