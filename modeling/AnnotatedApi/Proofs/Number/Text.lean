import AnnotatedApi.Proofs.Number.Grid
import AnnotatedApi.Proofs.Text.Quoted
import AnnotatedApi.WireType.Basic
import Mathlib.Data.List.TakeWhile

/-!
# What the text of a number tells

The text of a finite number is a sign and a numeral. What the numeral spells is the magnitude itself or
a decimal that rounds to it, and no two magnitudes have such a number in common. So the text tells
everything but which of the two zeros it stands for.
-/

namespace AnnotatedApi

set_option autoImplicit false

/-! ## Numerals -/

/-- Digits with at most a point between them, the first before the point. -/
def Numeral (cs : List Char) : Prop :=
  ∃ c rest, cs = c :: rest ∧ c.isDigit = true ∧ ∀ e ∈ rest, e = '.' ∨ e.isDigit = true

/-- What the digits spell, read as a whole number. -/
def digitsValue (cs : List Char) : Nat := Nat.ofDigitChars 10 cs 0

/-- What a numeral spells. -/
def numeralValue (cs : List Char) : ℚ :=
  digitsValue (cs.filter (· ≠ '.')) / 10 ^ (cs.dropWhile (· ≠ '.')).tail.length

theorem digitsValue_append_zeros (cs : List Char) (n : Nat) :
    digitsValue (cs ++ List.replicate n '0') = 10 ^ n * digitsValue cs := by
  rw [digitsValue, Nat.ofDigitChars_append, Nat.ofDigitChars_replicate_zero]
  rfl

theorem digitsValue_zeros_append (cs : List Char) (n : Nat) :
    digitsValue (List.replicate n '0' ++ cs) = digitsValue cs := by
  rw [digitsValue, Nat.ofDigitChars_append, Nat.ofDigitChars_replicate_zero]
  rfl

theorem isDigit_ne_point {c : Char} (h : c.isDigit = true) : c ≠ '.' := by
  rintro rfl
  exact absurd h (by decide)

theorem filter_of_isDigit {cs : List Char} (h : ∀ c ∈ cs, c.isDigit = true) :
    cs.filter (· ≠ '.') = cs :=
  List.filter_eq_self.mpr fun c hc => by simpa using isDigit_ne_point (h c hc)

theorem numeralValue_of_isDigit {cs : List Char} (h : ∀ c ∈ cs, c.isDigit = true) :
    numeralValue cs = digitsValue cs := by
  have hdrop : cs.dropWhile (· ≠ '.') = [] := List.dropWhile_eq_nil_iff.mpr fun c hc => by
    simpa using isDigit_ne_point (h c hc)
  rw [numeralValue, filter_of_isDigit h, hdrop]
  simp

theorem numeralValue_point {cs ds : List Char} (hcs : ∀ c ∈ cs, c.isDigit = true)
    (hds : ∀ c ∈ ds, c.isDigit = true) :
    numeralValue (cs ++ '.' :: ds) = digitsValue (cs ++ ds) / 10 ^ ds.length := by
  have hdrop : (cs ++ '.' :: ds).dropWhile (· ≠ '.') = '.' :: ds := by
    rw [List.dropWhile_append_of_pos fun c hc => by simpa using isDigit_ne_point (hcs c hc)]
    simp
  rw [numeralValue, hdrop, List.filter_append, List.filter_cons_of_neg (by simp), filter_of_isDigit hcs,
    filter_of_isDigit hds]
  rfl

theorem numeral_of_isDigit {cs : List Char} (hne : cs ≠ []) (h : ∀ c ∈ cs, c.isDigit = true) :
    Numeral cs := by
  obtain ⟨c, rest, rfl⟩ := List.exists_cons_of_ne_nil hne
  obtain ⟨hc, hrest⟩ := List.forall_mem_cons.mp h
  exact ⟨c, rest, rfl, hc, fun e he => .inr (hrest e he)⟩

theorem numeral_point {cs ds : List Char} (hne : cs ≠ []) (hcs : ∀ c ∈ cs, c.isDigit = true)
    (hds : ∀ c ∈ ds, c.isDigit = true) : Numeral (cs ++ '.' :: ds) := by
  obtain ⟨c, rest, rfl⟩ := List.exists_cons_of_ne_nil hne
  obtain ⟨hc, hrest⟩ := List.forall_mem_cons.mp hcs
  refine ⟨c, rest ++ '.' :: ds, rfl, hc, fun e he => ?_⟩
  rcases List.mem_append.mp he with he | he
  · exact .inr (hrest e he)
  · rcases List.mem_cons.mp he with rfl | he
    · exact .inl rfl
    · exact .inr (hds e he)

theorem isDigit_digitChar {n : Nat} (h : n < 10) : n.digitChar.isDigit = true :=
  (by decide : ∀ i : Fin 10, (Nat.digitChar i).isDigit = true) ⟨n, h⟩

theorem isDigit_zeros {n : Nat} : ∀ c ∈ List.replicate n '0', c.isDigit = true := by
  intro c hc
  rw [List.eq_of_mem_replicate hc]
  decide

/-! ## The positional text of a decimal -/

namespace Decimal

/-- Whether the decimal has digits, in the narrow sense. -/
structure Proper (d : Decimal) : Prop where
  ne_nil : d.digits ≠ []
  lt : ∀ k ∈ d.digits, k < 10

def characters (d : Decimal) : List Char := d.digits.map Nat.digitChar

def value (d : Decimal) : ℚ := digitsValue d.characters * 10 ^ (d.exponent + 1 - d.digits.length)

theorem Proper.isDigit {d : Decimal} (h : d.Proper) : ∀ c ∈ d.characters, c.isDigit = true := by
  intro c hc
  obtain ⟨k, hk, rfl⟩ := List.mem_map.mp hc
  exact isDigit_digitChar (h.lt k hk)

theorem map_digitChar_digitsOf (n : Nat) : (digitsOf n).map Nat.digitChar = Nat.toDigits 10 n := by
  rw [digitsOf, List.map_map]
  refine (List.map_congr_left fun c hc => ?_).trans (List.map_id _)
  obtain ⟨k, hk, rfl⟩ := Text.mem_toDigits (by decide) hc
  exact (by decide : ∀ i : Fin 10, Nat.digitChar ((Nat.digitChar i).toNat - '0'.toNat) = Nat.digitChar i)
    ⟨k, hk⟩

/-- What is left without the trailing zeros, and how many they are. -/
theorem exists_zeros (ds : List Nat) :
    ∃ k, ds = (ds.reverse.dropWhile (· == 0)).reverse ++ List.replicate k 0 := by
  refine ⟨(ds.reverse.takeWhile (· == 0)).length, ?_⟩
  have hzeros : ds.reverse.takeWhile (· == 0) = List.replicate (ds.reverse.takeWhile (· == 0)).length 0 :=
    List.eq_replicate_of_mem fun k hk => by simpa using List.mem_takeWhile_imp hk
  rw [← List.reverse_replicate, ← hzeros, ← List.reverse_append, List.takeWhile_append_dropWhile,
    List.reverse_reverse]

theorem ofScaled_proper {n : Nat} (scale : Int) (h : 0 < n) : (ofScaled n scale).Proper := by
  obtain ⟨k, hk⟩ := exists_zeros (digitsOf n)
  have hmap := map_digitChar_digitsOf n
  refine ⟨fun hnil => ?_, fun j hj => ?_⟩
  · -- Nothing but zeros spells zero.
    have hvalue : digitsValue (Nat.toDigits 10 n) = n := Nat.ofDigitChars_ten_toDigits
    dsimp only [ofScaled] at hnil
    rw [hnil, List.nil_append] at hk
    rw [← hmap, hk, List.map_replicate] at hvalue
    have hzero := digitsValue_append_zeros [] k
    rw [List.nil_append] at hzero
    exact h.ne (hzero.symm.trans hvalue)
  · have hmem : j ∈ digitsOf n := by
      rw [hk]
      exact List.mem_append_left _ hj
    obtain ⟨c, hc, rfl⟩ := List.mem_map.mp hmem
    obtain ⟨i, hi, rfl⟩ := Text.mem_toDigits (by decide) hc
    exact (by decide : ∀ i : Fin 10, (Nat.digitChar i).toNat - '0'.toNat < 10) ⟨i, hi⟩

theorem ofScaled_value (n : Nat) (scale : Int) : (ofScaled n scale).value = n * 10 ^ scale := by
  obtain ⟨k, hk⟩ := exists_zeros (digitsOf n)
  have hvalue : digitsValue (Nat.toDigits 10 n) = n := Nat.ofDigitChars_ten_toDigits
  have hlength := congrArg List.length hk
  rw [List.length_append, List.length_replicate] at hlength
  rw [← map_digitChar_digitsOf, hk, List.map_append, List.map_replicate] at hvalue
  have hdigits : 10 ^ k * digitsValue (ofScaled n scale).characters = n :=
    (digitsValue_append_zeros _ k).symm.trans hvalue
  have hexponent : (ofScaled n scale).exponent + 1 - (ofScaled n scale).digits.length = k + scale := by
    dsimp only [ofScaled]
    omega
  rw [value, hexponent, zpow_add₀ (by norm_num), ← mul_assoc, zpow_natCast]
  congr 1
  rw [mul_comm]
  exact_mod_cast hdigits

end Decimal

open Decimal

namespace Binary64

@[simp] theorem toList_digitChars (ds : List Nat) : (digitChars ds).toList = ds.map Nat.digitChar := by
  simp [digitChars]

@[simp] theorem toList_zeros (n : Nat) : (zeros n).toList = List.replicate n '0' := by
  simp [zeros]

theorem toList_fraction {s : String} (h : s.toList ≠ []) :
    (if s.isEmpty then "" else "." ++ s).toList = '.' :: s.toList := by
  have hempty : s.isEmpty = false := by simpa using h
  simp [hempty]

/-- The characters of the positional text. -/
theorem toList_positional {d : Decimal} (hd : d.Proper) :
    (positional d 0).toList =
      if d.exponent < 0 then
        ['0'] ++ '.' :: (List.replicate (d.exponent.natAbs - 1) '0' ++ d.characters)
      else if d.digits.length ≤ d.exponent.toNat + 1 then
        d.characters ++ List.replicate (d.exponent.toNat + 1 - d.digits.length) '0'
      else d.characters.take (d.exponent.toNat + 1) ++ '.' :: d.characters.drop (d.exponent.toNat + 1) := by
  unfold positional
  by_cases hneg : d.exponent < 0
  · rw [if_pos hneg, if_pos hneg, String.toList_append, toList_fraction (by simpa using fun _ => hd.ne_nil)]
    simp [characters]
  · rw [if_neg hneg, if_neg hneg]
    by_cases hle : d.digits.length ≤ d.exponent.toNat + 1
    · rw [if_pos hle, if_pos hle]
      simp [characters, zeros]
    · rw [if_neg hle, if_neg hle, String.toList_append, toList_fraction (by simpa using hle)]
      simp [characters, List.map_take, List.map_drop]

/-- The positional text of a decimal spells the decimal. -/
theorem positional_spec {d : Decimal} (hd : d.Proper) :
    Numeral (positional d 0).toList ∧ numeralValue (positional d 0).toList = d.value := by
  have hdigits : ∀ c ∈ d.characters, c.isDigit = true := hd.isDigit
  have hlength : d.characters.length = d.digits.length := List.length_map _
  have hcount : 0 < d.digits.length := List.length_pos_of_ne_nil hd.ne_nil
  have hne : d.characters ≠ [] := List.ne_nil_of_length_pos (hlength ▸ hcount)
  rw [toList_positional hd, Decimal.value]
  split_ifs with hneg hle
  · -- Only zeros stand before the digits.
    obtain ⟨k, hk⟩ : ∃ k : Nat, d.exponent = -((k : Int) + 1) := ⟨d.exponent.natAbs - 1, by omega⟩
    have hzeros : d.exponent.natAbs - 1 = k := by omega
    have hall : ∀ c ∈ List.replicate k '0' ++ d.characters, c.isDigit = true := fun c hc =>
      (List.mem_append.mp hc).elim (isDigit_zeros c) (hdigits c)
    rw [hzeros]
    refine ⟨numeral_point (by simp) (by decide) hall, ?_⟩
    rw [numeralValue_point (by decide) hall, ← List.append_assoc, ← List.replicate_one,
      ← List.replicate_add, digitsValue_zeros_append, hk, List.length_append,
      List.length_replicate, hlength, div_eq_mul_inv, ← zpow_natCast, ← zpow_neg]
    congr 2
    push_cast
    ring
  · -- Only zeros follow the digits.
    have hall : ∀ c ∈ d.characters ++ List.replicate (d.exponent.toNat + 1 - d.digits.length) '0',
        c.isDigit = true := fun c hc => (List.mem_append.mp hc).elim (hdigits c) (isDigit_zeros c)
    refine ⟨numeral_of_isDigit (by simp [hne]) hall, ?_⟩
    rw [numeralValue_of_isDigit hall, digitsValue_append_zeros, mul_comm, Nat.cast_mul, Nat.cast_pow,
      Nat.cast_ofNat, ← zpow_natCast]
    congr 2
    omega
  · -- The point stands between the digits.
    have htake : ∀ c ∈ d.characters.take (d.exponent.toNat + 1), c.isDigit = true := fun c hc =>
      hdigits c (List.mem_of_mem_take hc)
    have hdrop : ∀ c ∈ d.characters.drop (d.exponent.toNat + 1), c.isDigit = true := fun c hc =>
      hdigits c (List.mem_of_mem_drop hc)
    refine ⟨numeral_point (by simp [hne]) htake hdrop, ?_⟩
    rw [numeralValue_point htake hdrop, List.take_append_drop, List.length_drop, hlength, div_eq_mul_inv,
      ← zpow_natCast, ← zpow_neg]
    congr 2
    omega

/-! ## The text of a number -/

/-- Whether the number is finite, and not the second of the two zeros. -/
structure Canonical (x : Binary64) : Prop where
  finite : x.isFinite = true
  zero : x.rank = 0 → x.negative = false

/-- The number with one zero in place of two. -/
def canonical (x : Binary64) : Binary64 := if x.rank = 0 then ⟨false, 0⟩ else x

theorem Canonical.of_finite {x : Binary64} (h : x.isFinite = true) : x.canonical.Canonical := by
  unfold canonical
  split
  · exact ⟨by decide, fun _ => rfl⟩
  · exact ⟨h, fun h' => absurd h' (by assumption)⟩

/-- Whether a numeral stands for the magnitude of a rank. -/
def SpelledBy (rank : Nat) (cs : List Char) : Prop :=
  Numeral cs ∧ if rank = 0 then numeralValue cs = 0 else RoundsTo rank (numeralValue cs)

theorem SpelledBy.unique {m n : Nat} {cs : List Char} (h : SpelledBy m cs) (h' : SpelledBy n cs) :
    m = n := by
  have hpos : ∀ {k : Nat}, RoundsTo k (numeralValue cs) → k ≠ 0 → numeralValue cs ≠ 0 := fun hround hk =>
    ((lowEnd_pos (Nat.pos_of_ne_zero hk)).trans_le hround.le.1).ne'
  obtain ⟨-, h⟩ := h
  obtain ⟨-, h'⟩ := h'
  split_ifs at h h' with hm hn hn
  · exact hm.trans hn.symm
  · exact absurd h (hpos h' hn)
  · exact absurd h' (hpos h hm)
  · exact h.unique h'

theorem spelledBy_plain {rank : Nat} (hpos : 0 < rank) (hfinite : rank < infinityRank) :
    SpelledBy rank (positional (shortest .upward rank) 0).toList := by
  obtain ⟨n, scale, hn, hshortest, hround⟩ := shortest_spec .upward hpos hfinite
  obtain ⟨hnumeral, hvalue⟩ := positional_spec (ofScaled_proper scale hn)
  rw [hshortest, SpelledBy, if_neg hpos.ne', hvalue, ofScaled_value]
  exact ⟨hnumeral, hround⟩

theorem spelledBy_whole {rank n : Nat} (h : valueOf rank = n) : SpelledBy rank (Nat.toDigits 10 n) := by
  have hdigits : ∀ c ∈ Nat.toDigits 10 n, c.isDigit = true := fun c hc =>
    Nat.isDigit_of_mem_toDigits (by decide) (by decide) hc
  have hvalue : numeralValue (Nat.toDigits 10 n) = n := by
    rw [numeralValue_of_isDigit hdigits]
    exact congrArg Nat.cast Nat.ofDigitChars_ten_toDigits
  refine ⟨numeral_of_isDigit Nat.toDigits_ne_nil hdigits, ?_⟩
  rw [hvalue, ← h]
  split
  · rename_i hzero
    rw [hzero]
    simp [valueOf, parts_of_lt binade_pos]
  · rename_i hne
    exact roundsTo_valueOf (Nat.pos_of_ne_zero hne)

/-- A whole number is its sign and its magnitude. -/
theorem toInt?_eq_some {x : Binary64} {k : Int} (h : x.toInt? = some k) :
    ∃ n : Nat, valueOf x.rank = n ∧ k = if x.negative then -(n : Int) else n := by
  unfold toInt? at h
  dsimp only at h
  split at h
  · rename_i hwhole
    rw [Bool.and_eq_true, beq_iff_eq] at hwhole
    have hden : (quotient x.rank).2 ≠ 0 := by
      unfold quotient
      generalize 1074 = bits
      exact (Nat.pow_pos (by norm_num)).ne'
    refine ⟨_, ?_, (Option.some.inj h).symm⟩
    rw [← quotient_eq, Nat.cast_div (Nat.dvd_of_mod_eq_zero hwhole.2) (by exact_mod_cast hden)]
  · cases h

end Binary64

open Binary64

namespace Literal

/-- The text of a number is its sign and a numeral of its magnitude. -/
theorem display_eq {x : Binary64} (hx : x.Canonical) : ∃ cs,
    (number x).display.toList = x.sign.toList ++ cs ∧ SpelledBy x.rank cs := by
  have hnan : x.isNaN = false := by
    have := hx.finite
    simp only [isFinite, isNaN, decide_eq_true_eq, decide_eq_false_iff_not] at this ⊢
    omega
  have hplain : ∃ cs, x.plainText.toList = x.sign.toList ++ cs ∧ SpelledBy x.rank cs := by
    unfold plainText
    rw [hnan, hx.finite]
    by_cases hzero : x.rank = 0
    · refine ⟨['0'], by simp [hzero], ?_⟩
      rw [hzero]
      exact spelledBy_whole (n := 0) (by simp [valueOf, parts_of_lt binade_pos])
    · refine ⟨_, ?_, spelledBy_plain (Nat.pos_of_ne_zero hzero) (by simpa [isFinite] using hx.finite)⟩
      simp [hzero]
  rw [display]
  cases hint : x.toInt? with
  | none => exact hplain
  | some k =>
    dsimp only
    split
    · obtain ⟨n, hvalue, rfl⟩ := toInt?_eq_some hint
      refine ⟨_, ?_, spelledBy_whole hvalue⟩
      rw [Int.toString_eq_repr, Int.repr_eq_if, sign]
      cases hneg : x.negative with
      | false => simp [Nat.repr_eq_ofList_toDigits]
      | true =>
        -- A zero with a sign would show none.
        have hne : n ≠ 0 := by
          rintro rfl
          have hrank : x.rank ≠ 0 := fun hzero => by simp [hx.zero hzero] at hneg
          have hpos := (lowEnd_pos (Nat.pos_of_ne_zero hrank)).trans
            (lowEnd_lt_valueOf (Nat.pos_of_ne_zero hrank))
          exact hpos.ne' (hvalue.trans Nat.cast_zero)
        simp [Nat.repr_eq_ofList_toDigits, hne]
    · exact hplain

/-- Numbers with one text are one number. -/
theorem number_eq_of_display_eq {x y : Binary64} (hx : x.Canonical) (hy : y.Canonical)
    (h : (number x).display = (number y).display) : x = y := by
  obtain ⟨cs, htext, hcs⟩ := display_eq hx
  obtain ⟨ds, htext', hds⟩ := display_eq hy
  obtain ⟨⟨c, cs', rfl, hc, -⟩, -⟩ := id hcs
  obtain ⟨⟨d, ds', rfl, hd, -⟩, -⟩ := id hds
  have hne : ∀ {e : Char}, e.isDigit = true → e ≠ '-' := by
    rintro _ he rfl
    exact absurd he (by decide)
  rw [h, htext'] at htext
  obtain ⟨negative, rank⟩ := x
  obtain ⟨negative', rank'⟩ := y
  cases negative <;> cases negative' <;> simp [sign] at htext
  · obtain ⟨rfl, rfl⟩ := htext
    rw [Binary64.mk.injEq]
    exact ⟨rfl, hcs.unique hds⟩
  · exact absurd htext.1.symm (hne hc)
  · exact absurd htext.1 (hne hd)
  · obtain ⟨rfl, rfl⟩ := htext
    rw [Binary64.mk.injEq]
    exact ⟨rfl, hcs.unique hds⟩

/-- The two zeros have one text. -/
theorem display_canonical (x : Binary64) : (number x.canonical).display = (number x).display := by
  unfold canonical
  split
  · rename_i hrank
    obtain ⟨negative, rank⟩ := x
    obtain rfl : rank = 0 := hrank
    have hzero : ∀ b, (number ⟨b, 0⟩).display = "0" := by
      intro b
      cases b <;> decide +kernel
    rw [hzero, hzero]
  · rfl

end Literal

/-- The characters that a number may begin with. -/
def numeralHeads : List Char := ['-', '0', '1', '2', '3', '4', '5', '6', '7', '8', '9']

theorem mem_numeralHeads {c : Char} (h : c.isDigit = true) : c ∈ numeralHeads := by
  have hall : ∀ i : Fin 10, Char.ofNat (48 + i) ∈ numeralHeads := by decide
  have hbounds : 48 ≤ c.toNat ∧ c.toNat ≤ 57 := by
    simpa [Char.isDigit, UInt32.le_iff_toNat_le] using h
  have hmem := hall ⟨c.toNat - 48, by omega⟩
  rwa [Nat.add_sub_cancel' hbounds.1, Char.ofNat_toNat] at hmem

theorem Literal.exists_numeral {x : Binary64} (hx : x.isFinite = true) :
    ∃ c rest, (number x).display.toList = c :: rest ∧ c ∈ numeralHeads ∧
      ∀ e ∈ rest, e ∈ '.' :: numeralHeads := by
  obtain ⟨cs, htext, ⟨c, rest, rfl, hc, hrest⟩, -⟩ := display_eq (Canonical.of_finite hx)
  have hall : ∀ e ∈ rest, e ∈ '.' :: numeralHeads := fun e he =>
    (hrest e he).elim (fun h => h ▸ List.mem_cons_self) fun h => List.mem_cons_of_mem _ (mem_numeralHeads h)
  rw [← display_canonical, htext, sign]
  split
  · refine ⟨'-', c :: rest, rfl, by decide, List.forall_mem_cons.mpr ⟨?_, hall⟩⟩
    exact List.mem_cons_of_mem _ (mem_numeralHeads hc)
  · exact ⟨c, rest, rfl, mem_numeralHeads hc, hall⟩

end AnnotatedApi
