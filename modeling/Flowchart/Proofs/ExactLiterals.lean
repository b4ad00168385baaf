/-
Literals of doubles.

A 64-bit pattern has a sign bit, 11 exponent bits and 52 fraction bits, and these fields give its value as a rational
number (`patternValue`). The literal of a pattern is found from the rank instead, and an integral double becomes a 64-bit
integer. Nothing is lost on the way.

- `value_eq_patternValue`: a double has the value of its pattern, and `toBits_of_ofBits?` gives the pattern back.
- `isIntegral_iff`, `rank_lt_limit_iff`: the two conditions for storing a double as an integer, by its value.
- `value_ofRatio?_limit`: the largest 64-bit integer is no double, and the nearest one is 2^63.
- `Expression.ofBits_exact`: the literal of a finite pattern has its value, and is an integer exactly when the value is
  integral and below 2^63.
-/
import Flowchart.Proofs.ExactIntegers
import Flowchart.Tree.Basic
import Mathlib

namespace Flowchart

namespace Binary64

/-! ## The fields of a pattern -/

/-- the exponent field: bits 52 to 62 -/
def exponentBits (bits : UInt64) : Nat := bits.toNat / 2 ^ 52 % 2 ^ 11

/-- the fraction field: bits 0 to 51 -/
def fractionBits (bits : UInt64) : Nat := bits.toNat % 2 ^ 52

/-- the sign that bit 63 stands for -/
def patternSign (bits : UInt64) : ℚ := if bits.toNat / 2 ^ 63 = 0 then 1 else -1

/-- the pattern is that of a finite double: not all bits of the exponent are set -/
def IsFinite (bits : UInt64) : Prop := exponentBits bits ≠ 2 ^ 11 - 1

instance : DecidablePred IsFinite := fun bits => inferInstanceAs (Decidable (exponentBits bits ≠ 2 ^ 11 - 1))

/-- The value of a finite pattern. The fraction has an implicit leading bit unless the exponent field is zero, which
stands for the same exponent as one. -/
def patternValue (bits : UInt64) : ℚ :=
  patternSign bits *
    if exponentBits bits = 0 then fractionBits bits * (2 : ℚ) ^ (-1074 : ℤ)
    else (2 ^ 52 + fractionBits bits) * (2 : ℚ) ^ ((exponentBits bits : ℤ) - 1075)

/-! ## The value of a double -/

/-- the value -/
def value (x : Binary64) : ℚ := x.scaled / unitsOfOne

/-- the 64-bit pattern -/
def toBits (x : Binary64) : UInt64 := .ofNat ((if x.negative then 2 ^ 63 else 0) + x.rank)

variable {x : Binary64} {bits : UInt64}

theorem ofBits?_isSome_iff : (ofBits? bits).isSome ↔ IsFinite bits := by
  have hlt := bits.toNat_lt
  have hbinade : binade = 4503599627370496 := rfl
  simp only [ofBits?, IsFinite, exponentBits]
  split
  · simp only [Option.isSome_some, true_iff]
    omega
  · simp only [Option.isSome_none, Bool.false_eq_true, false_iff, not_not]
    omega

/-- what is read from a pattern: its sign, and the two other fields together as the rank -/
theorem eq_of_ofBits? (h : ofBits? bits = some x) :
    x.negative = decide (2 ^ 63 ≤ bits.toNat) ∧ x.rank = bits.toNat % 2 ^ 63 := by
  simp only [ofBits?] at h
  split at h
  · cases h
    exact ⟨rfl, rfl⟩
  · cases h

theorem toBits_of_ofBits? (h : ofBits? bits = some x) : x.toBits = bits := by
  have hlt := bits.toNat_lt
  obtain ⟨hsign, hrank⟩ := eq_of_ofBits? h
  apply UInt64.toNat_inj.1
  rw [toBits, UInt64.toNat_ofNat', hsign, hrank]
  by_cases hle : 2 ^ 63 ≤ bits.toNat
  · simp only [hle, decide_true, if_true]
    omega
  · simp only [hle, decide_false, Bool.false_eq_true, if_false]
    omega

theorem cast_unitsOfOne : (unitsOfOne : ℚ) = 2 ^ 1074 := by
  rw [unitsOfOne_eq, Nat.cast_pow, Nat.cast_ofNat]

theorem cast_unitsOfOne_pos : (0 : ℚ) < unitsOfOne := by exact_mod_cast unitsOfOne_pos

/-- the magnitude of a rank, from the fields of its pattern -/
theorem cast_units_div {rank e f : Nat} (he : rank / 2 ^ 52 = e) (hf : rank % 2 ^ 52 = f) :
    (units rank : ℚ) / unitsOfOne =
      if e = 0 then f * (2 : ℚ) ^ (-1074 : ℤ) else (2 ^ 52 + f) * (2 : ℚ) ^ ((e : ℤ) - 1075) := by
  have hbinade : binade = 4503599627370496 := rfl
  have hrank := Nat.div_add_mod rank (2 ^ 52)
  rw [he, hf] at hrank
  rw [cast_unitsOfOne]
  by_cases hzero : e = 0
  · obtain rfl : rank = f := by
      rw [hzero] at hrank
      omega
    have hlt : rank < binade := by omega
    rw [units, if_pos hlt, if_pos hzero, zpow_neg, div_eq_mul_inv]
    norm_cast
  · -- the place in the binade of `2 ^ (e - 1)` has the leading bit
    obtain ⟨s, rfl⟩ : ∃ s, e = s + 1 := ⟨e - 1, by omega⟩
    have hsplit : rank = s * binade + (binade + f) := by
      rw [hbinade]
      omega
    have hexp : ((s + 1 : ℕ) : ℤ) - 1075 = (s : ℤ) - (1074 : ℕ) := by
      push_cast
      ring
    have hplace : ((binade + f : ℕ) : ℚ) = 2 ^ 52 + f := by
      rw [binade_eq]
      push_cast
      rfl
    rw [hsplit, units_binade (Or.inr (by omega)) (by omega), if_neg hzero, hexp, zpow_sub₀ two_ne_zero, zpow_natCast,
      zpow_natCast, Nat.cast_mul, hplace, Nat.cast_pow, Nat.cast_ofNat, mul_div_assoc]

/-- **A double has the value of its pattern.** -/
theorem value_eq_patternValue (h : ofBits? bits = some x) : x.value = patternValue bits := by
  have hlt := bits.toNat_lt
  obtain ⟨hsign, hrank⟩ := eq_of_ofBits? h
  have he : x.rank / 2 ^ 52 = exponentBits bits := by
    rw [hrank, exponentBits]
    omega
  have hf : x.rank % 2 ^ 52 = fractionBits bits := by
    rw [hrank, fractionBits]
    omega
  rw [patternValue, ← cast_units_div he hf, patternSign, value, scaled, hsign]
  by_cases hle : 2 ^ 63 ≤ bits.toNat
  · have hbit : bits.toNat / 2 ^ 63 ≠ 0 := by omega
    simp only [hle, decide_true, if_true, if_neg hbit]
    push_cast
    ring
  · have hbit : bits.toNat / 2 ^ 63 = 0 := by omega
    simp only [hle, decide_false, Bool.false_eq_true, if_false, if_pos hbit]
    push_cast
    ring

/-! ## Integers -/

theorem value_eq_intCast_iff {k : ℤ} : x.value = k ↔ x.scaled = k * unitsOfOne := by
  rw [value, div_eq_iff cast_unitsOfOne_pos.ne']
  norm_cast

theorem natAbs_scaled (x : Binary64) : x.scaled.natAbs = units x.rank := by
  rw [scaled]
  split
  · rw [Int.natAbs_neg, Int.natAbs_natCast]
  · rw [Int.natAbs_natCast]

/-- a double is integral exactly when it has the value of an integer -/
theorem isIntegral_iff : x.isIntegral ↔ ∃ k : ℤ, x.value = k := by
  simp only [isIntegral, decide_eq_true_eq, value_eq_intCast_iff]
  constructor
  · intro h
    obtain ⟨n, hn⟩ := Nat.dvd_of_mod_eq_zero h
    rw [Nat.mul_comm] at hn
    exact ⟨_, scaled_eq hn⟩
  · rintro ⟨k, hk⟩
    rw [← natAbs_scaled, hk, Int.natAbs_mul, Int.natAbs_natCast, Nat.mul_mod_left]

theorem abs_value (x : Binary64) : |x.value| = units x.rank / unitsOfOne := by
  rw [value, abs_div, abs_of_pos cast_unitsOfOne_pos, ← natAbs_scaled, Nat.cast_natAbs, Int.cast_abs]

/-- the largest 64-bit integer is no double; the nearest one is 2^63 -/
theorem value_ofRatio?_limit : (ofRatio? false (2 ^ 63 - 1) 1).map value = some (2 ^ 63) := by
  have hlt : nearestRank (2 ^ 63 - 1) 1 < 2047 * binade := by
    rw [show nearestRank (2 ^ 63 - 1) 1 = 1086 * binade from limit_eq]
    decide
  rw [ofRatio?, dif_pos hlt, Option.map_some, Option.some.injEq]
  have hvalue : value ⟨false, limit, hlt⟩ = ((2 ^ 63 : ℤ) : ℚ) := by
    rw [value_eq_intCast_iff, scaled]
    simp only [Bool.false_eq_true, if_false]
    rw [units_limit]
    push_cast
    rfl
  exact hvalue.trans (by norm_num)

/-- what is nearer to zero than that double -/
theorem rank_lt_limit_iff : x.rank < limit ↔ |x.value| < 2 ^ 63 := by
  rw [lt_limit_iff, abs_value, div_lt_iff₀ cast_unitsOfOne_pos]
  norm_cast

end Binary64

open Binary64

namespace Number

/-- the value -/
def value : Number → ℚ
  | .int k _ => k
  | .double x => x.value

/-- a value without the part after the point, and no further from zero than a 64-bit integer can be -/
def toInt64 (v : ℚ) : ℤ := max (-2 ^ 63) (min (2 ^ 63 - 1) (v.num.tdiv v.den))

theorem toInt64_intCast {k : ℤ} (hlow : -2 ^ 63 ≤ k) (hhigh : k < 2 ^ 63) : toInt64 k = k := by
  have htrunc : (k : ℚ).num.tdiv (k : ℚ).den = k := by simp
  rw [toInt64, htrunc]
  omega

theorem abs_intCast_lt_iff {k : ℤ} : |(k : ℚ)| < 2 ^ 63 ↔ -2 ^ 63 < k ∧ k < 2 ^ 63 := by
  rw [abs_lt]
  norm_cast

/-- what a double is stored as -/
theorem ofBinary64_cases (x : Binary64) :
    (∃ k hk, ofBinary64 x = .int k hk ∧ x.value = k ∧ -2 ^ 63 < k ∧ k < 2 ^ 63) ∨
      (ofBinary64 x = .double x ∧ ∀ k : ℤ, x.value = k → ¬(-2 ^ 63 < k ∧ k < 2 ^ 63)) := by
  unfold ofBinary64
  split
  · rename_i hguard
    rw [isIntegral_iff, rank_lt_limit_iff] at hguard
    obtain ⟨⟨k, hk⟩, habs⟩ := hguard
    rw [hk, abs_intCast_lt_iff] at habs
    refine Or.inl ⟨k, by omega, ?_, hk, habs⟩
    rw [Number.int.injEq, toInt64_eq (value_eq_intCast_iff.1 hk) habs]
  · rename_i hguard
    rw [isIntegral_iff, rank_lt_limit_iff] at hguard
    refine Or.inr ⟨rfl, fun k hk hrange => hguard ⟨⟨k, hk⟩, ?_⟩⟩
    rw [hk]
    exact abs_intCast_lt_iff.2 hrange

theorem value_ofBinary64 (x : Binary64) : (ofBinary64 x).value = x.value := by
  rcases ofBinary64_cases x with ⟨k, hk, heq, hvalue, -⟩ | ⟨heq, -⟩
  · rw [heq, hvalue, value]
  · rw [heq, value]

/-- a double is stored as an integer exactly when it is integral and below 2^63 -/
theorem ofBinary64_eq_int_iff (x : Binary64) :
    (∃ k hk, ofBinary64 x = .int k hk) ↔ (∃ k : ℤ, x.value = k) ∧ |x.value| < 2 ^ 63 := by
  rcases ofBinary64_cases x with ⟨k, hk, heq, hvalue, hrange⟩ | ⟨heq, hnot⟩
  · exact iff_of_true ⟨k, hk, heq⟩ ⟨⟨k, hvalue⟩, by rw [hvalue]; exact abs_intCast_lt_iff.2 hrange⟩
  · refine iff_of_false ?_ ?_
    · rintro ⟨k, hk, h⟩
      rw [heq] at h
      cases h
    · rintro ⟨⟨k, hk⟩, habs⟩
      rw [hk] at habs
      exact hnot k hk (abs_intCast_lt_iff.1 habs)

end Number

/-- **Literals of doubles are exact.** The literal of a finite pattern has the value of the pattern. It is an integer
exactly when the value is integral and nearer to zero than the double next to the largest 64-bit integer, which is 2^63;
then the value is not cut off or clamped when it becomes an integer. Any other literal is the double with the same
pattern, and a pattern that is not finite gives the integer zero. -/
theorem Expression.ofBits_exact (bits : UInt64) :
    (IsFinite bits → ∃ number, Expression.ofBits bits = .literal (.num number) ∧
      number.value = patternValue bits ∧
      ((∃ k hk, number = .int k hk) ↔ (∃ k : ℤ, patternValue bits = k) ∧ |patternValue bits| < 2 ^ 63) ∧
      (∀ k hk, number = .int k hk → Number.toInt64 (patternValue bits) = k ∧ -2 ^ 63 < k ∧ k < 2 ^ 63) ∧
      ∀ x, number = .double x → x.toBits = bits) ∧
    (ofRatio? false (2 ^ 63 - 1) 1).map Binary64.value = some (2 ^ 63) ∧
    (¬IsFinite bits → Expression.ofBits bits = .literal (.num (.int 0 (by decide)))) := by
  refine ⟨fun hfinite => ?_, value_ofRatio?_limit, fun hnot => ?_⟩
  · obtain ⟨x, hx⟩ := Option.isSome_iff_exists.1 (ofBits?_isSome_iff.2 hfinite)
    have hvalue := value_eq_patternValue hx
    refine ⟨.ofBinary64 x, ?_, ?_, ?_, ?_, ?_⟩
    · rw [Expression.ofBits, hx]
      rfl
    · rw [Number.value_ofBinary64, hvalue]
    · rw [← hvalue]
      exact Number.ofBinary64_eq_int_iff x
    · intro k hk heq
      rcases Number.ofBinary64_cases x with ⟨n, hn, hint, hval, hlow, hhigh⟩ | ⟨hdouble, -⟩
      · rw [heq] at hint
        cases hint
        rw [← hvalue, hval]
        exact ⟨Number.toInt64_intCast hlow.le hhigh, hlow, hhigh⟩
      · rw [heq] at hdouble
        cases hdouble
    · intro y hy
      rcases Number.ofBinary64_cases x with ⟨n, hn, hint, -⟩ | ⟨hdouble, -⟩
      · rw [hy] at hint
        cases hint
      · rw [hy] at hdouble
        cases hdouble
        exact toBits_of_ofBits? hx
  · have hnone : ofBits? bits = none := by
      rw [← Option.not_isSome_iff_eq_none, ofBits?_isSome_iff]
      exact hnot
    rw [Expression.ofBits, hnone]
    rfl

/-- at the edges: the largest double below 2^63 is stored as an integer, the double -2^63 as it is, and a pattern that
is no number as zero -/
theorem ofBits_exact_edges :
    (IsFinite 0x43DFFFFFFFFFFFFF ∧
      Expression.ofBits 0x43DFFFFFFFFFFFFF = .literal (.num (.int 9223372036854774784 (by decide)))) ∧
    (IsFinite 0xC3E0000000000000 ∧
      ∃ x, Expression.ofBits 0xC3E0000000000000 = .literal (.num (.double x)) ∧ x.toBits = 0xC3E0000000000000) ∧
    (¬IsFinite 0x7FF8000000000000 ∧
      Expression.ofBits 0x7FF8000000000000 = .literal (.num (.int 0 (by decide)))) := by
  refine ⟨⟨by decide, ?_⟩, ⟨by decide, ?_⟩, by decide, (Expression.ofBits_exact _).2.2 (by decide)⟩
  · obtain ⟨number, heq, hvalue, hint, -⟩ := (Expression.ofBits_exact 0x43DFFFFFFFFFFFFF).1 (by decide)
    have hpattern : patternValue 0x43DFFFFFFFFFFFFF = ((9223372036854774784 : ℤ) : ℚ) := by
      have hexponent : exponentBits 0x43DFFFFFFFFFFFFF = 1085 := by decide
      have hfraction : fractionBits 0x43DFFFFFFFFFFFFF = 4503599627370495 := by decide
      have hsign : patternSign 0x43DFFFFFFFFFFFFF = 1 := if_pos (by decide)
      norm_num [patternValue, hexponent, hfraction, hsign]
    rw [hpattern] at hvalue hint
    obtain ⟨k, hk, rfl⟩ := hint.2 ⟨⟨_, rfl⟩, by norm_num⟩
    rw [Number.value, Int.cast_inj] at hvalue
    subst hvalue
    exact heq
  · obtain ⟨number, heq, -, hint, -, hdouble⟩ := (Expression.ofBits_exact 0xC3E0000000000000).1 (by decide)
    have hpattern : patternValue 0xC3E0000000000000 = -2 ^ 63 := by
      have hexponent : exponentBits 0xC3E0000000000000 = 1086 := by decide
      have hfraction : fractionBits 0xC3E0000000000000 = 0 := by decide
      have hsign : patternSign 0xC3E0000000000000 = -1 := if_neg (by decide)
      norm_num [patternValue, hexponent, hfraction, hsign]
    cases number with
    | int k hk =>
      obtain ⟨-, habs⟩ := hint.1 ⟨k, hk, rfl⟩
      rw [hpattern] at habs
      norm_num at habs
    | double x => exact ⟨x, heq, hdouble x rfl⟩

end Flowchart
