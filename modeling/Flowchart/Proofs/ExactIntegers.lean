/-
Integers that are doubles.

A formula reads every number as a double and keeps an integral double as an integer. Up to 2^53 that changes nothing:
such an integer is the value of a rank, so that it rounds to itself and the double gives it back.

- `Binary64.RoundsTo.of_units`: the value of a rank rounds to that rank.
- `Binary64.exists_units`: an integer up to 2^53 is the value of a rank.
- `Numeral.plain?_written`: a numeral is read back from its text, with nothing around it.
- `Number.exists_value?_numeral`: an integer up to 2^53 is read as a double, and is stored as the integer again.
-/
import Flowchart.Proofs.NumberText

namespace Flowchart

namespace Binary64

variable {n b rank : Nat}

/-- the value of a rank rounds to that rank -/
theorem RoundsTo.of_units (hb : 0 < b) (h : units rank * b = n) : RoundsTo n b rank := by
  have hbelow : units (rank - 1) * b ≤ units rank * b :=
    Nat.mul_le_mul_right b (units_strictMono.monotone (Nat.sub_le _ _))
  have habove : units rank * b < units (rank + 1) * b :=
    Nat.mul_lt_mul_of_pos_right (units_strictMono (Nat.lt_succ_self rank)) hb
  constructor
  · rw [Nat.add_mul]
    omega
  · rw [Nat.add_mul]
    omega
  · intro hodd
    have hbelow : units (rank - 1) * b < units rank * b :=
      Nat.mul_lt_mul_of_pos_right (units_strictMono (by omega)) hb
    rw [Nat.add_mul, Nat.add_mul]
    omega

/-- **Integers up to 2^53 are doubles.** The place in the binade of a power of two is the integer, moved up until it
has 53 binary digits. -/
theorem exists_units (hpos : 0 < n) (hle : n ≤ 2 ^ 53) :
    ∃ rank, rank < 2047 * binade ∧ units rank = n * unitsOfOne := by
  have hlog : n.log2 ≤ 53 := by
    have hself : 2 ^ n.log2 ≤ 2 ^ 53 := (Nat.log2_self_le hpos.ne').trans hle
    exact (Nat.pow_le_pow_iff_right (by decide)).1 hself
  have hlow : binade ≤ n * 2 ^ (52 - n.log2) := by
    calc binade = 2 ^ 52 := binade_eq
      _ ≤ 2 ^ (n.log2 + (52 - n.log2)) := Nat.pow_le_pow_right (by decide) (by omega)
      _ = 2 ^ n.log2 * 2 ^ (52 - n.log2) := Nat.pow_add _ _ _
      _ ≤ n * 2 ^ (52 - n.log2) := Nat.mul_le_mul_right _ (Nat.log2_self_le hpos.ne')
  have hhigh : n * 2 ^ (52 - n.log2) ≤ 2 * binade := by
    have hbinade : 2 * binade = 2 ^ 53 := rfl
    rw [hbinade]
    by_cases hlast : n.log2 = 53
    · have hzero : 52 - n.log2 = 0 := by omega
      rw [hzero, Nat.pow_zero, Nat.mul_one]
      exact hle
    · calc n * 2 ^ (52 - n.log2) ≤ 2 ^ (n.log2 + 1) * 2 ^ (52 - n.log2) :=
            Nat.mul_le_mul_right _ Nat.lt_log2_self.le
        _ = 2 ^ (n.log2 + 1 + (52 - n.log2)) := (Nat.pow_add _ _ _).symm
        _ ≤ 2 ^ 53 := Nat.pow_le_pow_right (by decide) (by omega)
  refine ⟨(1074 - (52 - n.log2)) * binade + n * 2 ^ (52 - n.log2), ?_, ?_⟩
  · have hshift : (1074 - (52 - n.log2)) * binade ≤ 1074 * binade := Nat.mul_le_mul_right _ (by omega)
    have hbinade : binade = 4503599627370496 := rfl
    omega
  · have hpow : 2 ^ (52 - n.log2) * 2 ^ (1074 - (52 - n.log2)) = unitsOfOne := by
      rw [← Nat.pow_add, unitsOfOne_eq]
      congr 1
      omega
    rw [units_binade (Or.inr hlow) hhigh, Nat.mul_assoc, hpow]

/-- the largest signed 64-bit integer is no double; the nearest one is 2^63 -/
theorem limit_eq : limit = 1086 * binade :=
  nearestRank_eq Nat.one_pos ⟨by decide +kernel, by decide +kernel, by decide +kernel⟩

theorem units_limit : units limit = 2 ^ 63 * unitsOfOne := by
  rw [limit_eq]
  decide +kernel

theorem lt_limit_iff : rank < limit ↔ units rank < 2 ^ 63 * unitsOfOne := by
  rw [← units_limit, units_strictMono.lt_iff_lt]

theorem scaled_eq {x : Binary64} (h : units x.rank = n * unitsOfOne) :
    x.scaled = (if x.negative then -(n : Int) else n) * unitsOfOne := by
  rw [scaled, h, Nat.cast_mul]
  split
  · rw [Int.neg_mul]
  · rfl

/-- truncation and clamping do nothing to an integer in range -/
theorem toInt64_eq {x : Binary64} {k : Int} (h : x.scaled = k * unitsOfOne) (hrange : -2 ^ 63 < k ∧ k < 2 ^ 63) :
    x.toInt64 = k := by
  have hne : (unitsOfOne : Int) ≠ 0 := by exact_mod_cast unitsOfOne_pos.ne'
  rw [toInt64, h, Int.mul_tdiv_cancel _ hne]
  omega

end Binary64

namespace Numeral

/-- a sign is read as it is written -/
theorem sign_append {rest : List Char} (negative : Bool) (h : ∀ c ∈ rest.head?, c.isDigit) :
    sign ((if negative then ['-'] else []) ++ rest) = (negative, rest) := by
  cases negative with
  | true => rfl
  | false =>
    unfold sign
    split
    · rename_i s heq
      rw [show rest = '-' :: s from heq] at h
      exact absurd (h '-' rfl) (by decide)
    · rename_i s heq
      rw [show rest = '+' :: s from heq] at h
      exact absurd (h '+' rfl) (by decide)
    · rfl

/-- **A numeral is read back from its text.** Nothing stands around it. -/
theorem plain?_written {n : Numeral} (h : n.Proper) : plain? n.written = some n := by
  obtain ⟨negative, whole, fraction, exponent⟩ := n
  obtain ⟨hwhole, hne, -, hfraction⟩ := h
  simp only at hwhole hne hfraction
  have hends : Ends [] := fun _ hc => nomatch hc
  have htext : written ⟨negative, whole, fraction, exponent⟩ =
      (if negative then ['-'] else []) ++ (whole ++ (fractionText fraction ++ (exponentText exponent ++ []))) := by
    simp only [written, List.append_assoc, List.append_nil]
  have hfirst : ∀ c ∈ (whole ++ (fractionText fraction ++ (exponentText exponent ++ []))).head?, c.isDigit := by
    intro c hc
    obtain ⟨d, ds, rfl⟩ := List.exists_cons_of_ne_nil hne
    cases hc
    exact hwhole c List.mem_cons_self
  have hsome : (whole.isEmpty && (fraction.getD []).isEmpty) = false := by simp [hne]
  simp only [plain?, htext, sign_append negative hfirst, digits_append hwhole (head?_fractionText _ _ hends),
    afterPoint_append (fun ds hds => (hfraction ds hds).1) (head?_exponentText _ hends), hsome,
    exponent?_append exponent hends]
  rfl

/-- an integer reads as the double that it rounds to -/
theorem value?_natText {n rank : Nat} (hpos : 0 < n) (h : Binary64.RoundsTo (n * Binary64.unitsOfOne) 1 rank)
    (hrank : rank < 2047 * Binary64.binade) (negative : Bool) :
    value? ⟨negative, natText n, none, none⟩ = some ⟨negative, rank, hrank⟩ := by
  have hleads := Decimal.leads_natText hpos
  obtain ⟨c, cs, hcons⟩ := List.exists_cons_of_ne_nil hleads.ne_nil
  have hc : c ≠ '0' := by
    intro hc
    apply hleads.head
    rw [hcons, hc]
    rfl
  have hsignificant : significant ⟨negative, natText n, none, none⟩ = natText n := by
    rw [significant, Option.getD_none, List.append_nil, hcons, List.dropWhile_cons_of_neg (by simpa using hc)]
  have hscale : scale ⟨negative, natText n, none, none⟩ = 0 := rfl
  have hsome : (natText n).isEmpty = false := List.isEmpty_eq_false_iff.2 hleads.ne_nil
  have hdecimal : Decimal.RoundsTo ⟨n, 0⟩ rank := by
    unfold Decimal.RoundsTo
    simpa using h
  have hlt : (0 : Int) + (natText n).length < 310 := hdecimal.magnitude_lt hpos hrank
  have hvalue : Nat.ofDigitChars 10 (natText n) 0 = n := Nat.ofDigitChars_ten_toDigits
  have hrounds : Binary64.nearestRank (n * Nat.pow 10 (0 : Int).toNat) (Nat.pow 10 (-(0 : Int)).toNat) = rank := by
    refine Binary64.nearestRank_eq (by decide) ?_
    simpa using h
  simp only [value?, hsignificant, hscale, hsome, hvalue, Binary64.ofRatio?, hrounds]
  rw [if_neg (by decide), if_neg (by omega), if_neg (by omega), dif_pos hrank]

end Numeral

namespace Number

/-- an integral double below 2^63 is stored as its integer -/
theorem ofBinary64_of_units {x : Binary64} {n : Nat} {k : Int} (h : Binary64.units x.rank = n * Binary64.unitsOfOne)
    (hn : n < 2 ^ 63) (hk : k = if x.negative then -(n : Int) else n)
    (hrange : -0x8000000000000000 ≤ k ∧ k < 0x10000000000000000) : ofBinary64 x = .int k hrange := by
  have hintegral : x.isIntegral := by simp [Binary64.isIntegral, h]
  have hlimit : x.rank < Binary64.limit := by
    rw [Binary64.lt_limit_iff, h]
    exact Nat.mul_lt_mul_of_pos_right hn Binary64.unitsOfOne_pos
  have hscaled : x.scaled = k * Binary64.unitsOfOne := by rw [Binary64.scaled_eq h, hk]
  rw [ofBinary64, if_pos ⟨hintegral, hlimit⟩, Number.int.injEq]
  exact Binary64.toInt64_eq hscaled (by split at hk <;> omega)

/-- **An integer up to 2^53 is read as a double, and stored as the integer again.** -/
theorem exists_value?_numeral {k : Int} (hrange : -0x8000000000000000 ≤ k ∧ k < 0x10000000000000000)
    (hle : k.natAbs ≤ 2 ^ 53) : ∃ x, (numeral (.int k hrange)).value? = some x ∧ ofBinary64 x = .int k hrange := by
  rcases Nat.eq_zero_or_pos k.natAbs with hzero | hpos
  · obtain rfl : k = 0 := by omega
    have hunits : Binary64.units (Binary64.zero false).rank = 0 * Binary64.unitsOfOne := by
      rw [Nat.zero_mul]
      exact Binary64.units_zero
    exact ⟨Binary64.zero false, rfl, ofBinary64_of_units (n := 0) hunits (by decide) rfl hrange⟩
  · obtain ⟨rank, hrank, hunits⟩ := Binary64.exists_units hpos hle
    have hrounds : Binary64.RoundsTo (k.natAbs * Binary64.unitsOfOne) 1 rank :=
      .of_units (by decide) (by rw [Nat.mul_one, hunits])
    refine ⟨⟨k < 0, rank, hrank⟩, Numeral.value?_natText hpos hrounds hrank _, ?_⟩
    refine ofBinary64_of_units (n := k.natAbs) hunits (by omega) ?_ hrange
    simp only [decide_eq_true_eq]
    omega

end Number

end Flowchart
