/-
Rounding to the nearest double, and decimals that read back.

A number rounds to a double when it lies between the midpoints to the two neighbours, ends included if the rank is even
(`RoundsTo`). The number is a fraction that counts the smallest positive double, so the midpoints are compared by cross
multiplication.

- `units_binade`: the units of a rank from its power of two and its place there; hence `units_strictMono`.
- `RoundsTo.unique`: a number rounds to one rank only, since of two neighbours one is odd.
- `roundsTo_nearestRank`: what is computed is what the number rounds to; hence `nearestRank_eq`.
- `roundsTo_shortest`: the shortest decimal is found for every double, and it rounds to it.
-/
import Flowchart.Decimal.Shortest
import Mathlib.Tactic.Ring
import Mathlib.Tactic.Linarith
import Mathlib.Order.Monotone.Basic

namespace Flowchart

namespace Binary64

/-! ## The units of a rank -/

theorem binade_eq : binade = 2 ^ 52 := rfl

theorem binade_mod_two : binade % 2 = 0 := rfl

theorem unitsOfOne_eq : unitsOfOne = 2 ^ 1074 := by decide +kernel

theorem unitsOfOne_pos : 0 < unitsOfOne := by decide +kernel

/-- A rank of the binade of `2 ^ s` is at place `m` there. The place may also be the first of the next binade. -/
theorem units_binade {s m : Nat} (hm : s = 0 ∨ binade ≤ m) (hle : m ≤ 2 * binade) :
    units (s * binade + m) = m * 2 ^ s := by
  unfold units
  simp only [Nat.pow_eq]
  by_cases hlt : m < binade
  · obtain rfl : s = 0 := by omega
    simp [hlt]
  · have hge : ¬s * binade + m < binade := by omega
    rw [if_neg hge]
    by_cases htop : m < 2 * binade
    · have hsum : s * binade + m = binade * (s + 1) + (m - binade) := by
        rw [Nat.mul_add, Nat.mul_comm]
        omega
      have hmod : (s * binade + m) % binade = m - binade := by
        rw [hsum, Nat.mul_add_mod, Nat.mod_eq_of_lt (by omega)]
      have hdiv : (s * binade + m) / binade = s + 1 := by
        rw [hsum, Nat.mul_add_div (by decide), Nat.div_eq_of_lt (by omega), Nat.add_zero]
      rw [hmod, hdiv, Nat.add_sub_cancel, Nat.add_sub_cancel' (by omega)]
    · obtain rfl : m = 2 * binade := by omega
      have hsum : s * binade + 2 * binade = binade * (s + 2) := by ring
      rw [hsum, Nat.mul_mod_right, Nat.mul_div_cancel_left _ (by decide)]
      have hpred : s + 2 - 1 = s + 1 := by omega
      rw [hpred]
      ring

/-- every rank is at a place of a binade -/
theorem exists_binade (rank : Nat) : ∃ s m, rank = s * binade + m ∧ (s = 0 ∨ binade ≤ m) ∧ m < 2 * binade := by
  by_cases h : rank < binade
  · exact ⟨0, rank, by simp, Or.inl rfl, by omega⟩
  · have hdiv := Nat.div_add_mod rank binade
    have hlt := Nat.mod_lt rank (show 0 < binade by decide)
    have hpos : 0 < rank / binade := Nat.div_pos (by omega) (by decide)
    obtain ⟨k, hk⟩ : ∃ k, rank / binade = k + 1 := ⟨rank / binade - 1, by omega⟩
    refine ⟨k, binade + rank % binade, ?_, Or.inr (by omega), by omega⟩
    rw [hk, Nat.mul_add, Nat.mul_comm] at hdiv
    omega

theorem units_succ_ge {s m : Nat} (hm : s = 0 ∨ binade ≤ m) (hle : m ≤ 2 * binade) :
    (m + 1) * 2 ^ s ≤ units (s * binade + m + 1) := by
  by_cases htop : m < 2 * binade
  · rw [Nat.add_assoc, units_binade (by omega) (by omega)]
  · -- the next binade, where the distance is twice as large
    obtain rfl : m = 2 * binade := by omega
    have hsum : s * binade + 2 * binade + 1 = (s + 1) * binade + (binade + 1) := by ring
    rw [hsum, units_binade (Or.inr (by omega)) (by decide)]
    have hpow : (binade + 1) * 2 ^ (s + 1) = (2 * binade + 2) * 2 ^ s := by ring
    rw [hpow]
    exact Nat.mul_le_mul_right _ (by omega)

theorem units_pred {s m : Nat} (hm : s = 0 ∨ binade < m) (hpos : 0 < m) (hle : m ≤ 2 * binade) :
    units (s * binade + m - 1) + 2 ^ s = m * 2 ^ s := by
  obtain ⟨j, rfl⟩ : ∃ j, m = j + 1 := ⟨m - 1, by omega⟩
  have hpred : s * binade + (j + 1) - 1 = s * binade + j := by omega
  rw [hpred, units_binade (by omega) (by omega)]
  ring

theorem units_strictMono : StrictMono units := by
  refine strictMono_nat_of_lt_succ fun rank => ?_
  obtain ⟨s, m, rfl, hm, hlt⟩ := exists_binade rank
  calc units (s * binade + m) = m * 2 ^ s := units_binade hm (by omega)
    _ < (m + 1) * 2 ^ s := Nat.mul_lt_mul_of_pos_right (Nat.lt_succ_self m) (Nat.two_pow_pos s)
    _ ≤ units (s * binade + m + 1) := units_succ_ge hm (by omega)

theorem units_zero : units 0 = 0 := rfl

theorem units_pos {rank : Nat} (h : 0 < rank) : 0 < units rank := units_zero ▸ units_strictMono h

/-! ## What a number rounds to -/

/-- The number `n / b`, counted in the smallest positive double, rounds to this rank: it lies between the midpoints to
the ranks below and above, and a midpoint itself counts for an even rank only. -/
structure RoundsTo (n b rank : Nat) : Prop where
  low : (units (rank - 1) + units rank) * b ≤ 2 * n
  high : 2 * n ≤ (units rank + units (rank + 1)) * b
  strict : rank % 2 = 1 → (units (rank - 1) + units rank) * b < 2 * n ∧ 2 * n < (units rank + units (rank + 1)) * b

namespace RoundsTo

variable {n b rank rank' : Nat}

theorem not_lt (h : RoundsTo n b rank) (h' : RoundsTo n b rank') (hb : 0 < b) : ¬rank < rank' := by
  intro hlt
  have hlow : units rank ≤ units (rank' - 1) := units_strictMono.monotone (by omega)
  have hhigh : units (rank + 1) ≤ units rank' := units_strictMono.monotone hlt
  have hmid : (units rank + units (rank + 1)) * b ≤ (units (rank' - 1) + units rank') * b :=
    Nat.mul_le_mul_right b (Nat.add_le_add hlow hhigh)
  -- the number is both midpoints, so that the ranks are neighbours and one of them is odd
  have hsum : units rank + units (rank + 1) = units (rank' - 1) + units rank' :=
    Nat.eq_of_mul_eq_mul_right hb (le_antisymm hmid (h'.low.trans h.high))
  have hnext : rank = rank' - 1 := units_strictMono.injective (by omega)
  have hlow' := h'.low
  have hhigh' := h.high
  rcases Nat.mod_two_eq_zero_or_one rank with heven | hodd
  · have := (h'.strict (by omega)).1
    omega
  · have := (h.strict hodd).2
    omega

/-- **A number rounds to one rank only.** -/
theorem unique (h : RoundsTo n b rank) (h' : RoundsTo n b rank') (hb : 0 < b) : rank = rank' := by
  have hlt := h.not_lt h' hb
  have hgt := h'.not_lt h hb
  omega

/-- what a number rounds to does not depend on how it is written as a fraction -/
theorem congr_ratio {n' b' : Nat} (h : RoundsTo n b rank) (hb : 0 < b) (hb' : 0 < b') (heq : n * b' = n' * b) :
    RoundsTo n' b' rank := by
  have htwice : 2 * n * b' = 2 * n' * b := by rw [mul_assoc, heq, mul_assoc]
  -- a midpoint is on the same side of both fractions
  have hlow : ∀ mid, mid * b ≤ 2 * n ↔ mid * b' ≤ 2 * n' := by
    intro mid
    rw [← Nat.mul_le_mul_right_iff hb', htwice, mul_right_comm mid, Nat.mul_le_mul_right_iff hb]
  have hhigh : ∀ mid, 2 * n ≤ mid * b ↔ 2 * n' ≤ mid * b' := by
    intro mid
    rw [← Nat.mul_le_mul_right_iff hb', htwice, mul_right_comm mid, Nat.mul_le_mul_right_iff hb]
  refine ⟨(hlow _).1 h.low, (hhigh _).1 h.high, fun hodd => ⟨?_, ?_⟩⟩
  · exact Nat.lt_of_not_le fun hle => Nat.not_le.2 (h.strict hodd).1 ((hhigh _).2 hle)
  · exact Nat.lt_of_not_le fun hle => Nat.not_le.2 (h.strict hodd).2 ((hlow _).2 hle)

theorem pos (h : RoundsTo n b rank) (hb : 0 < b) (hrank : 0 < rank) : 0 < n := by
  have hmid : 0 < (units (rank - 1) + units rank) * b := Nat.mul_pos (by have := units_pos hrank; omega) hb
  have := h.low
  omega

/-- a number that rounds to a finite double is at most 2^1024 -/
theorem le_of_finite (h : RoundsTo n b rank) (hrank : rank < 2047 * binade) : n ≤ 2 ^ 2098 * b := by
  have htop : units (2047 * binade) = 2 ^ 2098 := by
    have hsum : 2047 * binade = 2046 * binade + binade := rfl
    rw [hsum, units_binade (Or.inr le_rfl) (by decide), binade_eq, ← pow_add]
  have hlow : units rank ≤ 2 ^ 2098 := htop ▸ units_strictMono.monotone hrank.le
  have hhigh : units (rank + 1) ≤ 2 ^ 2098 := htop ▸ units_strictMono.monotone hrank
  have hmid : (units rank + units (rank + 1)) * b ≤ 2 * (2 ^ 2098 * b) := by
    rw [← mul_assoc]
    exact Nat.mul_le_mul_right b (by omega)
  have := h.high
  omega

end RoundsTo

/-- the nearest integer is at most half away from `a / c`, and less than that if it is odd -/
theorem nearest_bounds (a : Nat) {c : Nat} (hc : 0 < c) :
    (a / c ≤ nearest a c ∧ nearest a c ≤ a / c + 1) ∧
      2 * (nearest a c * c) ≤ 2 * a + c ∧ 2 * a ≤ 2 * (nearest a c * c) + c ∧
      (nearest a c % 2 = 1 → 2 * (nearest a c * c) < 2 * a + c ∧ 2 * a < 2 * (nearest a c * c) + c) := by
  have hdiv : a / c * c + a % c = a := Nat.div_add_mod' a c
  have hlt := Nat.mod_lt a hc
  have hsucc : (a / c + 1) * c = a / c * c + c := Nat.succ_mul _ _
  unfold nearest
  split
  · refine ⟨⟨le_rfl, Nat.le_succ _⟩, by omega, by omega, fun hodd => ⟨by omega, by omega⟩⟩
  · refine ⟨⟨Nat.le_succ _, le_rfl⟩, by omega, by omega, fun hodd => ⟨by omega, by omega⟩⟩

/-- the place in its binade that a number is rounded at -/
theorem place_bounds (q : Nat) :
    (q.log2 - 52 = 0 ∨ binade ≤ q / 2 ^ (q.log2 - 52)) ∧ q / 2 ^ (q.log2 - 52) < 2 * binade := by
  have hbinade : 2 * binade = 2 ^ 53 := rfl
  rw [hbinade, binade_eq]
  constructor
  · by_cases hs : q.log2 - 52 = 0
    · exact Or.inl hs
    · have hq : q ≠ 0 := by
        rintro rfl
        exact hs rfl
      refine Or.inr ((Nat.le_div_iff_mul_le (Nat.two_pow_pos _)).2 ?_)
      rw [← pow_add, Nat.add_sub_cancel' (by omega)]
      exact Nat.log2_self_le hq
  · refine (Nat.div_lt_iff_lt_mul (Nat.two_pow_pos _)).2 ?_
    rw [← pow_add]
    exact Nat.lt_log2_self.trans_le (Nat.pow_le_pow_right (by decide) (by omega))

/-- A number rounds to a place of a binade when it is at most half a place away, and less if the place is odd. Below the
first place of a binade the distance is smaller, so there the number has to be above. -/
theorem roundsTo_place {n b s k : Nat} (hk : s = 0 ∨ binade ≤ k) (hk' : k ≤ 2 * binade)
    (hlow : 2 * (k * (b * 2 ^ s)) ≤ 2 * n + b * 2 ^ s) (hhigh : 2 * n ≤ 2 * (k * (b * 2 ^ s)) + b * 2 ^ s)
    (hodd : k % 2 = 1 → 2 * (k * (b * 2 ^ s)) < 2 * n + b * 2 ^ s ∧ 2 * n < 2 * (k * (b * 2 ^ s)) + b * 2 ^ s)
    (hfirst : s ≠ 0 → k = binade → k * (b * 2 ^ s) ≤ n) : RoundsTo n b (s * binade + k) := by
  have hunits : units (s * binade + k) * b = k * (b * 2 ^ s) := by
    rw [units_binade hk hk']
    ring
  have habove : k * (b * 2 ^ s) + b * 2 ^ s ≤ units (s * binade + k + 1) * b :=
    calc k * (b * 2 ^ s) + b * 2 ^ s = (k + 1) * 2 ^ s * b := by ring
      _ ≤ units (s * binade + k + 1) * b := Nat.mul_le_mul_right b (units_succ_ge hk hk')
  have hparity : (s * binade + k) % 2 = k % 2 := by
    have heven : s * binade % 2 = 0 := by rw [Nat.mul_mod, binade_mod_two, Nat.mul_zero, Nat.zero_mod]
    omega
  by_cases hin : 0 < k ∧ (s = 0 ∨ binade < k)
  · have hbelow : units (s * binade + k - 1) * b + b * 2 ^ s = k * (b * 2 ^ s) :=
      calc units (s * binade + k - 1) * b + b * 2 ^ s = (units (s * binade + k - 1) + 2 ^ s) * b := by ring
        _ = k * 2 ^ s * b := by rw [units_pred hin.2 hin.1 hk']
        _ = k * (b * 2 ^ s) := by ring
    refine ⟨?_, ?_, fun h => ⟨?_, ?_⟩⟩
    · rw [Nat.add_mul]
      omega
    · rw [Nat.add_mul]
      omega
    · have := (hodd (hparity ▸ h)).1
      rw [Nat.add_mul]
      omega
    · have := (hodd (hparity ▸ h)).2
      rw [Nat.add_mul]
      omega
  · have hmono : units (s * binade + k - 1) * b ≤ units (s * binade + k) * b :=
      Nat.mul_le_mul_right b (units_strictMono.monotone (Nat.sub_le _ _))
    have hdown : k * (b * 2 ^ s) ≤ n := by
      rcases Nat.eq_zero_or_pos k with rfl | hpos
      · simp
      · exact hfirst (by omega) (by omega)
    have heven : k % 2 = 0 := by
      have := binade_mod_two
      omega
    refine ⟨?_, ?_, fun h => by omega⟩
    · rw [Nat.add_mul]
      omega
    · rw [Nat.add_mul]
      omega

/-- **Rounding is to the nearest.** The computed rank is the one that the fraction rounds to. -/
theorem roundsTo_nearestRank (a : Nat) {b : Nat} (hb : 0 < b) :
    RoundsTo (a * unitsOfOne) b (nearestRank a b) := by
  unfold nearestRank
  simp only [Nat.pow_eq]
  generalize a * unitsOfOne = n
  obtain ⟨hplace, hplace'⟩ := place_bounds (n / b)
  generalize (n / b).log2 - 52 = s at *
  rw [Nat.div_div_eq_div_mul] at hplace hplace'
  have hc : 0 < b * 2 ^ s := Nat.mul_pos hb (Nat.two_pow_pos s)
  obtain ⟨⟨hle, hle'⟩, hlow, hhigh, hodd⟩ := nearest_bounds n hc
  refine roundsTo_place (by omega) (by omega) hlow hhigh hodd fun hs hfirst => ?_
  calc nearest n (b * 2 ^ s) * (b * 2 ^ s) ≤ n / (b * 2 ^ s) * (b * 2 ^ s) := Nat.mul_le_mul_right _ (by omega)
    _ ≤ n := Nat.div_mul_le_self n _

theorem nearestRank_eq {a b rank : Nat} (hb : 0 < b) (h : RoundsTo (a * unitsOfOne) b rank) :
    nearestRank a b = rank := (roundsTo_nearestRank a hb).unique h hb

/-! ## The shortest decimal -/

namespace Grid

/-- the numerator of a grid point as a fraction over `factor` -/
def numerator (g : Grid) (d : Nat) : Nat := d * Nat.pow 10 g.exponent.toNat

variable {g : Grid} {d : Nat}

theorem mul_pitch (g : Grid) (d : Nat) : d * g.pitch = 2 * (g.numerator d * unitsOfOne) := by
  unfold pitch numerator
  ring

/-- the grid points that meet the interval are those that round to the double -/
theorem meets_iff : g.meets d ↔ RoundsTo (g.numerator d * unitsOfOne) g.factor g.rank := by
  unfold meets low high
  rw [mul_pitch]
  split
  · rename_i heven
    simp only [Bool.and_eq_true, decide_eq_true_eq]
    exact ⟨fun h => ⟨h.1, h.2, fun hodd => by omega⟩, fun h => ⟨h.low, h.high⟩⟩
  · simp only [Bool.and_eq_true, decide_eq_true_eq]
    exact ⟨fun h => ⟨h.1.le, h.2.le, fun _ => h⟩, fun h => h.strict (by omega)⟩

theorem meets_of_point? (h : g.point? = some d) : g.meets d := by
  simp only [point?] at h
  split at h
  · rename_i hd
    split at h
    · rename_i hd'
      split at h <;> cases h
      · exact hd
      · exact hd'
    · cases h
      exact hd
  · split at h
    · rename_i hd'
      cases h
      exact hd'
    · cases h

theorem point?_isSome (h : g.meets (g.centre / g.pitch + 1)) : g.point?.isSome := by
  simp only [point?, h, if_true]
  split <;> rfl

end Grid

/-- a grid that is finer than the distance of any two doubles has a point that rounds to the double -/
theorem meets_of_pitch_lt {g : Grid} (hpitch : g.pitch < g.factor) : g.meets (g.centre / g.pitch + 1) := by
  have hpos : 0 < g.pitch := Nat.mul_pos (Nat.mul_pos (by decide) unitsOfOne_pos) (Nat.pow_pos (by decide))
  have hdiv : g.pitch * (g.centre / g.pitch) + g.centre % g.pitch = g.centre := Nat.div_add_mod _ _
  have hlt := Nat.mod_lt g.centre hpos
  have hsucc : (g.centre / g.pitch + 1) * g.pitch = g.pitch * (g.centre / g.pitch) + g.pitch := by ring
  have hbelow : units (g.rank - 1) * g.factor ≤ units g.rank * g.factor :=
    Nat.mul_le_mul_right _ (units_strictMono.monotone (Nat.sub_le _ _))
  have habove : units g.rank * g.factor + g.factor ≤ units (g.rank + 1) * g.factor := by
    rw [← Nat.succ_mul]
    exact Nat.mul_le_mul_right _ (units_strictMono (Nat.lt_succ_self _))
  have hcentre : g.centre = 2 * (units g.rank * g.factor) := mul_assoc _ _ _
  have hlow : g.low < (g.centre / g.pitch + 1) * g.pitch := by
    unfold Grid.low
    rw [hsucc, Nat.add_mul]
    omega
  have hhigh : (g.centre / g.pitch + 1) * g.pitch < g.high := by
    unfold Grid.high
    rw [hsucc, Nat.add_mul]
    omega
  unfold Grid.meets
  split <;> simp [hlow, hhigh, hlow.le, hhigh.le]

/-- the last grid is that fine -/
theorem pitch_finest (rank : Nat) : (Grid.mk rank (-324)).pitch < (Grid.mk rank (-324)).factor := by
  have h : 2 * unitsOfOne * Nat.pow 10 (-324 : Int).toNat < Nat.pow 10 (- -324 : Int).toNat := by decide +kernel
  exact h

theorem mem_gridExponents {rank : Nat} {k : Int} : k ∈ gridExponents rank ↔ -324 ≤ k ∧ k ≤ coarsest rank := by
  unfold gridExponents
  simp only [List.mem_map, List.mem_range]
  constructor
  · rintro ⟨i, hi, rfl⟩
    omega
  · intro h
    exact ⟨(coarsest rank - k).toNat, by omega, by omega⟩

theorem finest_mem (rank : Nat) : -324 ∈ gridExponents rank := by
  rw [mem_gridExponents]
  refine ⟨le_rfl, ?_⟩
  unfold coarsest
  omega

end Binary64

/-- the decimal rounds to the double of this rank -/
def Decimal.RoundsTo (d : Decimal) (rank : Nat) : Prop :=
  Binary64.RoundsTo (d.digits * 10 ^ d.exponent.toNat * Binary64.unitsOfOne) (10 ^ (-d.exponent).toNat) rank

namespace Binary64

/-- **The shortest decimal reads back.** The search finds one for every positive double, and it rounds to the double. -/
theorem roundsTo_shortest {rank : Nat} (hrank : 0 < rank) :
    -324 ≤ (shortest rank).exponent ∧ (shortest rank).RoundsTo rank := by
  unfold shortest
  rw [if_neg (by omega)]
  generalize hfind : (gridExponents rank).findSome? _ = found
  cases found with
  | none =>
    have hfinest := List.findSome?_eq_none_iff.1 hfind (-324) (finest_mem rank)
    have hsome := Grid.point?_isSome (meets_of_pitch_lt (pitch_finest rank))
    rw [Option.map_eq_none_iff] at hfinest
    rw [hfinest] at hsome
    cases hsome
  | some d =>
    obtain ⟨k, hk, hd⟩ := List.exists_of_findSome?_eq_some hfind
    obtain ⟨digits, hdigits, rfl⟩ := Option.map_eq_some_iff.1 hd
    have hmeets := Grid.meets_iff.1 (Grid.meets_of_point? hdigits)
    simp only [Grid.numerator, Grid.factor, Nat.pow_eq] at hmeets
    exact ⟨(mem_gridExponents.1 hk).1, hmeets⟩

end Binary64

end Flowchart
