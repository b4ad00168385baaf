/-
Numbers as they are written, and what they read back as.

Every number is written as a numeral that keeps the rules of JSON (`Number.numeral`). Reading such a text gives the
numeral back, whatever follows it, as long as that does not go on with the numeral (`Numeral.Ends`). The digits of a
decimal may get zeros on both sides. The exponent of ten makes up for them, so that the value is the same fraction.

- `Numeral.strict?_written`: a numeral is read back from its text.
- `Decimal.RoundsTo.value?_numeral`: a decimal that rounds to a double reads as that double.
- `Number.ofNumeral?_numeral`: a number is read back from its numeral.
-/
import Flowchart.Json.Write
import Flowchart.Proofs.Rounding
import Mathlib.Tactic.IntervalCases

namespace Flowchart

/-! ## Numerals -/

namespace Numeral

/-- a character that goes on with a numeral -/
def continues (c : Char) : Bool := c.isDigit || c == '.' || c == 'e' || c == 'E'

/-- a text that does not go on with a numeral -/
def Ends (rest : List Char) : Prop := ∀ c ∈ rest.head?, continues c = false

/-- the text of a fraction -/
def fractionText : Option (List Char) → List Char
  | none => []
  | some ds => '.' :: ds

/-- the text of an exponent -/
def exponentText : Option Int → List Char
  | none => []
  | some e => 'e' :: (if e < 0 then '-' else '+') :: natText e.natAbs

/-- the text of a numeral -/
def written (n : Numeral) : List Char :=
  (if n.negative then ['-'] else []) ++ n.whole ++ fractionText n.fraction ++ exponentText n.exponent

/-- the numeral keeps the rules of JSON: digits on both sides of a point, and no leading zero -/
structure Proper (n : Numeral) : Prop where
  whole : ∀ c ∈ n.whole, c.isDigit
  whole_ne_nil : n.whole ≠ []
  lead : n.whole.head? = some '0' → n.whole.length = 1
  fraction : ∀ ds ∈ n.fraction, (∀ c ∈ ds, c.isDigit) ∧ ds ≠ []

theorem Proper.written_eq_cons {n : Numeral} (h : n.Proper) : ∃ c s, n.written = c :: s ∧ (c = '-' ∨ c.isDigit) := by
  obtain ⟨c, cs, hwhole⟩ := List.exists_cons_of_ne_nil h.whole_ne_nil
  have hc : c.isDigit := h.whole c (hwhole ▸ List.mem_cons_self)
  unfold written
  rw [hwhole]
  cases n.negative with
  | true => exact ⟨'-', _, rfl, Or.inl rfl⟩
  | false => exact ⟨c, _, rfl, Or.inr hc⟩

variable {ds rest : List Char}

theorem digits_append (hds : ∀ c ∈ ds, c.isDigit) (hrest : ∀ c ∈ rest.head?, c.isDigit = false) :
    digits (ds ++ rest) = (ds, rest) := by
  unfold digits
  rw [List.takeWhile_append_of_pos hds, List.dropWhile_append_of_pos hds]
  cases rest with
  | nil => simp
  | cons c rest =>
    have hc := hrest c rfl
    simp [hc]

theorem minus_append (negative : Bool) (h : rest.head? ≠ some '-') :
    minus ((if negative then ['-'] else []) ++ rest) = (negative, rest) := by
  cases negative with
  | true => rfl
  | false =>
    unfold minus
    split
    · rename_i s heq
      rw [show rest = '-' :: s from heq] at h
      exact absurd rfl h
    · rfl

theorem afterPoint_append {fraction : Option (List Char)} (hfraction : ∀ ds ∈ fraction, ∀ c ∈ ds, c.isDigit)
    (hrest : ∀ c ∈ rest.head?, c.isDigit = false ∧ c ≠ '.') :
    afterPoint (fractionText fraction ++ rest) = (fraction, rest) := by
  cases fraction with
  | none =>
    unfold afterPoint fractionText
    split
    · rename_i s heq
      exact absurd rfl (hrest '.' (by rw [show rest = '.' :: s from heq]; rfl)).2
    · rfl
  | some ds =>
    have hdigits := digits_append (hfraction ds rfl) fun c hc => (hrest c hc).1
    simp only [fractionText, List.cons_append, afterPoint, hdigits]

theorem isDigit_of_mem_natText {n : Nat} : ∀ c ∈ natText n, c.isDigit :=
  fun _ hc => Nat.isDigit_of_mem_toDigits (by decide) (by decide) hc

theorem exponent?_append (exponent : Option Int) (hrest : Ends rest) :
    exponent? (exponentText exponent ++ rest) = some (exponent, rest) := by
  cases exponent with
  | none =>
    cases rest with
    | nil => rfl
    | cons c rest =>
      have hc := hrest c rfl
      simp only [continues, Bool.or_eq_false_iff, beq_eq_false_iff_ne] at hc
      simp [exponentText, exponent?, hc]
  | some e =>
    have hdigits : digits (natText e.natAbs ++ rest) = (natText e.natAbs, rest) :=
      digits_append isDigit_of_mem_natText fun c hc => by
        have := hrest c hc
        simp only [continues, Bool.or_eq_false_iff] at this
        exact this.1.1.1
    have hne : (natText e.natAbs).isEmpty = false := List.isEmpty_eq_false_iff.2 Nat.toDigits_ne_nil
    have hvalue : Nat.ofDigitChars 10 (natText e.natAbs) 0 = e.natAbs := Nat.ofDigitChars_ten_toDigits
    by_cases hneg : e < 0
    · have hsign : sign ('-' :: (natText e.natAbs ++ rest)) = (true, natText e.natAbs ++ rest) := rfl
      simp [exponentText, hneg, exponent?, hsign, hdigits, hne, hvalue, abs_of_neg]
    · have hsign : sign ('+' :: (natText e.natAbs ++ rest)) = (false, natText e.natAbs ++ rest) := rfl
      simp [exponentText, hneg, exponent?, hsign, hdigits, hne, hvalue, abs_of_nonneg (not_lt.1 hneg)]

/-- what follows the digits of a fraction neither is a digit nor a point -/
theorem head?_exponentText (exponent : Option Int) (hrest : Ends rest) :
    ∀ c ∈ (exponentText exponent ++ rest).head?, c.isDigit = false ∧ c ≠ '.' := by
  intro c hc
  cases exponent with
  | none =>
    have := hrest c hc
    simp only [continues, Bool.or_eq_false_iff, beq_eq_false_iff_ne] at this
    exact this.1.1
  | some e =>
    cases (show some 'e' = some c from hc)
    decide

/-- what follows the digits before the point is no digit -/
theorem head?_fractionText (fraction : Option (List Char)) (exponent : Option Int) (hrest : Ends rest) :
    ∀ c ∈ (fractionText fraction ++ (exponentText exponent ++ rest)).head?, c.isDigit = false := by
  intro c hc
  cases fraction with
  | none => exact (head?_exponentText exponent hrest c hc).1
  | some ds =>
    cases (show some '.' = some c from hc)
    decide

/-- **A numeral is read back from its text.** What follows must not go on with it. -/
theorem strict?_written {n : Numeral} (h : n.Proper) (hrest : Ends rest) :
    strict? (n.written ++ rest) = some (n, rest) := by
  obtain ⟨negative, whole, fraction, exponent⟩ := n
  obtain ⟨hwhole, hne, hlead, hfraction⟩ := h
  simp only at hwhole hne hlead hfraction
  have hassoc : written ⟨negative, whole, fraction, exponent⟩ ++ rest =
      (if negative then ['-'] else []) ++ (whole ++ (fractionText fraction ++ (exponentText exponent ++ rest))) := by
    simp only [written, List.append_assoc]
  have hfirst : (whole ++ (fractionText fraction ++ (exponentText exponent ++ rest))).head? ≠ some '-' := by
    cases whole with
    | nil => exact absurd rfl hne
    | cons c whole =>
      rintro ⟨⟩
      exact absurd (hwhole '-' List.mem_cons_self) (by decide)
  have hzero :
      (whole.isEmpty || (whole.head? == some '0' && decide (1 < whole.length)) || fraction == some []) = false := by
    have h0 : ¬(whole.head? = some '0' ∧ 1 < whole.length) := fun h0 => by
      have := hlead h0.1
      omega
    have hf : fraction ≠ some [] := fun hf => (hfraction [] hf).2 rfl
    simpa [hne, hf] using h0
  simp only [strict?, hassoc, minus_append negative hfirst, digits_append hwhole (head?_fractionText _ _ hrest),
    afterPoint_append (fun ds hds => (hfraction ds hds).1) (head?_exponentText _ hrest), hzero,
    exponent?_append exponent hrest]
  rfl

end Numeral

/-! ## Decimals -/

/-- the digits of a positive number do not start with zero -/
theorem head?_natText {n : Nat} (h : 0 < n) : (natText n).head? ≠ some '0' := by
  induction n using Nat.strongRecOn with
  | ind n ih =>
    unfold natText at *
    rw [Nat.toDigits_eq_if (by decide)]
    split
    · rename_i hlt
      interval_cases n <;> decide
    · rename_i hge
      have hfirst := ih (n / 10) (by omega) (by omega)
      cases hdigits : Nat.toDigits 10 (n / 10) with
      | nil => exact absurd hdigits Nat.toDigits_ne_nil
      | cons c rest =>
        rw [hdigits] at hfirst
        exact hfirst

/-- a positive number has as many digits as its size says -/
theorem pow_le_of_length_natText {n : Nat} (h : 0 < n) : 10 ^ ((natText n).length - 1) ≤ n := by
  have hlength : 0 < (natText n).length := Nat.length_toDigits_pos
  by_cases hone : (natText n).length = 1
  · rw [hone]
    exact h
  · refine Nat.not_lt.1 fun hlt => ?_
    have := (Nat.length_toDigits_le_iff (b := 10) (by decide) (by omega)).2 hlt
    unfold natText at *
    omega

namespace Decimal

/-- the numeral of a decimal in positional notation -/
def positionalNumeral (negative : Bool) (digits : List Char) (power : Int) : Numeral :=
  if power < 0 then ⟨negative, ['0'], some (List.replicate (-power - 1).toNat '0' ++ digits), none⟩
  else if digits.length ≤ power.toNat + 1 then
    ⟨negative, digits ++ List.replicate (power.toNat + 1 - digits.length) '0', some ['0'], none⟩
  else ⟨negative, digits.take (power.toNat + 1), some (digits.drop (power.toNat + 1)), none⟩

/-- the numeral of a decimal with an exponent -/
def scientificNumeral (negative : Bool) (digits : List Char) (power : Int) : Numeral :=
  ⟨negative, digits.take 1, if digits.length ≤ 1 then none else some (digits.drop 1), some power⟩

/-- the numeral that a decimal is written as -/
def numeral (negative : Bool) (d : Decimal) : Numeral :=
  let digits := natText d.digits
  let power := d.exponent + digits.length - 1
  if -5 ≤ power ∧ power ≤ 15 then positionalNumeral negative digits power
  else scientificNumeral negative digits power

theorem written_positionalNumeral (negative : Bool) (digits : List Char) (power : Int) :
    (positionalNumeral negative digits power).written =
      (if negative then ['-'] else []) ++ positional digits power := by
  unfold positionalNumeral positional
  split
  · simp [Numeral.written, Numeral.fractionText, Numeral.exponentText]
  · split <;> simp [Numeral.written, Numeral.fractionText, Numeral.exponentText]

theorem written_scientificNumeral (negative : Bool) (digits : List Char) (power : Int) :
    (scientificNumeral negative digits power).written =
      (if negative then ['-'] else []) ++ scientific digits power := by
  match digits with
  | [] => simp [scientificNumeral, scientific, Numeral.written, Numeral.fractionText, Numeral.exponentText]
  | [d] => simp [scientificNumeral, scientific, Numeral.written, Numeral.fractionText, Numeral.exponentText]
  | d :: d' :: rest =>
    simp [scientificNumeral, scientific, Numeral.written, Numeral.fractionText, Numeral.exponentText]

theorem written_numeral (negative : Bool) (d : Decimal) :
    (d.numeral negative).written = (if negative then ['-'] else []) ++ d.text := by
  unfold numeral text
  simp only
  split
  · exact written_positionalNumeral _ _ _
  · exact written_scientificNumeral _ _ _

/-- What the numeral of a decimal holds: its digits with zeros around them, and an exponent that makes up for those that
follow. -/
structure Holds (n : Numeral) (digits : List Char) (exponent : Int) : Prop where
  proper : n.Proper
  not_isInteger : n.isInteger = false
  digits_eq : ∃ before after, n.whole ++ n.fraction.getD [] =
    List.replicate before '0' ++ digits ++ List.replicate after '0' ∧ n.scale = exponent - after

/-- digits that do not start with zero -/
structure Leads (digits : List Char) : Prop where
  isDigit : ∀ c ∈ digits, c.isDigit
  ne_nil : digits ≠ []
  head : digits.head? ≠ some '0'

variable {digits : List Char}

theorem isDigit_zeros (k : Nat) : ∀ c ∈ List.replicate k '0', c.isDigit := by
  intro c hc
  rw [List.eq_of_mem_replicate hc]
  rfl

theorem Leads.head?_append (h : Leads digits) (rest : List Char) : (digits ++ rest).head? = digits.head? := by
  cases digits with
  | nil => exact absurd rfl h.ne_nil
  | cons c digits => rfl

theorem holds_positionalNumeral (h : Leads digits) (negative : Bool) (exponent : Int) :
    Holds (positionalNumeral negative digits (exponent + digits.length - 1)) digits exponent := by
  have hlength := List.length_pos_iff.2 h.ne_nil
  unfold positionalNumeral
  split
  · -- the digits follow the point
    refine ⟨⟨isDigit_zeros 1, List.cons_ne_nil _ _, fun _ => rfl, ?_⟩, rfl, ?_⟩
    · rintro ds ⟨⟩
      exact ⟨List.forall_mem_append.2 ⟨isDigit_zeros _, h.isDigit⟩, by simp [h.ne_nil]⟩
    · refine ⟨(-(exponent + digits.length - 1) - 1).toNat + 1, 0, by simp [List.replicate_succ], ?_⟩
      simp only [Numeral.scale, Option.getD_none, Option.getD_some, List.length_append, List.length_replicate]
      omega
  · split
    · -- the digits precede the point, and so do zeros
      refine ⟨⟨List.forall_mem_append.2 ⟨h.isDigit, isDigit_zeros _⟩, by simp [h.ne_nil], ?_, ?_⟩, rfl, ?_⟩
      · intro hzero
        exact absurd ((h.head?_append _).symm.trans hzero) h.head
      · rintro ds ⟨⟩
        exact ⟨isDigit_zeros 1, List.cons_ne_nil _ _⟩
      · refine ⟨0, exponent.toNat + 1, ?_, ?_⟩
        · have hcount : (exponent + digits.length - 1).toNat + 1 - digits.length = exponent.toNat := by omega
          rw [hcount]
          simp [List.replicate_succ']
        · simp only [Numeral.scale, Option.getD_none, Option.getD_some, List.length_cons, List.length_nil]
          omega
    · -- the point is among the digits
      rename_i hin
      obtain ⟨c, cs, rfl⟩ := List.exists_cons_of_ne_nil h.ne_nil
      refine ⟨⟨fun c hc => h.isDigit c (List.mem_of_mem_take hc), by simp, ?_, ?_⟩, rfl, 0, 0, by simp, ?_⟩
      · intro hzero
        exact absurd hzero h.head
      · rintro ds ⟨⟩
        refine ⟨fun c hc => h.isDigit c (List.mem_of_mem_drop hc), ?_⟩
        rw [ne_eq, List.drop_eq_nil_iff]
        omega
      · simp only [Numeral.scale, Option.getD_none, Option.getD_some, List.length_drop]
        omega

theorem holds_scientificNumeral (h : Leads digits) (negative : Bool) (exponent : Int) :
    Holds (scientificNumeral negative digits (exponent + digits.length - 1)) digits exponent := by
  obtain ⟨c, cs, rfl⟩ := List.exists_cons_of_ne_nil h.ne_nil
  refine ⟨⟨fun c hc => h.isDigit c (List.mem_of_mem_take hc), List.cons_ne_nil c [], fun _ => rfl, ?_⟩, ?_, 0, 0, ?_,
    ?_⟩
  · intro ds hds
    cases cs with
    | nil => cases hds
    | cons c' cs =>
      cases (show some (c' :: cs) = some ds from hds)
      exact ⟨fun x hx => h.isDigit x (List.mem_cons_of_mem c hx), by simp⟩
  · simp [scientificNumeral, Numeral.isInteger]
  · cases cs <;> simp [scientificNumeral]
  · cases cs with
    | nil => simp [scientificNumeral, Numeral.scale]
    | cons c' cs =>
      simp [scientificNumeral, Numeral.scale]
      omega

theorem leads_natText {n : Nat} (h : 0 < n) : Leads (natText n) :=
  ⟨Numeral.isDigit_of_mem_natText, Nat.toDigits_ne_nil, head?_natText h⟩

theorem holds_numeral {d : Decimal} (h : 0 < d.digits) (negative : Bool) :
    Holds (d.numeral negative) (natText d.digits) d.exponent := by
  unfold numeral
  simp only
  split
  · exact holds_positionalNumeral (leads_natText h) negative d.exponent
  · exact holds_scientificNumeral (leads_natText h) negative d.exponent

theorem negative_numeral (negative : Bool) (d : Decimal) : (d.numeral negative).negative = negative := by
  simp only [numeral, positionalNumeral, scientificNumeral]
  repeat' split
  all_goals rfl

theorem Holds.significant_eq {n : Numeral} {exponent : Int} (h : Holds n digits exponent) (hdigits : Leads digits) :
    ∃ after : Nat, n.significant = digits ++ List.replicate after '0' ∧ n.scale = exponent - after := by
  obtain ⟨before, after, heq, hscale⟩ := h.digits_eq
  refine ⟨after, ?_, hscale⟩
  obtain ⟨c, cs, rfl⟩ := List.exists_cons_of_ne_nil hdigits.ne_nil
  have hc : c ≠ '0' := fun hc => hdigits.head (hc ▸ rfl)
  have hzeros : ∀ x ∈ List.replicate before '0', (x == '0') = true := fun x hx => by
    rw [List.eq_of_mem_replicate hx]
    rfl
  rw [Numeral.significant, heq, List.append_assoc, List.dropWhile_append_of_pos hzeros, List.cons_append,
    List.dropWhile_cons_of_neg (by simpa using hc)]

/-- a decimal that rounds to a finite double is below 10^309 -/
theorem RoundsTo.magnitude_lt {d : Decimal} {rank : Nat} (h : d.RoundsTo rank) (hd : 0 < d.digits)
    (hrank : rank < 2047 * Binary64.binade) : d.exponent + (natText d.digits).length < 310 := by
  by_contra hge
  have hlength : 0 < (natText d.digits).length := Nat.length_toDigits_pos
  have hdigits := pow_le_of_length_natText hd
  have hbound : 10 ^ ((natText d.digits).length - 1) * 10 ^ d.exponent.toNat * 2 ^ 1074 ≤
      2 ^ 1024 * 10 ^ (-d.exponent).toNat * 2 ^ 1074 :=
    calc 10 ^ ((natText d.digits).length - 1) * 10 ^ d.exponent.toNat * 2 ^ 1074
        ≤ d.digits * 10 ^ d.exponent.toNat * Binary64.unitsOfOne := by
          rw [Binary64.unitsOfOne_eq]
          exact Nat.mul_le_mul_right _ (Nat.mul_le_mul_right _ hdigits)
      _ ≤ 2 ^ 2098 * 10 ^ (-d.exponent).toNat := Binary64.RoundsTo.le_of_finite h hrank
      _ = 2 ^ 1024 * 10 ^ (-d.exponent).toNat * 2 ^ 1074 := by
          rw [Nat.mul_right_comm, ← Nat.pow_add]
  have hpow : 10 ^ 309 * 10 ^ (-d.exponent).toNat ≤ 2 ^ 1024 * 10 ^ (-d.exponent).toNat :=
    calc 10 ^ 309 * 10 ^ (-d.exponent).toNat = 10 ^ (309 + (-d.exponent).toNat) := (Nat.pow_add 10 309 _).symm
      _ ≤ 10 ^ ((natText d.digits).length - 1 + d.exponent.toNat) := Nat.pow_le_pow_right (by decide) (by omega)
      _ = 10 ^ ((natText d.digits).length - 1) * 10 ^ d.exponent.toNat := Nat.pow_add _ _ _
      _ ≤ 2 ^ 1024 * 10 ^ (-d.exponent).toNat := Nat.le_of_mul_le_mul_right hbound (by positivity)
  have hfalse : ¬10 ^ 309 ≤ 2 ^ 1024 := by decide +kernel
  exact hfalse (Nat.le_of_mul_le_mul_right hpow (Nat.pow_pos (by decide)))

/-- **A decimal reads as the double that it rounds to.** -/
theorem RoundsTo.value?_numeral {d : Decimal} {rank : Nat} (h : d.RoundsTo rank) (hd : 0 < d.digits)
    (hexponent : -324 ≤ d.exponent) (hrank : rank < 2047 * Binary64.binade) (negative : Bool) :
    (d.numeral negative).value? = some ⟨negative, rank, hrank⟩ := by
  have hleads := leads_natText hd
  have hlength := List.length_pos_iff.2 hleads.ne_nil
  have hlt := h.magnitude_lt hd hrank
  obtain ⟨after, hsignificant, hscale⟩ := (holds_numeral hd negative).significant_eq hleads
  have hdigits : Nat.ofDigitChars 10 (d.numeral negative).significant 0 = 10 ^ after * d.digits := by
    rw [hsignificant, Nat.ofDigitChars_append, Nat.ofDigitChars_replicate_zero]
    congr 1
    exact Nat.ofDigitChars_ten_toDigits
  have hmagnitude : (d.numeral negative).scale + (d.numeral negative).significant.length =
      d.exponent + (natText d.digits).length := by
    rw [hsignificant, hscale, List.length_append, List.length_replicate]
    omega
  have hsome : (d.numeral negative).significant.isEmpty = false := by
    rw [hsignificant]
    simp [hleads.ne_nil]
  -- the same fraction with other powers of ten
  have hround : Binary64.RoundsTo (10 ^ after * d.digits * 10 ^ (d.numeral negative).scale.toNat * Binary64.unitsOfOne)
      (10 ^ (-(d.numeral negative).scale).toNat) rank := by
    refine Binary64.RoundsTo.congr_ratio h (Nat.pow_pos (by decide)) (Nat.pow_pos (by decide)) ?_
    have hpowers : 10 ^ d.exponent.toNat * 10 ^ (-(d.numeral negative).scale).toNat =
        10 ^ after * 10 ^ (d.numeral negative).scale.toNat * 10 ^ (-d.exponent).toNat := by
      rw [← Nat.pow_add, ← Nat.pow_add, ← Nat.pow_add, hscale]
      congr 1
      omega
    calc d.digits * 10 ^ d.exponent.toNat * Binary64.unitsOfOne * 10 ^ (-(d.numeral negative).scale).toNat
        = d.digits * Binary64.unitsOfOne * (10 ^ d.exponent.toNat * 10 ^ (-(d.numeral negative).scale).toNat) := by ring
      _ = _ := by
        rw [hpowers]
        ring
  simp only [Numeral.value?, hsome, hmagnitude, negative_numeral, hdigits, Nat.pow_eq, Binary64.ofRatio?,
    Binary64.nearestRank_eq (Nat.pow_pos (by decide)) hround]
  rw [if_neg (by decide), if_neg (by omega), if_neg (by omega), dif_pos hrank]

end Decimal

/-! ## Numbers -/

/-- the numeral that a double is written as -/
def Binary64.numeral (x : Binary64) : Numeral := (shortest x.rank).numeral x.negative

/-- the numeral that a number is written as -/
def Number.numeral : Number → Numeral
  | .int value _ => ⟨value < 0, natText value.natAbs, none, none⟩
  | .double x => x.numeral

namespace Binary64

theorem numeral_of_rank_eq_zero {x : Binary64} (h : x.rank = 0) :
    x.numeral = ⟨x.negative, ['0'], some ['0'], none⟩ := by
  rw [numeral, h]
  rfl

theorem digits_shortest_pos {rank : Nat} (h : 0 < rank) : 0 < (shortest rank).digits := by
  have hpos := RoundsTo.pos (roundsTo_shortest h).2 (Nat.pow_pos (by decide)) h
  exact Nat.pos_of_mul_pos_right (Nat.pos_of_mul_pos_right hpos)

/-- **A double is read back from its numeral.** -/
theorem value?_numeral (x : Binary64) : x.numeral.value? = some x := by
  rcases Nat.eq_zero_or_pos x.rank with hzero | hpos
  · rw [numeral_of_rank_eq_zero hzero]
    obtain ⟨negative, rank, hrank⟩ := x
    cases hzero
    rfl
  · obtain ⟨hexponent, hround⟩ := roundsTo_shortest hpos
    exact hround.value?_numeral (digits_shortest_pos hpos) hexponent x.rank_lt x.negative

theorem proper_numeral (x : Binary64) : x.numeral.Proper ∧ x.numeral.isInteger = false := by
  rcases Nat.eq_zero_or_pos x.rank with hzero | hpos
  · rw [numeral_of_rank_eq_zero hzero]
    refine ⟨⟨Decimal.isDigit_zeros 1, List.cons_ne_nil _ _, fun _ => rfl, ?_⟩, rfl⟩
    rintro ds ⟨⟩
    exact ⟨Decimal.isDigit_zeros 1, List.cons_ne_nil _ _⟩
  · have h := Decimal.holds_numeral (digits_shortest_pos hpos) x.negative
    exact ⟨h.proper, h.not_isInteger⟩

end Binary64

namespace Number

theorem written_numeral (n : Number) : n.numeral.written = n.text := by
  cases n with
  | int value h =>
    by_cases hneg : value < 0 <;>
      simp [numeral, Numeral.written, Numeral.fractionText, Numeral.exponentText, text, intText, hneg]
  | double x => exact Decimal.written_numeral _ _

theorem proper_numeral (n : Number) : n.numeral.Proper := by
  cases n with
  | int value h =>
    refine ⟨Numeral.isDigit_of_mem_natText, Nat.toDigits_ne_nil, ?_, fun _ hds => nomatch hds⟩
    intro hzero
    rcases Nat.eq_zero_or_pos value.natAbs with h0 | hpos
    · simp only [numeral, h0]
      rfl
    · exact absurd hzero (head?_natText hpos)
  | double x => exact x.proper_numeral.1

/-- **A number is read back from its numeral.** -/
theorem ofNumeral?_numeral (n : Number) : ofNumeral? n.numeral = some n := by
  cases n with
  | int value h =>
    have hvalue : (numeral (.int value h)).integer = value := by
      have hdigits : Nat.ofDigitChars 10 (natText value.natAbs) 0 = value.natAbs := Nat.ofDigitChars_ten_toDigits
      simp only [numeral, Numeral.integer, hdigits, decide_eq_true_eq]
      split <;> omega
    have hzero : ¬((numeral (.int value h)).negative ∧ value = 0) := by
      simp only [numeral, decide_eq_true_eq]
      omega
    simp only [ofNumeral?, hvalue]
    rw [dif_pos ⟨rfl, hzero, h⟩]
  | double x =>
    have hnot : ¬x.numeral.isInteger := by simp [x.proper_numeral.2]
    simp only [ofNumeral?, numeral, x.value?_numeral, hnot]
    rfl

end Number

end Flowchart
