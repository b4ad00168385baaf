/-
Finite double-precision numbers.

The magnitudes of the finite doubles, from zero to the largest, are numbered in rising order. A double is a sign and
such a rank. The rank is also the bit pattern without its sign, so that neighbours in value are neighbours in rank.
`units` is the value of a rank, counted in the smallest positive double 2^-1074. It is a natural number, and no
rational arithmetic is needed anywhere.
-/

namespace Flowchart

/-- how many doubles there are from a power of two up to the next: 2^52 -/
def Binary64.binade : Nat := 0x10000000000000

/-- a finite double: its sign and the rank of its magnitude -/
structure Binary64 where
  negative : Bool
  rank : Nat
  rank_lt : rank < 2047 * Binary64.binade
deriving DecidableEq, Repr

namespace Binary64

/-- how many times the smallest positive double goes into one: 2^1074 -/
def unitsOfOne : Nat := Nat.pow 2 1074

/-- how many times the smallest positive double goes into the magnitude of this rank -/
def units (rank : Nat) : Nat :=
  if rank < binade then rank else (binade + rank % binade) * Nat.pow 2 (rank / binade - 1)

/-- the value, counted in the smallest positive double -/
def scaled (x : Binary64) : Int := if x.negative then -(units x.rank : Int) else units x.rank

/-- zero, with a sign -/
def zero (negative : Bool) : Binary64 := ⟨negative, 0, by decide⟩

/-- the finite double with this 64-bit pattern; infinities and the patterns that are no number give none -/
def ofBits? (bits : UInt64) : Option Binary64 :=
  let signBit := 0x8000000000000000
  let rank := bits.toNat % signBit
  if h : rank < 2047 * binade then some ⟨signBit ≤ bits.toNat, rank, h⟩ else none

/-- the value has no part after the point -/
def isIntegral (x : Binary64) : Bool := units x.rank % unitsOfOne = 0

/-- The value as a signed 64-bit integer: without the part after the point, and the nearest such integer if it is beyond
them. -/
def toInt64 (x : Binary64) : Int := max (-0x8000000000000000) (min 0x7fffffffffffffff (x.scaled.tdiv unitsOfOne))

theorem toInt64_range (x : Binary64) : -0x8000000000000000 ≤ x.toInt64 ∧ x.toInt64 < 0x8000000000000000 := by
  unfold toInt64
  omega

/-! ## Rounding -/

/-- the natural number nearest to `a / b`; a half goes to the even neighbour -/
def nearest (a b : Nat) : Nat :=
  if 2 * (a % b) < b ∨ (2 * (a % b) = b ∧ a / b % 2 = 0) then a / b else a / b + 1

/-- the rank nearest to `a / b`, also beyond the largest finite double; a half goes to the even neighbour -/
def nearestRank (a b : Nat) : Nat :=
  let shift := (a * unitsOfOne / b).log2 - 52
  shift * binade + nearest (a * unitsOfOne) (b * Nat.pow 2 shift)

/-- the double nearest to `a / b` with this sign; none when it is not finite -/
def ofRatio? (negative : Bool) (a b : Nat) : Option Binary64 :=
  let rank := nearestRank a b
  if h : rank < 2047 * binade then some ⟨negative, rank, h⟩ else none

/-- the rank of the double nearest to the largest signed 64-bit integer -/
def limit : Nat := nearestRank 0x7fffffffffffffff 1

end Binary64

end Flowchart
