/-
The shortest decimal that reads back as a given double.

The reals that round to a double form an interval between the midpoints to its two neighbours, ends included when the
rank is even. The multiples of a power of ten form a grid. The shortest decimal lies on the coarsest grid that meets
the interval, and there it is the grid point nearest to the double.
-/
import Flowchart.Decimal.Binary64

namespace Flowchart

/-- the decimal `digits * 10 ^ exponent` -/
structure Decimal where
  digits : Nat
  exponent : Int
deriving DecidableEq, Repr

namespace Binary64

/-- The double of rank `rank`, the grid of multiples of `10 ^ exponent`, and the grid points that read back. Lengths are
counted in halves of the smallest positive double, multiplied by `10 ^ -exponent` when that is a whole number. -/
structure Grid where
  rank : Nat
  exponent : Int

namespace Grid

/-- the distance of two grid points -/
def pitch (g : Grid) : Nat := 2 * unitsOfOne * Nat.pow 10 g.exponent.toNat

/-- the factor that makes the lengths whole -/
def factor (g : Grid) : Nat := Nat.pow 10 (-g.exponent).toNat

/-- the double itself -/
def centre (g : Grid) : Nat := 2 * units g.rank * g.factor

/-- the midpoint to the double below -/
def low (g : Grid) : Nat := (units (g.rank - 1) + units g.rank) * g.factor

/-- the midpoint to the double above -/
def high (g : Grid) : Nat := (units g.rank + units (g.rank + 1)) * g.factor

/-- grid point `d` rounds to the double -/
def meets (g : Grid) (d : Nat) : Bool :=
  if g.rank % 2 = 0 then g.low ≤ d * g.pitch && d * g.pitch ≤ g.high
  else g.low < d * g.pitch && d * g.pitch < g.high

/-- the grid point nearest to the double among those that round to it; of two as near the even one -/
def point? (g : Grid) : Option Nat :=
  let d := g.centre / g.pitch
  if g.meets d then
    if g.meets (d + 1) then
      let twice := 2 * g.centre
      let middle := (2 * d + 1) * g.pitch
      some (if twice < middle || (twice == middle && d % 2 == 0) then d else d + 1)
    else some d
  else if g.meets (d + 1) then some (d + 1) else none

end Grid

/-- An exponent whose grid, like all coarser ones, has no point but zero below the upper end of the interval. The rank
has less than `2 ^ (log2 + 1)` units, and 0.30103 is the logarithm of two. -/
def coarsest (rank : Nat) : Int := (((units rank).log2 : Int) - 1073) * 30103 / 100000 + 2

/-- the exponents of the grids, from the coarsest on -/
def gridExponents (rank : Nat) : List Int :=
  (List.range (coarsest rank + 325).toNat).map fun (i : Nat) => coarsest rank - i

/-- The shortest decimal that reads back as the magnitude of this rank, and of those the nearest. The last grid, of
exponent -324, meets every interval, so the search ends with a point for every positive rank. -/
def shortest (rank : Nat) : Decimal :=
  if rank = 0 then ⟨0, 0⟩
  else ((gridExponents rank).findSome? fun k => (Grid.point? ⟨rank, k⟩).map (⟨·, k⟩)).getD ⟨0, 0⟩

end Binary64

end Flowchart
