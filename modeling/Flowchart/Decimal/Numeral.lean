/-
Numbers written in decimal.

A numeral is a number as it is written: a sign, the digits before and after the point and an exponent of ten. `value?`
is the double nearest to it. Two grammars read numerals. `plain?` reads a whole text and is liberal: a sign of either
kind, leading zeros, and no digits on one side of the point. `strict?` reads the numeral at the front of a text by the
rules of JSON and says what follows it.
-/
import Flowchart.Decimal.Binary64

namespace Flowchart

/-- a number as it is written -/
structure Numeral where
  negative : Bool
  /-- the digits before the point -/
  whole : List Char
  /-- the digits after the point; none when no point is written -/
  fraction : Option (List Char)
  /-- the exponent of ten; none when no exponent is written -/
  exponent : Option Int
deriving DecidableEq, Repr

namespace Numeral

/-- the digits from the first that is not zero -/
def significant (n : Numeral) : List Char := (n.whole ++ n.fraction.getD []).dropWhile (· == '0')

/-- the power of ten that the last digit counts -/
def scale (n : Numeral) : Int := n.exponent.getD 0 - (n.fraction.getD []).length

/-- The double nearest to the numeral, a half going to the even neighbour; none beyond the finite doubles. From 10^309
on every number is too large and below 10^-324 every number is nearest to zero, so no power is formed there. -/
def value? (n : Numeral) : Option Binary64 :=
  let digits := n.significant
  let magnitude := n.scale + digits.length
  if digits.isEmpty then some (Binary64.zero n.negative)
  else if 310 ≤ magnitude then none
  else if magnitude ≤ -324 then some (Binary64.zero n.negative)
  else
    Binary64.ofRatio? n.negative (Nat.ofDigitChars 10 digits 0 * Nat.pow 10 n.scale.toNat)
      (Nat.pow 10 (-n.scale).toNat)

/-! ## Reading -/

/-- the digits at the front of a text, and what follows them -/
def digits (s : List Char) : List Char × List Char := (s.takeWhile Char.isDigit, s.dropWhile Char.isDigit)

/-- a sign at the front of a text (`true` is minus), and what follows it -/
def sign : List Char → Bool × List Char
  | '-' :: s => (true, s)
  | '+' :: s => (false, s)
  | s => (false, s)

/-- The exponent at the front of a text, and what follows it. The outer none means that a mark of an exponent stands
there without its digits. -/
def exponent? : List Char → Option (Option Int × List Char)
  | c :: s =>
    if c = 'e' ∨ c = 'E' then
      let (negative, s) := sign s
      let (ds, rest) := digits s
      if ds.isEmpty then none
      else
        let n : Int := Nat.ofDigitChars 10 ds 0
        some (some (if negative then -n else n), rest)
    else some (none, c :: s)
  | [] => some (none, [])

/-- a minus sign at the front of a text or none, and what follows it -/
def minus : List Char → Bool × List Char
  | '-' :: s => (true, s)
  | s => (false, s)

/-- the digits after a point at the front of a text, and what follows them; none when no point stands there -/
def afterPoint : List Char → Option (List Char) × List Char
  | '.' :: s => (some (digits s).1, (digits s).2)
  | s => (none, s)

/-- The numeral that is written by the whole text: a sign or none, digits with a point anywhere among them or none, and
an exponent or none. There is at least one digit. -/
def plain? (s : List Char) : Option Numeral :=
  let (negative, s) := sign s
  let (whole, s) := digits s
  let (fraction, s) := afterPoint s
  if whole.isEmpty && (fraction.getD []).isEmpty then none
  else
    match exponent? s with
    | some (exponent, []) => some ⟨negative, whole, fraction, exponent⟩
    | _ => none

/-- The numeral at the front of a text by the rules of JSON, and what follows it: no plus sign in front, no leading
zero, and digits on both sides of a point. -/
def strict? (s : List Char) : Option (Numeral × List Char) :=
  let (negative, s) := minus s
  let (whole, s) := digits s
  let (fraction, s) := afterPoint s
  if whole.isEmpty || (whole.head? == some '0' && 1 < whole.length) || fraction == some [] then none
  else (exponent? s).map fun r => (⟨negative, whole, fraction, r.1⟩, r.2)

/-- the value of a numeral without point and exponent -/
def integer (n : Numeral) : Int :=
  if n.negative then -(Nat.ofDigitChars 10 n.whole 0 : Int) else Nat.ofDigitChars 10 n.whole 0

/-- the numeral is written without point and exponent -/
def isInteger (n : Numeral) : Bool := n.fraction.isNone && n.exponent.isNone

end Numeral

end Flowchart
