/-
JSON text.

`compact` writes a value without blanks. `pretty` writes a member or item per line, two blanks deeper per level, and an
empty array or object without a line break. Both write members in the order of the value.

A double is written with the fewest digits that read back: positionally from 10^-5 up to 10^16, with a point always,
and otherwise with an exponent that carries its sign.
-/
import Flowchart.Json.Basic
import Flowchart.Decimal.Shortest

namespace Flowchart

/-! ## Numbers -/

/-- the digits of a natural number -/
def natText (n : Nat) : List Char := Nat.toDigits 10 n

/-- an integer in decimal -/
def intText (n : Int) : List Char := if n < 0 then '-' :: natText n.natAbs else natText n.natAbs

namespace Decimal

/-- a decimal in positional notation, with digits on both sides of the point -/
def positional (digits : List Char) (power : Int) : List Char :=
  if power < 0 then "0.".toList ++ List.replicate (-power - 1).toNat '0' ++ digits
  else if digits.length ≤ power.toNat + 1 then
    digits ++ List.replicate (power.toNat + 1 - digits.length) '0' ++ ".0".toList
  else digits.take (power.toNat + 1) ++ '.' :: digits.drop (power.toNat + 1)

/-- a decimal with one digit before the point and an exponent with its sign -/
def scientific (digits : List Char) (power : Int) : List Char :=
  let mantissa := match digits with
    | [] => []
    | [d] => [d]
    | d :: rest => d :: '.' :: rest
  mantissa ++ 'e' :: (if power < 0 then '-' else '+') :: natText power.natAbs

/-- The text of a decimal. `power` is the exponent of its first digit; from -5 to 15 the notation is positional. -/
def text (d : Decimal) : List Char :=
  let digits := natText d.digits
  let power := d.exponent + digits.length - 1
  if -5 ≤ power ∧ power ≤ 15 then positional digits power else scientific digits power

end Decimal

/-- a double in decimal -/
def Binary64.text (x : Binary64) : List Char :=
  (if x.negative then ['-'] else []) ++ (Binary64.shortest x.rank).text

/-- a number in decimal -/
def Number.text : Number → List Char
  | .int value _ => intText value
  | .double value => value.text

/-! ## Strings -/

/-- a hexadecimal digit, lower case -/
def hexDigit (n : Nat) : Char := if n < 10 then Char.ofNat (48 + n) else Char.ofNat (87 + n)

/-- A character inside a string: quotes, backslashes and control characters are escaped, all else stands as it is. -/
def escape (c : Char) : List Char :=
  if c = '"' then ['\\', '"']
  else if c = '\\' then ['\\', '\\']
  else if c = '\n' then ['\\', 'n']
  else if c = '\r' then ['\\', 'r']
  else if c = '\t' then ['\\', 't']
  else if c.toNat = 8 then ['\\', 'b']
  else if c.toNat = 12 then ['\\', 'f']
  else if c.toNat < 32 then ['\\', 'u', '0', '0', hexDigit (c.toNat / 16), hexDigit (c.toNat % 16)]
  else [c]

/-- a text between quotes -/
def quote (s : List Char) : List Char := '"' :: s.flatMap escape ++ ['"']

/-! ## Values -/

namespace Json

mutual

/-- the value without blanks -/
def compact : Json → List Char
  | .null => "null".toList
  | .bool true => "true".toList
  | .bool false => "false".toList
  | .num n => n.text
  | .str s => quote s.toList
  | .arr [] => ['[', ']']
  | .arr (v :: items) => '[' :: compact v ++ compactItems items ++ [']']
  | .obj [] => ['{', '}']
  | .obj ((k, v) :: members) => '{' :: quote k.toList ++ ':' :: compact v ++ compactMembers members ++ ['}']

/-- the items after the first -/
def compactItems : List Json → List Char
  | [] => []
  | v :: items => ',' :: compact v ++ compactItems items

/-- the members after the first -/
def compactMembers : List (String × Json) → List Char
  | [] => []
  | (k, v) :: members => ',' :: quote k.toList ++ ':' :: compact v ++ compactMembers members

end

/-- a line break and the indentation of a level -/
def newline (level : Nat) : List Char := '\n' :: List.replicate (2 * level) ' '

mutual

/-- the value with a line per item and member, at a level of indentation -/
def pretty (level : Nat) : Json → List Char
  | .null => "null".toList
  | .bool true => "true".toList
  | .bool false => "false".toList
  | .num n => n.text
  | .str s => quote s.toList
  | .arr [] => ['[', ']']
  | .arr (v :: items) =>
    '[' :: newline (level + 1) ++ pretty (level + 1) v ++ prettyItems (level + 1) items ++ newline level ++ [']']
  | .obj [] => ['{', '}']
  | .obj ((k, v) :: members) =>
    '{' :: newline (level + 1) ++ quote k.toList ++ ':' :: ' ' :: pretty (level + 1) v ++
      prettyMembers (level + 1) members ++ newline level ++ ['}']

/-- the items after the first -/
def prettyItems (level : Nat) : List Json → List Char
  | [] => []
  | v :: items => ',' :: newline level ++ pretty level v ++ prettyItems level items

/-- the members after the first -/
def prettyMembers (level : Nat) : List (String × Json) → List Char
  | [] => []
  | (k, v) :: members =>
    ',' :: newline level ++ quote k.toList ++ ':' :: ' ' :: pretty level v ++ prettyMembers level members

end

/-- the compact text -/
def toText (v : Json) : String := String.ofList (compact v)

/-- the pretty text -/
def toPrettyText (v : Json) : String := String.ofList (pretty 0 v)

end Json

end Flowchart
