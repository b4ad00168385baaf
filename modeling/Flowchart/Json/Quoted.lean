/-
Reading quoted text.

`scan?` splits the inside of a quoted text into pieces, up to the closing quote: a character, or a UTF-16 unit that is
written as an escape of four hexadecimal digits. It checks the escapes and refuses control characters. `decode?` joins
the pieces into a text and refuses a surrogate without its partner. The two are apart because a text that is skipped
is scanned and never decoded.
-/

namespace Flowchart.Quoted

/-- a part of a quoted text -/
inductive Piece where
  | char (c : Char)
  | unit (u : Nat)
deriving DecidableEq, Repr

/-- the value of a hexadecimal digit -/
def hexValue? (c : Char) : Option Nat :=
  if c.isDigit then some (c.toNat - 48)
  else if 'a' ≤ c ∧ c ≤ 'f' then some (c.toNat - 87)
  else if 'A' ≤ c ∧ c ≤ 'F' then some (c.toNat - 55)
  else none

/-- the value of four hexadecimal digits -/
def unit? (a b c d : Char) : Option Nat :=
  match hexValue? a, hexValue? b, hexValue? c, hexValue? d with
  | some a, some b, some c, some d => some (((a * 16 + b) * 16 + c) * 16 + d)
  | _, _, _, _ => none

/-- the character that a backslash and this letter stand for -/
def escaped? : Char → Option Char
  | '"' => some '"'
  | '\\' => some '\\'
  | '/' => some '/'
  | 'b' => some (Char.ofNat 8)
  | 'f' => some (Char.ofNat 12)
  | 'n' => some '\n'
  | 'r' => some '\r'
  | 't' => some '\t'
  | _ => none

/-- the pieces up to the closing quote, and what follows the quote -/
def scan? : List Char → Option (List Piece × List Char)
  | [] => none
  | '"' :: s => some ([], s)
  | '\\' :: 'u' :: a :: b :: c :: d :: s =>
    match unit? a b c d, scan? s with
    | some u, some (pieces, rest) => some (.unit u :: pieces, rest)
    | _, _ => none
  | '\\' :: e :: s =>
    match escaped? e, scan? s with
    | some c, some (pieces, rest) => some (.char c :: pieces, rest)
    | _, _ => none
  | c :: s =>
    if c.toNat < 32 ∨ c = '\\' then none
    else
      match scan? s with
      | some (pieces, rest) => some (.char c :: pieces, rest)
      | none => none

/-- the unit is the first half of a pair -/
def isLeading (u : Nat) : Bool := 0xd800 ≤ u && u < 0xdc00

/-- the unit is the second half of a pair -/
def isTrailing (u : Nat) : Bool := 0xdc00 ≤ u && u < 0xe000

/-- the text of the pieces; none when a half of a pair stands alone -/
def decode? : List Piece → Option (List Char)
  | [] => some []
  | .char c :: rest => (decode? rest).map (c :: ·)
  | .unit u :: .unit v :: rest =>
    if isLeading u then
      if isTrailing v then (decode? rest).map (Char.ofNat (0x10000 + (u - 0xd800) * 0x400 + (v - 0xdc00)) :: ·)
      else none
    else if isTrailing u then none
    else (decode? (.unit v :: rest)).map (Char.ofNat u :: ·)
  | .unit u :: rest =>
    if isLeading u || isTrailing u then none else (decode? rest).map (Char.ofNat u :: ·)

theorem length_scan? {s rest : List Char} {pieces : List Piece} (h : scan? s = some (pieces, rest)) :
    rest.length < s.length := by
  fun_induction scan? s generalizing pieces rest with
  | case1 => simp at h
  | case2 s =>
    simp only [Option.some.injEq, Prod.mk.injEq] at h
    simp [h.2]
  | case3 a b c d s u p r hs hu ih =>
    simp only [Option.some.injEq, Prod.mk.injEq] at h
    have := ih hs
    simp only [List.length_cons, ← h.2]
    omega
  | case4 => simp at h
  | case5 e s _ c p r hs he ih =>
    simp only [Option.some.injEq, Prod.mk.injEq] at h
    have := ih hs
    simp only [List.length_cons, ← h.2]
    omega
  | case6 => simp at h
  | case7 => simp at h
  | case8 c s _ _ _ _ p r hs ih =>
    simp only [Option.some.injEq, Prod.mk.injEq] at h
    have := ih hs
    simp only [List.length_cons, ← h.2]
    omega
  | case9 => simp at h

end Flowchart.Quoted
