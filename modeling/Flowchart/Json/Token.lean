/-
The tokens of JSON text.

`tokens` never fails: where the text holds no token it gives `bad` and stops. Words end where they end, so that two
words may touch, and a number is the longest numeral. Blanks between tokens are space, tab, line feed and carriage
return.
-/
import Flowchart.Decimal.Numeral
import Flowchart.Json.Quoted
import Flowchart.Text.Cut

namespace Flowchart

/-- a token of JSON text -/
inductive Token where
  | arrOpen
  | arrClose
  | objOpen
  | objClose
  | comma
  | colon
  | null
  | bool (value : Bool)
  | num (value : Numeral)
  /-- a quoted text; none when half of a surrogate pair stands alone in it -/
  | str (value : Option String)
  /-- no token stands here -/
  | bad
deriving DecidableEq, Repr

namespace Token

/-- a blank between tokens -/
def isGap (c : Char) : Bool := c == ' ' || c == '\t' || c == '\n' || c == '\r'

/-- a token that is written as this word -/
def word (mark : String) (t : Token) (s : List Char) : Token × List Char :=
  match Text.after? mark.toList s with
  | some rest => (t, rest)
  | none => (bad, [])

/-- the token at the front of a text that starts with `c`, and what follows it -/
def read (c : Char) (s : List Char) : Token × List Char :=
  match c with
  | '[' => (arrOpen, s)
  | ']' => (arrClose, s)
  | '{' => (objOpen, s)
  | '}' => (objClose, s)
  | ',' => (comma, s)
  | ':' => (colon, s)
  | 'n' => word "ull" null s
  | 't' => word "rue" (bool true) s
  | 'f' => word "alse" (bool false) s
  | '"' =>
    match Quoted.scan? s with
    | some (pieces, rest) => (str ((Quoted.decode? pieces).map String.ofList), rest)
    | none => (bad, [])
  | c =>
    if c = '-' ∨ c.isDigit then
      match Numeral.strict? (c :: s) with
      | some (n, rest) => (num n, rest)
      | none => (bad, [])
    else (bad, [])

/-- the first token of a text, and what follows it; none when only blanks are left -/
def next? : List Char → Option (Token × List Char)
  | [] => none
  | c :: s => if isGap c then next? s else some (read c s)

end Token

/-! ## Each token takes at least one character -/

namespace Numeral

theorem length_digits (s : List Char) : (digits s).1.length + (digits s).2.length = s.length := by
  rw [digits, ← List.length_append, List.takeWhile_append_dropWhile]

theorem length_sign_le (s : List Char) : (sign s).2.length ≤ s.length := by
  unfold sign
  split <;> simp

theorem length_exponent?_le {s rest : List Char} {e : Option Int} (h : exponent? s = some (e, rest)) :
    rest.length ≤ s.length := by
  cases s with
  | nil =>
    simp only [exponent?, Option.some.injEq, Prod.mk.injEq] at h
    simp [← h.2]
  | cons c s =>
    simp only [exponent?] at h
    split at h
    · split at h
      · simp at h
      · simp only [Option.some.injEq, Prod.mk.injEq] at h
        have h1 := length_digits (sign s).2
        have h2 := length_sign_le s
        rw [← h.2, List.length_cons]
        omega
    · simp only [Option.some.injEq, Prod.mk.injEq] at h
      simp [← h.2]

theorem length_minus_le (s : List Char) : (minus s).2.length ≤ s.length := by
  unfold minus
  split <;> simp

theorem length_afterPoint_le (s : List Char) : (afterPoint s).2.length ≤ s.length := by
  unfold afterPoint
  split
  · rename_i s
    have := length_digits s
    simp only [List.length_cons]
    omega
  · exact Nat.le_refl _

theorem length_strict? {s rest : List Char} {n : Numeral} (h : strict? s = some (n, rest)) :
    rest.length < s.length := by
  simp only [strict?] at h
  split at h
  · simp at h
  · rename_i hw
    obtain ⟨r, hr, heq⟩ := Option.map_eq_some_iff.1 h
    simp only [Prod.mk.injEq] at heq
    have hpos : (digits (minus s).2).1.length ≠ 0 := by
      intro h0
      simp [List.length_eq_zero_iff.1 h0] at hw
    have h1 : r.2.length ≤ _ := length_exponent?_le hr
    have h2 := length_afterPoint_le (digits (minus s).2).2
    have h3 := length_digits (minus s).2
    have h4 := length_minus_le s
    rw [← heq.2]
    omega

end Numeral

namespace Token

theorem length_word (mark : String) (t : Token) (s : List Char) : (word mark t s).2.length ≤ s.length := by
  unfold word
  split
  · rename_i rest h
    rw [Text.after?_eq_some h]
    simp
  · simp

theorem length_read (c : Char) (s : List Char) : (read c s).2.length ≤ s.length := by
  unfold read
  split
  case h_7 => exact length_word _ _ s
  case h_8 => exact length_word _ _ s
  case h_9 => exact length_word _ _ s
  case h_10 =>
    split
    · rename_i h
      exact Nat.le_of_lt (Quoted.length_scan? h)
    · simp
  case h_11 =>
    split
    · split
      · rename_i h
        have := Numeral.length_strict? h
        simp only [List.length_cons] at this
        simp only
        omega
      · simp
    · simp
  all_goals exact Nat.le_refl _

theorem length_next? {s rest : List Char} {t : Token} (h : next? s = some (t, rest)) : rest.length < s.length := by
  induction s with
  | nil => simp [next?] at h
  | cons c s ih =>
    rw [next?] at h
    split at h
    · exact Nat.lt_succ_of_lt (ih h)
    · simp only [Option.some.injEq] at h
      have := length_read c s
      rw [h] at this
      exact Nat.lt_succ_of_le this

/-- the tokens of a text -/
def tokens (s : List Char) : List Token :=
  match h : next? s with
  | none => []
  | some (t, rest) =>
    have := length_next? h
    t :: tokens rest
termination_by s.length

end Token

end Flowchart
