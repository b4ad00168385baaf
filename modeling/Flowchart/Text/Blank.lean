/-
Blank characters and trimming.

A character is blank when it has the Unicode property White_Space: tab to carriage return, space, next line, the
no-break and ideographic spaces and the typographic spaces. Zero-width characters and the information separators are
not blank. Trimming removes blanks at the ends only.
-/

namespace Flowchart.Text

/-- the code points with the property White_Space, as closed ranges in rising order -/
def blankRanges : List (Nat × Nat) :=
  [(0x9, 0xd), (0x20, 0x20), (0x85, 0x85), (0xa0, 0xa0), (0x1680, 0x1680), (0x2000, 0x200a), (0x2028, 0x2029),
   (0x202f, 0x202f), (0x205f, 0x205f), (0x3000, 0x3000)]

/-- the character has the property White_Space -/
def isBlank (c : Char) : Bool := blankRanges.any fun r => r.1 ≤ c.toNat && c.toNat ≤ r.2

/-- the text without the blanks it starts with -/
def trimStart (s : List Char) : List Char := s.dropWhile isBlank

/-- the text without the blanks it ends with -/
def trimEnd (s : List Char) : List Char := (s.reverse.dropWhile isBlank).reverse

/-- the text without the blanks at either end -/
def trim (s : List Char) : List Char := trimEnd (trimStart s)

theorem length_trimStart_le (s : List Char) : (trimStart s).length ≤ s.length :=
  (List.dropWhile_sublist _).length_le

theorem length_trimEnd_le (s : List Char) : (trimEnd s).length ≤ s.length := by
  have h := (List.dropWhile_sublist isBlank (l := s.reverse)).length_le
  simpa [trimEnd] using h

theorem length_trim_le (s : List Char) : (trim s).length ≤ s.length :=
  Nat.le_trans (length_trimEnd_le _) (length_trimStart_le s)

end Flowchart.Text
