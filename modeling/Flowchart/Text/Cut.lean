/-
Cutting a text at the first place where another text stands in it.

`after?` removes a text from the front and `cut?` finds the two sides of its first occurrence. Both sides of a cut
together with the text that was looked for are the whole (`cut?_eq_some`), so each side is shorter than the whole.
-/

namespace Flowchart.Text

/-- what follows `mark` when the text starts with it -/
def after? : List Char → List Char → Option (List Char)
  | [], s => some s
  | _ :: _, [] => none
  | m :: mark, c :: s => if m = c then after? mark s else none

/-- the two sides of the first occurrence of `mark` in the text; an empty text has none -/
def cut? (mark : List Char) : List Char → Option (List Char × List Char)
  | [] => none
  | c :: s =>
    match after? mark (c :: s) with
    | some rest => some ([], rest)
    | none => (cut? mark s).map fun sides => (c :: sides.1, sides.2)

theorem after?_append (mark s : List Char) : after? mark (mark ++ s) = some s := by
  induction mark with
  | nil => rfl
  | cons m mark ih => simpa [after?] using ih

theorem after?_eq_some {mark s rest : List Char} (h : after? mark s = some rest) : s = mark ++ rest := by
  induction mark generalizing s with
  | nil => simpa [after?] using h
  | cons m mark ih =>
    cases s with
    | nil => simp [after?] at h
    | cons c s =>
      by_cases hc : m = c
      · subst hc
        have := ih (by simpa [after?] using h)
        simp [this]
      · simp [after?, hc] at h

theorem cut?_eq_some {mark s left right : List Char} (h : cut? mark s = some (left, right)) :
    s = left ++ (mark ++ right) := by
  induction s generalizing left with
  | nil => simp [cut?] at h
  | cons c s ih =>
    rw [cut?] at h
    split at h
    · rename_i rest hrest
      simp only [Option.some.injEq, Prod.mk.injEq] at h
      obtain ⟨rfl, rfl⟩ := h
      simpa using after?_eq_some hrest
    · obtain ⟨sides, hsides, heq⟩ := Option.map_eq_some_iff.1 h
      simp only [Prod.mk.injEq] at heq
      obtain ⟨rfl, rfl⟩ := heq
      have hs : s = sides.1 ++ (mark ++ sides.2) := ih hsides
      rw [hs, List.cons_append]

theorem length_cut?_left {mark s left right : List Char} (h : cut? mark s = some (left, right)) (hm : mark ≠ []) :
    left.length < s.length := by
  have hpos := List.length_pos_iff.2 hm
  rw [cut?_eq_some h, List.length_append, List.length_append]
  omega

theorem length_cut?_right {mark s left right : List Char} (h : cut? mark s = some (left, right)) (hm : mark ≠ []) :
    right.length < s.length := by
  have hpos := List.length_pos_iff.2 hm
  rw [cut?_eq_some h, List.length_append, List.length_append]
  omega

end Flowchart.Text
