/-
Cutting a text at every mark.

A cut is at the leftmost place where the mark stands: the left side followed by all but the last character of the mark
does not hold it. Blanks at the ends of a text do not matter to that, since no operator holds a blank, and so a text can
be trimmed before it is cut or its pieces can be trimmed afterwards. Both are the same.

- `Text.cut?_eq_some_iff`: a cut is leftmost, and there is no other leftmost cut.
- `Text.trim_pad`, `Text.cut?_pad`: blanks at the ends.
- `Formula.pieces`: a text cut at each operator of one kind, one after the other.
- `Formula.PadInvariant.map_pieces`: what does not depend on blanks at the ends of a text can be asked of its pieces.
-/
import Flowchart.Proofs.FormulaShape
import Mathlib.Data.List.TakeWhile

namespace Flowchart

namespace Text

variable {mark s x y left right : List Char}

/-! ## Where a mark stands -/

/-- a mark at the front of a text does not reach a character that it does not hold -/
theorem prefix_append_cons {c : Char} (hc : c ∉ mark) : mark <+: x ++ c :: y ↔ mark <+: x := by
  constructor
  · intro h
    induction mark generalizing x with
    | nil => exact List.nil_prefix
    | cons m mark ih =>
      rw [List.mem_cons, not_or] at hc
      cases x with
      | nil => exact absurd (List.cons_prefix_cons.1 h).1.symm hc.1
      | cons d x =>
        rw [List.cons_append, List.cons_prefix_cons] at h
        exact List.cons_prefix_cons.2 ⟨h.1, ih hc.2 h.2⟩
  · intro h
    exact h.trans (List.prefix_append _ _)

/-- a mark stands on one side of a character that it does not hold -/
theorem infix_append_cons {c : Char} (hc : c ∉ mark) (hm : mark ≠ []) :
    mark <:+: x ++ c :: y ↔ mark <:+: x ∨ mark <:+: y := by
  induction x with
  | nil =>
    have hfirst : ¬mark <+: c :: y := fun h => hm (List.prefix_nil.1 ((prefix_append_cons (x := []) hc).1 h))
    rw [List.nil_append, List.infix_cons_iff, List.infix_nil]
    tauto
  | cons d x ih =>
    rw [List.cons_append, List.infix_cons_iff, ih, List.infix_cons_iff, ← List.cons_append, prefix_append_cons hc]
    tauto

/-- a mark does not stand in what shares no character with it -/
theorem infix_append_left (hx : ∀ c ∈ x, c ∉ mark) (hm : mark ≠ []) : mark <:+: x ++ y ↔ mark <:+: y := by
  induction x with
  | nil => rfl
  | cons c x ih =>
    obtain ⟨hc, hx⟩ := List.forall_mem_cons.1 hx
    have hsplit := infix_append_cons (x := []) (y := x ++ y) hc hm
    rw [List.nil_append, List.infix_nil] at hsplit
    rw [List.cons_append, hsplit, ih hx]
    tauto

theorem infix_append_right (hy : ∀ c ∈ y, c ∉ mark) (hm : mark ≠ []) : mark <:+: x ++ y ↔ mark <:+: x := by
  rw [← List.reverse_infix, List.reverse_append, infix_append_left (by simpa using hy) (by simpa using hm),
    List.reverse_infix]

/-! ## Leftmost cuts -/

theorem not_infix_dropLast (hm : mark ≠ []) : ¬mark <:+: mark.dropLast := by
  intro h
  have hle := h.length_le
  have hpos := List.length_pos_iff.2 hm
  rw [List.length_dropLast] at hle
  omega

/-- Before the mark, it can start only where it ends within all but the last character of the mark. -/
theorem prefix_append_mark (hm : mark ≠ []) (hx : x ≠ []) :
    mark <+: x ++ (mark ++ y) ↔ mark <+: x ++ mark.dropLast := by
  have hwhole : x ++ (mark ++ y) = x ++ mark.dropLast ++ ([mark.getLast hm] ++ y) := by
    rw [List.append_assoc, ← List.append_assoc mark.dropLast, List.dropLast_append_getLast]
  rw [hwhole]
  constructor
  · intro h
    refine List.prefix_of_prefix_length_le h (List.prefix_append _ _) ?_
    have hpos := List.length_pos_iff.2 hx
    rw [List.length_append, List.length_dropLast]
    omega
  · intro h
    exact h.trans (List.prefix_append _ _)

/-- a text is cut at the first mark in it -/
theorem cut?_append (hm : mark ≠ []) (h : ¬mark <:+: left ++ mark.dropLast) :
    cut? mark (left ++ (mark ++ right)) = some (left, right) := by
  induction left with
  | nil =>
    obtain ⟨m, rest, rfl⟩ := List.exists_cons_of_ne_nil hm
    have hafter := after?_append (m :: rest) right
    rw [List.cons_append] at hafter
    rw [List.nil_append, List.cons_append, cut?, hafter]
  | cons c left ih =>
    rw [List.cons_append, List.infix_cons_iff, not_or] at h
    have hnone : after? mark (c :: (left ++ (mark ++ right))) = none := by
      rw [← Option.not_isSome_iff_eq_none, after?_isSome, ← List.cons_append,
        prefix_append_mark hm (List.cons_ne_nil c left)]
      exact h.1
    rw [List.cons_append, cut?, hnone, ih h.2]
    rfl

/-- the left side of a cut, up to the last character of the mark, does not hold the mark -/
theorem leftmost_of_cut? (hm : mark ≠ []) (h : cut? mark s = some (left, right)) :
    ¬mark <:+: left ++ mark.dropLast := by
  induction s generalizing left with
  | nil => cases h
  | cons c s ih =>
    rw [cut?] at h
    split at h
    · cases h
      exact not_infix_dropLast hm
    · rename_i hafter
      obtain ⟨sides, hsides, heq⟩ := Option.map_eq_some_iff.1 h
      cases heq
      rw [List.cons_append, List.infix_cons_iff, not_or]
      refine ⟨fun hprefix => ?_, ih hsides⟩
      rw [← List.cons_append, ← prefix_append_mark hm (List.cons_ne_nil _ _), List.cons_append,
        ← cut?_eq_some hsides, ← after?_isSome, hafter] at hprefix
      cases hprefix

/-- **A cut is the leftmost one, and there is no other.** -/
theorem cut?_eq_some_iff (hm : mark ≠ []) :
    cut? mark s = some (left, right) ↔ s = left ++ (mark ++ right) ∧ ¬mark <:+: left ++ mark.dropLast := by
  constructor
  · intro h
    exact ⟨cut?_eq_some h, leftmost_of_cut? hm h⟩
  · rintro ⟨rfl, h⟩
    exact cut?_append hm h

/-! ## Blanks at the ends -/

/-- the text is made of blanks -/
def Blank (s : List Char) : Prop := ∀ c ∈ s, isBlank c

theorem trimStart_append (hx : Blank x) (s : List Char) : trimStart (x ++ s) = trimStart s :=
  List.dropWhile_append_of_pos hx

theorem trimEnd_append (s : List Char) (hy : Blank y) : trimEnd (s ++ y) = trimEnd s := by
  have hreverse : ∀ c ∈ y.reverse, isBlank c := fun c hc => hy c (List.mem_reverse.1 hc)
  rw [trimEnd, List.reverse_append, List.dropWhile_append_of_pos hreverse, trimEnd]

/-- **Trimming forgets blanks at the ends.** -/
theorem trim_pad (hx : Blank x) (s : List Char) (hy : Blank y) : trim (x ++ (s ++ y)) = trim s := by
  unfold trim
  rw [trimStart_append hx]
  by_cases hs : trimStart s = []
  · -- all of the text is blank
    have hblank : trimStart (s ++ y) = [] := by
      unfold trimStart at hs ⊢
      rw [List.dropWhile_append, hs]
      exact List.dropWhile_eq_nil_iff.2 hy
    rw [hblank, hs]
  · have hstart : trimStart (s ++ y) = trimStart s ++ y := by
      unfold trimStart at hs ⊢
      rw [List.dropWhile_append, if_neg (by simpa using hs)]
    rw [hstart, trimEnd_append _ hy]

/-- a text is what is left of it after trimming, with blanks at the ends -/
theorem exists_pad (s : List Char) : ∃ x y, Blank x ∧ Blank y ∧ s = x ++ (trim s ++ y) := by
  refine ⟨s.takeWhile isBlank, ((trimStart s).reverse.takeWhile isBlank).reverse, ?_, ?_, ?_⟩
  · intro c hc
    exact List.mem_takeWhile_imp hc
  · intro c hc
    exact List.mem_takeWhile_imp (List.mem_reverse.1 hc)
  · have hend : trim s ++ ((trimStart s).reverse.takeWhile isBlank).reverse = trimStart s := by
      rw [trim, trimEnd, ← List.reverse_append, List.takeWhile_append_dropWhile, List.reverse_reverse]
    rw [hend, trimStart, List.takeWhile_append_dropWhile]

@[simp] theorem trim_trim (s : List Char) : trim (trim s) = trim s := by
  obtain ⟨x, y, hx, hy, hs⟩ := exists_pad s
  have h := trim_pad hx (trim s) hy
  rw [← hs] at h
  exact h.symm

theorem trimStart_eq_self_iff : trimStart s = s ↔ ∀ c ∈ s.head?, isBlank c = false := by
  unfold trimStart
  cases s with
  | nil => simp
  | cons c s =>
    rw [List.dropWhile_eq_self_iff]
    simp

theorem trimEnd_eq_self_iff : trimEnd s = s ↔ ∀ c ∈ s.getLast?, isBlank c = false := by
  have h := trimStart_eq_self_iff (s := s.reverse)
  rw [List.head?_reverse] at h
  rw [← h, trimEnd, trimStart, List.reverse_eq_iff]

/-- a text is trimmed when it neither starts nor ends with a blank -/
theorem trim_eq_self_iff :
    trim s = s ↔ (∀ c ∈ s.head?, isBlank c = false) ∧ ∀ c ∈ s.getLast?, isBlank c = false := by
  rw [← trimStart_eq_self_iff, ← trimEnd_eq_self_iff]
  constructor
  · intro h
    have hsuffix : trimStart s <:+ s := List.dropWhile_suffix _
    have hle : s.length ≤ (trimStart s).length := by
      have hlength := length_trimEnd_le (trimStart s)
      rwa [show trimEnd (trimStart s) = s from h] at hlength
    have hstart : trimStart s = s := hsuffix.eq_of_length_le hle
    rw [trim, hstart] at h
    exact ⟨hstart, h⟩
  · rintro ⟨hstart, hend⟩
    rw [trim, hstart, hend]

/-! ## Cuts and blanks -/

/-- a mark that holds no blank stands where it stood, whatever blanks there are at the ends -/
theorem infix_pad (hmark : ∀ c ∈ mark, isBlank c = false) (hm : mark ≠ []) (hx : Blank x) (hy : Blank y) :
    mark <:+: x ++ (s ++ y) ↔ mark <:+: s := by
  have hnot : ∀ z, Blank z → ∀ c ∈ z, c ∉ mark := by
    intro z hz c hc hmem
    have hblank := hz c hc
    rw [hmark c hmem] at hblank
    cases hblank
  rw [infix_append_left (hnot x hx) hm, infix_append_right (hnot y hy) hm]

/-- **Blanks at the ends of a text stay at the ends of the two sides of its cut.** -/
theorem cut?_pad (hmark : ∀ c ∈ mark, isBlank c = false) (hm : mark ≠ []) (hx : Blank x) (hy : Blank y) :
    cut? mark (x ++ (s ++ y)) = (cut? mark s).map fun sides => (x ++ sides.1, sides.2 ++ y) := by
  cases hcut : cut? mark s with
  | none =>
    rw [cut?_eq_none hm] at hcut
    rw [Option.map_none, cut?_eq_none hm, infix_pad hmark hm hx hy]
    exact hcut
  | some sides =>
    obtain ⟨left, right⟩ := sides
    obtain ⟨rfl, hleft⟩ := (cut?_eq_some_iff hm).1 hcut
    rw [Option.map_some, cut?_eq_some_iff hm]
    refine ⟨by simp only [List.append_assoc], ?_⟩
    have hpad := infix_pad (s := left ++ mark.dropLast) hmark hm hx (y := []) (List.forall_mem_nil _)
    rw [List.append_nil] at hpad
    rw [List.append_assoc, hpad]
    exact hleft

end Text

/-- how an operator stands in a text -/
def Operator.mark : Operator → List Char
  | .add => ['+']
  | .strictEqual => ['=', '=', '=']

namespace Operator

theorem mark_eq (operator : Operator) : operator.mark = operator.symbol.toList := by
  cases operator <;> rfl

theorem mark_ne_nil (operator : Operator) : operator.mark ≠ [] := by
  cases operator <;> exact List.cons_ne_nil _ _

theorem not_blank_of_mem_mark (operator : Operator) : ∀ c ∈ operator.mark, Text.isBlank c = false := by
  cases operator <;> simp [mark] <;> decide

theorem count_mark (operator : Operator) : operator.mark.count '+' = if operator = .add then 1 else 0 := by
  cases operator <;> rfl

end Operator

namespace Formula

/-! ## Pieces -/

/-- the text cut at every operator of this kind, each time at the leftmost one in what is left -/
def pieces (operator : Operator) (s : List Char) : List (List Char) :=
  match h : Text.cut? operator.mark s with
  | none => [s]
  | some (left, right) =>
    have := Text.length_cut?_right h operator.mark_ne_nil
    left :: pieces operator right
termination_by s.length

variable {operator : Operator} {s left right x y : List Char}

theorem pieces_of_none (h : Text.cut? operator.mark s = none) : pieces operator s = [s] := by
  rw [pieces]
  split
  · rfl
  · rename_i hcut
    rw [h] at hcut
    cases hcut

theorem pieces_of_some (h : Text.cut? operator.mark s = some (left, right)) :
    pieces operator s = left :: pieces operator right := by
  rw [pieces]
  split
  · rename_i hcut
    rw [h] at hcut
    cases hcut
  · rename_i hcut
    rw [h] at hcut
    cases hcut
    rfl

theorem pieces_ne_nil (operator : Operator) (s : List Char) : pieces operator s ≠ [] := by
  cases h : Text.cut? operator.mark s with
  | none => simp [pieces_of_none h]
  | some sides => simp [pieces_of_some h]

/-- Induction over the pieces of a text: a statement about a text may use the one about what follows its first cut. -/
theorem pieces_induction (operator : Operator) {motive : List Char → Prop}
    (last : ∀ s, Text.cut? operator.mark s = none → motive s)
    (more : ∀ s left right, Text.cut? operator.mark s = some (left, right) → motive right → motive s)
    (s : List Char) : motive s := by
  cases h : Text.cut? operator.mark s with
  | none => exact last s h
  | some sides =>
    have := Text.length_cut?_right h operator.mark_ne_nil
    exact more s sides.1 sides.2 h (pieces_induction operator last more sides.2)
termination_by s.length

/-- a function of texts that blanks at the ends do not change -/
def PadInvariant {α : Type} (f : List Char → α) : Prop :=
  ∀ x s y : List Char, Text.Blank x → Text.Blank y → f (x ++ (s ++ y)) = f s

theorem padInvariant_trim : PadInvariant Text.trim := fun _ s _ hx hy => Text.trim_pad hx s hy

theorem PadInvariant.trim {α : Type} {f : List Char → α} (hf : PadInvariant f) (s : List Char) :
    f (Text.trim s) = f s := by
  obtain ⟨x, y, hx, hy, hs⟩ := Text.exists_pad s
  have h := hf x (Text.trim s) y hx hy
  rw [← hs] at h
  exact h.symm

/-- **What blanks at the ends of a text do not change may be asked of its pieces.** -/
theorem PadInvariant.map_pieces {α : Type} {f : List Char → α} (hf : PadInvariant f) (operator : Operator) :
    PadInvariant fun s => (pieces operator s).map f := by
  intro x s y hx hy
  show (pieces operator (x ++ (s ++ y))).map f = (pieces operator s).map f
  have hcut := fun (s x : List Char) (hx : Text.Blank x) =>
    Text.cut?_pad (s := s) operator.not_blank_of_mem_mark operator.mark_ne_nil hx hy
  induction s using pieces_induction operator generalizing x with
  | last s h =>
    have hpad := hcut s x hx
    rw [h] at hpad
    rw [pieces_of_none h, pieces_of_none hpad, List.map_singleton, List.map_singleton, hf x s y hx hy]
  | more s left right h ih =>
    have hpad := hcut s x hx
    rw [h] at hpad
    have hfirst : f (x ++ left) = f left := by
      have := hf x left [] hx (List.forall_mem_nil _)
      rwa [List.append_nil] at this
    have hrest := ih (x := []) (List.forall_mem_nil _)
    rw [List.nil_append] at hrest
    rw [pieces_of_some h, pieces_of_some hpad, List.map_cons, List.map_cons, hfirst, hrest]

theorem count_trim {c : Char} (hc : Text.isBlank c = false) (s : List Char) : (Text.trim s).count c = s.count c := by
  have hcount : PadInvariant fun s => s.count c := by
    intro x s y hx hy
    have hzero : ∀ z, Text.Blank z → z.count c = 0 := fun z hz =>
      List.count_eq_zero_of_not_mem fun hmem => by
        have := hz c hmem
        rw [hc] at this
        cases this
    show (x ++ (s ++ y)).count c = s.count c
    rw [List.count_append, List.count_append, hzero x hx, hzero y hy, Nat.zero_add, Nat.add_zero]
  exact hcount.trim s

theorem length_pieces_trim (operator : Operator) (s : List Char) :
    (pieces operator (Text.trim s)).length = (pieces operator s).length := by
  have hunit : PadInvariant fun _ => () := fun _ _ _ _ _ => rfl
  have h := congrArg List.length ((hunit.map_pieces operator).trim s)
  rwa [List.length_map, List.length_map] at h

/-- a character that is not part of the operator divides the pieces: two of them become one -/
theorem length_pieces_append_cons {c : Char} (hc : c ∉ operator.mark) :
    (pieces operator (x ++ c :: y)).length + 1 = (pieces operator x).length + (pieces operator y).length := by
  have hm := operator.mark_ne_nil
  induction x using pieces_induction operator with
  | last x hx =>
    have hnot := (Text.cut?_eq_none hm).1 hx
    cases hy : Text.cut? operator.mark y with
    | none =>
      have hwhole : Text.cut? operator.mark (x ++ c :: y) = none := by
        rw [Text.cut?_eq_none hm] at hy ⊢
        rw [Text.infix_append_cons hc hm]
        exact not_or.2 ⟨hnot, hy⟩
      rw [pieces_of_none hwhole, pieces_of_none hx, pieces_of_none hy]
      rfl
    | some sides =>
      obtain ⟨left, right⟩ := sides
      obtain ⟨rfl, hleft⟩ := (Text.cut?_eq_some_iff hm).1 hy
      have hwhole : Text.cut? operator.mark (x ++ c :: (left ++ (operator.mark ++ right))) =
          some (x ++ c :: left, right) := by
        rw [Text.cut?_eq_some_iff hm]
        refine ⟨by simp, ?_⟩
        rw [List.append_assoc, List.cons_append, Text.infix_append_cons hc hm]
        exact not_or.2 ⟨hnot, hleft⟩
      rw [pieces_of_some hwhole, pieces_of_none hx, pieces_of_some hy]
      simp only [List.length_cons, List.length_nil]
      omega
  | more x left right hx ih =>
    obtain ⟨rfl, hleft⟩ := (Text.cut?_eq_some_iff hm).1 hx
    have hwhole : Text.cut? operator.mark (left ++ (operator.mark ++ right) ++ c :: y) =
        some (left, right ++ c :: y) := by
      rw [Text.cut?_eq_some_iff hm]
      exact ⟨by simp, hleft⟩
    rw [pieces_of_some hwhole, pieces_of_some hx, List.length_cons, List.length_cons]
    omega

end Formula

end Flowchart
