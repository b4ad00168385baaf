/-
Outcomes.

Two computations that can fail are compared step by step: `Agree R` says that both stop with the same error, or give
results that `R` relates. It goes through sequencing (`Agree.bind`). A list is read element by element (`mapM_eq_some`,
`mapM_eq_ok`).
-/
import Flowchart.Event
import Mathlib.Tactic

namespace Flowchart

@[simp] theorem ok_bind {ε α β : Type} (a : α) (f : α → Except ε β) : Except.ok a >>= f = f a := rfl

@[simp] theorem error_bind {ε α β : Type} (e : ε) (f : α → Except ε β) : Except.error e >>= f = .error e := rfl

theorem pure_eq_ok {ε α : Type} {a b : α} : (pure a : Except ε α) = .ok b ↔ b = a :=
  ⟨fun h => (Except.ok.inj h).symm, fun h => congrArg Except.ok h.symm⟩

theorem bind_eq_ok {ε α β : Type} {x : Except ε α} {f : α → Except ε β} {b : β} :
    x >>= f = .ok b ↔ ∃ a, x = .ok a ∧ f a = .ok b := by
  cases x with
  | error e => simp [bind, Except.bind]
  | ok a => simp [bind, Except.bind]

theorem map_eq_ok {ε α β : Type} {x : Except ε α} {f : α → β} {b : β} : f <$> x = .ok b ↔ ∃ a, x = .ok a ∧ b = f a := by
  cases x <;> simp [eq_comm]

theorem mapError_eq_ok {ε ε' α : Type} {x : Except ε α} {f : ε → ε'} {a : α} : x.mapError f = .ok a ↔ x = .ok a := by
  cases x <;> simp [Except.mapError]

theorem toOption_eq_some {ε α : Type} {x : Except ε α} {a : α} : x.toOption = some a ↔ x = .ok a := by
  cases x <;> simp [Except.toOption]

theorem bind_eq_error {ε α β : Type} {x : Except ε α} {f : α → Except ε β} {e : ε} :
    x >>= f = .error e ↔ x = .error e ∨ ∃ a, x = .ok a ∧ f a = .error e := by
  cases x with
  | error e' => simp [bind, Except.bind]
  | ok a => simp [bind, Except.bind]

theorem map_eq_error {ε α β : Type} {x : Except ε α} {f : α → β} {e : ε} : f <$> x = .error e ↔ x = .error e := by
  cases x <;> simp

theorem mapError_eq_error {ε ε' α : Type} {x : Except ε α} {f : ε → ε'} {e : ε'} :
    x.mapError f = .error e ↔ ∃ cause, x = .error cause ∧ f cause = e := by
  cases x <;> simp [Except.mapError]

/-- A fold fails at the first of its elements that the step refuses: those before it are accepted. -/
theorem foldlM_eq_error {ε α β : Type} {f : β → α → Except ε β} {xs : List α} {b : β} {e : ε} :
    xs.foldlM f b = .error e ↔
      ∃ before x after c, xs = before ++ x :: after ∧ before.foldlM f b = .ok c ∧ f c x = .error e := by
  induction xs generalizing b with
  | nil =>
    constructor
    · intro h
      cases h
    · rintro ⟨before, x, after, c, h, -⟩
      exact absurd h (by simp)
  | cons x xs ih =>
    rw [List.foldlM_cons, bind_eq_error]
    constructor
    · rintro (h | ⟨c, hc, h⟩)
      · exact ⟨[], x, xs, b, rfl, rfl, h⟩
      · obtain ⟨before, y, after, c', rfl, hbefore, hy⟩ := ih.1 h
        refine ⟨x :: before, y, after, c', rfl, ?_, hy⟩
        rw [List.foldlM_cons, hc]
        exact hbefore
    · rintro ⟨before, y, after, c, hsplit, hbefore, hy⟩
      cases before with
      | nil =>
        cases hsplit
        cases hbefore
        exact Or.inl hy
      | cons x' before =>
        cases hsplit
        rw [List.foldlM_cons, bind_eq_ok] at hbefore
        obtain ⟨c', hc', hbefore⟩ := hbefore
        exact Or.inr ⟨c', hc', ih.2 ⟨before, y, after, c, rfl, hbefore, hy⟩⟩

/-- a fold fails at one of its elements -/
theorem exists_error_of_foldlM {ε α β : Type} {f : β → α → Except ε β} {xs : List α} {b : β} {e : ε}
    (h : xs.foldlM f b = .error e) : ∃ x ∈ xs, ∃ c, f c x = .error e := by
  obtain ⟨before, x, after, c, rfl, -, hx⟩ := foldlM_eq_error.1 h
  exact ⟨x, by simp, c, hx⟩

/-! ## Lists that are read element by element -/

/-- reading a list is reading its elements, in order -/
theorem mapM_eq_some {α β : Type} {f : α → Option β} {xs : List α} {ys : List β} :
    xs.mapM f = some ys ↔ List.Forall₂ (fun x y => f x = some y) xs ys := by
  induction xs generalizing ys with
  | nil => simp [eq_comm]
  | cons x xs ih =>
    simp only [List.mapM_cons, Option.bind_eq_bind, Option.bind_eq_some_iff, Option.pure_def, Option.some.injEq]
    constructor
    · intro h
      obtain ⟨y, hy, ys, hys, rfl⟩ := h
      exact .cons hy (ih.1 hys)
    · intro h
      cases h with
      | cons hy hys => exact ⟨_, hy, _, ih.2 hys, rfl⟩

/-- the same for a reading that says what went wrong -/
theorem mapM_eq_ok {ε α β : Type} {f : α → Except ε β} {xs : List α} {ys : List β} :
    xs.mapM f = .ok ys ↔ List.Forall₂ (fun x y => f x = .ok y) xs ys := by
  induction xs generalizing ys with
  | nil =>
    rw [List.forall₂_nil_left_iff]
    exact pure_eq_ok
  | cons x xs ih =>
    simp only [List.mapM_cons, bind_eq_ok, pure_eq_ok]
    constructor
    · intro h
      obtain ⟨y, hy, ys, hys, rfl⟩ := h
      exact .cons hy (ih.1 hys)
    · intro h
      cases h with
      | cons hy hys => exact ⟨_, hy, _, ih.2 hys, rfl⟩

theorem exists_left_of_forall₂ {α β : Type} {R : α → β → Prop} {xs : List α} {ys : List β} (h : List.Forall₂ R xs ys) :
    ∀ y ∈ ys, ∃ x ∈ xs, R x y := by
  induction h with
  | nil => nofun
  | @cons x y xs ys hxy _ ih =>
    rintro z (_ | ⟨_, hz⟩)
    · exact ⟨x, List.mem_cons_self, hxy⟩
    · obtain ⟨w, hw, hread⟩ := ih z hz
      exact ⟨w, List.mem_cons_of_mem x hw, hread⟩

/-- what a list reads as is read element by element -/
theorem exists_of_mapM {α β : Type} {f : α → Option β} {xs : List α} {ys : List β} (h : xs.mapM f = some ys) :
    ∀ y ∈ ys, ∃ x ∈ xs, f x = some y :=
  exists_left_of_forall₂ (mapM_eq_some.1 h)

theorem exists_of_mapM_ok {ε α β : Type} {f : α → Except ε β} {xs : List α} {ys : List β} (h : xs.mapM f = .ok ys) :
    ∀ y ∈ ys, ∃ x ∈ xs, f x = .ok y :=
  exists_left_of_forall₂ (mapM_eq_ok.1 h)

/-! ## Two computations -/

/-- two outcomes agree: they are the same error, or results that are related -/
def Agree {ε α β : Type} (R : α → β → Prop) : Except ε α → Except ε β → Prop
  | .error e, .error e' => e = e'
  | .ok a, .ok b => R a b
  | _, _ => False

namespace Agree

variable {ε α β γ δ : Type} {R : α → β → Prop} {S : γ → δ → Prop}

theorem bind {x : Except ε α} {y : Except ε β} {f : α → Except ε γ} {g : β → Except ε δ} (h : Agree R x y)
    (hfg : ∀ a b, R a b → Agree S (f a) (g b)) : Agree S (x >>= f) (y >>= g) := by
  cases x with
  | error e => cases y with
    | error e' => exact h
    | ok b => exact h.elim
  | ok a => cases y with
    | error e' => exact h.elim
    | ok b => exact hfg a b h

/-- one computation, and then two that agree -/
theorem bind_same {x : Except ε α} {f : α → Except ε γ} {g : α → Except ε δ}
    (hfg : ∀ a, x = .ok a → Agree S (f a) (g a)) : Agree S (x >>= f) (x >>= g) := by
  cases x with
  | error e => exact rfl
  | ok a => exact hfg a rfl

/-- two computations that agree, with the result of the second one changed -/
theorem bind_pure {S : α → δ → Prop} {x : Except ε α} {y : Except ε β} {f : β → δ} (h : Agree R x y)
    (hS : ∀ a b, R a b → S a (f b)) : Agree S x (y >>= fun b => pure (f b)) := by
  cases x with
  | error e => cases y with
    | error e' => exact h
    | ok b => exact h.elim
  | ok a => cases y with
    | error e' => exact h.elim
    | ok b => exact hS a b h

theorem exists_left {x : Except ε α} {b : β} (h : Agree R x (.ok b)) : ∃ a, x = .ok a ∧ R a b := by
  cases x with
  | error e => exact h.elim
  | ok a => exact ⟨a, rfl, h⟩

theorem exists_right {a : α} {y : Except ε β} (h : Agree R (.ok a) y) : ∃ b, y = .ok b ∧ R a b := by
  cases y with
  | error e => exact h.elim
  | ok b => exact ⟨b, rfl, h⟩

theorem eq_error {e : ε} {y : Except ε β} (h : Agree R (.error e : Except ε α) y) : y = .error e := by
  cases y with
  | error e' => exact congrArg Except.error (Eq.symm h)
  | ok b => exact h.elim

theorem eq {x y : Except ε α} (h : Agree (fun a b => a = b) x y) : x = y := by
  cases x with
  | error e => exact h.eq_error.symm
  | ok a =>
    obtain ⟨b, rfl, rfl⟩ := h.exists_right
    rfl

/-- two computations that agree with a third one -/
theorem trans {T : α → γ → Prop} {S : γ → β → Prop} {x : Except ε α} {y : Except ε β} {z : Except ε γ}
    (h : Agree R x y) (h' : Agree S z y) (hT : ∀ a b c, y = .ok b → R a b → S c b → T a c) : Agree T x z := by
  cases y with
  | error e => cases x with
    | error e' => cases z with
      | error e'' => exact Eq.trans h (Eq.symm h')
      | ok c => exact h'.elim
    | ok a => exact h.elim
  | ok b => cases x with
    | error e' => exact h.elim
    | ok a => cases z with
      | error e'' => exact h'.elim
      | ok c => exact hT a b c rfl h h'

end Agree

end Flowchart
