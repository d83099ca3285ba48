import Mathlib.Tactic.Common

/-!
# Two computations that may fail, side by side

`Lifts R x y` : whenever `x` succeeds, so does `y`, with a result that `R` relates to that of `x`.
The rules follow the shape of the computations: `Lifts.pure`, `Lifts.bind`,
`Lifts.ite`, and `Lifts.foldlM` for loops over a list, whose invariant is the relation.

This is forward simulation for programs in `Except`.  Nothing is said about the failures of `x`.
-/

namespace KvRaft

/-- **`y` does what `x` does**, where `x` succeeds: their results are related. -/
def Lifts {ε α β : Type} (R : α → β → Prop) (x : Except ε α) (y : Except ε β) : Prop :=
  ∀ a, x = .ok a → ∃ b, y = .ok b ∧ R a b

namespace Lifts

variable {ε α β γ δ : Type} {R : α → β → Prop} {S : γ → δ → Prop} {x x' : Except ε α}
  {y y' : Except ε β}

theorem pure {a : α} {b : β} (h : R a b) : Lifts R (pure a : Except ε α) (pure b) := by
  intro a' ha
  obtain rfl : a = a' := Except.ok.inj ha
  exact ⟨b, rfl, h⟩

theorem bind {f : α → Except ε γ} {g : β → Except ε δ} (h : Lifts R x y)
    (hfg : ∀ a b, x = .ok a → R a b → Lifts S (f a) (g b)) : Lifts S (x >>= f) (y >>= g) := by
  intro c hc
  cases x with
  | error e => cases hc
  | ok a =>
    obtain ⟨b, rfl, hab⟩ := h a rfl
    exact hfg a b rfl hab c hc

theorem ite {p q : Prop} [Decidable p] [Decidable q] (hpq : p ↔ q) (h : p → Lifts R x y)
    (h' : ¬ p → Lifts R x' y') : Lifts R (if p then x else x') (if q then y else y') := by
  by_cases hp : p
  · rw [if_pos hp, if_pos (hpq.1 hp)]
    exact h hp
  · rw [if_neg hp, if_neg (mt hpq.2 hp)]
    exact h' hp

/-- A loop keeps what its body keeps. -/
theorem foldlM {ι : Type} {f : α → ι → Except ε α} {g : β → ι → Except ε β} {l : List ι} {a : α}
    {b : β} (h : ∀ i ∈ l, ∀ a b, R a b → Lifts R (f a i) (g b i)) (hab : R a b) :
    Lifts R (l.foldlM f a) (l.foldlM g b) := by
  induction l generalizing a b with
  | nil => exact .pure hab
  | cons i l ih =>
    rw [List.foldlM_cons, List.foldlM_cons]
    exact (h i List.mem_cons_self a b hab).bind fun a' b' _ hab' =>
      ih (fun j hj => h j (List.mem_cons_of_mem _ hj)) hab'

end Lifts

end KvRaft
