import Mathlib.Data.Nat.Notation
import Mathlib.Tactic.SplitIfs
import Mathlib.Tactic.TypeStar

/-!
# Machines and their guarded runs

The systems of this development are given by an executable step function: `step s a` is the
state after action `a` in state `s`, or `none` when `a` is not possible there.

## Main definitions

* `Machine S A` : a step function on states `S` and actions `A`.
* `Machine.Reaches P s₀ s` : some run leads from `s₀` to `s`, each of whose steps starts in a
  state and takes an action satisfying `P`.
* `Machine.Reachable s₀ s` : the same without a condition on the steps.
* `Machine.runWhere` : execution of a list of actions, used to exhibit concrete runs.
-/

namespace KvRaft

/-- A machine with states `S` and actions `A`. -/
structure Machine (S A : Type*) where
  /-- The state after an action, `none` when the action is not possible. -/
  step : S → A → Option S

namespace Machine

variable {S A : Type*} (M : Machine S A)

/-- `s` is reached from `s₀` by a run whose steps all satisfy `P`. -/
inductive Reaches (P : S → A → Prop) (s₀ : S) : S → Prop
  | refl : Reaches P s₀ s₀
  | tail {s s' : S} {a : A} : Reaches P s₀ s → P s a → M.step s a = some s' → Reaches P s₀ s'

/-- `s` is reached from `s₀` by some run. -/
abbrev Reachable (s₀ s : S) : Prop := M.Reaches (fun _ _ => True) s₀ s

/-- Execute a list of actions, failing when one is not possible or does not satisfy `P`. -/
def runWhere (P : S → A → Prop) [∀ s a, Decidable (P s a)] : S → List A → Option S
  | s, [] => some s
  | s, a :: as => if P s a then (M.step s a).bind fun s' => runWhere P s' as else none

/-- Execute a list of actions, failing when one is not possible. -/
def run (s : S) (as : List A) : Option S := M.runWhere (fun _ _ => True) s as

variable {M} {P Q : S → A → Prop} {s₀ s s' : S}

/-- Every state of a run satisfies what holds initially and is preserved by the steps that
satisfy the condition of the run. -/
theorem Reaches.invariant {I : S → Prop} (h : M.Reaches P s₀ s) (h₀ : I s₀)
    (hstep : ∀ s a s', I s → P s a → M.step s a = some s' → I s') : I s := by
  induction h with
  | refl => exact h₀
  | tail _ hp hst ih => exact hstep _ _ _ ih hp hst

theorem Reaches.mono (h : M.Reaches P s₀ s) (hPQ : ∀ s a, P s a → Q s a) : M.Reaches Q s₀ s := by
  induction h with
  | refl => exact .refl
  | tail _ hp hst ih => exact .tail ih (hPQ _ _ hp) hst

theorem Reaches.reachable (h : M.Reaches P s₀ s) : M.Reachable s₀ s :=
  h.mono fun _ _ _ => trivial

theorem Reaches.trans (h : M.Reaches P s₀ s) (h' : M.Reaches P s s') : M.Reaches P s₀ s' := by
  induction h' with
  | refl => exact h
  | tail _ hp hst ih => exact .tail ih hp hst

theorem reaches_of_runWhere [∀ s a, Decidable (P s a)] {as : List A}
    (h : M.runWhere P s as = some s') : M.Reaches P s s' := by
  induction as generalizing s with
  | nil => cases h; exact .refl
  | cons a as ih =>
    simp only [runWhere] at h
    split_ifs at h with hp
    obtain ⟨s₁, hst, h⟩ := Option.bind_eq_some_iff.1 h
    exact (Reaches.tail .refl hp hst).trans (ih h)

theorem reachable_of_run {as : List A} (h : M.run s as = some s') : M.Reachable s s' :=
  reaches_of_runWhere h

/-- **A run of one action halts** when a measure goes down with every step. -/
theorem exists_halt {a : A} {I : S → Prop} (m : S → ℕ)
    (hstep : ∀ s s', I s → M.step s a = some s' → I s' ∧ m s' < m s) {s : S} (h : I s) :
    ∃ s', M.Reachable s s' ∧ I s' ∧ M.step s' a = none := by
  induction hk : m s using Nat.strongRecOn generalizing s with
  | ind k ih =>
    subst hk
    cases hst : M.step s a with
    | none => exact ⟨s, .refl, h, hst⟩
    | some s₁ =>
      obtain ⟨h₁, hlt⟩ := hstep s s₁ h hst
      obtain ⟨s', hr, h', hhalt⟩ := ih (m s₁) hlt h₁ rfl
      exact ⟨s', (Reaches.tail .refl trivial hst).trans hr, h', hhalt⟩

end Machine

end KvRaft
