import KvRaft.Consensus.Invariant
import Mathlib.Logic.Relation

/-!
# Steps of one node

* `Local v s s'` : the steps from `s` to `s'` are taken by `v`, and they are possible whatever the
  terms of the other nodes are.
* `Inv.forget` : such steps preserve the invariant also where the others are thought to be in
  other terms than in `s`.

The steps of the protocol read and write the term of the node that takes them only.  So a node
that forgets that it was in a newer term, in which it has done nothing, disturbs nobody.
-/

namespace KvRaft

namespace Consensus

variable {N E : Type*} {tm : E → ℤ} {s s' s'' : State N E} {v : N}

/-- The same histories with other terms. -/
def State.withTerm (s : State N E) (t : N → ℤ) : State N E := { s with term := t }

@[simp] theorem State.withTerm_term (s : State N E) (t : N → ℤ) : (s.withTerm t).term = t := rfl

@[simp] theorem State.withTerm_withTerm (s : State N E) (t t' : N → ℤ) :
    (s.withTerm t).withTerm t' = s.withTerm t' := rfl

variable [DecidableEq N]

theorem State.advance_eq (s : State N E) (v : N) (T : ℤ) :
    s.advance v T = s.withTerm (Function.update s.term v T) := rfl

variable [Fintype N]

variable (tm) in
/-- Node `v` gets from `s` to `s'`, whatever the terms of the others are. -/
def Local (v : N) (s s' : State N E) : Prop :=
  ∀ t : N → ℤ, t v = s.term v → Relation.ReflTransGen (Step tm) (s.withTerm t)
    (s'.withTerm (Function.update t v (s'.term v)))

theorem Local.trans (h : Local tm v s s') (h' : Local tm v s' s'') : Local tm v s s'' := by
  intro t ht
  have h₂ := h' (Function.update t v (s'.term v)) (Function.update_self ..)
  rw [Function.update_idem] at h₂
  exact (h t ht).trans h₂

/-- A step that can be taken in other terms as well. -/
theorem Local.of_step
    (h : ∀ t : N → ℤ, t v = s.term v →
      Step tm (s.withTerm t) (s'.withTerm (Function.update t v (s'.term v)))) :
    Local tm v s s' :=
  fun t ht => .single (h t ht)

theorem Local.advance {T : ℤ} (hT : s.term v ≤ T) : Local tm v s (s.advance v T) := by
  refine .of_step fun t ht => ?_
  rw [State.advance_term, if_pos rfl]
  have hstep : Step tm (s.withTerm t) _ := .advance v T (by rwa [← ht] at hT)
  exact hstep

theorem Local.vote {c : N} (hv : s.vote v (s.term v) = none) (hreign : s.reign (s.term v) = none)
    (hc : c = v ∨ ∃ lc, s.vote c (s.term v) = some (c, lc) ∧ AtLeast tm lc (s.log v)) :
    Local tm v s (s.castVote v c) := by
  refine .of_step fun t ht => ?_
  rw [← ht] at hv hreign hc
  have hstep : Step tm (s.withTerm t) _ := .vote v c hv hreign hc
  rw [State.castVote_term, ← ht, Function.update_eq_self]
  simpa only [State.castVote, State.withTerm, ht] using hstep

theorem Local.elect {lc : List E} {Q : Finset N} (hpos : 0 < s.term v)
    (hreign : s.reign (s.term v) = none) (hown : s.vote v (s.term v) = some (v, lc))
    (hQ : Majority Q) (hvotes : ∀ w ∈ Q, ∃ l, s.vote w (s.term v) = some (v, l)) :
    Local tm v s (State.setAck
      { s with reign := Function.update s.reign (s.term v) (some ⟨v, s.log v, s.log v⟩) }
      v (s.log v).length) := by
  refine .of_step fun t ht => ?_
  rw [← ht] at hpos hreign hown hvotes
  have hstep : Step tm (s.withTerm t) _ := .elect v lc Q hpos hreign hown hQ hvotes
  rw [State.setAck_term, ← ht, Function.update_eq_self]
  simpa only [State.setAck, State.withTerm, ht] using hstep

theorem Local.append {r : Reign N E} {e : E} (hreign : s.reign (s.term v) = some r)
    (hlead : r.leader = v) (he : tm e = s.term v) :
    Local tm v s (State.setAck
      { s with
        log := Function.update s.log v (s.log v ++ [e])
        reign := Function.update s.reign (s.term v) (some { r with log := s.log v ++ [e] }) }
      v ((s.log v).length + 1)) := by
  refine .of_step fun t ht => ?_
  rw [← ht] at hreign he
  have hstep : Step tm (s.withTerm t) _ := .append v r e hreign hlead he
  rw [State.setAck_term, ← ht, Function.update_eq_self]
  simpa only [State.setAck, State.withTerm, ht] using hstep

theorem Local.accept {r : Reign N E} {m : ℕ} {l : List E} (hreign : s.reign (s.term v) = some r)
    (hm : m ≤ r.log.length)
    (hl : l = s.log v ∧ r.log.take m <+: s.log v ∨
      r.leader ≠ v ∧ l = r.log.take m ∧ (s.log v).length ≤ m) :
    Local tm v s (State.setAck { s with log := Function.update s.log v l } v m) := by
  refine .of_step fun t ht => ?_
  rw [← ht] at hreign
  have hstep : Step tm (s.withTerm t) _ := .accept v r m l hreign hm hl
  rw [State.setAck_term, ← ht, Function.update_eq_self]
  simpa only [State.setAck, State.withTerm, ht] using hstep

/-- The invariant holds, and nothing is taken back, along several steps. -/
theorem Inv.steps (hi : Inv tm s) (h : Relation.ReflTransGen (Step tm) s s') :
    Inv tm s' ∧ Grows s s' := by
  induction h with
  | refl => exact ⟨hi, .refl s⟩
  | tail _ hst ih => exact ⟨ih.1.step hst, ih.2.trans (ih.1.grows hst)⟩

/-- **What `v` does is right also in a state that is behind**: where `v` and others are in terms
that are not newer than those of `s`. -/
theorem Inv.forget {t : N → ℤ} (hi : Inv tm (s.withTerm t)) (ht : t v ≤ s.term v)
    (h : Local tm v s s') :
    Inv tm (s'.withTerm (Function.update t v (s'.term v))) ∧
      Grows (s.withTerm t) (s'.withTerm (Function.update t v (s'.term v))) := by
  have hadv : Step tm (s.withTerm t) ((s.withTerm t).advance v (s.term v)) := .advance v _ ht
  have hsteps := h (Function.update t v (s.term v)) (Function.update_self ..)
  rw [Function.update_idem] at hsteps
  exact hi.steps ((Relation.ReflTransGen.single hadv).trans hsteps)

/-- The nodes may be thought to be in newer terms. -/
theorem Inv.ahead {t : N → ℤ} (hi : Inv tm s) (ht : ∀ w, s.term w ≤ t w) :
    Inv tm (s.withTerm t) := by
  have hsome : ∀ Q : Finset N,
      Inv tm (s.withTerm fun w => if w ∈ Q then t w else s.term w) := by
    intro Q
    induction Q using Finset.induction_on with
    | empty =>
      simp only [Finset.notMem_empty, if_false]
      exact hi
    | insert v Q hv ih =>
      have hle : (s.withTerm fun w => if w ∈ Q then t w else s.term w).term v ≤ t v := by
        simpa [hv] using ht v
      have hadv := ih.advance hle
      rw [State.advance_eq, State.withTerm_withTerm] at hadv
      have hterm : (fun w => if w ∈ insert v Q then t w else s.term w) =
          Function.update (fun w => if w ∈ Q then t w else s.term w) v (t v) := by
        funext w
        by_cases hw : w = v
        · subst hw
          simp
        · simp [hw]
      rw [hterm]
      exact hadv
  simpa using hsome Finset.univ

end Consensus

end KvRaft
