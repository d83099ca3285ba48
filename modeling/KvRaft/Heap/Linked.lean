import Mathlib.Control.Monad.Basic
import Mathlib.Data.List.Basic
import Mathlib.Logic.Function.Basic

/-!
# Chains of pointers

Cells of type `α` are connected by `next : α → Except ε (Option α)`, which fails on a cell that
cannot be read and gives `none` at the end of a chain.  A sentinel `p` starts the chain of cells
`as` when following `next` from `p` visits exactly `as` (`Linked next p as`).

## Main results

* `Linked.splice` : replacing what follows a cell leaves the cells before it in place.
* `advance_eq` : the loop that moves forward while the next cell passes a test stops at the last
  cell of the prefix that passes.
* `cells_eq` : walking to the end visits the chain.
-/

namespace KvRaft

namespace Heap

variable {α ε : Type}

@[simp]
theorem ok_bind {β γ : Type} (b : β) (f : β → Except ε γ) : (Except.ok b >>= f) = f b := rfl

@[simp]
theorem error_bind {β γ : Type} (e : ε) (f : β → Except ε γ) :
    (Except.error e >>= f) = .error e := rfl

@[simp]
theorem pure_except {β : Type} (b : β) : (pure b : Except ε β) = .ok b := rfl

/-- Following `next` from `p` visits the given cells and ends there. -/
def Linked (next : α → Except ε (Option α)) (p : α) : List α → Prop
  | [] => next p = .ok none
  | a :: as => next p = .ok (some a) ∧ Linked next a as

variable {next next' : α → Except ε (Option α)} {p q : α} {as bs cs : List α}

@[simp]
theorem linked_nil : Linked next p [] ↔ next p = .ok none := Iff.rfl

@[simp]
theorem linked_cons {a : α} : Linked next p (a :: as) ↔ next p = .ok (some a) ∧ Linked next a as :=
  Iff.rfl

/-- The cell behind which a chain hangs matters only through what follows it. -/
theorem Linked.of_next (h : Linked next p as) (hp : next' q = next p)
    (has : ∀ a ∈ as, next' a = next a) : Linked next' q as := by
  induction as generalizing p q with
  | nil => exact hp.trans h
  | cons a as ih =>
    obtain ⟨ha, h⟩ := h
    refine ⟨hp.trans ha, ih h (has a List.mem_cons_self) fun b hb => ?_⟩
    exact has b (List.mem_cons_of_mem a hb)

theorem Linked.congr (h : Linked next p as) (hp : ∀ a ∈ p :: as, next' a = next a) :
    Linked next' p as :=
  h.of_next (hp p List.mem_cons_self) fun a ha => hp a (List.mem_cons_of_mem p ha)

/-- The rest of a chain, seen from the last cell of its first part. -/
theorem Linked.drop (h : Linked next p (as ++ bs)) : Linked next (as.getLastD p) bs := by
  induction as generalizing p with
  | nil => exact h
  | cons a as ih =>
    rw [List.getLastD_cons]
    exact ih h.2

/-- Replace what follows the last cell of `as`, leaving the links before it as they are. -/
theorem Linked.splice (h : Linked next p (as ++ bs)) (hp : (p :: as).Nodup)
    (heq : ∀ a ∈ p :: as, a ≠ as.getLastD p → next' a = next a)
    (hcs : Linked next' (as.getLastD p) cs) : Linked next' p (as ++ cs) := by
  induction as generalizing p with
  | nil => exact hcs
  | cons a as ih =>
    rw [List.getLastD_cons] at heq hcs
    obtain ⟨ha, h⟩ := h
    obtain ⟨hmem, hnodup⟩ := List.nodup_cons.1 hp
    have hne : p ≠ as.getLastD a := by
      rintro rfl
      exact hmem (List.getLastD_mem_cons ..)
    refine ⟨(heq p List.mem_cons_self hne).trans ha, ih h hnodup (fun b hb => ?_) hcs⟩
    exact heq b (List.mem_cons_of_mem p hb)

theorem Linked.next_eq (h : Linked next p as) : next p = .ok as.head? := by
  cases as with
  | nil => exact h
  | cons a as => exact h.1

theorem nodup_cons_append (hn : (p :: (as ++ bs)).Nodup) :
    (p :: as).Nodup ∧ bs.Nodup ∧ ∀ a ∈ p :: as, ∀ b ∈ bs, a ≠ b := by
  rw [← List.cons_append] at hn
  exact List.nodup_append.1 hn

section Update

variable [DecidableEq α] {a : α}

/-- Hang a new cell between the last cell of `as` and what follows it. -/
theorem Linked.insert (h : Linked next p (as ++ bs)) (hn : (p :: (as ++ bs)).Nodup)
    (ha : a ∉ p :: (as ++ bs)) :
    Linked (Function.update (Function.update next a (.ok bs.head?)) (as.getLastD p)
      (.ok (some a))) p (as ++ a :: bs) := by
  have hlast : as.getLastD p ∈ p :: as := List.getLastD_mem_cons ..
  have hsub : ∀ c ∈ p :: as, c ∈ p :: (as ++ bs) := by grind
  have hne : a ≠ as.getLastD p := fun h => ha (h ▸ hsub _ hlast)
  have hbs : ∀ b ∈ bs, b ≠ a ∧ b ≠ as.getLastD p := by
    intro b hb
    refine ⟨fun h => ha (by grind), fun h => ?_⟩
    have hdis := nodup_cons_append hn
    exact hdis.2.2 _ hlast _ hb h.symm
  refine h.splice (nodup_cons_append hn).1 (fun c hc hc' => ?_) ⟨?_, ?_⟩
  · rw [Function.update_of_ne hc', Function.update_of_ne]
    rintro rfl
    exact ha (hsub c hc)
  · rw [Function.update_self]
  · refine h.drop.of_next ?_ fun b hb => ?_
    · rw [Function.update_of_ne hne, Function.update_self, h.drop.next_eq]
    · rw [Function.update_of_ne (hbs b hb).2, Function.update_of_ne (hbs b hb).1]

/-- Lead the last cell of `as` past the cell `a`. -/
theorem Linked.remove (h : Linked next p (as ++ a :: bs)) (hn : (p :: (as ++ a :: bs)).Nodup) :
    Linked (Function.update next (as.getLastD p) (.ok bs.head?)) p (as ++ bs) := by
  have hlast : as.getLastD p ∈ p :: as := List.getLastD_mem_cons ..
  have hdis := nodup_cons_append hn
  refine h.splice hdis.1 (fun c _ hc => Function.update_of_ne hc ..) ?_
  refine h.drop.2.of_next ?_ fun b hb => ?_
  · rw [Function.update_self, h.drop.2.next_eq]
  · rw [Function.update_of_ne]
    rintro rfl
    exact hdis.2.2 _ hlast _ (List.mem_cons_of_mem a hb) rfl

end Update

/-! ### Loops over a chain -/

/-- Move forward while there is a next cell and it passes the test. -/
def advance (next : α → Except ε (Option α)) (test : α → Except ε Bool) (stuck : ε) :
    ℕ → α → Except ε α
  | 0, _ => .error stuck
  | fuel + 1, p => do
    match ← next p with
    | none => return p
    | some a => if ← test a then advance next test stuck fuel a else return p

/-- Walk to the end of the chain and return the cells on the way. -/
def cells (next : α → Except ε (Option α)) (stuck : ε) : ℕ → α → Except ε (List α)
  | 0, _ => .error stuck
  | fuel + 1, p => do
    match ← next p with
    | none => return []
    | some a => return a :: (← cells next stuck fuel a)

theorem advance_eq {test : α → Except ε Bool} {stuck : ε} {fuel : ℕ}
    (h : Linked next p (as ++ bs)) (has : ∀ a ∈ as, test a = .ok true)
    (hbs : ∀ b ∈ bs.head?, test b = .ok false) (hfuel : as.length < fuel) :
    advance next test stuck fuel p = .ok (as.getLastD p) := by
  induction as generalizing p fuel with
  | nil =>
    obtain ⟨fuel, rfl⟩ : ∃ m, fuel = m + 1 := ⟨fuel - 1, by grind⟩
    cases bs with
    | nil => simp_all [advance]
    | cons b bs => simp_all [advance]
  | cons a as ih =>
    obtain ⟨fuel, rfl⟩ : ∃ m, fuel = m + 1 := ⟨fuel - 1, by grind⟩
    have hlen : as.length < fuel := by simpa using hfuel
    have ha := has a List.mem_cons_self
    rw [List.getLastD_cons, ← ih h.2 (fun b hb => has b (List.mem_cons_of_mem a hb)) hlen]
    simp [advance, h.1, ha]

/-- The loop may start at any cell of the prefix that passes. -/
theorem advance_of_mem {test : α → Except ε Bool} {stuck : ε} {fuel : ℕ}
    (h : Linked next p (as ++ bs)) (hq : q ∈ p :: as) (has : ∀ a ∈ as, test a = .ok true)
    (hbs : ∀ b ∈ bs.head?, test b = .ok false) (hfuel : as.length < fuel) :
    advance next test stuck fuel q = .ok (as.getLastD p) := by
  rcases List.mem_cons.1 hq with rfl | hq
  · exact advance_eq h has hbs hfuel
  · obtain ⟨us, vs, rfl⟩ := List.append_of_mem hq
    have hdrop : Linked next q (vs ++ bs) := by
      have h' : Linked next p ((us ++ [q]) ++ (vs ++ bs)) := by simpa using h
      simpa using h'.drop
    have hlen : vs.length < fuel := by grind
    rw [advance_eq hdrop (fun a ha => has a (by simp [ha])) hbs hlen]
    simp [List.getLast?_cons]

theorem cells_eq {stuck : ε} {fuel : ℕ} (h : Linked next p as) (hfuel : as.length < fuel) :
    cells next stuck fuel p = .ok as := by
  induction as generalizing p fuel with
  | nil =>
    obtain ⟨fuel, rfl⟩ : ∃ m, fuel = m + 1 := ⟨fuel - 1, by grind⟩
    simp_all [cells]
  | cons a as ih =>
    obtain ⟨fuel, rfl⟩ : ∃ m, fuel = m + 1 := ⟨fuel - 1, by grind⟩
    have hlen : as.length < fuel := by simpa using hfuel
    simp [cells, h.1, ih h.2 hlen]

theorem mapM_map_eq {β γ : Type} {f : β → Except ε γ} {g : α → β} {e : α → γ}
    (h : ∀ a ∈ as, f (g a) = .ok (e a)) : (as.map g).mapM f = .ok (as.map e) := by
  induction as with
  | nil => rfl
  | cons a as ih =>
    rw [List.map_cons, List.mapM_cons, h a List.mem_cons_self,
      ih fun b hb => h b (List.mem_cons_of_mem a hb)]
    rfl

end Heap

end KvRaft
