import KvRaft.LTS.Basic
import Mathlib.Data.List.Nodup
import Mathlib.Data.Set.Card

/-!
# Ledgers of tickets

A `Ledger` keeps slots, each of which is empty or holds a ticket.  Tickets are numbered in the
order of issue.  A ticket leaves its slot when it is redeemed, which is recorded, or voided.

* `Ledger.Moves` : one entry in the ledger.
* `Ledger.Sound` : the count of the ledger is the number of full slots, and no ticket is redeemed
  twice.  It is kept by every entry (`Ledger.Sound.step`).
-/

namespace KvRaft

/-- A ledger of tickets in slots `α`. -/
structure Ledger (α : Type*) where
  /-- The ticket in a slot. -/
  held : α → Option ℕ
  /-- The number of tickets issued. -/
  issued : ℕ
  /-- The tickets redeemed. -/
  redeemed : List ℕ
  /-- What is kept as the number of full slots. -/
  count : ℤ

namespace Ledger

variable {α : Type*}

/-- An entry in the ledger. -/
inductive Moves [DecidableEq α] (l : Ledger α) : Ledger α → Prop
  | issue (x : α) : l.held x = none → Moves l
      { l with
        held := Function.update l.held x (some l.issued)
        issued := l.issued + 1
        count := l.count + 1 }
  | void (x : α) (k : ℕ) : l.held x = some k → Moves l
      { l with
        held := Function.update l.held x none
        count := l.count - 1 }
  | redeem (x : α) (k : ℕ) : l.held x = some k → Moves l
      { l with
        held := Function.update l.held x none
        redeemed := l.redeemed ++ [k]
        count := l.count - 1 }

/-- The full slots. -/
def full (l : Ledger α) : Set α := {x | (l.held x).isSome}

/-- **The ledger is in order.** -/
structure Sound (l : Ledger α) : Prop where
  finite : l.full.Finite
  count : l.count = l.full.ncard
  lt_issued : ∀ x k, l.held x = some k → k < l.issued
  redeemed_lt : ∀ k ∈ l.redeemed, k < l.issued
  unique : ∀ x y k, l.held x = some k → l.held y = some k → x = y
  unredeemed : ∀ x k, l.held x = some k → k ∉ l.redeemed
  nodup : l.redeemed.Nodup

variable {l l' : Ledger α} {x : α} {k : ℕ}

theorem mem_full (h : l.held x = some k) : x ∈ l.full := by
  simp [full, h]

/-- The slots after a ticket has left one of them. -/
theorem Sound.emptied (h : l.Sound) (hx : l.held x = some k) :
    (l.full \ {x}).Finite ∧ l.count - 1 = (l.full \ {x}).ncard := by
  have hcard := Set.ncard_sdiff_singleton_add_one (mem_full hx) h.finite
  have hcount := h.count
  exact ⟨h.finite.sdiff, by omega⟩

/-- A ledger in which nothing was entered. -/
theorem sound_empty : Sound (⟨fun _ => none, 0, [], 0⟩ : Ledger α) := by
  refine ⟨?_, ?_, ?_, ?_, ?_, ?_, List.nodup_nil⟩
  all_goals simp [full]

variable [DecidableEq α]

theorem full_update_some (l : Ledger α) (x : α) (k : ℕ) :
    {y | (Function.update l.held x (some k) y).isSome} = insert x l.full := by
  ext y
  rcases eq_or_ne y x with rfl | hy
  · simp
  · simp [full, hy]

theorem full_update_none (l : Ledger α) (x : α) :
    {y | (Function.update l.held x none y).isSome} = l.full \ {x} := by
  ext y
  rcases eq_or_ne y x with rfl | hy
  · simp
  · simp [full, hy]

theorem Sound.step (h : l.Sound) (hm : l.Moves l') : l'.Sound := by
  obtain ⟨hfin, hcount, hlt, hrlt, huniq, hun, hnodup⟩ := h
  cases hm with
  | issue x hx =>
    have hnot : x ∉ l.full := by simp [full, hx]
    refine ⟨?_, ?_, ?_, ?_, ?_, ?_, hnodup⟩
    · rw [full, full_update_some]
      exact hfin.insert x
    · rw [full, full_update_some, Set.ncard_insert_of_notMem hnot hfin]
      push_cast
      rw [hcount]
    all_goals grind
  | void x k hx =>
    obtain ⟨hfin', hcount'⟩ := Sound.emptied ⟨hfin, hcount, hlt, hrlt, huniq, hun, hnodup⟩ hx
    refine ⟨?_, ?_, ?_, hrlt, ?_, ?_, hnodup⟩
    · rwa [full, full_update_none]
    · rwa [full, full_update_none]
    all_goals grind
  | redeem x k hx =>
    obtain ⟨hfin', hcount'⟩ := Sound.emptied ⟨hfin, hcount, hlt, hrlt, huniq, hun, hnodup⟩ hx
    refine ⟨?_, ?_, ?_, ?_, ?_, ?_, ?_⟩
    · rwa [full, full_update_none]
    · rwa [full, full_update_none]
    · grind
    · grind
    · grind
    · grind
    · have hk := hun x k hx
      refine List.nodup_append.2 ⟨hnodup, List.nodup_singleton k, fun a ha b hb => ?_⟩
      rw [List.mem_singleton.1 hb]
      exact ne_of_mem_of_not_mem ha hk

end Ledger

end KvRaft
