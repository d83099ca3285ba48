import Mathlib.Data.List.Basic

/-!
# Streams that arrive in pieces

A reader that looks at one piece at a time reads the stream right only if the pieces are what was
written, provided that nothing can be written in less space than it is read from.

* `Segments.Cuts` : a stream arrives in these pieces.
* `Segments.eq_write_of_flatten_eq` : if what is read fills the stream, it is the pieces.
-/

namespace KvRaft

namespace Segments

variable {α ρ : Type} {read : List α → Option ρ} {write : ρ → List α}

/-- The stream arrives in these pieces; a piece has at least one byte. -/
def Cuts (pieces : List (List α)) (stream : List α) : Prop :=
  pieces.flatten = stream ∧ [] ∉ pieces

instance [DecidableEq α] (pieces : List (List α)) (stream : List α) :
    Decidable (Cuts pieces stream) := by
  unfold Cuts
  infer_instance

theorem Cuts.eq_nil {pieces : List (List α)} (h : Cuts pieces []) : pieces = [] := by
  refine List.eq_nil_iff_forall_not_mem.2 fun piece hmem => ?_
  exact h.2 (List.flatten_eq_nil_iff.1 h.1 piece hmem ▸ hmem)

/-- A single element is not cut. -/
theorem Cuts.eq_singleton {pieces : List (List α)} {b : α} (h : Cuts pieces [b]) :
    pieces = [[b]] := by
  obtain ⟨hflat, hne⟩ := h
  cases pieces with
  | nil => cases hflat
  | cons piece pieces =>
    rw [List.mem_cons, not_or] at hne
    cases piece with
    | nil => exact absurd rfl hne.1
    | cons b' piece =>
      rw [List.flatten_cons, List.cons_append] at hflat
      obtain ⟨rfl, hrest⟩ := List.cons.inj hflat
      obtain ⟨rfl, hrest⟩ := List.append_eq_nil_iff.1 hrest
      rw [Cuts.eq_nil ⟨hrest, hne.2⟩]

/-- What is read takes no more space than the pieces it is read from. -/
theorem length_write_le
    (hread : ∀ piece r, piece ≠ [] → read piece = some r → (write r).length ≤ piece.length)
    {pieces : List (List α)} (hne : [] ∉ pieces) :
    ((pieces.filterMap read).map write).flatten.length ≤ pieces.flatten.length := by
  induction pieces with
  | nil => exact Nat.le_refl _
  | cons piece pieces ih =>
    rw [List.mem_cons, not_or] at hne
    have hrest := ih hne.2
    rw [List.flatten_cons, List.length_append]
    cases hr : read piece with
    | none =>
      rw [List.filterMap_cons_none hr]
      omega
    | some r =>
      have := hread piece r (Ne.symm hne.1) hr
      rw [List.filterMap_cons_some hr, List.map_cons, List.flatten_cons, List.length_append]
      omega

/-- **If what is read fills the stream, the pieces are what is read.** -/
theorem eq_write_of_flatten_eq
    (hread : ∀ piece r, piece ≠ [] → read piece = some r → (write r).length ≤ piece.length)
    {pieces : List (List α)} (hne : [] ∉ pieces)
    (h : pieces.flatten = ((pieces.filterMap read).map write).flatten) :
    pieces = (pieces.filterMap read).map write := by
  induction pieces with
  | nil => rfl
  | cons piece pieces ih =>
    rw [List.mem_cons, not_or] at hne
    have hrest := length_write_le hread hne.2
    cases hr : read piece with
    | none =>
      -- the bytes of the piece are missing
      rw [List.filterMap_cons_none hr, List.flatten_cons] at h
      have hlen := congrArg List.length h
      have hpos := List.length_pos_of_ne_nil (Ne.symm hne.1)
      rw [List.length_append] at hlen
      omega
    | some r =>
      have hle := hread piece r (Ne.symm hne.1) hr
      rw [List.filterMap_cons_some hr, List.map_cons, List.flatten_cons, List.flatten_cons] at h
      have hlen := congrArg List.length h
      rw [List.length_append, List.length_append] at hlen
      obtain ⟨hpiece, hpieces⟩ := List.append_inj h (by omega)
      rw [List.filterMap_cons_some hr, List.map_cons, ← hpiece, ← ih hne.2 hpieces]

end Segments

end KvRaft
