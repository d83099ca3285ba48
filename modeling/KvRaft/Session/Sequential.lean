import Mathlib.Algebra.Notation.Defs
import Mathlib.Data.List.Basic
import Mathlib.Order.Basic

/-!
# Sequences of numbered requests

Clients number their requests and put them into a common sequence, some of them more than once.
The events of the sequence are of an arbitrary type `E`; `tag e` is the client of `e` and the
number of its request, of an ordered type `N`.

## Main definitions

* `Session.Reached` : some event of a client has at least a given number.
* `Session.Sequential` : before every event stand the earlier requests of its client, as far as
  they occur, and a tag determines the request.
* `Session.Increasing` : every event is a repetition or has a larger number than all earlier
  events of its client; such a sequence is sequential.
* `Session.Dense` : before every event stand all earlier requests of its client.

The point of a sequential order is `Session.Sequential.mem_of_reached`: to find out whether a
request is a repetition it is enough to know the largest number so far.
-/

namespace KvRaft

namespace Session

variable {E ι N : Type*} [PartialOrder N] (tag : E → ι × N)

/-- Some event of client `c` has at least the number `t`. -/
def Reached (l : List E) (c : ι) (t : N) : Prop := ∃ e ∈ l, (tag e).1 = c ∧ t ≤ (tag e).2

/-- Equal tags are those of equal requests, and before every event stand the earlier requests of
its client, as far as they occur. -/
structure Sequential (l : List E) : Prop where
  unique : ∀ e ∈ l, ∀ e' ∈ l, tag e = tag e' → e = e'
  before : ∀ pre e post, l = pre ++ e :: post → ∀ e' ∈ l, (tag e').1 = (tag e).1 →
    (tag e').2 < (tag e).2 → e' ∈ pre

variable {tag} {l l' : List E} {e : E} {c : ι} {t t' : N}

theorem Reached.mono (h : Reached tag l c t) (hl : ∀ x ∈ l, x ∈ l') : Reached tag l' c t := by
  obtain ⟨e, he, hc, ht⟩ := h
  exact ⟨e, hl e he, hc, ht⟩

theorem Reached.of_le (h : Reached tag l c t) (ht : t' ≤ t) : Reached tag l c t' := by
  obtain ⟨e, he, hc, hte⟩ := h
  exact ⟨e, he, hc, ht.trans hte⟩

theorem reached_of_mem (h : e ∈ l) : Reached tag l (tag e).1 (tag e).2 := ⟨e, h, rfl, le_rfl⟩

theorem Sequential.of_isPrefix (h : Sequential tag l') (hl : l <+: l') : Sequential tag l := by
  obtain ⟨s, rfl⟩ := hl
  refine ⟨fun e he e' he' => h.unique e (by simp [he]) e' (by simp [he']),
    fun pre e post heq e' he' => h.before pre e (post ++ s) (by simp [heq]) e' (by simp [he'])⟩

/-- In a sequential order a request is a repetition if its client has reached its number. -/
theorem Sequential.mem_of_reached (h : Sequential tag (l ++ [e]))
    (hr : Reached tag l (tag e).1 (tag e).2) : e ∈ l := by
  obtain ⟨x, hx, hc, hle⟩ := hr
  have he : e ∈ l ++ [e] := by simp
  rcases hle.eq_or_lt with heq | hlt
  · obtain rfl : x = e := h.unique x (List.mem_append_left _ hx) e he (Prod.ext hc heq.symm)
    exact hx
  · obtain ⟨pre, post, rfl⟩ := List.append_of_mem hx
    have := h.before pre x (post ++ [e]) (by simp) e he hc.symm hlt
    exact List.mem_append_left _ this

/-! ### Increasing sequences -/

variable (tag) in
/-- New requests have larger numbers than all earlier ones of their client.  What repeats a number
of its client is the same event again, never another request under that number. -/
def Increasing (l : List E) : Prop :=
  ∀ k e, l[k]? = some e →
    e ∈ l.take k ∨ ∀ e' ∈ l.take k, (tag e').1 = (tag e).1 → (tag e').2 < (tag e).2

instance [DecidableEq E] [DecidableEq ι] [DecidableLT N] : Decidable (Increasing tag l) :=
  decidable_of_iff (∀ k : Fin l.length, l[k] ∈ l.take k ∨
    ∀ e' ∈ l.take k, (tag e').1 = (tag l[k]).1 → (tag e').2 < (tag l[k]).2) <| by
    refine ⟨fun h k e hk => ?_, fun h k => h k l[k] (by simp)⟩
    obtain ⟨hlt, rfl⟩ := List.getElem?_eq_some_iff.1 hk
    exact h ⟨k, hlt⟩

theorem exists_first (h : e ∈ l) : ∃ k, l[k]? = some e ∧ e ∉ l.take k := by
  obtain ⟨pre, post, rfl, hpre⟩ := List.eq_append_cons_of_mem h
  exact ⟨pre.length, by simp, by simpa using hpre⟩

theorem mem_take_of_lt {l : List E} {j k : ℕ} (h : l[j]? = some e) (hlt : j < k) :
    e ∈ l.take k :=
  List.mem_of_getElem? (i := j) (by rwa [List.getElem?_take_of_lt hlt])

/-- An increasing sequence is sequential: the first occurrences of the requests of a client come
in the order of their numbers. -/
theorem Increasing.sequential (h : Increasing tag l) : Sequential tag l := by
  -- of two first occurrences the later one has the larger number
  have hlt : ∀ {e e' : E} {k k' : ℕ}, l[k]? = some e → l[k']? = some e' → e' ∉ l.take k' →
      (tag e').1 = (tag e).1 → k < k' → (tag e).2 < (tag e').2 := by
    intro e e' k k' hk hk' hnew hc hkk
    exact (h k' e' hk').resolve_left hnew e (mem_take_of_lt hk hkk) hc.symm
  refine ⟨fun e he e' he' htag => ?_, fun pre e post heq e' he' hc hnum => ?_⟩
  · obtain ⟨k, hk, hnew⟩ := exists_first he
    obtain ⟨k', hk', hnew'⟩ := exists_first he'
    rcases Nat.lt_trichotomy k k' with hkk | rfl | hkk
    · have := hlt hk hk' hnew' (congrArg Prod.fst htag.symm) hkk
      rw [htag] at this
      exact absurd this (lt_irrefl _)
    · exact Option.some.inj (hk.symm.trans hk')
    · have := hlt hk' hk hnew (congrArg Prod.fst htag) hkk
      rw [htag] at this
      exact absurd this (lt_irrefl _)
  · have hk : l[pre.length]? = some e := by simp [heq]
    obtain ⟨k', hk', hnew'⟩ := exists_first he'
    rcases Nat.lt_trichotomy pre.length k' with hkk | rfl | hkk
    · exact absurd (hlt hk hk' hnew' hc hkk) (lt_asymm hnum)
    · obtain rfl : e = e' := Option.some.inj (hk.symm.trans hk')
      exact absurd hnum (lt_irrefl _)
    · have := mem_take_of_lt hk' hkk
      rwa [heq, List.take_left] at this

/-! ### Dense sequences -/

variable [One N]

variable (tag) in
/-- Before every event stand all earlier requests of its client, which are numbered from `1`. -/
def Dense (l : List E) : Prop :=
  ∀ pre e post, l = pre ++ e :: post → ∀ m, 1 ≤ m → m < (tag e).2 →
    ∃ e' ∈ pre, tag e' = ((tag e).1, m)

theorem dense_nil : Dense tag ([] : List E) := by
  intro pre e post h
  cases pre <;> cases h

/-- A sequence stays dense with the next request of a client, and with a repetition. -/
theorem Dense.snoc (h : Dense tag l)
    (hm : ∀ m, 1 ≤ m → m < (tag e).2 → ∃ e' ∈ l, tag e' = ((tag e).1, m)) :
    Dense tag (l ++ [e]) := by
  intro pre x post heq m h1 hlt
  rcases List.eq_nil_or_concat post with rfl | ⟨post', y, rfl⟩
  · obtain ⟨rfl, hx⟩ := List.append_inj' heq rfl
    obtain rfl : e = x := by simpa using hx
    exact hm m h1 hlt
  · rw [List.concat_eq_append, ← List.cons_append, ← List.append_assoc] at heq
    exact h pre x post' (List.append_inj' heq rfl).1 m h1 hlt

/-- Whoever has reached a number has made the requests up to there. -/
theorem Dense.exists_tag (h : Dense tag l) (hr : Reached tag l c t) (ht : 1 ≤ t) :
    ∃ e ∈ l, tag e = (c, t) := by
  obtain ⟨e, he, rfl, hle⟩ := hr
  rcases hle.eq_or_lt with rfl | hlt
  · exact ⟨e, he, rfl⟩
  · obtain ⟨pre, post, rfl⟩ := List.append_of_mem he
    obtain ⟨e', he', heq⟩ := h pre e post rfl t ht hlt
    exact ⟨e', List.mem_append_left _ he', heq⟩

/-- A dense sequence of numbers from `1` is sequential when tags determine the requests. -/
theorem Dense.sequential (h : Dense tag l) (hpos : ∀ e ∈ l, 1 ≤ (tag e).2)
    (hu : ∀ e ∈ l, ∀ e' ∈ l, tag e = tag e' → e = e') : Sequential tag l := by
  refine ⟨hu, fun pre e post heq e' he' hc hlt => ?_⟩
  obtain ⟨x, hx, htag⟩ := h pre e post heq (tag e').2 (hpos e' he') hlt
  have hxl : x ∈ l := heq ▸ List.mem_append_left _ hx
  obtain rfl : x = e' := hu x hxl e' he' (by rw [htag, ← hc])
  exact hx

end Session

end KvRaft
