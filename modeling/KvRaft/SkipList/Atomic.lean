import KvRaft.LTS.Basic
import KvRaft.LTS.Linearizable
import KvRaft.SkipList.Refinement

/-!
# Overlapping calls of the skip list

`search_element`, `insert_element` and `delete_element` are one critical section each.
`insert_set_element` is up to three: it searches, deletes a key that it has found, and inserts.  In
between the key is missing, and a call may come in whose insertion makes its own fail.

## Main definitions

* `Shared.machine` : calls are invoked at any time, and their sections are interleaved.
* `Shared.Spares` : the condition on a step.  No `search_element` and no `insert_element` comes for
  a key that is only missing because it is about to be overwritten, and an `insert_set_element` is
  refused by a key only after the key was overwritten or deleted since it was invoked.
* `Shared.Tracks` : the invariant.  The list stores the map that the calls so far leave, except for
  the keys that are about to be overwritten.

## Main results

* `Shared.linearizable` : the calls of every run whose steps meet the condition are linearizable.
* `Shared.not_linearizable` : without the condition they are not.
-/

namespace KvRaft

open SkipList

variable {K V : Type}

deriving instance DecidableEq for MapOp
deriving instance DecidableEq for MapResult

/-- How far a call has come. -/
inductive Stage (K V : Type) where
  | ready (op : MapOp K V)
  /-- `insert_set_element` has found the key. -/
  | deleting (key : K) (value : V) (heads : ℕ)
  /-- `insert_set_element` is about to insert. -/
  | inserting (key : K) (value : V) (heads : ℕ)
  | returned (op : MapOp K V) (result : MapResult V) (time : ℕ)

namespace Stage

/-- The operation that was called. -/
def op : Stage K V → MapOp K V
  | ready op => op
  | deleting key value heads => .insertSetElement key value heads
  | inserting key value heads => .insertSetElement key value heads
  | returned op _ _ => op

/-- The result and the time of the return. -/
def result : Stage K V → Option (MapResult V × ℕ)
  | returned _ r t => some (r, t)
  | _ => none

variable [LinearOrder K]

/-- The next critical section of a call, at time `now`. -/
def enter (now : ℕ) (s : SkipList K V) : Stage K V → Option (Stage K V × SkipList K V)
  | ready (.searchElement key) => do
    let (value, s) ← (s.searchElement key).toOption
    return (returned (.searchElement key) (.found value) now, s)
  | ready (.insertElement key value heads) => do
    let (isNew, s) ← (s.insertElement key value heads).toOption
    return (returned (.insertElement key value heads) (.inserted isNew) now, s)
  | ready (.deleteElement key) => do
    let (_, s) ← (s.deleteElement key).toOption
    return (returned (.deleteElement key) .done now, s)
  | ready (.insertSetElement key value heads) => do
    let (oldValue, s) ← (s.searchElement key).toOption
    match oldValue with
    | some _ => return (deleting key value heads, s)
    | none => return (inserting key value heads, s)
  | deleting key value heads => do
    let (_, s) ← (s.deleteElement key).toOption
    return (inserting key value heads, s)
  | inserting key value heads => do
    let (_, s) ← (s.insertElement key value heads).toOption
    return (returned (.insertSetElement key value heads) .done now, s)
  | returned .. => none

/-- The same section on a finite map. -/
def onMap (now : ℕ) (m : K → Option V) : Stage K V → Option (Stage K V × (K → Option V))
  | ready (.insertSetElement key value heads) =>
    some (if (m key).isSome then deleting key value heads else inserting key value heads, m)
  | ready op => some (returned op (op.onMap m).1 now, (op.onMap m).2)
  | deleting key value heads => some (inserting key value heads, Function.update m key none)
  | inserting key value heads =>
    some (returned (.insertSetElement key value heads) .done now,
      ((MapOp.insertElement key value heads).onMap m).2)
  | returned .. => none

end Stage

namespace SkipList

variable [LinearOrder K] {L : ℕ} {s : SkipList K V} {m : K → Option V}

theorem IsMap.insertElement_onMap (h : IsMap L s m) (key : K) (value : V) (heads : ℕ) :
    ∃ s', s.insertElement key value heads = .ok ((m key).isNone, s') ∧
      ((MapOp.insertElement key value heads).onMap m).1 = .inserted (m key).isNone ∧
      IsMap L s' ((MapOp.insertElement key value heads).onMap m).2 := by
  obtain ⟨s', heq, h'⟩ := h.insertElement key value heads
  refine ⟨s', heq, ?_, ?_⟩
  · cases hm : m key <;> simp [MapOp.onMap, hm]
  · cases hm : m key <;> simpa [MapOp.onMap, hm] using h'

/-- **A section does on the skip list what it does on the map**, and is never stuck. -/
theorem IsMap.enter (h : IsMap L s m) (now : ℕ) (stage : Stage K V) :
    stage.enter now s = none ∧ stage.onMap now m = none ∧ stage.result.isSome ∨
    ∃ s' stage' m', stage.enter now s = some (stage', s') ∧ stage.onMap now m = some (stage', m') ∧
      IsMap L s' m' := by
  cases stage with
  | ready op =>
    right
    cases op with
    | insertElement key value heads =>
      obtain ⟨s', heq, hres, h'⟩ := h.insertElement_onMap key value heads
      exact ⟨s', .returned _ (.inserted (m key).isNone) now, _,
        by simp [Stage.enter, heq, Except.toOption],
        congrArg (fun r => some (Stage.returned _ r now, _)) hres, h'⟩
    | insertSetElement key value heads =>
      obtain ⟨s', heq, h'⟩ := h.searchElement key
      refine ⟨s', _, m, ?_, rfl, h'⟩
      cases hm : m key <;> simp [Stage.enter, heq, Except.toOption, hm]
    | deleteElement key =>
      obtain ⟨s', heq, h'⟩ := h.deleteElement key
      exact ⟨s', .returned _ .done now, _, by simp [Stage.enter, heq, Except.toOption], rfl, h'⟩
    | searchElement key =>
      obtain ⟨s', heq, h'⟩ := h.searchElement key
      exact ⟨s', .returned _ (.found (m key)) now, _,
        by simp [Stage.enter, heq, Except.toOption], rfl, h'⟩
  | deleting key value heads =>
    obtain ⟨s', heq, h'⟩ := h.deleteElement key
    exact Or.inr ⟨s', _, _, by simp [Stage.enter, heq, Except.toOption], rfl, h'⟩
  | inserting key value heads =>
    obtain ⟨s', heq, -, h'⟩ := h.insertElement_onMap key value heads
    exact Or.inr ⟨s', _, _, by simp [Stage.enter, heq, Except.toOption], rfl, h'⟩
  | returned op r t => exact Or.inl ⟨rfl, rfl, rfl⟩

/-- Is the key in the list? -/
def has (s : SkipList K V) (key : K) : Bool :=
  match s.searchElement key with
  | .ok (some _, _) => true
  | _ => false

theorem IsMap.has_eq (h : IsMap L s m) (key : K) : s.has key = (m key).isSome := by
  obtain ⟨s', heq, -⟩ := h.searchElement key
  cases hm : m key <;> simp [has, heq, hm]

end SkipList

/-! ### The machine -/

/-- A call, invoked at some time. -/
structure Invocation (K V : Type) where
  invoked : ℕ
  stage : Stage K V

def Invocation.record (c : Invocation K V) : CallRecord (MapOp K V) (MapResult V) :=
  ⟨c.stage.op, c.invoked, c.stage.result⟩

/-- A skip list and the calls of its users so far.  The last two fields are a record of what has
happened, which the list does not have. -/
structure Shared (K V : Type) where
  list : SkipList K V
  calls : List (Invocation K V)
  clock : ℕ
  /-- The key was removed to be overwritten, and neither inserted nor deleted since. -/
  taken : K → Bool
  /-- When the key was last overwritten or deleted. -/
  replaced : K → ℕ

inductive SharedAction (K V : Type) where
  | call (op : MapOp K V)
  /-- Call `k` goes through its next section. -/
  | enter (k : ℕ)

/-- The operation overwrites or deletes the key. -/
def MapOp.Replaces (key : K) : MapOp K V → Prop
  | insertSetElement key' _ _ => key' = key
  | deleteElement key' => key' = key
  | _ => False

namespace Stage

variable [LinearOrder K]

/-- The record `taken` after a section; `present` says which keys the list had before. -/
def takes (present : K → Bool) (taken : K → Bool) : Stage K V → K → Bool
  | ready (.insertElement key _ _) => Function.update taken key false
  | ready (.deleteElement key) => Function.update taken key false
  | deleting key _ _ => Function.update taken key (taken key || present key)
  | inserting key _ _ => Function.update taken key false
  | _ => taken

/-- The record `replaced` after a section at time `now`. -/
def replaces (present : K → Bool) (now : ℕ) (replaced : K → ℕ) : Stage K V → K → ℕ
  | ready (.deleteElement key) => Function.update replaced key now
  | inserting key _ _ => if present key then replaced else Function.update replaced key now
  | _ => replaced

end Stage

namespace Shared

/-- A list that nobody has used yet. -/
def init (list : SkipList K V) : Shared K V where
  list := list
  calls := []
  clock := 0
  taken _ := false
  replaced _ := 0

/-- The calls as their callers see them. -/
def history (s : Shared K V) : List (CallRecord (MapOp K V) (MapResult V)) :=
  s.calls.map Invocation.record

variable [LinearOrder K]

/-- The next section of call `k`. -/
def enter (s : Shared K V) (k : ℕ) : Option (Shared K V) := do
  let c ← s.calls[k]?
  let (stage, list) ← c.stage.enter s.clock s.list
  return {
    list := list
    calls := s.calls.set k { c with stage := stage }
    clock := s.clock + 1
    taken := c.stage.takes s.list.has s.taken
    replaced := c.stage.replaces s.list.has s.clock s.replaced }

/-- Calls come at any time, and their sections in any order. -/
def machine (K V : Type) [LinearOrder K] : Machine (Shared K V) (SharedAction K V) where
  step s
    | .call op => some { s with
        calls := s.calls ++ [⟨s.clock, .ready op⟩]
        clock := s.clock + 1 }
    | .enter k => s.enter k

/-- **The condition on a step**: no search and no plain insertion of a key that is taken, and no
refused `insert_set_element` but one that another operation has made up for. -/
def Spares (s : Shared K V) : SharedAction K V → Prop
  | .call _ => True
  | .enter k => match s.calls[k]? with
    | some ⟨_, .ready (.searchElement key)⟩ => s.taken key = false
    | some ⟨_, .ready (.insertElement key _ _)⟩ => s.taken key = false
    | some ⟨t, .inserting key _ _⟩ => s.list.has key = true → t < s.replaced key
    | _ => True

instance (s : Shared K V) (a : SharedAction K V) : Decidable (s.Spares a) := by
  unfold Spares
  repeat' split
  all_goals infer_instance

/-! ### The invariant -/

/-- The list while some keys are taken. -/
def view (taken : K → Bool) (M : K → Option V) : K → Option V :=
  fun key => if taken key then none else M key

/-- Some call is about to insert the key. -/
def Held (calls : List (Invocation K V)) (key : K) : Prop :=
  ∃ (j t : ℕ) (value : V) (heads : ℕ), calls[j]? = some ⟨t, .inserting key value heads⟩

/-- The point of an operation that overwrites or deletes the key. -/
def ReplacedAt (history : List (CallRecord (MapOp K V) (MapResult V)))
    (points : List (Point (MapResult V))) (key : K) (time : ℕ) : Prop :=
  ∃ p ∈ points, p.time = time ∧ ∃ c, history[p.call]? = some c ∧ c.op.Replaces key

/-- **The list stores the map that the calls leave**, except for the keys that are taken. -/
structure Tracks (L : ℕ) (s : Shared K V) (points : List (Point (MapResult V)))
    (M : K → Option V) : Prop where
  list : IsMap L s.list (view s.taken M)
  linearizes : Linearizes MapOp.onMap s.history s.clock (fun _ => none) points M
  invoked_lt : ∀ c ∈ s.calls, c.invoked < s.clock
  taken : ∀ key, s.taken key = true → (M key).isSome ∧ Held s.calls key
  replaced : ∀ key, 0 < s.replaced key → ReplacedAt s.history points key (s.replaced key)

section View

variable {taken : K → Bool} {M : K → Option V} {key : K}

omit [LinearOrder K] in
theorem view_of_false (h : taken key = false) : view taken M key = M key := by simp [view, h]

/-- A key that is written is not taken. -/
theorem view_update (taken : K → Bool) (M : K → Option V) (key : K) (x : Option V) :
    view (Function.update taken key false) (Function.update M key x) =
      Function.update (view taken M) key x := by
  funext k
  rcases eq_or_ne k key with rfl | hk
  · simp [view]
  · simp [view, hk]

theorem view_update_of_false (h : taken key = false) :
    view (Function.update taken key false) M = view taken M := by
  rw [Function.update_eq_self_iff.2 h.symm]

/-- A key that is removed in order to be overwritten. -/
theorem view_take (taken : K → Bool) (M : K → Option V) (key : K) :
    view (Function.update taken key (taken key || (view taken M key).isSome)) M =
      Function.update (view taken M) key none := by
  funext k
  rcases eq_or_ne k key with rfl | hk
  · cases ht : taken k <;> cases hM : M k <;> simp [view, ht, hM]
  · simp [view, hk]

end View

variable {L : ℕ} {s s' : Shared K V} {points : List (Point (MapResult V))} {M M' : K → Option V}
  {k t : ℕ} {stage stage' : Stage K V} {list' : SkipList K V} {taken' : K → Bool}
  {replaced' : K → ℕ}

omit [LinearOrder K] in
theorem Held.set {calls : List (Invocation K V)} {key : K} (h : Held calls key)
    (hk : calls[k]? = some ⟨t, stage⟩)
    (hne : ∀ value heads, stage ≠ .inserting key value heads) (c : Invocation K V) :
    Held (calls.set k c) key := by
  obtain ⟨j, t', value, heads, hj⟩ := h
  refine ⟨j, t', value, heads, ?_⟩
  rw [List.getElem?_set_ne, hj]
  rintro rfl
  exact hne value heads (congrArg Invocation.stage (Option.some.inj (hk.symm.trans hj)))

omit [LinearOrder K] in
theorem ReplacedAt.mono {calls calls' : List (CallRecord (MapOp K V) (MapResult V))}
    {points' : List (Point (MapResult V))} {key : K} {time : ℕ}
    (h : ReplacedAt calls points key time) (he : Extends calls calls') (hp : points ⊆ points') :
    ReplacedAt calls' points' key time := by
  obtain ⟨p, hmem, htime, c, hc, hr⟩ := h
  obtain ⟨c', hc', hop, -⟩ := he _ _ hc
  exact ⟨p, hp hmem, htime, c', hc', hop ▸ hr⟩

omit [LinearOrder K] in
theorem history_get (hk : s.calls[k]? = some ⟨t, stage⟩) (hres : stage.result = none) :
    s.history[k]? = some ⟨stage.op, t, none⟩ := by
  rw [history, List.getElem?_map, hk]
  simp [Invocation.record, hres]

/-- The calls after a section. -/
theorem Tracks.invoked_set (h : s.Tracks L points M) (hk : s.calls[k]? = some ⟨t, stage⟩)
    (stage' : Stage K V) : ∀ c ∈ s.calls.set k ⟨t, stage'⟩, c.invoked < s.clock + 1 := by
  intro c hc
  rcases List.mem_or_eq_of_mem_set hc with hc | rfl
  · exact (h.invoked_lt c hc).trans (Nat.lt_succ_self _)
  · exact (h.invoked_lt _ (List.mem_of_getElem? hk)).trans (Nat.lt_succ_self _)

/-- A section after which the call has not returned. -/
theorem Tracks.goesOn (h : s.Tracks L points M) (hk : s.calls[k]? = some ⟨t, stage⟩)
    (hres : stage.result = none) (hop : stage'.op = stage.op) (hres' : stage'.result = none)
    (hlist : IsMap L list' (view taken' M))
    (htaken : ∀ key, taken' key = true → (M key).isSome ∧ Held (s.calls.set k ⟨t, stage'⟩) key) :
    Tracks L ⟨list', s.calls.set k ⟨t, stage'⟩, s.clock + 1, taken', s.replaced⟩ points M := by
  have hhistory : (s.calls.set k ⟨t, stage'⟩).map Invocation.record = s.history := by
    have hget := history_get hk hres
    have hlt := (List.getElem?_eq_some_iff.1 hget).1
    rw [List.map_set, Invocation.record, hop, hres']
    refine List.ext_getElem? fun j => ?_
    rcases eq_or_ne k j with rfl | hne
    · rw [hget]
      exact List.getElem?_set_self hlt
    · rw [List.getElem?_set_ne hne]
      rfl
  refine ⟨hlist, ?_, h.invoked_set hk stage', htaken, fun key hpos => ?_⟩
  · simp only [history, hhistory]
    exact h.linearizes.later (Nat.le_succ _)
  · simp only [history, hhistory]
    exact h.replaced key hpos

/-- A section with which the call takes effect. -/
theorem Tracks.returns (h : s.Tracks L points M) (hk : s.calls[k]? = some ⟨t, stage⟩)
    (hres : stage.result = none) {r : MapResult V} (hstep : stage.op.onMap M = (r, M'))
    (hlist : IsMap L list' (view taken' M'))
    (htaken : ∀ key, taken' key = true → (M' key).isSome ∧
      Held (s.calls.set k ⟨t, .returned stage.op r s.clock⟩) key)
    (hreplaced : ∀ key, replaced' key = s.replaced key ∨
      replaced' key = s.clock ∧ stage.op.Replaces key) :
    Tracks L ⟨list', s.calls.set k ⟨t, .returned stage.op r s.clock⟩, s.clock + 1, taken',
      replaced'⟩ (points ++ [⟨k, r, s.clock⟩]) M' := by
  have hget := history_get hk hres
  have hext := extends_set hget (some (r, s.clock))
  have hhistory : (s.calls.set k ⟨t, .returned stage.op r s.clock⟩).map Invocation.record =
      s.history.set k ⟨stage.op, t, some (r, s.clock)⟩ := List.map_set
  have ht := h.invoked_lt _ (List.mem_of_getElem? hk)
  refine ⟨hlist, ?_, h.invoked_set hk _, htaken, fun key hpos => ?_⟩
  · simp only [history, hhistory]
    exact h.linearizes.effect hget ht.le hstep
  · simp only [history, hhistory] at hpos ⊢
    rcases hreplaced key with hold | ⟨hnew, hr⟩
    · rw [hold] at hpos ⊢
      exact (h.replaced key hpos).mono hext (List.subset_append_left _ _)
    · obtain ⟨c', hc', hop, -⟩ := hext _ _ hget
      exact ⟨⟨k, r, s.clock⟩, by simp, hnew.symm, c', hc', hop ▸ hr⟩

omit [LinearOrder K] in
/-- An operation that overwrites or deletes a key hides an `insert_set_element` before it. -/
theorem absorbed [DecidableEq K] {op' : MapOp K V} {key : K} (h : op'.Replaces key) (value : V)
    (heads : ℕ) : Absorbed MapOp.onMap (.insertSetElement key value heads) .done op' := by
  intro m
  refine ⟨rfl, ?_⟩
  cases op' with
  | insertSetElement key' value' heads' | deleteElement key' =>
    obtain rfl : key' = key := h
    simp [MapOp.onMap]
  | insertElement | searchElement => cases h

/-- An insertion that is refused. -/
theorem Tracks.refused (h : s.Tracks L points M) {key : K} {value : V} {heads : ℕ}
    (hk : s.calls[k]? = some ⟨t, .inserting key value heads⟩) (hlt : t < s.replaced key)
    (hfalse : s.taken key = false) (hlist : IsMap L list' (view s.taken M)) :
    ∃ points', Tracks L ⟨list', s.calls.set k
        ⟨t, .returned (.insertSetElement key value heads) .done s.clock⟩, s.clock + 1, s.taken,
        s.replaced⟩ points' M := by
  have hget := history_get hk rfl
  have hext := extends_set hget (some (.done, s.clock))
  have hhistory : (s.calls.set k ⟨t, .returned (.insertSetElement key value heads) .done
      s.clock⟩).map Invocation.record = s.history.set k
        ⟨.insertSetElement key value heads, t, some (.done, s.clock)⟩ := List.map_set
  obtain ⟨p, hp, htime, c, hc, hr⟩ := h.replaced key (by omega)
  obtain ⟨points', hlin, hsub⟩ := h.linearizes.effectBefore hget hp (by omega) hc
    (absorbed hr value heads)
  refine ⟨points', hlist, ?_, h.invoked_set hk _, fun key' ht => ?_, fun key' hpos => ?_⟩
  · simp only [history, hhistory]
    exact hlin
  · obtain ⟨hsome, hheld⟩ := h.taken key' ht
    refine ⟨hsome, hheld.set hk ?_ _⟩
    rintro value' heads' heq
    obtain ⟨rfl, -⟩ := Stage.inserting.inj heq
    rw [hfalse] at ht
    cases ht
  · simp only [history, hhistory] at hpos ⊢
    exact (h.replaced key' hpos).mono hext hsub

/-! ### Steps and runs -/

theorem enter_eq (h : s.enter k = some s') : ∃ t stage stage' list',
    s.calls[k]? = some ⟨t, stage⟩ ∧ stage.enter s.clock s.list = some (stage', list') ∧
      s' = ⟨list', s.calls.set k ⟨t, stage'⟩, s.clock + 1, stage.takes s.list.has s.taken,
        stage.replaces s.list.has s.clock s.replaced⟩ := by
  obtain ⟨⟨t, stage⟩, hk, h⟩ := Option.bind_eq_some_iff.1 h
  obtain ⟨⟨stage', list'⟩, hs, h⟩ := Option.bind_eq_some_iff.1 h
  exact ⟨t, stage, stage', list', hk, hs, (Option.some.inj h).symm⟩

/-- A section on a list that stores a map. -/
theorem section_eq {m : K → Option V} (hlist : IsMap L s.list m)
    (hk : s.calls[k]? = some ⟨t, stage⟩) (h : s.enter k = some s') :
    ∃ stage' m', stage.onMap s.clock m = some (stage', m') ∧
      IsMap L s'.list m' ∧ s' = ⟨s'.list, s.calls.set k ⟨t, stage'⟩, s.clock + 1,
        stage.takes s.list.has s.taken, stage.replaces s.list.has s.clock s.replaced⟩ := by
  obtain ⟨t', stage₁, stage', list', hk', hs, rfl⟩ := enter_eq h
  obtain ⟨rfl, rfl⟩ := Invocation.mk.inj (Option.some.inj (hk.symm.trans hk'))
  rcases hlist.enter s.clock stage with ⟨hnone, -⟩ | ⟨list₁, stage₁, m', heq, hmap, h'⟩
  · rw [hnone] at hs
    cases hs
  · obtain ⟨rfl, rfl⟩ := Prod.mk.inj (Option.some.inj (heq.symm.trans hs))
    exact ⟨_, m', hmap, h', rfl⟩

/-- The list stores a map in every reachable state, whatever the sections observe. -/
theorem isMap_of_reachable {list : SkipList K V} (h₀ : IsMap L list fun _ => none)
    (h : (machine K V).Reachable (init list) s) : ∃ m, IsMap L s.list m := by
  refine h.invariant (I := fun s => ∃ m, IsMap L s.list m) ⟨_, h₀⟩ ?_
  rintro s a s' ⟨m, hm⟩ - hst
  cases a with
  | call op =>
    obtain rfl := Option.some.inj hst
    exact ⟨m, hm⟩
  | enter k =>
    obtain ⟨t, stage, -, -, hk, -⟩ := enter_eq hst
    obtain ⟨-, m', -, h', -⟩ := section_eq hm hk hst
    exact ⟨m', h'⟩

/-- **No section is stuck**: a call that has not returned goes on. -/
theorem enter_isSome {m : K → Option V} (hlist : IsMap L s.list m)
    (hk : s.calls[k]? = some ⟨t, stage⟩) (hres : stage.result = none) : (s.enter k).isSome := by
  rcases hlist.enter s.clock stage with ⟨-, -, hr⟩ | ⟨list', stage', -, heq, -⟩
  · rw [hres] at hr
    cases hr
  · simp [enter, hk, heq]

theorem Tracks.call (h : s.Tracks L points M) (op : MapOp K V) :
    Tracks L { s with
      calls := s.calls ++ [⟨s.clock, .ready op⟩]
      clock := s.clock + 1 } points M where
  list := h.list
  linearizes := by
    have hnew := (h.linearizes.invoke op s.clock).later (Nat.le_succ _)
    simpa [history, Invocation.record, Stage.op, Stage.result] using hnew
  invoked_lt c hc := by
    rcases List.mem_append.1 hc with hc | hc
    · exact (h.invoked_lt c hc).trans (Nat.lt_succ_self _)
    · rw [List.mem_singleton.1 hc]
      exact Nat.lt_succ_self _
  taken key ht := by
    obtain ⟨hsome, j, t, value, heads, hj⟩ := h.taken key ht
    have hlt := (List.getElem?_eq_some_iff.1 hj).1
    exact ⟨hsome, j, t, value, heads, by rw [List.getElem?_append_left hlt, hj]⟩
  replaced key hpos := by
    refine (h.replaced key hpos).mono ?_ (List.Subset.refl _)
    rw [history, history, List.map_append]
    exact extends_append _

/-- The keys that are taken after a section that settles one key. -/
theorem Tracks.settle (h : s.Tracks L points M) (hk : s.calls[k]? = some ⟨t, stage⟩) {key : K}
    (hother : ∀ key' ≠ key, ∀ value heads, stage ≠ .inserting key' value heads)
    (hM : ∀ key' ≠ key, M' key' = M key') (c : Invocation K V) :
    ∀ key', Function.update s.taken key false key' = true →
      (M' key').isSome ∧ Held (s.calls.set k c) key' := by
  intro key' ht
  rcases eq_or_ne key' key with rfl | hne
  · simp at ht
  · rw [Function.update_of_ne hne] at ht
    obtain ⟨hsome, hheld⟩ := h.taken key' ht
    exact ⟨hM key' hne ▸ hsome, hheld.set hk (hother key' hne) c⟩

/-- An insertion of a key that is not taken. -/
theorem insertElement_view {taken : K → Bool} {key : K} (h : taken key = false) (value : V)
    (heads : ℕ) : (MapOp.insertElement key value heads).onMap (view taken M) =
      (((MapOp.insertElement key value heads).onMap M).1,
        view (Function.update taken key false)
          ((MapOp.insertElement key value heads).onMap M).2) := by
  cases hM : M key with
  | none => simp only [MapOp.onMap, view_of_false h, hM, view_update]
  | some old => simp only [MapOp.onMap, view_of_false h, hM, view_update_of_false h]

theorem insertElement_of_ne {key key' : K} (hne : key' ≠ key) (value : V) (heads : ℕ) :
    ((MapOp.insertElement key value heads).onMap M).2 key' = M key' := by
  cases hM : M key <;> simp [MapOp.onMap, hM, hne]

/-- Operations that are one section. -/
theorem Tracks.ready (h : s.Tracks L points M) {op : MapOp K V}
    (hk : s.calls[k]? = some ⟨t, .ready op⟩) (hg : s.Spares (.enter k))
    (hst : s.enter k = some s') (hop : ∀ key value heads, op ≠ .insertSetElement key value heads) :
    ∃ points' M', s'.Tracks L points' M' := by
  obtain ⟨stage', m', hmap, hlist, hs'⟩ := section_eq h.list hk hst
  simp only [Spares, hk] at hg
  rw [hs']
  cases op with
  | insertElement key value heads =>
    obtain ⟨rfl, rfl⟩ := Prod.mk.inj (Option.some.inj hmap)
    have hview := insertElement_view (M := M) hg value heads
    rw [congrArg Prod.snd hview] at hlist
    rw [congrArg Prod.fst hview]
    exact ⟨_, _, h.returns hk rfl rfl hlist
      (h.settle hk (by simp) (fun key' hne => insertElement_of_ne hne value heads) _)
      fun _ => Or.inl rfl⟩
  | deleteElement key =>
    obtain ⟨rfl, rfl⟩ := Prod.mk.inj (Option.some.inj hmap)
    rw [MapOp.onMap, ← view_update] at hlist
    refine ⟨_, _, h.returns hk rfl rfl hlist
      (h.settle hk (by simp) (fun key' hne => Function.update_of_ne hne _ _) _) fun key' => ?_⟩
    rcases eq_or_ne key' key with rfl | hne
    · exact Or.inr ⟨Function.update_self .., rfl⟩
    · exact Or.inl (Function.update_of_ne hne _ _)
  | searchElement key =>
    obtain ⟨rfl, rfl⟩ := Prod.mk.inj (Option.some.inj hmap)
    rw [MapOp.onMap, view_of_false hg]
    refine ⟨_, _, h.returns hk rfl rfl hlist (fun key' ht => ?_) fun _ => Or.inl rfl⟩
    obtain ⟨hsome, hheld⟩ := h.taken key' ht
    exact ⟨hsome, hheld.set hk (by simp) _⟩
  | insertSetElement key value heads => exact absurd rfl (hop key value heads)

/-- The sections of `insert_set_element` before the last one. -/
theorem Tracks.searched (h : s.Tracks L points M) {key : K} {value : V} {heads : ℕ}
    (hk : s.calls[k]? = some ⟨t, .ready (.insertSetElement key value heads)⟩)
    (hst : s.enter k = some s') : s'.Tracks L points M := by
  obtain ⟨stage', m', hmap, hlist, hs'⟩ := section_eq h.list hk hst
  obtain ⟨hstage, rfl⟩ := Prod.mk.inj (Option.some.inj hmap)
  rw [hs']
  have htaken : ∀ key', s.taken key' = true → (M key').isSome ∧
      Held (s.calls.set k ⟨t, stage'⟩) key' := by
    intro key' ht
    obtain ⟨hsome, hheld⟩ := h.taken key' ht
    exact ⟨hsome, hheld.set hk nofun _⟩
  subst hstage
  refine h.goesOn hk rfl ?_ ?_ hlist htaken <;> split_ifs <;> rfl

theorem Tracks.deleted (h : s.Tracks L points M) {key : K} {value : V} {heads : ℕ}
    (hk : s.calls[k]? = some ⟨t, .deleting key value heads⟩) (hst : s.enter k = some s') :
    s'.Tracks L points M := by
  obtain ⟨stage', m', hmap, hlist, hs'⟩ := section_eq h.list hk hst
  obtain ⟨rfl, rfl⟩ := Prod.mk.inj (Option.some.inj hmap)
  have hhas := h.list.has_eq key
  have hlt := (List.getElem?_eq_some_iff.1 hk).1
  rw [← view_take, ← hhas] at hlist
  rw [hs']
  refine h.goesOn hk rfl rfl rfl hlist fun key' ht => ?_
  rcases eq_or_ne key' key with rfl | hne
  · -- the call itself holds the key
    refine ⟨?_, k, t, value, heads, List.getElem?_set_self hlt⟩
    by_cases hold : s.taken key' = true
    · exact (h.taken key' hold).1
    · simpa [Stage.takes, hhas, view, hold] using ht
  · rw [Stage.takes, Function.update_of_ne hne] at ht
    obtain ⟨hsome, hheld⟩ := h.taken key' ht
    exact ⟨hsome, hheld.set hk nofun _⟩

/-- The last section of `insert_set_element`. -/
theorem Tracks.inserted (h : s.Tracks L points M) {key : K} {value : V} {heads : ℕ}
    (hk : s.calls[k]? = some ⟨t, .inserting key value heads⟩) (hg : s.Spares (.enter k))
    (hst : s.enter k = some s') : ∃ points' M', s'.Tracks L points' M' := by
  obtain ⟨stage', m', hmap, hlist, hs'⟩ := section_eq h.list hk hst
  obtain ⟨rfl, rfl⟩ := Prod.mk.inj (Option.some.inj hmap)
  simp only [Spares, hk] at hg
  have hhas := h.list.has_eq key
  rw [hs']
  cases hm : view s.taken M key with
  | none =>
    rw [hm] at hhas
    simp only [MapOp.onMap, hm] at hlist
    rw [← view_update] at hlist
    have hother : ∀ key' ≠ key, ∀ value' heads',
        Stage.inserting key value heads ≠ .inserting key' value' heads' :=
      fun key' hne value' heads' heq => hne (Stage.inserting.inj heq).1.symm
    refine ⟨_, _, h.returns hk rfl rfl hlist
      (h.settle hk hother (fun key' hne => Function.update_of_ne hne _ _) _) fun key' => ?_⟩
    simp only [Stage.replaces, hhas]
    rcases eq_or_ne key' key with rfl | hne
    · exact Or.inr ⟨Function.update_self .., rfl⟩
    · exact Or.inl (Function.update_of_ne hne _ _)
  | some old =>
    rw [hm] at hhas
    have hfalse : s.taken key = false := by
      rw [view] at hm
      split_ifs at hm with ht
      exact Bool.eq_false_iff.2 ht
    simp only [MapOp.onMap, hm] at hlist
    have htakes : Stage.takes s.list.has s.taken (.inserting key value heads) = s.taken :=
      (Function.update_eq_self_iff.2 hfalse.symm)
    obtain ⟨points', h'⟩ := h.refused hk (hg hhas) hfalse hlist
    refine ⟨points', M, ?_⟩
    simp only [htakes, Stage.replaces, hhas, Option.isSome_some, if_true]
    exact h'

/-- **Every step that meets the condition keeps track.** -/
theorem Tracks.step (h : s.Tracks L points M) {a : SharedAction K V} (hg : s.Spares a)
    (hst : (machine K V).step s a = some s') : ∃ points' M', s'.Tracks L points' M' := by
  cases a with
  | call op =>
    obtain rfl := Option.some.inj hst
    exact ⟨points, M, h.call op⟩
  | enter k =>
    obtain ⟨t, stage, _, _, hk, hs, -⟩ := enter_eq hst
    cases stage with
    | ready op =>
      by_cases hop : ∃ key value heads, op = .insertSetElement key value heads
      · obtain ⟨key, value, heads, rfl⟩ := hop
        exact ⟨points, M, h.searched hk hst⟩
      · exact h.ready hk hg hst fun key value heads heq => hop ⟨key, value, heads, heq⟩
    | deleting key value heads => exact ⟨points, M, h.deleted hk hst⟩
    | inserting key value heads => exact h.inserted hk hg hst
    | returned => cases hs

theorem tracks_init {list : SkipList K V} (h : IsMap L list fun _ => none) :
    (init list).Tracks L [] fun _ => none where
  list := h
  linearizes := .nil _
  invoked_lt _ hc := by cases hc
  taken _ ht := by cases ht
  replaced _ hpos := absurd hpos (lt_irrefl 0)

/-- **Calls are linearizable** in every run whose steps meet the condition: they have the results of
a sequential order of whole operations on a map, which keeps to real time; and when no call is
under way, the list stores the map that this order leaves. -/
theorem linearizable (L : ℕ) (k₀ : K) (v₀ : V)
    (h : (machine K V).Reaches Spares (init (create L k₀ v₀)) s) :
    ∃ order M, IsSequentialOrder MapOp.onMap s.history (fun _ => none) order M ∧
      ((∀ c ∈ s.calls, c.stage.result.isSome) → IsMap L s.list M) := by
  obtain ⟨points, M, htracks⟩ := h.invariant (I := fun s => ∃ points M, s.Tracks L points M)
    ⟨[], _, tracks_init (isMap_create L k₀ v₀)⟩ fun s a s' ⟨_, _, ht⟩ hg hst => ht.step hg hst
  refine ⟨_, M, htracks.linearizes.isSequentialOrder, fun hdone => ?_⟩
  have hnone : ∀ key, s.taken key = false := by
    intro key
    refine Bool.eq_false_iff.2 fun ht => ?_
    obtain ⟨-, j, t, value, heads, hj⟩ := htracks.taken key ht
    cases hdone _ (List.mem_of_getElem? hj)
  have hview : view s.taken M = M := funext fun key => view_of_false (hnone key)
  exact hview ▸ htracks.list

/-- Set key `1`, and overwrite it twice at once.  The second overwriting call comes between the
sections of the first, whose insertion is refused. -/
def overlappingRun : List (SharedAction ℕ ℕ) :=
  [.call (.insertSetElement 1 1 0), .enter 0, .enter 0, .call (.insertSetElement 1 2 0), .enter 1,
    .call (.insertSetElement 1 3 0), .enter 1, .enter 2, .enter 2, .enter 1,
    .call (.searchElement 1), .enter 3]

theorem linearizable_overlappingRun :
    ∃ s, (machine ℕ ℕ).runWhere Spares (init (create 6 0 0)) overlappingRun = some s ∧
      s.calls.map (·.stage.result) = [some (.done, 2), some (.done, 9), some (.done, 8),
        some (.found (some 3), 11)] ∧
      ∃ order M, IsSequentialOrder MapOp.onMap s.history (fun _ => none) order M ∧
        ((∀ c ∈ s.calls, c.stage.result.isSome) → IsMap 6 s.list M) := by
  have h : ((machine ℕ ℕ).runWhere Spares (init (create 6 0 0)) overlappingRun).map
      (fun s => s.calls.map (·.stage.result)) = some [some (.done, 2), some (.done, 9),
        some (.done, 8), some (.found (some 3), 11)] := by decide +kernel
  obtain ⟨s, hs, hresults⟩ := Option.map_eq_some_iff.1 h
  exact ⟨s, hs, hresults, linearizable 6 0 0 (Machine.reaches_of_runWhere hs)⟩

/-! ### A key that goes missing -/

theorem onMap_isSome {op : MapOp K V} {m : K → Option V} {key : K} (hop : op ≠ .deleteElement key)
    (hm : (m key).isSome) : ((op.onMap m).2 key).isSome := by
  cases op with
  | insertElement key' value heads =>
    by_cases hk : key = key'
    · subst hk
      obtain ⟨old, hold⟩ := Option.isSome_iff_exists.1 hm
      simp [MapOp.onMap, hold]
    · rwa [insertElement_of_ne hk]
  | insertSetElement key' value heads =>
    by_cases hk : key = key' <;> simp [MapOp.onMap, hk, hm]
  | deleteElement key' =>
    have hk : key ≠ key' := fun hk => hop (hk ▸ rfl)
    simpa [MapOp.onMap, hk] using hm
  | searchElement key' => exact hm

theorem legal_isSome {calls : List (CallRecord (MapOp K V) (MapResult V))} {key : K}
    (hno : ∀ c ∈ calls, c.op ≠ .deleteElement key) {order : List (ℕ × MapResult V)}
    {m m' : K → Option V} (h : Legal MapOp.onMap calls m order m') (hm : (m key).isSome) :
    (m' key).isSome := by
  induction order generalizing m with
  | nil => exact h ▸ hm
  | cons p order ih =>
    obtain ⟨c, hc, -, h⟩ := h
    exact ih h (onMap_isSome (hno c (List.mem_of_getElem? hc)) hm)

/-- **A key that is only overwritten is never reported missing**, when calls are linearizable. -/
theorem found_of_overwritten {calls : List (CallRecord (MapOp K V) (MapResult V))} {key : K}
    (hlin : Linearizable MapOp.onMap calls fun _ => none)
    (hno : ∀ c ∈ calls, c.op ≠ .deleteElement key) {i j : ℕ} {value : V} {heads t₀ t₁ t₂ t₃ : ℕ}
    {r : MapResult V} {x : Option V}
    (hi : calls[i]? = some ⟨.insertSetElement key value heads, t₀, some (r, t₁)⟩)
    (hj : calls[j]? = some ⟨.searchElement key, t₂, some (.found x, t₃)⟩) (hlt : t₁ < t₂) :
    x.isSome := by
  obtain ⟨order, M, h⟩ := hlin
  obtain ⟨before, rest, horder⟩ := List.append_of_mem (h.complete i _ r t₁ hi rfl)
  have hreal := h.realTime
  have hlegal := h.legal
  have hmem := h.complete j _ (.found x) t₃ hj rfl
  rw [horder] at hreal hlegal hmem
  have hj' : (j, MapResult.found x) ∈ rest := by
    rcases List.mem_append.1 hmem with hbefore | hrest
    · have hle :=
        (List.pairwise_append.1 hreal).2.2 _ hbefore _ List.mem_cons_self _ _ r t₁ hj hi rfl
      exact absurd hlt (not_lt.2 hle)
    rcases List.mem_cons.1 hrest with heq | hrest
    · obtain ⟨rfl, -⟩ := Prod.mk.inj heq
      cases Option.some.inj (hi.symm.trans hj)
    · exact hrest
  obtain ⟨between, rest', rfl⟩ := List.append_of_mem hj'
  obtain ⟨m₁, -, c, hc, -, hafter⟩ := legal_append.1 hlegal
  obtain ⟨m₂, hbetween, d, hd, hres, -⟩ := legal_append.1 hafter
  obtain rfl := Option.some.inj (hi.symm.trans hc)
  obtain rfl := Option.some.inj (hj.symm.trans hd)
  have hsome := legal_isSome hno hbetween (by simp [MapOp.onMap])
  exact MapResult.found.inj hres ▸ hsome

/-- A search comes between the sections of a call that overwrites the key. -/
def missingRun : List (SharedAction ℕ ℕ) :=
  [.call (.insertSetElement 1 1 0), .enter 0, .enter 0, .call (.insertSetElement 1 2 0), .enter 1,
    .enter 1, .call (.searchElement 1), .enter 2]

/-- The key that was set, and is overwritten, is reported missing. -/
theorem not_linearizable : ¬ ∀ s, (machine ℕ ℕ).Reachable (init (create 6 0 0)) s →
    Linearizable MapOp.onMap s.history fun _ => none := by
  intro hall
  have h : ((machine ℕ ℕ).run (init (create 6 0 0)) missingRun).map
      (fun s => decide (s.calls.map (fun c => (c.stage.op, c.invoked, c.stage.result)) =
        [(.insertSetElement 1 1 0, 0, some (.done, 2)), (.insertSetElement 1 2 0, 3, none),
          (.searchElement 1, 6, some (.found none, 7))])) = some true := by decide +kernel
  obtain ⟨s, hs, hcalls⟩ := Option.map_eq_some_iff.1 h
  have hhistory : s.history = [⟨.insertSetElement 1 1 0, 0, some (.done, 2)⟩,
      ⟨.insertSetElement 1 2 0, 3, none⟩, ⟨.searchElement 1, 6, some (.found none, 7)⟩] := by
    have hmap := congrArg (List.map fun p => (⟨p.1, p.2.1, p.2.2⟩ :
      CallRecord (MapOp ℕ ℕ) (MapResult ℕ))) (of_decide_eq_true hcalls)
    rwa [List.map_map] at hmap
  have hlin := hall s (Machine.reachable_of_run hs)
  rw [hhistory] at hlin
  have hfound := found_of_overwritten hlin (by simp) (i := 0) (j := 2) rfl rfl (by decide)
  cases hfound

end Shared

end KvRaft
