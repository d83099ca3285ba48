import KvRaft.Fiber.Context
import Mathlib.Algebra.Group.Nat.Defs

/-!
# The table of contexts

`fdContexts_` leads from a descriptor to its context.  `addEvent` looks under a read lock if the
table is large enough.  If it is not, `addEvent` releases the lock, takes the write lock and resizes
the table to one and a half times its own descriptor, which cuts the table back when another thread
has made it larger meanwhile (`ContextTable.not_keeps`).

* `ContextTable.Grows` : the condition on a step.  A table is resized only to a size that is not
  below the size it has, and that is an `int`.
* `ContextTable.keeps` : in every run that meets the condition a descriptor keeps its context, with
  its events.
-/

namespace KvRaft

/-- A call of `addEvent`. -/
structure AddEvent where
  fd : ℕ
  event : Event
  scheduler : ℕ
  fiber : ℕ
  cb : Option ℕ
  deriving DecidableEq

structure ContextTable where
  io : IOManager
  /-- `fdContexts_`: the addresses of the contexts, with null pointers. -/
  fdContexts : List (Option ℕ)
  /-- The address of the next new `FdContext`. -/
  next : ℕ
  /-- The calls of `addEvent` that have found the table too small and released the read lock. -/
  resizing : List AddEvent
  /-- The events that are registered according to what the calls have returned, a record. -/
  registered : ℕ → Finset Event

/-- A `size_t` as an `int`. -/
def toInt (n : ℕ) : ℤ := Int.bmod n (2 ^ 32)

namespace ContextTable

variable (t : ContextTable)

/-- `(int)fdContexts_.size() > fd`. -/
def InRange (fd : ℕ) : Prop := fd < toInt t.fdContexts.length

instance (fd : ℕ) : Decidable (t.InRange fd) := by unfold InRange; infer_instance

/-- The context that a call finds for a descriptor. -/
def lookup (fd : ℕ) : Option ℕ := if t.InRange fd then t.fdContexts[fd]?.join else none

/-- What `contextResize` does with entry `i`. -/
def newContext (t : ContextTable) (i : ℕ) : ContextTable :=
  match t.fdContexts[i]? with
  | some none =>
    { t with
      io := t.io.setContext t.next { fd := i }
      fdContexts := t.fdContexts.set i (some t.next)
      next := t.next + 1 }
  | _ => t

/-- `fdContexts_.resize(size)`. -/
def resize (size : ℕ) : ContextTable :=
  { t with
    fdContexts := t.fdContexts.take size ++ List.replicate (size - t.fdContexts.length) none }

def contextResize (size : ℕ) : ContextTable :=
  (List.range size).foldl newContext (t.resize size)

/-- The table that the constructor makes. -/
def init : ContextTable :=
  contextResize
    { io :=
        { contexts := fun _ => { fd := 0 }
          interest := fun _ => none
          pendingEventCnt := 0
          triggered := []
          registrations := [] }
      fdContexts := []
      next := 0
      resizing := []
      registered := fun _ => ∅ } 32

/-- A call goes on with the context of its descriptor.  There is no way on from a null pointer or
an index beyond the end. -/
def withContext (fd : ℕ) (body : ℕ → Option ContextTable) : Option ContextTable :=
  match t.fdContexts[fd]? with
  | some (some a) => body a
  | _ => none

/-- What a section leaves behind, of which the call returns the events as registered. -/
def change (fd : ℕ) (events : Finset Event) (io : IOManager) : ContextTable :=
  { t with io := io, registered := Function.update t.registered fd events }

/-- `addEvent` once it has the context. -/
def register (call : AddEvent) (epoll : Bool) (a : ℕ) : Option ContextTable :=
  match t.io.addEvent a call.fd call.event call.scheduler call.fiber call.cb epoll with
  | .ok (ret, io) =>
    some (t.change call.fd
      (if ret = 0 then insert call.event (t.registered call.fd) else t.registered call.fd) io)
  | .error _ => none

/-- `addEvent` up to where it releases the read lock, and to its end if the table is large
enough. -/
def addEvent (call : AddEvent) (epoll : Bool) : Option ContextTable :=
  if t.InRange call.fd then t.withContext call.fd (t.register call epoll)
  else some { t with resizing := t.resizing ++ [call] }

/-- `addEvent` from where it has the write lock on. -/
def addEventResized (j : ℕ) (epoll : Bool) : Option ContextTable :=
  match t.resizing[j]? with
  | some call =>
    let t := { t with resizing := t.resizing.eraseIdx j }.contextResize (call.fd * 3 / 2)
    t.withContext call.fd (t.register call epoll)
  | none => none

def delEvent (fd : ℕ) (event : Event) (epoll : Bool) : Option ContextTable :=
  if t.InRange fd then
    t.withContext fd fun a =>
      let (ret, io) := t.io.delEvent a fd event epoll
      some (t.change fd (if ret then (t.registered fd).erase event else t.registered fd) io)
  else some t

def cancelEvent (fd : ℕ) (event : Event) (epoll : Bool) : Option ContextTable :=
  if t.InRange fd then
    t.withContext fd fun a =>
      match t.io.cancelEvent a fd event epoll with
      | .ok (ret, io) =>
        some (t.change fd (if ret then (t.registered fd).erase event else t.registered fd) io)
      | .error _ => none
  else some t

def cancelAll (fd : ℕ) (epoll : Bool) : Option ContextTable :=
  if t.InRange fd then
    t.withContext fd fun a =>
      match t.io.cancelAll a fd epoll with
      | .ok (ret, io) => some (t.change fd (if ret then ∅ else t.registered fd) io)
      | .error _ => none
  else some t

end ContextTable

/-- The segments of the calls between acquisitions of `IOManager::mutex_`; `epoll` tells if
`epoll_ctl` succeeds. -/
inductive TableAction where
  | addEvent (call : AddEvent) (epoll : Bool)
  | addEventResized (j : ℕ) (epoll : Bool)
  | delEvent (fd : ℕ) (event : Event) (epoll : Bool)
  | cancelEvent (fd : ℕ) (event : Event) (epoll : Bool)
  | cancelAll (fd : ℕ) (epoll : Bool)
  deriving DecidableEq

namespace ContextTable

def step (t : ContextTable) : TableAction → Option ContextTable
  | .addEvent call epoll => t.addEvent call epoll
  | .addEventResized j epoll => t.addEventResized j epoll
  | .delEvent fd event epoll => t.delEvent fd event epoll
  | .cancelEvent fd event epoll => t.cancelEvent fd event epoll
  | .cancelAll fd epoll => t.cancelAll fd epoll

/-- Threads that call the I/O manager as a machine. -/
def machine : Machine ContextTable TableAction := ⟨step⟩

/-- **A descriptor keeps its context** from one state to a later one. -/
structure Keeps (t t' : ContextTable) : Prop where
  size_le : t.fdContexts.length ≤ t'.fdContexts.length
  lookup : ∀ fd a, t.lookup fd = some a → t'.lookup fd = some a
  /-- The context has the events that the calls have registered. -/
  events : ∀ fd a, t.lookup fd = some a → (t'.io.contexts a).events = t'.registered fd

end ContextTable

/-! ### What a section does to the contexts -/

namespace IOManager

/-- A section has changed the context at `a` only, which has `events` now. -/
def Changes (io : IOManager) (a : ℕ) (events : Finset Event) (io' : IOManager) : Prop :=
  (io'.contexts a).events = events ∧ ∀ b, b ≠ a → io'.contexts b = io.contexts b

variable {io io' io₁ : IOManager} {a : ℕ} {event : Event} {events : Finset Event}

theorem Changes.refl (io : IOManager) (a : ℕ) : io.Changes a (io.contexts a).events io :=
  ⟨rfl, fun _ _ => rfl⟩

theorem Changes.trans (h : io.Changes a events io₁) {events' : Finset Event}
    (h' : io₁.Changes a events' io') : io.Changes a events' io' :=
  ⟨h'.1, fun b hb => (h'.2 b hb).trans (h.2 b hb)⟩

theorem changes_setContext (c : FdContext) : io.Changes a c.events (io.setContext a c) := by
  refine ⟨?_, fun b hb => ?_⟩
  · simp [setContext]
  · simp [setContext, hb]

theorem changes_epollCtl (op : EpollOp) (fd : ℕ) (w : Finset Event) :
    io.Changes a (io.contexts a).events (io.epollCtl op fd w) :=
  ⟨rfl, fun _ _ => rfl⟩

theorem events_triggerEvent {c c' : FdContext} {ctx : EventContext}
    (h : c.triggerEvent event = .ok (c', ctx)) : c'.events = c.events.erase event := by
  simp only [FdContext.triggerEvent] at h
  split_ifs at h
  obtain ⟨rfl, -⟩ := Prod.mk.inj (Except.ok.inj h)
  cases event <;> rfl

theorem changes_trigger (h : io.trigger a event = .ok io') :
    io.Changes a ((io.contexts a).events.erase event) io' := by
  unfold trigger at h
  cases htrig : (io.contexts a).triggerEvent event with
  | error e =>
    rw [htrig] at h
    cases h
  | ok r =>
    obtain ⟨c, ctx⟩ := r
    rw [htrig] at h
    obtain rfl := Except.ok.inj h
    rw [← events_triggerEvent htrig]
    exact changes_setContext c

theorem changes_triggerIf (h : io.triggerIf events a event = .ok io') :
    io.Changes a (if event ∈ events then (io.contexts a).events.erase event
      else (io.contexts a).events) io' := by
  unfold triggerIf at h
  split_ifs at h ⊢
  · exact changes_trigger h
  · obtain rfl := Except.ok.inj h
    exact .refl io a

theorem changes_addEvent {fd scheduler fiber : ℕ} {cb : Option ℕ} {epoll : Bool} {ret : ℤ}
    (h : io.addEvent a fd event scheduler fiber cb epoll = .ok (ret, io')) :
    io.Changes a (if ret = 0 then insert event (io.contexts a).events
      else (io.contexts a).events) io' := by
  unfold addEvent at h
  dsimp only at h
  split at h
  · cases h
  split at h
  · obtain ⟨rfl, rfl⟩ := Prod.mk.inj (Except.ok.inj h)
    exact .refl io a
  split at h
  · cases h
  · obtain ⟨rfl, rfl⟩ := Prod.mk.inj (Except.ok.inj h)
    refine ⟨?_, fun b hb => ?_⟩
    · cases event <;> simp [setContext, FdContext.setEveContext]
    · simp [setContext, hb, epollCtl]

theorem changes_delEvent (io : IOManager) (a fd : ℕ) (event : Event) (epoll : Bool) :
    io.Changes a (if (io.delEvent a fd event epoll).1 then (io.contexts a).events.erase event
      else (io.contexts a).events) (io.delEvent a fd event epoll).2 := by
  unfold delEvent
  by_cases hmem : event ∈ (io.contexts a).events
  · cases epoll with
    | false => simpa [hmem] using Changes.refl io a
    | true =>
      refine ⟨?_, fun b hb => ?_⟩
      · cases event <;> simp [hmem, setContext, FdContext.resetEveContext, FdContext.setEveContext]
      · simp [hmem, setContext, hb, epollCtl]
  · simpa [hmem] using Changes.refl io a

theorem changes_cancelEvent {fd : ℕ} {epoll ret : Bool}
    (h : io.cancelEvent a fd event epoll = .ok (ret, io')) :
    io.Changes a (if ret then (io.contexts a).events.erase event else (io.contexts a).events)
      io' := by
  unfold cancelEvent at h
  dsimp only at h
  split at h
  · obtain ⟨rfl, rfl⟩ := Prod.mk.inj (Except.ok.inj h)
    exact .refl io a
  split at h
  · obtain ⟨rfl, rfl⟩ := Prod.mk.inj (Except.ok.inj h)
    exact .refl io a
  · cases htrig : (io.epollCtl (removeOp ((io.contexts a).events.erase event)) fd
      ((io.contexts a).events.erase event)).trigger a event with
    | error e =>
      rw [htrig] at h
      cases h
    | ok io₁ =>
      rw [htrig] at h
      obtain ⟨rfl, rfl⟩ := Prod.mk.inj (Except.ok.inj h)
      exact (changes_epollCtl _ fd _).trans (changes_trigger htrig)

theorem changes_cancelAll {fd : ℕ} {epoll ret : Bool}
    (h : io.cancelAll a fd epoll = .ok (ret, io')) :
    io.Changes a (if ret then ∅ else (io.contexts a).events) io' := by
  unfold cancelAll at h
  split at h
  · obtain ⟨rfl, rfl⟩ := Prod.mk.inj (Except.ok.inj h)
    exact .refl io a
  split at h
  · obtain ⟨rfl, rfl⟩ := Prod.mk.inj (Except.ok.inj h)
    exact .refl io a
  · dsimp only at h
    cases hread : (io.epollCtl .del fd ∅).triggerIf ((io.epollCtl .del fd ∅).contexts a).events a
      .read with
    | error e =>
      rw [hread] at h
      cases h
    | ok io₁ =>
      rw [hread] at h
      cases hwrite : io₁.triggerIf (io₁.contexts a).events a .write with
      | error e =>
        simp only [bind, Except.bind, hwrite] at h
        cases h
      | ok io₂ =>
        simp only [bind, Except.bind, hwrite] at h
        split at h
        · rename_i hempty
          obtain ⟨rfl, rfl⟩ := Prod.mk.inj (Except.ok.inj h)
          have htrans := ((changes_epollCtl .del fd ∅).trans (changes_triggerIf hread)).trans
            (changes_triggerIf hwrite)
          exact ⟨hempty, htrans.2⟩
        · cases h

end IOManager

namespace ContextTable

variable {t t' : ContextTable} {fd a : ℕ}

/-! ### Tables that are not cut back -/

/-- The entry of a descriptor leads to a context. -/
def Entry (t : ContextTable) (fd a : ℕ) : Prop := t.fdContexts[fd]? = some (some a)

/-- **The table is in order.** -/
structure Whole (t : ContextTable) : Prop where
  lt_next : ∀ fd a, t.Entry fd a → a < t.next
  events : ∀ fd a, t.Entry fd a → (t.io.contexts a).events = t.registered fd
  unique : ∀ fd fd' a, t.Entry fd a → t.Entry fd' a → fd = fd'
  unregistered : ∀ fd, (∀ a, ¬ t.Entry fd a) → t.registered fd = ∅

/-- No entry is lost. -/
structure Extends (t t' : ContextTable) : Prop where
  size_le : t.fdContexts.length ≤ t'.fdContexts.length
  entry : ∀ fd a, t.Entry fd a → t'.Entry fd a

theorem Extends.refl (t : ContextTable) : t.Extends t := ⟨le_rfl, fun _ _ h => h⟩

theorem Extends.trans {t'' : ContextTable} (h : t.Extends t') (h' : t'.Extends t'') :
    t.Extends t'' :=
  ⟨h.size_le.trans h'.size_le, fun fd a ha => h'.entry fd a (h.entry fd a ha)⟩

theorem newContext_null {i : ℕ} (h : t.fdContexts[i]? = some none) :
    t.newContext i = { t with
      io := t.io.setContext t.next { fd := i }
      fdContexts := t.fdContexts.set i (some t.next)
      next := t.next + 1 } := by
  unfold newContext
  rw [h]

theorem newContext_eq {i : ℕ} (h : t.fdContexts[i]? ≠ some none) : t.newContext i = t := by
  unfold newContext
  split
  · rename_i heq
    exact absurd heq h
  · rfl

/-- The entries after a null pointer is replaced. -/
theorem entry_newContext {i : ℕ} (h : t.fdContexts[i]? = some none) :
    (t.newContext i).Entry fd a ↔ if fd = i then a = t.next else t.Entry fd a := by
  obtain ⟨hlt, -⟩ := List.getElem?_eq_some_iff.1 h
  rw [newContext_null h]
  simp only [Entry]
  split_ifs with hfd
  · subst hfd
    simp [hlt, eq_comm]
  · rw [List.getElem?_set_ne (Ne.symm hfd)]

theorem extends_newContext (t : ContextTable) (i : ℕ) : t.Extends (t.newContext i) := by
  by_cases h : t.fdContexts[i]? = some none
  · refine ⟨by simp [newContext_null h], fun fd a ha => ?_⟩
    rw [entry_newContext h, if_neg]
    · exact ha
    · rintro rfl
      rw [Entry, h] at ha
      cases ha
  · rw [newContext_eq h]
    exact .refl t

theorem length_newContext (t : ContextTable) (i : ℕ) :
    (t.newContext i).fdContexts.length = t.fdContexts.length := by
  by_cases h : t.fdContexts[i]? = some none
  · simp [newContext_null h]
  · rw [newContext_eq h]

/-- The entry is not null afterwards. -/
theorem exists_entry_newContext {i : ℕ} (hi : i < t.fdContexts.length) :
    ∃ a, (t.newContext i).Entry i a := by
  by_cases h : t.fdContexts[i]? = some none
  · exact ⟨t.next, by rw [entry_newContext h, if_pos rfl]⟩
  · rw [newContext_eq h]
    have hget := List.getElem?_eq_getElem hi
    cases hx : t.fdContexts[i] with
    | none => exact absurd (hget.trans (congrArg some hx)) h
    | some a => exact ⟨a, hget.trans (congrArg some hx)⟩

theorem Whole.newContext (h : t.Whole) (i : ℕ) : (t.newContext i).Whole := by
  by_cases hnull : t.fdContexts[i]? = some none
  · have hentry : ∀ fd a, (t.newContext i).Entry fd a ↔ if fd = i then a = t.next
        else t.Entry fd a := fun _ _ => entry_newContext hnull
    have hnot : ∀ a, ¬ t.Entry i a := by
      intro a ha
      rw [Entry, hnull] at ha
      cases ha
    obtain ⟨hlt, hev, huniq, hun⟩ := h
    refine ⟨?_, ?_, ?_, ?_⟩
    · intro fd a ha
      rw [hentry] at ha
      rw [newContext_null hnull]
      split_ifs at ha with hfd
      · exact ha.trans_lt (Nat.lt_succ_self _)
      · exact (hlt fd a ha).trans (Nat.lt_succ_self _)
    · intro fd a ha
      rw [hentry] at ha
      rw [newContext_null hnull]
      split_ifs at ha with hfd
      · subst hfd ha
        simp [IOManager.setContext, hun fd hnot]
      · have hne : a ≠ t.next := (hlt fd a ha).ne
        simpa [IOManager.setContext, hne] using hev fd a ha
    · intro fd fd' a ha ha'
      rw [hentry] at ha ha'
      have hold := fun fd => hlt fd a
      grind
    · intro fd hfd
      have hreg : (t.newContext i).registered = t.registered := by rw [newContext_null hnull]
      rw [hreg]
      refine hun fd fun a ha => ?_
      exact hfd a ((extends_newContext t i).entry fd a ha)
  · rwa [newContext_eq hnull]

/-- What `contextResize` does with the first `k` entries. -/
theorem Whole.foldl_newContext (h : t.Whole) (k : ℕ) :
    ((List.range k).foldl ContextTable.newContext t).Whole ∧
      t.Extends ((List.range k).foldl ContextTable.newContext t) ∧
      ((List.range k).foldl ContextTable.newContext t).fdContexts.length = t.fdContexts.length ∧
      ∀ i < k, i < t.fdContexts.length →
        ∃ a, ((List.range k).foldl ContextTable.newContext t).Entry i a := by
  induction k with
  | zero => exact ⟨h, .refl t, rfl, fun i hi => absurd hi (Nat.not_lt_zero i)⟩
  | succ k ih =>
    obtain ⟨hwhole, hext, hlen, hfilled⟩ := ih
    rw [List.range_succ, List.foldl_append, List.foldl_cons, List.foldl_nil]
    have hnext := extends_newContext ((List.range k).foldl ContextTable.newContext t) k
    refine ⟨hwhole.newContext k, hext.trans hnext, (length_newContext _ k).trans hlen, ?_⟩
    intro i hi hlt
    rcases Nat.lt_succ_iff_lt_or_eq.1 hi with hik | rfl
    · obtain ⟨a, ha⟩ := hfilled i hik hlt
      exact ⟨a, hnext.entry i a ha⟩
    · exact exists_entry_newContext (hlen ▸ hlt)

/-- Every entry leads to a context. -/
def Filled (t : ContextTable) : Prop := ∀ fd < t.fdContexts.length, ∃ a, t.Entry fd a

theorem entry_resize {size : ℕ} (hsize : t.fdContexts.length ≤ size) :
    (t.resize size).Entry fd a ↔ t.Entry fd a := by
  simp only [Entry, resize, List.take_of_length_le hsize]
  rcases lt_or_ge fd t.fdContexts.length with hlt | hge
  · rw [List.getElem?_append_left hlt]
  · rw [List.getElem?_append_right hge, List.getElem?_eq_none hge]
    simp [List.getElem?_replicate]

theorem length_resize {size : ℕ} (hsize : t.fdContexts.length ≤ size) :
    (t.resize size).fdContexts.length = size := by
  simp only [resize, List.length_append, List.length_take, List.length_replicate]
  omega

/-- A table that is not cut back keeps its entries. -/
theorem Whole.contextResize (h : t.Whole) {size : ℕ} (hsize : t.fdContexts.length ≤ size) :
    (t.contextResize size).Whole ∧ t.Extends (t.contextResize size) ∧
      (t.contextResize size).fdContexts.length = size ∧ (t.contextResize size).Filled := by
  have hentry : ∀ fd a, (t.resize size).Entry fd a ↔ t.Entry fd a := fun _ _ => entry_resize hsize
  have hresized : (t.resize size).Whole := by
    refine ⟨?_, ?_, ?_, ?_⟩
    · exact fun fd a ha => h.lt_next fd a ((hentry fd a).1 ha)
    · exact fun fd a ha => h.events fd a ((hentry fd a).1 ha)
    · exact fun fd fd' a ha ha' => h.unique fd fd' a ((hentry fd a).1 ha) ((hentry fd' a).1 ha')
    · exact fun fd hfd => h.unregistered fd fun a ha => hfd a ((hentry fd a).2 ha)
  obtain ⟨hwhole, hext, hlen, hfilled⟩ := hresized.foldl_newContext size
  have hsize' := hlen.trans (length_resize hsize)
  refine ⟨hwhole, ⟨hsize.trans hsize'.ge, fun fd a ha => hext.entry fd a ((hentry fd a).2 ha)⟩,
    hsize', fun fd hfd => ?_⟩
  have hlt : fd < size := hfd.trans_eq hsize'
  exact hfilled fd hlt (hlt.trans_eq (length_resize hsize).symm)

/-- A section on the context of a descriptor. -/
theorem Whole.change (h : t.Whole) (hfd : t.Entry fd a) {events : Finset Event} {io : IOManager}
    (hio : t.io.Changes a events io) : (t.change fd events io).Whole := by
  obtain ⟨hlt, hev, huniq, hun⟩ := h
  refine ⟨hlt, ?_, huniq, ?_⟩
  · intro fd' b hb
    rcases eq_or_ne fd' fd with rfl | hne
    · obtain rfl : a = b := by simpa [Entry] using hfd.symm.trans hb
      simpa [ContextTable.change] using hio.1
    · have hab : b ≠ a := by
        rintro rfl
        exact hne (huniq fd' fd b hb hfd)
      simpa [ContextTable.change, hne, hio.2 b hab] using hev fd' b hb
  · intro fd' hnot
    have hne : fd' ≠ fd := by
      rintro rfl
      exact hnot a hfd
    simpa [ContextTable.change, hne] using hun fd' hnot

/-! ### Runs -/

/-- **The condition on a step.**  `addEvent` does not cut the table back when it resizes it, and the
new size is an `int`. -/
def Grows (t : ContextTable) : TableAction → Prop
  | .addEventResized j _ =>
    match t.resizing[j]? with
    | some call => t.fdContexts.length ≤ call.fd * 3 / 2 ∧ call.fd * 3 / 2 < 2 ^ 31
    | none => True
  | _ => True

instance (t : ContextTable) (a : TableAction) : Decidable (t.Grows a) := by
  unfold Grows
  split
  · split <;> infer_instance
  · infer_instance

/-- The table is in order, and its size is an `int`. -/
structure Sound (t : ContextTable) : Prop where
  whole : t.Whole
  filled : t.Filled
  size_lt : t.fdContexts.length < 2 ^ 31

theorem toInt_eq {m : ℕ} (h : m < 2 ^ 31) : toInt m = m := by
  unfold toInt
  rw [Int.bmod_def]
  omega

theorem inRange_iff (h : t.fdContexts.length < 2 ^ 31) :
    t.InRange fd ↔ fd < t.fdContexts.length := by
  rw [InRange, toInt_eq h, Int.ofNat_lt]

theorem Sound.lookup_eq_some (h : t.Sound) : t.lookup fd = some a ↔ t.Entry fd a := by
  unfold lookup Entry
  split_ifs with hr
  · rw [Option.join_eq_some_iff]
  · rw [inRange_iff h.size_lt, not_lt] at hr
    simp [List.getElem?_eq_none hr]

/-- A call that has its context keeps the table. -/
theorem Sound.withContext (h : t.Sound) {body : ℕ → Option ContextTable}
    (hst : t.withContext fd body = some t')
    (hbody : ∀ a, t.Entry fd a → body a = some t' → ∃ events io, t.io.Changes a events io ∧
      t' = t.change fd events io) :
    t'.Sound ∧ t.Extends t' := by
  unfold ContextTable.withContext at hst
  split at hst
  · rename_i a ha
    obtain ⟨events, io, hio, rfl⟩ := hbody a ha hst
    exact ⟨⟨h.whole.change ha hio, h.filled, h.size_lt⟩, ⟨le_rfl, fun _ _ hb => hb⟩⟩
  · cases hst

theorem Sound.register (h : t.Sound) {call : AddEvent} {epoll : Bool}
    (hst : t.withContext call.fd (t.register call epoll) = some t') :
    t'.Sound ∧ t.Extends t' := by
  refine h.withContext hst fun a ha hbody => ?_
  unfold ContextTable.register at hbody
  split at hbody
  · rename_i ret io hio
    have hchange := IOManager.changes_addEvent hio
    rw [h.whole.events call.fd a ha] at hchange
    exact ⟨_, io, hchange, (Option.some.inj hbody).symm⟩
  · cases hbody

/-- A call that returns at once if its descriptor is out of range. -/
theorem Sound.ifInRange (h : t.Sound) {body : ℕ → Option ContextTable}
    (hst : (if t.InRange fd then t.withContext fd body else some t) = some t')
    (hbody : ∀ a, t.Entry fd a → body a = some t' → ∃ events io, t.io.Changes a events io ∧
      t' = t.change fd events io) : t'.Sound ∧ t.Extends t' := by
  split_ifs at hst
  · exact h.withContext hst hbody
  · obtain rfl := Option.some.inj hst
    exact ⟨h, .refl t⟩

theorem Sound.delEvent (h : t.Sound) {event : Event} {epoll : Bool}
    (hst : t.delEvent fd event epoll = some t') : t'.Sound ∧ t.Extends t' := by
  refine h.ifInRange hst fun a ha hbody => ?_
  have hchange := t.io.changes_delEvent a fd event epoll
  rw [h.whole.events fd a ha] at hchange
  exact ⟨_, _, hchange, (Option.some.inj hbody).symm⟩

theorem Sound.cancelEvent (h : t.Sound) {event : Event} {epoll : Bool}
    (hst : t.cancelEvent fd event epoll = some t') : t'.Sound ∧ t.Extends t' := by
  refine h.ifInRange hst fun a ha hbody => ?_
  split at hbody
  · rename_i ret io hio
    have hchange := IOManager.changes_cancelEvent hio
    rw [h.whole.events fd a ha] at hchange
    exact ⟨_, io, hchange, (Option.some.inj hbody).symm⟩
  · cases hbody

theorem Sound.cancelAll (h : t.Sound) {epoll : Bool}
    (hst : t.cancelAll fd epoll = some t') : t'.Sound ∧ t.Extends t' := by
  refine h.ifInRange hst fun a ha hbody => ?_
  split at hbody
  · rename_i ret io hio
    have hchange := IOManager.changes_cancelAll hio
    rw [h.whole.events fd a ha] at hchange
    exact ⟨_, io, hchange, (Option.some.inj hbody).symm⟩
  · cases hbody

theorem Sound.contextResize (h : t.Sound) {size : ℕ} (hsize : t.fdContexts.length ≤ size)
    (hlt : size < 2 ^ 31) : (t.contextResize size).Sound ∧ t.Extends (t.contextResize size) := by
  obtain ⟨hwhole, hext, hlen, hfilled⟩ := h.whole.contextResize hsize
  exact ⟨⟨hwhole, hfilled, hlen.trans_lt hlt⟩, hext⟩

theorem Sound.step (h : t.Sound) {act : TableAction} (hg : t.Grows act)
    (hst : t.step act = some t') : t'.Sound ∧ t.Extends t' := by
  cases act with
  | addEvent call epoll =>
    simp only [ContextTable.step, ContextTable.addEvent] at hst
    split_ifs at hst
    · exact h.register hst
    · obtain rfl := Option.some.inj hst
      exact ⟨⟨⟨h.whole.lt_next, h.whole.events, h.whole.unique, h.whole.unregistered⟩, h.filled,
        h.size_lt⟩, ⟨le_rfl, fun _ _ ha => ha⟩⟩
  | addEventResized j epoll =>
    simp only [ContextTable.step, ContextTable.addEventResized] at hst
    split at hst
    · rename_i call hj
      simp only [Grows, hj] at hg
      have hrest : ({ t with resizing := t.resizing.eraseIdx j } : ContextTable).Sound :=
        ⟨⟨h.whole.lt_next, h.whole.events, h.whole.unique, h.whole.unregistered⟩, h.filled,
          h.size_lt⟩
      obtain ⟨hsound, hext⟩ := hrest.contextResize hg.1 hg.2
      obtain ⟨hsound', hext'⟩ := hsound.register hst
      exact ⟨hsound', ⟨hext.size_le.trans hext'.size_le,
        fun fd a ha => hext'.entry fd a (hext.entry fd a ha)⟩⟩
    · cases hst
  | delEvent fd event epoll => exact h.delEvent hst
  | cancelEvent fd event epoll => exact h.cancelEvent hst
  | cancelAll fd epoll => exact h.cancelAll hst

theorem sound_init : init.Sound := by
  have hempty : Whole
      { io :=
          { contexts := fun _ => { fd := 0 }
            interest := fun _ => none
            pendingEventCnt := 0
            triggered := []
            registrations := [] }
        fdContexts := []
        next := 0
        resizing := []
        registered := fun _ => ∅ } := by
    refine ⟨?_, ?_, ?_, ?_⟩
    all_goals simp [Entry]
  obtain ⟨hwhole, -, hlen, hfilled⟩ := hempty.contextResize (show 0 ≤ 32 by decide)
  exact ⟨hwhole, hfilled, hlen.trans_lt (by decide)⟩

/-- **A descriptor keeps its context**, with its events, in every run in which the table is not cut
back: from any state of the run to any later one. -/
theorem keeps {t t' : ContextTable} (h : machine.Reaches Grows init t)
    (h' : machine.Reaches Grows t t') : t.Keeps t' := by
  have hsound : t.Sound :=
    h.invariant sound_init fun _ _ _ hs hg hst => (hs.step hg hst).1
  have hlater : t'.Sound ∧ t.Extends t' := by
    refine h'.invariant (I := fun t' => t'.Sound ∧ t.Extends t') ⟨hsound, .refl t⟩ ?_
    rintro t₁ act t₂ ⟨hs, hext⟩ hg hst
    exact ⟨(hs.step hg hst).1, hext.trans (hs.step hg hst).2⟩
  refine ⟨hlater.2.size_le, fun fd a ha => ?_, fun fd a ha => ?_⟩
  · exact hlater.1.lookup_eq_some.2 (hlater.2.entry fd a (hsound.lookup_eq_some.1 ha))
  · exact hlater.1.whole.events fd a (hlater.2.entry fd a (hsound.lookup_eq_some.1 ha))

/-- A descriptor beyond the table and a small one are added to, one after the other. -/
def growTwice : List TableAction :=
  [.addEvent ⟨40, .read, 0, 1, none⟩ true, .addEventResized 0 true,
    .addEvent ⟨3, .write, 0, 2, none⟩ true, .addEvent ⟨100, .read, 0, 3, some 9⟩ true,
    .addEventResized 0 true, .cancelEvent 40 .read true, .delEvent 3 .write false]

theorem growTwice_eq : (machine.runWhere Grows init (growTwice.take 3)).map (fun t =>
      (t.fdContexts.length, t.lookup 40)) = some (60, some 40) ∧
    ((machine.runWhere Grows init (growTwice.take 3)).bind fun t =>
      machine.runWhere Grows t (growTwice.drop 3)).map (fun t =>
        (t.fdContexts.length, t.lookup 40)) = some (150, some 40) := by
  decide +kernel

theorem keeps_growTwice : ∃ t t', machine.runWhere Grows init (growTwice.take 3) = some t ∧
    machine.runWhere Grows t (growTwice.drop 3) = some t' ∧ t.Keeps t' := by
  obtain ⟨t, ht, -⟩ := Option.map_eq_some_iff.1 growTwice_eq.1
  obtain ⟨t', ht', -⟩ := Option.map_eq_some_iff.1 growTwice_eq.2
  rw [ht, Option.bind_some] at ht'
  exact ⟨t, t', ht, ht', keeps (Machine.reaches_of_runWhere ht) (Machine.reaches_of_runWhere ht')⟩

/-- Two threads find the table too small, for descriptors 40 and 100. -/
def cutBack : List TableAction :=
  [.addEvent ⟨40, .read, 0, 1, none⟩ true, .addEvent ⟨100, .read, 0, 2, none⟩ true,
    .addEventResized 1 true, .addEventResized 0 true]

theorem cutBack_eq :
    (machine.run init (cutBack.take 3)).map (fun t => (t.fdContexts.length, t.lookup 100)) =
      some (150, some 100) ∧
    ((machine.run init (cutBack.take 3)).bind fun t => machine.run t (cutBack.drop 3)).map (fun t =>
      (t.fdContexts.length, t.lookup 100)) = some (60, none) := by
  decide +kernel

/-- The thread that adds the smaller descriptor last cuts off the context of the larger one. -/
theorem not_keeps : ¬ ∀ t t', machine.Reachable init t → machine.Reachable t t' → t.Keeps t' := by
  intro hall
  obtain ⟨t, ht, hlookup⟩ := Option.map_eq_some_iff.1 cutBack_eq.1
  obtain ⟨t', ht', hlookup'⟩ := Option.map_eq_some_iff.1 cutBack_eq.2
  rw [ht, Option.bind_some] at ht'
  have hkept := (hall t t' (Machine.reachable_of_run ht) (Machine.reachable_of_run ht')).size_le
  have hsize : t.fdContexts.length = 150 := congrArg Prod.fst hlookup
  have hsize' : t'.fdContexts.length = 60 := congrArg Prod.fst hlookup'
  omega

end ContextTable

end KvRaft
