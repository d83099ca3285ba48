import KvRaft.Kv.WaitEvents

/-!
# The wait channels alone

A `WaitRoom` is what is left of a server when only the wait channels and the handlers that use them
are kept: how far each handler is, the table of entries and the queues.  `WaitRoom.Moves` is a step
with what it records, and `KvProcess.room_moves` says that each step of a server is one.

`WaitRoom.Ordered` is the invariant: as the indices of `Start` go up, a handler finds no entry for
its own index, so the entry and its queue are its own until it erases them.
-/

namespace KvRaft

/-- The wait channels of a server. -/
structure WaitRoom where
  /-- How far a handler is; a handler that does not exist yet counts as called. -/
  phase : ℕ → HandlerPhase
  /-- The channel a handler waits on in `timeOutPop`. -/
  waiting : ℕ → Option ℕ
  entry : ℤ → Option ℕ
  queue : ℕ → List Op
  /-- The number of queues allocated. -/
  size : ℕ

namespace WaitRoom

/-- A step of the wait channels, which records `events`. -/
inductive Moves (r : WaitRoom) : List ChanEvent → WaitRoom → Prop
  | nothing : Moves r [] r
  | refused (k : ℕ) : r.phase k = .called →
      Moves r [] { r with phase := Function.update r.phase k .returned }
  | start (k : ℕ) (index : ℤ) : r.phase k = .called → Moves r [.start k index]
      { r with phase := Function.update r.phase k (.started index) }
  | find (k : ℕ) (index : ℤ) (ch : ℕ) : r.phase k = .started index → r.entry index = some ch →
      Moves r [.insert k index ch]
        { r with
          phase := Function.update r.phase k (.holding index)
          waiting := Function.update r.waiting k (some ch) }
  | insert (k : ℕ) (index : ℤ) : r.phase k = .started index → r.entry index = none →
      Moves r [.insert k index r.size]
        { r with
          phase := Function.update r.phase k (.holding index)
          waiting := Function.update r.waiting k (some r.size)
          entry := Function.update r.entry index (some r.size)
          size := r.size + 1 }
  | pop (k : ℕ) (index : ℤ) (ch : ℕ) (op : Op) (ops : List Op) : r.phase k = .holding index →
      r.waiting k = some ch → r.queue ch = op :: ops → Moves r [.pop k ch op]
        { r with
          waiting := Function.update r.waiting k none
          queue := Function.update r.queue ch ops }
  | expired (k : ℕ) (index : ℤ) (ch : ℕ) : r.phase k = .holding index → r.waiting k = some ch →
      Moves r [.expired k index] { r with waiting := Function.update r.waiting k none }
  | erase (k : ℕ) (index : ℤ) : r.phase k = .holding index → r.waiting k = none →
      Moves r [.erase k index (r.entry index)]
        { r with
          phase := Function.update r.phase k .returned
          entry := Function.update r.entry index none }
  | drop (index : ℤ) (op : Op) : Moves r [.processed index op none] r
  | push (index : ℤ) (op : Op) (ch : ℕ) : r.entry index = some ch →
      Moves r [.processed index op (some ch)]
        { r with queue := Function.update r.queue ch (r.queue ch ++ [op]) }

end WaitRoom

/-! ### The wait channels of a server -/

namespace KvProcess

def room (p : KvProcess) : WaitRoom where
  phase k := (p.handlers[k]?.map fun h => h.pc.phase).getD .called
  waiting k := p.handlers[k]?.bind fun h => h.pc.channel
  entry := p.kv.waitApplyCh
  queue ch := p.kv.chans.getD ch []
  size := p.kv.chans.length

variable {p p' : KvProcess} {k : ℕ} {h : Handler}

theorem room_phase (hk : p.handlers[k]? = some h) : p.room.phase k = h.pc.phase := by
  simp [room, hk]

theorem room_waiting (hk : p.handlers[k]? = some h) : p.room.waiting k = h.pc.channel := by
  simp [room, hk]

/-- The wait channels after a handler has moved. -/
theorem room_setHandler (hk : p.handlers[k]? = some h) (kv : KvServer) (pc : HandlerPc) :
    { p with kv := kv, handlers := p.handlers.set k { h with pc := pc } }.room =
      { phase := Function.update p.room.phase k pc.phase
        waiting := Function.update p.room.waiting k pc.channel
        entry := kv.waitApplyCh
        queue := fun ch => kv.chans.getD ch []
        size := kv.chans.length } := by
  obtain ⟨hlt, -⟩ := List.getElem?_eq_some_iff.1 hk
  simp only [room, WaitRoom.mk.injEq, and_true]
  constructor <;> funext j <;> rcases eq_or_ne j k with rfl | hj
  · simp [hlt]
  · simp [hj, hj.symm]
  · simp [hlt]
  · simp [hj, hj.symm]

theorem room_call (p : KvProcess) (req : Request) :
    { p with handlers := p.handlers ++ [({ req := req } : Handler)] }.room = p.room := by
  simp only [room, WaitRoom.mk.injEq, and_true]
  constructor <;> funext j <;> rcases lt_trichotomy j p.handlers.length with hj | rfl | hj
  · simp [List.getElem?_append_left hj]
  · simp [HandlerPc.phase]
  · rw [List.getElem?_eq_none (by simp; omega), List.getElem?_eq_none (by omega)]
  · simp [List.getElem?_append_left hj]
  · simp [HandlerPc.channel]
  · rw [List.getElem?_eq_none (by simp; omega), List.getElem?_eq_none (by omega)]

theorem openChan_eq_find {kv : KvServer} {index : ℤ} {ch : ℕ}
    (h : kv.waitApplyCh index = some ch) : kv.openChan index = (kv, ch) := by
  simp [KvServer.openChan, h]

theorem openChan_eq_insert {kv : KvServer} {index : ℤ} (h : kv.waitApplyCh index = none) :
    kv.openChan index = ({ kv with
      waitApplyCh := Function.update kv.waitApplyCh index (some kv.chans.length)
      chans := kv.chans ++ [[]] }, kv.chans.length) := by
  simp [KvServer.openChan, h]

theorem getD_append_nil (chans : List (List Op)) (ch : ℕ) :
    (chans ++ [[]]).getD ch [] = chans.getD ch [] := by
  rcases lt_trichotomy ch chans.length with hlt | rfl | hgt
  · simp [List.getElem?_append_left hlt]
  · simp
  · rw [List.getD_eq_getElem?_getD, List.getD_eq_getElem?_getD,
      List.getElem?_eq_none (by simp; omega), List.getElem?_eq_none (by omega)]

theorem getD_set {chans : List (List Op)} {ch : ℕ} (hlt : ch < chans.length) (ops : List Op) :
    (fun c => (chans.set ch ops).getD c []) =
      Function.update (fun c => chans.getD c []) ch ops := by
  funext c
  rcases eq_or_ne c ch with rfl | hc
  · simp [hlt]
  · simp [hc, hc.symm]

theorem popChan_eq_some {kv kv' : KvServer} {ch : ℕ} {op : Op}
    (h : kv.popChan ch = some (op, kv')) :
    ∃ ops, kv.chans.getD ch [] = op :: ops ∧ kv' = { kv with chans := kv.chans.set ch ops } ∧
      ch < kv.chans.length := by
  unfold KvServer.popChan at h
  split at h
  · cases h
  · rename_i op' ops heq
    simp only [Option.some.injEq, Prod.mk.injEq] at h
    obtain ⟨rfl, rfl⟩ := h
    refine ⟨ops, heq, rfl, ?_⟩
    by_contra hge
    simp [List.getElem?_eq_none (Nat.not_lt.1 hge)] at heq

/-- A step of a handler is a step of the wait channels. -/
theorem room_handle {input : Input} {events : List ChanEvent} {kv : KvServer} {pc : HandlerPc}
    (hk : p.handlers[k]? = some h) (hm : h.ChanMoves p.kv k input events kv pc) :
    p.room.Moves events
      { p with kv := kv, handlers := p.handlers.set k { h with pc := pc } }.room := by
  rw [room_setHandler hk]
  have hphase := room_phase hk
  have hwaiting := room_waiting hk
  -- a handler that was not waiting and is not
  have hidle : h.pc.channel = none →
      Function.update p.room.waiting k none = p.room.waiting := by
    intro hnone
    rw [← hnone, ← hwaiting, Function.update_eq_self]
  cases hm with
  | goOn kv' pc' hentry hchans hph hold hnew =>
    have hsame : Function.update p.room.phase k pc.phase = p.room.phase := by
      rw [hph, ← hphase, Function.update_eq_self]
    rw [hsame, hnew, hidle hold, hentry, hchans]
    exact .nothing
  | refused reply hpc =>
    rw [show (HandlerPc.returned reply).channel = none from rfl, hidle (by rw [hpc]; rfl)]
    rw [hpc] at hphase
    exact .refused k hphase
  | start index hpc _ =>
    rw [show (HandlerPc.started index).channel = none from rfl, hidle (by rw [hpc]; rfl)]
    rw [hpc] at hphase
    exact .start k index hphase
  | insert index hpc =>
    rw [hpc] at hphase
    cases hentry : p.kv.waitApplyCh index with
    | some ch =>
      rw [openChan_eq_find hentry]
      exact .find k index ch hphase hentry
    | none =>
      rw [openChan_eq_insert hentry]
      simp only [getD_append_nil, List.length_append, List.length_singleton]
      exact .insert k index hphase hentry
  | pop index ch op kv' pc' hpc hpop hph hnew =>
    obtain ⟨ops, hqueue, rfl, hlt⟩ := popChan_eq_some hpop
    rw [hpc] at hphase hwaiting
    have hsame : Function.update p.room.phase k pc.phase = p.room.phase := by
      rw [hph, show HandlerPhase.holding index = p.room.phase k from hphase.symm,
        Function.update_eq_self]
    rw [hsame, hnew, getD_set hlt, List.length_set]
    exact .pop k index ch op ops hphase hwaiting hqueue
  | expired index ch hpc _ =>
    rw [hpc] at hphase hwaiting
    have hsame : Function.update p.room.phase k (.holding index) = p.room.phase := by
      rw [show HandlerPhase.holding index = p.room.phase k from hphase.symm,
        Function.update_eq_self]
    have hm := WaitRoom.Moves.expired k index ch hphase hwaiting
    rwa [← hsame] at hm
  | erase index reply hpc =>
    rw [show (HandlerPc.returned reply).channel = none from rfl, hidle (by rw [hpc]; rfl)]
    rw [hpc] at hphase hwaiting
    exact .erase k index hphase hwaiting

/-- A step of a server is a step of its wait channels, if its entries are allocated. -/
theorem room_moves {a : KvAction} {events : List ChanEvent} (hm : p.ChanMoves a events p')
    (hlt : ∀ index ch, p.room.entry index = some ch → ch < p.room.size) :
    p.room.Moves events p'.room := by
  cases hm with
  | quiet a p' hhandlers hentry hchans =>
    rw [show p'.room = p.room by simp [room, hhandlers, hentry, hchans]]
    exact .nothing
  | skip a op index => exact .drop index op
  | send op index =>
    cases hentry : p.kv.waitApplyCh index with
    | none =>
      rw [show p.kv.sendMessageToWaitChan op index = p.kv by
        simp [KvServer.sendMessageToWaitChan, hentry]]
      exact .drop index op
    | some ch =>
      have hroom : { p with kv := p.kv.sendMessageToWaitChan op index, loop := .pop }.room =
          { p.room with
            queue := Function.update p.room.queue ch (p.room.queue ch ++ [op]) } := by
        have hset := getD_set (hlt index ch hentry) (p.kv.chans.getD ch [] ++ [op])
        simp only [room, KvServer.sendMessageToWaitChan, hentry, hset, List.length_set]
      rw [hroom]
      exact .push index op ch hentry
  | call req =>
    rw [room_call]
    exact .nothing
  | handle k h input events kv' pc hk hm => exact room_handle hk hm

end KvProcess

/-! ### The invariant -/

/-- The indices that `Start` has returned. -/
def starts (L : List ChanEvent) : List ℤ :=
  L.filterMap fun
    | .start _ index => some index
    | _ => none

/-- The channels that have been deleted. -/
def erased (L : List ChanEvent) : List (Option ℕ) :=
  L.filterMap fun
    | .erase _ _ ch => some ch
    | _ => none

theorem starts_append (L L' : List ChanEvent) : starts (L ++ L') = starts L ++ starts L' :=
  List.filterMap_append

theorem erased_append (L L' : List ChanEvent) : erased (L ++ L') = erased L ++ erased L' :=
  List.filterMap_append

theorem mem_starts {L : List ChanEvent} {index : ℤ} :
    index ∈ starts L ↔ ∃ k, .start k index ∈ L := by
  simp only [starts, List.mem_filterMap]
  constructor
  · rintro ⟨e, he, heq⟩
    cases e <;> simp at heq
    exact ⟨_, heq ▸ he⟩
  · rintro ⟨k, hk⟩
    exact ⟨_, hk, rfl⟩

theorem mem_erased {L : List ChanEvent} {ch : Option ℕ} :
    ch ∈ erased L ↔ ∃ k index, .erase k index ch ∈ L := by
  simp only [erased, List.mem_filterMap]
  constructor
  · rintro ⟨e, he, heq⟩
    cases e <;> simp at heq
    exact ⟨_, _, heq ▸ he⟩
  · rintro ⟨k, index, hk⟩
    exact ⟨_, hk, rfl⟩

namespace WaitRoom

/-- The indices of `Start` go up, and each belongs to one handler. -/
structure Started (L : List ChanEvent) (r : WaitRoom) (last : ℤ) : Prop where
  increasing : (starts L).Pairwise (· < ·)
  le_last : ∀ k index, .start k index ∈ L → index ≤ last
  unique : ∀ k k' index, .start k index ∈ L → .start k' index ∈ L → k = k'
  single : ∀ k index index', .start k index ∈ L → .start k index' ∈ L → index = index'
  phase : ∀ k index, .start k index ∈ L →
    r.phase k = .started index ∨ r.phase k = .holding index ∨ r.phase k = .returned
  start : ∀ k index, r.phase k = .started index ∨ r.phase k = .holding index →
    .start k index ∈ L

/-- Each entry belongs to the one handler that inserted it and has yet to erase it. -/
structure Owned (L : List ChanEvent) (r : WaitRoom) : Prop where
  start : ∀ k index ch, .insert k index ch ∈ L → .start k index ∈ L
  unique : ∀ k index k' index' ch, .insert k index ch ∈ L → .insert k' index' ch ∈ L →
    k = k' ∧ index = index'
  lt_size : ∀ k index ch, .insert k index ch ∈ L → ch < r.size
  phase : ∀ k index ch, .insert k index ch ∈ L →
    r.phase k = .holding index ∧ r.entry index = some ch ∨
      r.phase k = .returned ∧ .erase k index (some ch) ∈ L
  holding : ∀ k index, r.phase k = .holding index → ∃ ch, .insert k index ch ∈ L
  waiting : ∀ k ch, r.waiting k = some ch → ∃ index, r.phase k = .holding index ∧
    .insert k index ch ∈ L
  entry : ∀ index ch, r.entry index = some ch → ∃ k, r.phase k = .holding index ∧
    .insert k index ch ∈ L
  erase : ∀ k index ch, .erase k index ch ∈ L → r.phase k = .returned ∧
    ∃ ch', ch = some ch' ∧ .insert k index ch' ∈ L
  nodup : (erased L).Nodup

/-- What is in a queue was pushed by the apply loop under the index of its owner. -/
structure Queued (L : List ChanEvent) (r : WaitRoom) : Prop where
  queue : ∀ ch, ∀ op ∈ r.queue ch, ∃ index, .processed index op (some ch) ∈ L
  insert : ∀ index op ch, .processed index op (some ch) ∈ L → ∃ k, .insert k index ch ∈ L
  pop : ∀ k ch op, .pop k ch op ∈ L →
    ∃ index, .insert k index ch ∈ L ∧ .processed index op (some ch) ∈ L

/-- **The wait channels are in order.** -/
structure Ordered (L : List ChanEvent) (r : WaitRoom) (last : ℤ) : Prop where
  started : r.Started L last
  owned : r.Owned L
  queued : r.Queued L

variable {L es : List ChanEvent} {r r' : WaitRoom} {last last' : ℤ}

/-- A handler that has its index finds no entry for it. -/
theorem Ordered.entry_eq_none (h : Ordered L r last) {k : ℕ} {index : ℤ}
    (hk : r.phase k = .started index) : r.entry index = none := by
  cases hentry : r.entry index with
  | none => rfl
  | some ch =>
    obtain ⟨k', hk', -⟩ := h.owned.entry index ch hentry
    have heq := h.started.unique k k' index (h.started.start k index (.inl hk))
      (h.started.start k' index (.inr hk'))
    rw [← heq, hk] at hk'
    cases hk'

theorem starts_eq_nil (h : ∀ k index, .start k index ∉ es) : starts es = [] := by
  refine List.eq_nil_iff_forall_not_mem.2 fun index hmem => ?_
  obtain ⟨k, hk⟩ := mem_starts.1 hmem
  exact h k index hk

theorem erased_eq_nil (h : ∀ k index ch, .erase k index ch ∉ es) : erased es = [] := by
  refine List.eq_nil_iff_forall_not_mem.2 fun ch hmem => ?_
  obtain ⟨k, index, hk⟩ := mem_erased.1 hmem
  exact h k index ch hk

/-- No index is returned, and handlers only go on. -/
theorem Started.goOn (h : Started L r last) (hlast : last ≤ last')
    (hes : ∀ k index, .start k index ∉ es)
    (hphase : ∀ k, r'.phase k = r.phase k ∨
      (∃ index, r.phase k = .started index ∧ r'.phase k = .holding index) ∨
      r'.phase k = .returned) : Started (L ++ es) r' last' := by
  have hmem : ∀ k index, .start k index ∈ L ++ es → .start k index ∈ L := fun k index hk =>
    (List.mem_append.1 hk).resolve_right (hes k index)
  refine ⟨?_, ?_, ?_, ?_, ?_, ?_⟩
  · rw [starts_append, starts_eq_nil hes, List.append_nil]
    exact h.increasing
  · exact fun k index hk => (h.le_last k index (hmem k index hk)).trans hlast
  · exact fun k k' index hk hk' => h.unique k k' index (hmem k index hk) (hmem k' index hk')
  · exact fun k index index' hk hk' => h.single k index index' (hmem k index hk) (hmem k index' hk')
  · intro k index hk
    have hold := h.phase k index (hmem k index hk)
    rcases hphase k with heq | ⟨index', hst, heq⟩ | heq
    · rwa [heq]
    · rw [hst] at hold
      have hindex : index' = index := by simpa using hold
      exact .inr (.inl (hindex ▸ heq))
    · exact .inr (.inr heq)
  · intro k index hk
    refine List.mem_append_left _ (h.start k index ?_)
    rcases hphase k with heq | ⟨index', hst, heq⟩ | heq
    · rwa [heq] at hk
    · rw [heq] at hk
      have hindex : index' = index := by simpa using hk
      exact .inl (hindex ▸ hst)
    · rw [heq] at hk
      simp at hk

theorem Started.step (h : Started L r last) (hm : r.Moves es r') (hlast : last ≤ last')
    (hstart : ∀ k index, .start k index ∈ es → last < index ∧ index ≤ last') :
    Started (L ++ es) r' last' := by
  cases hm with
  | start k index hk =>
    obtain ⟨hinc, hle, huniq, hsingle, hphase, hst⟩ := h
    obtain ⟨hlt, hle'⟩ := hstart k index (by simp)
    refine ⟨?_, ?_, ?_, ?_, ?_, ?_⟩
    · rw [starts_append]
      refine List.pairwise_append.2 ⟨hinc, by simp [starts], ?_⟩
      intro a ha b hb
      obtain ⟨k', hk'⟩ := mem_starts.1 ha
      obtain rfl : b = index := by simpa [starts] using hb
      exact (hle k' a hk').trans_lt hlt
    all_goals grind
  | find k index ch hk | insert k index hk =>
    refine h.goOn hlast (by simp) fun j => ?_
    rcases eq_or_ne j k with rfl | hj
    · exact .inr (.inl ⟨index, hk, Function.update_self ..⟩)
    · exact .inl (Function.update_of_ne hj ..)
  | refused k | erase k =>
    refine h.goOn hlast (by simp) fun j => ?_
    rcases eq_or_ne j k with rfl | hj
    · exact .inr (.inr (Function.update_self ..))
    · exact .inl (Function.update_of_ne hj ..)
  | nothing | pop | expired | drop | push => exact h.goOn hlast (by simp) fun _ => .inl rfl

/-- Nothing is inserted or erased, and handlers that have their channels stay where they are. -/
theorem Owned.goOn (h : Owned L r) (hins : ∀ k index ch, .insert k index ch ∉ es)
    (herase : ∀ k index ch, .erase k index ch ∉ es)
    (hphase : ∀ k, r'.phase k = r.phase k ∨
      r.phase k = .called ∧ ∀ index, r'.phase k ≠ .holding index)
    (hwait : ∀ k ch, r'.waiting k = some ch → r.waiting k = some ch)
    (hentry : r'.entry = r.entry) (hsize : r'.size = r.size) : Owned (L ++ es) r' := by
  have hins' : ∀ k index ch, .insert k index ch ∈ L ++ es → .insert k index ch ∈ L :=
    fun k index ch hk => (List.mem_append.1 hk).resolve_right (hins k index ch)
  have hkeep : ∀ k index, r.phase k = .holding index → r'.phase k = .holding index := by
    intro k index hk
    rcases hphase k with heq | ⟨hcalled, -⟩
    · rwa [heq]
    · rw [hcalled] at hk
      cases hk
  have hreturned : ∀ k, r.phase k = .returned → r'.phase k = .returned := by
    intro k hk
    rcases hphase k with heq | ⟨hcalled, -⟩
    · rwa [heq]
    · rw [hcalled] at hk
      cases hk
  refine ⟨?_, ?_, ?_, ?_, ?_, ?_, ?_, ?_, ?_⟩
  · exact fun k index ch hk => List.mem_append_left _ (h.start k index ch (hins' k index ch hk))
  · exact fun k index k' index' ch hk hk' => h.unique k index k' index' ch (hins' _ _ _ hk)
      (hins' _ _ _ hk')
  · exact fun k index ch hk => hsize ▸ h.lt_size k index ch (hins' k index ch hk)
  · intro k index ch hk
    rw [hentry]
    rcases h.phase k index ch (hins' k index ch hk) with ⟨hhold, he⟩ | ⟨hret, he⟩
    · exact .inl ⟨hkeep k index hhold, he⟩
    · exact .inr ⟨hreturned k hret, List.mem_append_left _ he⟩
  · intro k index hk
    have hold : r.phase k = .holding index := by
      rcases hphase k with heq | ⟨-, hnot⟩
      · rwa [← heq]
      · exact absurd hk (hnot index)
    obtain ⟨ch, hch⟩ := h.holding k index hold
    exact ⟨ch, List.mem_append_left _ hch⟩
  · intro k ch hk
    obtain ⟨index, hhold, hch⟩ := h.waiting k ch (hwait k ch hk)
    exact ⟨index, hkeep k index hhold, List.mem_append_left _ hch⟩
  · intro index ch he
    rw [hentry] at he
    obtain ⟨k, hhold, hch⟩ := h.entry index ch he
    exact ⟨k, hkeep k index hhold, List.mem_append_left _ hch⟩
  · intro k index ch hk
    have hold := (List.mem_append.1 hk).resolve_right (herase k index ch)
    obtain ⟨hret, ch', hch', hmem⟩ := h.erase k index ch hold
    exact ⟨hreturned k hret, ch', hch', List.mem_append_left _ hmem⟩
  · rw [erased_append, erased_eq_nil herase, List.append_nil]
    exact h.nodup

theorem Ordered.owned_step (h : Ordered L r last) (hm : r.Moves es r') : Owned (L ++ es) r' := by
  have hfree : ∀ k index, r.phase k = .started index → r.entry index = none :=
    fun _ _ => h.entry_eq_none
  cases hm with
  | erase k index hk hwait =>
    obtain ⟨hst, huniq, hlt, hphase, hholding, hwaiting, hentry, herase, hnodup⟩ := h.owned
    refine ⟨?_, ?_, ?_, ?_, ?_, ?_, ?_, ?_, ?_⟩
    rotate_right
    · -- the channel of a handler that has not returned is not yet deleted
      have hnew : r.entry index ∉ erased L := by
        intro hmem
        obtain ⟨k', index', hk'⟩ := mem_erased.1 hmem
        grind
      rw [erased_append]
      refine List.nodup_append.2 ⟨hnodup, List.nodup_singleton _, fun a ha b hb => ?_⟩
      rw [List.mem_singleton.1 hb]
      exact ne_of_mem_of_not_mem ha hnew
    all_goals grind
  | insert k index hk hnone =>
    obtain ⟨hst, huniq, hlt, hphase, hholding, hwaiting, hentry, herase, hnodup⟩ := h.owned
    have hstart := h.started.start k index (.inl hk)
    refine ⟨?_, ?_, ?_, ?_, ?_, ?_, ?_, ?_, ?_⟩
    rotate_right
    · simpa [erased] using hnodup
    all_goals grind
  | find k index ch hk hentry => simp [hfree k index hk] at hentry
  | refused k hk | start k index hk =>
    refine h.owned.goOn (by simp) (by simp) (fun j => ?_) (fun _ _ hw => hw) rfl rfl
    rcases eq_or_ne j k with rfl | hj
    · exact .inr ⟨hk, by simp⟩
    · exact .inl (Function.update_of_ne hj ..)
  | pop k | expired k =>
    refine h.owned.goOn (by simp) (by simp) (fun _ => .inl rfl) (fun j c hw => ?_) rfl rfl
    have hw : Function.update r.waiting k none j = some c := hw
    rw [Function.update_apply] at hw
    split_ifs at hw
    exact hw
  | nothing | drop | push =>
    exact h.owned.goOn (by simp) (by simp) (fun _ => .inl rfl) (fun _ _ hw => hw) rfl rfl

theorem Ordered.queued_step (h : Ordered L r last) (hm : r.Moves es r') :
    Queued (L ++ es) r' := by
  obtain ⟨-, ⟨hst, huniq, hlt, hphase, hholding, hwaiting, hentry, herase, hnodup⟩, hqueue, hins,
    hpop⟩ := h
  cases hm with
  | pop k index ch op ops hk hwait hq =>
    have hown : .insert k index ch ∈ L := by grind
    refine ⟨?_, by grind, ?_⟩
    · intro c x hx
      have hx' : x ∈ r.queue c := by
        rcases eq_or_ne c ch with rfl | hc
        · rw [hq]
          exact List.mem_cons_of_mem op (by simpa using hx)
        · simpa [hc] using hx
      grind
    · intro k' c x hx
      rcases List.mem_append.1 hx with hx | hx
      · grind
      · obtain ⟨rfl, rfl, rfl⟩ : k' = k ∧ c = ch ∧ x = op := by simpa using hx
        -- the queue was filled under the index of its owner, which is the handler itself
        obtain ⟨index', hproc⟩ := hqueue c x (by rw [hq]; exact List.mem_cons_self)
        obtain ⟨k'', hins'⟩ := hins index' x c hproc
        obtain ⟨-, rfl⟩ := huniq _ _ _ _ _ hins' hown
        exact ⟨index', List.mem_append_left _ hown, List.mem_append_left _ hproc⟩
  | push index op ch hentry' =>
    refine ⟨?_, by grind, by grind⟩
    intro c x hx
    rcases eq_or_ne c ch with rfl | hc
    · grind
    · simp only [Function.update_of_ne hc] at hx
      grind
  | nothing | refused | start | find | insert | expired | erase | drop =>
    exact ⟨by grind, by grind, by grind⟩

/-- A step keeps the wait channels in order, if `Start` returns a larger index than before. -/
theorem Ordered.step (h : Ordered L r last) (hm : r.Moves es r') (hlast : last ≤ last')
    (hstart : ∀ k index, .start k index ∈ es → last < index ∧ index ≤ last') :
    Ordered (L ++ es) r' last' :=
  ⟨h.started.step hm hlast hstart, h.owned_step hm, h.queued_step hm⟩

end WaitRoom

end KvRaft
