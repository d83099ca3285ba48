import KvRaft.Bytes.Cuts
import KvRaft.Rpc.Framing

/-!
# The segments of a request stream

A connection delivers its bytes in pieces, which need not be the requests that were sent.
`OnMessage` takes all that has arrived, reads one request from it and keeps nothing for the next
call.  Bytes after the request are lost, and a request that has arrived in part is not read.

## Main definitions

* `RpcProvider.EachOnce` : each request is dispatched once, in order, with its own arguments.
* `RpcProvider.Canonical` : a request with no byte that is not needed.

`RpcProvider.eachOnce_iff` : the pieces have to be the requests.
-/

namespace KvRaft

open Wire

/-! ### Headers -/

namespace RpcHeader

/-- A header that is written is no longer than those it is read from. -/
theorem field_bytes {h h' : RpcHeader} {tag : ℕ} {bs rest : Bytes}
    (hf : field h tag bs = some (h', rest)) :
    h'.bytes.length + rest.length ≤ h.bytes.length + bs.length + 1 := by
  have hname : ∀ (tag : UInt8) {value : Bytes}, readBytes bs = some (value, rest) →
      (bytesField tag value).length + rest.length ≤ bs.length + 1 := by
    intro tag value hr
    have := readBytes_weight hr
    unfold bytesField
    split_ifs
    · simp only [List.length_nil]
      omega
    · simp only [List.cons_append, List.length_cons, List.length_append]
      omega
  rcases field_cases hf with ⟨value, hr, rfl | rfl⟩ | ⟨value, hr, rfl⟩ | ⟨rfl, hle⟩
  · have := hname 10 hr
    simp only [bytes, List.length_append]
    omega
  · have := hname 18 hr
    simp only [bytes, List.length_append]
    omega
  · have := length_writeVarint_add_le (j := 4) hr (Nat.mod_le value 4294967296)
    simp only [bytes, List.length_append]
    split_ifs
    all_goals
      simp only [List.length_nil, List.length_cons]
      omega
  · omega

theorem length_bytes_le_of_parse {bs : Bytes} {h : RpcHeader} (hp : parseFromString bs = some h) :
    h.bytes.length ≤ bs.length := by
  unfold parseFromString parseMessage at hp
  split at hp
  · rename_i h' rest hf
    obtain rfl := Option.some.inj hp
    have := parseFields_weight (fun h => h.bytes.length) (fun _ _ _ _ _ hf => field_bytes hf) hf
    have hempty : (bytes {}).length = 0 := by decide
    omega
  · cases hp

end RpcHeader

/-! ### Requests -/

namespace RpcProvider

/-- The request with its service, method and arguments, as `OnMessage` expects it. -/
def encode : Bytes × Bytes × Bytes → Bytes
  | (serviceName, methodName, argsStr) =>
    let rpcHeaderStr := (RpcHeader.mk serviceName methodName argsStr.length).bytes
    writeVarint 4 rpcHeaderStr.length ++ (rpcHeaderStr ++ argsStr)

/-- A request without a byte that is not needed: it is what its service, method and arguments are
encoded to. -/
def Canonical (frame : Bytes) : Prop := (decode frame).map encode = some frame

instance (frame : Bytes) : Decidable (Canonical frame) := by
  unfold Canonical
  infer_instance

/-- What a request is encoded to is canonical. -/
theorem canonical_encode {serviceName methodName argsStr : Bytes}
    (hs : serviceName.length ≤ intMax - 16) (hm : methodName.length ≤ intMax - 16)
    (ha : argsStr.length ≤ intMax)
    (hh : (RpcHeader.mk serviceName methodName argsStr.length).bytes.length ≤ intMax) :
    Canonical (encode (serviceName, methodName, argsStr)) := by
  have hdecode : decode (encode (serviceName, methodName, argsStr)) =
      some (serviceName, methodName, argsStr) := decode_varint hs hm ha hh
  rw [Canonical, hdecode]
  rfl

/-- The methods that are called, with their arguments, when `OnMessage` is called with one buffer
after the other. -/
def dispatched (serviceMap : Bytes → Option ServiceInfo) (buffers : List Bytes) :
    List (Bytes × Bytes × Bytes) :=
  buffers.filterMap (onMessage serviceMap)

/-- Each request is dispatched once, in order, with its own arguments. -/
def EachOnce (serviceMap : Bytes → Option ServiceInfo) (frames buffers : List Bytes) : Prop :=
  (dispatched serviceMap buffers).map some = frames.map (onMessage serviceMap)

/-- **No buffer is shorter than the request that is read from it.** -/
theorem length_encode_le {recvBuf : Bytes} {r : Bytes × Bytes × Bytes} (hne : recvBuf ≠ [])
    (h : decode recvBuf = some r) : (encode r).length ≤ recvBuf.length := by
  have hpos := List.length_pos_of_ne_nil hne
  -- the sizes of the parts that are read
  obtain ⟨headerSize, rest, hvar⟩ : ∃ headerSize rest,
      readVarint32 recvBuf = (headerSize, rest) := ⟨_, _, rfl⟩
  have hrest : ∀ x ≤ headerSize, headerSize ≤ intMax →
      (writeVarint 4 x).length + rest.length ≤ recvBuf.length := by
    intro x hx hmax
    unfold readVarint32 at hvar
    split at hvar
    · rename_i value rest' hv
      obtain ⟨rfl, rfl⟩ := Prod.mk.inj hvar
      exact length_writeVarint_add_le hv (hx.trans (Nat.mod_le value 4294967296))
    · obtain ⟨rfl, rfl⟩ := Prod.mk.inj hvar
      exact absurd hmax (by decide)
  rw [decode, hvar] at h
  simp only at h
  split at h
  · cases h
  rename_i header hparse
  split_ifs at h with hargs
  obtain rfl := Option.some.inj h
  have hbytes := RpcHeader.length_bytes_le_of_parse hparse
  have hargsLen : ((readString headerSize rest).2.take header.argsSize).length = header.argsSize :=
    List.length_take_of_le hargs.2
  unfold encode
  simp only [hargsLen, List.length_append]
  by_cases hmax : headerSize ≤ intMax
  · simp only [readString, if_pos hmax, List.length_take, List.length_drop] at hbytes hargs
    have := hrest header.bytes.length (by omega) hmax
    change (writeVarint 4 header.bytes.length).length + (header.bytes.length + header.argsSize) ≤ _
    omega
  · -- the header is empty
    rw [readString, if_neg hmax] at hparse
    obtain rfl : {} = header := Option.some.inj hparse
    have hone : (writeVarint 4 (RpcHeader.bytes {}).length).length = 1 := by decide
    change (writeVarint 4 (RpcHeader.bytes {}).length).length + (0 + 0) ≤ _
    omega

theorem decode_of_onMessage {serviceMap : Bytes → Option ServiceInfo} {recvBuf : Bytes}
    {r : Bytes × Bytes × Bytes} (h : onMessage serviceMap recvBuf = some r) :
    decode recvBuf = some r := by
  unfold onMessage at h
  split at h
  · cases h
  rename_i serviceName methodName argsStr hdecode
  split at h
  · cases h
  split at h
  · cases h
  split_ifs at h
  exact hdecode.trans h

/-- A single byte is taken for a request without a name. -/
theorem onMessage_singleton (serviceMap : Bytes → Option ServiceInfo) (b : UInt8) :
    onMessage serviceMap [b] = onMessage serviceMap [] := by
  have hdecode : decode [b] = decode [] := by
    have hread : ∃ headerSize, readVarint32 [b] = (headerSize, []) := by
      unfold readVarint32 readVarint
      split_ifs
      · exact ⟨_, rfl⟩
      · exact ⟨_, rfl⟩
    obtain ⟨headerSize, hread⟩ := hread
    have hempty : readString headerSize [] = ([], []) := by
      unfold readString
      split_ifs
      · rw [List.take_nil, List.drop_nil]
      · rfl
    rw [decode, hread]
    simp only [hempty]
    rfl
  unfold onMessage
  rw [hdecode]

/-! ### Streams of requests -/

variable {serviceMap : Bytes → Option ServiceInfo} {frames : List Bytes}

/-- The requests that are dispatched from canonical ones are encoded to them. -/
theorem map_encode_of_canonical (hcanonical : ∀ f ∈ frames, Canonical f)
    {rs : List (Bytes × Bytes × Bytes)} (h : rs.map some = frames.map (onMessage serviceMap)) :
    rs.map encode = frames := by
  induction frames generalizing rs with
  | nil =>
    rw [List.map_nil, List.map_eq_nil_iff] at h
    rw [h, List.map_nil]
  | cons f frames ih =>
    cases rs with
    | nil => cases h
    | cons r rs =>
      obtain ⟨hr, hrs⟩ := List.cons.inj h
      have hf := hcanonical f List.mem_cons_self
      rw [Canonical, decode_of_onMessage hr.symm] at hf
      rw [List.map_cons, Option.some.inj hf,
        ih (fun f hmem => hcanonical f (List.mem_cons_of_mem _ hmem)) hrs]

/-- Requests that arrive one by one are dispatched. -/
theorem eachOnce_self (haccepts : ∀ f ∈ frames, (onMessage serviceMap f).isSome) :
    EachOnce serviceMap frames frames := by
  unfold EachOnce dispatched
  induction frames with
  | nil => rfl
  | cons f frames ih =>
    obtain ⟨r, hr⟩ := Option.isSome_iff_exists.1 (haccepts f List.mem_cons_self)
    rw [List.filterMap_cons_some hr, List.map_cons, List.map_cons, hr,
      ih fun f hmem => haccepts f (List.mem_cons_of_mem _ hmem)]

theorem EachOnce.length_eq {buffers : List Bytes} (h : EachOnce serviceMap frames buffers) :
    (dispatched serviceMap buffers).length = frames.length := by
  have := congrArg List.length h
  rwa [List.length_map, List.length_map] at this

/-- A stream that is read in any segmentation has no place to be cut. -/
theorem eq_singleton_of_eachOnce (h : ∀ buffers, Segments.Cuts buffers frames.flatten →
    EachOnce serviceMap frames buffers) : frames = [] ∨ ∃ b, frames = [[b]] := by
  by_cases hnil : frames.flatten = []
  · -- nothing arrives
    have hlen := (h [] ⟨hnil.symm, List.not_mem_nil⟩).length_eq
    exact Or.inl (List.length_eq_zero_iff.1 hlen.symm)
  right
  -- all arrives at once
  have hall := (h [frames.flatten] ⟨List.flatten_singleton, fun hmem =>
    hnil (List.mem_singleton.1 hmem).symm⟩).length_eq
  have hle := List.length_filterMap_le (onMessage serviceMap) [frames.flatten]
  have hlen : frames.length ≤ 1 := by
    rw [← hall]
    exact hle
  obtain ⟨f, rfl⟩ : ∃ f, frames = [f] := by
    refine List.length_eq_one_iff.1 (Nat.le_antisymm hlen (List.length_pos_of_ne_nil ?_))
    rintro rfl
    exact hnil rfl
  -- the bytes arrive one by one
  have hbytes := (h (f.map fun b => [b]) ⟨by
    rw [← List.flatMap_def, List.flatMap_singleton', List.flatten_singleton], by simp⟩).length_eq
  rw [dispatched, List.filterMap_map] at hbytes
  have hconst : onMessage serviceMap ∘ (fun b => [b]) = fun _ => onMessage serviceMap [] := by
    funext b
    exact onMessage_singleton serviceMap b
  rw [hconst] at hbytes
  cases hr : onMessage serviceMap [] with
  | none =>
    rw [hr, List.filterMap_none] at hbytes
    cases hbytes
  | some r =>
    have hmap : (fun _ : UInt8 => some r) = some ∘ fun _ => r := rfl
    rw [hr, hmap, List.filterMap_eq_map, List.length_map] at hbytes
    obtain ⟨b, rfl⟩ := List.length_eq_one_iff.1 hbytes
    exact ⟨b, rfl⟩

/-- **Requests are dispatched if each comes in a buffer of its own.**  This is needed, too, if they
are canonical.  No other stream than one of a single byte may be cut in any way. -/
theorem eachOnce_iff (haccepts : ∀ f ∈ frames, (onMessage serviceMap f).isSome) :
    (∀ buffers, Segments.Cuts buffers frames.flatten → buffers = frames →
      EachOnce serviceMap frames buffers) ∧
    ((∀ f ∈ frames, Canonical f) → ∀ buffers, Segments.Cuts buffers frames.flatten →
      (EachOnce serviceMap frames buffers ↔ buffers = frames)) ∧
    ((∀ buffers, Segments.Cuts buffers frames.flatten → EachOnce serviceMap frames buffers) ↔
      frames = [] ∨ ∃ b, frames = [[b]]) := by
  have hself := eachOnce_self haccepts
  refine ⟨fun buffers _ heq => heq ▸ hself, fun hcanonical buffers hcut => ⟨fun h => ?_, fun heq =>
    heq ▸ hself⟩, eq_singleton_of_eachOnce, ?_⟩
  · have hframes := map_encode_of_canonical hcanonical h
    have hread : ∀ piece r, piece ≠ [] → onMessage serviceMap piece = some r →
        (encode r).length ≤ piece.length := fun piece r hne hr =>
      length_encode_le hne (decode_of_onMessage hr)
    rw [← hframes]
    refine Segments.eq_write_of_flatten_eq hread hcut.2 ?_
    rw [hcut.1]
    exact congrArg List.flatten hframes.symm
  · rintro (rfl | ⟨b, rfl⟩) buffers hcut
    · rw [Segments.Cuts.eq_nil hcut]
      exact hself
    · rw [Segments.Cuts.eq_singleton (b := b) hcut]
      exact hself

/-- A provider of the service `raftRpc` with the methods `AppendEntries` and `RequestVote`. -/
def raftRpcService (serviceName : Bytes) : Option ServiceInfo :=
  if serviceName = [0x72, 0x61, 0x66, 0x74, 0x52, 0x70, 0x63] then some fun methodName =>
    if methodName ∈ [
        [0x41, 0x70, 0x70, 0x65, 0x6e, 0x64, 0x45, 0x6e, 0x74, 0x72, 0x69, 0x65, 0x73],
        [0x52, 0x65, 0x71, 0x75, 0x65, 0x73, 0x74, 0x56, 0x6f, 0x74, 0x65]]
    then some fun argsStr => decide (argsStr = []) else none
  else none

/-- A call of `AppendEntries` and one of `RequestVote`. -/
def twoCalls : List Bytes :=
  [encode ([0x72, 0x61, 0x66, 0x74, 0x52, 0x70, 0x63],
    [0x41, 0x70, 0x70, 0x65, 0x6e, 0x64, 0x45, 0x6e, 0x74, 0x72, 0x69, 0x65, 0x73], []),
  encode ([0x72, 0x61, 0x66, 0x74, 0x52, 0x70, 0x63],
    [0x52, 0x65, 0x71, 0x75, 0x65, 0x73, 0x74, 0x56, 0x6f, 0x74, 0x65], [])]

theorem eachOnce_iff_twoCalls : EachOnce raftRpcService twoCalls twoCalls ∧
    ¬ EachOnce raftRpcService twoCalls [twoCalls.flatten] := by
  have haccepts : ∀ f ∈ twoCalls, (onMessage raftRpcService f).isSome := by decide +kernel
  have hcanonical : ∀ f ∈ twoCalls, Canonical f := by
    refine List.forall_mem_cons.2 ⟨?_, List.forall_mem_singleton.2 ?_⟩
    · exact canonical_encode (by decide) (by decide) (by decide) (by decide +kernel)
    · exact canonical_encode (by decide) (by decide) (by decide) (by decide +kernel)
  obtain ⟨hself, hiff, -⟩ := eachOnce_iff haccepts
  refine ⟨hself twoCalls (by decide) rfl, fun h => ?_⟩
  exact absurd ((hiff hcanonical _ (by decide)).1 h) (by decide)

/-- Two requests arrive at once, and the second one is lost. -/
theorem not_eachOnce : ¬ ∀ (serviceMap : Bytes → Option ServiceInfo) (frames buffers : List Bytes),
    (∀ f ∈ frames, (onMessage serviceMap f).isSome) → Segments.Cuts buffers frames.flatten →
    EachOnce serviceMap frames buffers := by
  intro h
  have hlost := h raftRpcService twoCalls [twoCalls.flatten] (by decide +kernel) (by decide)
  have hdispatched : (dispatched raftRpcService [twoCalls.flatten]).length = 1 := by
    decide +kernel
  exact absurd (hdispatched.symm.trans hlost.length_eq) (by decide)

end RpcProvider

end KvRaft
