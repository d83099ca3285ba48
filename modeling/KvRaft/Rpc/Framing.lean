import KvRaft.Protobuf.Wire
import Mathlib.Data.List.Basic

/-!
# Framing of RPC requests

`MprpcChannel::CallMethod` sends the size of the header, the header and the arguments;
`RpcProvider::OnMessage` takes the three apart again.  The sender writes the size as the four bytes
of an integer in memory, the receiver reads a varint.  The header of a call is never as long as the
number the receiver reads, except for the empty header.

## Main results

* `RpcHeader.parse_bytes` : the header itself is read back.
* `RpcProvider.decode_varint` : a request with its size as a varint, which is not what is sent, is
  read back (see `RpcProvider.canonical_encode` for the streams of such requests).
* `Framing.roundTrip_iff` : a request as it is sent is read back only if it is empty.
-/

namespace KvRaft

open Wire

/-! ### The header -/

/-- The message `RpcHeader` of `rpcheader.proto`. -/
structure RpcHeader where
  serviceName : Bytes := []
  methodName : Bytes := []
  argsSize : ℕ := 0
  deriving DecidableEq

namespace RpcHeader

/-- A field of type `bytes`, which is left out when it is empty. -/
def bytesField (tag : UInt8) (value : Bytes) : Bytes :=
  if value = [] then [] else tag :: writeVarint 4 value.length ++ value

/-- The bytes of a header. -/
def bytes (h : RpcHeader) : Bytes :=
  bytesField 10 h.serviceName ++ bytesField 18 h.methodName ++
    if h.argsSize = 0 then [] else 24 :: writeVarint 4 h.argsSize

/-- `SerializeToString`, which fails for messages larger than `INT_MAX`. -/
def serializeToString (h : RpcHeader) : Option Bytes :=
  if h.bytes.length ≤ intMax then some h.bytes else none

/-- The cases of `_InternalParse`. -/
def field (h : RpcHeader) (tag : ℕ) (bs : Bytes) : Option (RpcHeader × Bytes) :=
  if tag = 10 then (readBytes bs).map fun (value, bs) => ({ h with serviceName := value }, bs)
  else if tag = 18 then (readBytes bs).map fun (value, bs) => ({ h with methodName := value }, bs)
  else if tag = 24 then
    (readVarint 10 bs).map fun (value, bs) => ({ h with argsSize := value % 4294967296 }, bs)
  else unknownField h tag bs

def parseFromString (bs : Bytes) : Option RpcHeader := parseMessage field {} bs

end RpcHeader

/-! ### The two sides -/

/-- The request that `CallMethod` sends, where `argsStr` is the serialized argument message;
`none` when serialization fails. -/
def MprpcChannel.sendRpcStr (serviceName methodName argsStr : Bytes) : Option Bytes :=
  if argsStr.length ≤ intMax then
    let header : RpcHeader := { serviceName, methodName, argsSize := argsStr.length }
    header.serializeToString.map fun rpcHeaderStr =>
      Bytes.rawUInt32 rpcHeaderStr.length ++ rpcHeaderStr ++ argsStr
  else none

/-- `ReadVarint32`: the value and what follows, all ones and nothing if there is no varint. -/
def readVarint32 (bs : Bytes) : ℕ × Bytes :=
  match readVarint 10 bs with
  | some (value, rest) => (value % 4294967296, rest)
  | none => (4294967295, [])

/-- `ReadString`, whose answer is not looked at: what there is, up to `size` bytes; nothing for a
size that is negative as an `int`. -/
def readString (size : ℕ) (bs : Bytes) : Bytes × Bytes :=
  if size ≤ intMax then (bs.take size, bs.drop size) else ([], bs)

/-- A service: its methods by name, each with the argument strings that its request message can
be parsed from. -/
abbrev ServiceInfo := Bytes → Option (Bytes → Bool)

namespace RpcProvider

/-- The first part of `OnMessage`: service name, method name and arguments of the request. -/
def decode (recvBuf : Bytes) : Option (Bytes × Bytes × Bytes) :=
  let (headerSize, rest) := readVarint32 recvBuf
  let (rpcHeaderStr, rest) := readString headerSize rest
  match RpcHeader.parseFromString rpcHeaderStr with
  | none => none
  | some rpcHeader =>
    if rpcHeader.argsSize ≤ intMax ∧ rpcHeader.argsSize ≤ rest.length then
      some (rpcHeader.serviceName, rpcHeader.methodName, rest.take rpcHeader.argsSize)
    else none

/-- `OnMessage` on a provider with the given services: the method that is called, with its
arguments. -/
def onMessage (serviceMap : Bytes → Option ServiceInfo) (recvBuf : Bytes) :
    Option (Bytes × Bytes × Bytes) :=
  match decode recvBuf with
  | none => none
  | some (serviceName, methodName, argsStr) =>
    match serviceMap serviceName with
    | none => none
    | some methodMap =>
      match methodMap methodName with
      | none => none
      | some parses =>
        if parses argsStr then some (serviceName, methodName, argsStr) else none

end RpcProvider

/-! ### Headers are read back -/

namespace RpcHeader

theorem length_bytesField_le (tag : UInt8) (value : Bytes) :
    (bytesField tag value).length ≤ value.length + 6 := by
  unfold bytesField
  split_ifs
  · simp
  · have := length_writeVarint_le 4 value.length
    simp only [List.cons_append, List.length_cons, List.length_append]
    omega

theorem length_bytes_le (h : RpcHeader) :
    h.bytes.length ≤ h.serviceName.length + h.methodName.length + 18 := by
  have hs := length_bytesField_le 10 h.serviceName
  have hm := length_bytesField_le 18 h.methodName
  have ha := length_writeVarint_le 4 h.argsSize
  simp only [bytes, List.length_append]
  split_ifs
  · simp only [List.length_nil]
    omega
  · simp only [List.length_cons]
    omega

/-- What a field does: it stores a name, or the size, or it is skipped. -/
theorem field_cases {h h' : RpcHeader} {tag : ℕ} {bs rest : Bytes}
    (hf : field h tag bs = some (h', rest)) :
    (∃ value, readBytes bs = some (value, rest) ∧
      (h' = { h with serviceName := value } ∨ h' = { h with methodName := value })) ∨
    (∃ value, readVarint 10 bs = some (value, rest) ∧
      h' = { h with argsSize := value % 4294967296 }) ∨
    h' = h ∧ rest.length ≤ bs.length := by
  unfold field at hf
  split_ifs at hf
  · obtain ⟨⟨value, rest'⟩, hr, heq⟩ := Option.map_eq_some_iff.1 hf
    obtain ⟨rfl, rfl⟩ := Prod.mk.inj heq
    exact Or.inl ⟨value, hr, Or.inl rfl⟩
  · obtain ⟨⟨value, rest'⟩, hr, heq⟩ := Option.map_eq_some_iff.1 hf
    obtain ⟨rfl, rfl⟩ := Prod.mk.inj heq
    exact Or.inl ⟨value, hr, Or.inr rfl⟩
  · obtain ⟨⟨value, rest'⟩, hr, heq⟩ := Option.map_eq_some_iff.1 hf
    obtain ⟨rfl, rfl⟩ := Prod.mk.inj heq
    exact Or.inr (Or.inl ⟨value, hr, rfl⟩)
  · exact Or.inr (Or.inr (unknownField_eq hf))

/-- A header weighs what its names weigh: no field adds more than it has bytes. -/
theorem field_weight {h h' : RpcHeader} {tag : ℕ} {bs rest : Bytes}
    (hf : field h tag bs = some (h', rest)) :
    h'.serviceName.length + h'.methodName.length + rest.length ≤
      h.serviceName.length + h.methodName.length + bs.length := by
  rcases field_cases hf with ⟨value, hr, rfl | rfl⟩ | ⟨value, hr, rfl⟩ | ⟨rfl, hle⟩
  · have := readBytes_length hr
    simp only
    omega
  · have := readBytes_length hr
    simp only
    omega
  · have := readVarint_length hr
    simp only
    omega
  · omega

theorem field_length {h h' : RpcHeader} {tag : ℕ} {bs rest : Bytes}
    (hf : field h tag bs = some (h', rest)) : rest.length ≤ bs.length := by
  rcases field_cases hf with ⟨value, hr, -⟩ | ⟨value, hr, -⟩ | ⟨-, hle⟩
  · have := readBytes_length hr
    omega
  · exact Nat.le_of_lt (readVarint_length hr)
  · exact hle

theorem parse_weight {bs : Bytes} {h : RpcHeader} (hp : parseFromString bs = some h) :
    h.serviceName.length + h.methodName.length ≤ bs.length := by
  unfold parseFromString parseMessage at hp
  split at hp
  · rename_i h' rest hf
    obtain rfl := Option.some.inj hp
    have := parseFields_weight (fun h => h.serviceName.length + h.methodName.length)
      (fun _ _ _ _ _ hf => Nat.le_succ_of_le (field_weight hf)) hf
    simp only [List.length_nil] at this
    omega
  · cases hp

/-- A message does not start with a zero byte. -/
theorem parse_zero_cons (bs : Bytes) : parseFromString (0 :: bs) = none := rfl

/-- A name is read back, where `set` is what its case of `field` stores. -/
theorem parse_bytesField {tag : UInt8} {h : RpcHeader} (set : Bytes → RpcHeader)
    (htag : tag.toNat < 128) (hgo : ¬ (tag.toNat = 0 ∨ tag.toNat % 8 = 4)) (hset : set [] = h)
    (hfield : ∀ bs, field h tag.toNat bs = (readBytes bs).map fun (value, bs) => (set value, bs))
    {value : Bytes} (hv : value.length ≤ intMax - 16) (rest : Bytes) :
    parseFields field (bytesField tag value ++ rest).length h (bytesField tag value ++ rest) =
      parseFields field rest.length (set value) rest := by
  unfold bytesField
  split_ifs with hval
  · rw [hval, hset]
    rfl
  · rw [List.cons_append, List.cons_append, List.append_assoc]
    refine parseFields_cons (fun _ _ _ _ _ => field_length) (readTag_cons htag _) hgo ?_
    rw [hfield, readBytes_writeVarint hv]
    rfl

/-- **A header is read back.** -/
theorem parse_bytes {h : RpcHeader} (hs : h.serviceName.length ≤ intMax - 16)
    (hm : h.methodName.length ≤ intMax - 16) (ha : h.argsSize < 4294967296) :
    parseFromString h.bytes = some h := by
  obtain ⟨serviceName, methodName, argsSize⟩ := h
  have key : parseFields field (RpcHeader.mk serviceName methodName argsSize).bytes.length {}
      (RpcHeader.mk serviceName methodName argsSize).bytes =
        some (⟨serviceName, methodName, argsSize⟩, none, []) := by
    rw [bytes, List.append_assoc,
      parse_bytesField (fun value => { serviceName := value }) (by decide) (by decide) rfl
        (fun _ => rfl) hs,
      parse_bytesField (fun value => { serviceName := serviceName, methodName := value })
        (by decide) (by decide) rfl (fun _ => rfl) hm]
    split_ifs with hzero
    · obtain rfl : argsSize = 0 := hzero
      rfl
    · have hlt : argsSize < 128 ^ (4 + 1) := Nat.lt_trans ha (by decide)
      have hread := readVarint_writeVarint hlt 5 []
      rw [List.append_nil] at hread
      have hfield : field { serviceName := serviceName, methodName := methodName } 24
          (writeVarint 4 argsSize) = some (⟨serviceName, methodName, argsSize⟩, []) := by
        rw [field, if_neg (by decide), if_neg (by decide), if_pos rfl, hread]
        simp only [Option.map_some, Option.some.injEq, Prod.mk.injEq, and_true]
        rw [Nat.mod_eq_of_lt ha]
      exact parseFields_last (fun _ _ _ _ _ => field_length) (readTag_cons (by decide) _)
        (by decide) hfield
  rw [parseFromString, parseMessage, key]

end RpcHeader

namespace RpcProvider

/-- **The receiver reads requests whose header size is a varint.** -/
theorem decode_varint {serviceName methodName argsStr : Bytes}
    (hs : serviceName.length ≤ intMax - 16) (hm : methodName.length ≤ intMax - 16)
    (ha : argsStr.length ≤ intMax)
    (hh : (RpcHeader.mk serviceName methodName argsStr.length).bytes.length ≤ intMax) :
    decode (writeVarint 4 (RpcHeader.mk serviceName methodName argsStr.length).bytes.length ++
      ((RpcHeader.mk serviceName methodName argsStr.length).bytes ++ argsStr)) =
        some (serviceName, methodName, argsStr) := by
  generalize hb : (RpcHeader.mk serviceName methodName argsStr.length).bytes = headerStr at hh ⊢
  have hparse : RpcHeader.parseFromString headerStr =
      some ⟨serviceName, methodName, argsStr.length⟩ :=
    hb ▸ RpcHeader.parse_bytes hs hm (Nat.lt_of_le_of_lt ha (by decide))
  have hlt : headerStr.length < 128 ^ (4 + 1) := Nat.lt_of_le_of_lt hh (by decide)
  rw [decode, readVarint32, readVarint_writeVarint hlt 5]
  simp only
  rw [Nat.mod_eq_of_lt (Nat.lt_of_le_of_lt hh (by decide)), readString, if_pos hh]
  simp only [List.take_left, List.drop_left, hparse]
  rw [if_pos ⟨ha, Nat.le_refl _⟩, List.take_length]

end RpcProvider

/-! ### Requests are not -/

namespace Framing

/-- **The framing round trip**: if the request can be sent, the receiver decodes the service, the
method and the arguments, and calls the method with the arguments if it is registered and they
parse. -/
def RoundTrip (serviceName methodName argsStr : Bytes) : Prop :=
  ∀ recvBuf, MprpcChannel.sendRpcStr serviceName methodName argsStr = some recvBuf →
    RpcProvider.decode recvBuf = some (serviceName, methodName, argsStr) ∧
    ∀ (serviceMap : Bytes → Option ServiceInfo) (methodMap : ServiceInfo) (parses : Bytes → Bool),
      serviceMap serviceName = some methodMap → methodMap methodName = some parses →
      parses argsStr = true →
      RpcProvider.onMessage serviceMap recvBuf = some (serviceName, methodName, argsStr)

/-- What the receiver takes for the size of the header is zero, or a zero byte follows, or it is
far too small. -/
theorem readVarint32_rawUInt32 {n : ℕ} (h : n ≤ intMax) (r : Bytes) :
    ∃ v rest, readVarint32 (Bytes.rawUInt32 n ++ r) = (v, rest) ∧ v ≤ intMax ∧
      (v = 0 ∨ (∃ rest', rest = 0 :: rest') ∨ v + 18 < n) := by
  unfold intMax at *
  have hzero : ∀ m : ℕ, m % 256 = 0 → UInt8.ofNat m = 0 := fun m hm =>
    UInt8.toNat_inj.1 (by rw [UInt8.toNat_ofNat', hm]; rfl)
  simp only [readVarint32, Bytes.rawUInt32, List.cons_append, List.nil_append, readVarint,
    UInt8.toNat_ofNat']
  have h₂₁ : n / 65536 = n / 256 / 256 := by omega
  have h₃₂ : n / 16777216 = n / 65536 / 256 := by omega
  -- which of the four bytes ends the varint
  split_ifs with h₀ h₁ h₂ h₃
  · refine ⟨_, _, rfl, by omega, ?_⟩
    by_cases hb : n / 256 % 256 = 0
    · exact Or.inr (Or.inl ⟨_, by rw [hzero _ hb]⟩)
    · omega
  · simp only [Option.map_some]
    refine ⟨_, _, rfl, by omega, ?_⟩
    by_cases hb : n / 65536 % 256 = 0
    · exact Or.inr (Or.inl ⟨_, by rw [hzero _ hb]⟩)
    · omega
  · simp only [Option.map_some]
    refine ⟨_, _, rfl, by omega, ?_⟩
    by_cases hb : n / 16777216 % 256 = 0
    · exact Or.inr (Or.inl ⟨_, by rw [hzero _ hb]⟩)
    · omega
  · -- seven bits of each byte make a number below `2 ^ 28`
    have hn : n = n % 2 ^ 8 + 256 * (n / 256 % 2 ^ 8 + 256 * (n / 65536 % 2 ^ 8 +
      256 * (n / 16777216 % 2 ^ 8))) := by omega
    generalize n % 2 ^ 8 = b₀, n / 256 % 2 ^ 8 = b₁, n / 65536 % 2 ^ 8 = b₂,
      n / 16777216 % 2 ^ 8 = b₃ at *
    simp only [Option.map_some]
    exact ⟨_, _, rfl, by omega, Or.inr (Or.inr (by omega))⟩
  · omega

/-- What can be decoded of a request is empty. -/
theorem eq_nil_of_decode {serviceName methodName argsStr recvBuf : Bytes}
    (hsend : MprpcChannel.sendRpcStr serviceName methodName argsStr = some recvBuf)
    (h : RpcProvider.decode recvBuf = some (serviceName, methodName, argsStr)) :
    serviceName = [] ∧ methodName = [] ∧ argsStr = [] := by
  unfold MprpcChannel.sendRpcStr at hsend
  split_ifs at hsend with ha
  obtain ⟨headerStr, hser, rfl⟩ := Option.map_eq_some_iff.1 hsend
  unfold RpcHeader.serializeToString at hser
  split_ifs at hser with hle
  obtain rfl := Option.some.inj hser
  have hlen := RpcHeader.length_bytes_le ⟨serviceName, methodName, argsStr.length⟩
  rw [List.append_assoc] at h
  obtain ⟨v, rest, hread, hv, hcase⟩ := readVarint32_rawUInt32 hle
    ((RpcHeader.mk serviceName methodName argsStr.length).bytes ++ argsStr)
  rw [RpcProvider.decode, hread] at h
  simp only [readString, if_pos hv] at h
  split at h
  · cases h
  rename_i header hparse
  split_ifs at h with hargs
  simp only [Option.some.injEq, Prod.mk.injEq] at h
  obtain ⟨rfl, rfl, hargsStr⟩ := h
  rcases hcase with rfl | ⟨rest', rfl⟩ | hlt
  · -- no header is read
    obtain rfl : {} = header := Option.some.inj hparse
    exact ⟨rfl, rfl, hargsStr.symm⟩
  · -- the header starts with a zero byte
    cases v with
    | zero =>
      obtain rfl : {} = header := Option.some.inj hparse
      exact ⟨rfl, rfl, hargsStr.symm⟩
    | succ v => rw [List.take_succ_cons, RpcHeader.parse_zero_cons] at hparse; cases hparse
  · -- the names do not fit into what is read
    have := RpcHeader.parse_weight hparse
    rw [List.length_take] at this
    simp only at hlen
    omega

/-- **A request is read back exactly if it is empty, or too long to be sent.** -/
theorem roundTrip_iff (serviceName methodName argsStr : Bytes) :
    RoundTrip serviceName methodName argsStr ↔
      (serviceName = [] ∧ methodName = [] ∧ argsStr = []) ∨ intMax < argsStr.length ∨
        intMax < (RpcHeader.mk serviceName methodName argsStr.length).bytes.length := by
  constructor
  · intro h
    by_cases ha : argsStr.length ≤ intMax
    swap
    · exact Or.inr (Or.inl (by omega))
    by_cases hh : (RpcHeader.mk serviceName methodName argsStr.length).bytes.length ≤ intMax
    swap
    · exact Or.inr (Or.inr (by omega))
    obtain ⟨recvBuf, hsend⟩ : ∃ recvBuf,
        MprpcChannel.sendRpcStr serviceName methodName argsStr = some recvBuf := by
      rw [MprpcChannel.sendRpcStr, if_pos ha]
      simp only [RpcHeader.serializeToString, if_pos hh, Option.map_some]
      exact ⟨_, rfl⟩
    exact Or.inl (eq_nil_of_decode hsend (h _ hsend).1)
  · rintro (⟨rfl, rfl, rfl⟩ | hlong) recvBuf hsend
    · obtain rfl := Option.some.inj hsend
      have hdecode : RpcProvider.decode [0, 0, 0, 0] = some ([], [], []) := rfl
      refine ⟨hdecode, fun serviceMap methodMap parses hs hm hp => ?_⟩
      change RpcProvider.onMessage serviceMap [0, 0, 0, 0] = _
      rw [RpcProvider.onMessage, hdecode]
      simp only [hs, hm, if_pos hp]
    · -- nothing is sent
      unfold MprpcChannel.sendRpcStr at hsend
      split_ifs at hsend with ha
      obtain ⟨headerStr, hser, -⟩ := Option.map_eq_some_iff.1 hsend
      unfold RpcHeader.serializeToString at hser
      split_ifs at hser with hle
      omega

/-- The call `raftRpc.AppendEntries` without arguments is not understood. -/
theorem not_roundTrip : ¬ ∀ serviceName methodName argsStr,
    RoundTrip serviceName methodName argsStr := by
  intro h
  have hdecode := (h [0x72, 0x61, 0x66, 0x74, 0x52, 0x70, 0x63]
    [0x41, 0x70, 0x70, 0x65, 0x6e, 0x64, 0x45, 0x6e, 0x74, 0x72, 0x69, 0x65, 0x73] [] _ rfl).1
  cases hdecode

end Framing

end KvRaft
