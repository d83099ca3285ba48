import KvRaft.Protobuf.Wire
import Mathlib.Data.Nat.Log

/-!
# Messages of protocol buffers

The code that is generated for a message goes through its fields one by one, to write them, to sum
up their sizes, to merge another message into it, and to parse.  What it does for a field depends on
the type of the field only.

* `Wire.FieldType α` : a type of fields with values in `α`.  `Wire.FieldType.int32`, `bool`,
  `bytes` and `messages` are those that occur here.
* `Wire.Fields σ` : the fields of a message, numbered one after the other, with values in the tuple
  `σ`.
* `Wire.MessageType M` : a message whose values are a structure `M`.

## Main results

* `Wire.MessageType.length_write` : `ByteSizeLong` is the number of bytes that are written.
* `Wire.MessageType.write_eq_nil` : a message is written as nothing if it is the default message.
* `Wire.MessageType.reads_write` : to parse what is written for a message is to merge it.
* `Wire.MessageType.parseFromString_write` : so a message is read back.
* `Wire.MessageType.write_of_parse_take` : a message that is cut off is not taken for the whole.
-/

namespace KvRaft

namespace Wire

/-! ### Sizes of varints -/

/-- The number of bytes of a varint. -/
def varintSize (v : ℕ) : ℕ := Nat.log 128 v + 1

theorem length_writeVarint {k v : ℕ} (h : v < 128 ^ (k + 1)) :
    (writeVarint k v).length = varintSize v := by
  induction k generalizing v with
  | zero =>
    rw [Nat.zero_add, Nat.pow_one] at h
    rw [writeVarint, varintSize, Nat.log_of_lt h]
    rfl
  | succ k ih =>
    rw [writeVarint]
    split_ifs with hlt
    · rw [varintSize, Nat.log_of_lt hlt]
      rfl
    · have hdiv : v / 128 < 128 ^ (k + 1) :=
        Nat.div_lt_of_lt_mul (by rwa [Nat.pow_succ, Nat.mul_comm] at h)
      have hpos : 0 < Nat.log 128 v := Nat.log_pos (by decide) (by omega)
      rw [List.length_cons, ih hdiv, varintSize, varintSize, Nat.log_div_base]
      omega

/-- A message is written with its size before it. -/
theorem length_writeVarint_four {n : ℕ} (h : n ≤ intMax) :
    (writeVarint 4 n).length = varintSize n :=
  length_writeVarint (Nat.lt_of_le_of_lt h (by decide))

theorem readVarint_nil (k : ℕ) : readVarint k [] = none := by cases k <;> rfl

/-- A varint that is cut off is not read. -/
theorem readVarint_take {k v n : ℕ} (h : n < (writeVarint k v).length) (j : ℕ) :
    readVarint j ((writeVarint k v).take n) = none := by
  induction k generalizing v n j with
  | zero =>
    obtain rfl : n = 0 := by
      change n < 1 at h
      omega
    exact readVarint_nil j
  | succ k ih =>
    cases n with
    | zero => exact readVarint_nil j
    | succ n =>
      rw [writeVarint] at h ⊢
      split_ifs at h ⊢
      · rw [List.length_singleton] at h
        omega
      · rw [List.length_cons] at h
        cases j with
        | zero => rfl
        | succ j =>
          have hv : (UInt8.ofNat (v % 128 + 128)).toNat = v % 128 + 128 := by
            rw [UInt8.toNat_ofNat', Nat.mod_eq_of_lt (by omega)]
          rw [List.take_succ_cons, readVarint, hv, if_neg (by omega), ih (by omega) j]
          rfl

/-- Bytes behind their size that are cut off are not read. -/
theorem readBytes_take {v : Bytes} {n : ℕ} (h : n < (writeVarint 4 v.length ++ v).length)
    (hv : v.length ≤ intMax) : readBytes ((writeVarint 4 v.length ++ v).take n) = none := by
  rw [List.length_append] at h
  rw [readBytes]
  by_cases hn : n < (writeVarint 4 v.length).length
  · rw [List.take_append_of_le_length (Nat.le_of_lt hn), readVarint_take hn]
  · have hread := readVarint_writeVarint (Nat.lt_of_le_of_lt hv (by decide) : _ < 128 ^ (4 + 1)) 0
      (v.take (n - (writeVarint 4 v.length).length))
    rw [List.take_append, List.take_of_length_le (Nat.le_of_not_lt hn), hread]
    simp only [readRaw, List.length_take]
    split_ifs
    · omega
    · rfl
    · rfl

/-! ### The loop -/

/-- A function that handles fields and never gives bytes back. -/
def Consumes {σ : Type} (field : σ → ℕ → Bytes → Option (σ × Bytes)) : Prop :=
  ∀ s tag bs s' rest, field s tag bs = some (s', rest) → rest.length ≤ bs.length

/-- The loop over the fields gets from `s` at `bs` to `s'` at `bs'`. -/
def Reads {σ : Type} (field : σ → ℕ → Bytes → Option (σ × Bytes)) (s : σ) (bs : Bytes) (s' : σ)
    (bs' : Bytes) : Prop :=
  parseFields field bs.length s bs = parseFields field bs'.length s' bs'

/-- The loop over the fields fails. -/
def Fails {σ : Type} (field : σ → ℕ → Bytes → Option (σ × Bytes)) (s : σ) (bs : Bytes) : Prop :=
  parseFields field bs.length s bs = none

variable {σ : Type} {parse : σ → ℕ → Bytes → Option (σ × Bytes)}

theorem Reads.refl (s : σ) (bs : Bytes) : Reads parse s bs s bs := rfl

theorem Reads.trans {s₁ s₂ s₃ : σ} {bs₁ bs₂ bs₃ : Bytes} (h : Reads parse s₁ bs₁ s₂ bs₂)
    (h' : Reads parse s₂ bs₂ s₃ bs₃) : Reads parse s₁ bs₁ s₃ bs₃ :=
  Eq.trans h h'

/-- A tag that the loop does not stop at. -/
structure FieldTag (tag : UInt8) : Prop where
  lt : tag.toNat < 128
  ne_zero : tag.toNat ≠ 0
  mod_ne : tag.toNat % 8 ≠ 4

/-- One field. -/
theorem Reads.one (hparse : Consumes parse) {tag : UInt8} (htag : FieldTag tag) {s s' : σ}
    {bs rest : Bytes} (h : parse s tag.toNat bs = some (s', rest)) :
    Reads parse s (tag :: bs) s' rest :=
  parseFields_cons hparse (readTag_cons htag.lt bs) (not_or.2 ⟨htag.ne_zero, htag.mod_ne⟩) h

theorem Reads.fails {s s' : σ} {bs bs' : Bytes} (h : Reads parse s bs s' bs')
    (h' : Fails parse s' bs') : Fails parse s bs :=
  Eq.trans h h'

/-- One field that is not read. -/
theorem Fails.one {tag : UInt8} (htag : FieldTag tag) {s : σ} {bs : Bytes}
    (h : parse s tag.toNat bs = none) : Fails parse s (tag :: bs) := by
  rw [Fails, List.length_cons, parseFields]
  simp only [readTag_cons htag.lt bs, if_neg (not_or.2 ⟨htag.ne_zero, htag.mod_ne⟩), h]

theorem parseMessage_of_fails {s : σ} {bs : Bytes} (h : Fails parse s bs) :
    parseMessage parse s bs = none := by
  have hend : parseFields parse bs.length s bs = none := h
  rw [parseMessage, hend]

theorem parseMessage_of_reads {s s' : σ} {bs : Bytes} (h : Reads parse s bs s' []) :
    parseMessage parse s bs = some s' := by
  have hend : parseFields parse bs.length s bs = some (s', none, []) := h
  rw [parseMessage, hend]

/-! ### Types of fields -/

/-- A type of fields: how values are written behind a tag, measured, merged and read. -/
structure FieldType (α : Type) where
  wireType : ℕ
  default : α
  /-- The bytes of the field, its tags included; none for a value that is the default. -/
  write : UInt8 → α → Bytes
  byteSize : α → ℕ
  mergeFrom : α → α → α
  /-- Take over the value behind a tag. -/
  read : α → Bytes → Option (α × Bytes)
  wireType_eq : wireType = 0 ∨ wireType = 2
  length_write : ∀ tag a, byteSize a ≤ intMax → (write tag a).length = byteSize a
  write_eq_nil : ∀ tag a, write tag a = [] ↔ a = default
  byteSize_default : byteSize default = 0
  mergeFrom_default : ∀ a, mergeFrom default a = a
  read_length : ∀ a bs a' rest, read a bs = some (a', rest) → rest.length ≤ bs.length
  /-- To read what is written for a value is to merge it. -/
  reads : ∀ {σ : Type} {parse : σ → ℕ → Bytes → Option (σ × Bytes)}, Consumes parse →
    ∀ {tag : UInt8}, FieldTag tag → ∀ {f : α → σ},
    (∀ a bs, parse (f a) tag.toNat bs = (read a bs).map fun x => (f x.1, x.2)) →
    ∀ (a b : α) (rest : Bytes), byteSize b ≤ intMax - 16 →
      Reads parse (f a) (write tag b ++ rest) (f (mergeFrom a b)) rest
  /-- What is written for a value and cut off is written for another one, or it is not read. -/
  cut : ∀ {σ : Type} {parse : σ → ℕ → Bytes → Option (σ × Bytes)}, Consumes parse →
    ∀ {tag : UInt8}, FieldTag tag → ∀ {f : α → σ},
    (∀ a bs, parse (f a) tag.toNat bs = (read a bs).map fun x => (f x.1, x.2)) →
    ∀ (a b : α) {n : ℕ}, byteSize b ≤ intMax - 16 → n < (write tag b).length →
      (∃ b', write tag b' = (write tag b).take n ∧ byteSize b' ≤ byteSize b) ∨
        Fails parse (f a) ((write tag b).take n)

/-- One value is read. -/
theorem reads_value {α : Type} {r : α → Bytes → Option (α × Bytes)}
    (hparse : Consumes parse) {tag : UInt8} (htag : FieldTag tag) {f : α → σ}
    (hput : ∀ a bs, parse (f a) tag.toNat bs = (r a bs).map fun x => (f x.1, x.2))
    {a b : α} {bs rest : Bytes} (h : r a bs = some (b, rest)) :
    Reads parse (f a) (tag :: bs) (f b) rest := by
  refine .one hparse htag ?_
  rw [hput, h]
  rfl

/-- One value is not read. -/
theorem fails_value {α : Type} {r : α → Bytes → Option (α × Bytes)} {tag : UInt8}
    (htag : FieldTag tag) {f : α → σ}
    (hput : ∀ a bs, parse (f a) tag.toNat bs = (r a bs).map fun x => (f x.1, x.2))
    {a : α} {bs : Bytes} (h : r a bs = none) : Fails parse (f a) (tag :: bs) := by
  refine .one htag ?_
  rw [hput, h]
  rfl

/-- Bytes that are cut off behind their tag are not read. -/
theorem fails_bytes {tag : UInt8} (htag : FieldTag tag) {f : Bytes → σ}
    (hput : ∀ a bs, parse (f a) tag.toNat bs = (readBytes bs).map fun x => (f x.1, x.2))
    {a v : Bytes} {n : ℕ} (hn : n < (writeVarint 4 v.length ++ v).length)
    (hv : v.length ≤ intMax) :
    Fails parse (f a) ((tag :: (writeVarint 4 v.length ++ v)).take (n + 1)) := by
  rw [List.take_succ_cons]
  exact fails_value (r := fun _ => readBytes) htag hput (readBytes_take hn hv)

namespace FieldType

theorem signExtend_lt (v : BitVec 32) : (v.signExtend 64).toNat < 128 ^ (9 + 1) :=
  Nat.lt_trans (v.signExtend 64).isLt (by decide)

theorem setWidth_signExtend (v : BitVec 32) : (v.signExtend 64).setWidth 32 = v := by
  ext j hj
  rw [BitVec.getElem_setWidth, BitVec.getLsbD_signExtend]
  simp [hj, Nat.lt_trans hj (by decide : 32 < 64)]

/-- `int32`: a varint of 64 bits, the sign extended. -/
def int32 : FieldType (BitVec 32) where
  wireType := 0
  default := 0
  write tag v := if v = 0 then [] else tag :: writeVarint 9 (v.signExtend 64).toNat
  byteSize v := if v = 0 then 0 else 1 + varintSize (v.signExtend 64).toNat
  mergeFrom a b := if b = 0 then a else b
  read _ bs := (readVarint 10 bs).map fun (value, bs) => (BitVec.ofNat 32 value, bs)
  wireType_eq := Or.inl rfl
  length_write tag v _ := by
    split_ifs
    · rfl
    · rw [List.length_cons, length_writeVarint (signExtend_lt v), Nat.add_comm]
  write_eq_nil tag v := by
    split_ifs with hzero
    · exact iff_of_true rfl hzero
    · simpa using hzero
  byteSize_default := rfl
  mergeFrom_default v := by
    split_ifs with hzero
    · exact hzero.symm
    · rfl
  read_length a bs a' rest h := by
    obtain ⟨⟨value, rest'⟩, hr, heq⟩ := Option.map_eq_some_iff.1 h
    obtain ⟨-, rfl⟩ := Prod.mk.inj heq
    exact Nat.le_of_lt (readVarint_length hr)
  reads hparse tag htag f hput a b rest _ := by
    split_ifs with hzero
    · exact .refl _ _
    · rw [List.cons_append]
      refine reads_value hparse htag hput ?_
      rw [show 10 = 9 + 1 + 0 by rfl, readVarint_writeVarint (signExtend_lt b)]
      simp only [Option.map_some, BitVec.ofNat_toNat, setWidth_signExtend]
  cut _ tag htag f hput a b n _ hn := by
    cases n with
    | zero => exact Or.inl ⟨0, by rw [if_pos rfl, List.take_zero], Nat.zero_le _⟩
    | succ n =>
      split_ifs at hn ⊢ with hzero
      · cases hn
      · refine Or.inr ?_
        rw [List.take_succ_cons]
        refine fails_value htag hput ?_
        rw [readVarint_take (Nat.lt_of_succ_lt_succ hn)]
        rfl

/-- `bool`: a varint, of which the low 64 bits count. -/
def bool : FieldType Bool where
  wireType := 0
  default := false
  write tag v := if v then [tag, 1] else []
  byteSize v := if v then 2 else 0
  mergeFrom a b := if b then b else a
  read _ bs := (readVarint 10 bs).map fun (value, bs) =>
    (decide (value % 18446744073709551616 ≠ 0), bs)
  wireType_eq := Or.inl rfl
  length_write tag v _ := by cases v <;> rfl
  write_eq_nil tag v := by cases v <;> simp
  byteSize_default := rfl
  mergeFrom_default v := by cases v <;> rfl
  read_length a bs a' rest h := by
    obtain ⟨⟨value, rest'⟩, hr, heq⟩ := Option.map_eq_some_iff.1 h
    obtain ⟨-, rfl⟩ := Prod.mk.inj heq
    exact Nat.le_of_lt (readVarint_length hr)
  reads hparse tag htag f hput a b rest _ := by
    cases b with
    | false => exact .refl _ _
    | true => exact reads_value hparse htag hput rfl
  cut _ tag htag f hput a b n _ hn := by
    cases n with
    | zero => exact Or.inl ⟨false, rfl, Nat.zero_le _⟩
    | succ n =>
      cases b with
      | false => cases hn
      | true =>
        obtain rfl : n = 0 := by
          change n + 1 < 2 at hn
          omega
        exact Or.inr (fails_value htag hput rfl)

/-- `bytes`: the number of bytes and the bytes. -/
def bytes : FieldType Bytes where
  wireType := 2
  default := []
  write tag v := if v = [] then [] else tag :: (writeVarint 4 v.length ++ v)
  byteSize v := if v = [] then 0 else 1 + varintSize v.length + v.length
  mergeFrom a b := if b = [] then a else b
  read _ bs := readBytes bs
  wireType_eq := Or.inr rfl
  length_write tag v h := by
    split_ifs with hnil
    · rfl
    · rw [if_neg hnil] at h
      rw [List.length_cons, List.length_append, length_writeVarint_four (by omega)]
      omega
  write_eq_nil tag v := by
    split_ifs with hnil
    · exact iff_of_true rfl hnil
    · simpa using hnil
  byteSize_default := rfl
  mergeFrom_default v := by
    split_ifs with hnil
    · exact hnil.symm
    · rfl
  read_length a bs a' rest h := by
    have := readBytes_length h
    omega
  reads hparse tag htag f hput a b rest h := by
    split_ifs at h ⊢ with hnil
    · exact .refl _ _
    · rw [List.cons_append, List.append_assoc]
      refine reads_value hparse htag hput ?_
      exact readBytes_writeVarint (by omega) rest
  cut _ tag htag f hput a b n h hn := by
    cases n with
    | zero => exact Or.inl ⟨[], by rw [if_pos rfl, List.take_zero], Nat.zero_le _⟩
    | succ n =>
      split_ifs at h hn ⊢ with hnil
      · cases hn
      · exact Or.inr (fails_bytes htag hput (Nat.lt_of_succ_lt_succ hn) (by omega))

end FieldType

/-! ### Messages -/

/-- The fields of a message, in the order of their numbers. -/
inductive Fields : Type → Type 1
  | nil : Fields Unit
  | cons {α σ : Type} (t : FieldType α) (fs : Fields σ) : Fields (α × σ)

namespace Fields

/-- The tag of the field with number `k`. -/
def tag {α : Type} (t : FieldType α) (k : ℕ) : ℕ := 8 * k + t.wireType

def count : {σ : Type} → Fields σ → ℕ
  | _, .nil => 0
  | _, .cons _ fs => fs.count + 1

def default : {σ : Type} → Fields σ → σ
  | _, .nil => ()
  | _, .cons t fs => (t.default, fs.default)

/-- `_InternalSerialize`, from field number `k` on. -/
def write : {σ : Type} → Fields σ → ℕ → σ → Bytes
  | _, .nil, _, _ => []
  | _, .cons t fs, k, s => t.write (UInt8.ofNat (tag t k)) s.1 ++ fs.write (k + 1) s.2

/-- `ByteSizeLong`. -/
def byteSize : {σ : Type} → Fields σ → σ → ℕ
  | _, .nil, _ => 0
  | _, .cons t fs, s => t.byteSize s.1 + fs.byteSize s.2

/-- `MergeFrom`. -/
def mergeFrom : {σ : Type} → Fields σ → σ → σ → σ
  | _, .nil, _, _ => ()
  | _, .cons t fs, s, s' => (t.mergeFrom s.1 s'.1, fs.mergeFrom s.2 s'.2)

/-- The cases of `_InternalParse`, from field number `k` on. -/
def field : {σ : Type} → Fields σ → ℕ → σ → ℕ → Bytes → Option (σ × Bytes)
  | _, .nil, _, s, tag, bs => unknownField s tag bs
  | _, .cons t fs, k, s, tag', bs =>
    if tag' = tag t k then (t.read s.1 bs).map fun x => ((x.1, s.2), x.2)
    else (fs.field (k + 1) s.2 tag' bs).map fun x => ((s.1, x.1), x.2)

theorem toNat_tag {α : Type} (t : FieldType α) {k : ℕ} (hk : k < 16) :
    (UInt8.ofNat (tag t k)).toNat = tag t k := by
  have := t.wireType_eq
  rw [UInt8.toNat_ofNat', Nat.mod_eq_of_lt]
  simp only [tag]
  omega

theorem fieldTag_tag {α : Type} (t : FieldType α) {k : ℕ} (hpos : 1 ≤ k) (hk : k < 16) :
    FieldTag (UInt8.ofNat (tag t k)) := by
  have := t.wireType_eq
  refine ⟨?_, ?_, ?_⟩ <;> rw [toNat_tag t hk] <;> simp only [tag] <;> omega

theorem consumes_field (fs : Fields σ) (k : ℕ) : Consumes (fs.field k) := by
  induction fs generalizing k with
  | nil => exact fun s tag bs s' rest h => (unknownField_eq h).2
  | cons t fs ih =>
    intro s tag' bs s' rest h
    rw [field] at h
    split_ifs at h
    · obtain ⟨⟨a, rest'⟩, hr, heq⟩ := Option.map_eq_some_iff.1 h
      obtain ⟨-, rfl⟩ := Prod.mk.inj heq
      exact t.read_length _ _ _ _ hr
    · obtain ⟨⟨a, rest'⟩, hr, heq⟩ := Option.map_eq_some_iff.1 h
      obtain ⟨-, rfl⟩ := Prod.mk.inj heq
      exact ih (k + 1) _ _ _ _ _ hr

theorem length_write (fs : Fields σ) (k : ℕ) {s : σ} (h : fs.byteSize s ≤ intMax) :
    (fs.write k s).length = fs.byteSize s := by
  induction fs generalizing k with
  | nil => rfl
  | cons t fs ih =>
    rw [byteSize] at h
    rw [write, byteSize, List.length_append, t.length_write _ _ (by omega), ih (k + 1) (by omega)]

theorem write_eq_nil (fs : Fields σ) (k : ℕ) {s : σ} : fs.write k s = [] ↔ s = fs.default := by
  induction fs generalizing k with
  | nil => exact iff_of_true rfl rfl
  | cons t fs ih =>
    rw [write, List.append_eq_nil_iff, t.write_eq_nil, ih, default, Prod.ext_iff]

theorem mergeFrom_default (fs : Fields σ) (s : σ) : fs.mergeFrom fs.default s = s := by
  induction fs with
  | nil => rfl
  | cons t fs ih =>
    rw [mergeFrom, default, t.mergeFrom_default, ih]

/-- The first field and the others have their own cases. -/
theorem field_cons {α : Type} (t : FieldType α) (fs : Fields σ) {τ : Type}
    {parse : τ → ℕ → Bytes → Option (τ × Bytes)} {k : ℕ} (hk : k < 16) {f : α × σ → τ}
    (hput : ∀ s tag bs, 8 * k ≤ tag →
      parse (f s) tag bs = ((cons t fs).field k s tag bs).map fun x => (f x.1, x.2)) :
    (∀ s a bs, parse (f (a, s)) (UInt8.ofNat (tag t k)).toNat bs =
      (t.read a bs).map fun x => (f (x.1, s), x.2)) ∧
    ∀ a s tag' bs, 8 * (k + 1) ≤ tag' →
      parse (f (a, s)) tag' bs = (fs.field (k + 1) s tag' bs).map fun x => (f (a, x.1), x.2) := by
  have htype := t.wireType_eq
  constructor
  · intro s a bs
    rw [toNat_tag t hk, hput _ _ _ (by simp only [tag]; omega), field, if_pos rfl, Option.map_map]
    rfl
  · intro a s tag' bs htag'
    have hne : tag' ≠ tag t k := by
      simp only [tag]
      omega
    rw [hput _ _ _ (by omega), field, if_neg hne, Option.map_map]
    rfl

/-- **The fields of a message are read one after the other**, each by its own case. -/
theorem reads (fs : Fields σ) {τ : Type} {parse : τ → ℕ → Bytes → Option (τ × Bytes)}
    (hparse : Consumes parse) {k : ℕ} (hpos : 1 ≤ k) (hk : k + fs.count ≤ 16) {f : σ → τ}
    (hput : ∀ s tag bs, 8 * k ≤ tag →
      parse (f s) tag bs = (fs.field k s tag bs).map fun x => (f x.1, x.2))
    (s m : σ) (rest : Bytes) (h : fs.byteSize m ≤ intMax - 16) :
    Reads parse (f s) (fs.write k m ++ rest) (f (fs.mergeFrom s m)) rest := by
  induction fs generalizing k with
  | nil => exact .refl _ _
  | cons t fs ih =>
    rw [count] at hk
    rw [byteSize] at h
    have hfield := field_cons t fs (by omega) hput
    rw [write, List.append_assoc]
    have hfirst := t.reads hparse (fieldTag_tag t hpos (by omega)) (f := fun a => f (a, s.2))
      (hfield.1 s.2) s.1 m.1 (fs.write (k + 1) m.2 ++ rest) (by omega)
    exact hfirst.trans
      (ih (by omega) (by omega) (hfield.2 (t.mergeFrom s.1 m.1)) s.2 m.2 (by omega))

theorem byteSize_default (fs : Fields σ) : fs.byteSize fs.default = 0 := by
  induction fs with
  | nil => rfl
  | cons t fs ih => rw [byteSize, default, t.byteSize_default, ih]

/-- **Fields that are cut off** are those of another message, or they are not read. -/
theorem cut (fs : Fields σ) {τ : Type} {parse : τ → ℕ → Bytes → Option (τ × Bytes)}
    (hparse : Consumes parse) {k : ℕ} (hpos : 1 ≤ k) (hk : k + fs.count ≤ 16) {f : σ → τ}
    (hput : ∀ s tag bs, 8 * k ≤ tag →
      parse (f s) tag bs = (fs.field k s tag bs).map fun x => (f x.1, x.2))
    (s m : σ) {n : ℕ} (h : fs.byteSize m ≤ intMax - 16) (hn : n < (fs.write k m).length) :
    (∃ m', fs.write k m' = (fs.write k m).take n ∧ fs.byteSize m' ≤ fs.byteSize m) ∨
      Fails parse (f s) ((fs.write k m).take n) := by
  induction fs generalizing k n with
  | nil => cases hn
  | cons t fs ih =>
    rw [count] at hk
    rw [byteSize] at h
    rw [write] at hn ⊢
    have hfield := field_cons t fs (by omega) hput
    by_cases hfirst : n < (t.write (UInt8.ofNat (tag t k)) m.1).length
    · rw [List.take_append_of_le_length (Nat.le_of_lt hfirst)]
      rcases t.cut hparse (fieldTag_tag t hpos (by omega)) (f := fun a => f (a, s.2))
        (hfield.1 s.2) s.1 m.1 (by omega) hfirst with ⟨b, hb, hle⟩ | hfails
      · refine Or.inl ⟨(b, fs.default), ?_, ?_⟩
        · rw [write, (fs.write_eq_nil (k + 1)).2 rfl, List.append_nil, hb]
        · change t.byteSize b + fs.byteSize fs.default ≤ t.byteSize m.1 + fs.byteSize m.2
          rw [byteSize_default]
          omega
      · exact Or.inr hfails
    · rw [List.length_append] at hn
      rw [List.take_append, List.take_of_length_le (Nat.le_of_not_lt hfirst)]
      have hreads := t.reads hparse (fieldTag_tag t hpos (by omega)) (f := fun a => f (a, s.2))
        (hfield.1 s.2) s.1 m.1 ((fs.write (k + 1) m.2).take
          (n - (t.write (UInt8.ofNat (tag t k)) m.1).length)) (by omega)
      rcases ih (k := k + 1) (n := n - (t.write (UInt8.ofNat (tag t k)) m.1).length) (by omega)
        (by omega) (hfield.2 (t.mergeFrom s.1 m.1)) s.2 m.2 (by omega) (by omega) with
        ⟨m', hm', hle⟩ | hfails
      · refine Or.inl ⟨(m.1, m'), by rw [write, hm'], ?_⟩
        change t.byteSize m.1 + fs.byteSize m' ≤ t.byteSize m.1 + fs.byteSize m.2
        omega
      · exact Or.inr (hreads.fails hfails)

end Fields

/-- A message whose values are kept in `M`. -/
structure MessageType (M : Type) where
  Values : Type
  fields : Fields Values
  /-- The tags take one byte. -/
  count_le : fields.count ≤ 15
  values : M → Values
  ofValues : Values → M
  ofValues_values : ∀ m, ofValues (values m) = m
  values_ofValues : ∀ v, values (ofValues v) = v

namespace MessageType

variable {M : Type} (T : MessageType M)

def default : M := T.ofValues T.fields.default

/-- `_InternalSerialize`. -/
def write (m : M) : Bytes := T.fields.write 1 (T.values m)

/-- `ByteSizeLong`. -/
def byteSize (m : M) : ℕ := T.fields.byteSize (T.values m)

/-- `MergeFrom`. -/
def mergeFrom (m m' : M) : M := T.ofValues (T.fields.mergeFrom (T.values m) (T.values m'))

/-- The cases of `_InternalParse`. -/
def field (m : M) (tag : ℕ) (bs : Bytes) : Option (M × Bytes) :=
  (T.fields.field 1 (T.values m) tag bs).map fun x => (T.ofValues x.1, x.2)

/-- `SerializeToString`. -/
def serializeToString (m : M) : Option Bytes :=
  if T.byteSize m ≤ intMax then some (T.write m) else none

/-- `MergeFromString`. -/
def mergeFromString (m : M) (bs : Bytes) : Option M := parseMessage T.field m bs

/-- `ParseFromString`. -/
def parseFromString (bs : Bytes) : Option M := T.mergeFromString T.default bs

theorem consumes_field : Consumes T.field := by
  intro m tag bs m' rest h
  obtain ⟨⟨v, rest'⟩, hf, heq⟩ := Option.map_eq_some_iff.1 h
  obtain ⟨-, rfl⟩ := Prod.mk.inj heq
  exact T.fields.consumes_field 1 _ _ _ _ _ hf

variable {T}

/-- **`ByteSizeLong` is exact.** -/
theorem length_write {m : M} (h : T.byteSize m ≤ intMax) : (T.write m).length = T.byteSize m :=
  T.fields.length_write 1 h

/-- **Nothing is written** for the message of which all fields are their defaults, and for no
other. -/
theorem write_eq_nil {m : M} : T.write m = [] ↔ m = T.default := by
  rw [write, T.fields.write_eq_nil, default]
  constructor
  · intro h
    rw [← h, T.ofValues_values]
  · rintro rfl
    exact T.values_ofValues _

theorem mergeFrom_default (m : M) : T.mergeFrom T.default m = m := by
  rw [mergeFrom, default, T.values_ofValues, T.fields.mergeFrom_default, T.ofValues_values]

/-- **To parse what is written for a message is to merge it.** -/
theorem reads_write (m m' : M) (rest : Bytes) (h : T.byteSize m' ≤ intMax - 16) :
    Reads T.field m (T.write m' ++ rest) (T.mergeFrom m m') rest := by
  have := T.fields.reads T.consumes_field (Nat.le_refl 1) (by have := T.count_le; omega)
    (f := T.ofValues) (fun s tag bs _ => by rw [field, T.values_ofValues]) (T.values m)
    (T.values m') rest h
  rwa [T.ofValues_values] at this

theorem mergeFromString_write_append (m m' : M) (rest : Bytes)
    (h : T.byteSize m' ≤ intMax - 16) :
    T.mergeFromString m (T.write m' ++ rest) = T.mergeFromString (T.mergeFrom m m') rest := by
  have hreads : parseFields T.field (T.write m' ++ rest).length m (T.write m' ++ rest) = _ :=
    reads_write m m' rest h
  simp only [mergeFromString, parseMessage, hreads]

theorem mergeFromString_write (m m' : M) (h : T.byteSize m' ≤ intMax - 16) :
    T.mergeFromString m (T.write m') = some (T.mergeFrom m m') := by
  have := reads_write m m' [] h
  rw [List.append_nil] at this
  exact parseMessage_of_reads this

/-- **A message is read back.** -/
theorem parseFromString_write (m : M) (h : T.byteSize m ≤ intMax - 16) :
    T.parseFromString (T.write m) = some m := by
  rw [parseFromString, mergeFromString_write _ _ h, mergeFrom_default]

/-- **A message that is cut off is never taken for the whole**: what is read of it, if anything,
is the message that is written as these bytes. -/
theorem write_of_parse_take {m m' : M} {n : ℕ} (h : T.byteSize m ≤ intMax - 16)
    (hparse : T.parseFromString ((T.write m).take n) = some m') :
    T.write m' = (T.write m).take n := by
  by_cases hn : n < (T.write m).length
  · rcases T.fields.cut T.consumes_field (Nat.le_refl 1) (by have := T.count_le; omega)
      (f := T.ofValues) (fun s tag bs _ => by rw [field, T.values_ofValues]) T.fields.default
      (T.values m) h hn with ⟨v, hv, hle⟩ | hfails
    · have hwrite : T.write (T.ofValues v) = (T.write m).take n := by
        rw [write, T.values_ofValues, hv]
        rfl
      have hsize : T.byteSize (T.ofValues v) ≤ intMax - 16 := by
        rw [byteSize, T.values_ofValues]
        exact Nat.le_trans hle h
      rw [← hwrite, parseFromString_write _ hsize] at hparse
      rw [← Option.some.inj hparse, hwrite]
    · exact absurd ((parseMessage_of_fails hfails).symm.trans hparse) (by simp)
  · rw [List.take_of_length_le (Nat.le_of_not_lt hn), parseFromString_write _ h] at hparse
    rw [← Option.some.inj hparse, List.take_of_length_le (Nat.le_of_not_lt hn)]

/-- So it is read back only if all of it is there. -/
theorem parse_take_iff {m : M} (h : T.byteSize m ≤ intMax - 16) (n : ℕ) :
    T.parseFromString ((T.write m).take n) = some m ↔ T.byteSize m ≤ n := by
  have hlen := length_write (Nat.le_trans h (Nat.sub_le _ _))
  constructor
  · intro hparse
    have := congrArg List.length (write_of_parse_take h hparse)
    rw [List.length_take, hlen] at this
    omega
  · intro hn
    rw [List.take_of_length_le (by omega), parseFromString_write m h]

end MessageType

/-! ### Repeated messages -/

namespace FieldType

variable {M : Type}

/-- `InternalWriteMessage`: a message with its size before it. -/
def writeMessage (T : MessageType M) (tag : UInt8) (m : M) : Bytes :=
  tag :: (writeVarint 4 (T.byteSize m) ++ T.write m)

/-- The size of a message with its size before it, and its tag. -/
def messageSize (T : MessageType M) (m : M) : ℕ := 1 + varintSize (T.byteSize m) + T.byteSize m

def messagesSize (T : MessageType M) : List M → ℕ
  | [] => 0
  | m :: l => messageSize T m + messagesSize T l

/-- `ParseMessage`: a message behind its size is added. -/
def readMessage (T : MessageType M) (l : List M) (bs : Bytes) : Option (List M × Bytes) :=
  match readBytes bs with
  | none => none
  | some (value, rest) => (T.parseFromString value).map fun m => (l ++ [m], rest)

theorem readMessage_length {T : MessageType M} {l l' : List M} {bs rest : Bytes}
    (h : readMessage T l bs = some (l', rest)) : rest.length ≤ bs.length := by
  unfold readMessage at h
  split at h
  · cases h
  · rename_i value rest' hr
    obtain ⟨m, -, heq⟩ := Option.map_eq_some_iff.1 h
    obtain ⟨-, rfl⟩ := Prod.mk.inj heq
    have := readBytes_length hr
    omega

theorem length_writeMessage {T : MessageType M} (tag : UInt8) {m : M}
    (h : messageSize T m ≤ intMax) : (writeMessage T tag m).length = messageSize T m := by
  unfold messageSize at h ⊢
  rw [writeMessage, List.length_cons, List.length_append, length_writeVarint_four (by omega),
    MessageType.length_write (by omega)]
  omega

theorem readMessage_write {T : MessageType M} {m : M} (h : T.byteSize m ≤ intMax - 16) (l : List M)
    (rest : Bytes) : readMessage T l (writeVarint 4 (T.byteSize m) ++ (T.write m ++ rest)) =
      some (l ++ [m], rest) := by
  have hlen : T.byteSize m = (T.write m).length :=
    (MessageType.length_write (Nat.le_trans h (Nat.sub_le _ _))).symm
  rw [readMessage, hlen, readBytes_writeVarint (hlen ▸ h)]
  simp only [MessageType.parseFromString_write m h, Option.map_some]

section Parse

variable {σ : Type} {parse : σ → ℕ → Bytes → Option (σ × Bytes)} {T : MessageType M} {tag : UInt8}
  {f : List M → σ}

/-- One message is added. -/
theorem reads_writeMessage (hparse : Consumes parse) (htag : FieldTag tag)
    (hput : ∀ l bs, parse (f l) tag.toNat bs = (readMessage T l bs).map fun x => (f x.1, x.2))
    {m : M} (h : T.byteSize m ≤ intMax - 16) (l : List M) (rest : Bytes) :
    Reads parse (f l) (writeMessage T tag m ++ rest) (f (l ++ [m])) rest := by
  rw [writeMessage, List.cons_append, List.append_assoc]
  exact reads_value hparse htag hput (readMessage_write h l rest)

/-- A message that is cut off is not read. -/
theorem cut_writeMessage (htag : FieldTag tag)
    (hput : ∀ l bs, parse (f l) tag.toNat bs = (readMessage T l bs).map fun x => (f x.1, x.2))
    {m : M} (h : T.byteSize m ≤ intMax - 16) {l : List M} {n : ℕ}
    (hn : n < (writeMessage T tag m).length) :
    (writeMessage T tag m).take n = [] ∨ Fails parse (f l) ((writeMessage T tag m).take n) := by
  cases n with
  | zero => exact Or.inl (List.take_zero ..)
  | succ n =>
    have hle : T.byteSize m ≤ intMax := Nat.le_trans h (Nat.sub_le _ _)
    have hlen := MessageType.length_write hle
    rw [writeMessage] at hn ⊢
    rw [List.take_succ_cons, ← hlen]
    refine Or.inr (fails_value htag hput ?_)
    rw [← hlen] at hn
    rw [readMessage, readBytes_take (Nat.lt_of_succ_lt_succ hn) (by omega)]

end Parse

/-- `repeated`: any number of messages. -/
def messages (T : MessageType M) : FieldType (List M) where
  wireType := 2
  default := []
  write tag l := l.flatMap (writeMessage T tag)
  byteSize := messagesSize T
  mergeFrom l l' := l ++ l'
  read := readMessage T
  wireType_eq := Or.inr rfl
  length_write tag l h := by
    induction l with
    | nil => rfl
    | cons m l ih =>
      rw [messagesSize] at h ⊢
      rw [List.flatMap_cons, List.length_append, length_writeMessage tag (by omega),
        ih (by omega)]
  write_eq_nil tag l := by
    cases l <;> simp [writeMessage]
  byteSize_default := rfl
  mergeFrom_default l := List.nil_append l
  read_length l bs l' rest h := readMessage_length h
  reads {_ parse} hparse tag htag f hput a b rest h := by
    induction b generalizing a with
    | nil =>
      rw [List.append_nil]
      exact .refl _ _
    | cons m b ih =>
      rw [messagesSize] at h
      have hsize : T.byteSize m ≤ intMax - 16 := by
        unfold messageSize at h
        omega
      rw [List.flatMap_cons, List.append_assoc]
      have hfirst := reads_writeMessage hparse htag hput hsize a
        (b.flatMap (writeMessage T tag) ++ rest)
      have hothers := ih (a ++ [m]) (by omega)
      rw [List.append_assoc] at hothers
      exact hfirst.trans hothers
  cut {_ parse} hparse tag htag f hput a b n h hn := by
    induction b generalizing a n with
    | nil => cases hn
    | cons m b ih =>
      rw [messagesSize] at h
      rw [List.flatMap_cons] at hn ⊢
      have hsize : T.byteSize m ≤ intMax - 16 := by
        unfold messageSize at h
        omega
      by_cases hfirst : n < (writeMessage T tag m).length
      · rw [List.take_append_of_le_length (Nat.le_of_lt hfirst)]
        exact cut_writeMessage htag hput hsize hfirst |>.imp
          (fun hnil => ⟨[], hnil.symm, Nat.zero_le _⟩) id
      · have hreads := reads_writeMessage hparse htag hput hsize a
          ((b.flatMap (writeMessage T tag)).take (n - (writeMessage T tag m).length))
        rw [List.length_append] at hn
        rw [List.take_append, List.take_of_length_le (Nat.le_of_not_lt hfirst)]
        rcases ih (a ++ [m]) (n := n - (writeMessage T tag m).length) (by omega) (by omega) with
          ⟨b', hb', hle⟩ | hfails
        · refine Or.inl ⟨m :: b', by rw [List.flatMap_cons, hb'], ?_⟩
          rw [messagesSize, messagesSize]
          omega
        · exact Or.inr (hreads.fails hfails)

end FieldType

end Wire

end KvRaft
