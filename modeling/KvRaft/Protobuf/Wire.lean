import KvRaft.Bytes.Basic
import Mathlib.Algebra.Group.Nat.Defs
import Mathlib.Tactic.SplitIfs

/-!
# The wire format of protocol buffers

A message is a sequence of fields, each a tag (field number and wire type) and a value.  Parsing
follows the library: a tag of up to five bytes is read, a known field stores its value, the values
of unknown fields are skipped, and the message ends with the input, or with a tag that is zero or
ends a group, which is accepted only inside of the group it ends.

The library is not part of the repository.  Besides the wire format two numbers are taken from it: a
value whose size is above `INT_MAX - 16` is refused, where 16 is the slack of its input buffers
(`readBytes`), and unknown groups may be nested 100 times, its default limit (`unknownField`).

## Main results

* `Wire.readVarint_writeVarint` : a varint is read back.
* `Wire.length_writeVarint_add_le` : no varint is shorter than the one that is written.
* `Wire.parseFields_fuel` : the loop over the fields needs no more rounds than there are bytes.
* `Wire.parseFields_weight` : a message weighs no more than its bytes if its fields do not.
-/

namespace KvRaft

namespace Wire

/-- The largest size of a message, `INT_MAX`. -/
def intMax : ℕ := 2147483647

/-! ### Varints -/

/-- A varint of at most `k + 1` bytes, seven bits in each, the low ones first. -/
def writeVarint : ℕ → ℕ → Bytes
  | 0, v => [UInt8.ofNat v]
  | k + 1, v =>
    if v < 128 then [UInt8.ofNat v]
    else UInt8.ofNat (v % 128 + 128) :: writeVarint k (v / 128)

/-- Read a varint of at most `k` bytes.  Returns its value and what follows. -/
def readVarint : ℕ → Bytes → Option (ℕ × Bytes)
  | 0, _ => none
  | _ + 1, [] => none
  | k + 1, b :: bs =>
    if b.toNat < 128 then some (b.toNat, bs)
    else (readVarint k bs).map fun (v, rest) => (b.toNat - 128 + 128 * v, rest)

theorem length_writeVarint_le (k v : ℕ) : (writeVarint k v).length ≤ k + 1 := by
  induction k generalizing v with
  | zero => exact Nat.le_refl _
  | succ k ih =>
    unfold writeVarint
    split_ifs
    · simp
    · exact Nat.succ_le_succ (ih _)

/-- **A varint is read back.** -/
theorem readVarint_writeVarint {k v : ℕ} (h : v < 128 ^ (k + 1)) (j : ℕ) (rest : Bytes) :
    readVarint (k + 1 + j) (writeVarint k v ++ rest) = some (v, rest) := by
  induction k generalizing v with
  | zero =>
    have hv : (UInt8.ofNat v).toNat = v := by
      rw [UInt8.toNat_ofNat', Nat.mod_eq_of_lt (by omega)]
    rw [Nat.add_right_comm, writeVarint, List.singleton_append, readVarint, hv, if_pos (by omega)]
  | succ k ih =>
    rw [show k + 1 + 1 + j = k + 1 + j + 1 by omega, writeVarint]
    split_ifs with hlt
    · have hv : (UInt8.ofNat v).toNat = v := by
        rw [UInt8.toNat_ofNat', Nat.mod_eq_of_lt (by omega)]
      rw [List.singleton_append, readVarint, hv, if_pos hlt]
    · have hv : (UInt8.ofNat (v % 128 + 128)).toNat = v % 128 + 128 := by
        rw [UInt8.toNat_ofNat', Nat.mod_eq_of_lt (by omega)]
      have hdiv : v / 128 < 128 ^ (k + 1) :=
        Nat.div_lt_of_lt_mul (by rwa [Nat.pow_succ, Nat.mul_comm] at h)
      rw [List.cons_append, readVarint, hv, if_neg (by omega), ih hdiv]
      simp only [Option.map_some, Option.some.injEq, Prod.mk.injEq, and_true]
      omega

/-- Reading a varint takes at least one byte. -/
theorem readVarint_length {k v : ℕ} {bs rest : Bytes} (h : readVarint k bs = some (v, rest)) :
    rest.length < bs.length := by
  induction k generalizing bs v with
  | zero => cases h
  | succ k ih =>
    cases bs with
    | nil => cases h
    | cons b bs =>
      rw [readVarint] at h
      split_ifs at h
      · obtain ⟨-, rfl⟩ := Prod.mk.inj (Option.some.inj h)
        exact Nat.lt_succ_self _
      · obtain ⟨⟨v', rest'⟩, hv, heq⟩ := Option.map_eq_some_iff.1 h
        obtain ⟨-, rfl⟩ := Prod.mk.inj heq
        exact Nat.lt_succ_of_lt (ih hv)

/-- **No varint is shorter than the one that is written**, for its value or a smaller one. -/
theorem length_writeVarint_add_le {k j v x : ℕ} {bs rest : Bytes}
    (h : readVarint k bs = some (v, rest)) (hx : x ≤ v) :
    (writeVarint j x).length + rest.length ≤ bs.length := by
  induction k generalizing bs v x j with
  | zero => cases h
  | succ k ih =>
    cases bs with
    | nil => cases h
    | cons b bs =>
      have hrest := readVarint_length h
      rw [List.length_cons] at hrest ⊢
      -- one byte is written
      have hone : (writeVarint j x).length = 1 →
          (writeVarint j x).length + rest.length ≤ bs.length + 1 := by
        intro hlen
        omega
      cases j with
      | zero => exact hone rfl
      | succ j =>
        by_cases hlt : x < 128
        · exact hone (by rw [writeVarint, if_pos hlt]; rfl)
        · rw [readVarint] at h
          split_ifs at h with hb
          · obtain ⟨rfl, -⟩ := Prod.mk.inj (Option.some.inj h)
            omega
          · obtain ⟨⟨v', rest'⟩, hv, heq⟩ := Option.map_eq_some_iff.1 h
            obtain ⟨rfl, rfl⟩ := Prod.mk.inj heq
            have hbyte := b.toNat_lt
            have := ih (j := j) (x := x / 128) hv (by omega)
            rw [writeVarint, if_neg hlt, List.length_cons]
            omega

/-! ### Values -/

/-- A tag: a varint of at most five bytes, as a 32-bit number. -/
def readTag (bs : Bytes) : Option (ℕ × Bytes) :=
  (readVarint 5 bs).map fun (v, rest) => (v % 4294967296, rest)

/-- A value of `n` bytes. -/
def readRaw (n : ℕ) (bs : Bytes) : Option (Bytes × Bytes) :=
  if n ≤ bs.length then some (bs.take n, bs.drop n) else none

/-- A value with its size before it; the library refuses sizes above `INT_MAX - 16`. -/
def readBytes (bs : Bytes) : Option (Bytes × Bytes) :=
  match readVarint 5 bs with
  | some (size, rest) => if size ≤ intMax - 16 then readRaw size rest else none
  | none => none

theorem readTag_cons {tag : UInt8} (h : tag.toNat < 128) (bs : Bytes) :
    readTag (tag :: bs) = some (tag.toNat, bs) := by
  rw [readTag, readVarint, if_pos h]
  simp only [Option.map_some, Option.some.injEq, Prod.mk.injEq, and_true]
  omega

theorem readTag_length {tag : ℕ} {bs rest : Bytes} (h : readTag bs = some (tag, rest)) :
    rest.length < bs.length := by
  obtain ⟨⟨v, rest'⟩, hv, heq⟩ := Option.map_eq_some_iff.1 h
  obtain ⟨-, rfl⟩ := Prod.mk.inj heq
  exact readVarint_length hv

theorem readRaw_length {n : ℕ} {bs value rest : Bytes} (h : readRaw n bs = some (value, rest)) :
    value.length + rest.length = bs.length := by
  unfold readRaw at h
  split_ifs at h with hn
  obtain ⟨rfl, rfl⟩ := Prod.mk.inj (Option.some.inj h)
  rw [List.length_take, List.length_drop]
  omega

/-- A value takes its bytes and at least those of the varint with its size. -/
theorem readBytes_weight {bs value rest : Bytes} (h : readBytes bs = some (value, rest)) :
    (writeVarint 4 value.length).length + value.length + rest.length ≤ bs.length := by
  unfold readBytes at h
  split at h
  · rename_i size rest' hv
    split_ifs at h
    have hsize : value.length ≤ size := by
      unfold readRaw at h
      split_ifs at h
      obtain ⟨rfl, -⟩ := Prod.mk.inj (Option.some.inj h)
      exact List.length_take_le _ _
    have := readRaw_length h
    have := length_writeVarint_add_le (j := 4) hv hsize
    omega
  · cases h

theorem readBytes_length {bs value rest : Bytes} (h : readBytes bs = some (value, rest)) :
    value.length + rest.length < bs.length := by
  unfold readBytes at h
  split at h
  · rename_i size rest' hv
    split_ifs at h
    have := readRaw_length h
    have := readVarint_length hv
    omega
  · cases h

/-- A value is read back. -/
theorem readBytes_writeVarint {value : Bytes} (h : value.length ≤ intMax - 16) (rest : Bytes) :
    readBytes (writeVarint 4 value.length ++ (value ++ rest)) = some (value, rest) := by
  have hlt : value.length < 128 ^ (4 + 1) := Nat.lt_of_le_of_lt h (by decide)
  have hle : value.length ≤ (value ++ rest).length := by simp
  rw [readBytes, show 5 = 4 + 1 + 0 by rfl, readVarint_writeVarint hlt]
  simp only [if_pos h, readRaw, if_pos hle, List.take_left, List.drop_left]

/-! ### Fields -/

/-- The loop over the fields of a message: `field s tag bs` handles the field with the tag, whose
value is at the start of `bs`.  Returns the message, the tag that ended the loop before the end
of the input, and what follows it. -/
def parseFields {σ : Type} (field : σ → ℕ → Bytes → Option (σ × Bytes)) :
    ℕ → σ → Bytes → Option (σ × Option ℕ × Bytes)
  | _, s, [] => some (s, none, [])
  | 0, _, _ :: _ => none
  | fuel + 1, s, b :: bs =>
    match readTag (b :: bs) with
    | none => none
    | some (tag, rest) =>
      if tag = 0 ∨ tag % 8 = 4 then some (s, some tag, rest)
      else match field s tag rest with
        | none => none
        | some (s, rest) => parseFields field fuel s rest

/-- Skip the value of an unknown field, by its wire type; field number zero is refused. -/
def skipField (skipGroup : ℕ → Bytes → Option Bytes) (tag : ℕ) (bs : Bytes) : Option Bytes :=
  if tag / 8 = 0 then none
  else match tag % 8 with
    | 0 => (readVarint 10 bs).map Prod.snd
    | 1 => (readRaw 8 bs).map Prod.snd
    | 2 => (readBytes bs).map Prod.snd
    | 3 => skipGroup tag bs
    | 5 => (readRaw 4 bs).map Prod.snd
    | _ => none

/-- Skip a group up to its end, where groups are nested at most `depth` times. -/
def skipGroup : ℕ → ℕ → Bytes → Option Bytes
  | 0, _, _ => none
  | depth + 1, startTag, bs =>
    match parseFields (fun _ tag bs => (skipField (skipGroup depth) tag bs).map ((), ·))
      bs.length () bs with
    | some (_, some tag, rest) => if tag = startTag + 1 then some rest else none
    | _ => none

/-- An unknown field of a message; the library follows at most 100 nested groups. -/
def unknownField {σ : Type} (s : σ) (tag : ℕ) (bs : Bytes) : Option (σ × Bytes) :=
  (skipField (skipGroup 100) tag bs).map (s, ·)

/-- `ParseFromString`: the message ends with its input. -/
def parseMessage {σ : Type} (field : σ → ℕ → Bytes → Option (σ × Bytes)) (s : σ) (bs : Bytes) :
    Option σ :=
  match parseFields field bs.length s bs with
  | some (s, none, _) => some s
  | _ => none

section Loop

variable {σ : Type} {field : σ → ℕ → Bytes → Option (σ × Bytes)}

/-- **The loop needs no more rounds than there are bytes.** -/
theorem parseFields_fuel
    (hfield : ∀ s tag bs s' rest, field s tag bs = some (s', rest) → rest.length ≤ bs.length)
    {fuel : ℕ} {bs : Bytes} (h : bs.length ≤ fuel) (s : σ) :
    parseFields field fuel s bs = parseFields field bs.length s bs := by
  induction fuel using Nat.strongRecOn generalizing bs s with
  | ind fuel ih =>
    cases bs with
    | nil => cases fuel <;> rfl
    | cons b bs =>
      cases fuel with
      | zero => cases h
      | succ fuel =>
        rw [List.length_cons, parseFields, parseFields]
        split
        · rfl
        · rename_i tag rest htag
          have hrest := readTag_length htag
          rw [List.length_cons] at h hrest
          split_ifs
          · rfl
          · split
            · rfl
            · rename_i s' rest' hf
              have hle := hfield _ _ _ _ _ hf
              rw [ih fuel (by omega) (by omega), ih bs.length (by omega) (by omega)]

/-- One round of the loop. -/
theorem parseFields_cons
    (hfield : ∀ s tag bs s' rest, field s tag bs = some (s', rest) → rest.length ≤ bs.length)
    {bs rest rest' : Bytes} {tag : ℕ} {s s' : σ} (htag : readTag bs = some (tag, rest))
    (hgo : ¬ (tag = 0 ∨ tag % 8 = 4)) (hf : field s tag rest = some (s', rest')) :
    parseFields field bs.length s bs = parseFields field rest'.length s' rest' := by
  cases bs with
  | nil => cases htag
  | cons b bs =>
    have hrest := readTag_length htag
    have hle := hfield _ _ _ _ _ hf
    rw [List.length_cons] at hrest
    rw [List.length_cons, parseFields, htag]
    simp only [if_neg hgo, hf]
    exact parseFields_fuel hfield (by omega) s'

/-- The last round of the loop. -/
theorem parseFields_last
    (hfield : ∀ s tag bs s' rest, field s tag bs = some (s', rest) → rest.length ≤ bs.length)
    {bs rest : Bytes} {tag : ℕ} {s s' : σ} (htag : readTag bs = some (tag, rest))
    (hgo : ¬ (tag = 0 ∨ tag % 8 = 4)) (hf : field s tag rest = some (s', [])) :
    parseFields field bs.length s bs = some (s', none, []) :=
  parseFields_cons hfield htag hgo hf

/-- **A message weighs no more than its bytes**, if no field adds more weight than it has
bytes, the one of its tag included. -/
theorem parseFields_weight (w : σ → ℕ) (hfield : ∀ s tag bs s' rest,
      field s tag bs = some (s', rest) → w s' + rest.length ≤ w s + bs.length + 1)
    {fuel : ℕ} {s s' : σ} {bs rest : Bytes} {last : Option ℕ}
    (h : parseFields field fuel s bs = some (s', last, rest)) :
    w s' + rest.length ≤ w s + bs.length := by
  induction fuel generalizing s bs with
  | zero =>
    cases bs with
    | nil =>
      simp only [parseFields, Option.some.injEq, Prod.mk.injEq] at h
      obtain ⟨rfl, -, rfl⟩ := h
      exact Nat.le_refl _
    | cons b bs => cases h
  | succ fuel ih =>
    cases bs with
    | nil =>
      simp only [parseFields, Option.some.injEq, Prod.mk.injEq] at h
      obtain ⟨rfl, -, rfl⟩ := h
      exact Nat.le_refl _
    | cons b bs =>
      rw [parseFields] at h
      split at h
      · cases h
      · rename_i tag rest₁ htag
        have hrest := readTag_length htag
        split_ifs at h
        · simp only [Option.some.injEq, Prod.mk.injEq] at h
          obtain ⟨rfl, -, rfl⟩ := h
          omega
        · split at h
          · cases h
          · rename_i s₁ rest₂ hf
            have := hfield _ _ _ _ _ hf
            have := ih h
            omega

end Loop

/-! ### Unknown fields -/

theorem skipField_length {skip : ℕ → Bytes → Option Bytes}
    (hskip : ∀ tag bs rest, skip tag bs = some rest → rest.length ≤ bs.length) {tag : ℕ}
    {bs rest : Bytes} (h : skipField skip tag bs = some rest) : rest.length ≤ bs.length := by
  have hsnd : ∀ {α : Type} {x : Option (α × Bytes)}, x.map Prod.snd = some rest →
      ∃ a, x = some (a, rest) := by
    intro α x hx
    obtain ⟨⟨a, rest'⟩, rfl, rfl⟩ := Option.map_eq_some_iff.1 hx
    exact ⟨a, rfl⟩
  unfold skipField at h
  split_ifs at h
  split at h
  · obtain ⟨v, hv⟩ := hsnd h
    exact Nat.le_of_lt (readVarint_length hv)
  · obtain ⟨v, hv⟩ := hsnd h
    have := readRaw_length hv
    omega
  · obtain ⟨v, hv⟩ := hsnd h
    have := readBytes_length hv
    omega
  · exact hskip _ _ _ h
  · obtain ⟨v, hv⟩ := hsnd h
    have := readRaw_length hv
    omega
  · cases h

theorem skipGroup_length {depth startTag : ℕ} {bs rest : Bytes}
    (h : skipGroup depth startTag bs = some rest) : rest.length ≤ bs.length := by
  induction depth generalizing startTag bs rest with
  | zero => cases h
  | succ depth ih =>
    rw [skipGroup] at h
    split at h
    · rename_i tag rest' hp
      split_ifs at h
      obtain rfl := Option.some.inj h
      have := parseFields_weight (fun _ => 0) (fun s tag bs s' rest hf => by
        obtain ⟨rest', hs, heq⟩ := Option.map_eq_some_iff.1 hf
        obtain ⟨-, rfl⟩ := Prod.mk.inj heq
        have := skipField_length (fun _ _ _ h => ih h) hs
        omega) hp
      omega
    · cases h

/-- An unknown field changes nothing and takes some of the bytes. -/
theorem unknownField_eq {σ : Type} {s s' : σ} {tag : ℕ} {bs rest : Bytes}
    (h : unknownField s tag bs = some (s', rest)) : s' = s ∧ rest.length ≤ bs.length := by
  obtain ⟨rest', hs, heq⟩ := Option.map_eq_some_iff.1 h
  obtain ⟨rfl, rfl⟩ := Prod.mk.inj heq
  exact ⟨rfl, skipField_length (fun _ _ _ h => skipGroup_length h) hs⟩

end Wire

end KvRaft
