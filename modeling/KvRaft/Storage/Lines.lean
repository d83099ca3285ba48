import KvRaft.Bytes.Basic

/-!
# Reading lines

`fgets` reads a line into a buffer of a given size, with its newline if that fits.  The end of the
file is noticed by reading beyond it: after the last line there is another, empty one.
-/

namespace KvRaft

namespace Storage

/-- `'\n'` -/
def newline : UInt8 := 0x0a

/-- Read up to so many bytes and up to a newline: what is read, the rest, and whether the end was
met. -/
def readBytes : ℕ → Bytes → Bytes × Bytes × Bool
  | 0, stream => ([], stream, false)
  | _ + 1, [] => ([], [], true)
  | room + 1, b :: stream =>
    if b = newline then ([b], stream, false)
    else
      let (line, rest, eof) := readBytes room stream
      (b :: line, rest, eof)

/-- `fgets` with a buffer of `size` bytes, the last of which is for the end of the string. -/
def fgets (size : ℕ) (stream : Bytes) : Bytes × Bytes × Bool := readBytes (size - 1) stream

variable {size : ℕ} {line rest stream : Bytes}

theorem readBytes_line {room : ℕ} (h : newline ∉ line) (hroom : line.length < room) :
    readBytes room (line ++ newline :: rest) = (line ++ [newline], rest, false) := by
  induction line generalizing room with
  | nil =>
    obtain ⟨room, rfl⟩ := Nat.exists_eq_succ_of_ne_zero (Nat.ne_of_gt hroom)
    simp [readBytes]
  | cons b line ih =>
    obtain ⟨hb, hline⟩ := not_or.1 fun hc => h (List.mem_cons.2 hc)
    obtain ⟨room, rfl⟩ := Nat.exists_eq_succ_of_ne_zero (Nat.ne_zero_of_lt hroom)
    simp [readBytes, Ne.symm hb, ih hline (Nat.lt_of_succ_lt_succ hroom)]

/-- **A line that fits is read whole.** -/
theorem fgets_line (h : newline ∉ line) (hsize : line.length + 1 < size) :
    fgets size (line ++ newline :: rest) = (line ++ [newline], rest, false) :=
  readBytes_line h (by omega)

theorem fgets_nil (hsize : 1 < size) : fgets size [] = ([], [], true) := by
  obtain ⟨room, rfl⟩ : ∃ room, size = room + 2 := ⟨size - 2, by omega⟩
  rfl

theorem length_readBytes (room : ℕ) (stream : Bytes) :
    (readBytes room stream).2.1.length + (readBytes room stream).1.length = stream.length := by
  induction room generalizing stream with
  | zero => simp [readBytes]
  | succ room ih =>
    cases stream with
    | nil => rfl
    | cons b stream =>
      unfold readBytes
      split_ifs
      · rfl
      · have hrest := ih stream
        change (readBytes room stream).2.1.length + ((readBytes room stream).1.length + 1) =
          stream.length + 1
        omega

/-- Something is read, unless the end is met. -/
theorem length_fgets_lt (hsize : 1 < size) (h : (fgets size stream).2.2 = false) :
    (fgets size stream).2.1.length < stream.length := by
  obtain ⟨room, rfl⟩ : ∃ room, size = room + 2 := ⟨size - 2, by omega⟩
  have hlen : (fgets (room + 2) stream).2.1.length + (fgets (room + 2) stream).1.length =
      stream.length := length_readBytes (room + 1) stream
  cases stream with
  | nil => cases h
  | cons b stream =>
    have hpos : 0 < (fgets (room + 2) (b :: stream)).1.length := by
      change 0 < (readBytes (room + 1) (b :: stream)).1.length
      unfold readBytes
      split_ifs <;> exact Nat.succ_pos _
    omega

end Storage

end KvRaft
