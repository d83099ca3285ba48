import KvRaft.Bytes.Basic
import Mathlib.Logic.Function.Basic

/-!
# Files and file streams

Files are named strings of bytes.  An output stream keeps what is written to it in a buffer that
reaches the file when the stream is closed (`Storage.OutStream.Holds.close`); opening one empties
the file.  Input with `>>` into a string returns the first word of a file.
-/

namespace KvRaft

namespace Storage

/-- The files of a machine. -/
abbrev Disk := String → Option Bytes

/-- An output stream: closed, or open on a file with what has not reached it yet. -/
inductive OutStream where
  | closed
  | opened (fileName : String) (buffer : Bytes)
  deriving DecidableEq

namespace OutStream

/-- Open a stream, in the default mode or with `out | trunc`: the file is emptied. -/
def openFile (fileName : String) (d : Disk) : OutStream × Disk :=
  (.opened fileName [], Function.update d fileName (some []))

/-- `<<`, which does nothing on a closed stream. -/
def write (data : Bytes) : OutStream → OutStream
  | .closed => .closed
  | .opened fileName buffer => .opened fileName (buffer ++ data)

/-- The disk after closing the stream. -/
def close (d : Disk) : OutStream → Disk
  | .closed => d
  | .opened fileName buffer =>
    Function.update d fileName (some ((d fileName).getD [] ++ buffer))

/-- The stream is open on the file, which is empty, and holds `data`. -/
structure Holds (s : OutStream) (d : Disk) (fileName : String) (data : Bytes) : Prop where
  stream : s = .opened fileName data
  file : d fileName = some []

variable {s : OutStream} {d : Disk} {fileName other : String} {data : Bytes}

theorem holds_openFile (fileName : String) (d : Disk) :
    (openFile fileName d).1.Holds (openFile fileName d).2 fileName [] :=
  ⟨rfl, Function.update_self ..⟩

theorem Holds.write (h : s.Holds d fileName []) (data : Bytes) :
    (s.write data).Holds d fileName data := by
  obtain ⟨rfl, hd⟩ := h
  exact ⟨rfl, hd⟩

/-- A stream is not affected by what happens to other files. -/
theorem Holds.of_eq {d' : Disk} (h : s.Holds d fileName data) (hd : d' fileName = d fileName) :
    s.Holds d' fileName data := ⟨h.stream, hd.trans h.file⟩

theorem openFile_of_ne (h : other ≠ fileName) (d : Disk) :
    (openFile fileName d).2 other = d other := Function.update_of_ne h ..

theorem close_of_ne {buffer : Bytes} (h : other ≠ fileName) (d : Disk) :
    (OutStream.opened fileName buffer).close d other = d other := Function.update_of_ne h ..

/-- What the stream holds is in the file after closing. -/
theorem Holds.close (h : s.Holds d fileName data) : s.close d fileName = some data := by
  obtain ⟨rfl, hd⟩ := h
  simp [OutStream.close, hd]

end OutStream

/-! ### Reading -/

/-- Open the file for input and read a string with `>>`; nothing is read from a file that does
not exist. -/
def Disk.readWord (d : Disk) (fileName : String) : Bytes :=
  match d fileName with
  | none => []
  | some data => data.firstWord

theorem readWord_eq {d : Disk} {fileName : String} {data : Bytes} (h : d fileName = some data) :
    d.readWord fileName = data.firstWord := by
  rw [Disk.readWord, h]

end Storage

end KvRaft
