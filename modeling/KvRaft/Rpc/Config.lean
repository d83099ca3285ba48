import KvRaft.Bytes.Decimal
import KvRaft.Storage.Lines
import Mathlib.Data.List.DropRight
import Mathlib.Logic.Function.Basic

/-!
# Published addresses

A node that starts appends its ip and its port to a text file (`RpcProvider::Run`), and the others
read the file line by line into a map (`MprpcConfig::LoadConfigFile`).  The lines come back as they
were written (`MprpcConfig.parse_entryLine`).  The map keeps the first value that it gets for a
key, so that the address of a node that was started again elsewhere is never seen.

* `MprpcConfig.readsLatest_iff` : the addresses read back are the latest ones exactly if every
  node had the same address at its first and at its latest start.
-/

namespace KvRaft

open Storage Bytes

/-- Class `MprpcConfig`. -/
structure MprpcConfig where
  configMap : Bytes → Option Bytes

namespace MprpcConfig

def blank : UInt8 := 0x20

/-- `'='` -/
def equals : UInt8 := 0x3d

/-- `'#'` -/
def hash : UInt8 := 0x23

/-! ### The reader -/

/-- What a string in a buffer is: it ends at the first zero. -/
def cString (buf : Bytes) : Bytes := buf.takeWhile (· ≠ 0)

/-- `Trim`.  A string of blanks is left as it is. -/
def trim (srcBuf : Bytes) : Bytes :=
  let srcBuf := if srcBuf.any (· ≠ blank) then srcBuf.dropWhile (· = blank) else srcBuf
  if srcBuf.any (· ≠ blank) then srcBuf.rdropWhile (· = blank) else srcBuf

/-- The key and the value in a line. -/
def parse (buf : Bytes) : Option (Bytes × Bytes) :=
  let readBuf := trim (cString buf)
  if readBuf.head? = some hash ∨ readBuf = [] then none
  else if equals ∉ readBuf then none
  else
    let key := readBuf.takeWhile (· ≠ equals)
    let value := (readBuf.drop (key.length + 1)).takeWhile (· ≠ newline)
    some (trim key, trim value)

/-- `insert`, which does not change the value of a key. -/
def insert (config : MprpcConfig) (key value : Bytes) : MprpcConfig :=
  if (config.configMap key).isSome then config
  else { configMap := Function.update config.configMap key (some value) }

/-- What is done with a line. -/
def readLine (config : MprpcConfig) (buf : Bytes) : MprpcConfig :=
  match parse buf with
  | none => config
  | some (key, value) => config.insert key value

/-- The loop over the lines of a file. -/
def readLines (config : MprpcConfig) (stream : Bytes) : MprpcConfig :=
  if _ : (fgets 512 stream).2.2 then config.readLine (fgets 512 stream).1
  else readLines (config.readLine (fgets 512 stream).1) (fgets 512 stream).2.1
termination_by stream.length
decreasing_by exact length_fgets_lt (by decide) (Bool.eq_false_iff.2 ‹_›)

/-- `LoadConfigFile`, for a new object. -/
def loadConfigFile (file : Bytes) : MprpcConfig := readLines { configMap := fun _ => none } file

/-- `Load` -/
def load (config : MprpcConfig) (key : Bytes) : Bytes := (config.configMap key).getD []

end MprpcConfig

/-! ### The writer -/

namespace RpcProvider

/-- `"node"` and the number. -/
def node (nodeIndex : ℤ) : Bytes := [0x6e, 0x6f, 0x64, 0x65] ++ decimal nodeIndex

def ipKey (nodeIndex : ℤ) : Bytes := node nodeIndex ++ [0x69, 0x70]

def portKey (nodeIndex : ℤ) : Bytes := node nodeIndex ++ [0x70, 0x6f, 0x72, 0x74]

/-- What `Run` appends to the file. -/
def run (nodeIndex : ℤ) (ip : Bytes) (port : ℤ) : Bytes :=
  ipKey nodeIndex ++ [MprpcConfig.equals] ++ ip ++ [newline] ++
    (portKey nodeIndex ++ [MprpcConfig.equals] ++ decimal port ++ [newline])

end RpcProvider

namespace MprpcConfig

/-! ### Reading what was written -/

/-- No byte has a meaning of its own. -/
def Plain (s : Bytes) : Prop := ∀ b ∈ s, b ≠ 0 ∧ b ≠ blank ∧ b ≠ equals ∧ b ≠ newline

/-- A line for a key and a value. -/
def entryLine (e : Bytes × Bytes) : Bytes := e.1 ++ [equals] ++ e.2 ++ [newline]

/-- A key and a value that a line can hold. -/
structure Writable (e : Bytes × Bytes) : Prop where
  ne_nil : e.1 ≠ []
  head : e.1.head? ≠ some hash
  key : Plain e.1
  value : Plain e.2
  short : e.1.length + 1 + e.2.length < 511

variable {s : Bytes} {e : Bytes × Bytes}

theorem plain_of_all (h : s.all fun b => b ≠ 0 && b ≠ blank && b ≠ equals && b ≠ newline) :
    Plain s := by
  intro b hb
  simpa [and_assoc] using List.all_eq_true.1 h b hb

theorem trim_of_notMem (h : blank ∉ s) : trim s = s := by
  have hdrop : s.dropWhile (· = blank) = s :=
    List.dropWhile_eq_self_iff.2 fun hl hb =>
      h (by simpa using (of_decide_eq_true hb) ▸ List.getElem_mem hl)
  have hrdrop : s.rdropWhile (· = blank) = s :=
    List.rdropWhile_eq_self_iff.2 fun hl hb => h (of_decide_eq_true hb ▸ List.getLast_mem hl)
  simp only [trim, hdrop, hrdrop, ite_self]

theorem takeWhile_ne {d : UInt8} (h : ∀ b ∈ s, b ≠ d) (rest : Bytes) :
    (s ++ d :: rest).takeWhile (· ≠ d) = s := by
  rw [List.takeWhile_append_of_pos fun b hb => decide_eq_true (h b hb),
    List.takeWhile_cons_of_neg (by simp), List.append_nil]

/-- **A line comes back as it was written.** -/
theorem parse_entryLine (h : Writable e) : parse (entryLine e) = some e := by
  have hzero : ∀ b ∈ entryLine e, b ≠ 0 ∧ b ≠ blank := by
    intro b hb
    simp only [entryLine, List.mem_append, List.mem_singleton] at hb
    rcases hb with ((hb | rfl) | hb) | rfl
    · exact ⟨(h.key b hb).1, (h.key b hb).2.1⟩
    · decide
    · exact ⟨(h.value b hb).1, (h.value b hb).2.1⟩
    · decide
  have hcString : cString (entryLine e) = entryLine e :=
    List.takeWhile_eq_self_iff.2 fun b hb => by simpa using (hzero b hb).1
  have htrim : trim (entryLine e) = entryLine e := trim_of_notMem fun hb => (hzero _ hb).2 rfl
  have hhead : (entryLine e).head? = e.1.head? := by
    obtain ⟨b, key, hkey⟩ := List.exists_cons_of_ne_nil h.ne_nil
    simp [entryLine, hkey]
  have hkey : (entryLine e).takeWhile (· ≠ equals) = e.1 := by
    have hline : entryLine e = e.1 ++ equals :: (e.2 ++ [newline]) := by simp [entryLine]
    rw [hline]
    exact takeWhile_ne (fun b hb => (h.key b hb).2.2.1) _
  have hvalue : ((entryLine e).drop (e.1.length + 1)).takeWhile (· ≠ newline) = e.2 := by
    have hdrop : (entryLine e).drop (e.1.length + 1) = e.2 ++ newline :: [] := by
      rw [entryLine, List.append_assoc]
      exact List.drop_left' (by simp)
    rw [hdrop]
    exact takeWhile_ne (fun b hb => (h.value b hb).2.2.2) _
  simp only [parse, hcString, htrim, hhead, hkey, hvalue]
  rw [if_neg, if_neg, trim_of_notMem, trim_of_notMem]
  · exact fun hb => (h.value _ hb).2.1 rfl
  · exact fun hb => (h.key _ hb).2.1 rfl
  · simp [entryLine]
  · simp [h.head, entryLine]

/-! ### The map -/

section Map

variable {config : MprpcConfig} {entries : List (Bytes × Bytes)}

/-- The first value of a key stays. -/
theorem configMap_insert (config : MprpcConfig) (key value k : Bytes) :
    (config.insert key value).configMap k =
      (config.configMap k).or (if k = key then some value else none) := by
  unfold insert
  by_cases hk : k = key
  · subst hk
    cases hc : config.configMap k <;> simp [hc]
  · split_ifs <;> simp [hk]

theorem readLine_entryLine (h : Writable e) (config : MprpcConfig) :
    config.readLine (entryLine e) = config.insert e.1 e.2 := by
  rw [readLine, parse_entryLine h]

/-- The loop over lines that were written. -/
theorem readLines_eq (h : ∀ e ∈ entries, Writable e) (config : MprpcConfig) :
    readLines config (entries.flatMap entryLine) =
      entries.foldl (fun config e => config.insert e.1 e.2) config := by
  induction entries generalizing config with
  | nil =>
    -- the line behind the last one is empty
    have hend : fgets 512 [] = ([], [], true) := fgets_nil (by decide)
    rw [List.flatMap_nil, readLines, hend, dif_pos rfl]
    rfl
  | cons e entries ih =>
    obtain ⟨he, hrest⟩ := List.forall_mem_cons.1 h
    have hline : newline ∉ e.1 ++ [equals] ++ e.2 := by
      simp only [List.mem_append, List.mem_singleton, not_or]
      exact ⟨⟨fun hb => (he.key _ hb).2.2.2 rfl, by decide⟩, fun hb => (he.value _ hb).2.2.2 rfl⟩
    have hfgets : fgets 512 ((e :: entries).flatMap entryLine) =
        (entryLine e, entries.flatMap entryLine, false) := by
      rw [List.flatMap_cons, entryLine, List.append_assoc _ [newline]]
      refine fgets_line hline ?_
      have := he.short
      simp only [List.length_append, List.length_singleton]
      omega
    rw [readLines, hfgets, dif_neg (by simp), readLine_entryLine he, ih hrest, List.foldl_cons]

theorem configMap_foldl_insert (config : MprpcConfig) (entries : List (Bytes × Bytes)) (k : Bytes) :
    (entries.foldl (fun config e => config.insert e.1 e.2) config).configMap k =
      (config.configMap k).or (entries.lookup k) := by
  induction entries generalizing config with
  | nil => simp
  | cons e entries ih =>
    rw [List.foldl_cons, ih, configMap_insert, Option.or_assoc, List.lookup_cons]
    by_cases hk : k = e.1
    · simp [hk]
    · simp [hk, beq_false_of_ne hk]

/-- **What is read back for a key**: the first value that was written for it. -/
theorem load_loadConfigFile (h : ∀ e ∈ entries, Writable e) (k : Bytes) :
    (loadConfigFile (entries.flatMap entryLine)).load k = (entries.lookup k).getD [] := by
  rw [load, loadConfigFile, readLines_eq h, configMap_foldl_insert]
  rfl

end Map

/-! ### The starts -/

open RpcProvider

/-- A start of a node whose lines can be read: the ip has no blank, `'='` or newline, no zero, as
it comes from a C string, and the lines are shorter than 511 bytes. -/
structure Start where
  node : ℤ
  ip : Bytes
  port : ℤ
  plain : Plain ip
  ip_short : (ipKey node).length + 1 + ip.length < 511
  port_short : (portKey node).length + 1 + (decimal port).length < 511

namespace Start

/-- Where the node is reached. -/
def address (s : Start) : Bytes × ℤ := (s.ip, s.port)

/-- The keys and values of a start. -/
def entries (s : Start) : List (Bytes × Bytes) :=
  [(ipKey s.node, s.ip), (portKey s.node, decimal s.port)]

end Start

/-- The file after some starts. -/
def fileOf (starts : List Start) : Bytes := starts.flatMap fun s => run s.node s.ip s.port

variable {starts : List Start} {i j : ℤ}

theorem plain_decimal (i : ℤ) : Plain (decimal i) := by
  intro b hb
  refine ⟨?_, ?_, ?_, ?_⟩ <;>
    · rintro rfl
      rcases mem_decimal hb with h | h
      · exact absurd h (by decide)
      · exact absurd h (by decide)

theorem plain_append {s s' : Bytes} (h : Plain s) (h' : Plain s') : Plain (s ++ s') := by
  intro b hb
  rcases List.mem_append.1 hb with hb | hb
  · exact h b hb
  · exact h' b hb

theorem plain_node (i : ℤ) : Plain (node i) :=
  plain_append (plain_of_all rfl) (plain_decimal i)

theorem node_inj : node i = node j ↔ i = j := by
  rw [node, node, List.append_cancel_left_eq, decimal_inj]

/-- Keys of different nodes, or of different kinds, are different. -/
theorem ipKey_inj : ipKey i = ipKey j ↔ i = j := by
  rw [ipKey, ipKey, List.append_cancel_right_eq, node_inj]

theorem portKey_inj : portKey i = portKey j ↔ i = j := by
  rw [portKey, portKey, List.append_cancel_right_eq, node_inj]

theorem ipKey_ne_portKey (i j : ℤ) : ipKey i ≠ portKey j := by
  intro h
  have hlast := congrArg List.getLast? h
  simp [ipKey, portKey, List.getLast?_append] at hlast

theorem Start.writable (s : Start) : ∀ e ∈ s.entries, Writable e := by
  intro e he
  rcases List.mem_cons.1 he with rfl | he
  · exact ⟨List.cons_ne_nil _ _, (by decide : some 0x6e ≠ some hash),
      plain_append (plain_node _) (plain_of_all rfl), s.plain, s.ip_short⟩
  · obtain rfl := List.mem_singleton.1 he
    exact ⟨List.cons_ne_nil _ _, (by decide : some 0x6e ≠ some hash),
      plain_append (plain_node _) (plain_of_all rfl), plain_decimal _, s.port_short⟩

/-- The file is made of lines for the keys and values. -/
theorem fileOf_eq (starts : List Start) :
    fileOf starts = (starts.flatMap Start.entries).flatMap entryLine := by
  rw [fileOf, List.flatMap_assoc]
  refine congrArg (List.flatMap · starts) (funext fun s => ?_)
  simp [run, Start.entries, entryLine]

/-- What is looked up among the entries of some starts: what the first start that has it wrote. -/
theorem lookup_entries {k : Bytes} {value : Start → Bytes}
    (hself : ∀ s : Start, s.node = i → s.entries.lookup k = some (value s))
    (hother : ∀ s : Start, s.node ≠ i → s.entries.lookup k = none) (starts : List Start) :
    (starts.flatMap Start.entries).lookup k = (starts.find? (·.node = i)).map value := by
  induction starts with
  | nil => rfl
  | cons s starts ih =>
    rw [List.flatMap_cons, List.lookup_append, ih]
    by_cases hs : s.node = i
    · rw [hself s hs, List.find?_cons_of_pos (by simpa using hs)]
      rfl
    · rw [hother s hs, List.find?_cons_of_neg (by simpa using hs), Option.none_or]

theorem lookup_ipKey (starts : List Start) (i : ℤ) :
    (starts.flatMap Start.entries).lookup (ipKey i) =
      (starts.find? (·.node = i)).map Start.ip := by
  refine lookup_entries (fun s hs => ?_) (fun s hs => ?_) starts
  · rw [Start.entries, hs, List.lookup_cons_self]
  · rw [List.lookup_eq_none_iff]
    simp [Start.entries, ipKey_inj, ipKey_ne_portKey, Ne.symm hs]

theorem lookup_portKey (starts : List Start) (i : ℤ) :
    (starts.flatMap Start.entries).lookup (portKey i) =
      (starts.find? (·.node = i)).map fun s => decimal s.port := by
  refine lookup_entries (fun s hs => ?_) (fun s hs => ?_) starts
  · have hne : (portKey i == ipKey i) = false := beq_false_of_ne (ipKey_ne_portKey i i).symm
    rw [Start.entries, hs, List.lookup_cons, hne]
    exact List.lookup_cons_self
  · rw [List.lookup_eq_none_iff]
    simp [Start.entries, portKey_inj, (ipKey_ne_portKey _ _).symm, Ne.symm hs]

/-- **What is read back of a node**: the address of its first start. -/
theorem load_fileOf (starts : List Start) (i : ℤ) :
    (loadConfigFile (fileOf starts)).load (ipKey i) =
        ((starts.find? (·.node = i)).map Start.ip).getD [] ∧
      (loadConfigFile (fileOf starts)).load (portKey i) =
        ((starts.find? (·.node = i)).map fun s => decimal s.port).getD [] := by
  have hwrite : ∀ e ∈ starts.flatMap Start.entries, Writable e := by
    intro e he
    obtain ⟨s, -, hs⟩ := List.mem_flatMap.1 he
    exact s.writable e hs
  rw [fileOf_eq, load_loadConfigFile hwrite, load_loadConfigFile hwrite, lookup_ipKey,
    lookup_portKey]
  exact ⟨rfl, rfl⟩

/-- The latest start of a node. -/
def latest (starts : List Start) (i : ℤ) : Option Start := starts.reverse.find? (·.node = i)

/-- **The published addresses are the ones read back**: of every node the latest, and nothing of a
node that was never started. -/
def ReadsLatest (starts : List Start) : Prop :=
  ∀ i, (loadConfigFile (fileOf starts)).load (ipKey i) =
      ((latest starts i).map Start.ip).getD [] ∧
    (loadConfigFile (fileOf starts)).load (portKey i) =
      ((latest starts i).map fun s => decimal s.port).getD []

/-- **The latest addresses are read back exactly if they are the first ones.** -/
theorem readsLatest_iff (starts : List Start) : ReadsLatest starts ↔
    ∀ i, (starts.find? (·.node = i)).map Start.address = (latest starts i).map Start.address := by
  refine forall_congr' fun i => ?_
  obtain ⟨hip, hport⟩ := load_fileOf starts i
  rw [hip, hport]
  cases hfirst : starts.find? (·.node = i) with
  | none =>
    have hlatest : latest starts i = none := by
      rw [latest, List.find?_eq_none]
      exact fun s hs => List.find?_eq_none.1 hfirst s (List.mem_reverse.1 hs)
    rw [hlatest]
    exact iff_of_true ⟨rfl, rfl⟩ rfl
  | some s =>
    cases hlatest : latest starts i with
    | none =>
      have hs := List.find?_eq_none.1 hlatest s
        (List.mem_reverse.2 (List.mem_of_find?_eq_some hfirst))
      exact absurd (List.find?_some hfirst) hs
    | some s' => simp [Start.address, decimal_inj]

/-- Node 1 is started on port 29017 and later on port 7788, as in `text.conf`. -/
def restarted : List Start :=
  [{ node := 1
     ip := [0x31, 0x32, 0x37, 0x2e, 0x30, 0x2e, 0x31, 0x2e, 0x31]
     port := 29017
     plain := plain_of_all rfl
     ip_short := by decide +kernel
     port_short := by decide +kernel },
   { node := 1
     ip := [0x31, 0x32, 0x37, 0x2e, 0x30, 0x2e, 0x31, 0x2e, 0x31]
     port := 7788
     plain := plain_of_all rfl
     ip_short := by decide +kernel
     port_short := by decide +kernel }]

/-- The first port is read back. -/
theorem not_readsLatest : ¬ ∀ starts, ReadsLatest starts := by
  intro h
  have hport := (h restarted 1).2
  rw [(load_fileOf restarted 1).2] at hport
  have hdecimal : decimal 29017 = decimal 7788 := hport
  exact absurd (decimal_inj.1 hdecimal) (by decide)

end MprpcConfig

end KvRaft
