/-
Appending to a journal (`src/ledger.rs`: `append_line_healed`, `heal_tail`, `write_record`), with what the host does of a call given with
it: an error on the way, a write that fails part-way, or the death of the process.

A call holds the file's exclusive lock from its heal to its end, so calls come one after another.
-/
import OnePipeline.Core.Tail

namespace OnePipeline.Ledger

abbrev Bytes := List UInt8

def newline : UInt8 := 10

/-- a fragment a heal discarded: where the file was cut, and how much of it was -/
structure TornTail where
  offset : ℕ
  bytes : ℕ
deriving DecidableEq, Repr

/-- how much of a file is read at a time -/
def chunk : ℕ := 64 * 1024

/-- the fragment a dead writer left truncated, and what was discarded -/
def healTail (file : Bytes) : Option TornTail × Bytes :=
  match file.getLast? with
  | none => (none, file)
  | some last =>
    if last = newline then (none, file)
    else
      let boundary := Tail.boundary newline chunk file
      (some { offset := boundary, bytes := file.length - boundary }, file.take boundary)

/-- what the host does of one append -/
inductive Fate where
  /-- the file cannot be opened, or its tail read or cut -/
  | refused
  /-- it is healed, and nothing is written -/
  | refusedHealed
  | written
  /-- so many bytes of the record reach the file before the write fails -/
  | failed (reached : ℕ)
  | diedUnhealed
  /-- so many bytes of the record reach the file before the process dies -/
  | died (reached : ℕ)
deriving DecidableEq, Repr

/-- what a call returns, where it does -/
inductive Answer where
  | ok (healed : ℕ)
  | error
  | died
deriving DecidableEq, Repr

/-- a line as it is written -/
def recordOf (line : Bytes) : Bytes := line ++ [newline]

/-- one record at the end of a healed file, or the file on the boundary the write started on -/
def writeRecord (file : Bytes) (line : Bytes) : Fate → Bytes × Answer
  | .refused | .refusedHealed | .diedUnhealed => (file, .error)
  | .written => (file ++ recordOf line, .ok 0)
  | .failed reached =>
    let boundary := file.length
    ((file ++ (recordOf line).take reached).take boundary, .error)
  | .died reached => (file ++ (recordOf line).take reached, .died)

def appendLineHealed (file : Bytes) (line : Bytes) (fate : Fate) : Bytes × Answer :=
  match fate with
  | .refused => (file, .error)
  | .diedUnhealed => (file, .died)
  | fate =>
    let (torn, healed) := healTail file
    match writeRecord healed line fate with
    | (file, .ok _) => (file, .ok ((torn.map TornTail.bytes).getD 0))
    | answer => answer

/-! ## A run of calls -/

structure Call where
  line : Bytes
  fate : Fate

/-- the file a run of calls leaves -/
def ran (file : Bytes) (calls : List Call) : Bytes := calls.foldl (fun file call => (appendLineHealed file call.line call.fate).1) file

/-- the line a call commits: of one that returned, or of a writer that died after its last byte -/
def Call.committed (call : Call) : Option Bytes :=
  match call.fate with
  | .written => some call.line
  | .died reached => if (recordOf call.line).length ≤ reached then some call.line else none
  | _ => none

end OnePipeline.Ledger
