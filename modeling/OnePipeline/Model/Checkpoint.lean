/-
The fold checkpoint (`src/checkpoint.rs`: `digested`, `Coverage::sealed_with`, `Coverage::corroborated_by`, `Tally`, `Projected`,
`fold_in_merge_order`, `extent`, `before_the_open_instant`, `readable`, `integrity`, `streams_reached`, `fold_ended_and_checkpoint`,
`covering_whole`), over the finished lines of a run's journal (`src/journal.rs`: `lost_of`, `finished_lines_within`,
`finished_lines_from`, `losses_from`, `Integrity::count`), with its writers and readers interleaved.

What one line of the file turned out to be comes with the line. What a summary counts of a record beside their number, and the bytes a
state and a tally serialize to, are parameters.
-/
import Mathlib.Data.List.DropRight
import Mathlib.Tactic
import OnePipeline.Model.Journal
import OnePipeline.Model.Projection

namespace OnePipeline.Checkpoints

/-! ## The journal's lines -/

/-- the class a lost line is counted under -/
inductive LossKind where
  | truncated
  | unparseable
deriving DecidableEq, Repr

structure Lost where
  kind : LossKind
  /-- where in the file the line begins -/
  offset : ℕ
  /-- how many of its bytes are no record this build can read -/
  bytes : ℕ
deriving DecidableEq, Repr

/-- what one line of the journal turned out to be -/
inductive Reading where
  | whole (envelope : Envelope)
  | blank
  /-- a fragment, and a whole record appended after it -/
  | glued (lost : ℕ) (envelope : Envelope)
  | truncated
  | unparseable

def Reading.record : Reading → Option Envelope
  | .whole envelope | .glued _ envelope => some envelope
  | .blank | .truncated | .unparseable => none

def lostOf (offset bytes : ℕ) : Reading → Option Lost
  | .whole _ | .blank => none
  | .glued lost _ => some ⟨.truncated, offset, lost⟩
  | .truncated => some ⟨.truncated, offset, bytes⟩
  | .unparseable => some ⟨.unparseable, offset, bytes⟩

/-- a line and its bytes, its terminator apart -/
structure Line where
  reading : Reading
  bytes : ℕ

/-- a finished line as a fold takes it, its bytes with the terminator -/
structure FinishedLine where
  record : Option Envelope
  bytes : ℕ
  lost : Option Lost

def Line.finished (offset : ℕ) (line : Line) : FinishedLine where
  record := line.reading.record
  bytes := line.bytes + 1
  lost := lostOf offset line.bytes line.reading

/-- lines read from a byte of the file on -/
def finishedAt : ℕ → List Line → List FinishedLine
  | _, [] => []
  | offset, line :: rest => line.finished offset :: finishedAt (offset + line.bytes + 1) rest

def recordsOf (lines : List FinishedLine) : List Envelope := lines.filterMap FinishedLine.record

def bytesOf (lines : List FinishedLine) : ℕ := (lines.map FinishedLine.bytes).sum

structure Journal where
  lines : List Line := []
  /-- what follows the last terminator -/
  tail : Line := ⟨.blank, 0⟩

namespace Journal

variable (journal : Journal)

def finished : List FinishedLine := finishedAt 0 journal.lines

/-- `length_of` -/
def length : ℕ := bytesOf journal.finished + journal.tail.bytes

end Journal

/-- the lines past the first bytes, at a boundary between lines -/
def dropBytes : ℕ → List FinishedLine → List FinishedLine
  | _, [] => []
  | bytes, line :: rest => if bytes = 0 then line :: rest else dropBytes (bytes - line.bytes) rest

/-- the lines that end within so many bytes -/
def takeBytes : ℕ → List FinishedLine → List FinishedLine
  | _, [] => []
  | bytes, line :: rest => if line.bytes ≤ bytes then line :: takeBytes (bytes - line.bytes) rest else []

def finishedLinesWithin (journal : Journal) (start len : ℕ) : List FinishedLine :=
  if len = 0 ∨ journal.length < start + len then [] else takeBytes len (dropBytes start journal.finished)

def finishedLinesFrom (journal : Journal) (start : ℕ) : List FinishedLine :=
  finishedLinesWithin journal start (journal.length - start)

/-! ## What a store lost -/

structure Loss where
  line : ℕ
  offset : ℕ
  bytes : ℕ
deriving DecidableEq, Repr

structure Integrity where
  truncated : List Loss := []
  unparseable : List Loss := []
deriving DecidableEq, Repr

def Integrity.count (integrity : Integrity) (line : ℕ) : Option Lost → Integrity
  | none => integrity
  | some lost =>
    match lost.kind with
    | .truncated => { integrity with truncated := integrity.truncated ++ [⟨line, lost.offset, lost.bytes⟩] }
    | .unparseable => { integrity with unparseable := integrity.unparseable ++ [⟨line, lost.offset, lost.bytes⟩] }

/-- what is lost of lines, numbered after so many -/
def Integrity.countAll (integrity : Integrity) (first : ℕ) (lines : List (Option Lost)) : Integrity :=
  (lines.zipIdx (first + 1)).foldl (fun integrity p => integrity.count p.2 p.1) integrity

/-- what is lost of every line from a byte on, finished or not -/
def lossesFrom (journal : Journal) (start firstLine : ℕ) : Integrity :=
  let past := dropBytes start journal.finished
  let unfinished := if journal.tail.bytes = 0 then [] else [(journal.tail.finished (bytesOf journal.finished)).lost]
  Integrity.countAll {} firstLine (past.map FinishedLine.lost ++ unfinished)

/-! ## The document -/

/-- what one line lost, placed by its line -/
structure LineLost where
  kind : LossKind
  line : ℕ
  offset : ℕ
  bytes : ℕ
deriving DecidableEq, Repr

/-- what a summary counts beside its state; its clock, its usage, the kind folded last and the nodes judged are its `counts` -/
structure Tally (α : Type) where
  counts : α
  events : ℕ := 0
  unreadable : ℕ := 0
  losses : List LineLost := []

/-- how a reader of one run folds and writes -/
structure Folding (α : Type) where
  run : String
  host : Host
  counted : α
  /-- `Tally::take`, of what it counts beside the number of records -/
  take : α → Envelope → α
  stateBytes : RunState → Option (List UInt8)
  tallyBytes : Tally α → Option (List UInt8)

structure Checkpoint (α : Type) where
  schemaVersion : ℕ
  runId : String
  coverage : Coverage
  digest : BitVec 128
  state : RunState
  tally : Tally α

def checkpointSchemaVersion : ℕ := 15

/-- FNV-1a's offset basis: the digest of no bytes -/
def nothingDigested : BitVec 128 := 0x6c62272e07bb014262b821756295c58d#128

def fnvPrime : BitVec 128 := (1#128 <<< 88) ||| 0x13b#128

def digested (digest : BitVec 128) (bytes : List UInt8) : BitVec 128 :=
  bytes.foldl (fun digest byte => (digest ^^^ BitVec.ofNat 128 byte.toNat) * fnvPrime) digest

def leBytes (n : ℕ) : List UInt8 := (List.range 8).map fun i => UInt8.ofNat (n / 256 ^ i)

def textBytes (text : String) : List UInt8 := text.toList.flatMap String.utf8EncodeChar

inductive OpenInstant where
  | heldBack
  | covered
deriving DecidableEq, Repr

/-- every line but the trailing ones at the last stamp -/
def beforeTheOpenInstant (grown : List FinishedLine) : ℕ :=
  match grown.reverse.findSome? fun line => line.record.map Envelope.ts with
  | none => grown.length
  | some last => (grown.rdropWhile fun line => !(line.record.any fun event => event.ts ≠ last)).length

def extent (grown : List FinishedLine) : OpenInstant → ℕ
  | .heldBack => beforeTheOpenInstant grown
  | .covered => grown.length

/-- the greatest `seq` of each stream, raised by a record -/
def claim (claimed : StrMap ℕ) (event : Envelope) : StrMap ℕ :=
  claimed.insert event.stream (max (claimed[event.stream]?.getD 0) event.seq)

inductive Persist where
  | yes
  | no
deriving DecidableEq, Repr

/-- a run's folded state, and how much of its journal it accounts for -/
structure Projected (α : Type) where
  covered : RunState
  coveredTally : Tally α
  coverage : Coverage
  digest : BitVec 128
  /-- the covered fold, the lines past the marker folded onto it -/
  state : RunState
  tally : Tally α
  readThrough : ℕ
  linesThrough : ℕ
  claimedPast : StrMap ℕ
  persist : Persist

namespace Folding

variable {α : Type} (f : Folding α)

/-- the marker's seal over the document it is written in -/
def sealedWith (coverage : Coverage) (state : RunState) (tally : Tally α) : BitVec 128 :=
  let claims := digested (digested nothingDigested (leBytes coverage.bytes)) (leBytes coverage.records)
  let claims :=
    match coverage.at with
    | some placed => digested (digested claims (textBytes (ofLex placed).1)) (textBytes (ofLex placed).2)
    | none => claims
  let claims := coverage.streams.toList.foldl (fun claims p => digested (digested claims (textBytes p.1)) (leBytes p.2)) claims
  match f.stateBytes state, f.tallyBytes tally with
  | some state, some tally => digested (digested claims state) tally
  | _, _ => claims + 1

/-- a document this build can read as this run's -/
def readable (document : Option (Checkpoint α)) : Option (Checkpoint α) :=
  document.filter fun checkpoint => decide (checkpoint.schemaVersion = checkpointSchemaVersion ∧ checkpoint.runId = f.run)

/-- a document whose claims and fold seal to what it says -/
def Sealed (checkpoint : Checkpoint α) : Prop := f.sealedWith checkpoint.coverage checkpoint.state checkpoint.tally = checkpoint.digest

instance (checkpoint : Checkpoint α) : Decidable (f.Sealed checkpoint) := inferInstanceAs (Decidable (_ = _))

def corroboratedBy (journal : Journal) (checkpoint : Checkpoint α) : Bool :=
  decide (checkpoint.coverage.bytes ≤ journal.length) && decide (f.Sealed checkpoint)

def emptyTally : Tally α := { counts := f.counted }

/-- records folded onto a state that accounts for everything in front of them, `first` lines -/
def foldInMergeOrder (state : RunState) (tally : Tally α) (records : List FinishedLine) (first : ℕ) : RunState × Tally α :=
  let ordered := recordsOf records
  let lost := (records.zipIdx (first + 1)).filterMap fun p => p.1.lost.map fun lost => ⟨lost.kind, p.2, lost.offset, lost.bytes⟩
  let merged := mergeOrder ordered
  (merged.foldl (RunState.foldRecord f.host) state,
    { counts := merged.foldl f.take tally.counts
      events := tally.events + merged.length
      unreadable := tally.unreadable + (records.length - ordered.length)
      losses := tally.losses ++ lost })

/-- the fold of a store with nothing in it -/
def empty (persist : Persist) : Projected α where
  covered := {}
  coveredTally := f.emptyTally
  coverage := {}
  digest := nothingDigested
  state := {}
  tally := f.emptyTally
  readThrough := 0
  linesThrough := 0
  claimedPast := ∅
  persist

/-- what a usable document is resumed from -/
def resumed (journal : Journal) (document : Option (Checkpoint α)) (persist : Persist) : Option (Projected α) :=
  ((f.readable document).filter (f.corroboratedBy journal)).map fun checkpoint =>
    { covered := checkpoint.state, coveredTally := checkpoint.tally, coverage := checkpoint.coverage, digest := checkpoint.digest
      state := checkpoint.state, tally := checkpoint.tally, readThrough := checkpoint.coverage.bytes
      linesThrough := checkpoint.coverage.records, claimedPast := ∅, persist }

/-- the document a projection writes -/
def document (p : Projected α) : Checkpoint α where
  schemaVersion := checkpointSchemaVersion
  runId := f.run
  coverage := p.coverage
  digest := p.digest
  state := p.covered
  tally := p.coveredTally

/-- what the store has grown by, folded: what may be accounted for onto the covered fold, the rest onto a copy of it; and the document
written, where one is -/
def takeWith (p : Projected α) (grown : List FinishedLine) (instant : OpenInstant) (write : Persist) :
    Projected α × Option (Checkpoint α) :=
  let covered := grown.take (extent grown instant)
  let ahead := grown.drop (extent grown instant)
  let onto := f.foldInMergeOrder p.covered p.coveredTally covered p.coverage.records
  let coverage := covered.foldl (fun coverage line => coverage.absorb line.record line.bytes) p.coverage
  let past := f.foldInMergeOrder onto.1 onto.2 ahead coverage.records
  let p : Projected α :=
    { covered := onto.1, coveredTally := onto.2, coverage
      digest := if covered = [] then p.digest else f.sealedWith coverage onto.1 onto.2
      state := past.1, tally := past.2, readThrough := coverage.bytes + bytesOf ahead
      linesThrough := coverage.records + ahead.length, claimedPast := (recordsOf ahead).foldl claim ∅, persist := p.persist }
  (p, if covered ≠ [] ∧ p.persist = .yes ∧ write = .yes then some (f.document p) else none)

end Folding

namespace Projected

variable {α : Type} (p : Projected α)

/-- the greatest `seq` any record of a stream claims -/
def seqClaimed (stream : String) : Option ℕ := max p.coverage.streams[stream]? p.claimedPast[stream]?

/-- what a run's journal holds that is not a whole record -/
def integrity (journal : Journal) : Integrity :=
  let rest := lossesFrom journal p.readThrough p.linesThrough
  let read := p.tally.losses.foldl
    (fun (integrity : Integrity) lost => integrity.count lost.line (some ⟨lost.kind, lost.offset, lost.bytes⟩)) {}
  { truncated := read.truncated ++ rest.truncated, unparseable := read.unparseable ++ rest.unparseable }

end Projected

/-! ## A run's readers and writers -/

def rebuildWindow : ℕ := 2 * 1024 * 1024

inductive Reader (α : Type) where
  /-- folding the journal from its first byte, a window at a time -/
  | rebuilding (projected : Projected α) (window : ℕ)
  | folded (projected : Projected α)

structure World (α : Type) where
  journal : Journal := {}
  document : Option (Checkpoint α) := none
  /-- every document a reader wrote -/
  wrote : List (Checkpoint α) := []
  readers : ℕ → Option (Reader α) := fun _ => none

inductive Event (α : Type) where
  /-- a record's writer ends its line -/
  | appended (line : Line)
  /-- a record's writer is in the middle of it -/
  | began (tail : Line)
  | opened (reader : ℕ) (persist : Persist) (window : ℕ)
  /-- one turn of a rebuild's loop -/
  | windowed (reader : ℕ)
  | refreshed (reader : ℕ)
  /-- the run proved ended, its final instant covered -/
  | ended (reader : ℕ)
  /-- the document removed or replaced from outside -/
  | left (document : Option (Checkpoint α))

namespace World

variable {α : Type} (f : Folding α) (w : World α)

def reads (reader : ℕ) (is : Reader α) : World α := { w with readers := Function.update w.readers reader (some is) }

/-- a fold taken, and the document it wrote -/
def takes (reader : ℕ) (taken : Projected α × Option (Checkpoint α)) : World α :=
  { w.reads reader (.folded taken.1) with
    document := taken.2.or w.document
    wrote := w.wrote ++ taken.2.toList }

/-- one turn of a rebuild's loop -/
def rebuildOnce (p : Projected α) (window : ℕ) : Reader α :=
  if w.journal.length - p.coverage.bytes ≤ window then .folded p
  else
    match finishedLinesWithin w.journal p.coverage.bytes window with
    | [] => .rebuilding p (window * 2)
    | line :: grown => .rebuilding (f.takeWith p (line :: grown) .covered .no).1 window

def step : Event α → World α
  | .appended line => { w with journal := { lines := w.journal.lines ++ [line] } }
  | .began tail => { w with journal := { w.journal with tail } }
  | .opened reader persist window =>
    match f.resumed w.journal w.document persist with
    | some p => w.reads reader (if p.coverage.bytes = 0 then .rebuilding p window else .folded p)
    | none => w.reads reader (.rebuilding (f.empty persist) window)
  | .windowed reader =>
    match w.readers reader with
    | some (.rebuilding p window) => w.reads reader (w.rebuildOnce f p window)
    | some (.folded _) | none => w
  | .refreshed reader =>
    match w.readers reader with
    | some (.folded p) =>
      if w.journal.length < p.coverage.bytes then w.reads reader (.rebuilding (f.empty p.persist) rebuildWindow)
      else w.takes reader (f.takeWith p (finishedLinesFrom w.journal p.coverage.bytes) .heldBack .yes)
    | some (.rebuilding _ _) | none => w
  | .ended reader =>
    match w.readers reader with
    | some (.folded p) =>
      match finishedLinesFrom w.journal p.coverage.bytes with
      | [] => w
      | line :: rest => w.takes reader (f.takeWith p (line :: rest) .covered .yes)
    | some (.rebuilding _ _) | none => w
  | .left document => { w with document }

/-- an ended run's state off its document alone, where that covers what a current summary stamps -/
def coveringWhole (journalLen eventCount : ℕ) : Option RunState :=
  ((f.readable w.document).filter fun checkpoint =>
    decide (checkpoint.coverage.bytes = journalLen ∧ checkpoint.coverage.records = eventCount ∧
      f.Sealed checkpoint)).map Checkpoint.state

end World

end OnePipeline.Checkpoints
