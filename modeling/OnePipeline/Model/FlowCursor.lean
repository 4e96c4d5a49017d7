/-
A flow watch's cursor (`src/flowwatch.rs`), and the run cursor each of its places is read as (`src/watch.rs`).

A journal is what a read of it finds: its bytes, nothing there yet, or an error.
-/
import Mathlib.Tactic
import OnePipeline.Core.Checks
import OnePipeline.Core.Decimal
import OnePipeline.Core.Text
import OnePipeline.Model.Plan

namespace OnePipeline.FlowWatch

open Checks

/-! ## Journals -/

inductive Journal where
  | missing
  | unreadable (why : String)
  | held (bytes : List UInt8)

def newline : UInt8 := 10

namespace Journal

def bytes : Journal → List UInt8
  | held bytes => bytes
  | _ => []

/-- how long a journal is, where that can be read -/
def length : Journal → Except String ℕ
  | held bytes => .ok bytes.length
  | missing => .ok 0
  | unreadable why => .error why

/-- the byte just past the last finished record -/
def endOf (journal : Journal) : ℕ := journal.bytes.length - (journal.bytes.reverse.takeWhile fun b => b ≠ newline).length

/-- whether the byte before a place ends a line -/
def endsARecord (journal : Journal) (place : ℕ) : Bool := journal.bytes[place - 1]? = some newline

/-- whether a place is one a cursor can resume from -/
def onARecordBoundary (journal : Journal) (place : ℕ) : Bool :=
  if place = 0 then true else if journal.endOf < place then false else journal.endsARecord place

end Journal

/-! ## A run's cursor -/

def watchCursorVersion : String := "1"

structure Cursor where
  run : String
  place : ℕ
deriving DecidableEq, Repr

/-- `u64::from_str` -/
def parseU64 (l : List Char) : Option ℕ := (Decimal.parse l).filter fun n => n < 2 ^ 64

/-- the run and the byte a cursor token names: the byte follows the last separator -/
def parseCursor (token : String) : Except String Cursor := do
  let refusal := s!"'{token}' is not a cursor this build reads; a cursor is what an earlier `onepipeline watch` or " ++
    s!"`monitor` printed, spelled `{watchCursorVersion}:<run>:<byte>`"
  let (version, rest) ← need (Text.splitOnce [':'] token.toList) refusal
  refuseIf (version ≠ watchCursorVersion.toList) refusal
  let (run, place) ← need (Text.rsplitOnce ':' rest) refusal
  refuseIf (run = []) refusal
  let place ← need (parseU64 place) refusal
  pure { run := String.ofList run, place }

/-- the byte a cursor token names in a run's journal -/
def resolveCursor (run : String) (journal : Journal) (token : String) : Except String Cursor := do
  let cursor ← parseCursor token
  refuseIf (cursor.run ≠ run)
    (s!"cursor '{token}' was printed by a `watch` or `monitor` of run '{cursor.run}', and this reads run '{run}'; a " ++
      "cursor is only readable by the run it was printed for")
  let held ← journal.length.mapError fun error =>
    s!"cursor '{token}' resumes at byte {cursor.place} of run '{run}', whose journal could not be read ({error}); a " ++
      "cursor is checked against the journal it names, and one that cannot be read is refused rather than resumed from"
  refuseIf (held < cursor.place)
    (s!"cursor '{token}' resumes at byte {cursor.place} of run '{run}', whose store holds {held}; a cursor is only " ++
      "readable by the run it was printed for")
  refuseIf (0 < cursor.place ∧ journal.endsARecord cursor.place = false)
    (s!"cursor '{token}' resumes at byte {cursor.place} of run '{run}', which is inside a record rather than after one; " ++
      "a cursor is what an earlier `onepipeline watch` or `monitor` printed, and never a byte count of its own")
  pure cursor

/-! ## A flow's cursor -/

def cursorPrefix : String := "flow"

def landingCursorVersion : String := "2"

/-- whether a flow id names one flow under the runs root and nothing else -/
def isValidFlowId (id : String) : Bool :=
  id ≠ "" && !(id.toList.all fun c => c = '.') && id.toList.all fun c => c.isAlphanum || c ∈ ['.', '_', '-']

/-- a flow as its watch reads it: who its members and landings are, and what each journal holds -/
structure Flow where
  id : String
  members : Except String (List String)
  landings : Except String (List String)
  runJournal : String → Journal
  landingJournal : String → Journal

/-- where a watch starts reading a landing its cursor does not name -/
inductive Unnamed where
  | fromStart
  | fromEnd
deriving DecidableEq, Repr

/-- where a flow watch has read to -/
structure Known where
  runs : StrMap Cursor := ∅
  landings : StrMap ℕ := ∅
  unnamed : Unnamed := .fromStart

def cursorShape : String := s!"{cursorPrefix}:{landingCursorVersion}:<flow>:<landing>@<byte>/...:<run>@<byte>/..."

def legacyCursorShape : String := s!"{cursorPrefix}:{watchCursorVersion}:<flow>:<run>@<byte>/..."

def refusal (token : String) : String :=
  s!"'{token}' is not a cursor this build reads for a flow; a flow's cursor is what an earlier `onepipeline watch " ++
    s!"--flow` printed, spelled `{cursorShape}`, or before landings `{legacyCursorShape}`"

/-- a place named and its byte, as a token spells it -/
def spelled (name : String) (place : List Char) : List Char := name.toList ++ '@' :: place

/-- the digits of a byte -/
def digits (place : ℕ) : List Char := Nat.toDigits 10 place

/-- the start of a token of a version -/
def opening (version : String) : List Char := cursorPrefix.toList ++ ':' :: version.toList ++ [':']

/-- the token a later flow watch resumes from -/
def cursorOf (flow : String) (known : Known) : String :=
  String.ofList (opening landingCursorVersion ++ flow.toList ++
    ':' :: Text.join ['/'] (known.landings.toList.map fun p => spelled p.1 (digits p.2)) ++
    ':' :: Text.join ['/'] (known.runs.toList.map fun p => spelled p.1 (digits p.2.place)))

/-- the pieces of a half of a token: none where it is spelled as nothing at all -/
def pieces (places : List Char) : List (List Char) := if places = [] then [] else Text.split ['/'] places

section

variable (flow : Flow) (token : String)

/-- one run's place, among the ones read before -/
def placeRun (members : List String) (known : StrMap Cursor) (place : List Char) : Except String (StrMap Cursor) := do
  let (run, byte) ← need (Text.rsplitOnce '@' place) (refusal token)
  let run := String.ofList run
  refuseIf (run ∉ members) s!"cursor '{token}' names run '{run}', which is not a run of flow '{flow.id}'"
  let cursor ← resolveCursor run (flow.runJournal run)
    (String.ofList (watchCursorVersion.toList ++ ':' :: run.toList ++ ':' :: byte))
  refuseIf (run ∈ known) s!"cursor '{token}' names run '{run}' twice; a flow's cursor places each run once"
  pure (known.insert run cursor)

/-- one landing's place, among the ones read before -/
def placeLanding (landings : List String) (known : StrMap ℕ) (place : List Char) : Except String (StrMap ℕ) := do
  let (landing, byte) ← need (Text.rsplitOnce '@' place) (refusal token)
  let landing := String.ofList landing
  refuseIf (landing ∉ landings) s!"cursor '{token}' names landing '{landing}', which is not a landing of flow '{flow.id}'"
  let byte ← need (parseU64 byte) (refusal token)
  refuseIf ((flow.landingJournal landing).onARecordBoundary byte = false)
    (s!"cursor '{token}' places landing '{landing}' at byte {byte}, which is not the end of a record its journal holds; " ++
      "a cursor is only readable against the journal it was printed for")
  refuseIf (landing ∈ known) s!"cursor '{token}' names landing '{landing}' twice; a flow's cursor places each landing once"
  pure (known.insert landing byte)

/-- what a token spells after its version, and whether it places landings -/
def versioned : Except String (List Char × Bool) :=
  match Text.stripPrefix (opening landingCursorVersion) token.toList with
  | some rest => pure (rest, true)
  | none => (need (Text.stripPrefix (opening watchCursorVersion) token.toList) (refusal token)).map fun rest => (rest, false)

/-- the landings' places and the runs': a cursor printed before landings has only the runs' -/
def halves (placed : Bool) (rest : List Char) : Except String (List Char × List Char) :=
  if placed then need (Text.splitOnce [':'] rest) (refusal token) else pure ([], rest)

/-- the runs and landings a cursor token names, each placed against its own journal -/
def resume : Except String Known := do
  let (rest, placed) ← versioned token
  let (named, rest) ← need (Text.splitOnce [':'] rest) (refusal token)
  let (landingPlaces, places) ← halves token placed rest
  refuseIf (named ≠ flow.id.toList)
    (s!"cursor '{token}' was printed by a watch of flow '{String.ofList named}', and this watches flow '{flow.id}'; a " ++
      "cursor is only readable by the flow it was printed for")
  let members ← flow.members
  let runs ← (pieces places).foldlM (placeRun flow token members) ∅
  let landings ← flow.landings.mapError fun why =>
    s!"flow '{flow.id}': {why}; it is owed supervision until that is repaired"
  let placedLandings ← (pieces landingPlaces).foldlM (placeLanding flow token landings) ∅
  pure {
    runs
    landings := if placed then placedLandings
      else landings.foldl (fun m landing => m.insert landing (flow.landingJournal landing).endOf) placedLandings
    unnamed := if placed then .fromStart else .fromEnd }

end

end OnePipeline.FlowWatch
