/-
The run-end hook (`src/hooks.rs`): the rule that says whether a run has ended, the marker a firing leaves beside the fold
of the run's journal (`src/projection.rs`: `fold_one`), and the processes that judge one run.

The journal is read in the order it was appended in. A process that fires holds the run's handover from before it reads
the journal to after it appends; every other record is appended by anyone, at any moment. Its stream, its `seq` and its
timestamp are the record's own, and any there may be.
-/
import Mathlib.Tactic
import OnePipeline.Model.Projection

namespace OnePipeline.Hooks

/-! ## The run-end rule -/

inductive ReasonKind where
  | nodes
  | unfinished
  | stopped
deriving DecidableEq, Repr

inductive Verdict where
  | notEnded
  | paused
  | success
  | failure (kind : ReasonKind)
deriving DecidableEq, Repr

/-- the run-end rule on the statuses present -/
def verdict (present : List NodeStatus) (decisionOutstanding : Bool) : Verdict :=
  if present.isEmpty then .notEnded
  else if present.all (· = .done) then .success
  else if decisionOutstanding then .paused
  else if present.any NodeStatus.awaitsRelease then .notEnded
  else if .failed ∈ present ∨ .skipped ∈ present then .failure .nodes
  else .failure .unfinished

/-- whether a run has work it can still carry out -/
def live (statuses : List NodeStatus) : Bool :=
  statuses.any fun status =>
    match status with
    | .ready | .running | .waiting | .completeDraft | .completeHeld => true
    | .pending | .blocked | .parked | .cancelled | .done | .failed | .skipped => false

/-- the two ways a graph has ended, as the epoch rule tells them apart -/
inductive Ended where
  | complete
  | failed
deriving DecidableEq, Repr

/-- what each node stands at -/
def present (s : RunState) : List NodeStatus := s.statuses.toList.map Prod.snd

/-- what the graph is at: nothing while it is live -/
def ending (s : RunState) : Option Ended :=
  if live (present s) then none
  else if (present s).all (· = .done) then some .complete
  else some .failed

/-! ## The marker -/

/-- what the graph was at when a standing marker was fired -/
inductive FiredOver where
  | live
  | ended
deriving DecidableEq, Repr

/-- a fold with the run-end hook's marker it keeps beside it -/
structure Marked extends RunState where
  hookMarker : Option FiredOver := none

/-- whether a record is a firing -/
def isFiring (event : Envelope) : Bool :=
  match event.body with
  | .report .runHookFired => true
  | _ => false

namespace Marked

/-- the ending in front of an edit arriving while a marker stands, and nothing otherwise -/
def before (s : Marked) (event : Envelope) : Option Ended :=
  match event.body with
  | .editCommitted _ => if s.hookMarker.isSome then ending s.toRunState else none
  | _ => none

/-- the marker a record leaves standing on the state that now holds it -/
def after (before : Option Ended) (s : Marked) (event : Envelope) : Marked :=
  if before.any fun was => s.strict && ending s.toRunState ≠ some was then { s with hookMarker := none }
  else
    match event.body with
    | .driverAdopted true => { s with hookMarker := none }
    | .report .runHookFired =>
      { s with hookMarker := some (if (ending s.toRunState).isNone then .live else .ended) }
    | _ => s

def foldOne (host : Host) (s : Marked) (event : Envelope) : Marked :=
  after (s.before event) { s with toRunState := s.toRunState.foldRecord host event } event

/-- a journal in the order it was appended in -/
def folded (host : Host) (journal : List Envelope) : Marked := journal.foldl (foldOne host) {}

end Marked

/-- the marker of the epoch a run is in, and where each record that retired one is -/
structure Epochs where
  marker : Option FiredOver
  endedBy : List ℕ

/-- one record of the walk, at its place in the journal -/
def walkOne (host : Host) (walked : Marked × List ℕ) (event : Envelope × ℕ) : Marked × List ℕ :=
  let next := walked.1.foldOne host event.1
  (next, if walked.1.hookMarker.isSome && next.hookMarker.isNone then walked.2 ++ [event.2] else walked.2)

def epochs (host : Host) (journal : List Envelope) : Epochs :=
  let walked := journal.zipIdx.foldl (walkOne host) ({}, [])
  { marker := walked.1.hookMarker, endedBy := walked.2 }

/-- whether a journal carries the marker of the ending the run is now at -/
def fired (host : Host) (journal : List Envelope) : Bool := (epochs host journal).marker.isSome

/-- whether a driver adopting a run starts a new epoch -/
def adoptionStartsEpoch (s : Marked) (decisionOutstanding : Bool) : Bool :=
  if !s.strict || s.hookMarker ≠ some .live then false
  else
    let ended :=
      match verdict (present s.toRunState) decisionOutstanding with
      | .success | .failure _ => true
      | .notEnded | .paused => false
    !ended || live (present s.toRunState)

/-! ## The processes -/

/-- how far the process inside the handover has come -/
inductive Stage where
  | entered
  | judged (fired : Bool)
  | through
deriving DecidableEq, Repr

/-- one run's journal, and who holds its handover -/
structure System where
  journal : List Envelope := []
  handover : Option (String × Stage) := none

inductive Op where
  /-- a record of any kind but a firing, appended by any process -/
  | append (event : Envelope)
  /-- a process takes the handover, where nobody holds it -/
  | hold (process : String)
  /-- the process that holds it reads the journal -/
  | read (process : String)
  /-- the process that found no marker standing appends its firing, in its own stream -/
  | emit (process ts : String) (seq : ℕ)
  /-- the process that holds it lets it go, or is gone -/
  | drop (process : String)

/-- a firing, as a process records it -/
def firing (process ts : String) (seq : ℕ) : Envelope :=
  { v := 2, ts, stream := process, seq, node := none, body := .report .runHookFired }

def step (host : Host) (s : System) : Op → System
  | .append event => if isFiring event then s else { s with journal := s.journal ++ [event] }
  | .hold process => if s.handover.isNone then { s with handover := some (process, .entered) } else s
  | .read process =>
    if s.handover = some (process, .entered) then
      { s with handover := some (process, .judged (fired host s.journal)) }
    else s
  | .emit process ts seq =>
    if s.handover = some (process, .judged false) then
      { journal := s.journal ++ [firing process ts seq], handover := some (process, .through) }
    else s
  | .drop process => if s.handover.any fun h => h.1 = process then { s with handover := none } else s

def run (host : Host) (ops : List Op) : System := ops.foldl (step host) {}

end OnePipeline.Hooks
