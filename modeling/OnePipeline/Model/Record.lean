/-
A run's journal records (`src/event.rs`, `src/journal.rs`, `src/payload.rs`), as the fold reads them.

An envelope's kind and payload are one value, `Body`: what this build reads of a payload field by field, with what it
cannot read as an absent field. A kind the modelled fold reads nothing of but its name is a `Report`.

`millisOf` is the source's reading of a timestamp.
-/
import Mathlib.Tactic
import OnePipeline.Model.Command

namespace OnePipeline

/-! ## Timestamps -/

def daysInMonth (year month : ℤ) : ℤ :=
  if month ∈ [1, 3, 5, 7, 8, 10, 12] then 31
  else if month ∈ [4, 6, 9, 11] then 30
  else if month = 2 then
    if year % 4 = 0 ∧ (year % 100 ≠ 0 ∨ year % 400 = 0) then 29 else 28
  else 0

def daysFromCivil (year month day : ℤ) : ℤ :=
  let y := if month ≤ 2 then year - 1 else year
  let era := (if 0 ≤ y then y else y - 399) / 400
  let yoe := y - era * 400
  let mp := if month > 2 then month - 3 else month + 9
  let doy := (153 * mp + 2) / 5 + day - 1
  let doe := yoe * 365 + yoe / 4 - yoe / 100 + doy
  era * 146097 + doe - 719468

/-- the digits between two positions, as the number they spell -/
def digitsAt (l : List Char) («from» «to» : ℕ) : Option ℤ :=
  let field := (l.drop «from»).take («to» - «from»)
  if field.all isAsciiDigit then some (field.foldl (fun n c => n * 10 + ((c.toNat : ℤ) - 48)) 0) else none

/-- the separators of `YYYY-MM-DDThh:mm:ss.sssZ`, each at its place -/
def separators : List (ℕ × Char) := [(4, '-'), (7, '-'), (10, 'T'), (13, ':'), (16, ':'), (19, '.'), (23, 'Z')]

/-- an envelope's timestamp in epoch milliseconds, where it is one -/
def millisOf (ts : String) : Option ℕ :=
  let l := ts.toList
  if l.length ≠ 24 ∨ separators.any (fun p => l[p.1]? ≠ some p.2) then none
  else do
    let year ← digitsAt l 0 4
    let month ← digitsAt l 5 7
    let day ← digitsAt l 8 10
    let hour ← digitsAt l 11 13
    let minute ← digitsAt l 14 16
    let second ← digitsAt l 17 19
    let ms ← digitsAt l 20 23
    if month < 1 ∨ 12 < month ∨ day < 1 ∨ daysInMonth year month < day ∨ 23 < hour ∨ 59 < minute ∨ 60 < second then none
    else
      let total := (daysFromCivil year month day * 86400 + hour * 3600 + minute * 60 + second) * 1000 + ms
      if total < 0 then none else some total.toNat

/-! ## Payloads -/

/-- a note as a dispatch's record and a commit's carry it -/
structure RecordedNote where
  addressee : Addressee
  text : String
  criterion : Option String
  reached : Reached
deriving DecidableEq, Repr

/-- the notes a `node-dispatched` says it was composed with -/
inductive Composed where
  | unstated
  | unreadable
  | notes (composed : List RecordedNote)
deriving DecidableEq, Repr

/-- the session a dispatch opened -/
structure DispatchSession where
  token : String
  branch : String
deriving DecidableEq, Repr, Inhabited

/-- a `node-settled`'s fields, each where this build reads it -/
structure Settlement where
  status : Option NodeStatus := none
  outcome : Option String := none
  branch : Option String := none
  completedSteps : Option (List String) := none
  changeUrl : Option String := none
  base : Option String := none
  /-- whether the record states a head at all -/
  statesHead : Bool := false
  head : Option String := none
  landing : Option Landing := none
  /-- whether the record says it continues an earlier launch's -/
  continued : Bool := false
deriving DecidableEq, Repr

inductive ChecksVerdictWord where
  | pending
  | passed
  | passedWithSkipped
  | failed
  | noneRequired
deriving DecidableEq, Repr

structure NodeChecksRead where
  node : String
  head : String
  verdict : ChecksVerdictWord
deriving DecidableEq, Repr

/-- the kinds whose payload no modelled function reads -/
inductive Report where
  | concurrentAcknowledged
  | concurrentDeferred
  | nodeReady
  | landingClosures
  | plannerSurfaceQueued
  | plannerSurfaced
  | plannerReplied
  | runStopped
  | quietWorker
  | nodeHeld
  | nodeUnheld
  | decisionPending
  | decisionCleared
  | crossDagSatisfied
  | upstreamModified
  | completionRequested
  | releaseWait
  | releaseArrived
  | criterionChecked
  | bodyNotDrafted
  | noteShown
  | runHookFired
  | runHookFinished
  | runHookWithheld
  | poolMaintenance
  | dispatchStopped
  | hostShutdown
  | branchesSuperseded
  | branchesRetired
  | reviewCommentsRead
  | titleUnverified
  | changeReopened
  | stackLandedOutOfOrder
  | changeClosed
  | readjustReadFailed
  | reviewReplyPosted
  | reviewReplyNotDrafted
  | driverTakenOver
  | driverSuperseded
  | landingRegistered
  | landingDrafting
  | landingStarted
  | landingFinished
  | landingRefused
  | landingDied
  | scratchRemoved
  | scratchRetained
  | checkFailed
  | checksUnfollowed
  | homeStatus
  /-- a kind this build does not know -/
  | unknown
deriving DecidableEq, Repr

/-- what a sibling library's record says, as the fold reads it -/
inductive Relayed where
  | sessionOpened (session : Option DispatchSession) (base : Option String)
  | push (accepted : Bool) (branch head : Option String)
  | mergeCompleted (sha base : Option String)
  | other
deriving DecidableEq, Repr

/-- an envelope's kind with its payload -/
inductive Body where
  | runStarted (plan : Option Plan)
  | nodeDispatched (composed : Composed)
  | nodeRequeued
  | nodeSettled (settled : Settlement)
  | nodeRestackStarted (node : Option String)
  | nodeRestacked (node : Option String)
  | changeRetitled (retitled : Option (String × String))
  | nodeLanded (node : Option String)
  | nodeAbsorbed (absorbed : Option (String × String))
  | nodeReadjusted (node : Option String)
  | nodeChecksRead (read : Option NodeChecksRead)
  | editCommitted (operations : Option (List Operation))
  | commandAccepted (operations : Option (List Operation))
  /-- whether the note is owed to the next dispatch, and the note its releases compose -/
  | releaseAdopted (next : Bool) (note : Option String)
  | humanAttested (reference : Option String)
  /-- whether the adoption starts a new epoch of the run-end hook -/
  | driverAdopted (hookEpoch : Bool := false)
  | driverExited
  /-- whether the record names the envelope it refused -/
  | editRejected (envelope : Bool)
  | report (kind : Report)
  /-- a sibling library's record, and whether it is of a landing that closes issues -/
  | relayed (record : Relayed) (closes : Bool)

/-- one line of a journal -/
structure Envelope where
  v : ℕ
  ts : String
  stream : String
  seq : ℕ
  /-- the node its labels name -/
  node : Option String
  body : Body

/-- whether a record is of this crate's own source -/
def Envelope.isPipeline (e : Envelope) : Bool :=
  match e.body with
  | .relayed .. => false
  | _ => true

/-- the envelope versions this build reads -/
def envelopeVersionsRead : List ℕ := [2, 1]

def writtenAtAKnownVersion (e : Envelope) : Bool := e.v ∈ envelopeVersionsRead

end OnePipeline
