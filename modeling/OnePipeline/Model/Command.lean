/-
The reconciler's vocabulary (`src/channel.rs`, `src/edits.rs`): the commands an envelope carries, the operations a
command compiles to and a journal records, and the frontier a command is judged against.

Values the source narrows as it takes them in carry what was narrowed: a park states no blank reason, and a stated
landing is one of its two spellings.
-/
import Mathlib.Tactic
import OnePipeline.Model.Serde
import OnePipeline.Model.Validate

namespace OnePipeline

/-! ## Envelope fields -/

/-- the author of an envelope, by its wire word -/
structure Author where
  word : String
deriving DecidableEq, Repr, Inhabited

def Author.planner : Author := ⟨"planner"⟩

def Author.isPlanner (a : Author) : Bool := a.word = "planner"

inductive Dependents where
  | drop
  | detach
deriving DecidableEq, Repr, Inhabited

inductive SettleOutcome where
  | done
  | failed
deriving DecidableEq, Repr, Inhabited

def SettleOutcome.asStr : SettleOutcome → String
  | done => "done"
  | failed => "failed"

def settledStatus : SettleOutcome → NodeStatus
  | .done => .done
  | .failed => .failed

structure StatedRelease where
  target : String
  version : String
deriving DecidableEq, Repr

structure ReworkComment where
  id : String
  url : String
deriving DecidableEq, Repr

/-! ## Notes -/

/-- which party's task a note updates -/
inductive Addressee where
  | worker
  | supervisor
deriving DecidableEq, Repr, Inhabited

inductive NoteTurn where
  | interrupted
  | turnEnd
deriving DecidableEq, Repr, Inhabited

/-- what became of a note when it was delivered -/
inductive Reached where
  | queued
  | worker (turn : Option NoteTurn)
  | supervisor (turn : Option NoteTurn)
  | judgedWith (completionReason : String)
  | carried (reason : Option String)
deriving DecidableEq, Repr, Inhabited

/-- where a withdrawn note was taken back from -/
inductive WithdrawnFrom where
  | live
  | carried
deriving DecidableEq, Repr, Inhabited

inductive Deliver where
  | live
  | turnEnd
  | next
deriving DecidableEq, Repr, Inhabited

/-- how far a note may reach: the running turn only, that and the next dispatch, or the next dispatch only -/
inductive Reach where
  | liveOnly (deadline : Option UInt64)
  | liveThenNext (deadline : Option UInt64)
  | nextOnly
deriving DecidableEq, Repr

def Reach.attemptsALiveTurn : Reach → Bool
  | nextOnly => false
  | _ => true

def reachesNobody (node why : String) : String := s!"note: node '{node}': {why}"

def deadlineOf (node : String) (deliver : Deliver) (seconds : Option UInt64) : Except String (Option UInt64) :=
  match seconds, deliver with
  | none, _ => .ok none
  | some s, deliver =>
    if s = 0 then
      .error (s!"note: node '{node}': `delivery_timeout_seconds` is 0, which no turn can meet; omit it to wait for as " ++
        "long as the dispatch runs, or give at least one second")
    else if deliver = .next then
      .error (s!"note: node '{node}': `delivery_timeout_seconds` bounds how long a note waits for a running turn, and " ++
        "`deliver: next` waits on none; omit it, or deliver `live` or `turn-end`")
    else .ok (some s)

def Reach.of (node : String) (deliver : Deliver) (persist : Bool) (seconds : Option UInt64) : Except String Reach := do
  let deadline ← deadlineOf node deliver seconds
  match deliver, persist with
  | .next, true => .ok .nextOnly
  | .next, false =>
    .error (reachesNobody node ("`deliver: next` attempts no live delivery and `persist: false` composes it into no " ++
      "dispatch, so this note reaches nobody whatever the run does"))
  | _, false => .ok (.liveOnly deadline)
  | _, true => .ok (.liveThenNext deadline)

/-! ## Commands -/

inductive Command where
  | review
  | readjust
  | setNodeSets (id : String) (sets : List String)
  | setRunNodeSets (sets : List String)
  | add (node : Node)
  | drop (id : String) (dependents : Dependents) (reason : Option String)
  | reparent (id : String) (deps : List String)
  | retry (id : String) (node : Node)
  | cancel (id : String) (reason : Option String)
  | requeue (id : String) (amend : Option Fields)
  | attest (reference : String)
  | complete (reason : String)
  | amend (id : String) (text : String)
  | note (id : String) (addressee : Addressee) (text : String) (criterion : Option String) (deliver : Deliver)
      (persist : Bool) (deliveryTimeoutSeconds : Option UInt64)
  | withdrawNote (envelope : String) (index : UInt32) (reason : String)
  | finding (message : String) (blocking : Bool) (id : Option String)
  | settle (id : String) (outcome : SettleOutcome) (evidence : String) (landing : Option String)
      (release : Option StatedRelease)
  | rework (id : String) (reason : String) (instruction : String) (comments : List ReworkComment)
      (title : Option String) (replacement : Option String)
  | retitle (id : String) (title : String) (reason : String)
  | decline (id : String) (comments : List ReworkComment) (reason : String)

/-- the wire word of a command -/
def opOf : Command → String
  | .setNodeSets .. => "set-node-sets"
  | .setRunNodeSets .. => "set-run-node-sets"
  | .add .. => "add"
  | .drop .. => "drop"
  | .reparent .. => "reparent"
  | .retry .. => "retry"
  | .cancel .. => "cancel"
  | .requeue .. => "requeue"
  | .attest .. => "attest"
  | .review => "review"
  | .readjust => "readjust"
  | .complete .. => "complete"
  | .amend .. => "amend"
  | .note .. => "note"
  | .withdrawNote .. => "withdraw-note"
  | .finding .. => "finding"
  | .settle .. => "settle"
  | .rework .. => "rework"
  | .retitle .. => "retitle"
  | .decline .. => "decline"

/-! ## Operations -/

inductive Delivery where
  | live
  | deferred
deriving DecidableEq, Repr, Inhabited

inductive Operation where
  | nodeSetsReplaced (node : String) (sets : List String)
  | runNodeSetsReplaced (sets : List String)
  | nodeAdded (node : Node) (retryOf : Option String)
  | edgeAdded («from» «to» : String) (target : Option String)
  | edgeRemoved («from» «to» : String)
  | nodeDropped (node : String) (dependents : Dependents)
  | reparent (node : String) («from» «to» : List String)
  | retryRequested (node replacement : String) (reset : List String)
  | nodeParked (node : String) («by» : Author) (reason : Option String)
  | nodeRequeued (node : String) (amend : Option Fields)
  | humanAttested (node : String)
  | completionRequested (reason : String)
  | findingRaised (node : Option String) (message : String) (blocking : Bool)
  | settledFromEvidence (node : String) (outcome : SettleOutcome) (evidence : String)
  | landingFromEvidence (node landing : String)
  | taskAmended (node text : String)
  | contextAdded (node note : String) (delivery : Delivery)
  | noteDelivered (node : String) (addressee : Addressee) (text : String) (criterion : Option String) (reached : Reached)
      (envelope : Option UInt64) (index : Option UInt32)
  | noteWithdrawn (node : String) (envelope : UInt64) (index : UInt32) («from» : WithdrawnFrom) (text : String)
      (alikeAfter : ℕ)
  | reworkRequested (node replacement reason instruction : String) (comments : List ReworkComment) (title : Option String)
  | retitled (node : String) («from» : Option String) («to» reason : String)
  | declineApplied (node : String) (comments : List ReworkComment) (reason : String) (replies : List String)

/-! ## The frontier -/

/-- a park: who decided it, and why, where it stated a reason that says something -/
structure Park where
  «by» : Author
  reason : Option String
  stated : ∀ r, reason = some r → Text.isBlank r = false

def Park.of («by» : Author) (reason : Option String) : Park where
  «by» := «by»
  reason := reason.filter fun r => !Text.isBlank r
  stated r h := by
    obtain ⟨-, h⟩ := Option.filter_eq_some_iff.mp h
    simpa using h

/-- the planner's park, which stated no reason -/
def Park.planners : Park := Park.of .planner none

def Park.named (p : Park) : String :=
  match p.reason with
  | some reason => s!"the {p.by.word}, whose reason was: {reason}"
  | none => s!"the {p.by.word}, which stated no reason"

/-- `telemetry::duration`, of a number of seconds -/
def duration (seconds : ℕ) : String :=
  let padded (n : ℕ) : String := if n < 10 then s!"0{n}" else s!"{n}"
  if seconds < 60 then s!"{seconds}s"
  else if seconds < 3600 then s!"{seconds / 60}m{padded (seconds % 60)}s"
  else s!"{seconds / 3600}h{padded (seconds % 3600 / 60)}m"

structure LiveDispatch where
  graphRun : Option String
  runningForSeconds : ℕ
deriving DecidableEq, Repr

def LiveDispatch.named (d : LiveDispatch) : String :=
  let run := match d.graphRun with
    | some run => s!"graph run '{run}'"
    | none => "a graph run it has not yet named"
  s!"{run}, running for {duration d.runningForSeconds}"

/-- `vcs::usable`: a text of one word -/
def usable (sib : Siblings) (value : String) : Option String :=
  if value = "" ∨ sib.maxPayloadTextBytes ≤ value.utf8ByteSize then none
  else if value.toList.any (fun c => Text.isWhitespace c || Text.isControl c) then none
  else some value

/-- the words that name a commit: its object name, at a width git names one at -/
def landingIsAnObjectName (landing : String) : Bool :=
  7 ≤ landing.utf8ByteSize && landing.utf8ByteSize ≤ 64 &&
    landing.toList.all fun c => isAsciiDigit c || (97 ≤ c.toNat && c.toNat ≤ 102) || (65 ≤ c.toNat && c.toNat ≤ 70)

/-- where an operator stated a node's work landed -/
inductive StatedLanding where
  | commit (reference : String)
  | changeRequest (reference : String)
deriving DecidableEq, Repr

def StatedLanding.reference : StatedLanding → String
  | commit r | changeRequest r => r

def StatedLanding.parse (sib : Siblings) (landing : String) : Option StatedLanding :=
  (usable sib landing).bind fun u =>
    if landingIsAnObjectName u then some (.commit u) else if sib.isUrl u then some (.changeRequest u) else none

/-- a stated landing reads back from the reference it is journalled as -/
theorem StatedLanding.parse_reference {sib : Siblings} {landing : String} {s : StatedLanding}
    (h : parse sib landing = some s) : parse sib s.reference = some s := by
  obtain ⟨u, hu, hs⟩ := Option.bind_eq_some_iff.mp h
  have hul : usable sib u = some u := by
    unfold usable at hu ⊢
    split_ifs at hu with h1 h2
    cases hu
    rw [if_neg h1, if_neg h2]
  have hr : s.reference = u := by
    split_ifs at hs
    · cases hs
      rfl
    · cases hs
      rfl
  rw [hr, parse, hul]
  exact hs

structure GraphValidation where
  defaultGraph : String
  launchNodeSets : List String
  launchDir : String
deriving DecidableEq, Repr

/-- what a command is judged against beside the graph -/
structure Frontier where
  recorded : StrMap NodeStatus := ∅
  attestations : StrSet := ∅
  parks : StrMap Park := ∅
  inFlight : StrMap LiveDispatch := ∅
  nodeValidator : Option String := none
  runNodeSets : Option (List String) := none
  graphValidation : Option GraphValidation := none
  exportEdges : List ExportEdge := []
  statedLandings : StrMap StatedLanding := ∅
  landings : StrMap Landing := ∅
  branches : StrMap String := ∅
  changeUrls : StrMap String := ∅
  superseded : StrMap String := ∅
  restacking : StrSet := ∅
  absorbed : StrMap String := ∅

end OnePipeline
