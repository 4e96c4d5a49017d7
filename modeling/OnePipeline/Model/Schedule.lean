/-
The scheduling pass (`src/engine.rs`): what `start_ready` starts of the frontier beside the dispatches in flight, and what
the driver's loop does around it: a dispatch settles or is put back, an edit is judged.

What a pass asks outside the record is a parameter, `Pass`. The pass reads one state throughout: what it records is folded
when it ends.
-/
import Mathlib.Tactic
import OnePipeline.Model.Run

namespace OnePipeline

/-- the outcome of a node stated to change nothing -/
def noChanges : String := "no-changes"

def infrastructureFailure : String := "infrastructure-failure"

namespace Settlement

/-- a settlement nothing published -/
def plain (status : NodeStatus) (outcome : Option String) : Settlement := { status := some status, outcome }

def failed (outcome : String) : Settlement := plain .failed (some outcome)

end Settlement

/-! ## One pass -/

/-- what a pass is answered by all it asks outside the record -/
structure Pass where
  /-- whether the run's shutdown has begun -/
  shutdown : Bool := false
  /-- whether a decision point holds a node -/
  paused : String → Bool := fun _ => false
  /-- the dependency a preserving node is placed on, or why its placement is refused -/
  preserveBase : String → Except String (Option String) := fun _ => .ok none
  /-- what the publication boundary refuses a dispatch for -/
  boundary : Node → Except String Unit := fun _ => .ok ()
  /-- the base of a node placed on unlanded work, or why its placement is refused -/
  stack : Node → Except String (Option String) := fun _ => .ok none
  /-- the node of the re-dispatch a refusal interrupted -/
  resuming : String → Option Node := fun _ => none
  /-- whether a note to a node is still on its way to the record -/
  outstanding : String → Bool := fun _ => false
  /-- whether the identity a node opens a session of has no room for it -/
  held : Node → Bool := fun _ => false
  /-- whether no envelope applied beside the pass names a node -/
  admitted : String → Bool := fun _ => true
  /-- the notes a node's dispatch is recorded as composed with -/
  composed : String → Composed := fun _ => .unstated

/-- whether a node opens a session (`vcs::request_for`) -/
def requestsSession (node : Node) : Bool := node.repo.isSome

/-- whether a node `node` superseded still has a dispatch in flight -/
def supersededInFlight (superseded : StrMap String) (node : String) (inFlight : StrMap LiveDispatch) : Bool :=
  superseded.toList.any fun p => p.2 = node && p.1 ∈ inFlight

/-- what a pass does with one actionable node -/
inductive Attempt where
  | settles (settled : Settlement)
  | skips
  | stops
  | starts (node : Node) (opensSession : Bool)

/-- what a pass puts on the record -/
inductive Started where
  | settled (node : String) (settled : Settlement)
  /-- a dispatch, whether it opens a session, and the dispatches in flight it joins -/
  | dispatched (node : Node) (opensSession : Bool) (beside : StrMap LiveDispatch)

namespace RunState

/-- a preserving node on the branch its base was kept on -/
def basedOnPreserved (s : RunState) (pass : Pass) (node : Node) : Except String Node :=
  if node.publish = .preserve then do
    match ← pass.preserveBase node.id with
    | some dependency =>
      match s.branches[dependency]? with
      | some branch => pure { node with baseBranch := some branch }
      | none => .error s!"preserve base dependency '{dependency}' is done with no kept branch"
    | none => pure node
  else pure node

/-- a node placed where its dispatch starts, or why it cannot be -/
def placed (s : RunState) (pass : Pass) (node : Node) : Except String Node := do
  let node ← s.basedOnPreserved pass node
  pass.boundary node
  match ← pass.stack node with
  | some base => pure { node with baseBranch := some base }
  | none => pure node

def attempt (s : RunState) (pass : Pass) (inFlight : StrMap LiveDispatch) (node : Node) : Attempt :=
  if node.kind ≠ .human ∧ s.graph.concurrency ≤ inFlight.size then .stops
  else if node.expectsNoDiff then .settles (.plain .done (some noChanges))
  -- the harness never guesses that an approval happened: a human action is recorded as waiting
  else if node.kind = .human then .settles (.plain .waiting none)
  else
    match s.placed pass node with
    | .error _ => .settles (.failed infrastructureFailure)
    | .ok node =>
      let opensSession := requestsSession ((pass.resuming node.id).getD node)
      if pass.outstanding node.id then .skips
      else if opensSession && supersededInFlight s.superseded node.id inFlight then .skips
      else if opensSession && pass.held ((pass.resuming node.id).getD node) then .skips
      else if pass.admitted node.id then .starts node opensSession
      else .stops

/-- a ready node, and a human action that is not yet recorded as waiting -/
def isActionable (s : RunState) (statuses : StrMap NodeStatus) (pass : Pass) (inFlight : StrMap LiveDispatch) (node : Node) :
    Bool :=
  (match statuses[node.id]? with
    | some .ready => true
    | some .waiting => node.id ∉ s.recorded
    | _ => false) &&
    node.id ∉ inFlight && !pass.paused node.id

/-- a dispatch as an edit sees it before its graph run is known -/
def justStarted : LiveDispatch := { graphRun := none, runningForSeconds := 0 }

def startFrom (s : RunState) (pass : Pass) : StrMap LiveDispatch → List Node → List Started
  | _, [] => []
  | inFlight, node :: rest =>
    match s.attempt pass inFlight node with
    | .settles settled => .settled node.id settled :: s.startFrom pass inFlight rest
    | .skips => s.startFrom pass inFlight rest
    | .stops => []
    | .starts placed opensSession =>
      .dispatched placed opensSession inFlight :: s.startFrom pass (inFlight.insert node.id justStarted) rest

/-- every node whose dependencies have settled, started -/
def startReady (s : RunState) (pass : Pass) (inFlight : StrMap LiveDispatch) : List Started :=
  if pass.shutdown then []
  else s.startFrom pass inFlight (s.graph.iter.filter (s.isActionable s.statuses pass inFlight))

end RunState

/-! ## The driver's loop -/

/-- when and where a record is written -/
structure Stamp where
  ts : String := "2026-01-01T00:00:00.000Z"
  stream : String := "driver"
  seq : ℕ := 0

/-- a record of this crate's own -/
def Stamp.envelope (stamp : Stamp) (node : Option String) (body : Body) : Envelope :=
  { v := 2, ts := stamp.ts, stream := stamp.stream, seq := stamp.seq, node, body }

/-- what a pass appends for one of them -/
def Started.record (stamp : Stamp) (pass : Pass) : Started → Envelope
  | .settled node outcome => stamp.envelope (some node) (.nodeSettled outcome)
  | .dispatched node _ _ => stamp.envelope (some node.id) (.nodeDispatched (pass.composed node.id))

/-- the dispatches in flight once one has started -/
def Started.join (inFlight : StrMap LiveDispatch) : Started → StrMap LiveDispatch
  | .settled .. => inFlight
  | .dispatched node .. => inFlight.insert node.id RunState.justStarted

/-- a driver's state: what its run's journal folds to, and the dispatches it has in flight -/
structure Driver where
  state : RunState
  inFlight : StrMap LiveDispatch := ∅

inductive DriverEvent where
  | pass (stamp : Stamp) (pass : Pass)
  /-- a dispatch returned, settling its node -/
  | settled (stamp : Stamp) (node : String) (settled : Settlement)
  /-- a dispatch's session had no room: its node goes back to the queue -/
  | exhausted (stamp : Stamp) (node : String)
  | edit (stamp : Stamp) (author : Author) (command : Command) (nodeValidator : Option String)
      (graphValidation : Option GraphValidation)

namespace Driver

/-- the state a driver starts a plan's run in -/
def launched (plan : Plan) : Driver := { state := RunState.started plan }

/-- what the driver judges an edit with -/
def live (d : Driver) (nodeValidator : Option String) (graphValidation : Option GraphValidation) : Live :=
  { inFlight := d.inFlight, nodeValidator, graphValidation }

def step (host : Host) (d : Driver) : DriverEvent → Driver
  | .pass stamp pass =>
    let started := d.state.startReady pass d.inFlight
    { state := started.foldl (fun s start => RunState.foldRecord host s (start.record stamp pass)) d.state
      inFlight := started.foldl Started.join d.inFlight }
  | .settled stamp node settled =>
    if node ∈ d.inFlight then
      { state := RunState.foldRecord host d.state (stamp.envelope (some node) (.nodeSettled settled))
        inFlight := d.inFlight.erase node }
    else d
  | .exhausted stamp node =>
    if node ∈ d.inFlight then
      { state := RunState.foldRecord host d.state (stamp.envelope (some node) .nodeRequeued)
        inFlight := d.inFlight.erase node }
    else d
  | .edit stamp author command nodeValidator graphValidation =>
    match compile host d.state.graph (d.state.judged (d.live nodeValidator graphValidation)) author command with
    | .ok (_, operations) =>
      { d with state := RunState.foldRecord host d.state (stamp.envelope none (.editCommitted (some operations))) }
    | .error _ => d

end Driver

end OnePipeline
