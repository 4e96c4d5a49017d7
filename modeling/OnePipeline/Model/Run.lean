/-
The runs the fold's laws are about: journals a driver appends one record at a time, where an edit's record carries the
operations the compiler answered against the state before it.
-/
import Mathlib.Tactic
import OnePipeline.Core.Runs
import OnePipeline.Model.Projection

namespace OnePipeline

/-- what only the driver judging an edit knows -/
structure Live where
  inFlight : StrMap LiveDispatch := ∅
  nodeValidator : Option String := none
  graphValidation : Option GraphValidation := none

namespace RunState

/-- the frontier a driver judges an edit against -/
def judged (s : RunState) (live : Live) : Frontier :=
  { s.frontier with
    inFlight := live.inFlight
    nodeValidator := live.nodeValidator
    graphValidation := live.graphValidation }

/-- operations the compiler answered against a state -/
def Compiled (host : Host) (s : RunState) (operations : List Operation) : Prop :=
  ∃ live author command graph', compile host s.graph (s.judged live) author command = .ok (graph', operations)

/-- a record a driver appends: a dispatch, a settlement, a restack, an attestation, an adoption or an accepted edit -/
def Appends (host : Host) (s : RunState) (e : Envelope) : Prop :=
  match e.body with
  | .nodeDispatched _ | .nodeSettled _ | .nodeRestackStarted _ | .nodeRestacked _ => True
  | .humanAttested _ | .driverAdopted _ => True
  | .editCommitted (some operations) => s.Compiled host operations
  | _ => False

/-- the state a plan starts its run in -/
def started (plan : Plan) : RunState := { graph := Graph.fromPlan plan, plan := some plan }

/-- the record that starts a run folds to the state its plan starts it in -/
theorem foldRecord_runStarted (host : Host) {e : Envelope} {plan : Plan} (hb : e.body = .runStarted (some plan))
    (hv : writtenAtAKnownVersion e = true) : foldRecord host {} e = started plan := by
  simp [foldRecord, hb, hv, kept, recalledWhole, foldPipeline, started]

end RunState

/-- one of this crate's own records, at the version this build writes -/
def Envelope.own (seq : ℕ) (node : Option String) (body : Body) : Envelope :=
  { v := 2, ts := "2026-01-01T00:00:00.000Z", stream := "driver", seq, node, body }

end OnePipeline
