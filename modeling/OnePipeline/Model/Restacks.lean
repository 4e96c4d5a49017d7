/-
The two halves of a pass that start dispatches (`src/engine.rs`): `start_ready` over any map of statuses, and `start_restacks`.
-/
import OnePipeline.Model.Placement
import OnePipeline.Model.Schedule

namespace OnePipeline

/-- every node ready by a map of statuses, started -/
def RunState.startReadyBy (s : RunState) (statuses : StrMap NodeStatus) (pass : Pass) (inFlight : StrMap LiveDispatch) : List Started :=
  if pass.shutdown then [] else s.startFrom pass inFlight (s.graph.iter.filter (s.isActionable statuses pass inFlight))

/-- the node of what a pass puts on the record -/
def Started.node : Started → String
  | .settled id _ => id
  | .dispatched node _ _ => node.id

/-- the dispatches in flight once a pass has started what it starts -/
def Started.joinAll (started : List Started) (inFlight : StrMap LiveDispatch) : StrMap LiveDispatch :=
  started.foldl Started.join inFlight

namespace StackedRun

/-- a node as its restack is dispatched: its branch and its base pinned, and nothing resumed -/
def Owed.pinned (owed : Owed) (node : Node) : Node :=
  { node with branch := some owed.branch, baseBranch := some owed.stack.base, resume := none }

/-- what a pass does with one restack owed -/
def restack (s : StackedRun) (pass : Pass) (inFlight : StrMap LiveDispatch) (owed : Owed) : Attempt :=
  if s.graph.concurrency ≤ inFlight.size then .stops
  else
    match s.graph.get owed.node with
    | none => .skips
    | some node =>
      match pass.boundary (owed.pinned node) with
      | .error _ => .settles (.failed infrastructureFailure)
      | .ok () =>
        if requestsSession (owed.pinned node) && pass.held (owed.pinned node) then .skips
        else if pass.admitted node.id then .starts (owed.pinned node) (requestsSession (owed.pinned node))
        else .stops

def restackFrom (s : StackedRun) (pass : Pass) : StrMap LiveDispatch → List Owed → List Started
  | _, [] => []
  | inFlight, owed :: rest =>
    match s.restack pass inFlight owed with
    | .settles settled => .settled owed.node settled :: s.restackFrom pass inFlight rest
    | .skips => s.restackFrom pass inFlight rest
    | .stops => []
    | .starts node opensSession =>
      .dispatched node opensSession inFlight :: s.restackFrom pass (inFlight.insert node.id RunState.justStarted) rest

/-- the restack every draft owes, started: none of a draft in flight, held by a decision point, or owed a readjustment -/
def startRestacks (s : StackedRun) (statuses : StrMap NodeStatus) (pass : Pass) (readjustOwed : String → Bool)
    (inFlight : StrMap LiveDispatch) : List Started :=
  if pass.shutdown then []
  else s.restackFrom pass inFlight (s.restacksOwed statuses fun node => node ∈ inFlight || pass.paused node || readjustOwed node)

end StackedRun

end OnePipeline
