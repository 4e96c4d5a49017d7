/-
The bases of a run's preserved nodes as its driver keeps them (`src/engine.rs`: `PlacementShape`, `StackingPlacement`): one reading
over the whole graph, kept until the placement's shape changes, beside a reading over a node's own ancestors at each dispatch.

What `onevcs` answers about a repository is given with each reading.
-/
import OnePipeline.Core.Worklist
import OnePipeline.Model.Graph
import OnePipeline.Model.Validate

namespace OnePipeline

/-- what the placement of a preserved node is read from -/
structure PlacementShape where
  repo : Option String
  deps : List String
  publish : Publish
  base : Option String
deriving DecidableEq

/-- the shape of a graph's placement, and the bases it was resolved to -/
structure StackingPlacement where
  shape : StrMap PlacementShape
  bases : Except String (StrMap String)

namespace StackingPlacement

def shapeOf (graph : Graph) : StrMap PlacementShape :=
  (graph.iter.filter fun node => node.publish = .preserve).foldl
    (fun shape node =>
      shape.insert node.id { repo := node.repo, deps := node.deps, publish := node.publish, base := node.baseBranch })
    ∅

def basesOf (sib : Siblings) (graph : Graph) : Except String (StrMap String) :=
  match stackingBases sib (nodesById graph.iter) with
  | .ok bases => .ok bases
  | .error refusal => .error refusal.message

/-- a graph's placement, resolved -/
def of (sib : Siblings) (graph : Graph) : StackingPlacement := { shape := shapeOf graph, bases := basesOf sib graph }

/-- a node and every node it depends on, directly or not -/
def dependencies (graph : Graph) (node : String) : List Node :=
  let deps (id : String) : List String := (((graph.get id).map Node.deps).getD []).filter fun dep => dep ∈ graph.ids
  let pending := [node].filter fun id => id ∈ graph.ids
  (Worklist.drain deps (Worklist.fuelOf graph.ids pending (graph.iter.map fun n => n.deps.length).sum) pending []).filterMap graph.get

/-- an optional name as a debug text prints it -/
def debugged : Option String → String
  | none => "None"
  | some name => "Some(" ++ name.quote ++ ")"

def baseChanged (node : String) (expected now : Option String) : String :=
  s!"node '{node}' preserve base changed from {debugged expected} to {debugged now} after load; repository identities " ++
    "changed before dispatch"

/-- the placement this call reads: the one kept, or the graph's own where its shape changed -/
def resolved (placement : StackingPlacement) (sib : Siblings) (graph : Graph) : StackingPlacement :=
  if shapeOf graph ≠ placement.shape then of sib graph else placement

/-- the base a node's dispatch starts from, where the reading kept and the one over its ancestors agree -/
def baseFor (placement : StackingPlacement) (sib dispatch : Siblings) (graph : Graph) (node : String) :
    StackingPlacement × Except String (Option String) :=
  let placement := placement.resolved sib graph
  (placement, do
    let expected := (← placement.bases)[node]?
    let now ←
      match stackingBases dispatch (nodesById (dependencies graph node)) with
      | .ok bases => .ok bases[node]?
      | .error refusal => .error refusal.message
    if expected ≠ now then .error (baseChanged node expected now) else .ok now)

/-! ## A run's calls -/

/-- one call: the graph as edits left it, the node asked for, and what is answered of repositories where the placement is resolved
again and at the dispatch -/
structure Call where
  graph : Graph
  node : String
  sib : Siblings
  dispatch : Siblings

def called (placement : StackingPlacement) (call : Call) : StackingPlacement :=
  (placement.baseFor call.sib call.dispatch call.graph call.node).1

/-- a driver's placement after its calls -/
def ran (placement : StackingPlacement) (calls : List Call) : StackingPlacement := calls.foldl called placement

end StackingPlacement

end OnePipeline
