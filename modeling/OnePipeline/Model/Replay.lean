/-
Replay's half of the compiler (`src/edits.rs`): `apply` folds one recorded operation back onto a graph without judging it
again, and `advance` carries a command's operations onto the frontier the next command of its envelope is judged against.
-/
import Mathlib.Tactic
import OnePipeline.Model.Edits

namespace OnePipeline

/-! ## The graph -/

/-- an edge added to a node: its dependency once, and its target where the record states one -/
def withEdge («from» : String) (target : Option String) (n : Node) : Node :=
  { n with
    deps := if «from» ∈ n.deps then n.deps else n.deps ++ [«from»]
    consumes :=
      match target with
      | some t => n.consumes.insert «from» t
      | none => n.consumes }

def withoutEdge («from» : String) (n : Node) : Node := { n with deps := n.deps.filter fun dep => dep ≠ «from» }

def withoutConsumed (id : String) (n : Node) : Node := { n with consumes := n.consumes.erase id }

/-- a requeue read back: the park is taken off first and the amendment merged over what is left -/
def requeued (serde : NodeSerde) (existing : Node) (amend : Option Fields) : Option Node :=
  match serde.ofObject (merge ((serde.toObject existing).erase "parked") amend) with
  | .ok amended => some { amended with classification := amended.classification.strictest existing.classification }
  | .error _ => none

/-- one recorded operation onto a graph -/
def apply (serde : NodeSerde) (graph : Graph) : Operation → Graph
  | .nodeSetsReplaced node sets => graph.modify node (fun n => { n with sets }) (Graph.id_sets sets)
  | .runNodeSetsReplaced _ => graph
  | .nodeAdded node _ => graph.insert node
  | .nodeDropped node _ => (graph.remove node).modifyAll (withoutConsumed node)
  | .reparent node _ deps => graph.modify node (reparented deps) (id_reparented deps)
  | .edgeRemoved «from» «to» => graph.modify «to» (withoutEdge «from»)
  | .edgeAdded «from» «to» target => graph.modify «to» (withEdge «from» target)
  | .nodeParked node _ _ => graph.modify node (fun n => { n with parked := true }) (Graph.id_parked true)
  | .settledFromEvidence node _ _ => graph.modify node (fun n => { n with parked := false }) (Graph.id_parked false)
  | .landingFromEvidence _ _ => graph
  | .nodeRequeued node amend =>
    match (graph.get node).bind fun existing => requeued serde existing amend with
    | some amended => graph.insert amended
    | none => graph
  | .taskAmended node text => graph.modify node (fun n => { n with amendment := some text }) (Graph.id_amendment text)
  | .contextAdded node note .deferred => graph.modify node fun n => { n with context := some note }
  | .contextAdded _ _ .live => graph
  | .noteWithdrawn node _ _ .carried text alikeAfter =>
    graph.modify node fun n => { n with context := n.context.bind fun c => withoutCarried c text alikeAfter }
  | .noteWithdrawn _ _ _ .live _ _ => graph
  | .noteDelivered node _ text _ (.carried _) _ _ =>
    graph.modify node fun n => { n with context := some (withCarried n.context text) }
  | .noteDelivered .. => graph
  | .retitled node _ title _ => graph.modify node fun n => { n with title := some title }
  | .humanAttested _ | .completionRequested _ | .findingRaised _ _ _ | .retryRequested _ _ _
  | .reworkRequested _ _ _ _ _ _ | .declineApplied _ _ _ _ => graph

/-- a command's operations onto a graph, in order -/
def applyAll (serde : NodeSerde) (graph : Graph) (operations : List Operation) : Graph :=
  operations.foldl (apply serde) graph

/-! ## The frontier -/

/-- one compiled operation onto the frontier of the envelope's next command -/
def advanceOne (sib : Siblings) (frontier : Frontier) : Operation → Frontier
  | .runNodeSetsReplaced sets => { frontier with runNodeSets := some sets }
  | .nodeParked node «by» reason => { frontier with parks := frontier.parks.insert node (Park.of «by» reason) }
  | .nodeRequeued node _ =>
    { frontier with parks := frontier.parks.erase node, recorded := frontier.recorded.erase node }
  | .reparent node _ _ =>
    if frontier.recorded[node]? = some .waiting then { frontier with recorded := frontier.recorded.erase node }
    else frontier
  | .humanAttested node =>
    { frontier with
      attestations := frontier.attestations.insert node
      recorded := frontier.recorded.insert node .done }
  | .settledFromEvidence node outcome _ =>
    { frontier with
      recorded := frontier.recorded.insert node (settledStatus outcome)
      parks := frontier.parks.erase node }
  | .landingFromEvidence node landing =>
    match StatedLanding.parse sib landing with
    | some stated => { frontier with statedLandings := frontier.statedLandings.insert node stated }
    | none => frontier
  | .retryRequested node replacement _ =>
    { frontier with
      superseded := frontier.superseded.insert node replacement
      exportEdges := edgesNow frontier.exportEdges ((∅ : StrMap String).insert node replacement) }
  | _ => frontier

def advance (sib : Siblings) (frontier : Frontier) (operations : List Operation) : Frontier :=
  operations.foldl (advanceOne sib) frontier

end OnePipeline
