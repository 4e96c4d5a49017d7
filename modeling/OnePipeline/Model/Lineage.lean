/-
The walks over a run's lineages: which node carries a superseded node's work now (`src/readjust.rs`: `head_of`;
`src/stack.rs`: `newest_of`; the walk of `src/boundary.rs`: `edges_now` is `latest`), which node a lineage began from
(`src/boundary.rs`: `lineage_root`; `src/edits.rs` has its own), which change request a lineage opened, and the plan a run
stands at (`src/boundary.rs`: `plan_now`).

Each walk sees an id once, so its turns are bounded by the ids superseded.
-/
import Mathlib.Tactic
import OnePipeline.Core.Chase
import OnePipeline.Model.Projection

namespace OnePipeline

namespace RunState

/-- the newest node every supersession since `node` names -/
def headOf (s : RunState) (node : String) : String :=
  Chase.follow (fun id => s.superseded[id]?) (s.superseded.size + 1) [] node

/-- the newest node of a lineage, as a restack names it -/
def newestOf (s : RunState) (id : String) : String :=
  Chase.follow (fun id => s.superseded[id]?) (s.superseded.size + 1) [] id

/-- the change request a node is known to have opened, a stated one first -/
def knownChangeUrl (sib : Siblings) (s : RunState) (node : String) : Option String :=
  match s.statedChangeUrls[node]?.or (s.changeUrls[node]?.bind (StatedLanding.parse sib)) with
  | some (.changeRequest url) => some url
  | _ => none

end RunState

/-- the first node superseded by `id`, in the order of the ids -/
def predecessor (superseded : StrMap String) (id : String) : Option String :=
  (superseded.toList.find? fun p => p.2 = id).map Prod.fst

/-- the id the plan launched `id` under -/
def Boundary.lineageRoot (id : String) (superseded : StrMap String) : String :=
  Chase.follow (predecessor superseded) (superseded.size + 1) [] id

/-- the newest change request on the way back through a lineage -/
def changeBack (known : String → Option String) (before : String → Option String) : ℕ → List String → String → Option String
  | 0, _, _ => none
  | fuel + 1, seen, id =>
    match known id with
    | some url => some url
    | none => if id ∈ seen then none else (before id).bind (changeBack known before fuel (id :: seen))

/-- the change request a node's lineage opened: its own, or the newest one a node it superseded recorded -/
def RunState.lineageChange (sib : Siblings) (s : RunState) (node : String) : Option String :=
  changeBack (s.knownChangeUrl sib) (predecessor s.superseded) (s.superseded.size + 2) [] node

/-- the plan a run stands at: its live graph under the launch plan's fields, its export edges following every supersession -/
def Boundary.planNow (s : RunState) : Plan :=
  let launched := s.plan.getD
    { schemaVersion := planSchemaVersion, concurrency := max s.graph.concurrency 1, tasks := [] }
  { s.graph.toPlan launched with exportEdges := edgesNow launched.exportEdges s.superseded }

end OnePipeline
