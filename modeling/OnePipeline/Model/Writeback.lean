/-
What a run's write-back projects (`src/writeback.rs`): every node the run ever held, and the lineages they fall into, one
board item apiece.

The snapshot keeps what lineages are read off.
-/
import Mathlib.Tactic
import OnePipeline.Model.Projection

namespace OnePipeline.Writeback

/-- every node the run ever held: the plan's, each an edit added, and the graph's as it stands -/
def allNodes (s : RunState) : StrMap Node :=
  let insert (m : StrMap Node) (node : Node) : StrMap Node := m.insert node.id node
  let planned := ((s.plan.map Plan.tasks).getD []).foldl insert ∅
  let added := s.nodesAdded.toList.foldl (fun m p => m.insert p.1 p.2) planned
  s.graph.iter.foldl insert added

structure Snapshot where
  nodes : StrMap Node
  superseded : StrMap String

def Snapshot.of (s : RunState) : Snapshot := { nodes := allNodes s, superseded := s.superseded }

/-- a node and every replacement of it, in order -/
structure Lineages where
  /-- every node's root -/
  roots : StrMap String := ∅
  /-- each root's chain, root first and head last -/
  chains : StrMap (List String) := ∅

namespace Lineages

/-- a chain walked forward, up to a node the snapshot does not hold or one already placed; it takes each node once -/
def chainFrom (snapshot : Snapshot) (roots : StrMap String) : ℕ → List String → String → List String
  | 0, chain, _ => chain
  | fuel + 1, chain, at_ =>
    match snapshot.superseded[at_]? with
    | some next =>
      if next ∉ snapshot.nodes ∨ next ∈ roots ∨ next ∈ chain then chain
      else chainFrom snapshot roots fuel (chain ++ [next]) next
    | none => chain

/-- the supersessions walked forward from a root -/
def walk (snapshot : Snapshot) (lineages : Lineages) (root : String) : Lineages :=
  let chain := chainFrom snapshot lineages.roots (snapshot.nodes.size + 1) [root] root
  { roots := chain.foldl (fun roots id => roots.insert id root) lineages.roots
    chains := lineages.chains.insert root chain }

/-- every node that is nobody's replacement roots a lineage, and every node no walk reaches roots one of its own -/
def of (snapshot : Snapshot) : Lineages :=
  let replacements := snapshot.superseded.values
  let rooted := snapshot.nodes.keys.filter fun id => id ∉ replacements
  let lineages := rooted.foldl (walk snapshot) {}
  let unreached := snapshot.nodes.keys.filter fun id => id ∉ lineages.roots
  unreached.foldl (fun lineages root => if root ∈ lineages.roots then lineages else walk snapshot lineages root) lineages

/-- the root of the lineage a node belongs to, or the node itself where the snapshot never held it -/
def rootOf (lineages : Lineages) (id : String) : String := lineages.roots[id]?.getD id

end Lineages

end OnePipeline.Writeback
