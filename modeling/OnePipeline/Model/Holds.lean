/-
What human items hold (`src/human_items/runtime.rs`, `src/human_items/live.rs`): the steps a driver keeps from dispatch,
read off the run's graph, and the steps a view says an item blocks, read off the run's cached DAG.

A set of ids is a list no id is in twice. The host's runs are the cached DAGs by run; the journal position each is cached
at says only when to derive it again.
-/
import Mathlib.Tactic
import OnePipeline.Core.Flood
import OnePipeline.Model.Graph
import OnePipeline.Model.HumanItem

namespace OnePipeline.HumanItems

open Flood

/-! ## What a driver holds -/

/-- `BTreeSet::insert` -/
def insertNew (held : List String) (id : String) : List String := if id ∈ held then held else held ++ [id]

/-- `BTreeSet::extend` -/
def extend (held ids : List String) : List String := ids.foldl insertNew held

/-- the fuel a traversal of a graph's dependents takes -/
def traversal (nodes : ℕ) : ℕ := nodes + 2

section

variable (run plan : String) (graph : Graph) (statuses : StrMap NodeStatus)

/-- the steps one open block holds, added to those held -/
def holdFor (held : List String) : HumanItemBlock → List String
  | .host => extend held graph.ids
  | .plan p => if p = plan then extend held graph.ids else held
  | .work r node =>
    -- a work hold binds a step that has not settled
    if r = run ∧ statuses[node]? ≠ some .done then
      let held := if (graph.get node).any (·.kind ≠ .human) then insertNew held node else held
      flood graph.dependentsOf (traversal graph.ids.length) [node] held
    else held
  | .nothing => held

/-- every node of a run an open block holds -/
def held (items : List HumanItem) : List String :=
  (items.filter HumanItem.isBlocking).foldl (fun held item => holdFor run plan graph statuses held item.block) []

end

/-! ## What a view lists -/

/-- one node of a run's DAG as the blocked-step derivation reads it -/
structure DagNode where
  id : String
  title : String
  deps : List String
  human : Bool
  undispatched : Bool
deriving DecidableEq, Repr

structure RunDag where
  plan : String
  nodes : List DagNode
deriving DecidableEq, Repr

/-- a status no dispatch has been made at -/
def undispatched : NodeStatus → Bool
  | .pending | .ready | .waiting | .blocked => true
  | _ => false

/-- the status a node is read at -/
def statusOf (statuses : StrMap NodeStatus) (id : String) : NodeStatus := statuses[id]?.getD .pending

/-- the title a node's human-item metadata gives -/
def metadataTitle (metadata : Written) : Option String :=
  match metadata.value with
  | .obj fields => (fields.find? fun f => f.1 = "title").bind fun f => f.2.asStr
  | _ => none

/-- a run's DAG off its state -/
def deriveDag (project : String) (graph : Graph) (statuses : StrMap NodeStatus) : RunDag where
  plan := project
  nodes := graph.iter.map fun node =>
    { id := node.id
      title := ((node.title.filter fun t => !Text.isBlank t).or (node.humanItem.bind metadataTitle)).getD node.id
      deps := node.deps
      human := node.kind = .human
      undispatched := undispatched (statusOf statuses node.id) }

/-- the nodes of a DAG that depend on one -/
def RunDag.dependents (dag : RunDag) (id : String) : List String := (dag.nodes.filter fun n => id ∈ n.deps).map DagNode.id

/-- the undispatched steps a work hold on a node keeps from running -/
def blockedByWork (dag : RunDag) (node : String) : List DagNode :=
  let reached := flood dag.dependents (traversal dag.nodes.length) [node] []
  dag.nodes.filter fun n => n.undispatched && (n.id ∈ reached || n.id = node && !n.human)

/-- an affected step -/
structure HumanItemNode where
  run : String
  node : String
  title : String
deriving DecidableEq, Repr

/-- a step added to its plan's group, or to one of its own -/
def push (groups : List (String × List HumanItemNode)) (plan run : String) (node : DagNode) :
    List (String × List HumanItemNode) :=
  let entry : HumanItemNode := { run, node := node.id, title := node.title }
  if groups.any (·.1 = plan) then groups.map fun g => if g.1 = plan then (g.1, g.2 ++ [entry]) else g
  else groups ++ [(plan, [entry])]

/-- each step of a run added to its group -/
def pushAll (groups : List (String × List HumanItemNode)) (plan run : String) (nodes : List DagNode) :
    List (String × List HumanItemNode) :=
  nodes.foldl (fun groups n => push groups plan run n) groups

/-- every step an item holds, grouped by plan in plan order -/
def blockedNodes (runs : StrMap RunDag) (item : HumanItem) : List (String × List HumanItemNode) :=
  if item.isBlocking = false then []
  else
    match item.block with
    | .nothing => []
    | .work run node =>
      match runs[run]? with
      | some dag => pushAll [] dag.plan run (blockedByWork dag node)
      | none => []
    | .plan plan =>
      (runs.toList.filter fun r => r.2.plan = plan).foldl
        (fun groups r => pushAll groups plan r.1 (r.2.nodes.filter DagNode.undispatched)) []
    | .host =>
      runs.toList.foldl (fun groups r => pushAll groups r.2.plan r.1 (r.2.nodes.filter DagNode.undispatched)) []

end OnePipeline.HumanItems
