/-
The dependency edges a store answers of one task, and the re-read of a held node's (`src/taskgraph.rs`: `Reader::deps`, `Store::reread`).

What a store answers is given, a task's edges whole; so are the names its own types take, and how a JSON value is written.
-/
import Mathlib.Tactic
import OnePipeline.Core.Checks
import OnePipeline.Model.Sources

namespace OnePipeline.Sources

open Checks Text

/-! ## A store's answers -/

inductive ItemKind where
  | task
  | project
deriving DecidableEq, Repr

def ItemKind.word : ItemKind → String
  | task => "task"
  | project => "project"

structure TaskId where
  source : String
  native : String
deriving DecidableEq, Repr

def TaskId.text (task : TaskId) : String := task.source ++ ":" ++ task.native

inductive DependencyKind where
  | blocks
  | related
deriving DecidableEq, Repr

structure EdgeEnd where
  kind : ItemKind
  id : TaskId
deriving DecidableEq, Repr

structure QualifiedEdge where
  «from» : EdgeEnd
  «to» : EdgeEnd
  kind : DependencyKind
deriving DecidableEq, Repr

/-- what the store answers: a task's edges, with each source it could not ask, and a task's metadata -/
structure Board where
  edges : TaskId → Except String (List QualifiedEdge × List Unanswered)
  metadata : TaskId → Except String Fields

/-- how the store's types read a task's id, and how a value is written -/
structure Spelling where
  task : String → Option TaskId
  json : Value → String

/-! ## A task's dependencies -/

def idKey : String := "onepipeline.id"

/-- the node id a task's metadata carries -/
def nodeId (spelling : Spelling) (metadata : Fields) : Except String String :=
  let unnamed := s!"carries no `{idKey}`, which is the node id this plan's dependencies name it by"
  match metadata[idKey]? with
  | some (.str id) => if isBlank id then .error unnamed else .ok id
  | none => .error unnamed
  | some other => .error s!"carries `{idKey}` as {spelling.json other}, and a node id is a string"

/-- each source that could not be asked once, the first entry of it, by name -/
def collected (unasked : List Unanswered) : List Unanswered :=
  (unasked.foldl (fun (m : StrMap Unanswered) u => if u.name ∈ m then m else m.insert u.name u) ∅).values

def Unanswered.source? (u : Unanswered) : Option String :=
  match u.who with
  | .source source _ => some source
  | _ => none

/-- the node id of an edge's far end -/
def farId (spelling : Spelling) (board : Board) (ids : StrMap String) (task far : TaskId) : Except String String :=
  match ids[far.text]? with
  | some id => .ok id
  | none =>
    match board.metadata far with
    | .error why => .error s!"{task.text}: '{task.text}' depends on '{far.text}', which could not be read: {why}"
    | .ok metadata =>
      match nodeId spelling metadata with
      | .error why => .error s!"{task.text}: '{task.text}' depends on '{far.text}', and the far task {why}"
      | .ok id => .ok id

/-- the prerequisite one edge names, where it is one of the plan's -/
def edgeDep (spelling : Spelling) (board : Board) (ids withdrawn : StrMap String) (unasked : List Unanswered) (task : TaskId)
    (edge : QualifiedEdge) : Except String (Option String) := do
  refuseIf (edge.from.kind ≠ .task)
    s!"asked for the dependencies of task '{task.text}' and answered with an edge from a {edge.from.kind.word}"
  refuseIf (edge.from.id ≠ task)
    s!"asked for the dependencies of '{task.text}' and answered with an edge from '{edge.from.id.text}'"
  if edge.kind ≠ .blocks then pure none
  -- a far end outside the plan, in a source that could not be asked, is the store's to name
  else if edge.to.id.source ∈ unasked.filterMap Unanswered.source? ∧ edge.to.id.text ∉ ids then pure none
  else
    refuseIf (edge.to.kind ≠ .task)
      s!"{task.text}: '{task.text}' depends on '{edge.to.id.text}', which is a {edge.to.kind.word} and not a node of a plan"
    match withdrawn[edge.to.id.text]? with
    | some status => .error (s!"{task.text}: '{task.text}' depends on '{edge.to.id.text}', which is withdrawn — the store reports it " ++
        s!"cancelled, as '{status}' — so no node is made of it; withdraw '{task.text}' too, or remove the dependency")
    | none => (farId spelling board ids task edge.to.id).map some

/-- the node ids a task's edges point at, and each source that could not be asked of it -/
def Board.deps (board : Board) (spelling : Spelling) (ids withdrawn : StrMap String) (task : TaskId) : Except String Reread :=
  match board.edges task with
  | .error why => .error why
  | .ok (edges, unasked) =>
    (edges.mapM (edgeDep spelling board ids withdrawn unasked task)).map fun deps =>
      { deps := deps.filterMap id, unanswered := collected unasked }

/-! ## A re-read -/

/-- the task of the store a node's record names, in its own source or the project's -/
def taskOf (spelling : Spelling) (project : String) (node : Node) : Option TaskId :=
  node.taskRecord.bind fun record =>
    match record.value with
    | .obj fields =>
      ((fields.lookup "id").bind Value.asStr).bind fun id =>
        let source := ((fields.lookup "source").bind Value.asStr).getD project
        spelling.task s!"{source}:{id}"
    | _ => none

/-- the node of each task -/
def idsOf (spelling : Spelling) (project : String) (nodes : List Node) : StrMap String :=
  nodes.foldl (fun ids node => (taskOf spelling project node).elim ids fun task => ids.insert task.text node.id) ∅

/-- what the store answers of each node's edges, where it carries a task -/
def Board.read (board : Board) (spelling : Spelling) (project : String) (nodes : List Node) (node : Node) : Option (Except String Reread) :=
  (taskOf spelling project node).map (board.deps spelling (idsOf spelling project nodes) ∅)

end OnePipeline.Sources
