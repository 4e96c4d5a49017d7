/-
The repository publication boundary (`src/boundary.rs`): which nodes of a plan are public and which private, the run's
term scope, and the judgement of a plan against the boundary's rules.

What `onevcs` answers is a parameter, `Oracle`: what a repository is, and whether something may be written somewhere
public. An oracle's answer to a question is one answer: the source asks a host once and keeps it.
-/
import Mathlib.Tactic
import OnePipeline.Core.Checks
import OnePipeline.Model.Validate

namespace OnePipeline.Boundary

open Checks

/-- which side of the boundary a node's work is on -/
inductive Clearance where
  | «public»
  | «private»
deriving DecidableEq, Repr, Inhabited

/-- the stricter of two clearances -/
def Clearance.max : Clearance → Clearance → Clearance
  | .private, _ => .private
  | .public, c => c

/-- how a term scope names a repository -/
inductive Identity where
  | registered (key : String)
  | unresolved (spelling : String)
deriving DecidableEq, Repr

def Identity.intoScope : Identity → String
  | registered key | unresolved key => key

/-- what a repository's spelling resolves to -/
structure Repository where
  clearance : Clearance
  identity : Identity
deriving DecidableEq, Repr

/-- what a public write is asked about: its text, paths and metadata, and the scope its terms are derived from -/
structure BoundaryInput where
  text : List String
  paths : List String
  metadata : List String
  scope : List String
deriving DecidableEq, Repr

inductive BoundaryVerdict where
  | pass
  | refused (reason : Option String)
deriving DecidableEq, Repr

structure Oracle where
  repository : String → Repository
  check : BoundaryInput → BoundaryVerdict

/-! ## What a node names -/

/-- the repositories a node's task record names -/
def recordRepositories (record : Written) : List String :=
  match record.value with
  | .obj fields =>
    match fields.lookup "repositories" with
    | some (.arr items) => items.filterMap Value.asStr
    | _ => []
  | _ => []

/-- a node's `repo`, then whatever else its record names -/
def repositoriesOf (node : Node) : List String :=
  (node.taskRecord.elim [] recordRepositories).foldl
    (fun named repository => if repository ∈ named then named else named ++ [repository]) node.repo.toList

/-! ## The resolution -/

/-- how the boundary stands for one plan -/
@[ext]
structure Resolved where
  clearances : StrMap Clearance := ∅
  publicDestinations : StrSet := ∅
  scope : List String := []

namespace Resolved

/-- a node this resolution never saw is private -/
def clearance (r : Resolved) (node : String) : Clearance := r.clearances[node]?.getD .private

end Resolved

section

variable (oracle : Oracle)

/-- what a node's own task and repositories say, before anything is inherited -/
def ownClearance (node : Node) : Option Clearance :=
  (repositoriesOf node).foldl
    (fun clearance repo => if (oracle.repository repo).clearance = .private then some .private else clearance)
    (if node.classification = .private then some .private
     else if repositoriesOf node ≠ [] then some .public else none)

/-- what the private repositories a node names add to the term scope -/
def scopeOf (node : Node) : List String :=
  ((repositoriesOf node).filter fun repo => (oracle.repository repo).clearance = .private).map fun repo =>
    (oracle.repository repo).identity.intoScope

def ownClearances (plan : Plan) : StrMap (Option Clearance) :=
  plan.tasks.foldl (fun own node => own.insert node.id (ownClearance oracle node)) ∅

/-- the dependencies of each node that are not export edges: an export edge carries no clearance across it -/
def inheritedDeps (plan : Plan) : StrMap (List String) :=
  plan.tasks.foldl (fun deps node => deps.insert node.id (node.deps.filter fun dep => !isExport plan dep node.id)) ∅

/-- the strictest of what some dependencies answer, in order, each settling what it does -/
def strictest (answer : String → StrMap Clearance → Clearance × StrMap Clearance) (deps : List String)
    (done : StrMap Clearance) : Clearance × StrMap Clearance :=
  deps.foldl (fun acc dep => (acc.1.max (answer dep acc.2).1, (answer dep acc.2).2)) (.public, done)

/--
A node's clearance, and the clearances settled by then. A node saying nothing of its own takes the strictest of what it
depends on; one met again while it is being visited answers public. The recursion goes no deeper than there are nodes.
-/
def inherit (own : StrMap (Option Clearance)) (deps : StrMap (List String)) :
    ℕ → String → StrMap Clearance → StrSet → Clearance × StrMap Clearance
  | 0, _, done, _ => (.public, done)
  | fuel + 1, id, done, visiting =>
    match done[id]? with
    | some settled => (settled, done)
    | none =>
      let (clearance, done) :=
        match own[id]?.join with
        | some clearance => (clearance, done)
        | none =>
          if id ∈ visiting then (.public, done)
          else
            strictest (fun dep done => inherit own deps fuel dep done (visiting.insert id))
              ((deps[id]?.getD []).filter fun dep => own.contains dep) done
      (clearance, done.insert id clearance)

/-- every node's clearance, and the run's term scope -/
def resolve (plan : Plan) : Resolved :=
  let own := ownClearances oracle plan
  let deps := inheritedDeps plan
  let inherited := plan.tasks.foldl
    (fun (acc : StrMap Clearance × StrMap Clearance) node =>
      let (clearance, done) := inherit own deps (plan.tasks.length + 1) node.id acc.2 ∅
      (acc.1.insert node.id clearance, done))
    (∅, ∅)
  let scope : StrSet := plan.tasks.foldl (fun s node => (scopeOf oracle node).foldl (fun s key => s.insert key) s) ∅
  { clearances := inherited.1
    publicDestinations := plan.tasks.foldl
      (fun s node => if ownClearance oracle node = some .public then s.insert node.id else s) ∅
    scope := scope.toList }

/-! ## The judgement -/

/-- where a plan is judged: as a document is loaded, or as a live edit leaves the graph -/
inductive Stage where
  | load
  | edit
deriving DecidableEq, Repr

/-- the export edge a node consumes, where it consumes one -/
def consumedBy (plan : Plan) (node : String) : Option ExportEdge := plan.exportEdges.find? fun edge => edge.to = node

/-- where an id stands in a plan, from one, as a refusal names a task -/
def position (plan : Plan) (id : String) : ℕ := (plan.tasks.findIdx? fun node => node.id = id).getD plan.tasks.length + 1

def isPreserving (node : Node) : Bool := node.repo.isSome && node.publish = .preserve

/-- the ends of one export edge, as its number refuses them -/
def checkEnds (resolved : Resolved) (stage : Stage) (number : ℕ) (producer consumer : Node) : Except Refusal Unit := do
  refuseIf (resolved.clearance producer.id ≠ .private ∨ isPreserving producer = false)
    (refusedPlan (s!"export edge {number}: an export producer must be a private lifecycle node that publishes with " ++
      "`publish: \"preserve\"`."))
  refuseIf (resolved.clearance consumer.id ≠ .public ∨ consumer.id ∉ resolved.publicDestinations)
    (refusedPlan (s!"export edge {number}: an export consumer must be a public lifecycle node: its classification " ++
      "and every repository it names public."))
  refuseIf (consumer.baseBranch.isSome ∨ stage = .load ∧ (consumer.branch.isSome ∨ consumer.resume.isSome))
    (refusedPlan (s!"export edge {number}: an export consumer's session starts from its export, so it may not name " ++
      "an alternate private context — a `base_branch`, a `branch` or a `resume`."))

/-- a plan's node of an id: of two, the later -/
def nodeOf (plan : Plan) (id : String) : Option Node := plan.tasks.reverse.find? fun node => node.id = id

def checkProducers (plan : Plan) (resolved : Resolved) (stage : Stage) : Except Refusal Unit :=
  each (fun (p : ExportEdge × ℕ) =>
    match nodeOf plan p.1.from, nodeOf plan p.1.to with
    | some producer, some consumer => checkEnds resolved stage (p.2 + 1) producer consumer
    | _, _ => .ok ()) plan.exportEdges.zipIdx

/-- every dependency of a public destination on a private node is an export edge -/
def checkDestinations (plan : Plan) (resolved : Resolved) : Except Refusal Unit :=
  each (fun node =>
    each (fun dep =>
      refuseIf (resolved.clearance dep = .private ∧ isExport plan dep node.id = false)
        ((refusedPlan (if (consumedBy plan node.id).isSome then
          s!"task {position plan node.id} depends on a private node beside its export edge, an alternate private " ++
            "context its public session may not carry."
        else
          s!"task {position plan node.id} is public and depends on a private node through an ordinary dependency, " ++
            "which would carry private work into public output.")).withField "deps"))
      (node.deps.filter fun dep => dep ∈ plan.tasks.map Node.id))
    (plan.tasks.filter fun node => node.id ∈ resolved.publicDestinations)

/-- what an edge's consumer and directories are asked of the term check as -/
def boundaryInput (resolved : Resolved) (edge : ExportEdge) (consumer : Node) : BoundaryInput :=
  { text := consumer.task.toList ++ consumer.body.toList ++ consumer.amendment.toList ++ consumer.context.toList
    paths := [edge.sourceDirectory, edge.targetDirectory]
    metadata := consumer.id :: consumer.title.toList
    scope := resolved.scope }

def checkNeutral (plan : Plan) (resolved : Resolved) : Except Refusal Unit :=
  each (fun (p : ExportEdge × ℕ) =>
    match nodeOf plan p.1.to with
    | some consumer =>
      match oracle.check (boundaryInput resolved p.1 consumer) with
      | .pass => .ok ()
      | .refused reason =>
        let told := reason.getD ""
        .error (refusedPlan (s!"export edge {p.2 + 1}: an export consumer's id, title, task and directories must be " ++
          s!"neutral: {told}."))
    | none => .ok ()) plan.exportEdges.zipIdx

/-- a plan against the boundary's rules; both ends of an edge are nodes once the edges' own shape is checked -/
def check (sib : Siblings) (plan : Plan) (stage : Stage) : Except Refusal Resolved := do
  let resolved := resolve oracle plan
  checkEdges sib plan
  checkProducers plan resolved stage
  checkDestinations plan resolved
  checkNeutral oracle plan resolved
  pure resolved

end

end OnePipeline.Boundary
