/-
Where a landing node is placed (`src/stack.rs`: `placement`, `root_of`, `ancestors`), the drafts a restack is owed
(`restacks_owed`, `newest_of`), and what the fold keeps of a stack (`src/projection.rs`).

A placement refuses a record it cannot place on; what it answers is a stack of at least one parent, or none.
-/
import Mathlib.Tactic
import OnePipeline.Core.Checks
import OnePipeline.Core.Worklist
import OnePipeline.Model.Lineage
import OnePipeline.Model.Stack

namespace OnePipeline

open Checks

/-! ## What a settlement records of a stack -/

/-- one stack parent as a settlement records it -/
structure SettledParent where
  node : String
  branch : String
  head : String
deriving DecidableEq, Repr

structure SettledStack where
  parents : List SettledParent
  stackBase : Option String
deriving DecidableEq, Repr

/-- whether a view can print what it carries, and its parents are not empty -/
def SettledStack.isUsable (sib : Siblings) (stack : SettledStack) : Bool :=
  !stack.parents.isEmpty &&
    (stack.parents.all fun parent =>
      (usable sib parent.node).isSome && (usable sib parent.branch).isSome && (usable sib parent.head).isSome) &&
    stack.stackBase.all fun stackBase => (usable sib stackBase).isSome

/-- the record a settlement on a stack carries, each parent's head as `heads` names it by branch -/
def Stack.settled (stack : Stack) (heads : StrMap String) : SettledStack where
  parents := stack.parents.map fun parent =>
    { node := parent.node, branch := parent.branch, head := heads[parent.branch]?.getD parent.head }
  stackBase :=
    match stack with
    | .onParent _ => none
    | .onStackBase _ branch _ => some branch

/-- a run's state with what only its stacks are read from -/
structure StackedRun extends RunState where
  settledStacks : StrMap SettledStack := ∅
  /-- the drafts whose change request was closed without merging -/
  closedChanges : StrSet := ∅
  /-- the nodes that published a restack -/
  restacks : StrSet := ∅
  /-- the prefix the branches of the run's sessions were cut under, where one was cut -/
  branchPrefix : Option String := none

/-! ## Placement -/

/-- every node of the graph an id depends on, directly or not -/
def ancestors (graph : Graph) (id : String) : List String :=
  let deps (id : String) : List String := (((graph.get id).map Node.deps).getD []).filter fun dep => dep ∈ graph.ids
  Worklist.drain deps (Worklist.fuelOf graph.ids (deps id) (graph.iter.map fun n => n.deps.length).sum) (deps id) []

/-- the stack base a node with several stack parents is placed on -/
def stackBaseBranch (before plan node : String) : String := s!"{before}stack-base/{plan}/{node}"

namespace StackedRun

/-- the node on whose branch a dependency stands: itself, or the last node it was absorbed into -/
def standsOn (s : StackedRun) (dep : String) : String := Chase.follow (fun id => s.absorbed[id]?) s.absorbed.size [] dep

/-- the root a settled node's work stands on: its own base branch, the root of the stack it was drafted on, or the base its session
opened on -/
def rootFrom (s : StackedRun) : ℕ → List String → String → Option String
  | 0, _, _ => none
  | fuel + 1, seen, id =>
    if id ∈ seen then none
    else
      match (s.graph.get id).bind Node.baseBranch with
      | some base => some base
      | none =>
        match s.settledStacks[id]?.bind fun stack => stack.parents.head? with
        | some lowest => s.rootFrom fuel (id :: seen) lowest.node
        | none => s.bases[id]?

/-- each id on the way but the last holds a stack, and is met once -/
def rootOf (s : StackedRun) (id : String) : Option String := s.rootFrom (s.settledStacks.size + 1) [] id

section

variable (s : StackedRun) (statuses : StrMap NodeStatus) (same : String → String → Bool)

/-- whether a node's unlanded work is on a branch the record names, in the repository of another -/
def standsFor (repo : String) (parent : Node) : Bool :=
  match parent.repo with
  | none => false
  | some parentRepo =>
    if statuses[parent.id]? ≠ some .done ∨ s.landings[parent.id]? ≠ some .unlanded ∨ parent.id ∉ s.branches then false
    else decide (parentRepo = repo) || same repo parentRepo

/-- a dependency's node taken in, where it is a stack parent and is not in already -/
def addCandidate (repo : String) (candidates : List String) (dep : String) : List String :=
  match s.graph.get (s.standsOn dep) with
  | none => candidates
  | some parent =>
    if parent.id ∈ candidates then candidates
    else if s.standsFor statuses same repo parent then candidates ++ [parent.id]
    else candidates

def candidates (repo : String) (node : Node) : List String := node.deps.foldl (s.addCandidate statuses same repo) []

/-- the candidates that no other carries on its branch -/
def kept (candidates : List String) : List String :=
  candidates.filter fun candidate => !candidates.any fun other => other ≠ candidate && candidate ∈ ancestors s.graph other

/-- a stack parent as the record holds it; a node without a recorded branch is no candidate -/
def parentOf (node : Node) (id : String) : Except String StackParent :=
  match s.heads[id]? with
  | none =>
    .error (s!"node '{node.id}' has stack parent '{id}', which is done and unlanded with no commit recorded for its branch, " ++
      "so nothing says what to draft it against")
  | some head => .ok { node := id, branch := s.branches[id]?.getD "", head, changeUrl := s.changeUrls[id]? }

/-- where several stack parents place a node: on a base assembled from its root -/
def onBase (node : Node) (plan : String) (kept : List String) (parents : Several) : Except String Stack :=
  match node.baseBranch.or ((parents.parents.head?).bind fun first => s.rootOf first.node) with
  | none =>
    .error (s!"node '{node.id}' has stack parents " ++ ", ".intercalate kept ++
      " and the run's record names no root base to assemble their stack base from")
  | some root => .ok (.onStackBase root (stackBaseBranch (s.branchPrefix.getD "") plan node.id) parents)

/-- where a node is placed: on no stack, or on the one its unlanded dependencies make -/
def placement (node : Node) (plan : String) : Except String (Option Stack) :=
  match node.publish, node.repo with
  | .preserve, _ | _, none => .ok none
  | .land, some repo => do
    let kept := s.kept (s.candidates statuses same repo node)
    let parents ← kept.mapM (s.parentOf node)
    match Several.of parents with
    | some several => (s.onBase node plan kept several).map some
    | none => pure (parents.getLast?.map .onParent)

end

/-! ## Restacks -/

inductive RestackCause where
  | rework
  | restack
deriving DecidableEq, Repr

/-- a draft a restack is owed to -/
structure Owed where
  node : String
  branch : String
  /-- its recorded stack, each parent named by its lineage's newest node and at the head its branch stands at -/
  stack : Stack
  cause : RestackCause
deriving DecidableEq

section

variable (s : StackedRun)

/-- the head a parent's branch moved to since the stack was recorded -/
def movedTo (parent : SettledParent) : Option String := s.branchHeads[parent.branch]?.filter fun now => now ≠ parent.head

/-- a recorded parent as it stands now -/
def standing (parent : SettledParent) : StackParent where
  node := s.newestOf parent.node
  branch := parent.branch
  head := (s.movedTo parent).getD parent.head
  changeUrl := s.changeUrls[s.newestOf parent.node]?.or s.changeUrls[parent.node]?

/-- the newest node of the first parent whose branch moved -/
def firstMoved (recorded : SettledStack) : Option String :=
  (recorded.parents.find? fun parent => (s.movedTo parent).isSome).map fun parent => s.newestOf parent.node

/-- the stack a draft is restacked on: none where the record's base and parents disagree, or it names no root -/
def restackedOn (node : Node) (recorded : SettledStack) : Option Stack :=
  let parents := recorded.parents.map s.standing
  match recorded.stackBase, Several.of parents with
  | none, none => if parents.length = 1 then parents.head?.map .onParent else none
  | some stackBase, some several =>
    (node.baseBranch.or ((several.parents.head?).bind fun first => s.rootOf first.node)).map fun root =>
      .onStackBase root stackBase several
  | _, _ => none

/-- whether a node's draft is on the record, with nothing in flight: what a restack can be owed to -/
def isIdleDraft (statuses : StrMap NodeStatus) (busy : String → Bool) (node : Node) : Bool :=
  node.repo.isSome && decide (statuses[node.id]? = some .done) && decide (s.landings[node.id]? = some .unlanded) &&
    decide (node.id ∉ s.absorbed) && decide (node.id ∉ s.closedChanges) && !busy node.id

/-- the restack a node is owed -/
def owedTo (statuses : StrMap NodeStatus) (busy : String → Bool) (node : Node) : Option Owed :=
  if s.isIdleDraft statuses busy node then do
    let branch ← s.branches[node.id]?
    let recorded ← s.settledStacks[node.id]?
    let moved ← s.firstMoved recorded
    let stack ← s.restackedOn node recorded
    let cause := if moved ∈ s.restacking ∨ moved ∈ s.restacks then .restack else .rework
    pure { node := node.id, branch, stack, cause }
  else none

/-- every draft a restack is owed to, in graph order -/
def restacksOwed (statuses : StrMap NodeStatus) (busy : String → Bool) : List Owed :=
  s.graph.iter.filterMap (s.owedTo statuses busy)

end

/-! ## The fold -/

/-- what a record says that only stacks are read from -/
inductive StackSays where
  | settledOn (stack : Option SettledStack)
  | changeClosed (node : String)
  | changeReopened (node : String)
  | sessionCut (branchPrefix : String)
  | nothing

/-- a settlement's stack, read where it states where its change request is based: one it can use, or none -/
def foldSettledStack (sib : Siblings) (s : StackedRun) (node : String) (settled : Settlement) (stack : Option SettledStack) :
    StrMap SettledStack :=
  if settled.base.isSome then
    match stack.filter (SettledStack.isUsable sib) with
    | some stack => s.settledStacks.insert node stack
    | none => s.settledStacks.erase node
  else s.settledStacks

/-- one record onto what is beside the rest of the state -/
def foldBeside (sib : Siblings) (s : StackedRun) (e : Envelope) (said : StackSays) : StackedRun :=
  match e.body, said with
  | .nodeSettled settled, said =>
    match e.node with
    | some node =>
      { s with
        settledStacks := s.foldSettledStack sib node settled (match said with | .settledOn stack => stack | _ => none) }
    | none => s
  | .nodeRestacked (some node), _ => if node ∈ s.restacking then { s with restacks := s.restacks.insert node } else s
  | .nodeLanded (some node), _ => { s with closedChanges := s.closedChanges.erase node }
  | .report _, .changeClosed node => { s with closedChanges := s.closedChanges.insert node }
  | .report _, .changeReopened node => { s with closedChanges := s.closedChanges.erase node }
  | .relayed .., .sessionCut before => { s with branchPrefix := some before }
  | _, _ => s

/-- one record onto the state and what is beside it: one of this crate's own where this build reads its version -/
def foldRecord (host : Host) (s : StackedRun) (record : Envelope × StackSays) : StackedRun :=
  let beside :=
    if record.1.isPipeline → writtenAtAKnownVersion record.1 then s.foldBeside host.toSiblings record.1 record.2 else s
  { beside with toRunState := s.toRunState.foldRecord host record.1 }

end StackedRun

end OnePipeline
