/-
What a readjustment takes up of one read of the run's drafts (`src/readjust.rs`: `drafts`, `take_up`, `landed`): the
drafts merged into another node's branch, the drafts merged into their root, and what lands with those.

What the read says of a closed draft, of a base moved by hand and of a verdict is taken up beside this and journals
nothing of a landing. A record is one the journal took.
-/
import Mathlib.Tactic
import OnePipeline.Core.Maps
import OnePipeline.Core.Worklist
import OnePipeline.Model.Lineage

namespace OnePipeline.Readjust

/-- one draft of a run: a lineage head on a repository, with the change request its lineage opened -/
structure Draft where
  node : String
  url : String
  repo : String
deriving DecidableEq, Repr

/-- every draft of a run, in graph order; `closed` are the nodes whose change request was closed without merging -/
def drafts (sib : Siblings) (closed : StrSet) (s : RunState) : List Draft :=
  (s.graph.iter.filter fun node =>
    node.id ∉ s.superseded ∧ s.landings[node.id]? ≠ some .landed ∧ node.id ∉ s.absorbed ∧ node.id ∉ closed).filterMap
    fun node => do
      let repo ← node.repo
      let url ← s.lineageChange sib node.id
      pure { node := node.id, url, repo }

/-! ## The read -/

/-- what a host says of one change request -/
inductive ChangeState where
  | «open»
  | merged (into commit : String) (landing : Bool)
  | closed (baseDeleted : Bool)
deriving DecidableEq, Repr

structure ChangeStanding where
  headBranch : String
  state : ChangeState
deriving DecidableEq, Repr

inductive LandingDetection where
  | readjust
  | absorberLanded
deriving DecidableEq, Repr

inductive ReadjustTrigger where
  | review
  | readjust
  | rework
  | placement
  | continuation
deriving DecidableEq, Repr

structure NodeLanded where
  node : String
  changeUrl : String
  commit : String
  detectedBy : LandingDetection
  trigger : ReadjustTrigger
  via : Option String
deriving DecidableEq, Repr

/-- a record a readjustment journals -/
inductive Emitted where
  | nodeAbsorbed (node into changeUrl commit : String)
  | nodeLanded (landed : NodeLanded)
  | stackLandedOutOfOrder (node : String) (carried : List String)
deriving DecidableEq, Repr

/-- what one read has landed and absorbed so far, before its records are folded -/
structure Found where
  landed : List String := []
  absorbed : StrMap String := ∅

section

variable (sib : Siblings) (identity : String → String) (s : RunState) (trigger : ReadjustTrigger)

/-- the repository a node works in -/
def repoOf (node : String) : Option String := (s.graph.get node).bind Node.repo

/-- the lineage head of `repo` whose recorded branch is `branch` -/
def branchOwner (repo branch : String) : Option String :=
  (s.branches.toList.find? fun p =>
    p.2 = branch ∧ (repoOf s p.1).any (fun held => identity held = identity repo) ∧ p.1 ∉ s.superseded).map Prod.fst

/-- the draft of a read whose branch is `branch`; of two the later is held -/
def byBranch (read : List (Draft × ChangeStanding)) (repo branch : String) : Option String :=
  (read.reverse.find? fun p => identity p.1.repo = identity repo ∧ p.2.headBranch = branch).map fun p => p.1.node

/-- the node a draft was merged into, and the commit, where it was merged into another node's branch -/
def absorberOf (read : List (Draft × ChangeStanding)) (p : Draft × ChangeStanding) : Option (String × String) :=
  match p.2.state with
  | .merged into commit false =>
    (((byBranch identity read p.1.repo into).or (branchOwner identity s p.1.repo into)).filter (· ≠ p.1.node)).map
      fun absorber => (absorber, commit)
  | _ => none

/-- the absorptions a read finds: which are journalled, and the map they leave -/
def absorptions (read : List (Draft × ChangeStanding)) : List Emitted × StrMap String :=
  read.foldl (fun acc p =>
    match absorberOf identity s read p with
    | some (into, commit) => (acc.1 ++ [.nodeAbsorbed p.1.node into p.1.url commit], acc.2.insert p.1.node into)
    | none => acc) ([], ∅)

/-- what one node depends on, and that depends on, within its repository -/
def carriedBy (node : String) : List String :=
  let repo := (s.graph.get node).bind Node.repo
  let deps (id : String) : List String :=
    (((s.graph.get id).map Node.deps).getD []).filter fun dep => (s.graph.get dep).any fun n => n.repo = repo
  Worklist.drain deps (Worklist.fuelOf s.graph.ids (deps node) (s.graph.iter.map fun n => n.deps.length).sum) (deps node) []

/-- every unlanded draft of a node's repository it depends on -/
def unlandedAncestors (node : String) (landedNow : List String) : List String :=
  let found := carriedBy s node
  s.graph.ids.filter fun id =>
    id ∈ found ∧ id ∉ s.superseded ∧ s.landings[id]? ≠ some .landed ∧ id ∉ landedNow ∧ id ∉ s.absorbed ∧
      (s.lineageChange sib id).isSome = true

/-- every absorption, recorded or found by the read -/
def everyAbsorbed (found : Found) : StrMap String := Maps.insertAll s.absorbed found.absorbed.toList

/-- what lands with a node: each absorbed node, what it was merged into, and how many merges away the node is -/
def absorbedInto (every : StrMap String) (node : String) : List (String × String × ℕ) :=
  (every.toList.filterMap fun p =>
    (Chase.landing (fun id => every[id]?) (every.size + 1) [p.1] p.2 1).bind fun last =>
      if last.1 = node then some (p.1, p.2, last.2) else none).mergeSort fun a b => a.2.2 ≤ b.2.2

/-- the record of one absorbed node, where it has one to land -/
def landedWith (commit : String) (p : String × String × ℕ) : Option Emitted :=
  if s.landings[p.1]? = some .landed then none
  else
    (s.lineageChange sib p.1).map fun url =>
      .nodeLanded
        { node := p.1, changeUrl := url, commit, detectedBy := .absorberLanded, trigger, via := some p.2.1 }

/-- what a draft found merged into its root journals -/
def landed (draft : Draft) (commit : String) (found : Found) : List Emitted :=
  let own : Emitted :=
    .nodeLanded { node := draft.node, changeUrl := draft.url, commit, detectedBy := .readjust, trigger, via := none }
  let withIt := (absorbedInto (everyAbsorbed s found) draft.node).filterMap (landedWith sib s trigger commit)
  let carried := unlandedAncestors sib s draft.node found.landed
  own :: withIt ++ if carried.isEmpty then [] else [.stackLandedOutOfOrder draft.node carried]

/-- the drafts a read finds merged into their root, in turn -/
def landings : Found → List (Draft × ChangeStanding) → List Emitted
  | _, [] => []
  | found, p :: read =>
    match p.2.state with
    | .merged _ commit true =>
      landed sib s trigger p.1 commit found ++ landings { found with landed := found.landed ++ [p.1.node] } read
    | _ => landings found read

/-- what a readjustment journals of the absorptions and the landings of one read -/
def takeUp (read : List (Draft × ChangeStanding)) : List Emitted :=
  let absorbed := absorptions identity s read
  absorbed.1 ++ landings sib s trigger { absorbed := absorbed.2 } read

end

end OnePipeline.Readjust
